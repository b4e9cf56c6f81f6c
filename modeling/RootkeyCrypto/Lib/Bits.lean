/-
  RootkeyCrypto.Lib.Bits — numbers as strings of bits, most significant first, and the
  accumulator that regroups them.

  A list of `w`-bit digits says the bits `bits w ds`, and no other list of such digits says
  the same (`bits_inj`). Code that turns bytes into smaller digits, or back, keeps the bits
  it has read and not yet written as the low `n` bits of a machine word whose higher bits
  are stale. `bitsOf n` reads those low bits only: pushing a digit appends its bits
  (`bitsOf_push`), taking one out of the top splits them (`bitsOf_take`), and the mask of
  the low bits is zero exactly when they are (`bitsOf_eq_zero`).

  `digits` is the regrouping itself: the digits that say given bits
  (`bits_digits`, `digits_bits`). A word in big-endian bytes (`beBytes`) says its own bits,
  so it is determined by them (`beBytes_inj`).
-/

import Mathlib.Data.List.Induction
import Mathlib.Data.Nat.Bitwise
import Mathlib.Tactic.Common

namespace RootkeyCrypto.Lib

/-- The low `w` bits. -/
def bitsOf : Nat → Nat → List Bool
  | 0, _ => []
  | w + 1, x => x.testBit w :: bitsOf w x

/-- The bits of a list of `w`-bit digits. -/
def bits (w : Nat) (ds : List Nat) : List Bool := ds.flatMap (bitsOf w)

/-! ## One number -/

@[simp] theorem length_bitsOf (w x : Nat) : (bitsOf w x).length = w := by
  induction w with
  | zero => rfl
  | succ w ih => rw [bitsOf, List.length_cons, ih]

theorem bitsOf_congr {w x y : Nat} (h : ∀ i, i < w → x.testBit i = y.testBit i) : bitsOf w x = bitsOf w y := by
  induction w with
  | zero => rfl
  | succ w ih => rw [bitsOf, bitsOf, h w (by omega), ih fun i hi => h i (by omega)]

theorem testBit_of_bitsOf {w x y : Nat} (h : bitsOf w x = bitsOf w y) : ∀ i, i < w → x.testBit i = y.testBit i := by
  induction w with
  | zero =>
    intro i hi
    omega
  | succ w ih =>
    intro i hi
    obtain ⟨htop, hrest⟩ := List.cons.inj h
    by_cases e : i = w
    · rw [e]
      exact htop
    · exact ih hrest i (by omega)

theorem bitsOf_inj {w x y : Nat} (hx : x < 2 ^ w) (hy : y < 2 ^ w) (h : bitsOf w x = bitsOf w y) : x = y := by
  apply Nat.eq_of_testBit_eq
  intro i
  by_cases hi : i < w
  · exact testBit_of_bitsOf h i hi
  · have hle : 2 ^ w ≤ 2 ^ i := Nat.pow_le_pow_right (by decide) (Nat.le_of_not_lt hi)
    rw [Nat.testBit_lt_two_pow (by omega), Nat.testBit_lt_two_pow (by omega)]

/-- What is above the low bits does not matter. -/
theorem bitsOf_mod (w x : Nat) : bitsOf w (x % 2 ^ w) = bitsOf w x := by
  apply bitsOf_congr
  intro i hi
  rw [Nat.testBit_mod_two_pow, decide_eq_true hi, Bool.true_and]

/-- The high bits, then the low bits. -/
theorem bitsOf_add (m n x : Nat) : bitsOf (m + n) x = bitsOf m (x >>> n) ++ bitsOf n x := by
  induction m with
  | zero => rw [Nat.zero_add, bitsOf, List.nil_append]
  | succ m ih => rw [Nat.succ_add, bitsOf, bitsOf, List.cons_append, ih, Nat.testBit_shiftRight, Nat.add_comm n m]

@[simp] theorem bitsOf_zero (w : Nat) : bitsOf w 0 = List.replicate w false := by
  induction w with
  | zero => rfl
  | succ w ih => rw [bitsOf, ih, Nat.zero_testBit, List.replicate_succ]

theorem bitsOf_eq_zero {w x : Nat} : bitsOf w x = List.replicate w false ↔ x % 2 ^ w = 0 := by
  constructor
  · intro h
    have hlt : x % 2 ^ w < 2 ^ w := Nat.mod_lt _ (Nat.two_pow_pos w)
    refine bitsOf_inj hlt (Nat.two_pow_pos w) ?_
    rw [bitsOf_mod, bitsOf_zero, h]
  · intro h
    rw [← bitsOf_mod, h, bitsOf_zero]

/-! ## The accumulator -/

/-- Shifting a digit into a word of `N` bits appends its bits to the low ones. -/
theorem bitsOf_push {N n w x d : Nat} (hd : d < 2 ^ w) (hN : n + w ≤ N) :
    bitsOf (n + w) (x <<< w % 2 ^ N ||| d) = bitsOf n x ++ bitsOf w d := by
  rw [bitsOf_add]
  congr 1
  · apply bitsOf_congr
    intro i hi
    have hle : 2 ^ w ≤ 2 ^ (w + i) := Nat.pow_le_pow_right (by decide) (Nat.le_add_right _ _)
    rw [Nat.testBit_shiftRight, Nat.testBit_or, Nat.testBit_mod_two_pow, Nat.testBit_shiftLeft,
      Nat.testBit_lt_two_pow (Nat.lt_of_lt_of_le hd hle), decide_eq_true (by omega), decide_eq_true (by omega),
      Bool.true_and, Bool.true_and, Bool.or_false, Nat.add_sub_cancel_left]
  · apply bitsOf_congr
    intro i hi
    rw [Nat.testBit_or, Nat.testBit_mod_two_pow, Nat.testBit_shiftLeft, decide_eq_false (by omega : ¬ i ≥ w),
      Bool.false_and, Bool.and_false, Bool.false_or]

/-- The top `w` of the low bits, as a digit, and those under it. -/
theorem bitsOf_take (w n x : Nat) : bitsOf (w + n) x = bitsOf w ((x >>> n) % 2 ^ w) ++ bitsOf n x := by
  rw [bitsOf_add, bitsOf_mod]

/-! ## Digits -/

@[simp] theorem bits_nil (w : Nat) : bits w [] = [] := rfl

@[simp] theorem bits_cons (w d : Nat) (ds : List Nat) : bits w (d :: ds) = bitsOf w d ++ bits w ds := rfl

@[simp] theorem bits_append (w : Nat) (ds ds' : List Nat) : bits w (ds ++ ds') = bits w ds ++ bits w ds' :=
  List.flatMap_append

@[simp] theorem length_bits (w : Nat) (ds : List Nat) : (bits w ds).length = w * ds.length := by
  induction ds with
  | nil => rfl
  | cons d ds ih => rw [bits_cons, List.length_append, length_bitsOf, ih, List.length_cons, Nat.mul_succ, Nat.add_comm]

/-- The digits are determined by their bits. -/
theorem bits_inj {w : Nat} (hw : 0 < w) {ds ds' : List Nat} (h : ∀ d ∈ ds, d < 2 ^ w) (h' : ∀ d ∈ ds', d < 2 ^ w)
    (hb : bits w ds = bits w ds') : ds = ds' := by
  induction ds generalizing ds' with
  | nil =>
    cases ds' with
    | nil => rfl
    | cons d' ds' =>
      have hlen := congrArg List.length hb
      rw [length_bits, length_bits, List.length_nil, List.length_cons, Nat.mul_succ] at hlen
      omega
  | cons d ds ih =>
    cases ds' with
    | nil =>
      have hlen := congrArg List.length hb
      rw [length_bits, length_bits, List.length_nil, List.length_cons, Nat.mul_succ] at hlen
      omega
    | cons d' ds' =>
      rw [bits_cons, bits_cons] at hb
      obtain ⟨hd, hds⟩ := List.append_inj hb (by rw [length_bitsOf, length_bitsOf])
      rw [List.forall_mem_cons] at h h'
      rw [bitsOf_inj h.1 h'.1 hd, ih h.2 h'.2 hds]

/-! ## Bytes -/

theorem byte_lt {b : List UInt8} : ∀ d ∈ b.map UInt8.toNat, d < 2 ^ 8 := by
  intro d hd
  obtain ⟨c, -, rfl⟩ := List.mem_map.mp hd
  exact c.toNat_lt

theorem bytes_inj {b b' : List UInt8} (h : bits 8 (b.map UInt8.toNat) = bits 8 (b'.map UInt8.toNat)) : b = b' :=
  List.map_inj_right (fun _ _ h => UInt8.toNat_inj.mp h) |>.mp (bits_inj (by decide) byte_lt byte_lt h)

/-- The `n` low bytes of a number, most significant first. -/
def beBytes : Nat → Nat → List UInt8
  | 0, _ => []
  | n + 1, x => UInt8.ofNat (x >>> (8 * n)) :: beBytes n x

theorem bits_beBytes (n x : Nat) : bits 8 ((beBytes n x).map UInt8.toNat) = bitsOf (8 * n) x := by
  induction n with
  | zero => rfl
  | succ n ih =>
    rw [beBytes, List.map_cons, bits_cons, ih, UInt8.toNat_ofNat', bitsOf_mod, Nat.mul_succ, Nat.add_comm, bitsOf_add]

theorem beBytes_inj {n x y : Nat} (hx : x < 2 ^ (8 * n)) (hy : y < 2 ^ (8 * n)) (h : beBytes n x = beBytes n y) :
    x = y := by
  apply bitsOf_inj hx hy
  rw [← bits_beBytes, h, bits_beBytes]

/-! ## Regrouping -/

def ofBits (l : List Bool) : Nat := l.foldl (fun x b => 2 * x + b.toNat) 0

/-- The first `n` digits of `w` bits each. -/
def digits (w : Nat) : Nat → List Bool → List Nat
  | 0, _ => []
  | n + 1, l => ofBits (l.take w) :: digits w n (l.drop w)

theorem ofBits_concat (l : List Bool) (b : Bool) : ofBits (l ++ [b]) = 2 * ofBits l + b.toNat := by
  rw [ofBits, List.foldl_append]
  rfl

theorem ofBits_spec (l : List Bool) : ofBits l < 2 ^ l.length ∧ bitsOf l.length (ofBits l) = l := by
  induction l using List.reverseRecOn with
  | nil => exact ⟨by decide, rfl⟩
  | append_singleton l b ih =>
    obtain ⟨hlt, hbits⟩ := ih
    have hb : b.toNat < 2 := Bool.toNat_lt b
    rw [ofBits_concat, List.length_append, List.length_singleton]
    refine ⟨by omega, ?_⟩
    have hhigh : (2 * ofBits l + b.toNat) >>> 1 = ofBits l := by
      rw [Nat.shiftRight_one]
      omega
    have hlow : bitsOf 1 (2 * ofBits l + b.toNat) = [b] := by
      cases b <;> simp [bitsOf, Nat.testBit_zero, Nat.add_mod]
    rw [bitsOf_add, hhigh, hbits, hlow]

theorem bits_digits {w n : Nat} {l : List Bool} (h : l.length = w * n) :
    bits w (digits w n l) = l ∧ ∀ d ∈ digits w n l, d < 2 ^ w := by
  induction n generalizing l with
  | zero =>
    have hl : l = [] := List.eq_nil_of_length_eq_zero h
    rw [hl]
    exact ⟨rfl, by simp [digits]⟩
  | succ n ih =>
    rw [Nat.mul_succ] at h
    have htake : (l.take w).length = w := by
      rw [List.length_take]
      omega
    obtain ⟨hlt, hbits⟩ := ofBits_spec (l.take w)
    rw [htake] at hlt hbits
    have hdrop : (l.drop w).length = w * n := by
      rw [List.length_drop]
      omega
    obtain ⟨hrest, hall⟩ := ih hdrop
    rw [digits, bits_cons, hbits, hrest, List.take_append_drop]
    exact ⟨rfl, List.forall_mem_cons.mpr ⟨hlt, hall⟩⟩

/-- The digits that were said. -/
theorem digits_bits {w : Nat} (hw : 0 < w) {ds : List Nat} (h : ∀ d ∈ ds, d < 2 ^ w) :
    digits w ds.length (bits w ds) = ds := by
  obtain ⟨hbits, hall⟩ := bits_digits (length_bits w ds)
  exact bits_inj hw hall h hbits

end RootkeyCrypto.Lib
