/-
  RootkeyCrypto.Lib.Opened — what an attacker learns from what is stored is what he can
  open.

  Each thing stored is a ciphertext or a sealed box: a key, what is under it, and the
  bytes that are seen (`Stored`). `Opened` makes nothing: it starts from what is known and
  from passwords guessed, derives with BLAKE3, and opens what is stored with a key it has.

  `derives_iff`: of plain strings (bytes drawn, typed, or derived from such) the attacker,
  who may also encrypt, seal and compute public keys, derives exactly what is opened. A
  question about the attacker is thereby one about which stored key is under which.

  The proof replaces every byte opened by an ordinary one (`hide`). That is a map of terms
  which the packages respect, so what is derived stays safe after it, with all else secret
  (`hide_closed`); and a plain byte is safe after it only when it was opened.

  `Derives.stored`: nor does he make anything that others would open. What he derives that
  opens under a key he does not derive is one of the stored ciphertexts. A box he makes may
  open for anybody, but to what he has (`Derives.boxed`).
-/

import RootkeyCrypto.Lib.Symbolic

namespace RootkeyCrypto.Lib

open Term

/-- Drawn, typed, or derived from such bytes. -/
inductive Plain (o : Oracle) : Term → Prop
  | lit (b : UInt8) : Plain o (.lit b)
  | key (pos j : Nat) : Plain o (.key pos j)
  | data (d : Nat) : Plain o (.data d)
  | word (l : List UInt8) (j : Nat) : Plain o (.word l j)
  | argon {m t p s w k b} (h : o.suite.argon2id m t p s w = some k) (hb : b ∈ k.toList) : Plain o b
  | blake {c m b} (hm : ∀ x ∈ m, Plain o x) (hb : b ∈ (o.suite.blake3 c m).toList) : Plain o b

/-- A byte that nothing is inside of. -/
def Atom : Term → Prop
  | .sealed .. | .box .. | .nil | .cons .. => False
  | _ => True

theorem plain_drawn {o : Oracle} {k : Arr Term 32} {i : Nat} (h : o.suite.osKey i = some k) :
    ∀ b ∈ k.toList, ∃ j, b = .key i j := by
  simp only [Oracle.suite, Option.ite_none_right_eq_some, Option.some.injEq] at h
  rw [← h.2]
  intro b hb
  obtain ⟨j, -, rfl⟩ := List.mem_map.mp hb
  exact ⟨j, rfl⟩

/-- Something stored: the key it is under, what is under it, what is seen. -/
structure Stored where
  key : Arr Term 32
  plain : List Term
  out : List Term

/-- The seen bytes are a ciphertext under the key, or a box for its public key. -/
inductive Stored.Ok (o : Oracle) (x : Stored) : Prop
  | aes {n a} (h : o.suite.aesGcmSiv.encrypt x.key n a x.plain = some x.out)
  | xchacha {n a} (h : o.suite.xChaCha20.encrypt x.key n a x.plain = some x.out)
  | box {pos} (h : o.suite.boxSeal pos (o.suite.x25519 x.key) x.plain = some x.out)

section Opening

variable (o : Oracle) (Store : Stored → Prop) (Start : List Term → Prop) (Guess : List UInt8 → Prop)

inductive Opened : List Term → Prop
  | start {m} (h : Start m) : Opened m
  | lit (b : UInt8) : Opened [.lit b]
  | byte {m b} (h : Opened m) (hb : b ∈ m) : Opened [b]
  | join {m} (h : ∀ b ∈ m, Opened [b]) : Opened m
  | argon {m t p s w k} (hw : Guess w) (h : o.suite.argon2id m t p s w = some k) : Opened k.toList
  | blake {m} (c : String) (hm : Opened m) : Opened (o.suite.blake3 c m).toList
  | stored {x} (hx : Store x) (hk : Opened x.key.toList) : Opened x.plain

/-- What the attacker begins with: what is known, and what is seen. -/
def Seen (m : List Term) : Prop := Start m ∨ ∃ x, Store x ∧ x.out = m

end Opening

variable {o : Oracle} {Store : Stored → Prop} {Start : List Term → Prop} {Guess : List UInt8 → Prop}

/-- More is opened from more. -/
theorem Opened.mono {Store' : Stored → Prop} {Start' : List Term → Prop} {Guess' : List UInt8 → Prop}
    (hstore : ∀ x, Store x → Store' x) (hstart : ∀ m, Start m → Opened o Store' Start' Guess' m)
    (hguess : ∀ w, Guess w → Guess' w) {m : List Term} (h : Opened o Store Start Guess m) :
    Opened o Store' Start' Guess' m := by
  induction h with
  | start h => exact hstart _ h
  | lit b => exact .lit b
  | byte _ hb ih => exact .byte ih hb
  | join _ ih => exact .join ih
  | argon hw h => exact .argon (hguess _ hw) h
  | blake c _ ih => exact .blake c ih
  | stored hx _ ih => exact .stored (hstore _ hx) ih

/-- What a leak adds is in `Low`, when neither BLAKE3 nor what is stored leads out of it. -/
theorem Opened.leak {Start' : List Term → Prop} {Low : Term → Prop}
    (hstart : ∀ m, Start' m → ∀ b ∈ m, Opened o Store Start Guess [b] ∨ Low b)
    (hblake : ∀ c m, (∃ x ∈ m, Low x) → ∀ b ∈ (o.suite.blake3 c m).toList, Low b)
    (hstored : ∀ x, Store x → (∀ b ∈ x.key.toList, Opened o Store Start Guess [b] ∨ Low b) →
      (∃ b ∈ x.key.toList, Low b) → ∀ b ∈ x.plain, Opened o Store Start Guess [b] ∨ Low b)
    {m : List Term} (h : Opened o Store Start' Guess m) : ∀ b ∈ m, Opened o Store Start Guess [b] ∨ Low b := by
  -- A string with no byte of the leak was opened without it.
  have hclean : ∀ {m : List Term}, (∀ b ∈ m, Opened o Store Start Guess [b] ∨ Low b) → (¬ ∃ x ∈ m, Low x) →
      Opened o Store Start Guess m :=
    fun hm hno => .join fun b hb => (hm b hb).resolve_right fun hl => hno ⟨b, hb, hl⟩
  induction h with
  | start h => exact hstart _ h
  | lit b => exact List.forall_mem_singleton.mpr (Or.inl (.lit b))
  | byte _ hb ih => exact List.forall_mem_singleton.mpr (ih _ hb)
  | join _ ih => exact fun b hb => ih b hb b List.mem_cons_self
  | argon hw h => exact fun b hb => Or.inl (.byte (.argon hw h) hb)
  | @blake m c _ ih =>
    by_cases hlow : ∃ x ∈ m, Low x
    · exact fun b hb => Or.inr (hblake c m hlow b hb)
    · exact fun b hb => Or.inl (.byte (.blake c (hclean ih hlow)) hb)
  | @stored x hx _ ih =>
    by_cases hlow : ∃ b ∈ x.key.toList, Low b
    · exact hstored x hx ih hlow
    · exact fun b hb => Or.inl (.byte (.stored hx (hclean ih hlow)) hb)

/-! ## Opening is deriving -/

/-- A string whose bytes are derived is derived. -/
theorem derives_join {Known : List Term → Prop} {m : List Term} (h : ∀ b ∈ m, Derives o.suite Known Guess [b]) :
    Derives o.suite Known Guess m := by
  induction m with
  | nil => exact .nil
  | cons b bs ih =>
    rw [List.forall_mem_cons] at h
    exact .append h.1 (ih h.2)

theorem derives_byte {Known : List Term → Prop} {m : List Term} {b : Term} (h : Derives o.suite Known Guess m)
    (hb : b ∈ m) : Derives o.suite Known Guess [b] := by
  obtain ⟨x, z, rfl⟩ := List.append_of_mem hb
  have hsplit : x ++ b :: z = x ++ [b] ++ z := by rw [List.append_assoc, List.singleton_append]
  exact .slice (hsplit ▸ h)

theorem Opened.derives (hstore : ∀ x, Store x → x.Ok o) {m : List Term} (h : Opened o Store Start Guess m) :
    Derives o.suite (Seen Store Start) Guess m := by
  induction h with
  | start h => exact .known (Or.inl h)
  | lit b => exact .lit b
  | byte _ hb ih => exact derives_byte ih hb
  | join _ ih => exact derives_join ih
  | argon hw h => exact .argon hw h
  | blake c _ ih => exact .blake c ih
  | stored hx _ ih =>
    have hseen : Derives o.suite (Seen Store Start) Guess _ := .known (Or.inr ⟨_, hx, rfl⟩)
    cases hstore _ hx with
    | aes h => exact .aesDecrypt ih hseen (o.suite_ideal.aes.opens h)
    | xchacha h => exact .xchachaDecrypt ih hseen (o.suite_ideal.xchacha.opens h)
    | box h => exact .boxOpen ih hseen (o.suite_box.opens h)

/-! ## Hiding what was opened -/

open Classical in
/-- Every byte of `H` is replaced by an ordinary one. -/
noncomputable def hide (H : Term → Prop) : Term → Term
  | .lit b => .lit b
  | .key pos j => if H (.key pos j) then .lit 0 else .key pos j
  | .data d => if H (.data d) then .lit 0 else .data d
  | .word l j => if H (.word l j) then .lit 0 else .word l j
  | .argon m t p salt w j => if H (.argon m t p salt w j) then .lit 0 else .argon m t p salt w j
  | .blake c m j => if H (.blake c m j) then .lit 0 else .blake c (hide H m) j
  | .sealed cipher k n a m => .sealed cipher (hide H k) n a (hide H m)
  | .pub s j => .pub (hide H s) j
  | .box pos pk m => .box pos (hide H pk) (hide H m)
  | .nil => .nil
  | .cons b bs => .cons (hide H b) (hide H bs)

variable {H : Term → Prop}

section Equations

open Classical

theorem hide_key (pos j : Nat) : hide H (.key pos j) = if H (.key pos j) then .lit 0 else .key pos j := rfl

theorem hide_data (d : Nat) : hide H (.data d) = if H (.data d) then .lit 0 else .data d := rfl

theorem hide_word (l : List UInt8) (j : Nat) : hide H (.word l j) = if H (.word l j) then .lit 0 else .word l j := rfl

theorem hide_argon (m t p : UInt32) (salt w : List UInt8) (j : Nat) :
    hide H (.argon m t p salt w j) = if H (.argon m t p salt w j) then .lit 0 else .argon m t p salt w j := rfl

theorem hide_blake (c : String) (m : Term) (j : Nat) :
    hide H (.blake c m j) = if H (.blake c m j) then .lit 0 else .blake c (hide H m) j := rfl

end Equations

theorem hide_str (l : List Term) : hide H (str l) = str (l.map (hide H)) := by
  induction l with
  | nil => rfl
  | cons b bs ih =>
    show Term.cons (hide H b) (hide H (str bs)) = _
    rw [ih]
    rfl

theorem hide_encrypt {cipher : Cipher} {n : Nat} {k : Arr Term 32} {nonce : Arr UInt8 n} {aad : List UInt8}
    {m c : List Term} (h : (symAead cipher n).encrypt k nonce aad m = some c) :
    (symAead cipher n).encrypt (k.map (hide H)) nonce aad (m.map (hide H)) = some (c.map (hide H)) := by
  cases h
  show some [Term.sealed cipher _ _ _ _] = some [.sealed cipher (hide H (str k.toList)) _ _ (hide H (str m))]
  rw [hide_str, hide_str]
  rfl

theorem hide_public (o : Oracle) (sk : Arr Term 32) :
    (o.suite.x25519 sk).map (hide H) = o.suite.x25519 (sk.map (hide H)) := by
  refine Arr.toList_inj.mp ?_
  show ((List.range 32).map (.pub (str sk.toList))).map (hide H) = (List.range 32).map (.pub (str (sk.toList.map _)))
  rw [List.map_map]
  refine List.map_congr_left fun j _ => ?_
  show Term.pub (hide H (str sk.toList)) j = _
  rw [hide_str]

theorem hide_box {pos : Nat} {pk : Arr Term 32} {m c : List Term} (h : o.suite.boxSeal pos pk m = some c) :
    o.suite.boxSeal pos (pk.map (hide H)) (m.map (hide H)) = some (c.map (hide H)) := by
  cases h
  show some [Term.box pos _ _] = some [.box pos (hide H (str pk.toList)) (hide H (str m))]
  rw [hide_str, hide_str]
  rfl

/-- What opens with a secret is a box for its public key. -/
theorem boxOpen_sealed {sk : Arr Term 32} {m c : List Term} (h : o.suite.boxOpen sk c = some m) :
    ∃ pos, o.suite.boxSeal pos (o.suite.x25519 sk) m = some c := by
  change symBoxOpen sk c = some m at h
  unfold symBoxOpen at h
  split at h
  · rename_i pos pk m'
    split at h
    · rename_i hpk
      rw [hpk, unstr_eq_some.mp h]
      exact ⟨pos, rfl⟩
    · cases h
  · cases h

/-- Everything is secret but the passwords that are guessed. -/
def allSecret (Guess : List UInt8 → Prop) : Secrets := ⟨fun _ => True, fun _ => True, fun _ => True, Guess⟩

/-- The string is safe once the bytes of `H` are hidden. -/
def HiddenSafe (H : Term → Prop) (Guess : List UInt8 → Prop) (l : List Term) : Prop :=
  AllSafe (allSecret Guess) (l.map (hide H))

theorem hiddenSafe_bytes {l : List Term} : HiddenSafe H Guess l ↔ ∀ b ∈ l, Safe (allSecret Guess) (hide H b) := by
  rw [HiddenSafe, AllSafe, List.forall_mem_map]

/-- A ciphertext is safe when its key is not or its plaintext is; so is a box. -/
theorem hiddenSafe_stored {x : Stored} (h : x.Ok o) :
    HiddenSafe H Guess x.out ↔ (HiddenSafe H Guess x.key.toList → HiddenSafe H Guess x.plain) := by
  cases h with
  | aes h => exact allSafe_sealed (hide_encrypt h)
  | xchacha h => exact allSafe_sealed (hide_encrypt h)
  | box h =>
    have hb := hide_box (H := H) h
    rw [hide_public] at hb
    exact allSafe_box hb

/-- A derived byte is safe when it is hidden or its material is safe. -/
theorem hidden_blake {c : String} {m : List Term} {j : Nat} :
    Safe (allSecret Guess) (hide H (.blake c (str m) j)) ↔ H (.blake c (str m) j) ∨ HiddenSafe H Guess m := by
  rw [hide_blake]
  split
  · rename_i h
    exact iff_of_true trivial (Or.inl h)
  · rename_i h
    rw [safe_blake, hide_str, safe_str]
    exact (or_iff_right h).symm

theorem hidden_argon {m t p : UInt32} {salt w : List UInt8} {j : Nat} :
    Safe (allSecret Guess) (hide H (.argon m t p salt w j)) ↔ H (.argon m t p salt w j) ∨ Guess w := by
  rw [hide_argon]
  split
  · rename_i h
    exact iff_of_true trivial (Or.inl h)
  · rename_i h
    exact (or_iff_right h).symm

/-- The attacker's steps keep such strings so. -/
theorem hide_closed (o : Oracle) (H : Term → Prop) : Closed o.suite Guess (HiddenSafe H Guess) where
  lit b := by
    rw [hiddenSafe_bytes, List.forall_mem_singleton]
    exact trivial
  nil := by simp [HiddenSafe, AllSafe]
  append hx hy := by
    rw [HiddenSafe, List.map_append]
    exact allSafe_append.mpr ⟨hx, hy⟩
  slice h := by
    rw [HiddenSafe, List.map_append, List.map_append] at h
    exact (allSafe_append.mp (allSafe_append.mp h).1).2
  argon hw h := by
    simp only [Oracle.suite, Option.ite_none_right_eq_some, Option.some.injEq] at h
    rw [← h.2, hiddenSafe_bytes]
    intro b hb
    obtain ⟨j, -, rfl⟩ := List.mem_map.mp hb
    exact hidden_argon.mpr (Or.inr hw)
  blake c hm := by
    rw [hiddenSafe_bytes]
    intro b hb
    obtain ⟨j, -, rfl⟩ := List.mem_map.mp hb
    exact hidden_blake.mpr (Or.inr hm)
  aesEncrypt _ hm h := (allSafe_sealed (hide_encrypt h)).mpr fun _ => hm
  aesDecrypt hk hc h := (allSafe_sealed (hide_encrypt (o.suite_ideal.aes.only h))).mp hc hk
  xchachaEncrypt _ hm h := (allSafe_sealed (hide_encrypt h)).mpr fun _ => hm
  xchachaDecrypt hk hc h := (allSafe_sealed (hide_encrypt (o.suite_ideal.xchacha.only h))).mp hc hk
  publicKey {sk} _ := by
    have h := allSafe_public (σ := allSecret Guess) o (sk.map (hide H))
    rw [← hide_public] at h
    exact h
  boxSeal {_ pk _ _} hp hm h := by
    have hp' : AllSafe (allSecret Guess) (pk.map (hide H)).toList := hp
    exact (safe_closed o fun _ hg => hg).boxSeal hp' hm (hide_box h)
  boxOpen hk hc h := by
    obtain ⟨pos, h⟩ := boxOpen_sealed h
    exact (hiddenSafe_stored (x := ⟨_, _, _⟩) (.box h)).mp hc hk

/-! ## Deriving is opening -/

theorem plain_atom {b : Term} (h : Plain o b) : Atom b := by
  cases h with
  | argon h hb =>
    simp only [Oracle.suite, Option.ite_none_right_eq_some, Option.some.injEq] at h
    rw [← h.2] at hb
    obtain ⟨j, -, rfl⟩ := List.mem_map.mp hb
    exact trivial
  | blake _ hb =>
    obtain ⟨j, -, rfl⟩ := List.mem_map.mp hb
    exact trivial
  | _ => exact trivial

/-- Only atoms are opened. -/
theorem opened_atom (hstart : ∀ m, Start m → ∀ b ∈ m, Atom b) (hplain : ∀ x, Store x → ∀ b ∈ x.plain, Atom b)
    {m : List Term} (h : Opened o Store Start Guess m) : ∀ b ∈ m, Atom b := by
  induction h with
  | start h => exact hstart _ h
  | lit b => exact List.forall_mem_singleton.mpr trivial
  | byte _ hb ih => exact List.forall_mem_singleton.mpr (ih _ hb)
  | join _ ih => exact fun b hb => ih b hb b List.mem_cons_self
  | argon _ h => exact fun b hb => plain_atom (.argon h hb)
  | blake c _ _ =>
    intro b hb
    obtain ⟨j, -, rfl⟩ := List.mem_map.mp hb
    exact trivial
  | stored hx _ _ => exact hplain _ hx

/-- A byte that was opened is hidden, and an atom hidden is safe. -/
theorem hidden_atom {b : Term} (ha : Atom b) (h : H b) : Safe (allSecret Guess) (hide H b) := by
  cases b with
  | lit _ => exact trivial
  | key _ _ => rw [hide_key, if_pos h]; exact trivial
  | data _ => rw [hide_data, if_pos h]; exact trivial
  | word _ _ => rw [hide_word, if_pos h]; exact trivial
  | argon _ _ _ _ _ _ => exact hidden_argon.mpr (Or.inl h)
  | blake _ _ _ => rw [hide_blake, if_pos h]; exact trivial
  | pub _ _ => exact trivial
  | sealed _ _ _ _ _ => exact ha.elim
  | box _ _ _ => exact ha.elim
  | nil => exact ha.elim
  | cons _ _ => exact ha.elim

/-- A plain byte that is safe with what was opened hidden was opened. -/
theorem opened_of_hidden {b : Term} (hb : Plain o b)
    (h : Safe (allSecret Guess) (hide (fun x => Opened o Store Start Guess [x]) b)) : Opened o Store Start Guess [b] := by
  induction hb with
  | lit b => exact .lit b
  | key pos j =>
    rw [hide_key] at h
    split at h
    · assumption
    · exact absurd trivial h
  | data d =>
    rw [hide_data] at h
    split at h
    · assumption
    · exact absurd trivial h
  | word l j =>
    rw [hide_word] at h
    split at h
    · assumption
    · exact absurd trivial h
  | argon hk hb =>
    have hk' := hk
    simp only [Oracle.suite, Option.ite_none_right_eq_some, Option.some.injEq] at hk'
    rw [← hk'.2] at hb
    obtain ⟨j, hj, rfl⟩ := List.mem_map.mp hb
    rcases hidden_argon.mp h with h | h
    · exact h
    · refine .byte (.argon h hk) ?_
      rw [← hk'.2]
      exact hb
  | @blake c m b hm hb ih =>
    obtain ⟨j, hj, rfl⟩ := List.mem_map.mp hb
    rcases hidden_blake.mp h with h | h
    · exact h
    · exact .byte (.blake c (.join fun x hx => ih x hx (hiddenSafe_bytes.mp h x hx))) hb

/-- Of plain strings the attacker derives what is opened. -/
theorem derives_iff (hstore : ∀ x, Store x → x.Ok o ∧ (∀ b ∈ x.key.toList, Plain o b) ∧ ∀ b ∈ x.plain, Plain o b)
    (hstart : ∀ m, Start m → ∀ b ∈ m, Atom b) {m : List Term} (hm : ∀ b ∈ m, Plain o b) :
    Derives o.suite (Seen Store Start) Guess m ↔ Opened o Store Start Guess m := by
  refine ⟨fun h => ?_, fun h => h.derives fun x hx => (hstore x hx).1⟩
  have hatom : ∀ {m}, Opened o Store Start Guess m → ∀ b ∈ m, Atom b :=
    opened_atom hstart fun x hx b hb => plain_atom ((hstore x hx).2.2 b hb)
  have hsafe : ∀ {m}, Opened o Store Start Guess m → HiddenSafe (fun x => Opened o Store Start Guess [x]) Guess m :=
    fun ho => hiddenSafe_bytes.mpr fun b hb => hidden_atom (hatom ho b hb) (.byte ho hb)
  have hopen : ∀ {m}, (∀ b ∈ m, Plain o b) → HiddenSafe (fun x => Opened o Store Start Guess [x]) Guess m →
      Opened o Store Start Guess m :=
    fun hp hs => .join fun b hb => opened_of_hidden (hp b hb) (hiddenSafe_bytes.mp hs b hb)
  refine hopen hm (h.closed (hide_closed o _) fun m hk => ?_)
  rcases hk with hk | ⟨x, hx, rfl⟩
  · exact hsafe (.start hk)
  · -- A stored thing whose key is safe was opened by that key.
    obtain ⟨hok, hkey, -⟩ := hstore x hx
    exact (hiddenSafe_stored hok).mpr fun hs => hsafe (.stored hx (hopen hkey hs))

/-! ## What he makes himself -/

/-- Every ciphertext and box in the byte is stored, or he made it: under a key he has, or
    around a message he has, and of what is such. -/
def Own (D : List Term → Prop) (Store : Stored → Prop) : Term → Prop
  | .sealed cipher k n a m =>
    (∃ x, Store x ∧ x.out = [.sealed cipher k n a m]) ∨ ((∀ l, k = str l → D l) ∧ Own D Store m)
  | .box pos pk m =>
    (∃ x, Store x ∧ x.out = [.box pos pk m]) ∨ ((∀ l, m = str l → D l) ∧ Own D Store m)
  | .cons b bs => Own D Store b ∧ Own D Store bs
  | _ => True

variable {D : List Term → Prop}

theorem own_str {l : List Term} : Own D Store (str l) ↔ ∀ b ∈ l, Own D Store b := by
  induction l with
  | nil => exact iff_of_true trivial fun _ h => (by cases h)
  | cons b bs ih =>
    rw [List.forall_mem_cons, ← ih]
    rfl

theorem own_atom {b : Term} (h : Atom b) : Own D Store b := by
  cases b with
  | sealed _ _ _ _ _ => exact h.elim
  | box _ _ _ => exact h.elim
  | nil => exact h.elim
  | cons _ _ => exact h.elim
  | _ => exact trivial

theorem own_encrypt {cipher : Cipher} {n : Nat} {k : Arr Term 32} {nonce : Arr UInt8 n} {aad : List UInt8}
    {m c : List Term} (hk : D k.toList) (hm : ∀ b ∈ m, Own D Store b)
    (h : (symAead cipher n).encrypt k nonce aad m = some c) : ∀ b ∈ c, Own D Store b := by
  cases h
  refine List.forall_mem_singleton.mpr (Or.inr ⟨fun l hl => ?_, own_str.mpr hm⟩)
  rw [← str_inj.mp hl]
  exact hk

/-- A ciphertext that opens is stored, or he has the key and what is in it is his own. -/
theorem own_decrypt {cipher : Cipher} {n : Nat} {k : Arr Term 32} {nonce : Arr UInt8 n} {aad : List UInt8}
    {m c : List Term} (hc : ∀ b ∈ c, Own D Store b) (h : (symAead cipher n).decrypt k nonce aad c = some m) :
    (∃ x, Store x ∧ x.out = c) ∨ (D k.toList ∧ ∀ b ∈ m, Own D Store b) := by
  cases (symAead_ideal cipher n).only h
  rcases hc _ List.mem_cons_self with hx | hown
  · exact Or.inl hx
  · exact Or.inr ⟨hown.1 _ rfl, own_str.mp hown.2⟩

/-- A box that opens is stored, or he has what is in it. -/
theorem own_open {sk : Arr Term 32} {m c : List Term} (hc : ∀ b ∈ c, Own D Store b)
    (h : o.suite.boxOpen sk c = some m) : (∃ x, Store x ∧ x.out = c) ∨ (D m ∧ ∀ b ∈ m, Own D Store b) := by
  obtain ⟨pos, hbox⟩ := boxOpen_sealed h
  cases hbox
  rcases hc _ List.mem_cons_self with hx | hown
  · exact Or.inl hx
  · exact Or.inr ⟨hown.1 _ rfl, own_str.mp hown.2⟩

/-- The ciphertext says what it was stored for. -/
theorem Stored.Ok.plain_eq {x : Stored} (hx : x.Ok o) {cipher : Cipher} {n : Nat} {k : Arr Term 32}
    {nonce : Arr UInt8 n} {aad : List UInt8} {m : List Term}
    (h : (symAead cipher n).decrypt k nonce aad x.out = some m) : x.key = k ∧ x.plain = m := by
  have henc := (symAead_ideal cipher n).only h
  change some _ = some x.out at henc
  rw [Option.some.injEq] at henc
  cases hx with
  | aes h' =>
    change some _ = some x.out at h'
    rw [← henc, Option.some.injEq] at h'
    injection (List.cons.inj h').1 with _ hk _ _ hm
    exact ⟨Arr.toList_inj.mp (str_inj.mp hk), str_inj.mp hm⟩
  | xchacha h' =>
    change some _ = some x.out at h'
    rw [← henc, Option.some.injEq] at h'
    injection (List.cons.inj h').1 with _ hk _ _ hm
    exact ⟨Arr.toList_inj.mp (str_inj.mp hk), str_inj.mp hm⟩
  | box h' =>
    change some _ = some x.out at h'
    rw [← henc, Option.some.injEq] at h'
    cases (List.cons.inj h').1

theorem Stored.Ok.own {x : Stored} (h : x.Ok o) (hx : Store x) : ∀ b ∈ x.out, Own D Store b := by
  cases h with
  | aes h =>
    have hout := Option.some.inj h
    rw [← hout]
    exact List.forall_mem_singleton.mpr (Or.inl ⟨x, hx, hout.symm⟩)
  | xchacha h =>
    have hout := Option.some.inj h
    rw [← hout]
    exact List.forall_mem_singleton.mpr (Or.inl ⟨x, hx, hout.symm⟩)
  | box h =>
    have hout := Option.some.inj h
    rw [← hout]
    exact List.forall_mem_singleton.mpr (Or.inl ⟨x, hx, hout.symm⟩)

/-- What he derives, with every ciphertext in it stored or his own. -/
def Owned (D : List Term → Prop) (Store : Stored → Prop) (l : List Term) : Prop := D l ∧ ∀ b ∈ l, Own D Store b

theorem owned_decrypt (hstore : ∀ x, Store x → x.Ok o ∧ ∀ b ∈ x.plain, Atom b) {cipher : Cipher} {n : Nat}
    {k : Arr Term 32} {nonce : Arr UInt8 n} {aad : List UInt8} {m c : List Term} (hc : ∀ b ∈ c, Own D Store b)
    (h : (symAead cipher n).decrypt k nonce aad c = some m) : ∀ b ∈ m, Own D Store b := by
  rcases own_decrypt hc h with ⟨x, hx, rfl⟩ | ⟨-, hm⟩
  · rw [← ((hstore x hx).1.plain_eq h).2]
    exact fun b hb => own_atom ((hstore x hx).2 b hb)
  · exact hm

/-- A box that is stored holds what it was stored for. -/
theorem Stored.Ok.opens {x : Stored} (hx : x.Ok o) {sk : Arr Term 32} {m : List Term}
    (h : o.suite.boxOpen sk x.out = some m) : x.plain = m := by
  obtain ⟨pos, hbox⟩ := boxOpen_sealed h
  change some _ = some x.out at hbox
  rw [Option.some.injEq] at hbox
  cases hx with
  | aes h' =>
    change some _ = some x.out at h'
    rw [← hbox, Option.some.injEq] at h'
    cases (List.cons.inj h').1
  | xchacha h' =>
    change some _ = some x.out at h'
    rw [← hbox, Option.some.injEq] at h'
    cases (List.cons.inj h').1
  | box h' =>
    change some _ = some x.out at h'
    rw [← hbox, Option.some.injEq] at h'
    injection (List.cons.inj h').1 with _ _ hm
    exact str_inj.mp hm

theorem owned_open (hstore : ∀ x, Store x → x.Ok o ∧ ∀ b ∈ x.plain, Atom b) {sk : Arr Term 32} {m c : List Term}
    (hc : ∀ b ∈ c, Own D Store b) (h : o.suite.boxOpen sk c = some m) : ∀ b ∈ m, Own D Store b := by
  rcases own_open hc h with ⟨x, hx, rfl⟩ | ⟨-, hm⟩
  · rw [← (hstore x hx).1.opens h]
    exact fun b hb => own_atom ((hstore x hx).2 b hb)
  · exact hm

theorem owned_closed {Known : List Term → Prop} (hstore : ∀ x, Store x → x.Ok o ∧ ∀ b ∈ x.plain, Atom b) :
    Closed o.suite Guess (Owned (Derives o.suite Known Guess) Store) where
  lit b := ⟨.lit b, List.forall_mem_singleton.mpr trivial⟩
  nil := ⟨.nil, by simp⟩
  append hx hy := ⟨.append hx.1 hy.1, List.forall_mem_append.mpr ⟨hx.2, hy.2⟩⟩
  slice h := ⟨.slice h.1, (List.forall_mem_append.mp (List.forall_mem_append.mp h.2).1).2⟩
  argon hw h := ⟨.argon hw h, fun b hb => own_atom (plain_atom (.argon h hb))⟩
  blake c hm := by
    refine ⟨.blake c hm.1, fun b hb => ?_⟩
    obtain ⟨j, -, rfl⟩ := List.mem_map.mp hb
    exact trivial
  aesEncrypt hk hm h := ⟨.aesEncrypt hk.1 hm.1 h, own_encrypt hk.1 hm.2 h⟩
  aesDecrypt hk hc h := ⟨.aesDecrypt hk.1 hc.1 h, owned_decrypt hstore hc.2 h⟩
  xchachaEncrypt hk hm h := ⟨.xchachaEncrypt hk.1 hm.1 h, own_encrypt hk.1 hm.2 h⟩
  xchachaDecrypt hk hc h := ⟨.xchachaDecrypt hk.1 hc.1 h, owned_decrypt hstore hc.2 h⟩
  publicKey hk := by
    refine ⟨.publicKey hk.1, fun b hb => ?_⟩
    obtain ⟨j, -, rfl⟩ := List.mem_map.mp hb
    exact trivial
  boxSeal hp hm h := by
    refine ⟨.boxSeal hp.1 hm.1 h, ?_⟩
    cases h
    refine List.forall_mem_singleton.mpr (Or.inr ⟨fun l hl => ?_, own_str.mpr hm.2⟩)
    rw [← str_inj.mp hl]
    exact hm.1
  boxOpen hk hc h := ⟨.boxOpen hk.1 hc.1 h, owned_open hstore hc.2 h⟩

/-- What the attacker derives that opens under a key he does not derive is stored. -/
theorem Derives.stored (hstore : ∀ x, Store x → x.Ok o ∧ ∀ b ∈ x.plain, Atom b)
    (hstart : ∀ m, Start m → ∀ b ∈ m, Atom b) {cipher : Cipher} {n : Nat} {k : Arr Term 32} {nonce : Arr UInt8 n}
    {aad : List UInt8} {m c : List Term} (h : Derives o.suite (Seen Store Start) Guess c)
    (hk : ¬ Derives o.suite (Seen Store Start) Guess k.toList)
    (hd : (symAead cipher n).decrypt k nonce aad c = some m) : ∃ x, Store x ∧ x.key = k ∧ x.plain = m ∧ x.out = c := by
  have hseen : ∀ m, Seen Store Start m → Owned (Derives o.suite (Seen Store Start) Guess) Store m := by
    intro m hm
    refine ⟨.known hm, ?_⟩
    rcases hm with hm | ⟨x, hx, rfl⟩
    · exact fun b hb => own_atom (hstart m hm b hb)
    · exact (hstore x hx).1.own hx
  obtain ⟨-, hown⟩ := h.closed (owned_closed hstore) hseen
  rcases own_decrypt hown hd with ⟨x, hx, rfl⟩ | ⟨hno, -⟩
  · obtain ⟨hkey, hplain⟩ := (hstore x hx).1.plain_eq hd
    exact ⟨x, hx, hkey, hplain, rfl⟩
  · exact absurd hno hk

/-- What the attacker derives that opens as a box is stored, or he has what is in it. -/
theorem Derives.boxed {Known : List Term → Prop} (hstore : ∀ x, Store x → x.Ok o ∧ ∀ b ∈ x.plain, Atom b)
    (hK : ∀ m, Known m → ∀ b ∈ m, Own (Derives o.suite Known Guess) Store b) {sk : Arr Term 32} {m c : List Term}
    (h : Derives o.suite Known Guess c) (hd : o.suite.boxOpen sk c = some m) :
    (∃ x, Store x ∧ x.out = c) ∨ Derives o.suite Known Guess m := by
  obtain ⟨-, hown⟩ := h.closed (owned_closed hstore) fun m hm => ⟨.known hm, hK m hm⟩
  rcases own_open hown hd with hx | ⟨hm, -⟩
  · exact Or.inl hx
  · exact Or.inr hm

end RootkeyCrypto.Lib
