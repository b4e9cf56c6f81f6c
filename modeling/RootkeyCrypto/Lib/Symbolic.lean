/-
  RootkeyCrypto.Lib.Symbolic — a suite whose bytes are terms, for which `Suite.Ideal`
  holds, and secrecy in it.

  A byte is an ordinary byte, a byte of a drawn key, of a user's content or of a string
  that a user keeps, or a byte of what a package computes, which remembers what it was
  computed from. A byte string inside a term is a chain of `cons` (`str`, `unstr`).
  `Oracle` is what stays open: what the RNG publishes, which draws fail, which typed strings
  are kept from everybody else, normalization and which costs Argon2id takes.

  `Safe σ b`: the byte may be published when the keys, contents, kept strings and passwords
  of `σ` are secret. A ciphertext may when its plaintext may or its key may not, a sealed
  box when its message may or its recipient's secret may not. The strings of safe bytes are
  closed under the attacker's steps (`safe_closed`), so he derives nothing else
  (`Derives.safe`).
-/

import RootkeyCrypto.Lib.Attacker

namespace RootkeyCrypto.Lib

inductive Cipher where
  | aesGcmSiv | xChaCha20
  deriving DecidableEq

inductive Term where
  | lit (b : UInt8)
  /-- Byte `j` of the key drawn at a position. -/
  | key (pos j : Nat)
  /-- A byte of a user's content. -/
  | data (d : Nat)
  /-- Byte `j` of a string that a user keeps. -/
  | word (l : List UInt8) (j : Nat)
  | argon (m t p : UInt32) (salt : List UInt8) (w : List UInt8) (j : Nat)
  | blake (context : String) (material : Term) (j : Nat)
  | sealed (cipher : Cipher) (k : Term) (nonce aad : List UInt8) (m : Term)
  | pub (secret : Term) (j : Nat)
  | box (pos : Nat) (pk m : Term)
  | nil
  | cons (b bs : Term)
  deriving DecidableEq

namespace Term

/-- A byte string as one term. -/
def str : List Term → Term
  | [] => nil
  | b :: bs => cons b (str bs)

def unstr : Term → Option (List Term)
  | nil => some []
  | cons b bs => (unstr bs).map (b :: ·)
  | _ => none

theorem str_inj {l l' : List Term} : str l = str l' ↔ l = l' := by
  refine ⟨fun h => ?_, fun h => by rw [h]⟩
  induction l generalizing l' with
  | nil => cases l' <;> first | rfl | cases h
  | cons b bs ih =>
    cases l' with
    | nil => cases h
    | cons b' bs' =>
      simp only [str, cons.injEq] at h
      rw [h.1, ih h.2]

theorem unstr_eq_some {s : Term} {l : List Term} : unstr s = some l ↔ s = str l := by
  constructor
  · intro h
    induction s generalizing l with
    | nil => cases h; rfl
    | cons b bs _ ih =>
      simp only [unstr, Option.map_eq_some_iff] at h
      obtain ⟨l', hl', rfl⟩ := h
      rw [ih hl', str]
    | _ => cases h
  · rintro rfl
    induction l with
    | nil => rfl
    | cons b bs ih => simp [str, unstr, ih]

@[simp] theorem unstr_str (l : List Term) : unstr (str l) = some l := unstr_eq_some.mpr rfl

end Term

open Term

/-- What the symbolic suite leaves open. -/
structure Oracle where
  osBytes : Nat → (n : Nat) → Option (Arr UInt8 n)
  drawn : Nat → Bool
  /-- The typed strings that are kept secret; the empty one cannot be. -/
  kept : List UInt8 → Bool
  kept_nil : kept [] = false
  nfkd : String → String
  nfkd_empty : ∀ {s t}, nfkd s = nfkd t → s = "" → t = ""
  takes : UInt32 → UInt32 → UInt32 → Bool

/-- The ideal cipher: the ciphertext is one byte that says what is in it. -/
def symAead (cipher : Cipher) (n : Nat) : Aead Term n where
  encrypt k nonce aad m := some [.sealed cipher (str k.toList) nonce.toList aad (str m)]
  decrypt k nonce aad c := match c with
    | [.sealed cipher' k' nonce' aad' m] =>
      if cipher' = cipher ∧ k' = str k.toList ∧ nonce' = nonce.toList ∧ aad' = aad then unstr m else none
    | _ => none

def keyAt (pos : Nat) : Arr Term 32 := .ofFn 32 (.key pos)

def symPublic (secret : Arr Term 32) : Arr Term 32 := .ofFn 32 (.pub (str secret.toList))

def symBoxOpen (secret : Arr Term 32) : List Term → Option (List Term)
  | [.box _ pk m] => if pk = str (symPublic secret).toList then unstr m else none
  | _ => none

def Oracle.suite (o : Oracle) : Suite Term where
  lit := .lit
  typed l := if o.kept l then (List.range l.length).map (.word l) else l.map .lit
  osBytes := o.osBytes
  osKey pos := if o.drawn pos then some (keyAt pos) else none
  nfkd := o.nfkd
  argon2id m t p salt w := if o.takes m t p then some (.ofFn 32 (.argon m t p salt.toList w)) else none
  blake3 context material := .ofFn 32 (.blake context (str material))
  aesGcmSiv := symAead .aesGcmSiv 12
  xChaCha20 := symAead .xChaCha20 24
  x25519 := symPublic
  boxSeal pos pk m := some [.box pos (str pk.toList) (str m)]
  boxOpen := symBoxOpen

/-- An oracle to run things on: no draw fails, what is published at a position is that
    position, what is typed is kept, every string is normal, Argon2id takes every cost. -/
def demo : Oracle where
  osBytes pos n := some (.replicate n (UInt8.ofNat (pos + 1)))
  drawn _ := true
  kept l := !l.isEmpty
  kept_nil := rfl
  nfkd := id
  nfkd_empty h hs := (Eq.symm h).trans hs
  takes _ _ _ := true

/-! ## It is ideal -/

theorem symAead_ideal (cipher : Cipher) (n : Nat) : (symAead cipher n).Ideal where
  opens := by
    intro k nn a m c h
    cases h
    simp [symAead]
  only := by
    intro k nn a m c h
    unfold symAead at h ⊢
    simp only at h
    split at h
    · split at h
      · rename_i hk
        obtain ⟨rfl, rfl, rfl, rfl⟩ := hk
        rw [unstr_eq_some.mp h]
      · cases h
    · cases h
  inj := by
    intro k nn a m k' nn' a' m' c h h'
    unfold symAead at h h'
    simp only [Option.some.injEq] at h h'
    rw [← h'] at h
    simp only [List.cons.injEq, Term.sealed.injEq, str_inj, Arr.toList_inj, true_and, and_true] at h
    exact h

theorem ofFn_inj {f g : Nat → Term} (h : Arr.ofFn 32 f = Arr.ofFn 32 g) : f 0 = g 0 := by
  have hl : (List.range 32).map f = (List.range 32).map g := Arr.toList_inj.mpr h
  exact (List.cons.injEq _ _ _ _ ▸ hl : f 0 = g 0 ∧ _).1

/-- A typed string is its ordinary bytes, or all its bytes are of it. -/
theorem Oracle.mem_typed {o : Oracle} {l : List UInt8} {b : Term} (h : b ∈ o.suite.typed l) :
    (∃ x, b = .lit x) ∨ (o.kept l = true ∧ ∃ j, b = .word l j) := by
  change b ∈ if o.kept l then (List.range l.length).map (.word l) else l.map .lit at h
  split at h
  · rename_i hkept
    obtain ⟨j, -, rfl⟩ := List.mem_map.mp h
    exact Or.inr ⟨hkept, j, rfl⟩
  · obtain ⟨x, -, rfl⟩ := List.mem_map.mp h
    exact Or.inl ⟨x, rfl⟩

theorem Oracle.word_mem_typed {o : Oracle} {l : List UInt8} (h : o.kept l = true) : .word l 0 ∈ o.suite.typed l := by
  have hne : l ≠ [] := by
    rintro rfl
    rw [o.kept_nil] at h
    cases h
  show _ ∈ if o.kept l then (List.range l.length).map (Term.word l) else l.map Term.lit
  rw [if_pos h]
  exact List.mem_map_of_mem (List.mem_range.mpr (List.length_pos_iff.mpr hne))

theorem Oracle.typed_inj (o : Oracle) : Function.Injective o.suite.typed := by
  -- A byte of a kept string says which one it is.
  have hkept : ∀ {l l'}, o.kept l = true → o.suite.typed l = o.suite.typed l' → l = l' := by
    intro l l' h he
    rcases mem_typed (he ▸ word_mem_typed h) with ⟨x, hx⟩ | ⟨-, j, hj⟩
    · cases hx
    · exact (Term.word.inj hj).1
  intro l l' he
  by_cases h : o.kept l = true
  · exact hkept h he
  · by_cases h' : o.kept l' = true
    · exact (hkept h' he.symm).symm
    · change (if o.kept l then _ else l.map Term.lit) = if o.kept l' then _ else l'.map Term.lit at he
      rw [if_neg h, if_neg h'] at he
      exact List.map_injective_iff.mpr (fun _ _ h => Term.lit.inj h) he

theorem Oracle.suite_ideal (o : Oracle) : o.suite.Ideal where
  aes := symAead_ideal _ _
  xchacha := symAead_ideal _ _
  lit_inj := fun _ _ h => Term.lit.inj h
  typed_inj := o.typed_inj
  nfkd_empty := o.nfkd_empty
  argon_inj := by
    intro m t p s w m' t' p' s' w' k h h'
    simp only [suite, Option.ite_none_right_eq_some, Option.some.injEq] at h h'
    obtain ⟨hm, ht, hp, hs, hw, -⟩ := Term.argon.inj (ofFn_inj (h.2.trans h'.2.symm))
    exact ⟨hm, ht, hp, Arr.toList_inj.mp hs, hw⟩
  argon_takes := by
    intro m t p s w k w' h
    simp only [suite, Option.ite_none_right_eq_some, Option.some.injEq] at h ⊢
    exact ⟨_, h.1, rfl⟩
  blake_inj := by
    intro c x c' x' h
    obtain ⟨hc, hx, -⟩ := Term.blake.inj (ofFn_inj h)
    exact ⟨hc, str_inj.mp hx⟩
  key_fresh := by
    intro i j k h h'
    simp only [suite, Option.ite_none_right_eq_some, Option.some.injEq] at h h'
    exact (Term.key.inj (ofFn_inj (h.2.trans h'.2.symm))).1

theorem Oracle.suite_box (o : Oracle) : o.suite.IdealBox where
  opens := by
    intro i sk m c h
    cases h
    show (if str (symPublic sk).toList = str (symPublic sk).toList then unstr (str m) else none) = _
    rw [if_pos rfl, unstr_str]
  only := by
    intro i pk m c sk m' h h'
    cases h
    change (if str pk.toList = str (symPublic sk).toList then unstr (str m) else none) = some m' at h'
    rw [unstr_str, Option.ite_none_right_eq_some, str_inj, Arr.toList_inj, Option.some.injEq] at h'
    exact ⟨h'.1, h'.2.symm⟩

/-- Public keys are as distinct as their secrets. -/
theorem public_inj (o : Oracle) {sk sk' : Arr Term 32} (h : o.suite.x25519 sk = o.suite.x25519 sk') : sk = sk' := by
  obtain ⟨hs, -⟩ := Term.pub.inj (ofFn_inj h)
  exact Arr.toList_inj.mp (str_inj.mp hs)

/-! ## Secrecy -/

/-- What is secret: keys by the position they were drawn at, content bytes, kept strings;
    `guess` are the passwords that are not. -/
structure Secrets where
  key : Nat → Prop
  data : Nat → Prop
  word : List UInt8 → Prop
  guess : List UInt8 → Prop

mutual

/-- The byte may be published. -/
def Safe (σ : Secrets) : Term → Prop
  | .lit _ => True
  | .key pos _ => ¬ σ.key pos
  | .data d => ¬ σ.data d
  | .word l _ => ¬ σ.word l
  | .argon _ _ _ _ w _ => σ.guess w
  | .blake _ material _ => Safe σ material
  | .sealed _ k _ _ m => Safe σ k → Safe σ m
  | .pub _ _ => True
  | .box _ pk m => OwnerSafe σ pk → Safe σ m
  | .nil => True
  | .cons b bs => Safe σ b ∧ Safe σ bs

/-- The secret of the public key may be published. -/
def OwnerSafe (σ : Secrets) : Term → Prop
  | .pub secret _ => Safe σ secret
  | .cons b _ => OwnerSafe σ b
  | _ => True

end

def AllSafe (σ : Secrets) (l : List Term) : Prop := ∀ b ∈ l, Safe σ b

variable {σ : Secrets}

theorem safe_blake {c : String} {m : Term} {j : Nat} : Safe σ (.blake c m j) ↔ Safe σ m := Iff.rfl

theorem safe_sealed {cipher : Cipher} {k m : Term} {nonce aad : List UInt8} :
    Safe σ (.sealed cipher k nonce aad m) ↔ (Safe σ k → Safe σ m) := Iff.rfl

theorem safe_box {pos : Nat} {pk m : Term} : Safe σ (.box pos pk m) ↔ (OwnerSafe σ pk → Safe σ m) := Iff.rfl

theorem safe_str {l : List Term} : Safe σ (str l) ↔ AllSafe σ l := by
  induction l with
  | nil => exact iff_of_true trivial fun _ h => (by cases h)
  | cons b bs ih =>
    rw [AllSafe, List.forall_mem_cons, ← AllSafe, ← ih]
    rfl

theorem allSafe_ofFn {f : Nat → Term} {p : Prop} (h : ∀ j, Safe σ (f j) ↔ p) : AllSafe σ (Arr.ofFn 32 f).toList ↔ p := by
  simp only [AllSafe, Arr.ofFn, List.forall_mem_map, h, List.mem_range]
  exact ⟨fun h => h 0 (by decide), fun h _ _ => h⟩

theorem allSafe_key {o : Oracle} {pos : Nat} {k : Arr Term 32} (h : o.suite.osKey pos = some k) :
    AllSafe σ k.toList ↔ ¬ σ.key pos := by
  simp only [Oracle.suite, Option.ite_none_right_eq_some, Option.some.injEq] at h
  rw [← h.2]
  exact allSafe_ofFn fun _ => Iff.rfl

theorem allSafe_argon {o : Oracle} {m t p : UInt32} {s : Arr UInt8 32} {w : List UInt8} {k : Arr Term 32}
    (h : o.suite.argon2id m t p s w = some k) : AllSafe σ k.toList ↔ σ.guess w := by
  simp only [Oracle.suite, Option.ite_none_right_eq_some, Option.some.injEq] at h
  rw [← h.2]
  exact allSafe_ofFn fun _ => Iff.rfl

theorem allSafe_blake (o : Oracle) (c : String) (m : List Term) :
    AllSafe σ (o.suite.blake3 c m).toList ↔ AllSafe σ m :=
  allSafe_ofFn fun _ => safe_blake.trans safe_str

theorem allSafe_public (o : Oracle) (sk : Arr Term 32) : AllSafe σ (o.suite.x25519 sk).toList :=
  (allSafe_ofFn (p := True) fun _ => Iff.rfl).mpr trivial

theorem allSafe_lits (o : Oracle) (l : List UInt8) : AllSafe σ (l.map o.suite.lit) := by
  intro b hb
  obtain ⟨x, -, rfl⟩ := List.mem_map.mp hb
  exact trivial

/-- A typed string may be published when it is not kept, or no secret. -/
theorem allSafe_typed (o : Oracle) (l : List UInt8) :
    AllSafe σ (o.suite.typed l) ↔ (o.kept l = true → ¬ σ.word l) := by
  refine ⟨fun h hkept => h _ (Oracle.word_mem_typed hkept), fun h b hb => ?_⟩
  rcases Oracle.mem_typed hb with ⟨x, rfl⟩ | ⟨hkept, j, rfl⟩
  · exact trivial
  · exact h hkept

theorem allSafe_append {l l' : List Term} : AllSafe σ (l ++ l') ↔ AllSafe σ l ∧ AllSafe σ l' :=
  List.forall_mem_append

/-- A ciphertext may be published when its plaintext may, or its key may not. -/
theorem allSafe_sealed {cipher : Cipher} {n : Nat} {k : Arr Term 32} {nonce : Arr UInt8 n} {aad : List UInt8}
    {m c : List Term} (h : (symAead cipher n).encrypt k nonce aad m = some c) :
    AllSafe σ c ↔ (AllSafe σ k.toList → AllSafe σ m) := by
  cases h
  rw [AllSafe, List.forall_mem_singleton, safe_sealed, safe_str, safe_str]

theorem ownerSafe_public (o : Oracle) (sk : Arr Term 32) :
    OwnerSafe σ (str (o.suite.x25519 sk).toList) ↔ AllSafe σ sk.toList := by
  rw [← safe_str]
  rfl

/-- A box for `sk` may be published when its message may, or `sk` may not. -/
theorem allSafe_box {o : Oracle} {pos : Nat} {sk : Arr Term 32} {m c : List Term}
    (h : o.suite.boxSeal pos (o.suite.x25519 sk) m = some c) :
    AllSafe σ c ↔ (AllSafe σ sk.toList → AllSafe σ m) := by
  cases h
  rw [AllSafe, List.forall_mem_singleton, safe_box, safe_str, ownerSafe_public]

theorem symAead_decrypt_safe {cipher : Cipher} {n : Nat} {k : Arr Term 32} {nonce : Arr UInt8 n} {aad : List UInt8}
    {m c : List Term} (hk : AllSafe σ k.toList) (hc : AllSafe σ c)
    (h : (symAead cipher n).decrypt k nonce aad c = some m) : AllSafe σ m :=
  (allSafe_sealed ((symAead_ideal cipher n).only h)).mp hc hk

theorem boxOpen_safe {o : Oracle} {sk : Arr Term 32} {m c : List Term} (hk : AllSafe σ sk.toList) (hc : AllSafe σ c)
    (h : o.suite.boxOpen sk c = some m) : AllSafe σ m := by
  change symBoxOpen sk c = some m at h
  unfold symBoxOpen at h
  split at h
  · split at h
    · rename_i hpk
      rw [AllSafe, List.forall_mem_singleton, safe_box, hpk, unstr_eq_some.mp h, safe_str] at hc
      exact hc ((ownerSafe_public o sk).mpr hk)
    · cases h
  · cases h

/-- The attacker's steps keep safe strings safe, when he guesses only what is not secret. -/
theorem safe_closed (o : Oracle) {Guess : List UInt8 → Prop} (hg : ∀ w, Guess w → σ.guess w) :
    Closed o.suite Guess (AllSafe σ) where
  lit b := by rw [AllSafe, List.forall_mem_singleton]; exact trivial
  nil := by simp [AllSafe]
  append hx hy := allSafe_append.mpr ⟨hx, hy⟩
  slice h := (allSafe_append.mp (allSafe_append.mp h).1).2
  argon hw h := (allSafe_argon h).mpr (hg _ hw)
  blake c hm := (allSafe_blake o c _).mpr hm
  aesEncrypt _ hm h := (allSafe_sealed h).mpr fun _ => hm
  aesDecrypt := symAead_decrypt_safe
  xchachaEncrypt _ hm h := (allSafe_sealed h).mpr fun _ => hm
  xchachaDecrypt := symAead_decrypt_safe
  publicKey _ := allSafe_public o _
  boxSeal _ hm h := by
    cases h
    rw [AllSafe, List.forall_mem_singleton, safe_box, safe_str]
    exact fun _ => hm
  boxOpen := boxOpen_safe

/-- What the attacker derives from safe strings is safe. -/
theorem Derives.safe {o : Oracle} {Known : List Term → Prop} {Guess : List UInt8 → Prop}
    (hg : ∀ w, Guess w → σ.guess w) (hK : ∀ m, Known m → AllSafe σ m) {m : List Term}
    (h : Derives o.suite Known Guess m) : AllSafe σ m :=
  h.closed (safe_closed o hg) hK

end RootkeyCrypto.Lib
