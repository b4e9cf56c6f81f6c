/-
  RootkeyCrypto.Lib.Authentic — what the attacker cannot make, over the symbolic suite.

  `Made` is which ciphertexts were made under secret keys. `Authentic σ Made b`: every
  ciphertext under a secret key that can be reached in `b` was made. Strings that are safe
  and authentic are closed under the attacker's steps (`genuine_closed`): he has no secret
  key to encrypt under. So whatever he derives that opens under a secret key was made
  (`Derives.made`).

  A string in which no secret occurs (`Without`) is safe and authentic whatever was made
  (`without_genuine`).

  A ledger holds the encryptions that were done. While nothing else under a secret key is
  known, nothing secret is learned, and what opens under a secret key is one of them, with
  its nonce, its bound bytes and its plaintext (`ledger_holds`).
-/

import RootkeyCrypto.Lib.Symbolic

namespace RootkeyCrypto.Lib

open Term

variable {σ : Secrets} {Made : Term → Prop} {o : Oracle}

/-- Every ciphertext under a secret key that can be reached was made. -/
def Authentic (σ : Secrets) (Made : Term → Prop) : Term → Prop
  | .sealed cipher k nonce aad m =>
    (Safe σ k → Authentic σ Made m) ∧ (¬ Safe σ k → Made (.sealed cipher k nonce aad m))
  | .box _ pk m => OwnerSafe σ pk → Authentic σ Made m
  | .cons b bs => Authentic σ Made b ∧ Authentic σ Made bs
  | _ => True

/-- No secret occurs in the term. -/
def Without (σ : Secrets) : Term → Prop
  | .lit _ => True
  | .key pos _ => ¬ σ.key pos
  | .data d => ¬ σ.data d
  | .word l _ => ¬ σ.word l
  | .argon _ _ _ _ w _ => σ.guess w
  | .blake _ material _ => Without σ material
  | .sealed _ k _ _ m => Without σ k ∧ Without σ m
  | .pub secret _ => Without σ secret
  | .box _ pk m => Without σ pk ∧ Without σ m
  | .nil => True
  | .cons b bs => Without σ b ∧ Without σ bs

/-- Safe and authentic. -/
def Genuine (σ : Secrets) (Made : Term → Prop) (l : List Term) : Prop :=
  AllSafe σ l ∧ ∀ b ∈ l, Authentic σ Made b

theorem authentic_sealed_iff {cipher : Cipher} {k m : Term} {nonce aad : List UInt8} :
    Authentic σ Made (.sealed cipher k nonce aad m) ↔
      (Safe σ k → Authentic σ Made m) ∧ (¬ Safe σ k → Made (.sealed cipher k nonce aad m)) := Iff.rfl

theorem authentic_box {pos : Nat} {pk m : Term} :
    Authentic σ Made (.box pos pk m) ↔ (OwnerSafe σ pk → Authentic σ Made m) := Iff.rfl

theorem authentic_str {l : List Term} : Authentic σ Made (str l) ↔ ∀ b ∈ l, Authentic σ Made b := by
  induction l with
  | nil => exact iff_of_true trivial fun _ h => (by cases h)
  | cons b bs ih =>
    rw [List.forall_mem_cons, ← ih]
    rfl

theorem genuine_append {l l' : List Term} :
    Genuine σ Made (l ++ l') ↔ Genuine σ Made l ∧ Genuine σ Made l' := by
  unfold Genuine
  rw [allSafe_append, List.forall_mem_append]
  exact and_and_and_comm

/-! ## Strings without secrets -/

theorem without_safe {b : Term} (h : Without σ b) : Safe σ b := by
  induction b with
  | lit _ => exact trivial
  | key _ _ => exact h
  | data _ => exact h
  | word _ _ => exact h
  | argon _ _ _ _ _ _ => exact h
  | blake _ _ _ ih => exact ih h
  | sealed _ _ _ _ _ _ ihm => exact fun _ => ihm h.2
  | pub _ _ _ => exact trivial
  | box _ _ _ _ ihm => exact fun _ => ihm h.2
  | nil => exact trivial
  | cons _ _ ih ihs => exact ⟨ih h.1, ihs h.2⟩

theorem without_authentic {b : Term} (h : Without σ b) : Authentic σ Made b := by
  induction b with
  | sealed _ _ _ _ _ _ ihm => exact ⟨fun _ => ihm h.2, fun hk => absurd (without_safe h.1) hk⟩
  | box _ _ _ _ ihm => exact fun _ => ihm h.2
  | cons _ _ ih ihs => exact ⟨ih h.1, ihs h.2⟩
  | _ => exact trivial

theorem without_genuine {l : List Term} (h : ∀ b ∈ l, Without σ b) : Genuine σ Made l :=
  ⟨fun b hb => without_safe (h b hb), fun b hb => without_authentic (h b hb)⟩

/-! ## The attacker's steps -/

/-- A ciphertext under a key that is not secret is as authentic as its plaintext. -/
theorem authentic_sealed {cipher : Cipher} {n : Nat} {k : Arr Term 32} {nonce : Arr UInt8 n} {aad : List UInt8}
    {m c : List Term} (hk : AllSafe σ k.toList) (h : (symAead cipher n).encrypt k nonce aad m = some c) :
    (∀ b ∈ c, Authentic σ Made b) ↔ ∀ b ∈ m, Authentic σ Made b := by
  cases h
  rw [List.forall_mem_singleton, authentic_sealed_iff, safe_str, authentic_str]
  constructor
  · intro h
    exact h.1 hk
  · intro h
    exact ⟨fun _ => h, fun hno => absurd hk hno⟩

theorem encrypt_genuine {cipher : Cipher} {n : Nat} {k : Arr Term 32} {nonce : Arr UInt8 n} {aad : List UInt8}
    {m c : List Term} (hk : Genuine σ Made k.toList) (hm : Genuine σ Made m)
    (h : (symAead cipher n).encrypt k nonce aad m = some c) : Genuine σ Made c :=
  ⟨(allSafe_sealed h).mpr fun _ => hm.1, (authentic_sealed hk.1 h).mpr hm.2⟩

theorem decrypt_genuine {cipher : Cipher} {n : Nat} {k : Arr Term 32} {nonce : Arr UInt8 n} {aad : List UInt8}
    {m c : List Term} (hk : Genuine σ Made k.toList) (hc : Genuine σ Made c)
    (h : (symAead cipher n).decrypt k nonce aad c = some m) : Genuine σ Made m :=
  ⟨symAead_decrypt_safe hk.1 hc.1 h, (authentic_sealed hk.1 ((symAead_ideal cipher n).only h)).mp hc.2⟩

theorem boxOpen_genuine {sk : Arr Term 32} {m c : List Term} (hk : Genuine σ Made sk.toList) (hc : Genuine σ Made c)
    (h : o.suite.boxOpen sk c = some m) : Genuine σ Made m := by
  refine ⟨boxOpen_safe hk.1 hc.1 h, ?_⟩
  change symBoxOpen sk c = some m at h
  unfold symBoxOpen at h
  split at h
  · split at h
    · rename_i hpk
      have ha := hc.2 _ List.mem_cons_self
      rw [authentic_box, hpk, unstr_eq_some.mp h, authentic_str] at ha
      exact ha ((ownerSafe_public o sk).mpr hk.1)
    · cases h
  · cases h

/-- Bytes that no ciphertext is in. -/
theorem genuine_ofFn {f : Nat → Term} (hs : AllSafe σ (Arr.ofFn 32 f).toList) (ha : ∀ j, Authentic σ Made (f j)) :
    Genuine σ Made (Arr.ofFn 32 f).toList := by
  refine ⟨hs, ?_⟩
  intro b hb
  obtain ⟨j, -, rfl⟩ := List.mem_map.mp hb
  exact ha j

/-- The attacker's steps keep safe and authentic strings so. -/
theorem genuine_closed (o : Oracle) {Guess : List UInt8 → Prop} (hg : ∀ w, Guess w → σ.guess w) :
    Closed o.suite Guess (Genuine σ Made) where
  lit b := ⟨(safe_closed o hg).lit b, by rw [List.forall_mem_singleton]; exact trivial⟩
  nil := ⟨(safe_closed o hg).nil, by simp⟩
  append hx hy := genuine_append.mpr ⟨hx, hy⟩
  slice h := (genuine_append.mp (genuine_append.mp h).1).2
  argon hw h := by
    have hs := (allSafe_argon h).mpr (hg _ hw)
    simp only [Oracle.suite, Option.ite_none_right_eq_some, Option.some.injEq] at h
    rw [← h.2] at hs ⊢
    exact genuine_ofFn hs fun _ => trivial
  blake c hm := genuine_ofFn ((allSafe_blake o c _).mpr hm.1) fun _ => trivial
  aesEncrypt := encrypt_genuine
  aesDecrypt := decrypt_genuine
  xchachaEncrypt := encrypt_genuine
  xchachaDecrypt := decrypt_genuine
  publicKey _ := genuine_ofFn (allSafe_public o _) fun _ => trivial
  boxSeal hp hm h := by
    refine ⟨(safe_closed o hg).boxSeal hp.1 hm.1 h, ?_⟩
    cases h
    rw [List.forall_mem_singleton, authentic_box, authentic_str]
    exact fun _ => hm.2
  boxOpen := boxOpen_genuine

/-- What the attacker derives that opens under a secret key was made. -/
theorem Derives.made {Known : List Term → Prop} {Guess : List UInt8 → Prop} (hg : ∀ w, Guess w → σ.guess w)
    (hK : ∀ m, Known m → Genuine σ Made m) {cipher : Cipher} {n : Nat} {k : Arr Term 32} {nonce : Arr UInt8 n}
    {aad : List UInt8} {m c : List Term} (h : Derives o.suite Known Guess c) (hk : ¬ AllSafe σ k.toList)
    (hd : (symAead cipher n).decrypt k nonce aad c = some m) : ∃ t, c = [t] ∧ Made t := by
  obtain ⟨-, ha⟩ := h.closed (genuine_closed o hg) hK
  have henc := (symAead_ideal cipher n).only hd
  cases henc
  refine ⟨_, rfl, ?_⟩
  have ht := ha _ List.mem_cons_self
  rw [authentic_sealed_iff, safe_str] at ht
  exact ht.2 hk

/-! ## Ledgers -/

/-- One encryption that was done. -/
structure Entry (cipher : Cipher) (n : Nat) where
  key : Arr Term 32
  nonce : Arr UInt8 n
  aad : List UInt8
  plain : List Term
  out : List Term
  sealed : (symAead cipher n).encrypt key nonce aad plain = some out

variable {cipher : Cipher} {n : Nat} {Ledger : Entry cipher n → Prop}

/-- The ciphertexts of a ledger. -/
def Outs (Ledger : Entry cipher n → Prop) (t : Term) : Prop := ∃ x, Ledger x ∧ x.out = [t]

/-- A ciphertext of the ledger is as genuine as its plaintext, and genuine when its key is secret. -/
theorem Entry.genuine {x : Entry cipher n} (hx : Ledger x)
    (hp : AllSafe σ x.key.toList → Genuine σ (Outs Ledger) x.plain) : Genuine σ (Outs Ledger) x.out := by
  refine ⟨(allSafe_sealed x.sealed).mpr fun hk => (hp hk).1, ?_⟩
  have henc := x.sealed
  change some _ = some x.out at henc
  rw [Option.some.injEq] at henc
  rw [← henc, List.forall_mem_singleton, authentic_sealed_iff, safe_str, authentic_str]
  exact ⟨fun hk => (hp hk).2, fun _ => ⟨x, hx, henc.symm⟩⟩

/-- What is known: what the ledger's encryptions gave, and what is genuine anyway. -/
def Honest (σ : Secrets) (Ledger : Entry cipher n → Prop) (Known : List Term → Prop) : Prop :=
  ∀ m, Known m → (∃ x, Ledger x ∧ x.out = m) ∨ Genuine σ (Outs Ledger) m

/-- What is encrypted under a key that is not secret is genuine anyway. -/
def OpensGenuine (σ : Secrets) (Ledger : Entry cipher n → Prop) : Prop :=
  ∀ x, Ledger x → AllSafe σ x.key.toList → Genuine σ (Outs Ledger) x.plain

theorem Honest.genuine {Known : List Term → Prop} (hK : Honest σ Ledger Known) (hopen : OpensGenuine σ Ledger) :
    ∀ m, Known m → Genuine σ (Outs Ledger) m := by
  intro m hm
  rcases hK m hm with ⟨x, hx, rfl⟩ | hgen
  · exact Entry.genuine hx (hopen x hx)
  · exact hgen

/-- Nothing secret is learned from a ledger, and what opens under a secret key is in it. -/
theorem ledger_holds {Known : List Term → Prop} (hK : Honest σ Ledger Known) (hopen : OpensGenuine σ Ledger) :
    (∀ m, Derives o.suite Known σ.guess m → AllSafe σ m) ∧
      ∀ {k : Arr Term 32} {nonce : Arr UInt8 n} {aad : List UInt8} {m c : List Term},
        Derives o.suite Known σ.guess c → ¬ AllSafe σ k.toList → (symAead cipher n).decrypt k nonce aad c = some m →
          ∃ x, Ledger x ∧ x.out = c ∧ x.key = k ∧ x.nonce = nonce ∧ x.aad = aad ∧ x.plain = m := by
  have hgen := hK.genuine hopen
  refine ⟨fun m hm => (hm.closed (genuine_closed o fun _ h => h) hgen).1, ?_⟩
  intro k nonce aad m c h hk hd
  obtain ⟨t, rfl, x, hx, hout⟩ := h.made (fun _ h => h) hgen hk hd
  have hc := x.sealed
  rw [hout] at hc
  obtain ⟨hkey, hnonce, haad, hm⟩ := (symAead_ideal cipher n).inj hc ((symAead_ideal cipher n).only hd)
  exact ⟨x, hx, hout, hkey, hnonce, haad, hm⟩

end RootkeyCrypto.Lib
