/-
  RootkeyCrypto.Vault.Rotation — what the rotations of a vault take away from whoever has
  old keys, and what nothing takes away.

  `Later S st vmk ikek st'`: the vault gets from one state to the other, with a
  `rotate_vault_key` on the way if `vmk`, with a `rotate_ikek` if `ikek`.

  - `old_handle_reads`: a handle of then reads the items of now, the ones added since
    included, unless the IKEK was rotated, and unwraps the signing seed unless the VMK was.
    After that it reads none. But item keys and payloads stay: with the wrapping an item had
    then, the handle reads the item's payload of now.
  - `kek_stays`: the KEK is never replaced. Whoever kept the password of then, with its
    wrapping of the KEK, or an envelope of then with its key, opens the keyset of now,
    whatever was changed and rotated since.
-/

import RootkeyCrypto.Vault.Lifetime

namespace RootkeyCrypto.VaultLifetime

open Lib

variable {β : Type} {S : Suite β}

/-- A later state, and which keys were replaced on the way. -/
inductive Later (S : Suite β) (st : St β) : Bool → Bool → St β → Prop
  | refl : Later S st false false st
  | step {vmk ikek vmk' ikek' b c} (h : Later S st vmk ikek b) (hs : Step S vmk' ikek' b c) :
      Later S st (vmk || vmk') (ikek || ikek') c

/-! ## What is replaced, and what stays -/

/-- The handle keeps its ids and its KEK, the items their ids, plaintexts and payloads. -/
structure Carries (S : Suite β) (vmk ikek : Bool) (a b : St β) : Prop where
  forward : a.pos ≤ b.pos
  account : b.handle.accountId = a.handle.accountId
  vault : b.handle.vaultId = a.handle.vaultId
  kek : b.handle.kek = a.handle.kek
  vmk : Replaced S a.pos b.pos vmk a.handle.vmk b.handle.vmk
  ikek : Replaced S a.pos b.pos ikek a.handle.ikek b.handle.ikek
  items : ∀ it ∈ a.items, ∃ it' ∈ b.items, it'.id = it.id ∧ it'.plaintext = it.plaintext ∧ it'.payload = it.payload
  biometrics : ∀ x ∈ a.biometrics, x ∈ b.biometrics

theorem Carries.refl (a : St β) : Carries S false false a a :=
  ⟨Nat.le_refl _, rfl, rfl, rfl, rfl, rfl, fun it hit => ⟨it, hit, rfl, rfl, rfl⟩, fun _ h => h⟩

theorem Carries.trans {x y x' y' : Bool} {a b c : St β} (h : Carries S x y a b) (h' : Carries S x' y' b c) :
    Carries S (x || x') (y || y') a c := by
  refine ⟨h.forward.trans h'.forward, h'.account.trans h.account, h'.vault.trans h.vault, h'.kek.trans h.kek,
    h.vmk.trans h.forward h'.forward h'.vmk, h.ikek.trans h.forward h'.forward h'.ikek, fun it hit => ?_,
    fun x hx => h'.biometrics x (h.biometrics x hx)⟩
  obtain ⟨it', hit', hid, hp, hb⟩ := h.items it hit
  obtain ⟨it'', hit'', hid', hp', hb'⟩ := h'.items it' hit'
  exact ⟨it'', hit'', hid'.trans hid, hp'.trans hp, hb'.trans hb⟩

theorem step_carries (hS : S.Ideal) {vmk ikek : Bool} {a b : St β} (h : Step S vmk ikek a b) :
    Carries S vmk ikek a b := by
  have hitems : ∀ (l : List (Item β)), ∀ it ∈ l, ∃ it' ∈ l,
      it'.id = it.id ∧ it'.plaintext = it.plaintext ∧ it'.payload = it.payload :=
    fun _ it hit => ⟨it, hit, rfl, rfl, rfl⟩
  cases h with
  | encrypt hn h =>
    have hlt := (encryptItem_ok h).2.1
    refine ⟨Nat.le_of_lt (Nat.lt_of_le_of_lt hn hlt), rfl, rfl, rfl, rfl, rfl, fun it hit => ?_, fun _ h => h⟩
    exact ⟨it, List.mem_cons_of_mem _ hit, rfl, rfl, rfl⟩
  | wrapSeed hn h =>
    have hlt := (wrapSigningSeed_ok h).2
    exact ⟨Nat.le_of_lt (Nat.lt_of_le_of_lt hn hlt), rfl, rfl, rfl, rfl, rfl, hitems _, fun _ h => h⟩
  | enableBiometric hn h =>
    have hlt := (enableBiometricUnlock_ok h).2.2.2.1
    exact ⟨Nat.le_of_lt (Nat.lt_of_le_of_lt hn hlt), rfl, rfl, rfl, rfl, rfl, hitems _, fun _ h => List.mem_cons_of_mem _ h⟩
  | changePassword hn h =>
    obtain ⟨_, _, -, -, -, -, hlt⟩ := changeMasterPassword_ok h
    exact ⟨Nat.le_of_lt (Nat.lt_of_le_of_lt hn hlt), rfl, rfl, rfl, rfl, rfl, hitems _, fun _ h => h⟩
  | @vaultKey _ ks v w' n n' hn h =>
    obtain ⟨-, -, hv, -, -, -, hdraw, hlt⟩ := rotateVaultKey_ok h
    have hid : v.accountId = a.handle.accountId ∧ v.vaultId = a.handle.vaultId ∧ v.kek = a.handle.kek ∧
        v.ikek = a.handle.ikek := by
      rw [hv]
      exact ⟨rfl, rfl, rfl, rfl⟩
    exact ⟨Nat.le_of_lt (Nat.lt_of_le_of_lt hn hlt), hid.1, hid.2.1, hid.2.2.1, ⟨n, hn, hlt, hdraw⟩, hid.2.2.2,
      hitems _, fun _ h => h⟩
  | @ikek _ ks v items n m k n' hn h hm hr =>
    obtain ⟨-, -, hv, -, -, hdraw, hlt⟩ := rotateIkek_ok h
    have hid : v.accountId = a.handle.accountId ∧ v.vaultId = a.handle.vaultId ∧ v.kek = a.handle.kek ∧
        v.vmk = a.handle.vmk := by
      rw [hv]
      exact ⟨rfl, rfl, rfl, rfl⟩
    obtain ⟨hle, hall⟩ := Draws.each_ok (rewrapItem_forward hS _ _) hr
    have hlt' : n < n' := Nat.lt_of_lt_of_le hlt (hm.trans hle)
    refine ⟨Nat.le_of_lt (Nat.lt_of_le_of_lt hn hlt'), hid.1, hid.2.1, hid.2.2.1, hid.2.2.2, ⟨n, hn, hlt', hdraw⟩,
      fun it hit => ?_, fun _ h => h⟩
    -- A re-wrap replaces the wrapping of the item key, and nothing else.
    obtain ⟨it', hit', _, _, -, -, -, hre⟩ := paired_left hall hit
    simp only [rewrapItem, Draws.bind_ok, Draws.pure_ok] at hre
    obtain ⟨e, _, -, rfl, -⟩ := hre
    exact ⟨_, hit', rfl, rfl, rfl⟩

/-- A whole way keeps the invariant and carries what one step does. -/
theorem later_carries (hS : S.Ideal) {vmk ikek : Bool} {st st' : St β} (hi : Inv S st) (h : Later S st vmk ikek st') :
    Inv S st' ∧ Carries S vmk ikek st st' := by
  induction h with
  | refl => exact ⟨hi, .refl st⟩
  | step _ hs ih =>
    obtain ⟨hi', hc⟩ := ih
    exact ⟨step_inv hS hi' hs, hc.trans (step_carries hS hs)⟩

/-- The keys of a handle were drawn in its run. -/
theorem run_drawn (hS : S.Ideal) {st : St β} (h : Run S st) :
    Drawn S 0 st.pos st.handle.vmk ∧ Drawn S 0 st.pos st.handle.ikek := by
  induction h with
  | create h =>
    obtain ⟨-, -, -, -, hvmk, hikek⟩ := createVaultKeys_ok h
    exact ⟨hvmk.widen (Nat.zero_le _) (Nat.le_refl _), hikek.widen (Nat.zero_le _) (Nat.le_refl _)⟩
  | step _ hs ih =>
    have hc := step_carries hS hs
    have hkeep : ∀ {turned : Bool} {k k' : SymmetricKey β}, Drawn S 0 _ k → Replaced S _ _ turned k k' → Drawn S 0 _ k' :=
      fun hk hr => Replaced.drawn hc.forward hk hr
    exact ⟨hkeep ih.1 hc.vmk, hkeep ih.2 hc.ikek⟩

/-! ## What an old handle reads -/

/-- Items and seed are read with old keys until these are replaced; but an item's old
    wrapping goes with its payload for good. -/
theorem old_handle_reads (hS : S.Ideal) {st st' : St β} {vmk ikek : Bool} (h : Run S st) (hl : Later S st vmk ikek st') :
    (∀ it ∈ st'.items, decryptItem S it.stored it.id st.handle =
      if ikek then .error .decryptFailed else .ok it.plaintext) ∧
    (∀ s, st'.seed = some s → ∃ w, st'.wrappedSeed = some w ∧ unwrapSigningSeed S st.handle w =
      if vmk then .error .decryptFailed else .ok s) ∧
    ∀ it ∈ st.items, ∃ it' ∈ st'.items, it'.id = it.id ∧ it'.plaintext = it.plaintext ∧
      decryptItem S { it'.stored with wrappedItemKey := it.stored.wrappedItemKey } it.id st.handle = .ok it.plaintext := by
  have hi := run_inv hS h
  obtain ⟨hvmk, hikek⟩ := run_drawn hS h
  obtain ⟨hi', hc⟩ := later_carries hS hi hl
  refine ⟨fun it hit => ?_, fun s hs => ?_, fun it hit => ?_⟩
  · have hok := hi'.items it hit
    cases ikek with
    | true => exact decryptItem_other hS hok.version hok.opens (Replaced.ne hS hikek hc.ikek)
    | false =>
      have hok' := hok.transfer hc.vault.symm (show st.handle.ikek = st'.handle.ikek from Eq.symm hc.ikek)
      exact (decryptItem_ok hS).mpr ⟨hok'.version ▸ item_readable, hok'.opens⟩
  · obtain ⟨w, hstored, hw⟩ := hi'.seed s hs
    refine ⟨w, hstored, ?_⟩
    rw [hc.vault] at hw
    cases vmk with
    | true => exact unwrapKey_other hS hw (Or.inl (Replaced.ne hS hvmk hc.vmk))
    | false =>
      rw [show st'.handle.vmk = st.handle.vmk from hc.vmk] at hw
      exact (unwrapKey_ok hS).mpr hw
  · obtain ⟨it', hit', hid, hp, hb⟩ := hc.items it hit
    obtain ⟨k, hw, hs⟩ := (hi.items it hit).opens
    have hblob : it'.stored.blob = it.stored.blob :=
      (hi'.items it' hit').payload.trans (hb.trans (hi.items it hit).payload.symm)
    refine ⟨it', hit', hid, hp, (decryptItem_ok hS).mpr ⟨(hi'.items it' hit').version ▸ item_readable, k, hw, ?_⟩⟩
    show Seals S k it.plaintext _ it'.stored.blob
    rw [hblob]
    exact hs

/-- Nothing replaces the KEK: the old password's wrapping of it opens the keyset of now,
    and so does an old envelope. -/
theorem kek_stays (hS : S.Ideal) {st st' : St β} {vmk ikek : Bool} (h : Run S st) (hl : Later S st vmk ikek st') :
    (∀ pw, S.nfkd pw = S.nfkd st.password → unlockVault S pw
      { st'.stored with kdf := st.stored.kdf, wrappedKek := st.stored.wrappedKek } = .ok st'.handle) ∧
    ∀ b ∈ st.biometrics, unlockViaBiometric S b.wrapperKey b.envelope st'.stored = .ok st'.handle := by
  have hi := run_inv hS h
  obtain ⟨hi', hc⟩ := later_carries hS hi hl
  refine ⟨fun pw hpw => ?_, fun b hb => hi'.biometrics b (hc.biometrics b hb)⟩
  obtain ⟨-, muk, hmuk, hh⟩ := (unlockVault_ok hS).mp hi.opens
  obtain ⟨hver, _, -, hh'⟩ := (unlockVault_ok hS).mp hi'.opens
  refine (unlockVault_ok hS).mpr ⟨hver, muk, deriveMuk_congr hS hpw hmuk, hh'.account, hh'.vault, ?_, hh'.below⟩
  show Wraps S muk st'.handle.kek (aadForKek st'.stored.accountId st'.stored.vaultId st.stored.kdf) st.stored.wrappedKek
  rw [← hh'.account, ← hh'.vault, hc.account, hc.vault, hc.kek, hh.account, hh.vault]
  exact hh.kek

/-! ## A trace -/

def demoChanged : EncryptedKeySet Term × Nat :=
  okVal (changeMasterPassword demo.suite "a" "b" demoRotated.1.1 demoRewrapped.2) (by decide +kernel)

theorem demoAfter_later : Later demo.suite demoBefore true true demoAfter :=
  .step (.step .refl demoBetween_step) demoAfter_step

/-- After both rotations the old handle unwraps the seed no more, and reads the item with
    the item's old wrapping only. -/
theorem old_handle_reads_rotated :
    (∃ it ∈ demoRewrapped.1,
      decryptItem demo.suite it.stored it.id demoVault.1.unlocked = .error .decryptFailed ∧
      decryptItem demo.suite { it.stored with wrappedItemKey := demoItem.1.wrappedItemKey } (.replicate 16 1)
        demoVault.1.unlocked = .ok [.data 0]) ∧
    ∃ w, demoTurned.1.2.2 = some w ∧ unwrapSigningSeed demo.suite demoVault.1.unlocked w = .error .decryptFailed := by
  obtain ⟨hnow, hseed, hold⟩ := old_handle_reads demo.suite_ideal demoBefore_run demoAfter_later
  obtain ⟨it, hit, -, -, hread⟩ := hold _ List.mem_cons_self
  exact ⟨⟨it, hit, hnow it hit, hread⟩, hseed _ rfl⟩

/-- The first password opens the vault after both rotations and the change of the password. -/
theorem kek_stays_changed : unlockVault demo.suite "a"
    { demoChanged.1 with kdf := demoVault.1.encrypted.kdf, wrappedKek := demoVault.1.encrypted.wrappedKek } =
      .ok demoRotated.1.2 := by
  have hl : Later demo.suite demoBefore true true
      { demoAfter with pos := demoChanged.2, stored := demoChanged.1, password := "b" } :=
    .step demoAfter_later (.changePassword (Nat.le_refl _) (okVal_eq _))
  exact (kek_stays demo.suite_ideal demoBefore_run hl).1 "a" rfl

end RootkeyCrypto.VaultLifetime
