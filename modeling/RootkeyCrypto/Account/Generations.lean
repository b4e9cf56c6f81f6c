/-
  RootkeyCrypto.Account.Generations — the records of a re-key among those before it.

  `rekey_account` leaves its caller with a new keyset and a new slot for every vault. These
  are several files, stored one after the other, so that for a while some are old and some
  new; and a sync may bring an old one back later.

  `rekey_generations`: of the eight ways to put together an account handle, an entry and a
  slot of one vault, each from before or from after, the two that are all of one time open,
  to the old keys or the new ones, and the six others fail with `decryptFailed`. So a vault
  of which the caller has stored only one of the two opens with no password, until the
  other follows; and it never opens to a mixture.
-/

import RootkeyCrypto.Account.Rotation
import RootkeyCrypto.World.Rekey

namespace RootkeyCrypto.AccountLifetime

open Lib

variable {β : Type} {S : Suite β}

/-! ## The KEKs of a run -/

theorem mounted_slot {st : St β} {n' : Nat} {r : VaultUnderAccount β} {es : List (AccountVaultEntry β)} {id : Id}
    {s : VaultKeySlot β} {v : UnlockedVault β} (h : (mounted st n' r es).slots id = some (s, v)) :
    v = r.unlocked ∨ st.slots id = some (s, v) := by
  change (if id = r.entry.vaultId then some (r.slot, r.unlocked) else st.slots id) = some (s, v) at h
  split at h
  · cases h
    exact Or.inl rfl
  · exact Or.inr h

/-- The KEKs of the vaults were drawn in the run. -/
theorem run_keks {st : St β} (hS : S.Ideal) (h : Run S st) :
    ∀ id s v, st.slots id = some (s, v) → Drawn S 0 st.pos v.kek := by
  induction h with
  | create => exact fun id s v h => (by cases h)
  | @step _ a b _ hs ih =>
    have hpos := step_pos hS hs
    have hold : ∀ id s v, a.slots id = some (s, v) → Drawn S 0 b.pos v.kek :=
      fun id s v h => (ih id s v h).widen (Nat.le_refl _) hpos
    cases hs with
    | create _ hn h =>
      intro id s v hs
      rcases mounted_slot hs with rfl | hs
      · exact (createVaultUnderAccount_ok h).2.2.2.1.widen (Nat.zero_le _) (Nat.le_refl _)
      · exact hold id s v hs
    | attach _ hn h =>
      intro id s v hs
      rcases mounted_slot hs with rfl | hs
      · obtain ⟨-, -, -, -, -, hk, hlt⟩ := wrapUnderAccount_ok h
        exact ⟨_, Nat.zero_le _, hlt, hk⟩
      · exact hold id s v hs
    | changePassword => exact hold
    | setupRecovery => exact hold
    | resetPassword => exact hold
    | rotateRoot => exact hold
    | enableBiometric => exact hold

/-! ## Old and new do not mix -/

/-- An entry or a slot that is for another KEK or root key. -/
theorem unlockAccountVault_locked (hS : S.Ideal) {a : UnlockedAccount β} {e : AccountVaultEntry β} {s : VaultKeySlot β}
    {ark : AccountRootKey β} {kek kek' : KeyEncryptionKey β} {vmk : VaultMasterKey β}
    (hver : checkVersion accountFormatVersion accountMinReadableVersion s.version = .ok ())
    (ha : s.accountId = a.accountId) (hv : s.vaultId = e.vaultId)
    (hk : Wraps S ark kek (aadForVaultKek a.accountId e.vaultId) e.wrappedKek)
    (hm : Wraps S kek' vmk (aadForVmk a.accountId e.vaultId) s.wrappedVmk) (hne : a.ark ≠ ark ∨ kek ≠ kek') :
    unlockAccountVault S a e s = .error .decryptFailed := by
  unfold unlockAccountVault
  rw [hver, if_neg (not_or.mpr ⟨not_not.mpr ha, not_not.mpr hv⟩)]
  by_cases hark : a.ark = ark
  · rw [hark, (unwrapKey_ok hS).mpr hk]
    show unlockBelow S a.accountId s.vaultId kek s.wrappedVmk s.wrappedIkek = _
    unfold unlockBelow
    rw [hv, unwrapKey_other hS hm (Or.inl (hne.resolve_left (not_not.mpr hark)))]
    rfl
  · rw [unwrapKey_other hS hk (Or.inl hark)]
    rfl

/-- Records of two generations, by one's account handle. -/
theorem mixed_locked (hS : S.Ideal) {a a' : UnlockedAccount β} {e e' : AccountVaultEntry β} {s s' : VaultKeySlot β}
    {v v' : UnlockedVault β} (h : unlockAccountVault S a e s = .ok v) (h' : unlockAccountVault S a' e' s' = .ok v')
    (ha : a'.accountId = a.accountId) (hid : e'.vaultId = e.vaultId) (hark : a.ark ≠ a'.ark) (hkek : v.kek ≠ v'.kek) :
    unlockAccountVault S a e s' = .error .decryptFailed ∧ unlockAccountVault S a e' s = .error .decryptFailed ∧
      unlockAccountVault S a e' s' = .error .decryptFailed := by
  obtain ⟨hver, hm⟩ := (unlockAccountVault_ok hS).mp h
  obtain ⟨hver', hm'⟩ := (unlockAccountVault_ok hS).mp h'
  have hk' := hm'.kek
  have hv := hm.below.vmk
  have hv' := hm'.below.vmk
  rw [ha] at hk'
  rw [hm.account, hm.vault] at hv
  rw [hm'.account, hm'.vault, ha] at hv'
  refine ⟨?_, ?_, ?_⟩
  · exact unlockAccountVault_locked hS hver' (hm'.slotAccount.trans ha) (hm'.slotVault.trans hid) hm.kek (hid ▸ hv')
      (Or.inr hkek)
  · exact unlockAccountVault_locked hS hver hm.slotAccount (hm.slotVault.trans hid.symm) hk' (hid.symm ▸ hv) (Or.inl hark)
  · exact unlockAccountVault_locked hS hver' (hm'.slotAccount.trans ha) hm'.slotVault hk' hv' (Or.inl hark)

/-- Handle, entry and slot open the vault when all are from before, or all from after. -/
theorem rekey_generations (hS : S.Ideal) {st : St β} (h : Run S st) {old new : String} {slots : List (VaultKeySlot β)}
    {r : RekeyedAccount β} {n n' : Nat} (hn : st.pos ≤ n)
    (hr : rekeyAccount S old new st.stored slots n = .ok (r, n')) {x : RekeyedVault β} (hx : x ∈ r.vaults) :
    ∃ a, unlockAccount S old st.stored = .ok a ∧ ∃ e ∈ st.stored.vaults, ∃ s ∈ slots, s.vaultId = x.slot.vaultId ∧
      ∀ ga ge gs : Bool,
        unlockAccountVault S (if ga then r.unlocked else a) (if ge then x.entry else e) (if gs then x.slot else s) =
          if ga = ge ∧ ge = gs then .ok (if ga then x.new else x.old) else .error .decryptFailed := by
  obtain ⟨a, hi, hd⟩ := run_drawn hS h
  obtain ⟨a', _, ha, hid, hark, -, -, -, hall, -⟩ := rekeyAccount_ok hr
  cases handle_same hS hi (.password ha)
  obtain ⟨s, hs, hx⟩ := paired_right hall hx
  obtain ⟨e, he, hes, hopen⟩ := hx.old
  have hnew : unlockAccountVault S r.unlocked x.entry x.slot = .ok x.new :=
    (unlockAccountVault_ok hS).mpr ⟨hx.version ▸ account_readable, hx.mounts⟩
  -- The new root key and the new KEK are drawn after all of the run.
  have harkne : a.ark ≠ r.unlocked.ark := by
    intro heq
    obtain ⟨i, -, hi, hk⟩ := hd
    have := hS.key_fresh (heq ▸ hk) hark
    omega
  have hkekne : x.old.kek ≠ x.new.kek := by
    intro heq
    obtain ⟨s₀, v₀, hslot, hopen₀⟩ := hi.vaults e he
    have hm := ((unlockAccountVault_ok hS).mp hopen).2
    have hm₀ := ((unlockAccountVault_ok hS).mp hopen₀).2
    obtain ⟨i, -, hi, hk⟩ := run_keks hS h _ _ _ hslot
    obtain ⟨j, hj, -, hk'⟩ := hx.fresh.1
    rw [(hm₀.kek.unique hS hm.kek).2.2, heq] at hk
    have := hS.key_fresh hk hk'
    omega
  have hacc : r.unlocked.accountId = a.accountId := hid.trans (hi.accountId hS).symm
  have hvid : x.entry.vaultId = e.vaultId := hx.vault.trans hes.symm
  obtain ⟨hoon, hono, honn⟩ := mixed_locked hS hopen hnew hacc hvid harkne hkekne
  obtain ⟨hnno, hnon, hnoo⟩ := mixed_locked hS hnew hopen hacc.symm hvid.symm harkne.symm hkekne.symm
  refine ⟨a, ha, e, he, s, hs, hx.vault.symm.trans hx.mounts.slotVault.symm, fun ga ge gs => ?_⟩
  cases ga with
  | false =>
    cases ge with
    | false => cases gs with
      | false => exact hopen
      | true => exact hoon
    | true => cases gs with
      | false => exact hono
      | true => exact honn
  | true =>
    cases ge with
    | false => cases gs with
      | false => exact hnoo
      | true => exact hnon
    | true => cases gs with
      | false => exact hnno
      | true => exact hnew

/-! ## A trace -/

/-- The new slot is stored, the new keyset is not: the vault opens for nobody. -/
theorem rekey_generations_half : ∃ x ∈ Rekey.demoRekey.1.vaults, ∃ a, unlockAccount demo.suite "a" demoKeyset = .ok a ∧
    ∃ e ∈ demoKeyset.vaults, unlockAccountVault demo.suite a e x.slot = .error .decryptFailed ∧
      unlockAccountVault demo.suite Rekey.demoRekey.1.unlocked e x.slot = .error .decryptFailed := by
  have hrekey : rekeyAccount demo.suite "a" "b" demoKeyset [demoMount.1.slot] demoMount.2 =
      .ok (Rekey.demoRekey.1, Rekey.demoRekey.2) := okVal_eq _
  obtain ⟨x, hx⟩ : ∃ x, x ∈ Rekey.demoRekey.1.vaults := List.exists_mem_of_length_pos (by decide +kernel)
  obtain ⟨a, ha, e, he, _, -, -, hall⟩ := rekey_generations demo.suite_ideal demoFirst_run (Nat.le_refl _) hrekey hx
  exact ⟨x, hx, a, ha, e, he, hall false false true, hall true false true⟩

end RootkeyCrypto.AccountLifetime
