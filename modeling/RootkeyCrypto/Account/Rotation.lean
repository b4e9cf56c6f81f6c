/-
  RootkeyCrypto.Account.Rotation — what a new password revokes, and what a new root key does.

  A handle of the account, got at some point of its life, may be kept: by an old device, by
  whoever kept an old keyset with its password, by an envelope that was not deleted. A new
  password, a reset or a new recovery key change nothing for it: it still opens every vault
  (`handle_reach`). After `rotate_account_root_key` it opens no stored entry, for good,
  though a kept envelope still yields it. But the KEKs stay: with the old entry and the
  current slot it opens the vault as before (`rotation_keeps_keks`), until the vault is
  mounted anew.

  What is sealed to the account's inbox key while it is locked opens under every later
  handle until a rotation, and under none after it (`inbox_until_rotation`).

  Recovery keys are otherwise: a new one voids the one before, and a rotation voids it
  too. Of all that can be typed, only spellings of the key shown last open the account,
  and only until the next rotation (`recovery_only_latest`).
-/

import RootkeyCrypto.Account.Lifetime

namespace RootkeyCrypto.AccountLifetime

open Lib

variable {β : Type} {S : Suite β}

/-- A later state, and whether a rotation lies between. -/
inductive Later {β : Type} (S : Suite β) (st : St β) : Bool → St β → Prop
  | refl : Later S st false st
  | step {r r' b c} (h : Later S st r b) (hs : Step S r' b c) : Later S st (r || r') c

/-! ## Runs -/

theorem step_pos (hS : S.Ideal) {r : Bool} {st st' : St β} (hs : Step S r st st') : st.pos ≤ st'.pos := by
  cases hs with
  | create _ hn h =>
    have := (createVaultUnderAccount_ok h).2.2.1
    exact Nat.le_of_lt (Nat.lt_of_le_of_lt hn this)
  | attach _ hn h =>
    obtain ⟨-, -, -, -, -, -, hlt⟩ := wrapUnderAccount_ok h
    exact Nat.le_of_lt (Nat.lt_of_le_of_lt hn hlt)
  | changePassword hn h =>
    obtain ⟨_, _, -, -, -, -, hlt⟩ := changeAccountPassword_ok h
    exact Nat.le_of_lt (Nat.lt_of_le_of_lt hn hlt)
  | setupRecovery _ hn h =>
    obtain ⟨_, -, -, hlt⟩ := setupRecoveryKey_ok h
    exact Nat.le_of_lt (Nat.lt_of_le_of_lt hn hlt)
  | resetPassword hn h =>
    obtain ⟨_, _, -, -, -, -, hlt⟩ := resetPasswordWithRecoveryKey_ok h
    exact Nat.le_of_lt (Nat.lt_of_le_of_lt hn hlt)
  | rotateRoot hn h =>
    obtain ⟨_, _, -, -, -, -, -, -, -, hlt⟩ := rotateAccountRootKey_ok hS h
    exact Nat.le_of_lt (Nat.lt_of_le_of_lt hn hlt)
  | enableBiometric _ hn h =>
    exact Nat.le_of_lt (Nat.lt_of_le_of_lt hn (enableAccountBiometric_ok h).2.2.2.1)

/-- The root key of a run was drawn in it. -/
theorem run_drawn (hS : S.Ideal) {st : St β} (h : Run S st) : ∃ a, Inv S st a ∧ Drawn S 0 st.pos a.ark := by
  induction h with
  | @create pw r n n' h =>
    obtain ⟨kdf, muk, wa, henc, hmuk, hw, -, hark⟩ := createAccount_ok h
    obtain ⟨a, hi⟩ := run_inv hS (.create h)
    have hopen : unlockAccount S pw r.encrypted = .ok r.unlocked := by
      rw [unlockAccount_ok hS, henc]
      exact ⟨account_readable, rfl, muk, hmuk, hw⟩
    rw [← handle_same hS hi (.password hopen)] at hi
    exact ⟨r.unlocked, hi, hark.widen (Nat.zero_le _) (Nat.le_refl _)⟩
  | step _ hs ih =>
    obtain ⟨a, hi, hd⟩ := ih
    obtain ⟨a', hi', -, hark⟩ := step_inv hS hi hs
    exact ⟨a', hi', hark.drawn (step_pos hS hs) hd⟩

/-- After a rotation the root key is one drawn since, before it is the same. -/
theorem later_inv (hS : S.Ideal) {st st' : St β} {a : UnlockedAccount β} {r : Bool} (hi : Inv S st a)
    (h : Later S st r st') : st.pos ≤ st'.pos ∧ ∃ a', Inv S st' a' ∧ a'.accountId = a.accountId ∧
      Replaced S st.pos st'.pos r a.ark a'.ark := by
  induction h with
  | refl => exact ⟨Nat.le_refl _, a, hi, rfl, rfl⟩
  | step _ hs ih =>
    obtain ⟨hle, a', hi', hid, hark⟩ := ih
    obtain ⟨a'', hi'', hid', hark'⟩ := step_inv hS hi' hs
    have hpos := step_pos hS hs
    exact ⟨hle.trans hpos, a'', hi'', hid'.trans hid, hark.trans hle hpos hark'⟩

/-! ## What an old handle does -/

/-- The handle opens every vault that is stored. -/
def OpensAll (S : Suite β) (st : St β) (a : UnlockedAccount β) : Prop :=
  ∀ e ∈ st.stored.vaults, ∃ s v, st.slots e.vaultId = some (s, v) ∧ unlockAccountVault S a e s = .ok v

/-- The handle opens no stored entry, whatever slot it is tried with. -/
def OpensNone (S : Suite β) (st : St β) (a : UnlockedAccount β) : Prop :=
  ∀ e ∈ st.stored.vaults, ∀ s v, unlockAccountVault S a e s ≠ .ok v

/-- An old handle opens everything until the root key is rotated, and no entry after that; an
    envelope that was kept still yields it. -/
theorem handle_reach (hS : S.Ideal) {st st' : St β} {a : UnlockedAccount β} {r : Bool} (h : Run S st)
    (ha : Handle S st a) (hl : Later S st r st') :
    (if r then OpensNone S st' a else OpensAll S st' a) ∧
      ∀ b ∈ st.biometrics, unlockAccountViaBiometric S b.wrapperKey b.envelope st'.stored = .ok a := by
  obtain ⟨a₀, hi, hd⟩ := run_drawn hS h
  cases handle_same hS hi ha
  obtain ⟨-, a', hi', hid, hark⟩ := later_inv hS hi hl
  refine ⟨?_, fun b hb => ?_⟩
  · cases r with
    | false =>
      cases UnlockedAccount.ext hid hark
      exact hi'.vaults
    | true =>
      intro e he s v hopen
      obtain ⟨s', v', -, hopen'⟩ := hi'.vaults e he
      have hm := ((unlockAccountVault_ok hS).mp hopen).2
      have hm' := ((unlockAccountVault_ok hS).mp hopen').2
      exact hark.ne hS hd (hm.kek.unique hS hm'.kek).1
  · obtain ⟨hver, henv, hacc, hw⟩ := (unlockAccountViaBiometric_ok hS).mp (hi.biometrics b hb)
    have hstored : st'.stored.accountId = st.stored.accountId :=
      (hi'.accountId hS).symm.trans (hid.trans (hi.accountId hS))
    refine (unlockAccountViaBiometric_ok hS).mpr ⟨hver, ?_, ?_, ?_⟩
    · rw [hstored]; exact henv
    · rw [hstored]; exact hacc
    · rw [hstored]; exact hw

/-- With the old entry and the slot, while that is current, an old handle opens what the
    account opens, rotated or not: the KEKs stay. -/
theorem rotation_keeps_keks (hS : S.Ideal) {st st' : St β} {a a' : UnlockedAccount β} {r : Bool} (h : Run S st)
    (ha : Handle S st a) (hl : Later S st r st') (ha' : Handle S st' a') {e : AccountVaultEntry β}
    (he : e ∈ st.stored.vaults) (hslot : st'.slots e.vaultId = st.slots e.vaultId) :
    ∃ s v e', st'.slots e.vaultId = some (s, v) ∧ unlockAccountVault S a e s = .ok v ∧ e' ∈ st'.stored.vaults ∧
      e'.vaultId = e.vaultId ∧ unlockAccountVault S a' e' s = .ok v := by
  obtain ⟨a₀, hi⟩ := run_inv hS h
  cases handle_same hS hi ha
  obtain ⟨-, a₁, hi', -⟩ := later_inv hS hi hl
  cases handle_same hS hi' ha'
  obtain ⟨s, v, hs, hopen⟩ := hi.vaults e he
  obtain ⟨e', he', hid⟩ := hi'.entries _ s v (hslot.trans hs)
  obtain ⟨s', v', hs', hopen'⟩ := hi'.vaults e' he'
  rw [hid, hslot, hs] at hs'
  cases hs'
  exact ⟨s, v, e', hslot.trans hs, hopen, he', hid, hopen'⟩

/-! ## Recovery keys -/

theorem recoveryKekFrom_inj (hS : S.Ideal) {raw raw' : String} {id : Id}
    (h : recoveryKekFrom S raw id = recoveryKekFrom S raw' id) : raw = raw' := by
  exact asBytes_inj.mp (hS.typed_inj (List.append_cancel_right (hS.blake_inj h).2))

theorem recovery_missing {ks : AccountKeySet β} {rk : String}
    (hver : checkVersion accountFormatVersion accountMinReadableVersion ks.version = .ok ())
    (hw : ks.wrappedArkRecovery = none) :
    unlockAccountWithRecoveryKey S rk ks = .error (.invalidArgument "recovery key not set up") := by
  unfold unlockAccountWithRecoveryKey
  rw [hver, hw]
  rfl

/-- Where one recovery key opens, others open when they are spellings of it. -/
theorem recovery_given (hS : S.Ideal) {ks : AccountKeySet β} {shown : String} {a : UnlockedAccount β}
    (h : unlockAccountWithRecoveryKey S shown ks = .ok a) (rk : String) : unlockAccountWithRecoveryKey S rk ks =
      match normalizeRecoveryKey rk with
      | .error e => .error e
      | .ok raw => if normalizeRecoveryKey shown = .ok raw then .ok a else .error .decryptFailed := by
  obtain ⟨hver, hid, w, raw', hw, hraw', hwraps⟩ := (unlockAccountWithRecoveryKey_ok hS).mp h
  unfold unlockAccountWithRecoveryKey
  rw [hver, hw, hraw']
  cases hraw : normalizeRecoveryKey rk with
  | error e => rfl
  | ok raw =>
    show (unwrapKey S (recoveryKekFrom S raw ks.accountId) w _ >>= _) = _
    by_cases he : raw = raw'
    · rw [he, (unwrapKey_ok hS).mpr hwraps, ← hid]
      exact (if_pos rfl).symm
    · have hne : recoveryKekFrom S raw ks.accountId ≠ recoveryKekFrom S raw' ks.accountId :=
        fun h => he (recoveryKekFrom_inj hS h)
      rw [unwrapKey_other hS hwraps (Or.inl hne)]
      exact (if_neg fun h => he (Except.ok.inj h).symm).symm

/-- What a recovery key opens, from the stored keyset of any run. -/
theorem recovery_only_latest (hS : S.Ideal) {st : St β} (h : Run S st) :
    ∃ a, unlockAccount S st.password st.stored = .ok a ∧ ∀ rk, unlockAccountWithRecoveryKey S rk st.stored =
      match st.recovery with
      | none => .error (.invalidArgument "recovery key not set up")
      | some shown =>
        match normalizeRecoveryKey rk with
        | .error e => .error e
        | .ok raw => if normalizeRecoveryKey shown = .ok raw then .ok a else .error .decryptFailed := by
  obtain ⟨a, hi⟩ := run_inv hS h
  refine ⟨a, hi.opens, fun rk => ?_⟩
  have hrec := hi.recovery
  cases hshown : st.recovery with
  | none =>
    rw [hshown] at hrec
    exact recovery_missing (hi.readable hS) hrec
  | some shown =>
    rw [hshown] at hrec
    exact recovery_given hS hrec rk

/-! ## The inbox -/

/-- What is sealed to the inbox key opens under every later handle until the root key is
    rotated, and under none after that. -/
theorem inbox_until_rotation {o : Oracle} {st st' : St Term} {a a' : UnlockedAccount Term} {r : Bool}
    (h : Run o.suite st) (ha : Handle o.suite st a) {m c : List Term} {n n' : Nat}
    (hc : sealBytesFor o.suite (a.aiInboxKeypair o.suite).publicKey m n = .ok (c, n')) (hl : Later o.suite st r st')
    (ha' : Handle o.suite st' a') :
    openSealedBytes o.suite c (a'.aiInboxKeypair o.suite) = if r then .error .decryptFailed else .ok m := by
  have hS := o.suite_ideal
  obtain ⟨a₀, hi, hd⟩ := run_drawn hS h
  cases handle_same hS hi ha
  obtain ⟨-, a₁, hi', hid, hark⟩ := later_inv hS hi hl
  cases handle_same hS hi' ha'
  rw [openSealedBytes_iff o.suite_box hc]
  cases r with
  | false =>
    cases UnlockedAccount.ext hid hark
    exact if_pos rfl
  | true =>
    refine if_neg fun hpk => hark.ne hS hd ?_
    -- One public key, one secret, one root key.
    obtain ⟨-, hmat⟩ := hS.blake_inj (public_inj o hpk)
    have hlen : a.ark.toList.length = a'.ark.toList.length := a.ark.length.trans a'.ark.length.symm
    exact Arr.toList_inj.mp (List.append_inj_left hmat hlen)

/-! ## A trace -/

theorem demoFirst_handle : Handle demo.suite demoFirst demoAccount.1.unlocked := by
  have hopen : unlockAccount demo.suite "a" demoFirst.stored = .ok demoAccount.1.unlocked := by decide +kernel
  exact .password hopen

theorem demoNext_later : Later demo.suite demoFirst true demoNext :=
  .step .refl demoNext_step

theorem handle_reach_rotated : OpensNone demo.suite demoNext demoAccount.1.unlocked :=
  (handle_reach demo.suite_ideal demoFirst_run demoFirst_handle demoNext_later).1

theorem rotation_keeps_keks_first : ∃ s v e', demoNext.slots demoMount.1.entry.vaultId = some (s, v) ∧
    unlockAccountVault demo.suite demoAccount.1.unlocked demoMount.1.entry s = .ok v ∧ e' ∈ demoNext.stored.vaults ∧
    e'.vaultId = demoMount.1.entry.vaultId ∧ unlockAccountVault demo.suite Reset.demoRotated.1.2 e' s = .ok v :=
  rotation_keeps_keks demo.suite_ideal demoFirst_run demoFirst_handle demoNext_later demoNext_handle
    List.mem_cons_self rfl

/-- Two recovery keys are set up, one after the other. -/
def demoLatest : (String × WrappedKey Term) × Nat :=
  okVal (setupRecoveryKey demo.suite demoAccount.1.unlocked Reset.demoRecovery.2) (by decide +kernel)

def demoOnce : St Term :=
  { demoFirst with
    pos := Reset.demoRecovery.2, stored := { demoFirst.stored with wrappedArkRecovery := some Reset.demoRecovery.1.2 },
    recovery := some Reset.demoRecovery.1.1 }

def demoAgain : St Term :=
  { demoOnce with
    pos := demoLatest.2, stored := { demoOnce.stored with wrappedArkRecovery := some demoLatest.1.2 },
    recovery := some demoLatest.1.1 }

theorem demoAgain_run : Run demo.suite demoAgain := by
  have hopen : unlockAccount demo.suite "a" demoOnce.stored = .ok demoAccount.1.unlocked := by decide +kernel
  have hfirst : setupRecoveryKey demo.suite demoAccount.1.unlocked demoFirst.pos =
      .ok ((Reset.demoRecovery.1.1, Reset.demoRecovery.1.2), Reset.demoRecovery.2) := okVal_eq _
  have honce : Run demo.suite demoOnce := demoFirst_run.step (.setupRecovery demoFirst_handle (Nat.le_refl _) hfirst)
  exact honce.step (.setupRecovery (.password hopen) (Nat.le_refl _) (okVal_eq _))

/-- The first of them is void. -/
theorem recovery_only_latest_second :
    unlockAccountWithRecoveryKey demo.suite Reset.demoRecovery.1.1 demoAgain.stored = .error .decryptFailed := by
  obtain ⟨a, -, hall⟩ := recovery_only_latest demo.suite_ideal demoAgain_run
  have hfirst : setupRecoveryKey demo.suite demoAccount.1.unlocked demoMount.2 =
      .ok ((Reset.demoRecovery.1.1, Reset.demoRecovery.1.2), Reset.demoRecovery.2) := okVal_eq _
  obtain ⟨raw, hraw, -⟩ := setupRecoveryKey_ok hfirst
  have hother : normalizeRecoveryKey demoLatest.1.1 ≠ normalizeRecoveryKey Reset.demoRecovery.1.1 := by decide +kernel
  rw [hraw] at hother
  rw [hall, hraw]
  exact if_neg hother

def demoInboxed : List Term × Nat :=
  okVal (sealBytesFor demo.suite (demoAccount.1.unlocked.aiInboxKeypair demo.suite).publicKey [.data 0] demoFirst.pos)
    (by decide +kernel)

theorem inbox_until_rotation_lost :
    openSealedBytes demo.suite demoInboxed.1 (Reset.demoRotated.1.2.aiInboxKeypair demo.suite) = .error .decryptFailed :=
  inbox_until_rotation (r := true) demoFirst_run demoFirst_handle (okVal_eq _) demoNext_later demoNext_handle

end RootkeyCrypto.AccountLifetime
