/-
  RootkeyCrypto.World.Backups — backups that lie where anybody reads and replaces them.

  A backup carries all that its opening needs but the password: the KDF parameters, the
  nonce, the magic. So whoever stores it may put another one together, with parameters,
  nonce and magic of his choice, a ciphertext he has seen or made, and may guess passwords.

  `backups_hold`: as long as a password is not guessed, exactly the backups sealed under it
  open with it, each as a whole and to what was sealed in it, and nothing that is secret is
  learned. Backups under passwords that are guessed may lie among them, and may themselves
  hold backups.
-/

import RootkeyCrypto.Core.Export
import RootkeyCrypto.Core.Secrecy
import RootkeyCrypto.Lib.Authentic

namespace RootkeyCrypto.Backups

open Lib

/-- A backup that was made. -/
structure Backup (o : Oracle) where
  password : String
  plaintext : List Term
  bundle : EncryptedBundle Term
  sealed : ∃ n n', sealWithPassword o.suite password plaintext n = .ok (bundle, n')

variable {o : Oracle} {σ : Secrets} {Made : Backup o → Prop}

/-- The encryptions behind the backups. -/
def Sealed (Made : Backup o → Prop) (e : Entry .xChaCha20 24) : Prop :=
  ∃ x, Made x ∧ deriveMuk o.suite x.password x.bundle.kdf = .ok e.key ∧ e.nonce = x.bundle.blob.nonce ∧
    e.aad = aadForExport x.bundle.kdf ∧ e.plain = x.plaintext ∧ e.out = x.bundle.blob.ciphertext

/-- Nothing else is in a bundle. -/
theorem bundle_eq {b b' : EncryptedBundle Term} (hmagic : b.magic = b'.magic) (hkdf : b.kdf = b'.kdf)
    (hnonce : b.blob.nonce = b'.blob.nonce) (hout : b.blob.ciphertext = b'.blob.ciphertext) : b = b' := by
  obtain ⟨magic, kdf, blob⟩ := b
  cases hmagic
  cases hkdf
  cases SealedBlob.ext hnonce hout
  rfl

/-- A backup under a password that is guessed holds what is genuine anyway. -/
def GuessedOpen (σ : Secrets) (Made : Backup o → Prop) : Prop :=
  ∀ x, Made x → σ.guess (asBytes (o.nfkd x.password)) → Genuine σ (Outs (Sealed Made)) x.plaintext

theorem Backup.entry {x : Backup o} (hx : Made x) :
    ∃ e, Sealed Made e ∧ e.out = x.bundle.blob.ciphertext ∧
      (AllSafe σ e.key.toList ↔ σ.guess (asBytes (o.nfkd x.password))) := by
  obtain ⟨n, n', h⟩ := x.sealed
  obtain ⟨-, -, muk, hmuk, hs⟩ := sealWithPassword_ok h
  exact ⟨⟨muk, _, _, _, _, hs⟩, ⟨x, hx, hmuk, rfl, rfl, rfl, rfl⟩, rfl, deriveMuk_safe hmuk⟩

theorem GuessedOpen.opens (h : GuessedOpen σ Made) : OpensGenuine σ (Sealed Made) := by
  rintro e ⟨x, hx, hmuk, -, -, hplain, -⟩ hsafe
  rw [hplain]
  exact h x hx ((deriveMuk_safe hmuk).mp hsafe)

/-- Nothing secret is learned, and under a password that is not guessed exactly the backups
    made with it open. -/
theorem backups_hold {Known : List Term → Prop} (hK : Honest σ (Sealed Made) Known) (hopen : GuessedOpen σ Made) :
    (∀ m, Derives o.suite Known σ.guess m → AllSafe σ m) ∧
      ∀ pw b q, ¬ σ.guess (asBytes (o.nfkd pw)) → Derives o.suite Known σ.guess b.blob.ciphertext →
        (openWithPassword o.suite pw b = .ok q ↔
          ∃ x, Made x ∧ x.bundle = b ∧ x.plaintext = q ∧ o.nfkd pw = o.nfkd x.password) := by
  obtain ⟨hsafe, hentered⟩ := ledger_holds (o := o) hK hopen.opens
  refine ⟨hsafe, fun pw b q hpw hb => ?_⟩
  constructor
  · intro ho
    obtain ⟨hmagic, muk, hmuk, hs⟩ := (openWithPassword_ok o.suite_ideal).mp ho
    have hkey : ¬ AllSafe σ muk.toList := fun h => hpw ((deriveMuk_safe hmuk).mp h)
    obtain ⟨e, ⟨x, hx, hmuk', hnonce, -, hplain, hout⟩, hout', hk, hnonce', -, hplain'⟩ :=
      hentered hb hkey (o.suite_ideal.xchacha.opens hs)
    -- The key says with which parameters and password it was made.
    rw [hk] at hmuk'
    obtain ⟨hkdf, hn⟩ := deriveMuk_inj o.suite_ideal hmuk hmuk'
    obtain ⟨_, _, h⟩ := x.sealed
    refine ⟨x, hx, ?_, hplain.symm.trans hplain', hn⟩
    exact bundle_eq ((sealWithPassword_ok h).1.trans hmagic.symm) hkdf.symm (hnonce.symm.trans hnonce')
      (hout.symm.trans hout')
  · rintro ⟨x, -, rfl, rfl, hn⟩
    obtain ⟨n, n', h⟩ := x.sealed
    exact sealWithPassword_opens o.suite_ideal h hn

/-! ## A trace -/

/-- A secret content under a password, and that backup in another one under a password
    that is guessed. -/
def demoInner : Backup demo where
  password := "a"
  plaintext := [.data 0]
  bundle := (okVal (sealWithPassword demo.suite "a" [.data 0] 0) (by decide +kernel)).1
  sealed := ⟨0, _, okVal_eq _⟩

def demoOuter : Backup demo where
  password := "b"
  plaintext := demoInner.bundle.blob.ciphertext
  bundle := (okVal (sealWithPassword demo.suite "b" demoInner.bundle.blob.ciphertext 2) (by decide +kernel)).1
  sealed := ⟨2, _, okVal_eq _⟩

def demoSecrets : Secrets := ⟨fun _ => False, (0 = ·), fun _ => False, (asBytes "b" = ·)⟩

def demoMade (x : Backup demo) : Prop := x = demoInner ∨ x = demoOuter

def demoKnown (m : List Term) : Prop := ∃ x, demoMade x ∧ x.bundle.blob.ciphertext = m

theorem demo_guessed : GuessedOpen demoSecrets demoMade := by
  rintro x (rfl | rfl) hg
  · have hne : asBytes "b" ≠ asBytes (demo.nfkd "a") := by decide
    exact absurd hg hne
  · have hinner : demoMade demoInner := Or.inl rfl
    obtain ⟨e, he, hout, hkey⟩ := demoInner.entry (σ := demoSecrets) hinner
    have hsecret : ¬ AllSafe demoSecrets e.key.toList := by
      rw [hkey]
      show asBytes "b" ≠ asBytes (demo.nfkd "a")
      decide
    show Genuine demoSecrets (Outs (Sealed demoMade)) demoInner.bundle.blob.ciphertext
    rw [← hout]
    exact Entry.genuine he fun h => absurd h hsecret

theorem backups_hold_nested : ¬ Derives demo.suite demoKnown (asBytes "b" = ·) [.data 0] ∧
    openWithPassword demo.suite "a" demoInner.bundle = .ok [.data 0] := by
  have hK : Honest demoSecrets (Sealed demoMade) demoKnown := by
    rintro m ⟨x, hx, rfl⟩
    obtain ⟨e, he, hout, -⟩ := x.entry (σ := demoSecrets) hx
    exact Or.inl ⟨e, he, hout⟩
  obtain ⟨hsafe, hopens⟩ := backups_hold hK demo_guessed
  have hne : ¬ demoSecrets.guess (asBytes (demo.nfkd "a")) := by
    show asBytes "b" ≠ asBytes (demo.nfkd "a")
    decide
  constructor
  · intro h
    exact hsafe _ h _ List.mem_cons_self rfl
  · exact (hopens "a" _ _ hne (.known ⟨_, Or.inl rfl, rfl⟩)).mpr ⟨_, Or.inl rfl, rfl, rfl, rfl⟩

end RootkeyCrypto.Backups
