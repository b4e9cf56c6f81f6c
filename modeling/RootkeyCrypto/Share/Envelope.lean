/-
  RootkeyCrypto.Share.Envelope — a share on its way.

  The blob travels as text through intermediaries; the key travels another way. Whoever has
  both opens the share until it expires. `crlf` is what a mail program makes of the text.

  An intermediary without the key may write any text at all, but its ciphertext is bytes he
  has or can make (`Writes`): from the blob's own ciphertext and from anything the key of
  this share does not occur in. Several texts say one blob: the expiry may have blanks, a
  sign and zeros before it, more lines may follow, and lines may end either way.

  Proved:
  - `parse_encode`: the text says the blob, with either line end.
  - `open_unchanged`: whatever text is written, what opens with the key is the blob that was
    sealed, with its expiry, and before it.
-/

import RootkeyCrypto.Share.Key
import RootkeyCrypto.Lib.Authentic
import RootkeyCrypto.Lib.Base64

namespace RootkeyCrypto.Envelope

open Lib

/-- Every line end becomes a carriage return and a newline. -/
def crlf (text : String) : String := String.ofList (text.toList.flatMap fun c => if c = '\n' then ['\r', '\n'] else [c])

/-- Everything but the key drawn at a position is known. -/
def keyAtSecret (pos : Nat) : Secrets where
  key i := i = pos
  data _ := False
  word _ := False
  guess _ := True

/-- The ciphertext in the text is derived from what is known. -/
def Writes {β : Type} (S : Suite β) (B : Base64 β) (Known : List β → Prop) (text : String) : Prop :=
  ∀ b, ShareBlob.parseText B text = .ok b → Derives S Known (fun _ => True) b.ciphertext

section Text

variable {β : Type} {B : Base64 β}

/-! ## The text -/

def textLines (B : Base64 β) (blob : ShareBlob β) : List String :=
  [shareHeader, B.nonce.encode blob.nonce.toList, blob.expiresAt.toNat.repr, B.ciphertext.encode blob.ciphertext]

theorem encodeText_eq (blob : ShareBlob β) :
    blob.encodeText B = String.ofList ((textLines B blob).flatMap fun l => l.toList ++ ['\n']) := by
  apply String.toList_inj.mp
  simp [ShareBlob.encodeText, textLines]

theorem textLines_plain (hB : B.Ideal) (blob : ShareBlob β) :
    ∀ l ∈ textLines B blob, '\n' ∉ l.toList ∧ '\r' ∉ l.toList := by
  have hdigit : ∀ c : Char, c.isDigit = false → c ∉ blob.expiresAt.toNat.repr.toList := by
    intro c hc h
    rw [isDigit_repr h] at hc
    cases hc
  simp only [textLines, List.forall_mem_cons]
  exact ⟨by decide, hB.nonce.line _, ⟨hdigit _ (by decide), hdigit _ (by decide)⟩, hB.ciphertext.line _, by simp⟩

theorem flatMap_crlf {l : List Char} (h : '\n' ∉ l) :
    l.flatMap (fun c => if c = '\n' then ['\r', '\n'] else [c]) = l := by
  induction l with
  | nil => rfl
  | cons c cs ih =>
    rw [List.mem_cons, not_or] at h
    rw [List.flatMap_cons, if_neg (Ne.symm h.1), ih h.2]
    rfl

theorem crlf_lines {ls : List String} (h : ∀ l ∈ ls, '\n' ∉ l.toList ∧ '\r' ∉ l.toList) :
    crlf (String.ofList (ls.flatMap fun l => l.toList ++ ['\n'])) =
      String.ofList (ls.flatMap fun l => l.toList ++ ['\r', '\n']) := by
  unfold crlf
  rw [String.toList_ofList]
  congr 1
  induction ls with
  | nil => rfl
  | cons l ls ih =>
    rw [List.forall_mem_cons] at h
    rw [List.flatMap_cons, List.flatMap_cons, List.flatMap_append, List.flatMap_append, flatMap_crlf h.1.1, ih h.2]
    rfl

theorem trim_of_digits {l : List Char} (h : ∀ c ∈ l, c.isDigit = true) : trim l = l := by
  have hblank : ∀ c ∈ l, isWhitespace c = false := by
    intro c hc
    have hd := h c hc
    simp only [Char.isDigit, Bool.and_eq_true, decide_eq_true_eq] at hd
    have hlo : 48 ≤ c.toNat := UInt32.le_iff_toNat_le.mp hd.1
    have hhi : c.toNat ≤ 57 := UInt32.le_iff_toNat_le.mp hd.2
    simp only [isWhitespace, Bool.or_eq_false_iff, Bool.and_eq_false_iff, decide_eq_false_iff_not, beq_eq_false_iff_ne]
    omega
  unfold trim
  rw [dropWhile_none hblank, dropWhile_none fun c hc => hblank c (List.mem_reverse.mp hc), List.reverse_reverse]

/-- A text of these lines says the blob. -/
theorem parse_of_lines (hB : B.Ideal) {blob : ShareBlob β} {text : String} (h : lines text = textLines B blob) :
    ShareBlob.parseText B text = .ok blob := by
  have hexp : parseU64 (String.ofList (trim blob.expiresAt.toNat.repr.toList)) = some blob.expiresAt := by
    rw [trim_of_digits fun c hc => isDigit_repr hc, String.ofList_toList]
    exact parseU64_repr _
  unfold ShareBlob.parseText
  rw [h, textLines]
  simp only [ne_eq, not_true_eq_false, if_false, ShareBlob.parseFields]
  rw [hB.nonce.decodes.mpr rfl]
  simp only [Arr.ofList?_toList, hexp]
  rw [hB.ciphertext.decodes.mpr rfl]

/-- The text says the blob, with either line end. -/
theorem parse_encode (hB : B.Ideal) (blob : ShareBlob β) :
    ShareBlob.parseText B (blob.encodeText B) = .ok blob ∧
      ShareBlob.parseText B (crlf (blob.encodeText B)) = .ok blob := by
  have hplain := textLines_plain hB blob
  rw [encodeText_eq, crlf_lines hplain]
  exact ⟨parse_of_lines hB (lines_ends (Or.inl rfl) hplain), parse_of_lines hB (lines_ends (Or.inr rfl) hplain)⟩

end Text

/-! ## What opens -/

/-- The holder of the key opens the share until it expires. -/
theorem open_sealed {β : Type} {S : Suite β} {p : List β} {e : UInt64} {key : ShareKey β} {blob : ShareBlob β} {n n' : Nat}
    (hopen : ∀ {k nn a m c}, S.xChaCha20.encrypt k nn a m = some c → S.xChaCha20.decrypt k nn a c = some m)
    (h : sealShare S p e n = .ok ((key, blob), n')) (now : UInt64) :
    (now ≤ e → openShare S blob key now = .ok p) ∧ (e < now → openShare S blob key now = .error .decryptFailed) := by
  obtain ⟨-, -, -, rfl, henc, -⟩ := sealShare_ok.mp h
  constructor
  · intro hnow
    exact openShare_ok.mpr ⟨hnow, hopen henc⟩
  · intro hnow
    exact openShare_expired hnow

theorem aadForShare_inj {e e' : UInt64} : aadForShare e = aadForShare e' ↔ e = e' := by
  unfold aadForShare
  rw [List.append_cancel_left_eq, be64_inj]

variable {o : Oracle}

/-- What opens under the key of a share is the share. -/
theorem open_unchanged {p q : List Term} {e now : UInt64} {key : ShareKey Term} {blob b : ShareBlob Term} {n n' : Nat}
    (h : sealShare o.suite p e n = .ok ((key, blob), n')) {Known : List Term → Prop}
    (hK : ∀ m, Known m → m = blob.ciphertext ∨ ∀ x ∈ m, Without (keyAtSecret n) x)
    (hb : Derives o.suite Known (fun _ => True) b.ciphertext) (ho : openShare o.suite b key now = .ok q) :
    b = blob ∧ q = p ∧ now ≤ e := by
  obtain ⟨-, hkey, -, he, henc, -⟩ := sealShare_ok.mp h
  obtain ⟨hnow, hdec⟩ := openShare_ok.mp ho
  have hsecret : ¬ AllSafe (keyAtSecret n) key.bytes.toList := by
    rw [allSafe_key hkey]
    exact not_not.mpr rfl
  -- What he knows: the one ciphertext under the key, and strings without it.
  have hgenuine : ∀ m, Known m → Genuine (keyAtSecret n) (fun t => [t] = blob.ciphertext) m := by
    intro m hm
    rcases hK m hm with rfl | hwithout
    · refine ⟨(allSafe_sealed henc).mpr fun hsafe => absurd hsafe hsecret, ?_⟩
      change some _ = some blob.ciphertext at henc
      rw [← Option.some.inj henc, List.forall_mem_singleton, Authentic, safe_str]
      exact ⟨fun hsafe => absurd hsafe hsecret, fun _ => rfl⟩
    · exact without_genuine hwithout
  obtain ⟨t, hct, hmade⟩ := hb.made (fun _ _ => trivial) hgenuine hsecret hdec
  -- So the ciphertext is the one that was sealed, and it says what with.
  have henc' := o.suite_ideal.xchacha.only hdec
  rw [hct, hmade] at henc'
  obtain ⟨-, hnonce, haad, hq⟩ := o.suite_ideal.xchacha.inj henc' henc
  have hexp : b.expiresAt = e := aadForShare_inj.mp haad
  rw [hexp] at hnow
  exact ⟨ShareBlob.ext hnonce (hct.trans hmade) (hexp.trans he.symm), hq, hnow⟩

/-- The share comes through as it is, opens until it expires and not after; and no rewriting
    of its text makes anything else open, or open later. -/
theorem share_envelope (hash : List UInt8 → Arr UInt8 32) :
    (∀ (S : Suite UInt8) (B : Base64 UInt8), B.Ideal →
        (∀ {k nn a m c}, S.xChaCha20.encrypt k nn a m = some c → S.xChaCha20.decrypt k nn a c = some m) →
        ∀ p e n key blob n', sealShare S p e n = .ok ((key, blob), n') →
          ShareBlob.parseText B (blob.encodeText B) = .ok blob ∧
          ShareBlob.parseText B (crlf (blob.encodeText B)) = .ok blob ∧
          ShareKey.parse hash (key.encode hash) = .ok key ∧
          ∀ now, (now ≤ e → openShare S blob key now = .ok p) ∧
            (e < now → openShare S blob key now = .error .decryptFailed)) ∧
      ∀ (o : Oracle) (B : Base64 Term) p e n key blob n', sealShare o.suite p e n = .ok ((key, blob), n') →
        ∀ Known : List Term → Prop, (∀ m, Known m → m = blob.ciphertext ∨ ∀ x ∈ m, Without (keyAtSecret n) x) →
          ∀ text now b q, Writes o.suite B Known text → ShareBlob.parseText B text = .ok b →
            openShare o.suite b key now = .ok q → b = blob ∧ q = p ∧ now ≤ e := by
  refine ⟨?_, ?_⟩
  · intro S B hB hopen p e n key blob n' h
    obtain ⟨htext, hcrlf⟩ := parse_encode hB blob
    exact ⟨htext, hcrlf, ShareText.parse_ok.mpr (ShareText.spells_encode key), open_sealed hopen h⟩
  · intro o B p e n key blob n' h Known hK text now b q hw hb ho
    exact open_unchanged h hK (hw b hb) ho

/-! ## Traces -/

def demoPlaintext : List UInt8 := asBytes "hello"

/-- XChaCha20-Poly1305 of it, under the key, nonce and expiry below. -/
def demoCiphertext : List UInt8 :=
  [228, 217, 45, 104, 99, 234, 234, 146, 179, 54, 172, 94, 48, 133, 52, 219, 51, 240, 71, 251, 178]

def demoBlob : ShareBlob UInt8 where
  nonce := .replicate 24 2
  ciphertext := demoCiphertext
  expiresAt := 2000000000

/-- The packages on these bytes: one key, nonces that are their position, one ciphertext. -/
def demoBytes : Suite UInt8 where
  lit := id
  typed := id
  osBytes pos n := some (.replicate n (UInt8.ofNat (pos + 1)))
  osKey _ := some ShareText.demoShareKey.bytes
  nfkd := id
  argon2id _ _ _ _ _ := none
  blake3 _ _ := .replicate 32 0
  aesGcmSiv := { encrypt := fun _ _ _ _ => none, decrypt := fun _ _ _ _ => none }
  xChaCha20 :=
    { encrypt := fun k nn a m =>
        if k = ShareText.demoShareKey.bytes ∧ nn = demoBlob.nonce ∧ a = aadForShare demoBlob.expiresAt ∧ m = demoPlaintext then
          some demoCiphertext
        else none
      decrypt := fun k nn a c =>
        if k = ShareText.demoShareKey.bytes ∧ nn = demoBlob.nonce ∧ a = aadForShare demoBlob.expiresAt ∧ c = demoCiphertext then
          some demoPlaintext
        else none }
  x25519 := id
  boxSeal _ _ _ := none
  boxOpen _ _ := none

theorem demoBytes_opens {k : Arr UInt8 32} {nn : Arr UInt8 24} {a m c : List UInt8}
    (h : demoBytes.xChaCha20.encrypt k nn a m = some c) : demoBytes.xChaCha20.decrypt k nn a c = some m := by
  simp only [demoBytes, Option.ite_none_right_eq_some, Option.some.injEq] at h ⊢
  obtain ⟨⟨hk, hn, ha, hm⟩, hc⟩ := h
  exact ⟨⟨hk, hn, ha, hc.symm⟩, hm.symm⟩

theorem demoBlob_sealed : sealShare demoBytes demoPlaintext demoBlob.expiresAt 0 =
    .ok ((ShareText.demoShareKey, demoBlob), 2) :=
  sealShare_ok.mpr ⟨by decide +kernel, rfl, by decide +kernel, rfl, by decide +kernel, rfl⟩

def demoBase64 : Base64 UInt8 := { nonce := base64Url, ciphertext := base64Url }

/-- A share over the symbolic suite. -/
def demoShared : (ShareKey Term × ShareBlob Term) × Nat :=
  okVal (sealShare demo.suite [.data 0] 2000000000 0) (by decide +kernel)

/-- Its ciphertext is one byte, which this text stands for. -/
def demoTermBase64 : Base64 Term where
  nonce := base64Url
  ciphertext :=
    { encode := fun _ => "c2hhcmU"
      decode := fun s => if s = "c2hhcmU" then some demoShared.1.2.ciphertext else none }

/-- The text as an intermediary may leave it: other line ends, another way to write the
    expiry, a line more. -/
def demoRewritten : String := "rootkey-share-v1\r\nAgICAgICAgICAgICAgICAgICAgICAgIC\n +0002000000000\t\nc2hhcmU\r\nbye\n"

theorem share_envelope_rewritten :
    (ShareBlob.parseText demoBase64 (crlf (demoBlob.encodeText demoBase64)) = .ok demoBlob ∧
      openShare demoBytes demoBlob ShareText.demoShareKey 2000000000 = .ok demoPlaintext ∧
      openShare demoBytes demoBlob ShareText.demoShareKey 2000000001 = .error .decryptFailed) ∧
    ShareBlob.parseText demoTermBase64 demoRewritten = .ok demoShared.1.2 ∧
      openShare demo.suite demoShared.1.2 demoShared.1.1 1999999999 = .ok [.data 0] ∧
      (1999999999 : UInt64) ≤ 2000000000 := by
  obtain ⟨hthrough, hunchanged⟩ := share_envelope fun _ => ShareText.demoDigest
  constructor
  · obtain ⟨-, hcrlf, -, hopen⟩ := hthrough demoBytes demoBase64 ⟨base64Url_ideal, base64Url_ideal⟩ demoBytes_opens
      _ _ _ _ _ _ demoBlob_sealed
    exact ⟨hcrlf, (hopen 2000000000).1 (by decide), (hopen 2000000001).2 (by decide)⟩
  · have hsealed : sealShare demo.suite [.data 0] 2000000000 0 = .ok ((demoShared.1.1, demoShared.1.2), demoShared.2) :=
      okVal_eq _
    have hparse : ShareBlob.parseText demoTermBase64 demoRewritten = .ok demoShared.1.2 := by decide +kernel
    have hopen : openShare demo.suite demoShared.1.2 demoShared.1.1 1999999999 = .ok [.data 0] := by decide +kernel
    -- He knows the ciphertext and repeats it.
    have hwrites : Writes demo.suite demoTermBase64 (fun m => m = demoShared.1.2.ciphertext) demoRewritten := by
      intro b hb
      rw [hparse, Except.ok.injEq] at hb
      rw [← hb]
      exact .known rfl
    obtain ⟨-, -, hnow⟩ := hunchanged demo demoTermBase64 _ _ _ _ _ _ hsealed _ (fun m hm => Or.inl hm) _ _ _ _ hwrites
      hparse hopen
    exact ⟨hparse, hopen, hnow⟩

end RootkeyCrypto.Envelope
