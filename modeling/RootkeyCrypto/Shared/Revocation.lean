/-
  RootkeyCrypto.Shared.Revocation — what members who are no longer recipients can find out.

  A run: members join, each with an account and an identity of his own; the shared vault is
  created for some of them, recipients are added, the shared key is rotated to any remaining
  list; members open their wraps and attach the vault or rotate their keys to what they got;
  items are encrypted under the handles. Epoch `k` is the `k`-th shared key.

  A coalition is in no recipient list from epoch `e` on. It has its private keys, accounts
  and handles, every shared key and content of an earlier epoch, and everything that is
  stored: wraps, keysets, slots and items of everybody and of every epoch. `Inv` says what
  was drawn for what, and what each ciphertext holds; so whatever an epoch from `e` on
  protects is under a key of a member outside the coalition, or under that epoch's key,
  which is sealed to such members only (`known_safe`). The KEK a member keeps through a
  rotation is his own, and what is under it is as secret as its epoch.
-/

import RootkeyCrypto.Core.Secrecy
import RootkeyCrypto.Core.SharedVault
import RootkeyCrypto.Core.Item
import RootkeyCrypto.Lib.Roles

namespace RootkeyCrypto.Revocation

open Lib

structure Member where
  password : String
  keys : AccountKeys Term
  identity : SharedIdentityKeyPair Term

structure Epoch (ι : Type) where
  key : SymmetricKey Term
  recipients : List ι
  wraps : List (SealedSharedKey Term)

/-- The vault as a member mounted it, once: the entry, the slot and the handle. -/
structure Mount (ι : Type) where
  epoch : Nat
  member : ι
  out : VaultUnderAccount Term

structure Item where
  epoch : Nat
  plaintext : List Term
  stored : EncryptedItemBlob Term

structure St (ι : Type) where
  pos : Nat
  members : ι → Option Member
  /-- The vaults of each member's keyset; the rest of it stays as `create_account` made it. -/
  vaults : ι → List (AccountVaultEntry Term)
  epochs : List (Epoch ι)
  mounts : List (Mount ι)
  items : List Item

variable {ι : Type} {o : Oracle} {V : Id}

/-- A user's content has bytes of his own and ordinary bytes. -/
def Content : Term → Prop
  | .data _ | .lit _ => True
  | _ => False

section States

variable (st : St ι) (n' : Nat)

def St.joined [DecidableEq ι] (i : ι) (m : Member) : St ι :=
  { st with pos := n', members := Function.update st.members i (some m) }

/-- A shared key is drawn and wrapped for some members: the next epoch. -/
def St.entered (rs : List (ι × Member)) (r : SymmetricKey Term × List (SealedSharedKey Term)) : St ι :=
  { st with pos := n', epochs := st.epochs ++ [⟨r.1, rs.map (·.1), r.2⟩] }

def St.added (k : Nat) (ep : Epoch ι) (i : ι) (w : SealedSharedKey Term) : St ι :=
  { st with pos := n', epochs := st.epochs.set k ⟨ep.key, ep.recipients ++ [i], ep.wraps ++ [w]⟩ }

def St.attached [DecidableEq ι] (k : Nat) (i : ι) (r : VaultUnderAccount Term) (es : List (AccountVaultEntry Term)) :
    St ι :=
  { st with pos := n', vaults := Function.update st.vaults i es, mounts := ⟨k, i, r⟩ :: st.mounts }

/-- The entry stays, slot and handle are new. -/
def St.rotated (k : Nat) (c : Mount ι) (s : VaultKeySlot Term) (v : UnlockedVault Term) : St ι :=
  { st with pos := n', mounts := ⟨k, c.member, ⟨c.out.entry, s, v⟩⟩ :: st.mounts }

def St.encrypted (c : Mount ι) (p : List Term) (e : EncryptedItemBlob Term) : St ι :=
  { st with pos := n', items := ⟨c.epoch, p, e⟩ :: st.items }

end States

/-- What a member gets when he opens a wrap of epoch `k`. -/
def Gets (o : Oracle) (st : St ι) (i : ι) (m : Member) (k : Nat) (key : SymmetricKey Term) : Prop :=
  st.members i = some m ∧ ∃ ep w, st.epochs[k]? = some ep ∧ w ∈ ep.wraps ∧
    unwrapWithIdentity o.suite w m.identity = .ok key

inductive Step [DecidableEq ι] (o : Oracle) (V : Id) : St ι → St ι → Prop
  | join {st : St ι} {i pw r identity n m m' n'} (hi : st.members i = none) (hn : st.pos ≤ n)
      (ha : createAccount o.suite pw n = .ok (r, m)) (hm : m ≤ m')
      (h : SharedIdentityKeyPair.generate o.suite m' = .ok (identity, n')) :
      Step o V st (st.joined n' i ⟨pw, r, identity⟩)
  | create {st : St ι} {rs r n n'} (he : st.epochs = []) (hrs : ∀ x ∈ rs, st.members x.1 = some x.2) (hn : st.pos ≤ n)
      (h : createSharedVault o.suite (rs.map (·.2.identity.publicKey)) n = .ok (r, n')) :
      Step o V st (st.entered n' rs r)
  | addRecipient {st : St ι} {k ep i m w n n'} (hep : st.epochs[k]? = some ep) (hm : st.members i = some m)
      (hn : st.pos ≤ n) (h : addRecipient o.suite ep.key m.identity.publicKey n = .ok (w, n')) :
      Step o V st (st.added n' k ep i w)
  | rotate {st : St ι} {rs r n n'} (he : st.epochs ≠ []) (hrs : ∀ x ∈ rs, st.members x.1 = some x.2) (hn : st.pos ≤ n)
      (h : rotateSharedVaultKey o.suite (rs.map (·.2.identity.publicKey)) n = .ok (r, n')) :
      Step o V st (st.entered n' rs r)
  | attach {st : St ι} {i m k key r es n n'} (hk : Gets o st i m k key) (hn : st.pos ≤ n)
      (h : attachSharedVaultUnderAccount o.suite m.keys.unlocked V key n = .ok (r, n'))
      (hes : Stores (st.vaults i) es r.entry) : Step o V st (st.attached n' k i r es)
  | rotateKeys {st : St ι} {c m k key s v n n'} (hc : c ∈ st.mounts) (hk : Gets o st c.member m k key) (hn : st.pos ≤ n)
      (h : rotateSharedVaultKeys o.suite c.out.unlocked key n = .ok ((s, v), n')) : Step o V st (st.rotated n' k c s v)
  | encrypt {st : St ι} {c p id e n n'} (hc : c ∈ st.mounts) (hp : ∀ b ∈ p, Content b) (hn : st.pos ≤ n)
      (h : encryptItem o.suite p id c.out.unlocked n = .ok (e, n')) : Step o V st (st.encrypted n' c p e)

inductive Run [DecidableEq ι] (o : Oracle) (V : Id) : St ι → Prop
  | init (n : Nat) : Run o V ⟨n, fun _ => none, fun _ => [], [], [], []⟩
  | step {a b : St ι} (ha : Run o V a) (h : Step o V a b) : Run o V b

/-! ## What the coalition knows -/

section Coalition

variable (o : Oracle) (C : ι → Prop) (e : Nat) (st : St ι)

/-- The passwords it may know: any but those of members outside it. -/
def Guess (p : List UInt8) : Prop := ∀ i m, ¬ C i → st.members i = some m → p ≠ asBytes (o.nfkd m.password)

/-- What it has to begin with. -/
inductive Known : List Term → Prop
  -- Its own: private keys, accounts, handles, and keys it draws.
  | identity {i m} (hi : C i) (hm : st.members i = some m) : Known m.identity.secret.toList
  | ark {i m} (hi : C i) (hm : st.members i = some m) : Known m.keys.unlocked.ark.toList
  | kek {c} (hc : c ∈ st.mounts) (hi : C c.member) : Known c.out.unlocked.kek.toList
  | vmk {c} (hc : c ∈ st.mounts) (hi : C c.member) : Known c.out.unlocked.vmk.toList
  | ikek {c} (hc : c ∈ st.mounts) (hi : C c.member) : Known c.out.unlocked.ikek.toList
  | drawn {i k} (hi : st.pos ≤ i) (hk : o.suite.osKey i = some k) : Known k.toList
  -- Earlier epochs.
  | sharedKey {k : Nat} {ep : Epoch ι} (hep : st.epochs[k]? = some ep) (hk : k < e) : Known ep.key.toList
  | content {x} (hx : x ∈ st.items) (hk : x.epoch < e) : Known x.plaintext
  -- What is published and stored, of everybody and of every epoch.
  | publicKey {i m} (hm : st.members i = some m) : Known m.identity.publicKey.toList
  | wrap {k : Nat} {ep : Epoch ι} {w : SealedSharedKey Term} (hep : st.epochs[k]? = some ep) (hw : w ∈ ep.wraps) :
      Known w.bytes
  | keysetArk {i m} (hm : st.members i = some m) : Known m.keys.encrypted.wrappedArk.ciphertext
  | keysetRecovery {i m x} (hm : st.members i = some m) (hx : x ∈ m.keys.encrypted.wrappedArkRecovery) :
      Known x.ciphertext
  | keysetEntry {i x} (hx : x ∈ st.vaults i) : Known x.wrappedKek.ciphertext
  | formerEntry {c} (hc : c ∈ st.mounts) : Known c.out.entry.wrappedKek.ciphertext
  | slotVmk {c} (hc : c ∈ st.mounts) : Known c.out.slot.wrappedVmk.ciphertext
  | slotIkek {c} (hc : c ∈ st.mounts) : Known c.out.slot.wrappedIkek.ciphertext
  | itemKey {x} (hx : x ∈ st.items) : Known x.stored.wrappedItemKey.ciphertext
  | item {x} (hx : x ∈ st.items) : Known x.stored.blob.ciphertext

/-- What it derives. -/
def Reaches (m : List Term) : Prop := Derives o.suite (Known o C e st) (Guess o C st) m

end Coalition

/-! ## The invariant -/

/-- What a key was drawn for: a member's secrets, an epoch's shared key, an epoch's item. -/
inductive Role (ι : Type) where
  | identity (i : ι) | ark (i : ι) | kek (i : ι) | shared (k : Nat) | item (k : Nat)

structure MemberOk (o : Oracle) (role : Nat → Option (Role ι)) (i : ι) (m : Member) : Prop where
  identity : DrawnFor o.suite role (.identity i) m.identity.secret
  publicKey : m.identity.publicKey = o.suite.x25519 m.identity.secret
  ark : DrawnFor o.suite role (.ark i) m.keys.unlocked.ark
  recovery : m.keys.encrypted.wrappedArkRecovery = none
  wrapped : ∃ kdf muk a, deriveMuk o.suite m.password kdf = .ok muk ∧
    Wraps o.suite muk m.keys.unlocked.ark a m.keys.encrypted.wrappedArk

/-- Recipient by recipient, a wrap of the epoch's key for him. -/
structure EpochOk (o : Oracle) (role : Nat → Option (Role ι)) (members : ι → Option Member) (k : Nat) (ep : Epoch ι) :
    Prop where
  key : DrawnFor o.suite role (.shared k) ep.key
  wraps : List.Forall₂ (fun i w => ∃ m n, members i = some m ∧ WrapsFor o.suite n ep.key m.identity.publicKey w)
    ep.recipients ep.wraps

/-- The mount is of a recipient of its epoch, under his account, with the epoch's keys. -/
structure MountOk (o : Oracle) (V : Id) (role : Nat → Option (Role ι)) (c : Mount ι) (m : Member) (ep : Epoch ι) :
    Prop where
  recipient : c.member ∈ ep.recipients
  mounts : Mounts o.suite m.keys.unlocked c.out.entry c.out.slot c.out.unlocked
  vault : c.out.unlocked.vaultId = V
  keys : (c.out.unlocked.vmk, c.out.unlocked.ikek) = deriveSharedVaultKeys o.suite ep.key V
  kek : DrawnFor o.suite role (.kek c.member) c.out.unlocked.kek

/-- The item's key is its epoch's, wrapped with the epoch's IKEK. -/
structure ItemOk (o : Oracle) (V : Id) (role : Nat → Option (Role ι)) (x : Item) (ep : Epoch ι) : Prop where
  content : ∀ b ∈ x.plaintext, Content b
  key : ∃ k a a', DrawnFor o.suite role (.item x.epoch) k ∧
    Wraps o.suite (deriveSharedVaultKeys o.suite ep.key V).2 k a x.stored.wrappedItemKey ∧
    Seals o.suite k x.plaintext a' x.stored.blob

structure Inv (o : Oracle) (V : Id) (st : St ι) (role : Nat → Option (Role ι)) : Prop where
  before : Before role st.pos
  members : ∀ i m, st.members i = some m → MemberOk o role i m
  vaults : ∀ i, ∀ x ∈ st.vaults i, ∃ c ∈ st.mounts, c.out.entry = x
  epochs : ∀ k ep, st.epochs[k]? = some ep → EpochOk o role st.members k ep
  mounts : ∀ c ∈ st.mounts, ∃ m ep, st.members c.member = some m ∧ st.epochs[c.epoch]? = some ep ∧
    MountOk o V role c m ep
  items : ∀ x ∈ st.items, ∃ ep, st.epochs[x.epoch]? = some ep ∧ ItemOk o V role x ep

theorem MountOk.vmk {role : Nat → Option (Role ι)} {c : Mount ι} {m : Member} {ep : Epoch ι}
    (h : MountOk o V role c m ep) : c.out.unlocked.vmk = (deriveSharedVaultKeys o.suite ep.key V).1 :=
  congrArg Prod.fst h.keys

theorem MountOk.ikek {role : Nat → Option (Role ι)} {c : Mount ι} {m : Member} {ep : Epoch ι}
    (h : MountOk o V role c m ep) : c.out.unlocked.ikek = (deriveSharedVaultKeys o.suite ep.key V).2 :=
  congrArg Prod.snd h.keys

/-! ## Steps keep it -/

/-- What was recorded before is still there, an epoch possibly with more recipients. -/
structure Grows (st st' : St ι) (role role' : Nat → Option (Role ι)) : Prop where
  role : Extends role role'
  members : ∀ i m, st.members i = some m → st'.members i = some m
  epochs : ∀ (k : Nat) (ep : Epoch ι), st.epochs[k]? = some ep →
    ∃ ep' : Epoch ι, st'.epochs[k]? = some ep' ∧ ep'.key = ep.key ∧ ∀ i ∈ ep.recipients, i ∈ ep'.recipients

/-- A draw recorded, members and epochs untouched. -/
theorem Grows.of_role {st st' : St ι} {role role' : Nat → Option (Role ι)}
    (hr : Extends role role') (hm : st'.members = st.members) (he : st'.epochs = st.epochs) :
    Grows st st' role role' := by
  refine ⟨hr, fun i m h => ?_, fun k ep h => ⟨ep, ?_, rfl, fun _ hj => hj⟩⟩
  · rw [hm]; exact h
  · rw [he]; exact h

theorem MemberOk.mono {role role' : Nat → Option (Role ι)} (hg : Extends role role') {i : ι}
    {m : Member} (h : MemberOk o role i m) : MemberOk o role' i m :=
  ⟨h.identity.mono hg, h.publicKey, h.ark.mono hg, h.recovery, h.wrapped⟩

theorem EpochOk.mono {st st' : St ι} {role role' : Nat → Option (Role ι)} (hg : Grows st st' role role') {k : Nat}
    {ep : Epoch ι} (h : EpochOk o role st.members k ep) : EpochOk o role' st'.members k ep := by
  refine ⟨h.key.mono hg.role, h.wraps.imp fun i w hw => ?_⟩
  obtain ⟨m, n, hm, hw⟩ := hw
  exact ⟨m, n, hg.members i m hm, hw⟩

/-- Mounts stay what they were. -/
theorem mounts_grow {st st' : St ι} {role role' : Nat → Option (Role ι)} (hg : Grows st st' role role')
    {c : Mount ι} (h : ∃ m ep, st.members c.member = some m ∧ st.epochs[c.epoch]? = some ep ∧ MountOk o V role c m ep) :
    ∃ m ep, st'.members c.member = some m ∧ st'.epochs[c.epoch]? = some ep ∧ MountOk o V role' c m ep := by
  obtain ⟨m, ep, hm, hep, hc⟩ := h
  obtain ⟨ep', hep', hkey, hsub⟩ := hg.epochs _ _ hep
  exact ⟨m, ep', hg.members _ _ hm, hep', hsub _ hc.recipient, hc.mounts, hc.vault, hkey ▸ hc.keys, hc.kek.mono hg.role⟩

theorem items_grow {st st' : St ι} {role role' : Nat → Option (Role ι)} (hg : Grows st st' role role') {x : Item}
    (h : ∃ ep, st.epochs[x.epoch]? = some ep ∧ ItemOk o V role x ep) :
    ∃ ep, st'.epochs[x.epoch]? = some ep ∧ ItemOk o V role' x ep := by
  obtain ⟨ep, hep, hc, k, a, a', hk, hw, hb⟩ := h
  obtain ⟨ep', hep', hkey, -⟩ := hg.epochs _ _ hep
  exact ⟨ep', hep', hc, k, a, a', hk.mono hg.role, hkey ▸ hw, hb⟩

/-- Whoever opens a wrap of an epoch is a recipient of it and gets its key. -/
theorem gets_key {st : St ι} {role : Nat → Option (Role ι)} (hi : Inv o V st role) {i : ι} {m : Member} {k : Nat}
    {key : SymmetricKey Term} (h : Gets o st i m k key) :
    ∃ ep, st.members i = some m ∧ st.epochs[k]? = some ep ∧ i ∈ ep.recipients ∧ key = ep.key := by
  obtain ⟨hm, ep, w, hep, hw, hk⟩ := h
  obtain ⟨j, hj, m', n, hm', hwrap⟩ := paired_right (hi.epochs k ep hep).wraps hw
  obtain ⟨hpk, hkey⟩ := unwrapWithIdentity_only o.suite_box hwrap hk
  rw [(hi.members j m' hm').publicKey] at hpk
  have hj' := (hi.members j m' hm').identity
  rw [public_inj o hpk] at hj'
  cases hj'.unique o.suite_ideal (hi.members i m hm).identity
  exact ⟨ep, hm, hep, hj, hkey⟩

theorem joined_inv [DecidableEq ι] {st : St ι} {role : Nat → Option (Role ι)} (hi : Inv o V st role) {i : ι}
    {pw : String} {r : AccountKeys Term} {identity : SharedIdentityKeyPair Term} {n m m' n' : Nat}
    (hnone : st.members i = none) (hn : st.pos ≤ n) (ha : createAccount o.suite pw n = .ok (r, m)) (hm : m ≤ m')
    (h : SharedIdentityKeyPair.generate o.suite m' = .ok (identity, n')) :
    ∃ role', Inv o V (st.joined n' i ⟨pw, r, identity⟩) role' := by
  obtain ⟨kdf, muk, wa, henc, hmuk, hw, hlt, p, hp, hp', hark⟩ := createAccount_ok ha
  obtain ⟨hkey, hpk, rfl⟩ := generate_ok h
  have hwa : r.encrypted.wrappedArk = wa ∧ r.encrypted.wrappedArkRecovery = none := by rw [henc]; exact ⟨rfl, rfl⟩
  have hext := record_extends hi.before (hn.trans hp) (.ark i)
  have hb := record_before hi.before (hn.trans hlt.le) hp' (.ark i)
  have hext' := record_extends hb hm (.identity i)
  have hg : Grows st (st.joined (m' + 1) i ⟨pw, r, identity⟩) role
      (record (record role p (.ark i)) m' (.identity i)) := by
    refine ⟨hext.trans hext', fun j mj hj => ?_, fun k ep hep => ⟨ep, hep, rfl, fun _ hj => hj⟩⟩
    have hji : j ≠ i := fun e => by rw [e, hnone] at hj; cases hj
    exact (Function.update_of_ne hji _ _).trans hj
  refine ⟨_, record_before hb (Nat.le_succ_of_le hm) (Nat.lt_succ_self m') _, fun j mj hj => ?_, hi.vaults,
    fun k ep hep => (hi.epochs k ep hep).mono hg, fun c hc => mounts_grow hg (hi.mounts c hc),
    fun x hx => items_grow hg (hi.items x hx)⟩
  change Function.update st.members i _ j = some mj at hj
  by_cases hji : j = i
  · rw [hji, Function.update_self] at hj
    cases hj
    rw [hji]
    exact ⟨record_drawn hkey _, hpk, (record_drawn hark _).mono hext', hwa.2, kdf, muk, _, hmuk, hwa.1 ▸ hw⟩
  · rw [Function.update_of_ne hji] at hj
    exact (hi.members j mj hj).mono hg.role

theorem entered_inv {st : St ι} {role : Nat → Option (Role ι)} (hi : Inv o V st role) {rs : List (ι × Member)}
    {r : SymmetricKey Term × List (SealedSharedKey Term)} {n n' : Nat} (hrs : ∀ x ∈ rs, st.members x.1 = some x.2)
    (hn : st.pos ≤ n) (h : createSharedVault o.suite (rs.map (·.2.identity.publicKey)) n = .ok (r, n')) :
    ∃ role', Inv o V (st.entered n' rs r) role' := by
  obtain ⟨key, wraps⟩ := r
  obtain ⟨hkey, hlt, hwraps⟩ := createSharedVault_ok h
  have hext := record_extends hi.before hn (.shared st.epochs.length)
  have hg : Grows st (st.entered n' rs (key, wraps)) role
      (record role n (.shared st.epochs.length)) := by
    refine ⟨hext, fun _ _ hm => hm, fun k ep hep => ⟨ep, ?_, rfl, fun _ hj => hj⟩⟩
    exact (List.getElem?_append_left (List.getElem?_eq_some_iff.mp hep).1).trans hep
  refine ⟨_, record_before hi.before (by omega) hlt _, fun i m hm => (hi.members i m hm).mono hext, hi.vaults,
    fun k ep hep => ?_, fun c hc => mounts_grow hg (hi.mounts c hc), fun x hx => items_grow hg (hi.items x hx)⟩
  change (st.epochs ++ [_])[k]? = some ep at hep
  rw [List.getElem?_append] at hep
  split at hep
  · exact (hi.epochs k ep hep).mono hg
  · rw [List.getElem?_singleton, Option.ite_none_right_eq_some] at hep
    obtain ⟨hk, hep⟩ := hep
    cases hep
    have hk : k = st.epochs.length := by omega
    refine ⟨hk ▸ record_drawn hkey _, ?_⟩
    rw [List.forall₂_map_left_iff] at hwraps ⊢
    refine ((List.forall₂_and_left rs wraps).mpr ⟨hrs, hwraps⟩).imp fun x w hw => ?_
    obtain ⟨hm, j, -, -, hw⟩ := hw
    exact ⟨x.2, j, hm, hw⟩

theorem added_inv {st : St ι} {role : Nat → Option (Role ι)} (hi : Inv o V st role) {k : Nat} {ep : Epoch ι} {i : ι}
    {m : Member} {w : SealedSharedKey Term} {n n' : Nat} (hep : st.epochs[k]? = some ep) (hm : st.members i = some m)
    (hn : st.pos ≤ n) (h : addRecipient o.suite ep.key m.identity.publicKey n = .ok (w, n')) :
    Inv o V (st.added n' k ep i w) role := by
  obtain ⟨hw, rfl⟩ := wrapForRecipient_ok.mp h
  have hlen := (List.getElem?_eq_some_iff.mp hep).1
  have hg : Grows st (st.added (n + 1) k ep i w) role role := by
    refine ⟨.refl role, fun _ _ h => h, fun k' ep' hep' => ?_⟩
    by_cases hk : k = k'
    · subst hk
      cases hep.symm.trans hep'
      exact ⟨_, List.getElem?_set_self hlen, rfl, fun j hj => List.mem_append_left _ hj⟩
    · exact ⟨ep', (List.getElem?_set_ne hk).trans hep', rfl, fun _ hj => hj⟩
  refine ⟨hi.before.mono (Nat.le_succ_of_le hn), hi.members, hi.vaults,
    fun k' ep' hep' => ?_, fun c hc => mounts_grow hg (hi.mounts c hc), fun x hx => items_grow hg (hi.items x hx)⟩
  change (st.epochs.set k _)[k']? = some ep' at hep'
  by_cases hk : k = k'
  · subst hk
    rw [List.getElem?_set_self hlen] at hep'
    cases hep'
    have hok := hi.epochs k ep hep
    exact ⟨hok.key, List.rel_append hok.wraps (.cons ⟨m, n, hm, hw⟩ .nil)⟩
  · rw [List.getElem?_set_ne hk] at hep'
    exact hi.epochs k' ep' hep'

theorem attached_inv [DecidableEq ι] {st : St ι} {role : Nat → Option (Role ι)} (hi : Inv o V st role) {i : ι}
    {m : Member} {k : Nat} {key : SymmetricKey Term} {r : VaultUnderAccount Term} {es : List (AccountVaultEntry Term)}
    {n n' : Nat} (hk : Gets o st i m k key) (hn : st.pos ≤ n)
    (h : attachSharedVaultUnderAccount o.suite m.keys.unlocked V key n = .ok (r, n'))
    (hes : Stores (st.vaults i) es r.entry) : ∃ role', Inv o V (st.attached n' k i r es) role' := by
  obtain ⟨ep, hm, hep, hrec, rfl⟩ := gets_key hi hk
  obtain ⟨-, hmounts, hv, hvmk, hikek, hkek, hlt⟩ := wrapUnderAccount_ok h
  have hext := record_extends hi.before hn (.kek i)
  have hg : Grows st (st.attached n' k i r es) role (record role n (.kek i)) := .of_role hext rfl rfl
  have hold : ∀ j, ∀ x ∈ st.vaults j, ∃ c ∈ (⟨k, i, r⟩ : Mount ι) :: st.mounts, c.out.entry = x := fun j x hx => by
    obtain ⟨c, hc, he⟩ := hi.vaults j x hx
    exact ⟨c, List.mem_cons_of_mem _ hc, he⟩
  refine ⟨_, record_before hi.before (by omega) hlt _, fun j mj hj => (hi.members j mj hj).mono hext, fun j x hx => ?_,
    fun k ep hep => (hi.epochs k ep hep).mono hg,
    List.forall_mem_cons.mpr ⟨?_, fun c hc => mounts_grow hg (hi.mounts c hc)⟩,
    fun x hx => items_grow hg (hi.items x hx)⟩
  · change x ∈ Function.update st.vaults i es j at hx
    by_cases hji : j = i
    · rw [hji, Function.update_self] at hx
      rcases hes.mem.mp hx with rfl | ⟨hx, -⟩
      · exact ⟨_, List.mem_cons_self, rfl⟩
      · exact hold i x hx
    · rw [Function.update_of_ne hji] at hx
      exact hold j x hx
  · exact ⟨m, ep, hm, hep, hrec, hmounts, hv, Prod.ext hvmk hikek, record_drawn hkek _⟩

/-- The KEK stays the member's, what is below it is of the epoch he got. -/
theorem rotated_inv {st : St ι} {role : Nat → Option (Role ι)} (hi : Inv o V st role) {c : Mount ι} {m : Member}
    {k : Nat} {key : SymmetricKey Term} {s : VaultKeySlot Term} {v : UnlockedVault Term} {n n' : Nat}
    (hc : c ∈ st.mounts) (hk : Gets o st c.member m k key) (hn : st.pos ≤ n)
    (h : rotateSharedVaultKeys o.suite c.out.unlocked key n = .ok ((s, v), n')) :
    Inv o V (st.rotated n' k c s v) role := by
  obtain ⟨ep, hm, hep, hrec, rfl⟩ := gets_key hi hk
  obtain ⟨m', ep', hm', hep', hok⟩ := hi.mounts c hc
  cases hm.symm.trans hm'
  obtain ⟨-, -, -, hv, -, hlt⟩ := rotateSharedVaultKeys_ok h
  have hle : st.pos ≤ n' := by omega
  refine ⟨hi.before.mono hle, hi.members, fun j x hx => ?_, hi.epochs,
    List.forall_mem_cons.mpr ⟨⟨m, ep, hm, hep, hrec, rotateSharedVaultKeys_mounts h hok.mounts, ?_, ?_, ?_⟩, hi.mounts⟩,
    hi.items⟩
  · obtain ⟨c', hc', he⟩ := hi.vaults j x hx
    exact ⟨c', List.mem_cons_of_mem _ hc', he⟩
  · rw [hv]; exact hok.vault
  · rw [hv, hok.vault]
  · rw [hv]; exact hok.kek

theorem encrypted_inv {st : St ι} {role : Nat → Option (Role ι)} (hi : Inv o V st role) {c : Mount ι} {p : List Term}
    {id : Id} {e : EncryptedItemBlob Term} {n n' : Nat} (hc : c ∈ st.mounts) (hp : ∀ b ∈ p, Content b) (hn : st.pos ≤ n)
    (h : encryptItem o.suite p id c.out.unlocked n = .ok (e, n')) : ∃ role', Inv o V (st.encrypted n' c p e) role' := by
  obtain ⟨-, hlt, k, hk, hw, hb⟩ := encryptItem_ok h
  obtain ⟨m, ep, hm, hep, hok⟩ := hi.mounts c hc
  rw [hok.ikek] at hw
  have hext := record_extends hi.before hn (.item c.epoch)
  have hg : Grows st (st.encrypted n' c p e) role (record role n (.item c.epoch)) :=
    .of_role hext rfl rfl
  refine ⟨_, record_before hi.before (by omega) hlt _, fun j mj hj => (hi.members j mj hj).mono hext, hi.vaults,
    fun k ep hep => (hi.epochs k ep hep).mono hg, fun c hc => mounts_grow hg (hi.mounts c hc),
    List.forall_mem_cons.mpr ⟨?_, fun x hx => items_grow hg (hi.items x hx)⟩⟩
  exact ⟨ep, hep, hp, k, _, _, record_drawn hk _, hw, hb⟩

theorem step_inv [DecidableEq ι] {st st' : St ι} {role : Nat → Option (Role ι)} (hi : Inv o V st role)
    (h : Step o V st st') : ∃ role', Inv o V st' role' := by
  cases h with
  | join hnone hn ha hm h => exact joined_inv hi hnone hn ha hm h
  | create _ hrs hn h => exact entered_inv hi hrs hn h
  | addRecipient hep hm hn h => exact ⟨role, added_inv hi hep hm hn h⟩
  | rotate _ hrs hn h => exact entered_inv hi hrs hn h
  | attach hk hn h hes => exact attached_inv hi hk hn h hes
  | rotateKeys hc hk hn h => exact ⟨role, rotated_inv hi hc hk hn h⟩
  | encrypt hc hp hn h => exact encrypted_inv hi hc hp hn h

theorem run_inv [DecidableEq ι] {st : St ι} (h : Run o V st) : ∃ role, Inv o V st role := by
  induction h with
  | init n =>
    exact ⟨fun _ => none, fun _ _ h => (by cases h), fun _ _ h => (by cases h), fun _ _ h => (by cases h),
      fun _ _ h => (by cases h), fun _ h => (by cases h), fun _ h => (by cases h)⟩
  | step _ h ih =>
    obtain ⟨role, hi⟩ := ih
    exact step_inv hi h

/-! ## What stays secret -/

/-- Secret from the coalition: what was drawn for the others, and from epoch `e` on. -/
def SecretFrom (C : ι → Prop) (e : Nat) : Role ι → Prop
  | .identity i | .ark i | .kek i => ¬ C i
  | .shared k | .item k => e ≤ k

/-- Contents are secret that occur in items of such epochs only. -/
def secrets (o : Oracle) (C : ι → Prop) (e : Nat) (st : St ι) (role : Nat → Option (Role ι)) : Secrets where
  key p := ∃ r, role p = some r ∧ SecretFrom C e r
  data d := ∀ x ∈ st.items, .data d ∈ x.plaintext → e ≤ x.epoch
  word _ := False
  guess := Guess o C st

/-- The coalition is in no recipient list from epoch `e` on. -/
def Removed (C : ι → Prop) (e : Nat) (st : St ι) : Prop :=
  ∀ (k : Nat) (ep : Epoch ι), st.epochs[k]? = some ep → e ≤ k → ∀ i ∈ ep.recipients, ¬ C i

variable {C : ι → Prop} {e : Nat} {st : St ι} {role : Nat → Option (Role ι)}

theorem drawnFor_safe {r : Role ι} {k : SymmetricKey Term} (h : DrawnFor o.suite role r k) :
    SafeKey (secrets o C e st role) k ↔ ¬ SecretFrom C e r := by
  obtain ⟨p, hp, hr⟩ := h
  rw [osKey_safe hp]
  refine not_congr ⟨fun ⟨r', hr', hs⟩ => ?_, fun hs => ⟨r, hr, hs⟩⟩
  cases hr.symm.trans hr'
  exact hs

/-- An epoch's keys are secret exactly from `e` on. -/
theorem EpochOk.safe {members : ι → Option Member} {k : Nat} {ep : Epoch ι} (h : EpochOk o role members k ep) :
    (SafeKey (secrets o C e st role) ep.key ↔ ¬ e ≤ k) ∧
      (SafeKey (secrets o C e st role) (deriveSharedVaultKeys o.suite ep.key V).1 ↔ ¬ e ≤ k) ∧
      (SafeKey (secrets o C e st role) (deriveSharedVaultKeys o.suite ep.key V).2 ↔ ¬ e ≤ k) := by
  obtain ⟨hvmk, hikek⟩ := deriveSharedVaultKeys_safe (σ := secrets o C e st role) o ep.key V
  have hkey : SafeKey (secrets o C e st role) ep.key ↔ ¬ e ≤ k := drawnFor_safe h.key
  exact ⟨hkey, hvmk.trans hkey, hikek.trans hkey⟩

/-- Contents of earlier epochs are not secret. -/
theorem content_safe {x : Item} (hx : x ∈ st.items) (hc : ∀ b ∈ x.plaintext, Content b) (hk : ¬ e ≤ x.epoch) :
    AllSafe (secrets o C e st role) x.plaintext := by
  intro b hb
  have hcb := hc b hb
  cases b with
  | data d => exact fun hs => hk (hs x hx hb)
  | lit c => exact trivial
  | _ => exact hcb.elim

/-- A mount of the coalition is of an earlier epoch. -/
theorem mount_before (hC : Removed C e st) {c : Mount ι} {m : Member} {ep : Epoch ι}
    (hep : st.epochs[c.epoch]? = some ep) (h : MountOk o V role c m ep) (hi : C c.member) : ¬ e ≤ c.epoch :=
  fun hk => hC c.epoch ep hep hk c.member h.recipient hi

/-- An entry is of its member's KEK under his root key. -/
theorem entry_safe (hi : Inv o V st role) {c : Mount ι} (hc : c ∈ st.mounts) :
    AllSafe (secrets o C e st role) c.out.entry.wrappedKek.ciphertext := by
  obtain ⟨m, ep, hm, -, hok⟩ := hi.mounts c hc
  refine (wraps_safe hok.mounts.kek).mpr fun hs => (drawnFor_safe hok.kek).mpr ?_
  exact (drawnFor_safe (hi.members _ _ hm).ark).mp hs

/-- Everything the coalition begins with may be published. -/
theorem known_safe (hi : Inv o V st role) (hC : Removed C e st) :
    ∀ m, Known o C e st m → AllSafe (secrets o C e st role) m := by
  intro m hm
  cases hm with
  | identity hiC hm => exact (drawnFor_safe (hi.members _ _ hm).identity).mpr fun h => h hiC
  | ark hiC hm => exact (drawnFor_safe (hi.members _ _ hm).ark).mpr fun h => h hiC
  | kek hc hiC =>
    obtain ⟨m, ep, -, hep, hok⟩ := hi.mounts _ hc
    exact (drawnFor_safe hok.kek).mpr fun h => h hiC
  | vmk hc hiC =>
    obtain ⟨m, ep, -, hep, hok⟩ := hi.mounts _ hc
    rw [hok.vmk]
    exact (hi.epochs _ _ hep).safe.2.1.mpr (mount_before hC hep hok hiC)
  | ikek hc hiC =>
    obtain ⟨m, ep, -, hep, hok⟩ := hi.mounts _ hc
    rw [hok.ikek]
    exact (hi.epochs _ _ hep).safe.2.2.mpr (mount_before hC hep hok hiC)
  | drawn hpos hk =>
    refine (osKey_safe hk).mpr fun ⟨r, hr, _⟩ => ?_
    exact absurd (hi.before _ r hr) (Nat.not_lt.mpr hpos)
  | sharedKey hep hk => exact (hi.epochs _ _ hep).safe (V := V).1.mpr (Nat.not_le.mpr hk)
  | content hx hk =>
    obtain ⟨ep, -, hok⟩ := hi.items _ hx
    exact content_safe hx hok.content (Nat.not_le.mpr hk)
  | publicKey hm =>
    rw [(hi.members _ _ hm).publicKey]
    exact allSafe_public o _
  | wrap hep hw =>
    obtain ⟨j, hj, mj, n, hmj, hwrap⟩ := paired_right (hi.epochs _ _ hep).wraps hw
    have hmem := hi.members j mj hmj
    rw [hmem.publicKey] at hwrap
    refine (wrapsFor_safe hwrap).mpr fun hs => ?_
    have hjC := not_not.mp ((drawnFor_safe hmem.identity).mp hs)
    exact (hi.epochs _ _ hep).safe (V := V).1.mpr fun hk => hC _ _ hep hk j hj hjC
  | @keysetArk i m hm =>
    obtain ⟨kdf, muk, a, hmuk, hw⟩ := (hi.members _ _ hm).wrapped
    refine (wraps_safe hw).mpr fun hs => (drawnFor_safe (hi.members _ _ hm).ark).mpr fun hiC => ?_
    exact (deriveMuk_safe hmuk).mp hs i m hiC hm rfl
  | keysetRecovery hm hx =>
    rw [(hi.members _ _ hm).recovery] at hx
    cases hx
  | keysetEntry hx =>
    obtain ⟨c, hc, rfl⟩ := hi.vaults _ _ hx
    exact entry_safe hi hc
  | formerEntry hc => exact entry_safe hi hc
  | slotVmk hc =>
    obtain ⟨m, ep, -, hep, hok⟩ := hi.mounts _ hc
    refine (wraps_safe hok.mounts.below.vmk).mpr fun hs => ?_
    rw [hok.vmk]
    exact (hi.epochs _ _ hep).safe.2.1.mpr (mount_before hC hep hok (not_not.mp ((drawnFor_safe hok.kek).mp hs)))
  | slotIkek hc =>
    obtain ⟨m, ep, -, hep, hok⟩ := hi.mounts _ hc
    refine (wraps_safe hok.mounts.below.ikek).mpr fun hs => ?_
    rw [hok.vmk] at hs
    rw [hok.ikek]
    exact (hi.epochs _ _ hep).safe.2.2.mpr ((hi.epochs _ _ hep).safe.2.1.mp hs)
  | itemKey hx =>
    obtain ⟨ep, hep, hok⟩ := hi.items _ hx
    obtain ⟨k, a, a', hk, hw, -⟩ := hok.key
    exact (wraps_safe hw).mpr fun hs => (drawnFor_safe hk).mpr ((hi.epochs _ _ hep).safe.2.2.mp hs)
  | item hx =>
    obtain ⟨ep, -, hok⟩ := hi.items _ hx
    obtain ⟨k, a, a', hk, -, hb⟩ := hok.key
    exact (seals_safe hb).mpr fun hs => content_safe hx hok.content ((drawnFor_safe hk).mp hs)

/-- What a coalition removed at epoch `e` cannot derive, and what the recipients can open. -/
structure CutOff (o : Oracle) (V : Id) (C : ι → Prop) (e : Nat) (st : St ι) : Prop where
  /-- The coalition knows its own passwords, unless a member outside it uses the same one. -/
  guesses : ∀ i m, C i → st.members i = some m →
    (∀ j m', ¬ C j → st.members j = some m' → o.nfkd m.password ≠ o.nfkd m'.password) →
      Guess o C st (asBytes (o.nfkd m.password))
  keys : ∀ (k : Nat) (ep : Epoch ι), st.epochs[k]? = some ep → e ≤ k → ¬ Reaches o C e st ep.key.toList ∧
    ¬ Reaches o C e st (deriveSharedVaultKeys o.suite ep.key V).1.toList ∧
    ¬ Reaches o C e st (deriveSharedVaultKeys o.suite ep.key V).2.toList
  handles : ∀ c ∈ st.mounts, e ≤ c.epoch →
    ¬ Reaches o C e st c.out.unlocked.vmk.toList ∧ ¬ Reaches o C e st c.out.unlocked.ikek.toList
  /-- A content is out of reach when some of it is encrypted in items from `e` on only. -/
  items : ∀ x ∈ st.items, ∀ d, .data d ∈ x.plaintext → (∀ y ∈ st.items, .data d ∈ y.plaintext → e ≤ y.epoch) →
    ¬ Reaches o C e st x.plaintext
  recipients : ∀ (k : Nat) (ep : Epoch ι), st.epochs[k]? = some ep →
    List.Forall₂ (fun i w => ∃ m, st.members i = some m ∧ unwrapWithIdentity o.suite w m.identity = .ok ep.key)
      ep.recipients ep.wraps

theorem removed_cut_off [DecidableEq ι] (h : Run o V st) (hC : Removed C e st) : CutOff o V C e st := by
  obtain ⟨role, hi⟩ := run_inv h
  have hsafe : ∀ {m}, Reaches o C e st m → AllSafe (secrets o C e st role) m :=
    fun hm => hm.safe (fun _ hg => hg) (known_safe hi hC)
  refine ⟨fun i m _ _ hpw j m' hj hm' he => ?_, fun k ep hep hk => ?_, fun c hc hk => ?_,
    fun x hx d hd hall hm => ?_, fun k ep hep => ?_⟩
  · exact hpw j m' hj hm' (asBytes_inj.mp he)
  · obtain ⟨hkey, hvmk, hikek⟩ := (hi.epochs k ep hep).safe (V := V)
    exact ⟨fun hm => hkey.mp (hsafe hm) hk, fun hm => hvmk.mp (hsafe hm) hk, fun hm => hikek.mp (hsafe hm) hk⟩
  · obtain ⟨m, ep, -, hep, hok⟩ := hi.mounts c hc
    obtain ⟨-, hvmk, hikek⟩ := (hi.epochs _ _ hep).safe (V := V)
    rw [hok.vmk, hok.ikek]
    exact ⟨fun hm => hvmk.mp (hsafe hm) hk, fun hm => hikek.mp (hsafe hm) hk⟩
  · exact hsafe hm _ hd hall
  · refine (hi.epochs k ep hep).wraps.imp fun i w hw => ?_
    obtain ⟨m, n, hm, hwrap⟩ := hw
    exact ⟨m, hm, unwrapWithIdentity_own o.suite_box hwrap (hi.members i m hm).publicKey⟩

/-! ## A trace -/

def demoId : Id := .replicate 16 7

def demoStart : St Bool := ⟨0, fun _ => none, fun _ => [], [], [], []⟩

def demoAliceId : SharedIdentityKeyPair Term × Nat :=
  okVal (SharedIdentityKeyPair.generate demo.suite demoAccount.2) (by decide +kernel)

def demoStays : Member := ⟨"a", demoAccount.1, demoAliceId.1⟩

def demoBob : AccountKeys Term × Nat := okVal (createAccount demo.suite "b" demoAliceId.2) (by decide +kernel)

def demoBobId : SharedIdentityKeyPair Term × Nat :=
  okVal (SharedIdentityKeyPair.generate demo.suite demoBob.2) (by decide +kernel)

def demoLeaves : Member := ⟨"b", demoBob.1, demoBobId.1⟩

/-- The vault's first key, for both. -/
def demoFirst : (SymmetricKey Term × List (SealedSharedKey Term)) × Nat :=
  okVal (createSharedVault demo.suite [demoStays.identity.publicKey, demoLeaves.identity.publicKey] demoBobId.2)
    (by decide +kernel)

def demoAttached : VaultUnderAccount Term × Nat :=
  okVal (attachSharedVaultUnderAccount demo.suite demoStays.keys.unlocked demoId demoFirst.1.1 demoFirst.2)
    (by decide +kernel)

/-- Its second key, for the first member only. -/
def demoSecond : (SymmetricKey Term × List (SealedSharedKey Term)) × Nat :=
  okVal (rotateSharedVaultKey demo.suite [demoStays.identity.publicKey] demoAttached.2) (by decide +kernel)

def demoKeys : (VaultKeySlot Term × UnlockedVault Term) × Nat :=
  okVal (rotateSharedVaultKeys demo.suite demoAttached.1.unlocked demoSecond.1.1 demoSecond.2) (by decide +kernel)

def demoAfter : EncryptedItemBlob Term × Nat :=
  okVal (encryptItem demo.suite [.data 0] (.replicate 16 1) demoKeys.1.2 demoKeys.2) (by decide +kernel)

def demoJoined : St Bool := (demoStart.joined demoAliceId.2 true demoStays).joined demoBobId.2 false demoLeaves

/-- Both are recipients, and the first has mounted the vault. -/
def demoShared : St Bool :=
  (demoJoined.entered demoFirst.2 [(true, demoStays), (false, demoLeaves)] demoFirst.1).attached demoAttached.2 0 true
    demoAttached.1 [demoAttached.1.entry]

/-- The second is removed. -/
def demoRemoved : St Bool := demoShared.entered demoSecond.2 [(true, demoStays)] demoSecond.1

/-- The first rotates and encrypts an item. -/
def demoSt : St Bool :=
  (demoRemoved.rotated demoKeys.2 1 ⟨0, true, demoAttached.1⟩ demoKeys.1.1 demoKeys.1.2).encrypted demoAfter.2
    ⟨1, true, ⟨demoAttached.1.entry, demoKeys.1.1, demoKeys.1.2⟩⟩ [.data 0] demoAfter.1

theorem demo_joined : Run demo demoId demoJoined := by
  have hai : SharedIdentityKeyPair.generate demo.suite demoAccount.2 = .ok (demoAliceId.1, demoAliceId.2) := okVal_eq _
  have hb : createAccount demo.suite "b" demoAliceId.2 = .ok (demoBob.1, demoBob.2) := okVal_eq _
  have hbi : SharedIdentityKeyPair.generate demo.suite demoBob.2 = .ok (demoBobId.1, demoBobId.2) := okVal_eq _
  have h0 : Run demo demoId demoStart := .init 0
  exact (h0.step (.join rfl (Nat.le_refl _) demoAccount_created (Nat.le_refl _) hai)).step
    (.join rfl (Nat.le_refl _) hb (Nat.le_refl _) hbi)

theorem demo_shared : Run demo demoId demoShared := by
  have hrs : ∀ x ∈ [(true, demoStays), (false, demoLeaves)], demoJoined.members x.1 = some x.2 := by
    simp only [List.forall_mem_cons]
    exact ⟨rfl, rfl, fun x hx => (by cases hx)⟩
  have hfirst : createSharedVault demo.suite [demoStays.identity.publicKey, demoLeaves.identity.publicKey] demoBobId.2 =
      .ok (demoFirst.1, demoFirst.2) := okVal_eq _
  have hmount : attachSharedVaultUnderAccount demo.suite demoStays.keys.unlocked demoId demoFirst.1.1 demoFirst.2 =
      .ok (demoAttached.1, demoAttached.2) := okVal_eq _
  have hw : ∃ w ∈ demoFirst.1.2, unwrapWithIdentity demo.suite w demoStays.identity = .ok demoFirst.1.1 := by
    decide +kernel
  obtain ⟨w, hw, hopen⟩ := hw
  exact (demo_joined.step (.create rfl hrs (Nat.le_refl _) hfirst)).step
    (.attach ⟨rfl, _, w, rfl, hw, hopen⟩ (Nat.le_refl _) hmount (.refl _))

theorem demo_run : Run demo demoId demoSt := by
  have hrs : ∀ x ∈ [(true, demoStays)], demoShared.members x.1 = some x.2 := List.forall_mem_singleton.mpr rfl
  have hsecond : rotateSharedVaultKey demo.suite [demoStays.identity.publicKey] demoAttached.2 =
      .ok (demoSecond.1, demoSecond.2) := okVal_eq _
  have hkeys : rotateSharedVaultKeys demo.suite demoAttached.1.unlocked demoSecond.1.1 demoSecond.2 =
      .ok ((demoKeys.1.1, demoKeys.1.2), demoKeys.2) := okVal_eq _
  have hitem : encryptItem demo.suite [.data 0] (.replicate 16 1) demoKeys.1.2 demoKeys.2 =
      .ok (demoAfter.1, demoAfter.2) := okVal_eq _
  have hw : ∃ w ∈ demoSecond.1.2, unwrapWithIdentity demo.suite w demoStays.identity = .ok demoSecond.1.1 := by
    decide +kernel
  obtain ⟨w, hw, hopen⟩ := hw
  have hmounted : (⟨0, true, demoAttached.1⟩ : Mount Bool) ∈ demoRemoved.mounts := List.mem_cons_self
  have hgets : Gets demo demoRemoved true demoStays 1 demoSecond.1.1 := ⟨rfl, _, w, rfl, hw, hopen⟩
  have h1 : Run demo demoId demoRemoved :=
    demo_shared.step (.rotate (List.cons_ne_nil _ _) hrs (Nat.le_refl _) hsecond)
  exact (h1.step (.rotateKeys hmounted hgets (Nat.le_refl _) hkeys)).step
    (.encrypt List.mem_cons_self (List.forall_mem_singleton.mpr trivial) (Nat.le_refl _) hitem)

/-- The member who was removed does not read what is encrypted after it. -/
theorem removed_cut_off_one_member : ¬ Reaches demo (· = false) 1 demoSt [.data 0] := by
  have hremoved : Removed (· = false) 1 demoSt := by
    intro k ep hep hk
    match k with
    | 0 => exact absurd hk (by decide)
    | 1 =>
      cases hep
      exact List.forall_mem_singleton.mpr (by decide)
    | k + 2 => cases hep
  exact (removed_cut_off demo_run hremoved).items _ List.mem_cons_self 0 List.mem_cons_self
    (List.forall_mem_singleton.mpr fun _ => Nat.le_refl _)

end RootkeyCrypto.Revocation
