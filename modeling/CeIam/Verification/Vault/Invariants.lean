import CeIam.Verification.Vault.Calls
import CeIam.Verification.Vault.Laws
import Mathlib.Data.Set.Function

/-! # Records that stay well formed

Every record of a reachable store satisfies the predicate of its family. Two predicates
are carried through all operations: records identify the devices they name, and, once
there is an owner, they are all kept under the owner's master. -/

namespace CeIam.Vault

open StoreProg

/-! ## A predicate for every record -/

/-- Every record satisfies the predicate of its key. -/
def Every (P : Key → Json → Prop) (s : OrdMap String Json) : Prop :=
  ∀ k r, look s k = some r → P k r

variable {P : Key → Json → Prop} {s t : OrdMap String Json} {k : Key} {r : Json}

theorem every_empty : Every P ∅ := by
  intro k r h
  rw [look_empty] at h
  cases h

theorem Every.place (h : Every P s) (hr : P k r) : Every P (place s k r) := by
  intro l q hq
  rw [look_place] at hq
  split at hq
  · next hkey =>
      cases hq
      exact hkey ▸ hr
  · exact h l q hq

theorem Every.drop (h : Every P s) : Every P (drop s k) := by
  intro l q hq
  rw [look_drop] at hq
  split at hq
  · cases hq
  · exact h l q hq

/-! ## Public halves and enrollment records -/

variable {cs : CeSecrets} {v : Vault cs} {env : Moment cs}

@[simp] theorem id_publicValue (device : DeviceKey cs.toKeyPairs) :
    strField (publicValue device) "id" = some device.id := by
  simp [strField, publicValue, Json.field_ofFields]

@[simp] theorem ecdhPub_publicValue (device : DeviceKey cs.toKeyPairs) :
    (publicValue device).field "ecdhPub" = some (cs.jwkToJson device.ecdhPub) := by
  simp [publicValue, Json.field_ofFields]

@[simp] theorem ecdsaPub_publicValue (device : DeviceKey cs.toKeyPairs) :
    (publicValue device).field "ecdsaPub" = some (cs.jwkToJson device.ecdsaPub) := by
  simp [publicValue, Json.field_ofFields]

@[simp] theorem pub_pairRecord (code label : String) :
    (v.pairRecord env code label).field "pub" = some (publicValue v.device) := by
  simp [pairRecord, Json.field_ofFields]

@[simp] theorem owner_metaRecord : strField (v.metaRecord env) "owner" = some v.device.id := by
  simp [strField, metaRecord, Json.field_ofFields]

theorem openMaster_ok {device : DeviceKey cs.toKeyPairs} {record : Json} {master : Bytes} :
    openMaster device record = .ok master ↔
      ∃ wrapped blob, record.field "wrappedMaster" = some wrapped ∧
        cs.wrapFromJson wrapped = .ok blob ∧
        cs.unwrapMaster device.ecdhPriv blob = .ok master := by
  simp only [openMaster, Outcome.bind_eq_ok, Outcome.require_eq_ok, context_eq_ok]
  constructor
  · rintro ⟨wrapped, hwrapped, blob, hblob, hopen⟩
    exact ⟨wrapped, blob, hwrapped, hblob, hopen⟩
  · rintro ⟨wrapped, blob, hwrapped, hblob, hopen⟩
    exact ⟨wrapped, hwrapped, blob, hblob, hopen⟩

theorem openToken_eq_ok {secret : Bytes} {record : Json} {master : Bytes} :
    openToken env secret record = .ok master ↔
      ¬ ((record.field "expires").bind Json.asI64).getD 0 < (env.nowSecs 0).toInt ∧
        ∃ text box, record.field "sealed" = some text ∧ cs.sealedFromJson text = .ok box ∧
          cs.decryptSecret secret box = .ok master := by
  simp only [openToken, Outcome.bind_eq_ok, Outcome.ensure_eq_ok, Outcome.require_eq_ok,
    context_eq_ok]
  constructor
  · rintro ⟨_, hvalid, text, htext, box, hbox, hopen⟩
    exact ⟨hvalid, text, box, htext, hbox, hopen⟩
  · rintro ⟨hvalid, text, box, htext, hbox, hopen⟩
    exact ⟨(), hvalid, text, htext, box, hbox, hopen⟩

/-- An enrollment record of a device has its public half and opens to the wrapped master. -/
theorem enrolRecord_opens {device : DeviceKey cs.toKeyPairs} {master : Bytes} {label id : String}
    {record : Json} (h : v.enrolRecord env (publicValue device) master label id = .ok record) :
    record.field "ecdsaPub" = some (cs.jwkToJson device.ecdsaPub) ∧
      (cs.VaultLaws → openMaster device record = .ok master) := by
  simp only [enrolRecord, ecdhPub_publicValue, ecdsaPub_publicValue, Outcome.bind_eq_ok,
    Outcome.require_eq_ok, context_eq_ok, Option.some.injEq] at h
  obtain ⟨_, rfl, _, rfl, recip, hrecip, blob, hwrap, sig, -, hret⟩ := h
  cases hret
  constructor
  · simp [Json.field_ofFields]
  · intro laws
    rw [laws.read_jwk] at hrecip
    cases hrecip
    refine openMaster_ok.mpr ⟨cs.wrapToJson blob, blob, ?_, laws.read_wrap blob,
      laws.unwrap_wrap hwrap⟩
    simp [Json.field_ofFields]

variable (v env) in
/-- The enrollment record of a device whose keys read back, when the cryptography does its part. -/
theorem enrolRecord_succeeds {device : DeviceKey cs.toKeyPairs} {master : Bytes} (label id : String)
    (hread : cs.jwkFromJson (cs.jwkToJson device.ecdhPub) = .ok device.ecdhPub)
    (hwrap : ∃ blob, cs.wrapMaster master device.ecdhPub (env.seed 0) = .ok blob)
    (hsign : ∀ body, ∃ sig, cs.signRecord v.device body (env.seed 1) = .ok sig) :
    ∃ record, v.enrolRecord env (publicValue device) master label id = .ok record := by
  obtain ⟨blob, hblob⟩ := hwrap
  obtain ⟨sig, hsig⟩ := hsign (.ofFields [("id", .str id), ("label", .str label),
    ("ecdhPub", cs.jwkToJson device.ecdhPub), ("ecdsaPub", cs.jwkToJson device.ecdsaPub),
    ("wrappedMaster", cs.wrapToJson blob), ("addedAt", .str (env.now 0)),
    ("writer", .str v.device.id)])
  simp only [enrolRecord, ecdhPub_publicValue, ecdsaPub_publicValue, Outcome.bind_eq_ok,
    Outcome.require_eq_ok, context_eq_ok, Option.some.injEq]
  exact ⟨_, _, rfl, _, rfl, _, hread, blob, hblob, sig, hsig, rfl⟩

theorem sealed_secretRecord {info : SecretMeta} {box : cs.SealedSecret} {record : Json}
    (h : v.secretRecord env info box = .ok record) :
    record.field "sealed" = some (cs.sealedToJson box) := by
  obtain ⟨sig, -, hret⟩ := Outcome.bind_eq_ok.mp h
  cases hret
  simp [Json.field_ofFields]

/-! ## Records identify devices -/

/-- Enrollment records and pairing requests carry the public half of the device they name. -/
def Identifies (devices : Set (DeviceKey cs.toKeyPairs)) : Key → Json → Prop
  | .device id, r =>
      ∃ d ∈ devices, d.id = id ∧ r.field "ecdsaPub" = some (cs.jwkToJson d.ecdsaPub)
  | .pair _, r => ∃ d ∈ devices, r.field "pub" = some (publicValue d)
  | _, _ => True

variable {devices : Set (DeviceKey cs.toKeyPairs)} {op : Op} {reply : Reply}

theorem Effect.identifies (h : Effect v env s op reply t) (hv : v.device ∈ devices)
    (hs : Every (Identifies devices) s) : Every (Identifies devices) t := by
  have hself : ∀ {master label record},
      v.enrolRecord env (publicValue v.device) master label v.device.id = .ok record →
        Identifies devices (.device v.device.id) record :=
    fun hrecord => ⟨v.device, hv, rfl, (enrolRecord_opens hrecord).1⟩
  cases h with
  | query q reply => exact hs
  | found label hmeta => exact hs
  | init label t hmeta h =>
      obtain ⟨record, howner, rfl⟩ := h
      obtain ⟨master, -, hrecord⟩ := Outcome.bind_eq_ok.mp howner
      exact (hs.place (hself hrecord)).place trivial
  | recover label t h =>
      obtain ⟨record, howner, rfl⟩ := h
      obtain ⟨master, -, hrecord⟩ := Outcome.bind_eq_ok.mp howner
      exact (hs.place (hself hrecord)).place trivial
  | requestPairing label code =>
      exact hs.place (k := .pair code) ⟨v.device, hv, pub_pairRecord code label⟩
  | approvePairing code req pubv id label master record hreq hpub hid hmaster hrecord =>
      obtain ⟨d, hd, hdpub⟩ := hs _ _ hreq
      cases hpub.symm.trans hdpub
      have hname : d.id = id := Option.some.inj ((id_publicValue d).symm.trans hid)
      exact (hs.place (k := .device id) ⟨d, hd, hname, (enrolRecord_opens hrecord).1⟩).drop
  | issueEnrolToken => exact hs.place trivial
  | redeemEnrolToken token label id secretText label' secret master found record htoken hsecret
      hfound hmaster hrecord => exact (hs.place (hself hrecord)).drop
  | revokeDevice => exact hs.drop
  | putSecret => exact hs.place trivial
  | deleteSecret => exact hs.drop
  | issueGrant => exact hs.place trivial
  | revokeGrant => exact hs.drop

/-- In every reachable store, records carry the public half of the device they name. -/
theorem identifies_of_run {ns : String} {calls : List (Call cs)}
    (h : Run (called devices ns) ∅ calls s) : Every (Identifies devices) s := by
  refine h.invariant (fun s c t hs hcall => ?_) every_empty
  rcases called_cases hcall with ⟨_, -, rfl⟩ | ⟨reply, -, heffect⟩
  · exact hs
  · exact heffect.identifies hcall.1 hs

/-! ## Records under one master -/

/-- Before there is an owner there are pairing requests and grants only. -/
def Unclaimed (devices : Set (DeviceKey cs.toKeyPairs)) : Key → Json → Prop
  | .pair _, r => ∃ d ∈ devices, r.field "pub" = some (publicValue d)
  | .grant _, _ => True
  | _, _ => False

/-- Enrollment records open to the master, secrets are sealed under it, and tokens seal it. -/
def Under (devices : Set (DeviceKey cs.toKeyPairs)) (owner : DeviceKey cs.toKeyPairs)
    (master : Bytes) : Key → Json → Prop
  | .vault, r => strField r "owner" = some owner.id
  | .device id, r => ∃ d ∈ devices, d.id = id ∧ openMaster d r = .ok master
  | .pair _, r => ∃ d ∈ devices, r.field "pub" = some (publicValue d)
  | .secret _, r => ∃ box bytes seed, r.field "sealed" = some (cs.sealedToJson box) ∧
      cs.sealSecret master bytes seed = .ok box
  | .enrol _, r => ∃ box secret seed, r.field "sealed" = some (cs.sealedToJson box) ∧
      cs.sealSecret secret master seed = .ok box
  | .grant _, _ => True

/-- A vault with an owner, whose derived master keeps all records. -/
structure Owned (devices : Set (DeviceKey cs.toKeyPairs)) (ns : String)
    (owner : DeviceKey cs.toKeyPairs) (master : Bytes) (s : OrdMap String Json) : Prop where
  member : owner ∈ devices
  derived : cs.deriveOwnerMaster owner.ecdhPriv ns = .ok master
  settled : look s .vault ≠ none
  under : Every (Under devices owner master) s

variable {owner : DeviceKey cs.toKeyPairs} {master : Bytes}

theorem Unclaimed.under (h : Unclaimed devices k r) : Under devices owner master k r := by
  cases k with
  | pair code => exact h
  | grant id => trivial
  | vault => exact h.elim
  | device id => exact h.elim
  | secret name => exact h.elim
  | enrol id => exact h.elim

theorem not_holds_unclaimed {m : Bytes} (hs : Every (Unclaimed devices) s) : ¬ v.Holds s m :=
  fun ⟨_, hrecord, _⟩ => hs _ _ hrecord

/-- The record of an owner opens to the master derived from its key. -/
theorem ownerRecord_opens (laws : cs.VaultLaws) {label : String} {record : Json}
    (h : v.ownerRecord env label = .ok record) :
    ∃ master, cs.deriveOwnerMaster v.device.ecdhPriv v.ns = .ok master ∧
      openMaster v.device record = .ok master := by
  obtain ⟨master, hderive, hrecord⟩ := Outcome.bind_eq_ok.mp h
  exact ⟨master, hderive, (enrolRecord_opens hrecord).2 laws⟩

/-- The first owner establishes its own master. -/
theorem Established.owned (laws : cs.VaultLaws) (hv : v.device ∈ devices) {label : String}
    (hs : Every (Unclaimed devices) s) (h : v.Established env label s t) :
    ∃ master, Owned devices v.ns v.device master t := by
  obtain ⟨record, howner, rfl⟩ := h
  obtain ⟨master, hderive, hopen⟩ := ownerRecord_opens laws howner
  refine ⟨master, hv, hderive, by simp, ?_⟩
  have hunder : Every (Under devices v.device master) s := fun k r hr => (hs k r hr).under
  have hrecord : Under devices v.device master (.device v.device.id) record :=
    ⟨v.device, hv, rfl, hopen⟩
  exact (hunder.place hrecord).place owner_metaRecord

/-- The call makes its device the owner: an `init` of a vault that was not there, or a
recovery. -/
def Claims (op : Op) (reply : Reply) : Prop :=
  ∃ label, (op = .init label ∧ reply = .flag true) ∨ op = .recover label

/-- Without an owner, an operation either makes its device the owner or adds no record that
needs one. -/
theorem Effect.unclaimed (laws : cs.VaultLaws) (h : Effect v env s op reply t)
    (hv : v.device ∈ devices) (hs : Every (Unclaimed devices) s) :
    Every (Unclaimed devices) t ∨
      (Claims op reply ∧ ∃ master, Owned devices v.ns v.device master t) := by
  cases h with
  | query q reply => exact .inl hs
  | found label hmeta => exact .inl hs
  | init label t hmeta h => exact .inr ⟨⟨label, .inl ⟨rfl, rfl⟩⟩, h.owned laws hv hs⟩
  | recover label t h => exact .inr ⟨⟨label, .inr rfl⟩, h.owned laws hv hs⟩
  | requestPairing label code =>
      exact .inl (hs.place (k := .pair code) ⟨v.device, hv, pub_pairRecord code label⟩)
  | approvePairing code req pubv id label master record hreq hpub hid hmaster =>
      exact absurd hmaster (not_holds_unclaimed hs)
  | issueEnrolToken label ttlSecs master secret box record token hmaster =>
      exact absurd hmaster (not_holds_unclaimed hs)
  | redeemEnrolToken token label id secretText label' secret master found record htoken hsecret
      hfound => exact (hs _ _ hfound).elim
  | revokeDevice => exact .inl hs.drop
  | putSecret name bytes kind master box info record hmaster =>
      exact absurd hmaster (not_holds_unclaimed hs)
  | deleteSecret => exact .inl hs.drop
  | issueGrant => exact .inl (hs.place trivial)
  | revokeGrant => exact .inl hs.drop

namespace Owned

variable {ns : String}

/-- A device that opens its enrollment record finds the master. -/
theorem holds_eq (hids : Set.InjOn DeviceKey.id devices) (hs : Owned devices ns owner master s)
    (hv : v.device ∈ devices) {m : Bytes} (h : v.Holds s m) : m = master := by
  obtain ⟨record, hrecord, hopen⟩ := h
  obtain ⟨d, hd, hid, hmaster⟩ := hs.under _ _ hrecord
  cases hids hd hv hid
  exact Except.ok.inj (hopen.symm.trans hmaster)

theorem place (hs : Owned devices ns owner master s) (hr : Under devices owner master k r) :
    Owned devices ns owner master (place s k r) where
  member := hs.member
  derived := hs.derived
  settled := by
    rw [look_place]
    split
    · exact Option.some_ne_none r
    · exact hs.settled
  under := hs.under.place hr

theorem drop (hs : Owned devices ns owner master s) (hk : k ≠ .vault) :
    Owned devices ns owner master (drop s k) where
  member := hs.member
  derived := hs.derived
  settled := by
    rw [look_drop, if_neg hk]
    exact hs.settled
  under := hs.under.drop

end Owned

/-- With an owner, an operation keeps owner and master, unless another device recovers. -/
theorem Effect.owned (laws : cs.VaultLaws) (hids : Set.InjOn DeviceKey.id devices)
    (h : Effect v env s op reply t) (hv : v.device ∈ devices)
    (hrecover : ∀ label, op = .recover label → v.device = owner)
    (hs : Owned devices v.ns owner master s) : Owned devices v.ns owner master t := by
  have hself : ∀ {label record},
      v.enrolRecord env (publicValue v.device) master label v.device.id = .ok record →
        Under devices owner master (.device v.device.id) record :=
    fun hrecord => ⟨v.device, hv, rfl, (enrolRecord_opens hrecord).2 laws⟩
  cases h with
  | query q reply => exact hs
  | found label hmeta => exact hs
  | init label t hmeta h => exact absurd hmeta hs.settled
  | recover label t h =>
      obtain ⟨record, hestablish, rfl⟩ := h
      obtain ⟨m, hderive, hopen⟩ := ownerRecord_opens laws hestablish
      have howner := hrecover label rfl
      rw [howner, hs.derived] at hderive
      cases hderive
      have hrecord : Under devices owner master (.device v.device.id) record :=
        ⟨v.device, hv, rfl, hopen⟩
      exact (hs.place hrecord).place (howner ▸ owner_metaRecord)
  | requestPairing label code =>
      exact hs.place (k := .pair code) ⟨v.device, hv, pub_pairRecord code label⟩
  | approvePairing code req pubv id label m record hreq hpub hid hmaster hrecord =>
      cases hs.holds_eq hids hv hmaster
      obtain ⟨d, hd, hdpub⟩ := hs.under _ _ hreq
      cases hpub.symm.trans hdpub
      have hname : d.id = id := Option.some.inj ((id_publicValue d).symm.trans hid)
      have hunder : Under devices owner master (.device id) record :=
        ⟨d, hd, hname, (enrolRecord_opens hrecord).2 laws⟩
      exact (hs.place hunder).drop (by simp)
  | issueEnrolToken label ttlSecs m secret box record token hmaster hsealed hfield =>
      cases hs.holds_eq hids hv hmaster
      exact hs.place (k := .enrol _) ⟨box, secret, _, hfield, hsealed⟩
  | redeemEnrolToken token label id secretText label' secret m found record htoken hsecret
      hfound hmaster hrecord =>
      obtain ⟨-, text, box, hfield, hbox, hopen⟩ := openToken_eq_ok.mp hmaster
      obtain ⟨box', secret', seed, hfield', hsealed⟩ := hs.under _ _ hfound
      cases hfield.symm.trans hfield'
      rw [laws.read_sealed] at hbox
      cases hbox
      cases laws.sealed_only hsealed hopen
      exact (hs.place (hself hrecord)).drop (by simp)
  | revokeDevice => exact hs.drop (by simp)
  | putSecret name bytes kind m box info record hmaster hsealed hinfo hrecord =>
      cases hs.holds_eq hids hv hmaster
      exact hs.place (k := .secret name) ⟨box, bytes, _, sealed_secretRecord hrecord, hsealed⟩
  | deleteSecret => exact hs.drop (by simp)
  | issueGrant => exact hs.place trivial
  | revokeGrant => exact hs.drop (by simp)

/-! ## The symbolic instance -/

theorem symbolic_enrolRecord (v : Vault .symbolic) (env : Moment .symbolic)
    (device : DeviceKey CeSecrets.symbolic.toKeyPairs) (master : Bytes) (label id : String) :
    ∃ record, v.enrolRecord env (publicValue device) master label id = .ok record :=
  v.enrolRecord_succeeds env label id (CeSecrets.symbolic_vaultLaws.read_jwk _) ⟨_, rfl⟩ fun _ =>
    ⟨_, rfl⟩

/-- Every device can recover, and then opens its record to a master that is its own key. -/
theorem symbolic_recovers (v : Vault .symbolic) (env : Moment .symbolic) (label : String)
    (s : OrdMap String Json) : ∃ record, openMaster v.device record = .ok v.device.ecdhPriv.1 ∧
      v.ownerRecord env label = .ok record ∧ (v.exec env (.recover label)).run memStore s =
        (.ok .unit, place (place s (.device v.device.id) record) .vault (v.metaRecord env)) := by
  obtain ⟨record, hrecord⟩ := symbolic_enrolRecord v env v.device v.device.ecdhPriv.1
    (if label = "" then "this device (owner)" else label) v.device.id
  have howner : v.ownerRecord env label = .ok record :=
    Outcome.bind_eq_ok.mpr ⟨_, rfl, hrecord⟩
  have hopen := (enrolRecord_opens hrecord).2 CeSecrets.symbolic_vaultLaws
  exact ⟨record, hopen, howner, exec_recover ⟨record, howner, rfl⟩⟩

/-! Two devices and a moment. -/

def laptop : DeviceKey CeSecrets.symbolic.toKeyPairs :=
  ⟨"laptop", Hex.filled 1, "laptop signing key"⟩

def phone : DeviceKey CeSecrets.symbolic.toKeyPairs :=
  ⟨"phone", Hex.filled 2, "phone signing key"⟩

def noon : Moment .symbolic where
  now := fun _ => "2026-06-26T12:00:00.000Z"
  nowSecs := fun _ => 0
  random := fun _ => 7
  seed := fun _ => ()

theorem injOn_laptop_phone : Set.InjOn DeviceKey.id {laptop, phone} := by
  rintro a (rfl | rfl) b (rfl | rfl) h
  · rfl
  · exact absurd h (by decide)
  · exact absurd h (by decide)
  · rfl

/-- The laptop becomes the owner of an empty store. -/
theorem laptop_recovers {devices : Set (DeviceKey CeSecrets.symbolic.toKeyPairs)}
    (h : laptop ∈ devices) : ∃ record s, openMaster laptop record = .ok laptop.ecdhPriv.1 ∧
      look s (.device laptop.id) = some record ∧ look s (.device phone.id) = none ∧
      (∃ r, look s .vault = some r ∧ strField r "owner" = some laptop.id) ∧
      called devices "home" ∅ ⟨laptop, noon, .recover "", .ok .unit⟩ s := by
  obtain ⟨record, hopen, -, hrun⟩ := symbolic_recovers ⟨laptop, "home"⟩ noon "" ∅
  have howner : strField (metaRecord ⟨laptop, "home"⟩ noon) "owner" = some laptop.id :=
    owner_metaRecord
  refine ⟨record, _, hopen, ?_, ?_, ⟨_, ?_, howner⟩, h, hrun⟩
  · simp
  · have hne : laptop.id ≠ phone.id := by decide
    simp [hne]
  · simp

end CeIam.Vault
