import CeIam.Library.Guarantees
import CeIam.Verification.Vault.Records
import CeIam.Verification.Vault.Rotation

/-! # Vault operations that take turns

Operations of several devices share the store, one call at a time, and calls may fail. As long as
one device alone makes itself the owner, what one operation writes can be read by every other: all
enrollments open to one master, and a secret is read as one of the calls has put it. -/

namespace CeIam

theorem memStore_faithful : memStore.Faithful where
  get_put := by
    intro s k v l w h
    rw [memStore_get, memStore_put, OrdMap.get_insert] at h
    split at h
    · next hkey => exact .inl ⟨hkey.symm, (Option.some.inj h).symm⟩
    · exact .inr h
  get_del := by
    intro s k l w h
    rw [memStore_get, memStore_del, OrdMap.get_erase] at h
    split at h
    · cases h
    · exact h
  mem_list := fun h => (OrdMap.mem_scanPrefix.mp h).1

namespace Vault

open StoreProg

/-! ## Queries -/

/-- The prefix that a query lists. -/
def Query.listed : Query → Option String
  | .listPairing => some "p."
  | .listDevices => some "d."
  | .listSecrets => some "s."
  | .listGrants => some "g."
  | _ => none

/-- The prefix that an operation lists. -/
def Op.listed : Op → Option String
  | .query q => q.listed
  | _ => none

section Queries

variable {cs : CeSecrets} {v : Vault cs} {L : String → Prop} {R G : String → Json → Prop}

theorem loadMaster_guarantees : v.loadMaster.Guarantees L R G
    (fun m => ∃ record, R (deviceKey v.device.id) record ∧ openMaster v.device record = .ok m) := by
  refine (guarantees_fetch _).bind fun found hfound => ?_
  refine (guarantees_require _ _).bind fun record hrecord => ?_
  exact (guarantees_lift _).mono fun m hm => ⟨record, hfound record hrecord, hm⟩

theorem getSecret_guarantees (name : String) : (v.getSecret name).Guarantees L R G
    (fun secret => ∃ record master, R (secretKey name) record ∧
      (∃ device, R (deviceKey v.device.id) device ∧ openMaster v.device device = .ok master) ∧
      openSecret cs master record = .ok secret) := by
  refine (guarantees_fetch _).bind fun found hfound => ?_
  refine (guarantees_require _ _).bind fun record hrecord => ?_
  refine loadMaster_guarantees.bind fun master hmaster => ?_
  exact (guarantees_lift _).mono fun secret hsecret =>
    ⟨record, master, hfound record hrecord, hmaster, hsecret⟩

theorem verifyGrant_guarantees (token audience action name : String) (nowMs : Int) :
    (verifyGrant cs token audience action name nowMs).Guarantees L R G (fun _ => True) := by
  refine (guarantees_lift _).bind fun grant _ => ?_
  refine (guarantees_require _ _).bind fun issuer _ => ?_
  refine (guarantees_fetch _).bind fun device _ => (guarantees_require _ _).bind fun device _ => ?_
  refine .check fun _ => (guarantees_require _ _).bind fun id _ => ?_
  exact (guarantees_fetch _).bind fun stored _ => .check fun _ =>
    (guarantees_lift _).mono fun _ _ => trivial

theorem verifyAuth_guarantees (aud nonce : String) (proof : Json) :
    (verifyAuth cs aud nonce proof).Guarantees L R G (fun _ => True) := by
  unfold verifyAuth
  refine .check fun _ => ?_
  refine (guarantees_require _ _).bind fun sig _ => (guarantees_require _ _).bind fun key _ => ?_
  refine .check fun _ => .check fun _ => (guarantees_require _ _).bind fun deviceId _ => ?_
  refine (guarantees_fetch _).bind fun device _ => (guarantees_require _ _).bind fun device _ => ?_
  refine .check fun _ => (guarantees_require _ _).bind fun ts _ => ?_
  refine (guarantees_lift _).bind fun jwk _ => (guarantees_lift _).bind fun valid _ => ?_
  exact .check fun _ => guarantees_pure trivial

/-- A query writes nothing. -/
theorem ask_guarantees (q : Query) (hlisted : ∀ p, q.listed = some p → L p) :
    (v.ask q).Guarantees L R G (fun _ => True) := by
  cases q with
  | loadMaster => exact loadMaster_guarantees.reply
  | getSecret name => exact (getSecret_guarantees name).reply
  | verifyGrant token audience action name nowMs => exact (verifyGrant_guarantees ..).reply
  | verifyAuth aud nonce proof => exact (verifyAuth_guarantees ..).reply
  | vaultExists => exact (guarantees_fetched _ _).reply
  | isEnrolled => exact (guarantees_fetched _ _).reply
  | fingerprint name => exact (guarantees_fetched _ _).reply
  | listPairing => exact (guarantees_scanned (hlisted _ rfl) _).reply
  | listDevices => exact (guarantees_scanned (hlisted _ rfl) _).reply
  | listSecrets => exact (guarantees_scanned (hlisted _ rfl) _).reply
  | listGrants => exact (guarantees_scanned (hlisted _ rfl) _).reply

/-! ## Operations that rely on nothing -/

variable {moment : Moment cs}

theorem init_guarantees {label : String}
    (hrecover : (v.recover moment label).Guarantees L R G (fun _ => True)) :
    (v.init moment label).Guarantees L R G (fun _ => True) := by
  refine (guarantees_fetched _ _).andThen fun found => ?_
  cases found with
  | true => exact guarantees_pure trivial
  | false => exact hrecover.andThen fun _ => guarantees_pure trivial

theorem requestPairing_guarantees {label : String}
    (hwrite : ∀ code, G (pairKey code) (v.pairRecord moment code label)) :
    (v.requestPairing moment label).Guarantees L R G (fun _ => True) :=
  (guarantees_store (hwrite _)).andThen fun _ => guarantees_pure trivial

theorem revokeDevice_guarantees (id : String) :
    (v.revokeDevice id).Guarantees L R G (fun _ => True) := by
  rw [revokeDevice]
  split
  · exact guarantees_fail _
  · exact guarantees_remove _

theorem issueGrant_guarantees {audience : String} {read : List String} {expires : Option String}
    (hwrite : ∀ id sig, G (grantKey id) (v.grantRecord moment audience read expires sig)) :
    (v.issueGrant moment audience read expires).Guarantees L R G (fun _ => True) := by
  refine (guarantees_fetched _ _).andThen fun found => .check fun _ => ?_
  refine (guarantees_lift _).andThen fun sig => ?_
  exact (guarantees_store (hwrite _ _)).andThen fun _ => guarantees_pure trivial

end Queries

/-! ## What an operation may write -/

/-- The predicate of the key that a text is. -/
def Filed (P : Key → Json → Prop) (text : String) (r : Json) : Prop := ∀ k, k.text = text → P k r

theorem filed_text {P : Key → Json → Prop} {k : Key} {r : Json} : Filed P k.text r ↔ P k r := by
  constructor
  · exact fun h => h k rfl
  · intro h l hl
    cases Key.text_injective hl
    exact h

section Written

variable {cs : CeSecrets} {devices : Set (DeviceKey cs.toKeyPairs)} {master : Bytes}
  {v : Vault cs} {env : Moment cs} {op : Op} {L : String → Prop} {R : String → Json → Prop}

/-- The records of an operation when all enrollments open to one master: a secret is the one that
the operation puts. -/
def Written (devices : Set (DeviceKey cs.toKeyPairs)) (master : Bytes) (op : Op) :
    Key → Json → Prop
  | .vault, _ => True
  | .device id, r => ∃ d ∈ devices, d.id = id ∧ openMaster d r = .ok master
  | .pair _, r => ∃ d ∈ devices, r.field "pub" = some (publicValue d)
  | .secret name, r => ∃ bytes kind, op = .putSecret name bytes kind ∧
      openSecret cs master r = .ok ⟨bytes, kind, none⟩
  | .enrol _, r => ∃ box secret seed, r.field "sealed" = some (cs.sealedToJson box) ∧
      cs.sealSecret secret master seed = .ok box
  | .grant _, _ => True

/-- The records that are read were written by operations. -/
def Relied (devices : Set (DeviceKey cs.toKeyPairs)) (master : Bytes) (R : String → Json → Prop) :
    Prop :=
  ∀ k r, R k r → ∃ op, Filed (Written devices master op) k r

theorem pub_of_openSecret {record : Json} {secret : RevealedSecret}
    (h : openSecret cs master record = .ok secret) : strField record "public" = secret.pub := by
  obtain ⟨text, -, hrest⟩ := Outcome.bind_eq_ok.mp h
  obtain ⟨box, -, hlast⟩ := Outcome.bind_eq_ok.mp hrest
  obtain ⟨bytes, -, hret⟩ := Outcome.bind_eq_ok.mp hlast
  cases hret
  rfl

/-- The next version of a secret without a public half has none. -/
theorem nextMeta_private {name : String} {bytes : Bytes} {kind : String} {prev : Option Json}
    {info : SecretMeta} (hprev : ∀ r, prev = some r → strField r "public" = none)
    (h : nextMeta env name bytes kind none false prev = .ok info) :
    info.version < UInt64.size ∧ info.kind = kind ∧ info.pub = none := by
  have hpub : prev.bind (strField · "public") = none := by
    cases prev with
    | none => rfl
    | some r => exact hprev r rfl
  rw [nextMeta] at h
  split at h
  · next hfits =>
      cases h
      exact ⟨hfits, rfl, hpub⟩
  · cases h

/-- The record of a secret without a public half opens to what was put. -/
theorem openSecret_of_record (laws : cs.VaultLaws) {name : String} {bytes : Bytes} {kind : String}
    {prev : Option Json} {info : SecretMeta} {box : cs.SealedSecret} {record : Json}
    (seed : cs.Seed)
    (hprev : ∀ r, prev = some r → strField r "public" = none)
    (hbox : cs.sealSecret master bytes seed = .ok box)
    (hinfo : nextMeta env name bytes kind none false prev = .ok info)
    (hrecord : v.secretRecord env info box = .ok record) :
    openSecret cs master record = .ok ⟨bytes, kind, none⟩ := by
  obtain ⟨hversion, hkind, hpub⟩ := nextMeta_private hprev hinfo
  obtain ⟨-, htype, hpublic, -, -, -, hsealed⟩ := fields_secretRecord hrecord hversion
  have hopened : cs.decryptSecret master box = .ok bytes := laws.decrypt_seal hbox
  simp only [openSecret, hsealed, htype, hpublic, hkind, hpub, Outcome.require, Outcome.ok_bind,
    laws.read_sealed, hopened, context_ok, Option.getD_some]
  rfl

variable (hids : Set.InjOn DeviceKey.id devices) (hv : v.device ∈ devices)
  (hrely : Relied devices master R)

include hids hv hrely

/-- A device that opens its enrollment finds the one master. -/
theorem Relied.finds {record : Json} {m : Bytes} (hread : R (deviceKey v.device.id) record)
    (hopen : openMaster v.device record = .ok m) : m = master := by
  obtain ⟨op, hwritten⟩ := hrely _ _ hread
  obtain ⟨d, hd, hid, hmaster⟩ := hwritten (.device v.device.id) rfl
  cases hids hd hv hid
  exact Except.ok.inj (hopen.symm.trans hmaster)

theorem loadMaster_finds : v.loadMaster.Guarantees L R (Filed (Written devices master op))
    (fun m => m = master) :=
  loadMaster_guarantees.mono fun _ ⟨_, hread, hopen⟩ => hrely.finds hids hv hread hopen

omit hids hv hrely

theorem enroll_writes (laws : cs.VaultLaws) {d : DeviceKey cs.toKeyPairs} (hd : d ∈ devices)
    (label : String) :
    (v.enroll env (publicValue d) master label d.id).Guarantees L R
      (Filed (Written devices master op)) (fun _ => True) := by
  refine (guarantees_lift _).bind fun record hrecord => guarantees_store ?_
  exact (filed_text (k := .device d.id)).mpr ⟨d, hd, rfl, (enrolRecord_opens hrecord).2 laws⟩

include hv

theorem recover_writes (laws : cs.VaultLaws)
    (howner : cs.deriveOwnerMaster v.device.ecdhPriv v.ns = .ok master) (label : String) :
    (v.recover env label).Guarantees L R (Filed (Written devices master op)) (fun _ => True) := by
  refine (guarantees_lift _).bind fun m hm => ?_
  cases Except.ok.inj ((context_eq_ok.mp hm).symm.trans howner)
  refine (enroll_writes laws hv _).andThen fun _ => guarantees_store ?_
  exact (filed_text (k := .vault)).mpr trivial

include hids hrely

theorem approvePairing_writes (laws : cs.VaultLaws) (code : String) :
    (v.approvePairing env code).Guarantees L R (Filed (Written devices master op))
      (fun _ => True) := by
  refine (guarantees_fetch _).bind fun found hfound => ?_
  refine (guarantees_require _ _).bind fun req hreq => ?_
  refine (guarantees_require _ _).bind fun pubv hpub => ?_
  refine (guarantees_require _ _).bind fun id hid => ?_
  -- A request carries the public half of the device that it names.
  obtain ⟨op', hwritten⟩ := hrely _ _ (hfound req hreq)
  obtain ⟨d, hd, hdpub⟩ := hwritten (.pair code) rfl
  cases hpub.symm.trans hdpub
  cases (id_publicValue d).symm.trans hid
  refine (loadMaster_finds hids hv hrely).bind fun m hm => ?_
  subst hm
  exact (enroll_writes laws hd _).andThen fun _ =>
    (guarantees_remove _).andThen fun _ => guarantees_pure trivial

theorem issueEnrolToken_writes (label : String) (ttlSecs : UInt64) :
    (v.issueEnrolToken env label ttlSecs).Guarantees L R (Filed (Written devices master op))
      (fun _ => True) := by
  refine (loadMaster_finds hids hv hrely).bind fun m hm => ?_
  subst hm
  refine (guarantees_lift _).bind fun box hbox => (guarantees_lift _).bind fun expires _ => ?_
  refine (guarantees_store ?_).andThen fun _ => guarantees_pure trivial
  refine (filed_text (k := .enrol _)).mpr ⟨box, _, _, ?_, context_eq_ok.mp hbox⟩
  simp [Json.field_ofFields]

omit hids in
theorem redeemEnrolToken_writes (laws : cs.VaultLaws) (token label : String) :
    (v.redeemEnrolToken env token label).Guarantees L R (Filed (Written devices master op))
      (fun _ => True) := by
  rw [redeemEnrolToken_steps]
  refine (guarantees_lift _).bind fun parts _ => (guarantees_fetch _).bind fun found hfound => ?_
  refine (guarantees_require _ _).bind fun record hrecord => ?_
  refine (guarantees_lift _).bind fun m hm => ?_
  -- What a token opens to is what was sealed in its record.
  obtain ⟨op', hwritten⟩ := hrely _ _ (hfound record hrecord)
  obtain ⟨box, secret, seed, hfield, hsealed⟩ := hwritten (.enrol parts.1) rfl
  obtain ⟨-, text, box', hfield', hbox, hopen⟩ := openToken_eq_ok.mp hm
  cases hfield'.symm.trans hfield
  cases hbox.symm.trans (laws.read_sealed box)
  cases laws.sealed_only hsealed hopen
  exact (enroll_writes laws hv _).andThen fun _ => guarantees_remove _

theorem putSecret_writes (laws : cs.VaultLaws) (name : String) (bytes : Bytes) (kind : String) :
    (v.putSecret env name bytes kind).Guarantees L R
      (Filed (Written devices master (.putSecret name bytes kind))) (fun _ => True) := by
  refine (loadMaster_finds hids hv hrely).bind fun m hm => ?_
  subst hm
  refine (guarantees_lift _).bind fun box hbox => (guarantees_fetch _).bind fun prev hprev => ?_
  refine (guarantees_lift _).bind fun info hinfo => (guarantees_lift _).bind fun record hrecord => ?_
  refine (guarantees_store ?_).andThen fun _ => guarantees_pure trivial
  refine (filed_text (k := .secret name)).mpr ⟨bytes, kind, rfl, ?_⟩
  refine openSecret_of_record laws _ (fun r hr => ?_) (context_eq_ok.mp hbox) hinfo hrecord
  obtain ⟨op', hwritten⟩ := hrely _ _ (hprev r hr)
  obtain ⟨bytes', kind', -, hopen⟩ := hwritten (.secret name) rfl
  exact pub_of_openSecret hopen

/-- The operation writes what it may, when only the device whose own master is the one of all
enrollments makes itself the owner. -/
theorem exec_writes (laws : cs.VaultLaws)
    (howner : (∃ label, op = .init label ∨ op = .recover label) →
      cs.deriveOwnerMaster v.device.ecdhPriv v.ns = .ok master) :
    (v.exec env op).Guarantees (fun _ => True) R (Filed (Written devices master op))
      (fun _ => True) := by
  cases op with
  | query q => exact ask_guarantees q fun _ _ => trivial
  | init label =>
      exact (init_guarantees (recover_writes hv laws (howner ⟨label, .inl rfl⟩) label)).reply
  | recover label => exact (recover_writes hv laws (howner ⟨label, .inr rfl⟩) label).reply
  | requestPairing label =>
      refine (requestPairing_guarantees fun code => ?_).reply
      exact (filed_text (k := .pair code)).mpr ⟨v.device, hv, pub_pairRecord code label⟩
  | approvePairing code => exact (approvePairing_writes hids hv hrely laws code).reply
  | issueEnrolToken label ttlSecs =>
      exact (issueEnrolToken_writes hids hv hrely label ttlSecs).reply
  | redeemEnrolToken token label => exact (redeemEnrolToken_writes hv hrely laws token label).reply
  | revokeDevice id => exact (revokeDevice_guarantees id).reply
  | putSecret name bytes kind => exact (putSecret_writes hids hv hrely laws name bytes kind).reply
  | deleteSecret name => exact (guarantees_remove _).reply
  | issueGrant audience read expires =>
      exact (issueGrant_guarantees fun id _ => (filed_text (k := .grant id)).mpr trivial).reply
  | revokeGrant id => exact (guarantees_remove _).reply

/-- A secret that is revealed is what a record under its name opens to. -/
def Found (cs : CeSecrets) (master : Bytes) (R : String → Json → Prop) (op : Op) (reply : Reply) :
    Prop :=
  ∀ name, op = .query (.getSecret name) → ∃ record secret, reply = .revealed secret ∧
    R (secretKey name) record ∧ openSecret cs master record = .ok secret

theorem exec_finds (laws : cs.VaultLaws)
    (howner : (∃ label, op = .init label ∨ op = .recover label) →
      cs.deriveOwnerMaster v.device.ecdhPriv v.ns = .ok master) :
    (v.exec env op).Guarantees (fun _ => True) R (Filed (Written devices master op))
      (Found cs master R op) := by
  by_cases hget : ∃ name, op = .query (.getSecret name)
  · obtain ⟨name, rfl⟩ := hget
    refine (getSecret_guarantees name).map fun secret hsecret => ?_
    obtain ⟨record, m, hread, ⟨device, hdevice, hmaster⟩, hopen⟩ := hsecret
    cases hrely.finds hids hv hdevice hmaster
    intro name' hname
    cases hname
    exact ⟨record, secret, rfl, hread, hopen⟩
  · exact (exec_writes hids hv hrely laws howner).mono fun _ _ name hname =>
      absurd ⟨name, hname⟩ hget

end Written

/-! ## Operations of several devices -/

section Turns

variable {cs : CeSecrets} {ι : Type} [DecidableEq ι] {device : ι → DeviceKey cs.toKeyPairs}
  {ns : String} {env : ι → Moment cs} {op : ι → Op} {owner : DeviceKey cs.toKeyPairs}
  {master : Bytes} {events : List (StoreEvent ι String Json String)}
  {d : Shared (OrdMap String Json) ι String Json String Reply}

/-- However operations of several devices take turns at the calls of an empty store, and whichever
calls fail, as long as only one device makes itself the owner: every enrollment opens to its master
for the device that it names, every secret opens to what one of the operations has put under its
name, and that is what an operation that reads it returns. -/
theorem turns_safe (laws : cs.VaultLaws) (hids : Set.InjOn DeviceKey.id (Set.range device))
    (hmaster : cs.deriveOwnerMaster owner.ecdhPriv ns = .ok master)
    (howner : ∀ i label, op i = .init label ∨ op i = .recover label → device i = owner)
    (hrun : Run (interleaved memStore)
      ⟨∅, fun i => exec ⟨device i, ns⟩ (env i) (op i)⟩ events d) :
    (∀ id record, d.store[deviceKey id]? = some record →
      ∃ i, (device i).id = id ∧ openMaster (device i) record = .ok master) ∧
    (∀ name record, d.store[secretKey name]? = some record →
      ∃ e ∈ events, ∃ bytes kind, e.call = .put (secretKey name) record ∧
        op e.who = .putSecret name bytes kind ∧
        openSecret cs master record = .ok ⟨bytes, kind, none⟩) ∧
    ∀ i name r, op i = .query (.getSecret name) → d.prog i = .done (.ok r) →
      ∃ e ∈ events, ∃ record bytes kind, e.call = .put (secretKey name) record ∧
        op e.who = .putSecret name bytes kind ∧ r = .revealed ⟨bytes, kind, none⟩ := by
  let R := PutBy (fun i => Filed (Written (Set.range device) master (op i))) events
  have hrely : Relied (Set.range device) master R := by
    intro k r hput
    obtain ⟨e, -, -, hwritten⟩ := hput
    exact ⟨op e.who, hwritten⟩
  have hempty : ∀ k, memStore.get ∅ k = none := fun k => OrdMap.get_empty k
  obtain ⟨hstore, hprog⟩ := hrun.guarantees memStore_faithful (L := fun _ => True) (R := R)
    (Q := fun i => Found cs master R (op i)) hempty (fun _ _ h => h)
    fun i => exec_finds hids (Set.mem_range_self i) hrely laws fun ⟨label, h⟩ => by
      rw [howner i label h]
      exact hmaster
  have hsecrets : ∀ {name record}, R (secretKey name) record →
      ∃ e ∈ events, ∃ bytes kind, e.call = .put (secretKey name) record ∧
        op e.who = .putSecret name bytes kind ∧
        openSecret cs master record = .ok ⟨bytes, kind, none⟩ := by
    intro name record hput
    obtain ⟨e, he, hcall, hwritten⟩ := hput
    obtain ⟨bytes, kind, hop, hopen⟩ := hwritten (.secret name) rfl
    exact ⟨e, he, bytes, kind, hcall, hop, hopen⟩
  refine ⟨fun id record hrecord => ?_, fun name record hrecord => hsecrets (hstore _ _ hrecord), ?_⟩
  · obtain ⟨e, -, -, hwritten⟩ := hstore _ _ hrecord
    obtain ⟨_, ⟨i, rfl⟩, hid, hopen⟩ := hwritten (.device id) rfl
    exact ⟨i, hid, hopen⟩
  · intro i name r hop hdone
    have hfound := hprog i
    rw [hdone] at hfound
    obtain ⟨record, secret, rfl, hread, hopened⟩ := hfound r rfl name hop
    obtain ⟨e, he, bytes, kind, hcall, hput, hopen⟩ := hsecrets hread
    cases hopen.symm.trans hopened
    exact ⟨e, he, record, bytes, kind, hcall, hput, rfl⟩

end Turns

/-! ## Two devices that store and read one secret -/

/-- The laptop becomes the owner and issues a token, the phone redeems it, and both store a secret,
which the phone also reads. -/
inductive Turn where
  | recovering
  | issuing
  | redeeming
  | putting (i : Bool)
  | reading
deriving DecidableEq

def Turn.device : Turn → DeviceKey CeSecrets.symbolic.toKeyPairs
  | .recovering | .issuing => laptop
  | .redeeming | .reading => phone
  | .putting i => (writer i).device

def Turn.op (token : String) : Turn → Op
  | .recovering => .recover ""
  | .issuing => .issueEnrolToken "ci" 600
  | .redeeming => .redeemEnrolToken token ""
  | .putting i => .putSecret "db" (draft i) "opaque"
  | .reading => .query (.getSecret "db")

theorem injOn_turns : Set.InjOn DeviceKey.id (Set.range Turn.device) := by
  refine injOn_laptop_phone.mono ?_
  rintro _ ⟨i, rfl⟩
  cases i with
  | recovering => exact .inl rfl
  | issuing => exact .inl rfl
  | redeeming => exact .inr rfl
  | putting i => cases i <;> simp [Turn.device, writer]
  | reading => exact .inr rfl

theorem op_putSecret {token name : String} {i : Turn} {j : Bool} {kind : String}
    (h : i.op token = .putSecret name (draft j) kind) : i = .putting j := by
  cases i with
  | putting i =>
      cases i <;> cases j
      · rfl
      · exact absurd (Op.putSecret.inj h).2.1 (by decide)
      · exact absurd (Op.putSecret.inj h).2.1 (by decide)
      · rfl
  | _ => cases h

/-- A call is the events of its operation while the others wait. -/
theorem alone_of_called {devices : Set (DeviceKey CeSecrets.symbolic.toKeyPairs)} {ns : String}
    {s t : OrdMap String Json} {c : Call .symbolic} (h : called devices ns s c t) {i : Turn}
    {p : Turn → Prog Reply} (hp : p i = exec ⟨c.device, ns⟩ c.env c.op) :
    AloneTo memStore i ⟨s, p⟩ ⟨t, Function.update p i (.done c.result)⟩ := by
  have halone := run_alone (b := memStore) (c := ⟨s, p⟩) hp
  rw [h.2] at halone
  exact halone

theorem symbolic_put {v : Vault .symbolic} {s : OrdMap String Json} {master : Bytes}
    (h : v.Holds s master) (name : String) (bytes : Bytes) (kind : String) :
    ∃ f : Option Json → Prog Reply,
      v.exec noon (.putSecret name bytes kind) = .get (deviceKey v.device.id) f ∧
        f (look s (.device v.device.id)) = .get (secretKey name) fun prev =>
          .secret <$> publish name (v.revision noon name bytes kind (master, bytes) prev) := by
  obtain ⟨f, hcall, hf⟩ := symbolic_putSecret h name bytes kind
  refine ⟨fun found => .secret <$> f found, ?_, ?_⟩
  · change Reply.secret <$> v.putSecret noon name bytes kind = _
    rw [hcall]
    rfl
  · exact congrArg (Reply.secret <$> ·) hf

/-- The first version of a secret, and what its record opens to. -/
theorem symbolic_first (v : Vault .symbolic) (master : Bytes) (name : String) (bytes : Bytes)
    (kind : String) : ∃ info record,
      v.revision noon name bytes kind (master, bytes) none = .ok (info, record) ∧
        info.version = 1 ∧ openSecret .symbolic master record = .ok ⟨bytes, kind, none⟩ := by
  obtain ⟨info, record, hrevision, hversion, -⟩ :=
    symbolic_revision v name bytes kind (master, bytes) none (by decide)
  obtain ⟨info', hinfo, hrest⟩ := Outcome.bind_eq_ok.mp hrevision
  obtain ⟨record', hrecord, hlast⟩ := Outcome.bind_eq_ok.mp hrest
  cases hlast
  exact ⟨info, record, hrevision, hversion, openSecret_of_record CeSecrets.symbolic_vaultLaws
    (noon.seed 0) (fun r hr => by cases hr) rfl hinfo hrecord⟩

/-- A device that holds the master reads what the record of a secret opens to. -/
theorem holder_reads {v : Vault .symbolic} {s : OrdMap String Json} {master : Bytes}
    (h : v.Holds s master) {name : String} {record : Json} {secret : RevealedSecret}
    (hstored : look s (.secret name) = some record)
    (hopen : openSecret .symbolic master record = .ok secret) :
    (v.exec noon (.query (.getSecret name))).run memStore s = (.ok (.revealed secret), s) :=
  (run_map_ok memStore).mpr
    ⟨secret, getSecret_ok.mpr ⟨record, master, hstored, h, hopen, rfl⟩, rfl⟩

/-- Both devices read the missing secret, and then the laptop writes it. -/
theorem laptop_writes_first {u : OrdMap String Json} {master : Bytes} {p : Turn → Prog Reply}
    (hholds : ∀ i, (writer i).Holds u master) (hnone : look u (.secret "db") = none)
    (hp : ∀ i, p (.putting i) = (writer i).exec noon (.putSecret "db" (draft i) "opaque")) :
    ∃ (info : Bool → SecretMeta) (record : Bool → Json), (∀ i, (info i).version = 1 ∧
        openSecret .symbolic master (record i) = .ok ⟨draft i, "opaque", none⟩) ∧
      ∃ events p', Run (interleaved memStore) ⟨u, p⟩ events
          ⟨place u (.secret "db") (record true), p'⟩ ∧
        p' (.putting true) = .done (.ok (.secret (info true))) ∧
        p' (.putting false) =
          .put (secretKey "db") (record false) (.done (.ok (.secret (info false)))) ∧
        p' .reading = p .reading := by
  choose f hcall hf using fun i => symbolic_put (hholds i) "db" (draft i) "opaque"
  choose info record hrevision hinfo hopen using
    fun i => symbolic_first (writer i) master "db" (draft i) "opaque"
  let q (i : Bool) : Prog Reply := .get (secretKey "db") fun prev => .secret <$> publish "db"
    ((writer i).revision noon "db" (draft i) "opaque" (master, draft i) prev)
  let w (i : Bool) : Prog Reply := .put (secretKey "db") (record i) (.done (.ok (.secret (info i))))
  have hfound (i : Bool) : (.secret <$> publish "db" ((writer i).revision noon "db" (draft i)
      "opaque" (master, draft i) (look u (.secret "db"))) : Prog Reply) = w i := by
    rw [hnone, hrevision i]
    rfl
  let p₁ := Function.update p (.putting true) (q true)
  let p₂ := Function.update p₁ (.putting false) (q false)
  let p₃ := Function.update p₂ (.putting true) (w true)
  let p₄ := Function.update p₃ (.putting false) (w false)
  have hloads := get_interleaved (b := memStore) (c := ⟨u, p⟩) (i := .putting true)
    ((hp true).trans (hcall true)) (hf true)
  have hloads' := get_interleaved (b := memStore) (c := ⟨u, p₁⟩) (i := .putting false)
    ((hp false).trans (hcall false)) (hf false)
  have hreads := get_interleaved (b := memStore) (c := ⟨u, p₂⟩) (i := .putting true) rfl
    (hfound true)
  have hreads' := get_interleaved (b := memStore) (c := ⟨u, p₃⟩) (i := .putting false) rfl
    (hfound false)
  have hwrites := put_interleaved (b := memStore) (c := ⟨u, p₄⟩) (i := .putting true)
    (k := secretKey "db") (v := record true) (x := .done (.ok (.secret (info true)))) rfl
  have hbefore := (((Run.single hloads).snoc hloads').snoc hreads).snoc hreads'
  exact ⟨info, record, fun i => ⟨hinfo i, hopen i⟩, _, _, hbefore.snoc hwrites, rfl, rfl, rfl⟩

/-- Both devices read the secret before either writes it, and the phone reads it again after the
laptop has written and before it writes itself. -/
theorem turns_safe_writers : ∃ token events d info info' record,
    Run (interleaved memStore) ⟨∅, fun i => exec ⟨Turn.device i, "home"⟩ noon (i.op token)⟩
      events d ∧
    d.prog (.putting true) = .done (.ok (.secret info)) ∧ info.version = 1 ∧
    d.prog (.putting false) = .done (.ok (.secret info')) ∧ info'.version = 1 ∧
    d.store[secretKey "db"]? = some record ∧
    d.prog .reading = .done (.ok (.revealed ⟨draft true, "opaque", none⟩)) ∧
    (∀ i, ∃ r, d.store[deviceKey (writer i).device.id]? = some r ∧
      openMaster (writer i).device r = .ok laptop.ecdhPriv.1) ∧
    (∃ e ∈ events, e.who = .putting false ∧ e.call = .put (secretKey "db") record ∧
      openSecret .symbolic laptop.ecdhPriv.1 record = .ok ⟨draft false, "opaque", none⟩) ∧
    ∃ e ∈ events, ∃ r, e.who = .putting true ∧ e.call = .put (secretKey "db") r := by
  obtain ⟨s, t, u, token, hrecover, hissue, hredeem, hholds, hnone⟩ := writers_enrolled
  let p (i : Turn) := exec ⟨Turn.device i, "home"⟩ noon (i.op token)
  obtain ⟨_, -, hrecovers⟩ := alone_of_called hrecover (i := .recovering) (p := p) rfl
  obtain ⟨_, -, hissues⟩ := alone_of_called hissue (i := .issuing)
    (p := Function.update p .recovering (.done (.ok .unit))) rfl
  let p₂ := Function.update (Function.update p .recovering (.done (.ok .unit))) .issuing
    (.done (.ok (.text token)))
  obtain ⟨_, -, hredeems⟩ := alone_of_called hredeem (i := .redeeming) (p := p₂) rfl
  let p₃ := Function.update p₂ .redeeming (.done (.ok .unit))
  obtain ⟨info, record, hfirst, _, p₄, hwrites, hlaptop, hphone, hwaits⟩ :=
    laptop_writes_first (p := p₃) hholds hnone fun i => by cases i <;> rfl
  -- The phone reads what the laptop has written, and then writes.
  let x := place u (.secret "db") (record true)
  have hget : (exec ⟨phone, "home"⟩ noon (.query (.getSecret "db"))).run memStore x =
      (.ok (.revealed ⟨draft true, "opaque", none⟩), x) := by
    obtain ⟨r, hr, hmaster⟩ := hholds false
    exact holder_reads ⟨r, by simpa [x, writer] using hr, hmaster⟩ (by simp [x]) (hfirst true).2
  have hreading := run_alone (b := memStore) (c := ⟨x, p₄⟩) (i := .reading) hwaits
  have hrest : p₃ .reading = exec ⟨phone, "home"⟩ noon (.query (.getSecret "db")) := rfl
  rw [hrest, hget] at hreading
  obtain ⟨_, -, hreads⟩ := hreading
  let p₅ := Function.update p₄ .reading (.done (.ok (.revealed ⟨draft true, "opaque", none⟩)))
  have hready : p₅ (.putting false) =
      .put (secretKey "db") (record false) (.done (.ok (.secret (info false)))) := hphone
  have hlast := put_interleaved (b := memStore) (c := ⟨x, p₅⟩) (i := .putting false) hready
  have henrolled := (hrecovers.append hissues).append hredeems
  have hrun := ((henrolled.append hwrites).append hreads).snoc hlast
  have hderived : CeSecrets.symbolic.deriveOwnerMaster laptop.ecdhPriv "home" =
      .ok laptop.ecdhPriv.1 := rfl
  obtain ⟨hdevices, hsecrets, hreplies⟩ := turns_safe CeSecrets.symbolic_vaultLaws injOn_turns
    hderived (fun i label h => by cases i <;> simp_all [Turn.op, Turn.device]) hrun
  have hstored : look (place x (.secret "db") (record false)) (.secret "db") =
      some (record false) := by
    simp
  refine ⟨token, _, _, info true, info false, record false, hrun, hlaptop, (hfirst true).1, rfl,
    (hfirst false).1, hstored, rfl, fun i => ?_, ?_, ?_⟩
  · obtain ⟨r, hr, -⟩ := hholds i
    have henrolled : look (place x (.secret "db") (record false))
        (.device (writer i).device.id) = some r := by simpa [x] using hr
    obtain ⟨j, hid, hmaster⟩ := hdevices _ r henrolled
    have hsame : Turn.device j = (writer i).device := injOn_turns ⟨j, rfl⟩ ⟨.putting i, rfl⟩ hid
    rw [hsame] at hmaster
    exact ⟨r, henrolled, hmaster⟩
  · obtain ⟨e, he, bytes, kind, hput, hop, hopened⟩ := hsecrets "db" (record false) hstored
    cases (hfirst false).2.symm.trans hopened
    exact ⟨e, he, op_putSecret hop, hput, hopened⟩
  · obtain ⟨e, he, r, bytes, kind, hput, hop, hreply⟩ := hreplies .reading "db" _ rfl rfl
    cases hreply
    exact ⟨e, he, r, op_putSecret hop, hput⟩

end Vault

end CeIam
