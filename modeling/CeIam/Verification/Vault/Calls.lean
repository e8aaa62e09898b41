import CeIam.Library.Run
import CeIam.Verification.Vault.Keys

/-! # Calls of vault operations

Devices share one store and call the operations one after another. A call that fails
leaves the store as it was; the effect of one that succeeds is stated here once, for
every operation. -/

namespace CeIam.Vault

open Outcome (Abort)
open StoreProg

/-- The operations that only read. -/
inductive Query where
  | vaultExists
  | isEnrolled
  | loadMaster
  | listPairing
  | listDevices
  | getSecret (name : String)
  | listSecrets
  | fingerprint (name : String)
  | listGrants
  | verifyGrant (token audience action name : String) (nowMs : Int)
  | verifyAuth (aud nonce : String) (proof : Json)

inductive Op where
  | query (q : Query)
  | init (label : String)
  | recover (label : String)
  | requestPairing (label : String)
  | approvePairing (code : String)
  | issueEnrolToken (label : String) (ttlSecs : UInt64)
  | redeemEnrolToken (token label : String)
  | revokeDevice (id : String)
  | putSecret (name : String) (bytes : Bytes) (kind : String)
  | deleteSecret (name : String)
  | issueGrant (audience : String) (read : List String) (expires : Option String)
  | revokeGrant (id : String)

inductive Reply where
  | unit
  | flag (b : Bool)
  | text (s : String)
  | name (s : Option String)
  | master (bytes : Bytes)
  | records (rs : List Json)
  | devices (ds : List DeviceInfo)
  | secret (info : SecretMeta)
  | secrets (infos : List SecretMeta)
  | revealed (secret : RevealedSecret)
  | grant (g : IssuedGrant)

variable {cs : CeSecrets} (v : Vault cs) (env : Moment cs)

def ask : Query → Prog Reply
  | .vaultExists => .flag <$> vaultExists
  | .isEnrolled => .flag <$> v.isEnrolled
  | .loadMaster => .master <$> v.loadMaster
  | .listPairing => .records <$> listPairing
  | .listDevices => .devices <$> v.listDevices
  | .getSecret name => .revealed <$> v.getSecret name
  | .listSecrets => .secrets <$> listSecrets
  | .fingerprint name => .name <$> fingerprint name
  | .listGrants => .records <$> listGrants
  | .verifyGrant token audience action name nowMs =>
      (fun _ => .unit) <$> verifyGrant cs token audience action name nowMs
  | .verifyAuth aud nonce proof => .text <$> verifyAuth cs aud nonce proof

def exec : Op → Prog Reply
  | .query q => v.ask q
  | .init label => .flag <$> v.init env label
  | .recover label => (fun _ => .unit) <$> v.recover env label
  | .requestPairing label => .text <$> v.requestPairing env label
  | .approvePairing code => .text <$> v.approvePairing env code
  | .issueEnrolToken label ttlSecs => .text <$> v.issueEnrolToken env label ttlSecs
  | .redeemEnrolToken token label => (fun _ => .unit) <$> v.redeemEnrolToken env token label
  | .revokeDevice id => (fun _ => .unit) <$> v.revokeDevice id
  | .putSecret name bytes kind => .secret <$> v.putSecret env name bytes kind
  | .deleteSecret name => (fun _ => .unit) <$> deleteSecret name
  | .issueGrant audience read expires => .grant <$> v.issueGrant env audience read expires
  | .revokeGrant id => (fun _ => .unit) <$> revokeGrant id

/-! ## Queries -/

theorem loadMaster_readOnly : ReadOnly memStore v.loadMaster :=
  (readOnly_fetch _).bind fun _ => (readOnly_require _ _).bind fun _ => readOnly_done _

theorem getSecret_readOnly (name : String) : ReadOnly memStore (v.getSecret name) :=
  (readOnly_fetch _).bind fun _ => (readOnly_require _ _).bind fun _ =>
    v.loadMaster_readOnly.bind fun _ => readOnly_done _

theorem verifyGrant_readOnly (token audience action name : String) (nowMs : Int) :
    ReadOnly memStore (verifyGrant cs token audience action name nowMs) := by
  refine (readOnly_done _).bind fun grant => ?_
  refine (readOnly_require _ _).bind fun issuer => ?_
  refine (readOnly_fetch _).bind fun device => (readOnly_require _ _).bind fun device => ?_
  refine .check fun _ => (readOnly_require _ _).bind fun id => ?_
  exact (readOnly_fetch _).bind fun stored => .check fun _ => readOnly_done _

theorem verifyAuth_readOnly (aud nonce : String) (proof : Json) :
    ReadOnly memStore (verifyAuth cs aud nonce proof) := by
  unfold verifyAuth
  refine .check fun _ => ?_
  refine (readOnly_require _ _).bind fun sig => (readOnly_require _ _).bind fun proofPub => ?_
  refine .check fun _ => .check fun _ => (readOnly_require _ _).bind fun deviceId => ?_
  refine (readOnly_fetch _).bind fun device => (readOnly_require _ _).bind fun device => ?_
  refine .check fun _ => (readOnly_require _ _).bind fun ts => ?_
  refine (readOnly_done _).bind fun jwk => (readOnly_done _).bind fun valid => ?_
  exact .check fun _ => readOnly_done _

theorem ask_readOnly (q : Query) : ReadOnly memStore (v.ask q) := by
  cases q with
  | vaultExists => exact ((readOnly_fetch _).bind fun _ => readOnly_done _).map _
  | isEnrolled => exact ((readOnly_fetch _).bind fun _ => readOnly_done _).map _
  | loadMaster => exact v.loadMaster_readOnly.map _
  | listPairing => exact ((readOnly_scan _).bind fun _ => readOnly_done _).map _
  | listDevices => exact ((readOnly_scan _).bind fun _ => readOnly_done _).map _
  | getSecret name => exact (v.getSecret_readOnly name).map _
  | listSecrets => exact ((readOnly_scan _).bind fun _ => readOnly_done _).map _
  | fingerprint name => exact ((readOnly_fetch _).bind fun _ => readOnly_done _).map _
  | listGrants => exact ((readOnly_scan _).bind fun _ => readOnly_done _).map _
  | verifyGrant token audience action name nowMs =>
      exact (verifyGrant_readOnly token audience action name nowMs).map _
  | verifyAuth aud nonce proof => exact (verifyAuth_readOnly aud nonce proof).map _

/-! ## Failed calls -/

theorem enroll_allOrNothing (pubv : Json) (master : Bytes) (label id : String) :
    AllOrNothing memStore (v.enroll env pubv master label id) :=
  .after (readOnly_done _) fun _ => (neverFails_store _ _).allOrNothing

theorem recover_allOrNothing (label : String) : AllOrNothing memStore (v.recover env label) :=
  .after (readOnly_done _) fun _ =>
    (v.enroll_allOrNothing env _ _ _ _).before fun _ => neverFails_store _ _

theorem init_allOrNothing (label : String) : AllOrNothing memStore (v.init env label) := by
  refine .after ((readOnly_fetch _).bind fun _ => readOnly_done _) fun found => ?_
  cases found with
  | true => exact (neverFails_pure _).allOrNothing
  | false => exact (v.recover_allOrNothing env label).before fun _ => neverFails_pure _

theorem requestPairing_allOrNothing (label : String) :
    AllOrNothing memStore (v.requestPairing env label) :=
  ((neverFails_store _ _).bind fun _ => neverFails_pure _).allOrNothing

theorem approvePairing_allOrNothing (code : String) :
    AllOrNothing memStore (v.approvePairing env code) := by
  refine .after (readOnly_fetch _) fun _ => .after (readOnly_require _ _) fun req => ?_
  refine .after (readOnly_require _ _) fun pubv => .after (readOnly_require _ _) fun id => ?_
  refine .after v.loadMaster_readOnly fun master => ?_
  exact (v.enroll_allOrNothing env _ _ _ _).before fun _ =>
    (neverFails_remove _).bind fun _ => neverFails_pure _

theorem issueEnrolToken_allOrNothing (label : String) (ttlSecs : UInt64) :
    AllOrNothing memStore (v.issueEnrolToken env label ttlSecs) := by
  refine .after v.loadMaster_readOnly fun master => ?_
  refine .after (readOnly_done _) fun sealedMaster => .after (readOnly_done _) fun expires => ?_
  exact ((neverFails_store _ _).bind fun _ => neverFails_pure _).allOrNothing

/-- The steps of a redemption, of which only the first may panic. -/
theorem redeemEnrolToken_steps (token label : String) :
    v.redeemEnrolToken env token label = (do
      let (id, secret) ← (readToken token).mapError Abort.message
      let record ← fetch (enrolKey id)
      let record ← require "enrol token not found (already used, or never issued)" record
      let master ← openToken env secret record
      v.enroll env (publicValue v.device) master (if label = "" then "vm device" else label)
        v.device.id
      remove (enrolKey id)) := by
  simp only [redeemEnrolToken, redeemEnrolTokenCall, mapError_bind, mapError_lift, mapError_fetch,
    mapError_require, mapError_remove, Abort.message_error, Abort.mapError_message_error,
    mapError_mapError _ Abort.message_error]

theorem redeemEnrolToken_allOrNothing (token label : String) :
    AllOrNothing memStore (v.redeemEnrolToken env token label) := by
  rw [redeemEnrolToken_steps]
  refine .after (readOnly_done _) fun parts => .after (readOnly_fetch _) fun _ => ?_
  refine .after (readOnly_require _ _) fun record => .after (readOnly_done _) fun master => ?_
  exact (v.enroll_allOrNothing env _ _ _ _).before fun _ => neverFails_remove _

theorem revokeDevice_allOrNothing (id : String) : AllOrNothing memStore (v.revokeDevice id) := by
  unfold revokeDevice
  split
  · exact (readOnly_fail _).allOrNothing
  · exact (neverFails_remove _).allOrNothing

theorem putSecret_allOrNothing (name : String) (bytes : Bytes) (kind : String) :
    AllOrNothing memStore (v.putSecret env name bytes kind) := by
  refine .after v.loadMaster_readOnly fun master => .after (readOnly_done _) fun sealedBytes => ?_
  refine .after (readOnly_fetch _) fun prev => .after (readOnly_done _) fun info => ?_
  refine .after (readOnly_done _) fun record => ?_
  exact ((neverFails_store _ _).bind fun _ => neverFails_pure _).allOrNothing

theorem issueGrant_allOrNothing (audience : String) (read : List String)
    (expires : Option String) :
    AllOrNothing memStore (v.issueGrant env audience read expires) := by
  refine .after ((readOnly_fetch _).bind fun _ => readOnly_done _) fun enrolled => ?_
  refine .check fun _ => .after (readOnly_done _) fun sig => ?_
  exact ((neverFails_store _ _).bind fun _ => neverFails_pure _).allOrNothing

/-- A call that returns an error leaves the store as it was. -/
theorem exec_allOrNothing (op : Op) : AllOrNothing memStore (v.exec env op) := by
  cases op with
  | query q => exact (v.ask_readOnly q).allOrNothing
  | init label => exact (v.init_allOrNothing env label).map _
  | recover label => exact (v.recover_allOrNothing env label).map _
  | requestPairing label => exact (v.requestPairing_allOrNothing env label).map _
  | approvePairing code => exact (v.approvePairing_allOrNothing env code).map _
  | issueEnrolToken label ttlSecs =>
      exact (v.issueEnrolToken_allOrNothing env label ttlSecs).map _
  | redeemEnrolToken token label => exact (v.redeemEnrolToken_allOrNothing env token label).map _
  | revokeDevice id => exact (v.revokeDevice_allOrNothing id).map _
  | putSecret name bytes kind => exact (v.putSecret_allOrNothing env name bytes kind).map _
  | deleteSecret name => exact (neverFails_remove _).allOrNothing.map _
  | issueGrant audience read expires =>
      exact (v.issueGrant_allOrNothing env audience read expires).map _
  | revokeGrant id => exact (neverFails_remove _).allOrNothing.map _

/-- Every operation that writes either does all its writes or, when it returns an error,
none of them. -/
theorem failed_operations_leave_store :
    (∀ label, AllOrNothing memStore (v.init env label)) ∧
    (∀ label, AllOrNothing memStore (v.recover env label)) ∧
    (∀ label, AllOrNothing memStore (v.requestPairing env label)) ∧
    (∀ code, AllOrNothing memStore (v.approvePairing env code)) ∧
    (∀ label ttlSecs, AllOrNothing memStore (v.issueEnrolToken env label ttlSecs)) ∧
    (∀ token label, AllOrNothing memStore (v.redeemEnrolToken env token label)) ∧
    (∀ id, AllOrNothing memStore (v.revokeDevice id)) ∧
    (∀ name bytes kind, AllOrNothing memStore (v.putSecret env name bytes kind)) ∧
    ∀ audience read expires, AllOrNothing memStore (v.issueGrant env audience read expires) :=
  ⟨v.init_allOrNothing env, v.recover_allOrNothing env, v.requestPairing_allOrNothing env,
    v.approvePairing_allOrNothing env, v.issueEnrolToken_allOrNothing env,
    v.redeemEnrolToken_allOrNothing env, v.revokeDevice_allOrNothing,
    v.putSecret_allOrNothing env, v.issueGrant_allOrNothing env⟩

/-! ## Successful calls -/

@[simp] theorem context_eq_ok {α : Type} {message : String} {r : Except String α} {a : α} :
    context message r = .ok a ↔ r = .ok a := by
  cases r <;> simp [context, Except.mapError]

@[simp] theorem context_ok {α : Type} {message : String} {a : α} :
    context message (.ok a) = .ok a := rfl

/-- The enrollment record of the vault's device opens to `master`. -/
def Holds (s : OrdMap String Json) (master : Bytes) : Prop :=
  ∃ record, look s (.device v.device.id) = some record ∧ openMaster v.device record = .ok master

/-- The record that enrolls the vault's device under the master derived from its own key. -/
def ownerRecord (label : String) : Except String Json := do
  let master ← cs.deriveOwnerMaster v.device.ecdhPriv v.ns
  v.enrolRecord env (publicValue v.device) master
    (if label = "" then "this device (owner)" else label) v.device.id

/-- The device is enrolled under its own master, and recorded as the owner. -/
def Established (label : String) (s t : OrdMap String Json) : Prop :=
  ∃ record, v.ownerRecord env label = .ok record ∧
    t = place (place s (.device v.device.id) record) .vault (v.metaRecord env)

/-- What a call that returns `Ok` found in the store and did to it. -/
inductive Effect (s : OrdMap String Json) : Op → Reply → OrdMap String Json → Prop where
  | query (q : Query) (reply : Reply) : Effect s (.query q) reply s
  | found (label : String) (hmeta : look s .vault ≠ none) :
      Effect s (.init label) (.flag false) s
  | init (label : String) (t : OrdMap String Json) (hmeta : look s .vault = none)
      (h : v.Established env label s t) : Effect s (.init label) (.flag true) t
  | recover (label : String) (t : OrdMap String Json) (h : v.Established env label s t) :
      Effect s (.recover label) .unit t
  | requestPairing (label code : String) :
      Effect s (.requestPairing label) (.text code)
        (place s (.pair code) (v.pairRecord env code label))
  | approvePairing (code : String) (req pubv : Json) (id label : String) (master : Bytes)
      (record : Json) (hreq : look s (.pair code) = some req) (hpub : req.field "pub" = some pubv)
      (hid : strField pubv "id" = some id) (hmaster : v.Holds s master)
      (hrecord : v.enrolRecord env pubv master label id = .ok record) :
      Effect s (.approvePairing code) (.text id)
        (drop (place s (.device id) record) (.pair code))
  | issueEnrolToken (label : String) (ttlSecs : UInt64) (master secret : Bytes)
      (sealedMaster : cs.SealedSecret) (record : Json) (token : String)
      (hmaster : v.Holds s master)
      (hsealed : cs.sealSecret secret master (env.seed 0) = .ok sealedMaster)
      (hrecord : record.field "sealed" = some (cs.sealedToJson sealedMaster)) :
      Effect s (.issueEnrolToken label ttlSecs) (.text token)
        (place s (.enrol (cs.fingerprint secret)) record)
  | redeemEnrolToken (token label id secretText label' : String) (secret master : Bytes)
      (found record : Json) (htoken : Text.splitOnce token '.' = some (id, secretText))
      (hsecret : b64Decode secretText = .ok secret) (hfound : look s (.enrol id) = some found)
      (hmaster : openToken env secret found = .ok master)
      (hrecord : v.enrolRecord env (publicValue v.device) master label' v.device.id = .ok record) :
      Effect s (.redeemEnrolToken token label) .unit
        (drop (place s (.device v.device.id) record) (.enrol id))
  | revokeDevice (id : String) (hid : id ≠ v.device.id) :
      Effect s (.revokeDevice id) .unit (drop s (.device id))
  | putSecret (name : String) (bytes : Bytes) (kind : String) (master : Bytes)
      (sealedBytes : cs.SealedSecret) (info : SecretMeta) (record : Json)
      (hmaster : v.Holds s master)
      (hsealed : cs.sealSecret master bytes (env.seed 0) = .ok sealedBytes)
      (hinfo : nextMeta env name bytes kind none false (look s (.secret name)) = .ok info)
      (hrecord : v.secretRecord env info sealedBytes = .ok record) :
      Effect s (.putSecret name bytes kind) (.secret info) (place s (.secret name) record)
  | deleteSecret (name : String) :
      Effect s (.deleteSecret name) .unit (drop s (.secret name))
  | issueGrant (audience : String) (read : List String) (expires : Option String)
      (g : IssuedGrant) (henrolled : look s (.device v.device.id) ≠ none) :
      Effect s (.issueGrant audience read expires) (.grant g) (place s (.grant g.id) g.record)
  | revokeGrant (id : String) : Effect s (.revokeGrant id) .unit (drop s (.grant id))

variable {v env} {s t : OrdMap String Json}

theorem loadMaster_ok {master : Bytes} :
    v.loadMaster.run memStore s = (.ok master, t) ↔ v.Holds s master ∧ s = t := by
  simp only [loadMaster, run_bind_ok, run_fetch, run_require_ok, run_lift, memStore_get,
    Prod.mk.injEq, Except.ok.injEq, Holds]
  constructor
  · rintro ⟨_, _, ⟨rfl, rfl⟩, record, _, ⟨hrecord, rfl⟩, hopen, rfl⟩
    exact ⟨⟨record, hrecord, hopen⟩, rfl⟩
  · rintro ⟨⟨record, hrecord, hopen⟩, rfl⟩
    exact ⟨_, _, ⟨rfl, rfl⟩, record, _, ⟨hrecord, rfl⟩, hopen, rfl⟩

theorem getSecret_ok {name : String} {secret : RevealedSecret} :
    (v.getSecret name).run memStore s = (.ok secret, t) ↔
      ∃ record master, look s (.secret name) = some record ∧ v.Holds s master ∧
        openSecret cs master record = .ok secret ∧ s = t := by
  simp only [getSecret, run_bind_ok, run_fetch, run_require_ok, loadMaster_ok, run_lift,
    memStore_get, Prod.mk.injEq, Except.ok.injEq]
  constructor
  · rintro ⟨_, _, ⟨rfl, rfl⟩, record, _, ⟨hrecord, rfl⟩, master, _, ⟨hmaster, rfl⟩, hopen, rfl⟩
    exact ⟨record, master, hrecord, hmaster, hopen, rfl⟩
  · rintro ⟨record, master, hrecord, hmaster, hopen, rfl⟩
    exact ⟨_, _, ⟨rfl, rfl⟩, record, _, ⟨hrecord, rfl⟩, master, _, ⟨hmaster, rfl⟩, hopen, rfl⟩

theorem enroll_ok {pubv : Json} {master : Bytes} {label id : String} {u : Unit} :
    (v.enroll env pubv master label id).run memStore s = (.ok u, t) ↔
      ∃ record, v.enrolRecord env pubv master label id = .ok record ∧
        place s (.device id) record = t := by
  simp [enroll, run_bind_ok, place, Key.text]

theorem recover_ok {label : String} {u : Unit} :
    (v.recover env label).run memStore s = (.ok u, t) ↔ v.Established env label s t := by
  simp only [recover, run_bind_ok, enroll_ok, run_lift, run_store, memStore_put, context_eq_ok,
    Prod.mk.injEq, Established, ownerRecord, Outcome.bind_eq_ok]
  constructor
  · rintro ⟨master, _, ⟨hderive, rfl⟩, _, _, ⟨record, hrecord, rfl⟩, -, rfl⟩
    exact ⟨record, ⟨master, hderive, hrecord⟩, rfl⟩
  · rintro ⟨record, ⟨master, hderive, hrecord⟩, rfl⟩
    exact ⟨master, s, ⟨hderive, rfl⟩, (), _, ⟨record, hrecord, rfl⟩, trivial, rfl⟩

theorem exec_recover {label : String} (h : v.Established env label s t) :
    (v.exec env (.recover label)).run memStore s = (.ok .unit, t) :=
  (run_map_ok memStore).mpr ⟨(), recover_ok.mpr h, rfl⟩

theorem init_ok {label : String} {reply : Reply}
    (h : (v.exec env (.init label)).run memStore s = (.ok reply, t)) :
    Effect v env s (.init label) reply t := by
  obtain ⟨established, hinit, rfl⟩ := (run_map_ok memStore).mp h
  simp only [init, vaultExists, run_bind_ok, run_fetch, run_pure, memStore_get, Prod.mk.injEq,
    Except.ok.injEq] at hinit
  obtain ⟨found, _, ⟨_, _, ⟨rfl, rfl⟩, rfl, rfl⟩, hinit⟩ := hinit
  cases hmeta : s["meta"]? with
  | some record =>
      simp only [hmeta, Option.isSome_some, if_true, run_pure, Prod.mk.injEq,
        Except.ok.injEq] at hinit
      obtain ⟨rfl, rfl⟩ := hinit
      exact .found label (by simp [look, Key.text, hmeta])
  | none =>
      simp only [hmeta, Option.isSome_none, Bool.false_eq_true, if_false, run_bind_ok, run_pure,
        Prod.mk.injEq, Except.ok.injEq] at hinit
      obtain ⟨_, _, hrecover, rfl, rfl⟩ := hinit
      exact .init label _ hmeta (recover_ok.mp hrecover)

theorem approvePairing_ok {code id : String}
    (h : (v.approvePairing env code).run memStore s = (.ok id, t)) :
    Effect v env s (.approvePairing code) (.text id) t := by
  simp only [approvePairing, run_bind_ok, run_fetch, run_require_ok, loadMaster_ok, enroll_ok,
    run_remove, run_pure, memStore_get, memStore_del, Prod.mk.injEq, Except.ok.injEq] at h
  obtain ⟨_, _, ⟨rfl, rfl⟩, req, _, ⟨hreq, rfl⟩, pubv, _, ⟨hpub, rfl⟩, id, _, ⟨hid, rfl⟩,
    master, _, ⟨hmaster, rfl⟩, _, _, ⟨record, hrecord, rfl⟩, _, _, ⟨-, rfl⟩, rfl, rfl⟩ := h
  exact .approvePairing code req pubv id _ master record hreq hpub hid hmaster hrecord

/-- The record of an enrol token that ends at `expires`. -/
def offerRecord (env : Moment cs) (label : String) (sealedMaster : cs.SealedSecret)
    (expires : Int) : Json :=
  .ofFields [("id", .str (cs.fingerprint (env.fillRandom 32))),
    ("label", .str (if label = "" then "enrolled device" else label)),
    ("sealed", cs.sealedToJson sealedMaster), ("expires", .int expires),
    ("ts", .int (env.nowSecs 1).toInt)]

theorem issueEnrolToken_run {label token : String} {ttlSecs : UInt64} :
    (v.issueEnrolToken env label ttlSecs).run memStore s = (.ok token, t) ↔
      ∃ master sealedMaster expires, v.Holds s master ∧
        cs.sealSecret (env.fillRandom 32) master (env.seed 0) = .ok sealedMaster ∧
        expiry (env.nowSecs 0) ttlSecs = .ok expires ∧
        token = cs.fingerprint (env.fillRandom 32) ++ "." ++ Hex.encode (env.fillRandom 32) ∧
        t = place s (.enrol (cs.fingerprint (env.fillRandom 32)))
          (offerRecord env label sealedMaster expires) := by
  simp only [issueEnrolToken, run_bind_ok, loadMaster_ok, run_lift, run_store, run_pure,
    context_eq_ok, memStore_put, Prod.mk.injEq, Except.ok.injEq]
  constructor
  · rintro ⟨master, _, ⟨hmaster, rfl⟩, sealedMaster, _, ⟨hsealed, rfl⟩, expires, _,
      ⟨hexpires, rfl⟩, _, _, ⟨-, rfl⟩, rfl, rfl⟩
    exact ⟨master, sealedMaster, expires, hmaster, hsealed, hexpires, rfl, rfl⟩
  · rintro ⟨master, sealedMaster, expires, hmaster, hsealed, hexpires, rfl, rfl⟩
    exact ⟨master, s, ⟨hmaster, rfl⟩, sealedMaster, s, ⟨hsealed, rfl⟩, expires, s,
      ⟨hexpires, rfl⟩, (), _, ⟨trivial, rfl⟩, rfl, rfl⟩

theorem issueEnrolToken_ok {label token : String} {ttlSecs : UInt64}
    (h : (v.issueEnrolToken env label ttlSecs).run memStore s = (.ok token, t)) :
    Effect v env s (.issueEnrolToken label ttlSecs) (.text token) t := by
  obtain ⟨master, sealedMaster, expires, hmaster, hsealed, -, rfl, rfl⟩ :=
    issueEnrolToken_run.mp h
  exact .issueEnrolToken label ttlSecs master _ sealedMaster _ _ hmaster hsealed
    (by simp [offerRecord, Json.field_ofFields])

theorem readToken_ok {token id : String} {secret : Bytes} :
    readToken token = .ok (id, secret) ↔ ∃ secretText,
      Text.splitOnce token '.' = some (id, secretText) ∧ b64Decode secretText = .ok secret := by
  simp only [readToken, Outcome.bind_eq_ok, Outcome.require_eq_ok, Abort.context_eq_ok]
  constructor
  · rintro ⟨⟨id, secretText⟩, htoken, secret, hsecret, hret⟩
    cases hret
    exact ⟨secretText, htoken, hsecret⟩
  · rintro ⟨secretText, htoken, hsecret⟩
    exact ⟨(id, secretText), htoken, secret, hsecret, rfl⟩

theorem redeemEnrolToken_ok {token label : String} {u : Unit}
    (h : (v.redeemEnrolToken env token label).run memStore s = (.ok u, t)) :
    Effect v env s (.redeemEnrolToken token label) .unit t := by
  simp only [redeemEnrolToken_steps, run_bind_ok, run_require_ok, run_lift, run_fetch, enroll_ok,
    run_remove, memStore_get, memStore_del, Outcome.mapError_eq_ok, Prod.mk.injEq,
    Except.ok.injEq] at h
  obtain ⟨⟨id, secret⟩, _, ⟨hread, rfl⟩, _, _, ⟨rfl, rfl⟩, found, _, ⟨hfound, rfl⟩,
    master, _, ⟨hmaster, rfl⟩, _, _, ⟨record, hrecord, rfl⟩, -, rfl⟩ := h
  obtain ⟨secretText, htoken, hsecret⟩ := readToken_ok.mp hread
  exact .redeemEnrolToken token label id secretText _ secret master found record htoken hsecret
    hfound hmaster hrecord

theorem putSecret_ok {name : String} {bytes : Bytes} {kind : String} {info : SecretMeta}
    (h : (v.putSecret env name bytes kind).run memStore s = (.ok info, t)) :
    Effect v env s (.putSecret name bytes kind) (.secret info) t := by
  simp only [putSecret, storeSecret, run_bind_ok, loadMaster_ok, run_lift, run_fetch, run_store,
    run_pure, context_eq_ok, memStore_get, memStore_put, Prod.mk.injEq, Except.ok.injEq] at h
  obtain ⟨master, _, ⟨hmaster, rfl⟩, sealedBytes, _, ⟨hsealed, rfl⟩, _, _, ⟨rfl, rfl⟩,
    info, _, ⟨hinfo, rfl⟩, record, _, ⟨hrecord, rfl⟩, _, _, ⟨-, rfl⟩, rfl, rfl⟩ := h
  exact .putSecret name bytes kind master sealedBytes _ record hmaster hsealed hinfo hrecord

theorem issueGrant_ok {audience : String} {read : List String} {expires : Option String}
    {g : IssuedGrant}
    (h : (v.issueGrant env audience read expires).run memStore s = (.ok g, t)) :
    Effect v env s (.issueGrant audience read expires) (.grant g) t := by
  simp only [issueGrant, isEnrolled, run_bind_ok, run_fetch, run_check_ok, run_lift, run_store,
    run_pure, memStore_get, memStore_put, Prod.mk.injEq, Except.ok.injEq] at h
  obtain ⟨enrolled, _, ⟨_, _, ⟨rfl, rfl⟩, rfl, rfl⟩, henrolled, sig, _, ⟨-, rfl⟩,
    _, _, ⟨-, rfl⟩, rfl, rfl⟩ := h
  refine .issueGrant audience read expires _ ?_
  intro hnone
  have hget : s[deviceKey v.device.id]? = none := hnone
  rw [hget] at henrolled
  exact henrolled rfl

/-- The effect of a call that returns `Ok`. -/
theorem exec_ok {op : Op} {reply : Reply}
    (h : (v.exec env op).run memStore s = (.ok reply, t)) : Effect v env s op reply t := by
  cases op with
  | query q =>
      have hsame : s = t := by
        have hread := v.ask_readOnly q s
        rw [show (v.ask q).run memStore s = (.ok reply, t) from h] at hread
        exact hread.symm
      subst hsame
      exact .query q reply
  | init label => exact init_ok h
  | recover label =>
      obtain ⟨u, hrun, rfl⟩ := (run_map_ok memStore).mp h
      exact .recover label t (recover_ok.mp hrun)
  | requestPairing label =>
      cases h
      exact .requestPairing label _
  | approvePairing code =>
      obtain ⟨id, hrun, rfl⟩ := (run_map_ok memStore).mp h
      exact approvePairing_ok hrun
  | issueEnrolToken label ttlSecs =>
      obtain ⟨token, hrun, rfl⟩ := (run_map_ok memStore).mp h
      exact issueEnrolToken_ok hrun
  | redeemEnrolToken token label =>
      obtain ⟨u, hrun, rfl⟩ := (run_map_ok memStore).mp h
      exact redeemEnrolToken_ok hrun
  | revokeDevice id =>
      obtain ⟨u, hrun, rfl⟩ := (run_map_ok memStore).mp h
      rw [revokeDevice] at hrun
      split at hrun
      · cases hrun
      · next hid =>
          cases hrun
          exact .revokeDevice id hid
  | putSecret name bytes kind =>
      obtain ⟨info, hrun, rfl⟩ := (run_map_ok memStore).mp h
      exact putSecret_ok hrun
  | deleteSecret name =>
      cases h
      exact .deleteSecret name
  | issueGrant audience read expires =>
      obtain ⟨g, hrun, rfl⟩ := (run_map_ok memStore).mp h
      exact issueGrant_ok hrun
  | revokeGrant id =>
      cases h
      exact .revokeGrant id

theorem run_of_fst {α : Type} {x : Prog α} {r : Except String α}
    (h : (x.run memStore s).1 = r) : x.run memStore s = (r, (x.run memStore s).2) :=
  Prod.ext h rfl

/-! ## Runs -/

/-- One call by a device, and what it returned. -/
structure Call (cs : CeSecrets) where
  device : DeviceKey cs.toKeyPairs
  env : Moment cs
  op : Op
  result : Except String Reply

/-- The devices share the store and the namespace. -/
def called (devices : Set (DeviceKey cs.toKeyPairs)) (ns : String) (s : OrdMap String Json)
    (c : Call cs) (t : OrdMap String Json) : Prop :=
  c.device ∈ devices ∧ (exec ⟨c.device, ns⟩ c.env c.op).run memStore s = (c.result, t)

/-- A call fails without a trace, or has its effect. -/
theorem called_cases {devices : Set (DeviceKey cs.toKeyPairs)} {ns : String} {c : Call cs}
    (h : called devices ns s c t) :
    (∃ e, c.result = .error e ∧ t = s) ∨
      ∃ reply, c.result = .ok reply ∧ Effect ⟨c.device, ns⟩ c.env s c.op reply t := by
  obtain ⟨-, hrun⟩ := h
  cases hresult : c.result with
  | error e =>
      refine .inl ⟨e, rfl, ?_⟩
      have hsame := exec_allOrNothing ⟨c.device, ns⟩ c.env c.op s e
      rw [hrun, hresult] at hsame
      exact hsame rfl
  | ok reply =>
      rw [hresult] at hrun
      exact .inr ⟨reply, rfl, exec_ok hrun⟩

end CeIam.Vault
