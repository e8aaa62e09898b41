import CeIam.Verification.AuthKv.Backends
import CeIam.Verification.Vault.Interleaving

/-! # The vault behind the mesh

Every call of a vault operation is a request to the server, which answers it at a moment of its
own. For senders that the server admits, operations do there what they do on a store in memory, as
long as no listing is longer than a reply. -/

namespace CeIam

open StoreProg

/-! ## Admitted senders -/

namespace AuthKv

variable {cc : CeCap} {kv : AuthKv} {decode : ByteArray → Except String KvReq}
  {parse : ByteArray → Except String Json} {store : MeshKvStore} {sender caps : String}
  {s : KvState} {printed : FloatText → Prop}

/-- The server lets the sender read and write. -/
structure Admits (cc : CeCap) (kv : AuthKv) (env : Ambient) (sender caps : String) : Prop where
  write : kv.writeAllowed cc env sender caps = .ok ()
  read : kv.readAllowed cc env sender caps = .ok ()

/-- The writer node is admitted, and so is everyone while nothing is enforced. -/
theorem admits_of_open (env : Ambient) (caps : String)
    (h : sender = kv.selfIdHex ∨ kv.enforceWrite = false ∧ kv.enforceRead = false) :
    Admits cc kv env sender caps := by
  rcases h with rfl | ⟨hwrite, hread⟩
  · exact ⟨writeAllowed_self caps, readAllowed_self caps⟩
  · constructor
    · simp [writeAllowed, gate, hwrite]
    · simp [readAllowed, gate, hread]

variable (cc kv decode sender) in
/-- A mesh that brings each request of a sender to the server, at a moment of its own, and the
reply back. -/
def delivering (env : ℕ → Ambient) : Mesh (KvState × ℕ) := fun payload s =>
  let (reply, t) := kv.handleRequest cc (env s.2) decode sender payload s.1
  (.ok reply, t, s.2 + 1)

/-- One call is delivered at one moment. -/
theorem call_delivering (env : ℕ → Ambient) (request : List (String × Json)) (n : ℕ) :
    store.call parse (kv.delivering cc decode sender env) request (s, n) =
      ((store.call parse (kv.deliver cc (env n) decode sender) request s).1,
        (store.call parse (kv.deliver cc (env n) decode sender) request s).2, n + 1) := rfl

variable {env : Ambient}

theorem mutate_admitted (admits : Admits cc kv env sender caps)
    (applies : ∀ op, env.propose op = .applied) (op : KvOp) (key : String) (action : Action)
    (denial failure : String) :
    ∃ t, kv.mutate cc env op key action denial failure sender caps s =
      (.obj [("ok", .bool true)], t) ∧ t.m = op.apply s.m := by
  rw [mutate, admits.write]
  simp only [propose, applies]
  refine ⟨_, rfl, ?_⟩
  by_cases hkey : isSensitiveKey key
  · rw [if_pos hkey, record_m]
  · rw [if_neg hkey]

theorem handleGet_admitted (admits : Admits cc kv env sender caps) (key : String) :
    ∃ t, kv.handleGet cc env sender key caps s = (valueReply s.m key, t) ∧ t.m = s.m := by
  rw [handleGet, admits.read]
  by_cases hkey : isSensitiveKey key
  · rw [if_pos hkey]
    exact ⟨_, rfl, record_m ..⟩
  · rw [if_neg hkey]
    exact ⟨_, rfl, rfl⟩

theorem handleList_admitted (admits : Admits cc kv env sender caps) (pfx : String) (limit : ℕ) :
    kv.handleList cc env sender pfx limit caps s = (itemsReply s.m pfx limit, s) := by
  rw [handleList, admits.read]
  by_cases hpfx : touchesSensitive pfx
  · rw [if_pos hpfx]
  · rw [if_neg hpfx]

variable (wire : Wire printed decode parse store)
  (admits : Admits cc kv env sender (store.caps.getD ""))

include wire admits

theorem get_deliver (hs : AllStorable printed s.m) (key : String) :
    ∃ t, store.call parse (kv.deliver cc env decode sender) [("op", .str "get"), ("key", .str key)]
      s = (.ok (valueReply s.m key), t) ∧ t.m = s.m := by
  obtain ⟨t, hget, ht⟩ := handleGet_admitted (s := s) admits key
  refine ⟨t, call_deliver wire (by decide) (canonical_valueReply hs key) ?_, ht⟩
  simp only [handleRequest, wire.get, hget]
  rfl

theorem put_deliver (applies : ∀ op, env.propose op = .applied) (key : String) {value : Json}
    (hvalue : Storable printed value) :
    ∃ t, store.call parse (kv.deliver cc env decode sender)
      [("op", .str "put"), ("key", .str key), ("value", value)] s =
        (.ok (.obj [("ok", .bool true)]), t) ∧ t.m = s.m.insert key value := by
  obtain ⟨t, hput, ht⟩ := mutate_admitted (s := s) admits applies (.put key value) key
    .kvWrite "kv write denied: " "put failed: "
  refine ⟨t, call_deliver wire (by decide) canonical_ok ?_, ht⟩
  simp only [handleRequest, wire.put key value (hvalue.mono (by decide)), handlePut, hput]

theorem del_deliver (applies : ∀ op, env.propose op = .applied) (key : String) :
    ∃ t, store.call parse (kv.deliver cc env decode sender) [("op", .str "del"), ("key", .str key)]
      s = (.ok (.obj [("ok", .bool true)]), t) ∧ t.m = s.m.erase key := by
  obtain ⟨t, hdel, ht⟩ := mutate_admitted (s := s) admits applies (.del key) key
    .kvDelete "kv delete denied: " "del failed: "
  refine ⟨t, call_deliver wire (by decide) canonical_ok ?_, ht⟩
  simp only [handleRequest, wire.del, handleDel, hdel]

theorem list_deliver (hs : AllStorable printed s.m) (pfx : String) :
    store.call parse (kv.deliver cc env decode sender)
      [("op", .str "list"), ("prefix", .str pfx), ("limit", .int 1000)] s =
        (.ok (itemsReply s.m pfx 1000), s) := by
  refine call_deliver wire (by decide) (canonical_itemsReply hs pfx 1000) ?_
  simp only [handleRequest, wire.list, handleList_admitted admits]
  rfl

end AuthKv

/-! ## The store behind the mesh -/

section Mirror

open AuthKv

variable {cc : CeCap} {kv : AuthKv} {decode : ByteArray → Except String KvReq}
  {parse : ByteArray → Except String Json} {store : MeshKvStore} {sender : String}
  {env : ℕ → Ambient} {printed : FloatText → Prop} (wire : Wire printed decode parse store)
  (admits : ∀ n, Admits cc kv (env n) sender (store.caps.getD ""))

/-- A record that comes back over the mesh: a storable one that is not null. -/
structure OnWire (printed : FloatText → Prop) (key : String) (r : Json) : Prop where
  present : r ≠ .null
  storable : Storable printed r

theorem allStorable_of_onWire {printed : FloatText → Prop} {m : OrdMap String Json}
    (hm : memStore.Holds (OnWire printed) m) : AllStorable printed m :=
  fun key r hr => (hm key r hr).storable

include wire admits

/-- The store behind the mesh is one in memory, but for null records and listing. -/
theorem mirrors_memory (applies : ∀ n op, (env n).propose op = .applied) :
    Mirrors (MeshKvStore.backend parse (kv.delivering cc decode sender env) store) memStore
      (OnWire printed) (fun t m => t.1.m = m) where
  get := by
    rintro ⟨s, n⟩ m key rfl hrecords
    obtain ⟨t, hget, ht⟩ :=
      get_deliver (s := s) wire (admits n) (allStorable_of_onWire hrecords) key
    refine ⟨(t, n + 1), ?_, ht⟩
    have hvalue : MeshKvStore.readValue (valueReply s.m key) = s.m[key]? := by
      have hcarried : (StoreOp.get key).Carried s.m := fun hnull =>
        (hrecords key .null hnull).present rfl
      have hsame := (StoreOp.carried_eq_iff (.get key) s.m).mpr hcarried
      simpa [StoreOp.carried, StoreOp.inMemory] using hsame
    simp only [MeshKvStore.backend, MeshKvStore.get, call_delivering, hget]
    exact congrArg (fun o => (Except.ok o, t, n + 1)) hvalue
  put := by
    rintro ⟨s, n⟩ m key value hvalue rfl
    obtain ⟨t, hput, ht⟩ := put_deliver (s := s) wire (admits n) (applies n) key hvalue.storable
    refine ⟨(t, n + 1), ?_, ht⟩
    simp only [MeshKvStore.backend, MeshKvStore.put, call_delivering, hput]
    rfl
  del := by
    rintro ⟨s, n⟩ m key rfl
    obtain ⟨t, hdel, ht⟩ := del_deliver (s := s) wire (admits n) (applies n) key
    refine ⟨(t, n + 1), ?_, ht⟩
    simp only [MeshKvStore.backend, MeshKvStore.del, call_delivering, hdel]
    rfl

end Mirror

/-! ## Operations that list nothing -/

namespace Vault

variable {cs : CeSecrets} {v : Vault cs} {moment : Moment cs}

/-- An object is not null, and it is storable when it is canonical. -/
theorem onWire_fields {printed : FloatText → Prop} {k : String} {fields : List (String × Json)}
    {n : ℕ} (h : (Json.ofFields fields).Canonical printed n) (hn : n ≤ 124) :
    OnWire printed k (Json.ofFields fields) where
  present hnull := by cases hnull
  storable := h.mono hn

section Objects

variable {L : String → Prop} {printed : FloatText → Prop} (laws : cs.EncodingLaws printed)

include laws

theorem enrolRecord_onWire {pubv : Json} {master : Bytes} {label id k : String} {record : Json}
    (hpub : pubv.Canonical printed 124)
    (h : v.enrolRecord moment pubv master label id = .ok record) : OnWire printed k record := by
  have hcanonical : record.Canonical printed 124 :=
    canonical_enrolRecord laws (n := 123) (by decide) hpub h
  simp only [enrolRecord, Outcome.bind_eq_ok] at h
  obtain ⟨_, -, _, -, _, -, _, -, sig, -, hret⟩ := h
  cases hret
  exact onWire_fields hcanonical le_rfl

theorem enroll_onWire {pubv : Json} (hpub : pubv.Canonical printed 124) (master : Bytes)
    (label id : String) : (v.enroll moment pubv master label id).Guarantees L (OnWire printed)
      (OnWire printed) (fun _ => True) :=
  (guarantees_lift _).bind fun _ hrecord => guarantees_store (enrolRecord_onWire laws hpub hrecord)

/-- A device enrolls itself. -/
theorem enroll_self_onWire (master : Bytes) (label id : String) :
    (v.enroll moment (publicValue v.device) master label id).Guarantees L (OnWire printed)
      (OnWire printed) (fun _ => True) :=
  enroll_onWire laws ((canonical_publicValue laws v.device).mono (by decide)) master label id

theorem recover_onWire (label : String) :
    (v.recover moment label).Guarantees L (OnWire printed) (OnWire printed) (fun _ => True) :=
  (guarantees_lift _).andThen fun _ => (enroll_self_onWire laws _ _ _).andThen fun _ =>
    guarantees_store (onWire_fields canonical_metaRecord (by decide))

theorem approvePairing_onWire (code : String) :
    (v.approvePairing moment code).Guarantees L (OnWire printed) (OnWire printed)
      (fun _ => True) := by
  refine (guarantees_fetch _).bind fun found hfound => ?_
  refine (guarantees_require _ _).bind fun req hreq => ?_
  refine (guarantees_require _ _).bind fun pubv hpubv => ?_
  -- The public half was part of the request that is in the store.
  have hpub : pubv.Canonical printed 124 :=
    ((hfound req hreq).storable.field hpubv).mono (by decide)
  refine (guarantees_require _ _).andThen fun id => loadMaster_guarantees.andThen fun m => ?_
  exact (enroll_onWire laws hpub _ _ _).andThen fun _ => (guarantees_remove _).andThen fun _ =>
    guarantees_pure trivial

theorem issueEnrolToken_onWire (label : String) (ttlSecs : UInt64) :
    (v.issueEnrolToken moment label ttlSecs).Guarantees L (OnWire printed) (OnWire printed)
      (fun _ => True) := by
  refine loadMaster_guarantees.andThen fun m => (guarantees_lift _).andThen fun box => ?_
  refine (guarantees_lift _).bind fun expires hexpires => ?_
  exact (guarantees_store (onWire_fields (canonical_offerRecord laws hexpires) (by decide))).andThen
    fun _ => guarantees_pure trivial

theorem redeemEnrolToken_onWire (token label : String) :
    (v.redeemEnrolToken moment token label).Guarantees L (OnWire printed) (OnWire printed)
      (fun _ => True) := by
  rw [redeemEnrolToken_steps]
  refine (guarantees_lift _).andThen fun parts => (guarantees_fetch _).andThen fun found => ?_
  refine (guarantees_require _ _).andThen fun record => (guarantees_lift _).andThen fun m => ?_
  exact (enroll_self_onWire laws _ _ _).andThen fun _ => guarantees_remove _

theorem putSecret_onWire (name : String) (bytes : Bytes) (kind : String) :
    (v.putSecret moment name bytes kind).Guarantees L (OnWire printed) (OnWire printed)
      (fun _ => True) := by
  refine loadMaster_guarantees.andThen fun master => (guarantees_lift _).andThen fun box => ?_
  refine (guarantees_fetch _).andThen fun prev => (guarantees_lift _).bind fun info hinfo => ?_
  refine (guarantees_lift _).bind fun record hrecord => ?_
  refine (guarantees_store ?_).andThen fun _ => guarantees_pure trivial
  have hcanonical := canonical_secretRecord laws (nextMeta_version hinfo).2 hrecord
  obtain ⟨sig, -, hret⟩ := Outcome.bind_eq_ok.mp hrecord
  cases hret
  exact onWire_fields hcanonical (by decide)

variable (v moment) in
/-- No operation writes a null record, and only some queries list. -/
theorem exec_onWire (op : Op) :
    (v.exec moment op).Guarantees (fun p => op.listed = some p) (OnWire printed) (OnWire printed)
      (fun _ => True) := by
  cases op with
  | query q => exact ask_guarantees q fun p hp => hp
  | init label => exact (init_guarantees (recover_onWire laws label)).reply
  | recover label => exact (recover_onWire laws label).reply
  | requestPairing label =>
      refine (requestPairing_guarantees fun code => ?_).reply
      exact onWire_fields (canonical_pairRecord laws code label) (by decide)
  | approvePairing code => exact (approvePairing_onWire laws code).reply
  | issueEnrolToken label ttlSecs => exact (issueEnrolToken_onWire laws label ttlSecs).reply
  | redeemEnrolToken token label => exact (redeemEnrolToken_onWire laws token label).reply
  | revokeDevice id => exact (revokeDevice_guarantees id).reply
  | putSecret name bytes kind => exact (putSecret_onWire laws name bytes kind).reply
  | deleteSecret name => exact (guarantees_remove _).reply
  | issueGrant audience read expires =>
      refine (issueGrant_guarantees fun _ _ => ?_).reply
      exact onWire_fields (canonical_grantRecord laws) (by decide)
  | revokeGrant id => exact (guarantees_remove _).reply

end Objects

/-! ## Listings -/

/-- The number of entries in a listing. -/
def Reply.size : Reply → ℕ
  | .records rs => rs.length
  | .devices ds => ds.length
  | .secrets infos => infos.length
  | _ => 0

variable (v moment) in
/-- An operation that lists makes one call, and its reply has as many entries as the store
returns. -/
theorem exec_of_listed {op : Op} {p : String} (h : op.listed = some p) :
    ∃ reply : List (String × Json) → Reply,
      v.exec moment op = .list p (fun es => .done (.ok (reply es))) ∧
        ∀ es, (reply es).size = es.length := by
  cases op with
  | query q =>
      cases q with
      | listPairing =>
          cases h
          exact ⟨fun es => .records (es.map Prod.snd), rfl, fun es => List.length_map ..⟩
      | listDevices =>
          cases h
          exact ⟨fun es => .devices (es.map fun e => v.deviceInfo e.2), rfl,
            fun es => List.length_map ..⟩
      | listSecrets =>
          cases h
          refine ⟨fun es => .secrets ((es.map fun e => secretMeta e.2).mergeSort
            fun a b => a.name ≤ b.name), rfl, fun es => ?_⟩
          simp [Reply.size]
      | listGrants =>
          cases h
          exact ⟨fun es => .records (es.map Prod.snd), rfl, fun es => List.length_map ..⟩
      | _ => cases h
  | _ => cases h

end Vault

/-! ## Operations over the mesh -/

section Calls

open AuthKv

variable {cs : CeSecrets}

/-- A call of a vault operation by a sender, whose requests are answered at the moments of `env`. -/
structure RemoteCall (cs : CeSecrets) where
  vault : Vault cs
  moment : Moment cs
  op : Vault.Op
  sender : String
  store : MeshKvStore
  env : ℕ → Ambient

namespace RemoteCall

def prog (l : RemoteCall cs) : Vault.Prog Vault.Reply := l.vault.exec l.moment l.op

def inMemory (l : RemoteCall cs) (m : OrdMap String Json) :
    Except String Vault.Reply × OrdMap String Json :=
  l.prog.run memStore m

variable (printed : FloatText → Prop) (cc : CeCap) (kv : AuthKv)
  (decode : ByteArray → Except String KvReq) (parse : ByteArray → Except String Json)

def overMesh (l : RemoteCall cs) (s : KvState) : Except String Vault.Reply × KvState :=
  let (r, t) := l.prog.runOn (MeshKvStore.backend parse (kv.delivering cc decode l.sender l.env)
    l.store) (s, 0)
  (r, t.1)

/-- The server understands and admits the call, and its replicated log takes what it is handed. -/
structure Served (l : RemoteCall cs) : Prop where
  wire : Wire printed decode parse l.store
  admits : ∀ n, Admits cc kv (l.env n) l.sender (l.store.caps.getD "")
  applies : ∀ n op, (l.env n).propose op = .applied

/-- What the call lists fits into a reply. -/
def Fits (l : RemoteCall cs) (m : OrdMap String Json) : Prop :=
  ∀ p, l.op.listed = some p → (m.toList.filter fun e => Text.startsWith e.1 p).length ≤ 1000

variable {printed cc kv decode parse} {l : RemoteCall cs} {s : KvState}

theorem overMesh_of_listed (served : l.Served printed cc kv decode parse)
    (hs : AllStorable printed s.m) {p : String} (hp : l.op.listed = some p) :
    ∃ reply : List (String × Json) → Vault.Reply, (∀ es, (reply es).size = es.length) ∧
      l.overMesh cc kv decode parse s =
        (.ok (reply ((s.m.toList.filter fun e => Text.startsWith e.1 p).take 1000)), s) ∧
      l.inMemory s.m = (.ok (reply (s.m.toList.filter fun e => Text.startsWith e.1 p)), s.m) := by
  obtain ⟨reply, hexec, hsize⟩ := Vault.exec_of_listed l.vault l.moment hp
  refine ⟨reply, hsize, ?_, ?_⟩
  · have hlist : (MeshKvStore.backend parse (kv.delivering cc decode l.sender l.env)
        l.store).list p (s, 0) =
        (.ok ((s.m.toList.filter fun e => Text.startsWith e.1 p).take 1000), s, 1) := by
      simp only [MeshKvStore.backend, MeshKvStore.list, call_delivering,
        list_deliver served.wire (served.admits 0) hs]
      rw [← readItems_itemsReply]
      rfl
    simp only [overMesh, prog, hexec, runOn, hlist]
  · rw [inMemory, prog, hexec, run, memStore_list, OrdMap.scanPrefix_eq_filter]
    rfl

/-- An operation that lists nothing does over the mesh what it does in memory. -/
theorem overMesh_of_not_listed (laws : cs.EncodingLaws printed)
    (served : l.Served printed cc kv decode parse) (hs : memStore.Holds (OnWire printed) s.m)
    (hp : l.op.listed = none) :
    (l.overMesh cc kv decode parse s).1 = (l.inMemory s.m).1 ∧
      (l.overMesh cc kv decode parse s).2.m = (l.inMemory s.m).2 := by
  have hlists : (fun p => l.op.listed = some p) = fun _ => False := by
    funext p
    simp [hp]
  have hprog := Vault.exec_onWire l.vault l.moment laws l.op
  rw [hlists] at hprog
  obtain ⟨u, hrun, hm⟩ := hprog.runOn memStore_faithful
    (mirrors_memory served.wire served.admits served.applies) (t := (s, 0)) hs rfl
  rw [overMesh, prog, hrun]
  exact ⟨rfl, hm⟩

theorem holds_inMemory (laws : cs.EncodingLaws printed) {m : OrdMap String Json}
    (hm : memStore.Holds (OnWire printed) m) :
    memStore.Holds (OnWire printed) (l.inMemory m).2 := by
  have hprog := Vault.exec_onWire l.vault l.moment laws l.op
  exact (hprog.run memStore_faithful hm).1

/-- One call changes the map of the server as it changes a store in memory, and is answered alike
exactly when what it lists fits. -/
theorem overMesh_spec (laws : cs.EncodingLaws printed)
    (served : l.Served printed cc kv decode parse) (hs : memStore.Holds (OnWire printed) s.m) :
    (l.overMesh cc kv decode parse s).2.m = (l.inMemory s.m).2 ∧
      ((l.overMesh cc kv decode parse s).1 = (l.inMemory s.m).1 ↔ l.Fits s.m) := by
  cases hp : l.op.listed with
  | none =>
      obtain ⟨hanswer, hm⟩ := overMesh_of_not_listed laws served hs hp
      refine ⟨hm, iff_of_true hanswer ?_⟩
      intro p hlisted
      rw [hp] at hlisted
      cases hlisted
  | some p =>
      obtain ⟨reply, hsize, hmesh, hmemory⟩ :=
        overMesh_of_listed served (allStorable_of_onWire hs) hp
      rw [hmesh, hmemory]
      refine ⟨rfl, ?_⟩
      constructor
      · intro hsame q hq
        cases hp.symm.trans hq
        have hlength := congrArg Vault.Reply.size (Except.ok.inj hsame)
        rw [hsize, hsize, List.length_take] at hlength
        omega
      · intro hfits
        rw [List.take_of_length_le (hfits p hp)]

/-- Calls of admitted senders, one after another, leave the map of the server as they leave a store
in memory, and are answered alike exactly when every listing fits into a reply. -/
theorem vault_over_mesh (laws : cs.EncodingLaws printed) {ls : List (RemoteCall cs)}
    (served : ∀ l ∈ ls, l.Served printed cc kv decode parse) (s : KvState)
    (hstorable : AllStorable printed s.m) (hs : ∀ key : String, s.m[key]? ≠ some .null) :
    (Machine.after (overMesh cc kv decode parse) ls s).m = Machine.after inMemory ls s.m ∧
      (Machine.answers (overMesh cc kv decode parse) ls s = Machine.answers inMemory ls s.m ↔
        Machine.Along inMemory Fits ls s.m) := by
  have hrecords : memStore.Holds (OnWire printed) s.m := fun key r hr =>
    ⟨fun hnull => hs key (hnull ▸ hr), hstorable key r hr⟩
  have hnext : ∀ l ∈ ls, ∀ s m, s.m = m ∧ memStore.Holds (OnWire printed) m →
      (overMesh cc kv decode parse l s).2.m = (l.inMemory m).2 ∧
        memStore.Holds (OnWire printed) (l.inMemory m).2 := by
    rintro l hl s m ⟨rfl, hm⟩
    exact ⟨(overMesh_spec laws (served l hl) hm).1, holds_inMemory laws hm⟩
  constructor
  · exact (Machine.after_related hnext ⟨rfl, hrecords⟩).1
  · refine Machine.answers_agree_iff
      (R := fun s m => s.m = m ∧ memStore.Holds (OnWire printed) m) hnext ?_ ⟨rfl, hrecords⟩
    rintro l hl s m ⟨rfl, hm⟩
    exact (overMesh_spec laws (served l hl) hm).2

/-- A call of the laptop on the node that serves its vault. -/
def ofLaptop (op : Vault.Op) : RemoteCall .symbolic :=
  ⟨⟨Vault.laptop, "home"⟩, Vault.noon, op, enforcingServer.selfIdHex, ⟨none⟩, fun _ => quietAmbient⟩

theorem ofLaptop_served (op : Vault.Op) :
    (ofLaptop op).Served (fun _ => True) Iam.symbolic enforcingServer readRequest readJson where
  wire := wire_json _
  admits _ := admits_of_open _ _ (.inl rfl)
  applies _ _ := rfl

/-- The laptop becomes the owner and loads its master. -/
theorem vault_over_mesh_laptop :
    let ls := [ofLaptop (.recover ""), ofLaptop (.query .loadMaster)]
    let s : KvState := ⟨∅, Audit.new "vault-1"⟩
    (Machine.after (overMesh Iam.symbolic enforcingServer readRequest readJson) ls s).m =
        Machine.after inMemory ls ∅ ∧
      Machine.answers (overMesh Iam.symbolic enforcingServer readRequest readJson) ls s =
        Machine.answers inMemory ls ∅ := by
  intro ls s
  have served : ∀ l ∈ ls,
      l.Served (fun _ => True) Iam.symbolic enforcingServer readRequest readJson := by
    intro l hl
    rcases List.mem_pair.mp hl with rfl | rfl <;> exact ofLaptop_served _
  obtain ⟨hmap, hanswers⟩ := vault_over_mesh (CeSecrets.symbolic_encodingLaws _) served s
    allStorable_empty fun key => by simp [s]
  exact ⟨hmap, hanswers.mpr ⟨(fun p hp => by cases hp), (fun p hp => by cases hp), trivial⟩⟩

end RemoteCall

end Calls

end CeIam
