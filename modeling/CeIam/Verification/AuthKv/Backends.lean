import CeIam.Library.JsonCanonical
import CeIam.Library.Machine
import CeIam.Model.KvStore
import CeIam.Model.Secrets
import CeIam.Verification.AuthKv.Confidentiality

/-! # The two stores of the vault

The store behind the mesh, whose server takes it for the writer node, changes its map as the
store in memory does. It answers alike as long as no call reads a null record or lists more
records than a reply carries. -/

namespace CeIam

/-- A call of the vault to its store. -/
inductive StoreOp where
  | get (key : String)
  | put (key : String) (value : Json)
  | del (key : String)
  | list (pfx : String)

/-- What a call returned. -/
inductive Answer where
  | value (v : Option Json)
  | done
  | entries (es : List (String × Json))

namespace StoreOp

def inMemory (op : StoreOp) (m : OrdMap String Json) :
    Except String Answer × OrdMap String Json :=
  match op with
  | .get key => (.ok (.value (memStore.get m key)), m)
  | .put key value => (.ok .done, memStore.put m key value)
  | .del key => (.ok .done, memStore.del m key)
  | .list pfx => (.ok (.entries (memStore.list m pfx)), m)

def overMesh {σ : Type} (parse : ByteArray → Except String Json) (mesh : Mesh σ)
    (store : MeshKvStore) (op : StoreOp) (s : σ) : Except String Answer × σ :=
  match op with
  | .get key =>
      let (r, s) := store.get parse mesh key s
      (r.map .value, s)
  | .put key value =>
      let (r, s) := store.put parse mesh key value s
      (r.map fun _ => .done, s)
  | .del key =>
      let (r, s) := store.del parse mesh key s
      (r.map fun _ => .done, s)
  | .list pfx =>
      let (r, s) := store.list parse mesh pfx s
      (r.map .entries, s)

/-- The call meets no null record, and no more records than a reply carries. -/
def Carried (op : StoreOp) (m : OrdMap String Json) : Prop :=
  match op with
  | .get key => m[key]? ≠ some .null
  | .put _ _ => True
  | .del _ => True
  | .list pfx => (m.toList.filter fun e => Text.startsWith e.1 pfx).length ≤ 1000

end StoreOp

/-! ## Values on the wire -/

/-- A value that is canonical within a listing, where it is three brackets deep. -/
def Storable (printed : FloatText → Prop) (v : Json) : Prop :=
  v.Canonical printed (Json.maxNesting - 3)

/-- Every value in the map is storable. -/
def AllStorable (printed : FloatText → Prop) (m : OrdMap String Json) : Prop :=
  ∀ (key : String) v, m[key]? = some v → Storable printed v

variable {printed : FloatText → Prop}

theorem allStorable_empty : AllStorable printed ∅ := by
  intro key v hv
  rw [OrdMap.get_empty] at hv
  cases hv

theorem AllStorable.insert {m : OrdMap String Json} (hm : AllStorable printed m) (key : String)
    {value : Json} (hvalue : Storable printed value) :
    AllStorable printed (m.insert key value) := by
  intro l v hv
  rw [OrdMap.get_insert] at hv
  split at hv
  · cases hv
    exact hvalue
  · exact hm l v hv

theorem AllStorable.erase {m : OrdMap String Json} (hm : AllStorable printed m) (key : String) :
    AllStorable printed (m.erase key) := by
  intro l v hv
  rw [OrdMap.get_erase] at hv
  split at hv
  · cases hv
  · exact hm l v hv

/-- What a call puts is storable. -/
def StoreOp.Storable (printed : FloatText → Prop) : StoreOp → Prop
  | .put _ value => CeIam.Storable printed value
  | _ => True

namespace AuthKv

/-- A mesh that brings each request to the server as one of the sender, and the reply back. -/
def deliver (cc : CeCap) (kv : AuthKv) (env : Ambient)
    (decode : ByteArray → Except String KvReq) (sender : String) : Mesh KvState := fun payload s =>
  let (reply, s) := kv.handleRequest cc env decode sender payload s
  (.ok reply, s)

/-- A mesh that brings each request to the server as the writer's own, and the reply back. -/
def writerLocal (cc : CeCap) (kv : AuthKv) (env : Ambient)
    (decode : ByteArray → Except String KvReq) : Mesh KvState := fun payload s =>
  let (reply, s) := kv.handleRequest cc env decode kv.selfIdHex payload s
  (.ok reply, s)

/-- Replies survive their encoding, and the requests of a store decode to what they say, as long as
they are values that the library of JSON has. -/
structure Wire (printed : FloatText → Prop) (decode : ByteArray → Except String KvReq)
    (parse : ByteArray → Except String Json) (store : MeshKvStore) : Prop where
  reply : ∀ j : Json, j.Canonical printed Json.maxNesting → parse (enc j) = .ok j
  get : ∀ key, decode (store.attach [("op", .str "get"), ("key", .str key)]).compact.toUTF8 =
    .ok (.get key (store.caps.getD ""))
  put : ∀ key (value : Json), value.Canonical printed (Json.maxNesting - 1) →
    decode (store.attach [("op", .str "put"), ("key", .str key), ("value", value)]).compact.toUTF8 =
      .ok (.put key value (store.caps.getD ""))
  del : ∀ key, decode (store.attach [("op", .str "del"), ("key", .str key)]).compact.toUTF8 =
    .ok (.del key (store.caps.getD ""))
  list : ∀ pfx,
    decode (store.attach
      [("op", .str "list"), ("prefix", .str pfx), ("limit", .int 1000)]).compact.toUTF8 =
      .ok (.list pfx 1000 (store.caps.getD ""))

variable {cc : CeCap} {kv : AuthKv} {env : Ambient} {decode : ByteArray → Except String KvReq}
  {parse : ByteArray → Except String Json} {store : MeshKvStore} {s : KvState}

/-! ## The writer's own requests -/

@[simp] theorem writeAllowed_self (caps : String) :
    kv.writeAllowed cc env kv.selfIdHex caps = .ok () := by
  simp [writeAllowed, gate]

@[simp] theorem readAllowed_self (caps : String) :
    kv.readAllowed cc env kv.selfIdHex caps = .ok () := by
  simp [readAllowed, gate]

@[simp] theorem record_m (sender : String) (action : Action) (target : String) (allowed : Bool) :
    (record env sender action target allowed s).m = s.m := by
  rw [record]

/-! ## Replies -/

theorem canonical_valueReply {m : OrdMap String Json} (hm : AllStorable printed m) (key : String) :
    (valueReply m key).Canonical printed Json.maxNesting := by
  refine Json.canonical_single (n := Json.maxNesting - 1) "value" ?_
  cases hvalue : m[key]? with
  | none => exact .null _
  | some v => exact (hm key v hvalue).mono (by decide)

theorem canonical_ok : (Json.obj [("ok", .bool true)]).Canonical printed Json.maxNesting :=
  Json.canonical_single (n := Json.maxNesting - 1) "ok" (.bool _ true)

theorem canonical_errorReply (message : String) :
    (errorReply message).Canonical printed Json.maxNesting :=
  Json.canonical_single (n := Json.maxNesting - 1) "error" (.str _ message)

theorem canonical_itemsReply {m : OrdMap String Json} (hm : AllStorable printed m) (pfx : String)
    (limit : ℕ) : (itemsReply m pfx limit).Canonical printed Json.maxNesting := by
  refine Json.canonical_single (n := Json.maxNesting - 1) "items" ?_
  refine .arr (Json.maxNesting - 2) _ fun x hx => ?_
  obtain ⟨e, he, rfl⟩ := List.mem_map.mp hx
  have hvalue : Storable printed e.2 :=
    hm e.1 e.2 (OrdMap.mem_toList.mp (List.mem_filter.mp (List.mem_of_mem_take he)).1)
  have hkeys : "key" < "value" := by decide
  refine .obj (Json.maxNesting - 3) _ (List.pairwise_pair.mpr hkeys) fun f hf => ?_
  rcases List.mem_pair.mp hf with rfl | rfl
  · exact .str _ e.1
  · exact hvalue

/-- A reply other than an error comes back to the store. -/
theorem call_deliver {sender : String} (wire : Wire printed decode parse store)
    {request : List (String × Json)} {k : String} {v : Json} {t : KvState} (hk : "error" ≠ k)
    (hv : (Json.obj [(k, v)]).Canonical printed Json.maxNesting)
    (hhandle : kv.handleRequest cc env decode sender (store.attach request).compact.toUTF8 s =
      (enc (.obj [(k, v)]), t)) :
    store.call parse (kv.deliver cc env decode sender) request s = (.ok (.obj [(k, v)]), t) := by
  simp only [MeshKvStore.call, deliver, hhandle]
  simp [wire.reply _ hv, Json.lookup_cons, hk, Except.mapError, bind, Except.bind]

/-- An error of the server is one of the call. -/
theorem call_deliver_error {sender : String} (wire : Wire printed decode parse store)
    {request : List (String × Json)} {message : String} {t : KvState}
    (hhandle : kv.handleRequest cc env decode sender (store.attach request).compact.toUTF8 s =
      (enc (errorReply message), t)) :
    ∃ e, store.call parse (kv.deliver cc env decode sender) request s = (.error e, t) := by
  have hreply := wire.reply _ (canonical_errorReply message)
  simp only [errorReply] at hhandle hreply
  simp only [MeshKvStore.call, deliver, hhandle]
  simp [hreply, Except.mapError, bind, Except.bind]

theorem call_writerLocal (wire : Wire printed decode parse store) {request : List (String × Json)}
    {k : String} {v : Json} {t : KvState} (hk : "error" ≠ k)
    (hv : (Json.obj [(k, v)]).Canonical printed Json.maxNesting)
    (hhandle : kv.handleRequest cc env decode kv.selfIdHex
      (store.attach request).compact.toUTF8 s = (enc (.obj [(k, v)]), t)) :
    store.call parse (kv.writerLocal cc env decode) request s = (.ok (.obj [(k, v)]), t) :=
  call_deliver wire hk hv hhandle

variable (cc kv s) in
theorem mutate_self (applies : ∀ op, env.propose op = .applied) (op : KvOp) (key : String)
    (action : Action) (denial failure caps : String) :
    ∃ t, kv.mutate cc env op key action denial failure kv.selfIdHex caps s =
      (.obj [("ok", .bool true)], t) ∧ t.m = op.apply s.m := by
  rw [mutate, writeAllowed_self]
  simp only [propose, applies]
  refine ⟨_, rfl, ?_⟩
  split_ifs
  · simp only [record_m]
  · rfl

variable (cc kv env s) in
theorem get_writerLocal (wire : Wire printed decode parse store) (hs : AllStorable printed s.m)
    (key : String) :
    ∃ t, store.get parse (kv.writerLocal cc env decode) key s =
      (.ok (MeshKvStore.readValue (valueReply s.m key)), t) ∧ t.m = s.m := by
  obtain ⟨t, hget, ht⟩ : ∃ t, kv.handleGet cc env kv.selfIdHex key (store.caps.getD "") s =
      (valueReply s.m key, t) ∧ t.m = s.m := by
    rw [handleGet, readAllowed_self]
    split_ifs
    · exact ⟨_, rfl, record_m ..⟩
    · exact ⟨_, rfl, rfl⟩
  have hhandle : kv.handleRequest cc env decode kv.selfIdHex
      (store.attach [("op", .str "get"), ("key", .str key)]).compact.toUTF8 s =
      (enc (valueReply s.m key), t) := by
    simp only [handleRequest, wire.get, hget]
  have hcall := call_writerLocal wire (by decide) (canonical_valueReply hs key) hhandle
  exact ⟨t, by rw [MeshKvStore.get, hcall]; rfl, ht⟩

variable (cc kv s) in
theorem put_writerLocal (wire : Wire printed decode parse store)
    (applies : ∀ op, env.propose op = .applied) (key : String) {value : Json}
    (hvalue : Storable printed value) :
    ∃ t, store.put parse (kv.writerLocal cc env decode) key value s = (.ok (), t) ∧
      t.m = s.m.insert key value := by
  obtain ⟨t, hput, ht⟩ := mutate_self cc kv s applies (.put key value) key
    .kvWrite "kv write denied: " "put failed: " (store.caps.getD "")
  have hhandle : kv.handleRequest cc env decode kv.selfIdHex
      (store.attach [("op", .str "put"), ("key", .str key), ("value", value)]).compact.toUTF8 s =
      (enc (.obj [("ok", .bool true)]), t) := by
    simp only [handleRequest, wire.put key value (hvalue.mono (by decide)), handlePut, hput]
  have hcall := call_writerLocal wire (by decide) canonical_ok hhandle
  exact ⟨t, by rw [MeshKvStore.put, hcall]; rfl, ht⟩

variable (cc kv s) in
theorem del_writerLocal (wire : Wire printed decode parse store)
    (applies : ∀ op, env.propose op = .applied) (key : String) :
    ∃ t, store.del parse (kv.writerLocal cc env decode) key s = (.ok (), t) ∧
      t.m = s.m.erase key := by
  obtain ⟨t, hdel, ht⟩ := mutate_self cc kv s applies (.del key) key
    .kvDelete "kv delete denied: " "del failed: " (store.caps.getD "")
  have hhandle : kv.handleRequest cc env decode kv.selfIdHex
      (store.attach [("op", .str "del"), ("key", .str key)]).compact.toUTF8 s =
      (enc (.obj [("ok", .bool true)]), t) := by
    simp only [handleRequest, wire.del, handleDel, hdel]
  have hcall := call_writerLocal wire (by decide) canonical_ok hhandle
  exact ⟨t, by rw [MeshKvStore.del, hcall]; rfl, ht⟩

/-- The items of a reply are the first thousand entries under the prefix. -/
theorem readItems_itemsReply (m : OrdMap String Json) (pfx : String) :
    MeshKvStore.readItems (itemsReply m pfx 1000) =
      (m.toList.filter fun e => Text.startsWith e.1 pfx).take 1000 := by
  simp only [itemsReply, MeshKvStore.readItems, Json.field_obj, Json.lookup_cons, if_true,
    Option.bind_some, Json.asArray_arr, Option.getD_some, List.filterMap_map]
  refine (List.filterMap_congr fun e _ => ?_).trans List.filterMap_some
  simp [Json.lookup_cons]

theorem list_writerLocal (wire : Wire printed decode parse store) (hs : AllStorable printed s.m)
    (pfx : String) :
    store.list parse (kv.writerLocal cc env decode) pfx s =
      (.ok ((s.m.toList.filter fun e => Text.startsWith e.1 pfx).take 1000), s) := by
  have hlist : kv.handleList cc env kv.selfIdHex pfx 1000 (store.caps.getD "") s =
      (itemsReply s.m pfx 1000, s) := by
    rw [handleList, readAllowed_self]
    split_ifs <;> rfl
  have hhandle : kv.handleRequest cc env decode kv.selfIdHex (store.attach
      [("op", .str "list"), ("prefix", .str pfx), ("limit", .int 1000)]).compact.toUTF8 s =
      (enc (itemsReply s.m pfx 1000), s) := by
    simp only [handleRequest, wire.list, hlist]
  have hcall := call_writerLocal wire (by decide) (canonical_itemsReply hs pfx 1000) hhandle
  rw [MeshKvStore.list, hcall, ← readItems_itemsReply]
  rfl

end AuthKv

/-! ## Calls of the vault -/

namespace StoreOp

variable {cc : CeCap} {kv : AuthKv} {decode : ByteArray → Except String KvReq}
  {parse : ByteArray → Except String Json} {store : MeshKvStore} {s : KvState}

/-- What the store behind the mesh answers to the writer. -/
def carried (op : StoreOp) (m : OrdMap String Json) : Answer :=
  match op with
  | .get key => .value (MeshKvStore.readValue (AuthKv.valueReply m key))
  | .put _ _ => .done
  | .del _ => .done
  | .list pfx => .entries ((m.toList.filter fun e => Text.startsWith e.1 pfx).take 1000)

variable (cc kv) in
theorem overMesh_writerLocal (wire : AuthKv.Wire printed decode parse store) {env : Ambient}
    (applies : ∀ op, env.propose op = .applied) (op : StoreOp) (hop : op.Storable printed)
    (s : KvState) (hs : AllStorable printed s.m) :
    ∃ t, op.overMesh parse (kv.writerLocal cc env decode) store s = (.ok (op.carried s.m), t) ∧
      t.m = (op.inMemory s.m).2 := by
  cases op with
  | get key =>
      obtain ⟨t, hget, ht⟩ := AuthKv.get_writerLocal cc kv env s wire hs key
      exact ⟨t, by rw [overMesh, hget]; rfl, ht⟩
  | put key value =>
      obtain ⟨t, hput, ht⟩ := AuthKv.put_writerLocal cc kv s wire applies key hop
      exact ⟨t, by rw [overMesh, hput]; rfl, ht⟩
  | del key =>
      obtain ⟨t, hdel, ht⟩ := AuthKv.del_writerLocal cc kv s wire applies key
      exact ⟨t, by rw [overMesh, hdel]; rfl, ht⟩
  | list pfx =>
      refine ⟨s, ?_, rfl⟩
      rw [overMesh, AuthKv.list_writerLocal wire hs]
      rfl

/-- A call leaves storable values when what it puts is storable. -/
theorem allStorable_inMemory {op : StoreOp} (hop : op.Storable printed) {m : OrdMap String Json}
    (hm : AllStorable printed m) : AllStorable printed (op.inMemory m).2 := by
  cases op with
  | get key => exact hm
  | put key value => exact hm.insert key hop
  | del key => exact hm.erase key
  | list pfx => exact hm

/-- The two stores answer alike exactly when the call is carried. -/
theorem carried_eq_iff (op : StoreOp) (m : OrdMap String Json) :
    (.ok (op.carried m) = (op.inMemory m).1) ↔ op.Carried m := by
  cases op with
  | get key =>
      simp only [carried, inMemory, Except.ok.injEq, Answer.value.injEq, memStore_get, Carried,
        AuthKv.valueReply, MeshKvStore.readValue, Json.field_obj, Json.lookup_cons, if_true]
      cases hget : m[key]? with
      | none => simp
      | some v => cases v <;> simp
  | put key value => simp [carried, inMemory, Carried]
  | del key => simp [carried, inMemory, Carried]
  | list pfx =>
      simp only [carried, inMemory, Except.ok.injEq, Answer.entries.injEq, memStore_list,
        OrdMap.scanPrefix_eq_filter, Carried, List.take_eq_self_iff]

variable (cc kv decode parse store) in
/-- A call over the mesh, with what the server meets outside it. -/
def remote (l : StoreOp × Ambient) (s : KvState) : Except String Answer × KvState :=
  l.1.overMesh parse (kv.writerLocal cc l.2 decode) store s

/-- The two stores, equal at first and with values that the library of JSON has, answer a sequence
of calls alike exactly when every call is carried. -/
theorem answers_eq_iff (wire : AuthKv.Wire printed decode parse store)
    {ls : List (StoreOp × Ambient)} (applies : ∀ l ∈ ls, ∀ op, l.2.propose op = .applied)
    (hls : ∀ l ∈ ls, l.1.Storable printed) (s : KvState) (hs : AllStorable printed s.m) :
    Machine.answers (remote cc kv decode parse store) ls s =
        Machine.answers (fun l m => l.1.inMemory m) ls s.m ↔
      Machine.Along (fun l m => l.1.inMemory m) (fun l m => l.1.Carried m) ls s.m := by
  have hstep : ∀ l ∈ ls, ∀ s : KvState, AllStorable printed s.m → ∃ t,
      remote cc kv decode parse store l s = (.ok (l.1.carried s.m), t) ∧
        t.m = (l.1.inMemory s.m).2 := fun l hl s hs =>
    overMesh_writerLocal cc kv wire (applies l hl) l.1 (hls l hl) s hs
  apply Machine.answers_agree_iff (R := fun s m => s.m = m ∧ AllStorable printed m)
  · rintro l hl s m ⟨rfl, hm⟩
    obtain ⟨t, hremote, ht⟩ := hstep l hl s hm
    rw [hremote]
    exact ⟨ht, allStorable_inMemory (hls l hl) hm⟩
  · rintro l hl s m ⟨rfl, hm⟩
    obtain ⟨t, hremote, -⟩ := hstep l hl s hm
    rw [hremote]
    exact carried_eq_iff l.1 s.m
  · exact ⟨rfl, hs⟩

end StoreOp

/-! ## A wire of JSON text -/

/-- The request in a JSON value. -/
def KvReq.ofJson (j : Json) : Except String KvReq :=
  let text (k : String) : Except String String :=
    Outcome.require ("missing field " ++ k) ((j.field k).bind Json.asStr)
  let caps := ((j.field "caps").bind Json.asStr).getD ""
  match (j.field "op").bind Json.asStr with
  | some "get" => do return .get (← text "key") caps
  | some "put" => do
      let key ← text "key"
      return .put key (← Outcome.require "missing field value" (j.field "value")) caps
  | some "del" => do return .del (← text "key") caps
  | some "list" =>
      .ok (.list (((j.field "prefix").bind Json.asStr).getD "")
        (((j.field "limit").bind Json.asU64).getD 0) caps)
  | _ => .error "unknown variant"

namespace AuthKv

/-- Reads back exactly the values that were sent. -/
noncomputable def readJson : ByteArray → Except String Json := Outcome.readBack enc

noncomputable def readRequest (payload : ByteArray) : Except String KvReq :=
  readJson payload >>= KvReq.ofJson

theorem readJson_enc (j : Json) : readJson (enc j) = .ok j :=
  Outcome.readBack_print enc_injective j

theorem readRequest_enc (j : Json) : readRequest j.compact.toUTF8 = KvReq.ofJson j := by
  have h : readJson j.compact.toUTF8 = .ok j := readJson_enc j
  rw [readRequest, h]
  rfl

/-- A field of a request is the store's chain, or the last one given under its name. -/
theorem field_attach (store : MeshKvStore) (request : List (String × Json)) (k : String) :
    (store.attach request).field k =
      if k = "caps" ∧ store.caps.isSome then store.caps.map .str
      else request.foldl (fun acc e => if k = e.1 then some e.2 else acc) none := by
  obtain ⟨caps⟩ := store
  cases caps with
  | none => simp [MeshKvStore.attach, Json.field_ofFields]
  | some caps => simp [MeshKvStore.attach, Json.field_ofFields, List.foldl_append]

theorem wire_json (store : MeshKvStore) :
    Wire (fun _ => True) readRequest readJson store where
  reply j _ := readJson_enc j
  get key := by
    rw [readRequest_enc]
    cases hcaps : store.caps <;> simp [KvReq.ofJson, field_attach, hcaps, Outcome.require]
  put key value _ := by
    rw [readRequest_enc]
    cases hcaps : store.caps <;>
      simp [KvReq.ofJson, field_attach, hcaps, Outcome.require, bind, Except.bind, pure,
        Except.pure]
  del key := by
    rw [readRequest_enc]
    cases hcaps : store.caps <;> simp [KvReq.ofJson, field_attach, hcaps, Outcome.require]
  list pfx := by
    rw [readRequest_enc]
    cases hcaps : store.caps <;> simp [KvReq.ofJson, field_attach, hcaps, Json.asU64]

end AuthKv

namespace StoreOp

open AuthKv

theorem answers_eq_iff_put :
    let ls := [(.put "s.token" (.str "x"), quietAmbient), (.get "s.token", quietAmbient)]
    let s : KvState := ⟨∅, Audit.new "vault-1"⟩
    Machine.answers (remote Iam.symbolic enforcingServer readRequest readJson ⟨none⟩) ls s =
        Machine.answers (fun l m => l.1.inMemory m) ls s.m ↔
      Machine.Along (fun l m => l.1.inMemory m) (fun l m => l.1.Carried m) ls s.m :=
  answers_eq_iff (wire_json _) (by simp [quietAmbient])
    (by simp [StoreOp.Storable, CeIam.Storable]) _ allStorable_empty

/-- From empty stores on, a null that is put is found in memory and missing over the mesh. -/
theorem null_record_missing :
    ¬ ∀ ls : List (StoreOp × Ambient), (∀ l ∈ ls, ∀ op, l.2.propose op = .applied) →
      Machine.answers (remote Iam.symbolic enforcingServer readRequest readJson ⟨none⟩) ls
          ⟨∅, Audit.new "vault-1"⟩ =
        Machine.answers (fun l m => l.1.inMemory m) ls ∅ := by
  intro hclaim
  have applies : ∀ op, quietAmbient.propose op = .applied := fun _ => rfl
  have hsame := hclaim [(.put "k" .null, quietAmbient), (.get "k", quietAmbient)]
    (by simp [quietAmbient])
  obtain ⟨t, hput, ht⟩ := overMesh_writerLocal Iam.symbolic enforcingServer
    (wire_json ⟨none⟩) applies (.put "k" .null) (.null _) ⟨∅, Audit.new "vault-1"⟩
    allStorable_empty
  obtain ⟨u, hget, -⟩ := overMesh_writerLocal Iam.symbolic enforcingServer
    (wire_json ⟨none⟩) applies (.get "k") trivial t (by
      rw [ht]
      exact allStorable_empty.insert "k" (.null _))
  have hanswer : (.ok (carried (.get "k") t.m)) = (inMemory (.get "k") t.m).1 := by
    simp only [Machine.answers, remote, hput, hget, List.cons.injEq] at hsame
    rw [hsame.2.1, ht]
  have hcarried := (carried_eq_iff (.get "k") t.m).mp hanswer
  rw [ht] at hcarried
  exact hcarried (by simp [inMemory])

end StoreOp

end CeIam
