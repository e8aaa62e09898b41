import CeIam.Verification.AuthKv.Auditing

/-! # Who changes the map

A request changes the map at most at the key that it names, and the requests of remote peers
without the write ability do not change it at all while the write gate is enforced. -/

namespace CeIam

/-- The operation that a request asks for. -/
def KvReq.op : KvReq → Option KvOp
  | .get _ _ => none
  | .put key value _ => some (.put key value)
  | .del key _ => some (.del key)
  | .list _ _ _ => none

/-- The key that a request names. -/
def KvReq.key : KvReq → Option String
  | .get key _ => some key
  | .put key _ _ => some key
  | .del key _ => some key
  | .list _ _ _ => none

def KvOp.key : KvOp → String
  | .put key _ => key
  | .del key => key

theorem KvReq.key_of_op {req : KvReq} {op : KvOp} (h : req.op = some op) :
    req.key = some op.key := by
  cases req <;> cases h <;> rfl

/-- An operation changes the map at its key only. -/
theorem KvOp.get_apply (op : KvOp) (m : OrdMap String Json) {k : String} (hk : op.key ≠ k) :
    (op.apply m)[k]? = m[k]? := by
  cases op with
  | put key value =>
      rw [apply, OrdMap.get_insert]
      exact if_neg hk
  | del key =>
      rw [apply, OrdMap.get_erase]
      exact if_neg hk

namespace AuthKv

/-- No capability chain of the request is accepted for writing with this sender. -/
def WriteDenied (cc : CeCap) (kv : AuthKv) (decode : ByteArray → Except String KvReq)
    (d : Delivery) : Prop :=
  ∀ req requester, decode d.payload = .ok req → Principal.parse d.sender = .ok requester →
    kv.iam.verify cc kv.selfId [] d.env.now requester abilityKvWrite req.caps kv.isRevoked ≠ .ok ()

/-- The request leaves every key alone that it does not name. -/
def ChangesAtMost (decode : ByteArray → Except String KvReq) (d : Delivery)
    (m n : OrdMap String Json) : Prop :=
  ∀ k, (∀ req, decode d.payload = .ok req → req.key ≠ some k) → n[k]? = m[k]?

variable (cc : CeCap) (kv : AuthKv) (decode : ByteArray → Except String KvReq)

/-- Every request changes the map at most at the key it names; requests of remote peers that
are denied the write ability leave the map of an enforcing server as it is. -/
structure Integrity (ls : List Delivery) (s : KvState) : Prop where
  named : Machine.Along (kv.serve cc decode)
    (fun d s => ChangesAtMost decode d s.m (kv.serve cc decode d s).2.m) ls s
  denied : kv.enforceWrite = true → (∀ d ∈ ls, d.sender ≠ kv.selfIdHex) →
    (∀ d ∈ ls, kv.WriteDenied cc decode d) → (Machine.after (kv.serve cc decode) ls s).m = s.m

variable {cc kv decode} {env : Ambient} {sender : String} {s : KvState} {d : Delivery}
  {ls : List Delivery}

/-! ## What a request does to the map -/

theorem propose_m (op : KvOp) (failure : String) :
    (propose env op failure s).2.m = s.m ∨ (propose env op failure s).2.m = op.apply s.m := by
  rw [propose]
  cases env.propose op with
  | applied => exact .inr rfl
  | failed e reached =>
      cases reached with
      | false => exact .inl rfl
      | true => exact .inr rfl

theorem mutate_m (op : KvOp) (key : String) (action : Action) (denial failure caps : String) :
    (kv.mutate cc env op key action denial failure sender caps s).2.m = s.m ∨
      kv.writeAllowed cc env sender caps = .ok () ∧
        (kv.mutate cc env op key action denial failure sender caps s).2.m = op.apply s.m := by
  rw [mutate]
  cases kv.writeAllowed cc env sender caps with
  | error reason => exact .inl (record_m ..)
  | ok u =>
      have hkept : (if isSensitiveKey key = true then record env sender action key true s
          else s).m = s.m := by
        split_ifs
        · exact record_m ..
        · rfl
      rw [← hkept]
      exact (propose_m op failure).imp id fun h => ⟨rfl, h⟩

theorem handleGet_m (key caps : String) : (kv.handleGet cc env sender key caps s).2.m = s.m := by
  rw [handleGet]
  split_ifs
  · cases kv.readAllowed cc env sender caps with
    | error reason => exact record_m ..
    | ok u => exact record_m ..
  · rfl

theorem handleList_m (pfx : String) (limit : ℕ) (caps : String) :
    (kv.handleList cc env sender pfx limit caps s).2.m = s.m := by
  rw [handleList]
  split_ifs
  · cases kv.readAllowed cc env sender caps with
    | error reason => exact record_m ..
    | ok u => rfl
  · rfl

variable (cc kv decode d s) in
/-- A request leaves the map, or it is allowed to write and its operation is applied. -/
theorem serve_m : (kv.serve cc decode d s).2.m = s.m ∨
    ∃ req op, decode d.payload = .ok req ∧ req.op = some op ∧
      kv.writeAllowed cc d.env d.sender req.caps = .ok () ∧
      (kv.serve cc decode d s).2.m = op.apply s.m := by
  rw [serve, handleRequest]
  cases hreq : decode d.payload with
  | error e => exact .inl rfl
  | ok req =>
      cases req with
      | get key caps => exact .inl (handleGet_m ..)
      | put key value caps =>
          exact (mutate_m ..).imp id fun h => ⟨_, _, rfl, rfl, h⟩
      | del key caps =>
          exact (mutate_m ..).imp id fun h => ⟨_, _, rfl, rfl, h⟩
      | list pfx limit caps => exact .inl (handleList_m ..)

theorem serve_changesAtMost : ChangesAtMost decode d s.m (kv.serve cc decode d s).2.m := by
  intro k hk
  cases serve_m cc kv decode s d with
  | inl hkept => rw [hkept]
  | inr hwrote =>
      obtain ⟨req, op, hreq, hop, -, happly⟩ := hwrote
      have hne : op.key ≠ k := by
        rintro rfl
        exact hk req hreq (KvReq.key_of_op hop)
      rw [happly, op.get_apply s.m hne]

theorem writeAllowed_error {caps : String} (henforce : kv.enforceWrite = true)
    (hremote : sender ≠ kv.selfIdHex)
    (hdenied : ∀ requester, Principal.parse sender = .ok requester →
      kv.iam.verify cc kv.selfId [] env.now requester abilityKvWrite caps kv.isRevoked ≠ .ok ()) :
    ∃ reason, kv.writeAllowed cc env sender caps = .error reason := by
  rw [writeAllowed, henforce]
  exact gate_error hremote hdenied

/-- A request of a remote peer that is denied the write ability leaves the map. -/
theorem serve_denied (henforce : kv.enforceWrite = true) (hremote : d.sender ≠ kv.selfIdHex)
    (hdenied : kv.WriteDenied cc decode d) : (kv.serve cc decode d s).2.m = s.m := by
  cases serve_m cc kv decode s d with
  | inl hkept => exact hkept
  | inr hwrote =>
      obtain ⟨req, op, hreq, -, hallowed, -⟩ := hwrote
      obtain ⟨reason, herror⟩ := writeAllowed_error henforce hremote
        fun requester hparse => hdenied req requester hreq hparse
      rw [herror] at hallowed
      cases hallowed

/-- The map of the server keeps its integrity in every run. -/
theorem integrity (cc : CeCap) (kv : AuthKv) (decode : ByteArray → Except String KvReq)
    (ls : List Delivery) (s : KvState) : kv.Integrity cc decode ls s := by
  constructor
  · induction ls generalizing s with
    | nil => trivial
    | cons d ls ih => exact ⟨serve_changesAtMost, ih _⟩
  · intro henforce hremote hdenied
    induction ls generalizing s with
    | nil => rfl
    | cons d ls ih =>
        rw [Machine.after_cons, ih]
        · exact serve_denied henforce (hremote d List.mem_cons_self) (hdenied d List.mem_cons_self)
        · exact fun e he => hremote e (List.mem_cons_of_mem _ he)
        · exact fun e he => hdenied e (List.mem_cons_of_mem _ he)

/-- A remote peer without a chain asks to overwrite a secret. -/
def overwrite : Delivery where
  env := quietAmbient
  sender := remotePeer.hex
  payload := (MeshKvStore.attach ⟨none⟩
    [("op", .str "put"), ("key", .str "s.token"), ("value", .null)]).compact.toUTF8

theorem overwrite_denied : enforcingServer.WriteDenied Iam.symbolic readRequest overwrite := by
  intro req requester hreq _
  have hput := (wire_json ⟨none⟩).put "s.token" .null (.null _)
  have hcaps : req = .put "s.token" .null "" := Except.ok.inj (hreq.symm.trans hput)
  subst hcaps
  exact Iam.verify_empty Iam.symbolic_empty

theorem integrity_overwrite (s : KvState) :
    (Machine.after (enforcingServer.serve Iam.symbolic readRequest) [overwrite] s).m = s.m := by
  apply (integrity Iam.symbolic enforcingServer readRequest [overwrite] s).denied rfl
  · simp only [List.forall_mem_singleton]
    decide
  · simp only [List.forall_mem_singleton]
    exact overwrite_denied

end AuthKv

end CeIam
