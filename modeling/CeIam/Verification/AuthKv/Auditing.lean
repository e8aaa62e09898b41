import CeIam.Verification.AuthKv.Backends

/-! # What the audit records

Every decision about sensitive records is to be recorded once, and nothing else. A run does
so when it has no list that is gated and allowed, and no mutation of another record that is
denied. -/

namespace CeIam

/-! ## Counters -/

namespace Audit

variable {a : Audit} {now : UInt64} {actor target : String} {action : Action} {allowed : Bool}

/-- A record counts once, for its actor, target and decision. -/
theorem count_record (actor' target' : String) (allowed' : Bool) :
    (a.record now actor action target allowed).count actor' target' allowed' =
      a.count actor' target' allowed' +
        if actor = actor' ∧ target = target' ∧ allowed = allowed' then 1 else 0 := by
  simp only [count, record, OrdMap.get_insert, toLex_inj, Prod.mk.injEq]
  by_cases h : actor = actor' ∧ target = target'
  · obtain ⟨rfl, rfl⟩ := h
    cases allowed <;> cases allowed' <;> simp
  · have hne : ¬ (actor = actor' ∧ target = target' ∧ allowed = allowed') :=
      fun hall => h ⟨hall.1, hall.2.1⟩
    simp [h, hne]

theorem record_ne : a.record now actor action target allowed ≠ a := by
  intro h
  have hcount : (a.record now actor action target allowed).count actor target allowed =
      a.count actor target allowed + 1 := by
    rw [count_record, if_pos ⟨rfl, rfl, rfl⟩]
  rw [h] at hcount
  omega

end Audit

/-! ## Requests -/

/-- Whether a request reads, writes, deletes or lists sensitive records. -/
def KvReq.touches : KvReq → Bool
  | .get key _ => isSensitiveKey key
  | .put key _ _ => isSensitiveKey key
  | .del key _ => isSensitiveKey key
  | .list pfx _ _ => AuthKv.touchesSensitive pfx

def KvReq.action : KvReq → Action
  | .get _ _ => .kvRead
  | .put _ _ _ => .kvWrite
  | .del _ _ => .kvDelete
  | .list _ _ _ => .kvRead

def KvReq.target : KvReq → String
  | .get key _ => key
  | .put key _ _ => key
  | .del key _ => key
  | .list pfx _ _ => pfx ++ "*"

/-- The request is no list that is gated and allowed, and no mutation of another record that
is denied. -/
def KvReq.Plain (decision : Bool) : KvReq → Prop
  | .get _ _ => True
  | .put key _ _ => isSensitiveKey key = true ∨ decision = true
  | .del key _ => isSensitiveKey key = true ∨ decision = true
  | .list pfx _ _ => AuthKv.touchesSensitive pfx = false ∨ decision = false

/-- Whether the server records a request. -/
def KvReq.records (decision : Bool) : KvReq → Bool
  | .get key _ => isSensitiveKey key
  | .put key _ _ => isSensitiveKey key || !decision
  | .del key _ => isSensitiveKey key || !decision
  | .list pfx _ _ => AuthKv.touchesSensitive pfx && !decision

/-- What is recorded is what touches sensitive records exactly for a plain request. -/
theorem KvReq.records_eq_touches_iff (decision : Bool) (req : KvReq) :
    req.records decision = req.touches ↔ req.Plain decision := by
  cases req with
  | get key caps => simp [records, touches, Plain]
  | put key value caps =>
      simp only [records, touches, Plain]
      cases isSensitiveKey key <;> cases decision <;> simp
  | del key caps =>
      simp only [records, touches, Plain]
      cases isSensitiveKey key <;> cases decision <;> simp
  | list pfx limit caps =>
      simp only [records, touches, Plain]
      cases AuthKv.touchesSensitive pfx <;> cases decision <;> simp

/-- A request as it reaches the server. -/
structure Delivery where
  env : Ambient
  sender : String
  payload : ByteArray

namespace AuthKv

variable (cc : CeCap) (kv : AuthKv) (decode : ByteArray → Except String KvReq)

/-- The decision of the gate that the request has to pass. -/
def decision (env : Ambient) (sender : String) : KvReq → Bool
  | .get _ caps => (kv.readAllowed cc env sender caps).isOk
  | .put _ _ caps => (kv.writeAllowed cc env sender caps).isOk
  | .del _ caps => (kv.writeAllowed cc env sender caps).isOk
  | .list _ _ caps => (kv.readAllowed cc env sender caps).isOk

def serve (d : Delivery) (s : KvState) : ByteArray × KvState :=
  kv.handleRequest cc d.env decode d.sender d.payload s

/-- The audit in which a request about sensitive records is recorded once, and no other. -/
def expected (d : Delivery) (a : Audit) : Audit :=
  match decode d.payload with
  | .ok req =>
      if req.touches then
        a.record d.env.recordedAt d.sender req.action req.target (kv.decision cc d.env d.sender req)
      else a
  | .error _ => a

/-- The request is about sensitive records, with this sender, target and decision. -/
def counts (actor target : String) (allowed : Bool) (d : Delivery) : Bool :=
  match decode d.payload with
  | .ok req =>
      req.touches && decide (d.sender = actor ∧ req.target = target ∧
        kv.decision cc d.env d.sender req = allowed)
  | .error _ => false

/-- The request is no list that is gated and allowed, and no mutation of another record that
is denied. -/
def Plain (d : Delivery) : Prop :=
  ∀ req, decode d.payload = .ok req → req.Plain (kv.decision cc d.env d.sender req)

/-- Every request is recorded as expected, and the counters have counted the requests about
sensitive records. -/
structure Audited (ls : List Delivery) (s : KvState) : Prop where
  steps : Machine.Along (kv.serve cc decode)
    (fun d s => (kv.serve cc decode d s).2.audit = kv.expected cc decode d s.audit) ls s
  counters : ∀ actor target allowed,
    (Machine.after (kv.serve cc decode) ls s).audit.count actor target allowed =
      s.audit.count actor target allowed + ls.countP (kv.counts cc decode actor target allowed)

/-! ## What a request records -/

variable {cc kv decode} {env : Ambient} {sender : String} {s : KvState} {d : Delivery}
  {ls : List Delivery}

theorem propose_audit (op : KvOp) (failure : String) :
    (propose env op failure s).2.audit = s.audit := by
  rw [propose]
  cases env.propose op with
  | applied => rfl
  | failed e reached => cases reached <;> rfl

theorem mutate_audit (op : KvOp) (key : String) (action : Action) (denial failure caps : String) :
    (kv.mutate cc env op key action denial failure sender caps s).2.audit =
      if isSensitiveKey key || !(kv.writeAllowed cc env sender caps).isOk then
        s.audit.record env.recordedAt sender action key (kv.writeAllowed cc env sender caps).isOk
      else s.audit := by
  rw [mutate]
  cases kv.writeAllowed cc env sender caps with
  | error reason => simp [record, Except.isOk, Except.toBool]
  | ok u =>
      simp only [propose_audit]
      cases isSensitiveKey key <;> simp [record, Except.isOk, Except.toBool]

theorem handleGet_audit (key caps : String) :
    (kv.handleGet cc env sender key caps s).2.audit =
      if isSensitiveKey key then
        s.audit.record env.recordedAt sender .kvRead key (kv.readAllowed cc env sender caps).isOk
      else s.audit := by
  rw [handleGet]
  by_cases hsensitive : isSensitiveKey key = true
  · rw [if_pos hsensitive, if_pos hsensitive]
    cases kv.readAllowed cc env sender caps <;> simp [record, Except.isOk, Except.toBool]
  · rw [if_neg hsensitive, if_neg hsensitive]

theorem handleList_audit (pfx : String) (limit : ℕ) (caps : String) :
    (kv.handleList cc env sender pfx limit caps s).2.audit =
      if touchesSensitive pfx && !(kv.readAllowed cc env sender caps).isOk then
        s.audit.record env.recordedAt sender .kvRead (pfx ++ "*")
          (kv.readAllowed cc env sender caps).isOk
      else s.audit := by
  rw [handleList]
  by_cases htouches : touchesSensitive pfx = true
  · rw [if_pos htouches, htouches]
    cases kv.readAllowed cc env sender caps <;> simp [record, Except.isOk, Except.toBool]
  · rw [if_neg htouches, Bool.eq_false_iff.mpr htouches]
    simp

/-- A request is recorded once, with its decision, or not at all. -/
theorem serve_audit {req : KvReq} (hreq : decode d.payload = .ok req) :
    (kv.serve cc decode d s).2.audit =
      if req.records (kv.decision cc d.env d.sender req) then
        s.audit.record d.env.recordedAt d.sender req.action req.target
          (kv.decision cc d.env d.sender req)
      else s.audit := by
  rw [serve, handleRequest, hreq]
  cases req with
  | get key caps => exact handleGet_audit ..
  | put key value caps => exact mutate_audit ..
  | del key caps => exact mutate_audit ..
  | list pfx limit caps => exact handleList_audit ..

theorem serve_audit_error {e : String} (hreq : decode d.payload = .error e) :
    (kv.serve cc decode d s).2.audit = s.audit := by
  rw [serve, handleRequest, hreq]

/-- One request is recorded as expected exactly when it is plain. -/
theorem serve_expected_iff :
    (kv.serve cc decode d s).2.audit = kv.expected cc decode d s.audit ↔ kv.Plain cc decode d := by
  rw [expected]
  cases hreq : decode d.payload with
  | error e => simp [serve_audit_error hreq, Plain, hreq]
  | ok req =>
      have hplain : kv.Plain cc decode d ↔ req.Plain (kv.decision cc d.env d.sender req) := by
        simp [Plain, hreq]
      rw [serve_audit hreq, hplain, ← KvReq.records_eq_touches_iff]
      simp only
      cases req.records (kv.decision cc d.env d.sender req) <;> cases req.touches
      · simp
      · simp [Audit.record_ne.symm]
      · simp [Audit.record_ne]
      · simp

/-- What is expected counts one request about sensitive records, and no other. -/
theorem count_expected (a : Audit) (actor target : String) (allowed : Bool) :
    (kv.expected cc decode d a).count actor target allowed =
      a.count actor target allowed +
        if kv.counts cc decode actor target allowed d then 1 else 0 := by
  rw [expected, counts]
  cases hreq : decode d.payload with
  | error e => simp
  | ok req =>
      simp only
      by_cases htouches : req.touches = true
      · simp [htouches, Audit.count_record]
      · simp [htouches]

/-- The counters of a run of requests that are recorded as expected. -/
theorem count_after (hplain : ∀ d ∈ ls, kv.Plain cc decode d) (actor target : String)
    (allowed : Bool) :
    (Machine.after (kv.serve cc decode) ls s).audit.count actor target allowed =
      s.audit.count actor target allowed +
        ls.countP (kv.counts cc decode actor target allowed) := by
  induction ls generalizing s with
  | nil => simp
  | cons d ls ih =>
      have hd := serve_expected_iff (s := s).mpr (hplain d List.mem_cons_self)
      rw [Machine.after_cons, ih fun e he => hplain e (List.mem_cons_of_mem _ he), hd,
        count_expected, List.countP_cons]
      omega

/-- A run is audited exactly when all of its requests are plain. -/
theorem audited_iff : kv.Audited cc decode ls s ↔ ∀ d ∈ ls, kv.Plain cc decode d := by
  have hstep : ∀ (d : Delivery) (s : KvState),
      (kv.serve cc decode d s).2.audit = kv.expected cc decode d s.audit ↔
        kv.Plain cc decode d := fun _ _ => serve_expected_iff
  have hsteps := Machine.along_iff (f := kv.serve cc decode) hstep ls s
  constructor
  · exact fun h => hsteps.mp h.steps
  · exact fun hplain => ⟨hsteps.mpr hplain, count_after hplain⟩

/-! ## A list by the writer -/

/-- The writer lists its secrets, and the audit knows nothing of it. -/
theorem allowed_list_unrecorded :
    ¬ ∀ ls, enforcingServer.Audited Iam.symbolic readRequest ls ⟨∅, Audit.new "vault-1"⟩ := by
  intro hclaim
  let payload := (MeshKvStore.attach ⟨none⟩
    [("op", .str "list"), ("prefix", .str "s."), ("limit", .int 1000)]).compact.toUTF8
  have haudited := hclaim [⟨quietAmbient, enforcingServer.selfIdHex, payload⟩]
  have hplain := serve_expected_iff.mp haudited.steps.1
  have hlist := hplain _ ((wire_json ⟨none⟩).list "s.")
  simp only [KvReq.Plain, decision, readAllowed_self] at hlist
  cases hlist with
  | inl hopen => exact absurd hopen (by decide)
  | inr hdenied => cases hdenied

end AuthKv

end CeIam
