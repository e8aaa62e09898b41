import CeIam.Library.Run
import CeIam.Model.Device

/-! # The life cycle of registered devices

What a call can do to the registry is stated once; who becomes an administrator, who stays
one and who disappears follows for every run. -/

namespace CeIam.DeviceStore

/-! ## Calls -/

inductive Op where
  | claim (deviceId pubB64 nodeId : String)
  | request (deviceId pubB64 nodeId label : String)
  | setNodeId (deviceId nodeId : String)
  | approve (deviceId : String)
  | revoke (deviceId : String)
deriving DecidableEq

inductive Reply where
  | flag (b : Bool)
  | role (r : String)
  | outcome (o : RevokeOutcome)
deriving DecidableEq

/-- One call, with the clock it reads, what becomes of its write, and what it returned. -/
structure Call where
  op : Op
  now : UInt64
  write : Except PersistFault Unit
  result : Except String Reply

/-- A store with its file. -/
abbrev Kept := DeviceStore × Disk

/-- The result of a call as a reply. -/
def reply {α : Type} (f : α → Reply) (r : Except String α × Kept) : Except String Reply × Kept :=
  (r.1.map f, r.2)

def exec (now : UInt64) (write : Except PersistFault Unit) (s : Kept) :
    Op → Except String Reply × Kept
  | .claim deviceId pubB64 nodeId => reply .flag (s.1.claim write deviceId pubB64 nodeId now s.2)
  | .request deviceId pubB64 nodeId label =>
      reply .role (s.1.request write deviceId pubB64 nodeId label now s.2)
  | .setNodeId deviceId nodeId => reply .flag (s.1.setNodeId write deviceId nodeId s.2)
  | .approve deviceId => reply .flag (s.1.approve write deviceId s.2)
  | .revoke deviceId => reply .outcome (s.1.revoke write deviceId s.2)

def called (s : Kept) (c : Call) (t : Kept) : Prop :=
  exec c.now c.write s c.op = (c.result, t)

/-- The part of a call under the lock. -/
def Op.locked (now : UInt64) (m : Devices) : Op → Locked Reply
  | .claim deviceId pubB64 nodeId => (Locked.claim deviceId m pubB64 nodeId now).map .flag
  | .request deviceId pubB64 nodeId label =>
      (Locked.request deviceId m pubB64 nodeId label now).map .role
  | .setNodeId deviceId nodeId => (Locked.setNodeId deviceId m nodeId).map .flag
  | .approve deviceId => (Locked.approve deviceId m).map .flag
  | .revoke deviceId => (Locked.revoke deviceId m).map .outcome

theorem reply_commit {α : Type} (f : α → Reply) (write : Except PersistFault Unit)
    (locked : Devices → Locked α) (s : DeviceStore) (disk : Disk) :
    reply f (s.commit write locked disk) = s.commit write (fun m => (locked m).map f) disk := by
  simp only [commit, reply]
  cases locked s.inner with
  | unchanged a => rfl
  | changed a m => cases write <;> rfl

/-- Every call is its locked part, and then the write. -/
theorem exec_eq (now : UInt64) (write : Except PersistFault Unit) (s : Kept) (op : Op) :
    exec now write s op = s.1.commit write (op.locked now) s.2 := by
  cases op with
  | claim deviceId pubB64 nodeId => exact reply_commit ..
  | request deviceId pubB64 nodeId label => exact reply_commit ..
  | setNodeId deviceId nodeId => exact reply_commit ..
  | approve deviceId => exact reply_commit ..
  | revoke deviceId => exact reply_commit ..

/-! ## What happens under the lock -/

/-- A registered device with the admin role. -/
def Admin (m : Devices) (id : String) : Prop := ∃ d, m[id]? = some d ∧ d.role = roleAdmin

def HasAdmin (m : Devices) : Prop := ∃ id, Admin m id

/-- Every change a call can make to the registry. -/
inductive Change (now : UInt64) (m : Devices) : Op → Reply → Devices → Prop where
  | claim (id pubB64 nodeId : String) (hnone : ¬ HasAdmin m) :
      Change now m (.claim id pubB64 nodeId) (.flag true)
        (m.insert id ⟨pubB64, roleAdmin, "claimed", now, nodeId⟩)
  | enlist (id pubB64 nodeId label : String) (hfresh : m[id]? = none) :
      Change now m (.request id pubB64 nodeId label) (.role rolePending)
        (m.insert id ⟨pubB64, rolePending, label, now, nodeId⟩)
  | refresh (id pubB64 nodeId label role : String) (d e : Device) (hd : m[id]? = some d)
      (hrole : e.role = d.role) :
      Change now m (.request id pubB64 nodeId label) (.role role) (m.insert id e)
  | rebind (id nodeId : String) (d : Device) (hd : m[id]? = some d) :
      Change now m (.setNodeId id nodeId) (.flag true) (m.insert id { d with nodeId := nodeId })
  | approve (id : String) (d : Device) (hd : m[id]? = some d) (hpending : d.role = rolePending) :
      Change now m (.approve id) (.flag true) (m.insert id { d with role := roleAdmin })
  | revoke (id : String) (d : Device) (hd : m[id]? = some d)
      (hguard : ¬ (d.role = roleAdmin ∧ Devices.adminCount m ≤ 1)) :
      Change now m (.revoke id) (.outcome .removed) (m.erase id)

/-- The replies that say that nothing was changed. -/
def Op.Refuses : Op → Reply → Prop
  | .claim _ _ _, r => r = .flag false
  | .request _ _ _ _, _ => False
  | .setNodeId _ _, r => r = .flag false
  | .approve _, r => r = .flag false
  | .revoke _, r => r = .outcome .notFound ∨ r = .outcome .lastAdmin

theorem hasAdmin_iff {m : Devices} :
    m.toList.any (fun e => e.2.role = roleAdmin) = true ↔ HasAdmin m := by
  simp only [List.any_eq_true, decide_eq_true_eq, HasAdmin, Admin]
  constructor
  · rintro ⟨⟨id, d⟩, hmem, hrole⟩
    exact ⟨id, d, OrdMap.mem_toList.mp hmem, hrole⟩
  · rintro ⟨id, d, hd, hrole⟩
    exact ⟨(id, d), OrdMap.mem_toList.mpr hd, hrole⟩

/-- Under the lock a call refuses, or makes its change. -/
theorem locked_cases (now : UInt64) (m : Devices) (op : Op) :
    match op.locked now m with
    | .unchanged r => op.Refuses r
    | .changed r n => Change now m op r n := by
  cases op with
  | claim id pubB64 nodeId =>
      simp only [Op.locked, Locked.claim]
      split_ifs with h
      · exact rfl
      · exact .claim id pubB64 nodeId (mt hasAdmin_iff.mpr h)
  | request id pubB64 nodeId label =>
      simp only [Op.locked, Locked.request]
      cases hd : m[id]? with
      | none => exact .enlist id pubB64 nodeId label hd
      | some d =>
          simp only
          split_ifs
          all_goals exact .refresh id pubB64 nodeId label _ d _ hd rfl
  | setNodeId id nodeId =>
      simp only [Op.locked, Locked.setNodeId]
      cases hd : m[id]? with
      | none => exact rfl
      | some d => exact .rebind id nodeId d hd
  | approve id =>
      simp only [Op.locked, Locked.approve]
      cases hd : m[id]? with
      | none => exact rfl
      | some d =>
          simp only
          split_ifs with hpending
          · exact .approve id d hd hpending
          · exact rfl
  | revoke id =>
      simp only [Op.locked, Locked.revoke]
      cases hd : m[id]? with
      | none => exact .inl rfl
      | some d =>
          simp only
          split_ifs with hguard
          · exact .inr rfl
          · exact .revoke id d hd hguard

/-- A call returns without a trace, or changes the map and then writes it. -/
theorem called_cases {s t : Kept} {c : Call} (h : called s c t) :
    (∃ r, c.op.locked c.now s.1.inner = .unchanged r ∧ c.op.Refuses r ∧ c.result = .ok r ∧ t = s) ∨
      ∃ r m, c.op.locked c.now s.1.inner = .changed r m ∧ Change c.now s.1.inner c.op r m ∧
        t.1 = { s.1 with inner := m } ∧
        ((c.write = .ok () ∧ c.result = .ok r ∧ t.2 = some (devicesJson m).pretty) ∨
          ∃ fault e, c.write = .error fault ∧ c.result = .error e ∧ t.2 = s.2) := by
  have hcases := locked_cases c.now s.1.inner c.op
  rw [called, exec_eq, commit] at h
  cases hlocked : c.op.locked c.now s.1.inner with
  | unchanged r =>
      rw [hlocked] at h hcases
      obtain ⟨hresult, rfl⟩ := Prod.mk.inj h
      exact .inl ⟨r, rfl, hcases, hresult.symm, rfl⟩
  | changed r m =>
      rw [hlocked] at h hcases
      obtain ⟨hresult, rfl⟩ := Prod.mk.inj h
      refine .inr ⟨r, m, rfl, hcases, rfl, ?_⟩
      cases hwrite : c.write with
      | ok u =>
          rw [hwrite] at hresult
          exact .inl ⟨rfl, hresult.symm, rfl⟩
      | error fault =>
          rw [hwrite] at hresult
          exact .inr ⟨fault, _, rfl, hresult.symm, rfl⟩

/-! ## Administrators -/

variable {now : UInt64} {m n : Devices} {op : Op} {r : Reply}

/-- Of two administrators one is not the given device. -/
theorem exists_other_admin (h : 1 < Devices.adminCount m) (id : String) :
    ∃ other, other ≠ id ∧ Admin m other := by
  have hsorted := m.sorted_toList.sublist (List.filter_sublist (p := fun e => e.2.role = roleAdmin))
  have hadmin : ∀ e ∈ m.toList.filter (fun e => e.2.role = roleAdmin), Admin m e.1 := by
    intro e he
    obtain ⟨hmem, hrole⟩ := List.mem_filter.mp he
    exact ⟨e.2, OrdMap.mem_toList.mp hmem, of_decide_eq_true hrole⟩
  rw [Devices.adminCount] at h
  cases hlist : m.toList.filter (fun e => e.2.role = roleAdmin) with
  | nil => simp [hlist] at h
  | cons a rest =>
      cases rest with
      | nil => simp [hlist] at h
      | cons b rest =>
          rw [hlist] at hsorted hadmin
          have hlt : a.1 < b.1 := (List.pairwise_cons.mp hsorted).1 b List.mem_cons_self
          by_cases ha : a.1 = id
          · refine ⟨b.1, ?_, hadmin b (List.mem_cons_of_mem _ List.mem_cons_self)⟩
            exact fun hb => hlt.ne (ha.trans hb.symm)
          · exact ⟨a.1, ha, hadmin a List.mem_cons_self⟩

/-- What a change does to the entry of one device. -/
inductive Fate (m : Devices) (id : String) : Op → Reply → Option Device → Option Device → Prop where
  | same (op : Op) (r : Reply) (o : Option Device) : Fate m id op r o o
  | claimed (pubB64 nodeId : String) (r : Reply) (o : Option Device) (e : Device)
      (hnone : ¬ HasAdmin m) : Fate m id (.claim id pubB64 nodeId) r o (some e)
  | enlisted (op : Op) (r : Reply) (e : Device) (hrole : e.role = rolePending) :
      Fate m id op r none (some e)
  | updated (op : Op) (r : Reply) (d e : Device) (hrole : e.role = d.role) :
      Fate m id op r (some d) (some e)
  | approved (r : Reply) (d e : Device) (hpending : d.role = rolePending)
      (hrole : e.role = roleAdmin) : Fate m id (.approve id) r (some d) (some e)
  | revoked (d : Device) (hguard : ¬ (d.role = roleAdmin ∧ Devices.adminCount m ≤ 1)) :
      Fate m id (.revoke id) (.outcome .removed) (some d) none

theorem Change.fate (h : Change now m op r n) (id : String) : Fate m id op r m[id]? n[id]? := by
  cases h with
  | claim a pubB64 nodeId hnone =>
      rw [OrdMap.get_insert]
      split_ifs with ha
      · subst ha
        exact .claimed pubB64 nodeId _ _ _ hnone
      · exact .same _ _ _
  | enlist a pubB64 nodeId label hfresh =>
      rw [OrdMap.get_insert]
      split_ifs with ha
      · rw [← ha, hfresh]
        exact .enlisted _ _ _ rfl
      · exact .same _ _ _
  | refresh a pubB64 nodeId label role d e hd hrole =>
      rw [OrdMap.get_insert]
      split_ifs with ha
      · rw [← ha, hd]
        exact .updated _ _ d e hrole
      · exact .same _ _ _
  | rebind a nodeId d hd =>
      rw [OrdMap.get_insert]
      split_ifs with ha
      · rw [← ha, hd]
        exact .updated _ _ d _ rfl
      · exact .same _ _ _
  | approve a d hd hpending =>
      rw [OrdMap.get_insert]
      split_ifs with ha
      · subst ha
        rw [hd]
        exact .approved _ d _ hpending rfl
      · exact .same _ _ _
  | revoke a d hd hguard =>
      rw [OrdMap.get_erase]
      split_ifs with ha
      · subst ha
        rw [hd]
        exact .revoked d hguard
      · exact .same _ _ _

/-- An administrator that is not removed stays one. -/
theorem Change.keeps (h : Change now m op r n) {id : String} (hadmin : Admin m id) :
    Admin n id ∨ n[id]? = none := by
  obtain ⟨d, hd, hrole⟩ := hadmin
  have hfate := h.fate id
  rw [hd] at hfate
  rw [Admin]
  generalize n[id]? = after at hfate ⊢
  cases hfate with
  | same => exact .inl ⟨d, rfl, hrole⟩
  | claimed pubB64 nodeId _ _ e hnone => exact absurd ⟨id, d, hd, hrole⟩ hnone
  | updated _ _ _ e hsame => exact .inl ⟨e, rfl, hsame.trans hrole⟩
  | approved _ _ e _ hrole' => exact .inl ⟨e, rfl, hrole'⟩
  | revoked => exact .inr rfl

/-- A device becomes an administrator by the first claim or by an approval. -/
theorem Change.promotes (h : Change now m op r n) {id : String} (hbefore : ¬ Admin m id)
    (hafter : Admin n id) :
    (¬ HasAdmin m ∧ ∃ pubB64 nodeId, op = .claim id pubB64 nodeId) ∨
      op = .approve id ∧ ∃ d, m[id]? = some d ∧ d.role = rolePending := by
  obtain ⟨e, he, hrole⟩ := hafter
  have hfate := h.fate id
  rw [he] at hfate
  rw [Admin] at hbefore
  generalize m[id]? = before at hfate hbefore ⊢
  cases hfate with
  | same => exact absurd ⟨e, rfl, hrole⟩ hbefore
  | claimed pubB64 nodeId _ _ _ hnone => exact .inl ⟨hnone, pubB64, nodeId, rfl⟩
  | enlisted _ _ _ hpending =>
      rw [hrole] at hpending
      exact absurd hpending (by decide)
  | updated _ _ d _ hsame => exact absurd ⟨d, rfl, hsame.symm.trans hrole⟩ hbefore
  | approved _ d _ hpending => exact .inr ⟨rfl, d, rfl, hpending⟩

/-- Only a revocation removes an entry. -/
theorem Change.removes (h : Change now m op r n) {id : String} (hbefore : m[id]? ≠ none)
    (hafter : n[id]? = none) : op = .revoke id ∧ r = .outcome .removed := by
  have hfate := h.fate id
  rw [hafter] at hfate
  generalize m[id]? = before at hfate hbefore
  cases hfate with
  | same => exact absurd rfl hbefore
  | revoked => exact ⟨rfl, rfl⟩

/-- The last administrator stays. -/
theorem Change.guards (h : Change now m op r n) (hadmin : HasAdmin m) : HasAdmin n := by
  obtain ⟨id, hid⟩ := hadmin
  cases h.keeps hid with
  | inl hstays => exact ⟨id, hstays⟩
  | inr hgone =>
      -- The guard counted another administrator, which no revocation of this one touches.
      obtain ⟨d, hd, hrole⟩ := hid
      have hfate := h.fate id
      rw [hd, hgone] at hfate
      cases hfate with
      | revoked _ hguard =>
          have hmany : 1 < Devices.adminCount m := by
            by_contra hfew
            exact hguard ⟨hrole, not_lt.mp hfew⟩
          obtain ⟨other, hne, hother⟩ := exists_other_admin hmany id
          cases h.keeps hother with
          | inl hstays => exact ⟨other, hstays⟩
          | inr hgone' =>
              obtain ⟨e, he, -⟩ := hother
              have hop := (h.removes (by simp [he]) hgone').1
              cases hop
              exact absurd rfl hne

theorem Change.not_refuses (h : Change now m op r n) : ¬ op.Refuses r := by
  cases h with
  | claim => exact fun h => by cases h
  | enlist => exact id
  | refresh => exact id
  | rebind => exact fun h => by cases h
  | approve => exact fun h => by cases h
  | revoke =>
      intro h
      cases h with
      | inl h => cases h
      | inr h => cases h

/-! ## Steps of a run -/

/-- The guarantees of one call. -/
structure LifeCycle (s : Kept) (c : Call) (t : Kept) : Prop where
  guards : HasAdmin s.1.inner → HasAdmin t.1.inner
  promotes : ∀ id, ¬ Admin s.1.inner id → Admin t.1.inner id →
    (¬ HasAdmin s.1.inner ∧ ∃ pubB64 nodeId, c.op = .claim id pubB64 nodeId) ∨
      c.op = .approve id ∧ ∃ d, s.1.inner[id]? = some d ∧ d.role = rolePending
  keeps : ∀ id, Admin s.1.inner id → Admin t.1.inner id ∨ t.1.inner[id]? = none
  removes : ∀ id, s.1.inner[id]? ≠ none → t.1.inner[id]? = none →
    c.op = .revoke id ∧ c.result = .ok (.outcome .removed)
  refuses : ∀ r, c.result = .ok r → c.op.Refuses r → t = s

/-- A revocation that passes the guards has its write succeed. -/
def RevocationWritten (s : Kept) (c : Call) : Prop :=
  ∀ id r m, c.op = .revoke id → c.op.locked c.now s.1.inner = .changed r m → c.write = .ok ()

/-- A call has its guarantees exactly when it is no revocation whose write fails. -/
theorem lifeCycle_iff {s t : Kept} {c : Call} (h : called s c t) :
    LifeCycle s c t ↔ RevocationWritten s c := by
  rcases called_cases h with ⟨r, hlocked, hrefuses, hresult, rfl⟩ |
    ⟨r, m, hlocked, hchange, hinner, hwritten⟩
  · have hvoid : RevocationWritten t c := by
      intro id r' m _ hchanged
      rw [hlocked] at hchanged
      cases hchanged
    exact iff_of_true ⟨id, fun _ hn hy => absurd hy hn, fun _ => .inl,
      fun _ hn hy => absurd hy hn, fun _ _ _ => rfl⟩ hvoid
  · have hmap : t.1.inner = m := by rw [hinner]
    constructor
    · intro hcycle id r' m' hop _
      rcases hwritten with ⟨hwrite, -, -⟩ | ⟨fault, e, hwrite, hresult, -⟩
      · exact hwrite
      · -- The entry is gone, but the call returned an error.
        rw [hop] at hchange
        cases hchange with
        | revoke _ d hd hguard =>
            have hgone : t.1.inner[id]? = none := by rw [hmap]; simp
            have hremoved := (hcycle.removes id (by simp [hd]) hgone).2
            rw [hresult] at hremoved
            cases hremoved
    · intro hwritten'
      refine ⟨?_, ?_, ?_, ?_, ?_⟩
      · rw [hmap]
        exact hchange.guards
      · rw [hmap]
        exact fun id => hchange.promotes
      · rw [hmap]
        exact fun id => hchange.keeps
      · rw [hmap]
        intro id hbefore hafter
        obtain ⟨hop, rfl⟩ := hchange.removes hbefore hafter
        refine ⟨hop, ?_⟩
        rcases hwritten with ⟨-, hresult, -⟩ | ⟨fault, e, hwrite, -, -⟩
        · exact hresult
        · have hok := hwritten' id _ m hop hlocked
          rw [hwrite] at hok
          cases hok
      · intro r' hresult' hrefuses
        rcases hwritten with ⟨-, hresult, -⟩ | ⟨fault, e, -, hresult, -⟩
        · rw [hresult] at hresult'
          cases hresult'
          exact absurd hrefuses hchange.not_refuses
        · rw [hresult] at hresult'
          cases hresult'

/-! ## Runs -/

/-- A claim that made its device the operator. -/
def Call.claims (c : Call) : Bool :=
  match c.op, c.result with
  | .claim _ _ _, .ok (.flag true) => true
  | _, _ => false

theorem called_guards {s t : Kept} {c : Call} (h : called s c t) :
    HasAdmin s.1.inner → HasAdmin t.1.inner := by
  rcases called_cases h with ⟨r, -, -, -, rfl⟩ | ⟨r, m, -, hchange, hinner, -⟩
  · exact id
  · rw [hinner]
    exact hchange.guards

/-- A claim succeeds where there is no administrator, and makes one. -/
theorem called_claims {s t : Kept} {c : Call} (h : called s c t) (hclaims : c.claims = true) :
    ¬ HasAdmin s.1.inner ∧ HasAdmin t.1.inner := by
  rw [Call.claims] at hclaims
  split at hclaims
  · next id pubB64 nodeId hop hresult =>
      rcases called_cases h with ⟨r, -, hrefuses, hresult', -⟩ | ⟨r, m, -, hchange, hinner, -⟩
      · rw [hop] at hrefuses
        rw [hresult, hrefuses] at hresult'
        cases hresult'
      · rw [hop] at hchange
        rw [hinner]
        cases hchange with
        | claim _ _ _ hnone => exact ⟨hnone, id, _, by rw [OrdMap.get_insert, if_pos rfl], rfl⟩
  · cases hclaims

/-- At most one claim succeeds, and none where there is an administrator. -/
theorem claims_le_one {s t : Kept} {calls : List Call} (h : Run called s calls t) :
    calls.countP Call.claims ≤ 1 ∧ (0 < calls.countP Call.claims → HasAdmin t.1.inner) := by
  induction h with
  | nil => simp
  | @snoc t u calls c _ hc ih =>
      obtain ⟨hle, hadmin⟩ := ih
      rw [List.countP_append]
      cases hclaims : c.claims with
      | false =>
          have hzero : [c].countP Call.claims = 0 := by simp [hclaims]
          rw [hzero, Nat.add_zero]
          exact ⟨hle, fun hpos => called_guards hc (hadmin hpos)⟩
      | true =>
          obtain ⟨hnone, hmade⟩ := called_claims hc hclaims
          have hfirst : calls.countP Call.claims = 0 := Nat.eq_zero_of_not_pos (mt hadmin hnone)
          have hone : [c].countP Call.claims = 1 := by simp [hclaims]
          rw [hfirst, hone]
          exact ⟨le_rfl, fun _ => hmade⟩

/-- The guarantees of a run: there is an administrator from the first one on, at most one
claim succeeds, and every call has its own guarantees. -/
structure LifeCycles (s : Kept) (calls : List Call) (t : Kept) : Prop where
  guards : HasAdmin s.1.inner → HasAdmin t.1.inner
  claims : calls.countP Call.claims ≤ 1
  steps : Run (fun s c t => called s c t ∧ LifeCycle s c t) s calls t

/-- A run keeps its guarantees exactly when every revocation that passes the guards is
written. -/
theorem life_cycles_iff {s t : Kept} {calls : List Call} (h : Run called s calls t) :
    LifeCycles s calls t ↔ Run (fun s c t => called s c t ∧ RevocationWritten s c) s calls t := by
  constructor
  · intro hcycles
    exact hcycles.steps.mono fun _ _ _ hstep => ⟨hstep.1, (lifeCycle_iff hstep.1).mp hstep.2⟩
  · intro hrun
    refine ⟨?_, (claims_le_one h).1, ?_⟩
    · exact fun hadmin => h.invariant (fun _ _ _ hs hstep => called_guards hstep hs) hadmin
    · exact hrun.mono fun _ _ _ hstep => ⟨hstep.1, (lifeCycle_iff hstep.1).mpr hstep.2⟩

/-- A call with what it returns. -/
def Call.of (op : Op) (now : UInt64) (write : Except PersistFault Unit) (s : Kept) : Call :=
  ⟨op, now, write, (exec now write s op).1⟩

theorem called_of (op : Op) (now : UInt64) (write : Except PersistFault Unit) (s : Kept) :
    called s (.of op now write s) (exec now write s op).2 :=
  rfl

/-- The calls of some operations one after another, all of which are written. -/
def written : List Op → Kept → List Call
  | [], _ => []
  | op :: ops, s => .of op 0 (.ok ()) s :: written ops (exec 0 (.ok ()) s op).2

theorem run_written (ops : List Op) (s : Kept) :
    Run called s (written ops s) (ops.foldl (fun s op => (exec 0 (.ok ()) s op).2) s) := by
  induction ops generalizing s with
  | nil => exact .nil s
  | cons op ops ih => exact (Run.single (called_of op 0 (.ok ()) s)).append (ih _)

theorem write_of_written {ops : List Op} {s : Kept} : ∀ c ∈ written ops s, c.write = .ok () := by
  induction ops generalizing s with
  | nil => simp [written]
  | cons op ops ih => exact List.forall_mem_cons.mpr ⟨rfl, ih⟩

/-- A desk is claimed, a phone is enrolled by it, and the phone is revoked. -/
def phoneOps : List Op :=
  [.claim "desk" "key" "", .request "phone" "pub" "" "my phone", .approve "phone", .revoke "phone"]

def noDevices : Kept := (⟨"data/devices.json", ∅⟩, none)

/-- The calls on the phone keep the guarantees, and only the desk is left. -/
theorem life_cycles_iff_claim :
    (written phoneOps noDevices).map Call.result =
        [.ok (.flag true), .ok (.role rolePending), .ok (.flag true), .ok (.outcome .removed)] ∧
      ∃ t, Run called noDevices (written phoneOps noDevices) t ∧
        LifeCycles noDevices (written phoneOps noDevices) t ∧
        t.1.inner.toList.map Prod.fst = ["desk"] := by
  have hrun := run_written phoneOps noDevices
  refine ⟨rfl, _, hrun, (life_cycles_iff hrun).mpr ?_, rfl⟩
  refine (hrun.restrict write_of_written).mono fun _ _ _ hstep => ⟨hstep.1, ?_⟩
  exact fun _ _ _ _ _ => hstep.2

/-! ## A revocation that is not written -/

/-- A registry with two administrators, kept in a file. -/
def twoAdmins : Kept :=
  let admin : Device := ⟨"key", roleAdmin, "env-seed", 0, ""⟩
  (⟨"data/devices.json", ((∅ : Devices).insert "desk" admin).insert "lost" admin⟩, none)

/-- A revocation whose write fails returns an error, but has removed its device. -/
theorem unwritten_revocation_removes :
    ¬ ∀ s calls t, Run called s calls t → LifeCycles s calls t := by
  intro hclaim
  let c := Call.of (.revoke "lost") 0 (.error .renameTemp) twoAdmins
  obtain ⟨-, -, hsteps⟩ := hclaim twoAdmins [c] _ (Run.single (called_of _ _ _ _))
  obtain ⟨-, hcycle⟩ := Run.single_iff.mp hsteps
  have hremoved := (hcycle.removes "lost" (by decide) (by decide)).2
  have hfailed : c.result = .error "rename devices into place" := rfl
  rw [hfailed] at hremoved
  cases hremoved

end CeIam.DeviceStore
