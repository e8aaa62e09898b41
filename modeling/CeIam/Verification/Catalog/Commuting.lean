import CeIam.Library.Swaps
import CeIam.Verification.Catalog.Compaction

/-! # Operations that commute

An operation writes at most one role, one policy, and the attachments it names. Two
operations that write different things, or the same thing alike, can change places. -/

namespace CeIam

namespace CatalogOp

/-! ## Conflicts -/

/-- The role an operation puts or removes. -/
def roleName : CatalogOp → Option String
  | .putRole r => some r.name
  | .removeRole name => some name
  | _ => none

/-- The policy an operation puts or removes. -/
def policyName : CatalogOp → Option String
  | .putPolicy name _ => some name
  | .removePolicy name => some name
  | _ => none

/-- The principal and role an operation attaches or detaches. -/
def attachment : CatalogOp → Option (Principal × String)
  | .attachRole p role => some (p, role)
  | .detachRole p role => some (p, role)
  | _ => none

inductive Conflict : CatalogOp → CatalogOp → Prop where
  | role {a b : CatalogOp} {name : String} : a.roleName = some name → b.roleName = some name →
      Conflict a b
  | policy {a b : CatalogOp} {name : String} : a.policyName = some name →
      b.policyName = some name → Conflict a b
  | attachment {a b : CatalogOp} {pair : Principal × String} : a.attachment = some pair →
      b.attachment = some pair → Conflict a b
  | removed (name : String) (p : Principal) : Conflict (.removeRole name) (.attachRole p name)
  | attached (p : Principal) (name : String) : Conflict (.attachRole p name) (.removeRole name)

theorem Conflict.symm {a b : CatalogOp} (h : a.Conflict b) : b.Conflict a := by
  cases h with
  | role ha hb => exact .role hb ha
  | policy ha hb => exact .policy hb ha
  | attachment ha hb => exact .attachment hb ha
  | removed name p => exact .attached p name
  | attached p name => exact .removed name p

theorem conflict_removeRole_attachRole {name role : String} {p : Principal} :
    (removeRole name).Conflict (attachRole p role) ↔ name = role := by
  constructor
  · intro h
    cases h with
    | role _ hb => cases hb
    | policy ha _ => cases ha
    | attachment ha _ => cases ha
    | removed => rfl
  · rintro rfl
    exact .removed name p

/-! ## What an operation writes -/

/-- What an operation leaves under a role name, if it writes there. -/
def writesRole (name : String) : CatalogOp → Option (Option Role)
  | .putRole r => if r.name = name then some (some r) else none
  | .removeRole n => if n = name then some none else none
  | _ => none

/-- What an operation leaves under a policy name, if it writes there. -/
def writesPolicy (name : String) : CatalogOp → Option (Option Policy)
  | .putPolicy n policy => if n = name then some (some policy) else none
  | .removePolicy n => if n = name then some none else none
  | _ => none

/-- Whether an operation leaves a role attached to a principal, if it decides that. -/
def writesAttachment (p : Principal) (role : String) : CatalogOp → Option Prop
  | .removeRole name => if role = name then some False else none
  | .attachRole q name => if q = p ∧ name = role then some True else none
  | .detachRole q name => if q = p ∧ name = role then some False else none
  | _ => none

theorem writesRole_eq_none {op : CatalogOp} {name : String} (h : op.roleName ≠ some name) :
    op.writesRole name = none := by
  cases op <;> simp_all [writesRole, roleName]

theorem writesPolicy_eq_none {op : CatalogOp} {name : String} (h : op.policyName ≠ some name) :
    op.writesPolicy name = none := by
  cases op <;> simp_all [writesPolicy, policyName]

theorem writesAttachment_eq_some {op : CatalogOp} {p : Principal} {role : String} {value : Prop}
    (h : op.writesAttachment p role = some value) :
    (value = True ∧ op = .attachRole p role) ∨
      (value = False ∧ (op = .detachRole p role ∨ op = .removeRole role)) := by
  cases op with
  | removeRole name =>
      simp only [writesAttachment, Option.ite_none_right_eq_some, Option.some.injEq] at h
      exact .inr ⟨h.2.symm, .inr (by rw [h.1])⟩
  | attachRole q name =>
      simp only [writesAttachment, Option.ite_none_right_eq_some, Option.some.injEq] at h
      exact .inl ⟨h.2.symm, by rw [h.1.1, h.1.2]⟩
  | detachRole q name =>
      simp only [writesAttachment, Option.ite_none_right_eq_some, Option.some.injEq] at h
      exact .inr ⟨h.2.symm, .inl (by rw [h.1.1, h.1.2])⟩
  | putRole r => simp [writesAttachment] at h
  | putPolicy name policy => simp [writesAttachment] at h
  | removePolicy name => simp [writesAttachment] at h

/-- Operations that do not conflict decide an attachment alike if they both decide it. -/
theorem writesAttachment_agree {a b : CatalogOp} (h : ¬ a.Conflict b) {p : Principal}
    {role : String} {v w : Prop} (ha : a.writesAttachment p role = some v)
    (hb : b.writesAttachment p role = some w) : v = w := by
  rcases writesAttachment_eq_some ha with ⟨rfl, rfl⟩ | ⟨rfl, hop⟩
  · rcases writesAttachment_eq_some hb with ⟨rfl, -⟩ | ⟨-, rfl | rfl⟩
    · rfl
    · exact absurd (.attachment rfl rfl) h
    · exact absurd (.attached p role) h
  · rcases writesAttachment_eq_some hb with ⟨-, rfl⟩ | ⟨rfl, -⟩
    · rcases hop with rfl | rfl
      · exact absurd (.attachment rfl rfl) h
      · exact absurd (.removed role p) h
    · rfl

end CatalogOp

namespace Catalog

variable {c : Catalog} {a b : CatalogOp}

theorem get_roles_update (c : Catalog) (op : CatalogOp) (name : String) :
    (c.update op).roles[name]? = (op.writesRole name).getD c.roles[name]? := by
  cases op with
  | putRole r =>
      simp only [update, CatalogOp.writesRole, OrdMap.get_insert]
      split <;> rfl
  | removeRole n =>
      simp only [update, CatalogOp.writesRole, OrdMap.get_erase]
      split <;> rfl
  | _ => rfl

theorem get_policies_update (c : Catalog) (op : CatalogOp) (name : String) :
    (c.update op).policies[name]? = (op.writesPolicy name).getD c.policies[name]? := by
  cases op with
  | putPolicy n policy =>
      simp only [update, CatalogOp.writesPolicy, OrdMap.get_insert]
      split <;> rfl
  | removePolicy n =>
      simp only [update, CatalogOp.writesPolicy, OrdMap.get_erase]
      split <;> rfl
  | _ => rfl

theorem attached_update_iff (c : Catalog) (op : CatalogOp) (p : Principal) (role : String) :
    (c.update op).Attached p role ↔ (op.writesAttachment p role).getD (c.Attached p role) := by
  rw [attached_update]
  cases op with
  | removeRole name =>
      by_cases h : role = name <;> simp [CatalogOp.writesAttachment, h]
  | attachRole q name =>
      by_cases h : q = p ∧ name = role <;> simp [CatalogOp.writesAttachment, h]
  | detachRole q name =>
      by_cases h : q = p ∧ name = role <;> simp [CatalogOp.writesAttachment, h]
  | _ => rfl

/-! ## Exchanging two operations -/

/-- Writes of which only one happens, or which agree, can change places. -/
theorem getD_comm {α : Type} {v w : Option α} (h : ∀ a b, v = some a → w = some b → a = b)
    (o : α) : w.getD (v.getD o) = v.getD (w.getD o) := by
  cases v with
  | none => rfl
  | some a =>
      cases w with
      | none => rfl
      | some b => exact (h a b rfl rfl).symm

/-- Operations that do not conflict leave the same content in either order. -/
theorem update_comm (hc : c.Tidy) (h : ¬ a.Conflict b) :
    ((c.update a).update b).SameContent ((c.update b).update a) where
  roles := by
    apply OrdMap.ext
    intro name
    simp only [get_roles_update]
    refine getD_comm (fun v w hv hw => ?_) _
    by_cases ha : a.roleName = some name
    · by_cases hb : b.roleName = some name
      · exact absurd (.role ha hb) h
      · rw [CatalogOp.writesRole_eq_none hb] at hw
        cases hw
    · rw [CatalogOp.writesRole_eq_none ha] at hv
      cases hv
  policies := by
    apply OrdMap.ext
    intro name
    simp only [get_policies_update]
    refine getD_comm (fun v w hv hw => ?_) _
    by_cases ha : a.policyName = some name
    · by_cases hb : b.policyName = some name
      · exact absurd (.policy ha hb) h
      · rw [CatalogOp.writesPolicy_eq_none hb] at hw
        cases hw
    · rw [CatalogOp.writesPolicy_eq_none ha] at hv
      cases hv
  attachments := by
    refine attachments_eq ((hc.update a).update b) ((hc.update b).update a) ?_
    intro p role
    simp only [attached_update_iff]
    rw [getD_comm fun v w hv hw => CatalogOp.writesAttachment_agree h hv hw]

theorem SameContent.apply {d : Catalog} (h : c.SameContent d) (op : CatalogOp)
    (actor actor' : Option Principal) : (c.apply op actor).SameContent (d.apply op actor') :=
  ((sameContent_apply c op actor).trans (h.update op)).trans (sameContent_apply d op actor').symm

theorem apply_comm (hc : c.Tidy) (h : ¬ a.Conflict b) (actor actor' : Option Principal) :
    ((c.apply a actor).apply b actor').SameContent ((c.apply b actor').apply a actor) := by
  have hleft : ((c.apply a actor).apply b actor').SameContent ((c.update a).update b) :=
    (sameContent_apply c a actor).apply b actor' none |>.trans (sameContent_apply _ b none)
  have hright : ((c.apply b actor').apply a actor).SameContent ((c.update b).update a) :=
    (sameContent_apply c b actor').apply a actor none |>.trans (sameContent_apply _ a none)
  exact (hleft.trans (update_comm hc h)).trans hright.symm

theorem Tidy.apply (hc : c.Tidy) (op : CatalogOp) (actor : Option Principal) :
    (c.apply op actor).Tidy :=
  (sameContent_apply c op actor).symm.tidy (hc.update op)

theorem tidy_ofOps (ops : List (CatalogOp × Option Principal)) : (ofOps ops).Tidy :=
  foldl_preserves (fun _ e hc => hc.apply e.1 e.2) ops tidy_new

/-- Logs that differ by exchanges of operations that do not conflict. -/
def Rearranged (log log' : CatalogLog) : Prop :=
  Relation.ReflTransGen (Swap fun e e' => e.1.Conflict e'.1) log.entries log'.entries

theorem sameContent_of_rearranged {log log' : CatalogLog} (h : Rearranged log log') :
    log.replay.SameContent log'.replay := by
  have htidy : ∀ (c : Catalog) (e : CatalogOp × Option String), c.Tidy →
      (CatalogLog.applyEntry c e).Tidy := fun _ e hc => hc.apply e.1 _
  have hstep : ∀ (c d : Catalog) (e : CatalogOp × Option String), c.SameContent d →
      (CatalogLog.applyEntry c e).SameContent (CatalogLog.applyEntry d e) :=
    fun _ _ e hsame => hsame.apply e.1 _ _
  have hcomm : ∀ (c : Catalog) (e e' : CatalogOp × Option String), c.Tidy →
      ¬ e.1.Conflict e'.1 →
      (CatalogLog.applyEntry (CatalogLog.applyEntry c e) e').SameContent
        (CatalogLog.applyEntry (CatalogLog.applyEntry c e') e) :=
    fun _ _ _ hc hne => apply_comm hc hne _ _
  rw [CatalogLog.replay_eq, CatalogLog.replay_eq]
  exact foldl_swaps htidy hstep hcomm .refl (fun _ _ _ => .trans) h tidy_new

/-- Operations that do not conflict commute on every catalog, and logs that differ by
exchanges of such operations replay to the same content. -/
theorem independent_ops_commute :
    (∀ (ops : List (CatalogOp × Option Principal)) (a b : CatalogOp)
      (actor actor' : Option Principal), ¬ a.Conflict b →
      (((ofOps ops).apply a actor).apply b actor').SameContent
        (((ofOps ops).apply b actor').apply a actor) ∧
      ∀ p, (((ofOps ops).apply a actor).apply b actor').effectiveGrants p =
        (((ofOps ops).apply b actor').apply a actor).effectiveGrants p) ∧
    ∀ log log' : CatalogLog, Rearranged log log' → log.replay.SameContent log'.replay := by
  constructor
  · intro ops a b actor actor' h
    have hsame := apply_comm (tidy_ofOps ops) h actor actor'
    exact ⟨hsame, CatalogStore.effectiveGrants_congr hsame⟩
  · exact fun _ _ => sameContent_of_rearranged

/-- A role is removed before or after another one is attached. -/
theorem independent_ops_commute_roles :
    let removed : CatalogOp := .removeRole "ops"
    let attached : CatalogOp := .attachRole ⟨.filled 1⟩ "dev"
    (((ofOps []).apply removed none).apply attached none).SameContent
        (((ofOps []).apply attached none).apply removed none) ∧
      (CatalogLog.replay ⟨[(removed, none), (attached, none)]⟩).SameContent
        (CatalogLog.replay ⟨[(attached, none), (removed, none)]⟩) := by
  intro removed attached
  have hne : ¬ removed.Conflict attached := by
    rw [CatalogOp.conflict_removeRole_attachRole]
    decide
  exact ⟨(independent_ops_commute.1 [] removed attached none none hne).1,
    independent_ops_commute.2 _ _ (.single (.mk [] [] hne))⟩

end Catalog

end CeIam
