import CeIam.Verification.Catalog.Coherence

/-! # Compaction

The compacted log has one operation for each object of the catalog. Its replay holds the
same objects, and each object was put by an operation of the log it replaces, so it is
never longer. -/

namespace CeIam

/-! ## Objects -/

/-- What a catalog holds. -/
inductive CatalogObject where
  | role (name : String)
  | policy (name : String)
  | attachment (p : Principal) (role : String)
deriving DecidableEq

/-- The object an operation puts into the catalog. -/
def CatalogOp.object : CatalogOp → Option CatalogObject
  | .putRole r => some (.role r.name)
  | .putPolicy name _ => some (.policy name)
  | .attachRole p role => some (.attachment p role)
  | _ => none

namespace Catalog

def Holds (c : Catalog) : CatalogObject → Prop
  | .role name => ∃ r, c.roles[name]? = some r
  | .policy name => ∃ p, c.policies[name]? = some p
  | .attachment p role => c.Attached p role

/-- An operation adds at most the object it names. -/
theorem holds_update {c : Catalog} {op : CatalogOp} {o : CatalogObject}
    (h : (c.update op).Holds o) : c.Holds o ∨ op.object = some o := by
  cases o with
  | attachment p role =>
      have hattached := (attached_update c op p role).mp h
      cases op with
      | putRole r => exact .inl hattached
      | putPolicy name policy => exact .inl hattached
      | removePolicy name => exact .inl hattached
      | removeRole name => exact .inl hattached.1
      | detachRole q name => exact .inl hattached.1
      | attachRole q name =>
          rcases hattached with ⟨rfl, rfl⟩ | hattached
          · exact .inr rfl
          · exact .inl hattached
  | role name =>
      obtain ⟨r, hr⟩ := h
      cases op with
      | putRole s =>
          simp only [update, OrdMap.get_insert] at hr
          split at hr
          · next hname => exact .inr (by rw [CatalogOp.object, hname])
          · exact .inl ⟨r, hr⟩
      | removeRole n =>
          simp only [update, OrdMap.get_erase] at hr
          split at hr
          · cases hr
          · exact .inl ⟨r, hr⟩
      | _ => exact .inl ⟨r, hr⟩
  | policy name =>
      obtain ⟨p, hp⟩ := h
      cases op with
      | putPolicy n q =>
          simp only [update, OrdMap.get_insert] at hp
          split at hp
          · next hname => exact .inr (by rw [CatalogOp.object, hname])
          · exact .inl ⟨p, hp⟩
      | removePolicy n =>
          simp only [update, OrdMap.get_erase] at hp
          split at hp
          · cases hp
          · exact .inl ⟨p, hp⟩
      | _ => exact .inl ⟨p, hp⟩

/-- A well-formed catalog lists every attachment, once. -/
theorem mem_allAttachments {c : Catalog} (h : c.WellFormed) {p : Principal} {role : String} :
    (p, role) ∈ c.allAttachments ↔ c.Attached p role := by
  simp only [allAttachments, List.mem_flatMap, Attached, rolesFor]
  constructor
  · rintro ⟨⟨key, roles⟩, hentry, hmem⟩
    have hget := OrdMap.mem_toList.mp hentry
    obtain ⟨⟨q, rfl⟩, -, -, -⟩ := h.entries key roles hget
    simp only [Principal.parse_hex, List.mem_map, Prod.mk.injEq] at hmem
    obtain ⟨r, hr, rfl, rfl⟩ := hmem
    simpa [hget] using hr
  · intro hmem
    cases hget : c.attachments[p.hex]? with
    | none => simp [hget] at hmem
    | some roles =>
        rw [hget, Option.getD_some] at hmem
        exact ⟨(p.hex, roles), OrdMap.mem_toList.mpr hget, by simpa using hmem⟩

theorem nodup_allAttachments {c : Catalog} (h : c.WellFormed) : c.allAttachments.Nodup := by
  rw [allAttachments, List.nodup_flatMap]
  constructor
  · rintro ⟨key, roles⟩ hentry
    obtain ⟨⟨q, rfl⟩, -, hs, -⟩ := h.entries key roles (OrdMap.mem_toList.mp hentry)
    simp only [Principal.parse_hex]
    have hnodup : roles.Nodup := hs.imp ne_of_lt
    exact List.Nodup.map (fun _ _ hpair => (Prod.mk.inj hpair).2) hnodup
  · refine c.attachments.sorted_toList.imp_of_mem ?_
    rintro ⟨k, roles⟩ ⟨l, others⟩ hk hl hlt
    obtain ⟨⟨p, rfl⟩, -, -, -⟩ := h.entries k roles (OrdMap.mem_toList.mp hk)
    obtain ⟨⟨q, rfl⟩, -, -, -⟩ := h.entries l others (OrdMap.mem_toList.mp hl)
    -- Attachments of different principals are different.
    have hne : p ≠ q := by
      rintro rfl
      exact hlt.false
    simp only [Function.onFun, Principal.parse_hex, List.disjoint_left, List.mem_map]
    rintro x ⟨r, -, rfl⟩ ⟨s, -, hs⟩
    exact hne (congrArg Prod.fst hs).symm

end Catalog

namespace CatalogStore

open Catalog

/-- The objects of a catalog, in the order compaction writes them. -/
def objects (c : Catalog) : List CatalogObject :=
  c.roles.keys.map .role ++ c.policies.keys.map .policy ++
    c.allAttachments.map (fun e => .attachment e.1 e.2)

theorem mem_objects {c : Catalog} (h : c.WellFormed) {o : CatalogObject} :
    o ∈ objects c ↔ c.Holds o := by
  simp only [objects, List.mem_append, List.mem_map]
  cases o with
  | role name => simp [Holds, OrdMap.mem_iff_exists]
  | policy name => simp [Holds, OrdMap.mem_iff_exists]
  | attachment p role => simp [Holds, mem_allAttachments h]

theorem nodup_objects {c : Catalog} (h : c.WellFormed) : (objects c).Nodup := by
  refine List.nodup_append.mpr ⟨List.nodup_append.mpr ⟨?_, ?_, ?_⟩, ?_, ?_⟩
  · exact Std.ExtTreeMap.nodup_keys.map (fun _ _ => CatalogObject.role.inj)
  · exact Std.ExtTreeMap.nodup_keys.map (fun _ _ => CatalogObject.policy.inj)
  · simp
  · refine (nodup_allAttachments h).map ?_
    rintro ⟨p, r⟩ ⟨q, s⟩ heq
    simpa using heq
  · intro a ha b hb heq
    obtain ⟨e, -, rfl⟩ := List.mem_map.mp hb
    subst heq
    simp at ha

/-- Compaction writes one operation for each object. -/
theorem compactedOps_eq (c : Catalog) :
    compactedOps c = c.roles.toList.map (fun e => .putRole e.2) ++
      c.policies.toList.map (fun e => .putPolicy e.1 e.2) ++
      c.allAttachments.map (fun e => .attachRole e.1 e.2) := by
  rw [compactedOps]
  congr 2
  · exact OrdMap.filterMap_keys c.roles (fun _ => CatalogOp.putRole)
  · exact OrdMap.filterMap_keys c.policies CatalogOp.putPolicy

theorem length_compactedOps (c : Catalog) :
    (compactedOps c).length = c.roles.size + c.policies.size + c.allAttachments.length := by
  simp [compactedOps_eq, Std.ExtTreeMap.length_toList, Nat.add_assoc]

theorem length_objects (c : Catalog) : (objects c).length = (compactedOps c).length := by
  simp [objects, length_compactedOps, Std.ExtTreeMap.length_keys, Nat.add_assoc]

/-! ## Replaying the compacted log -/

theorem compactedLog_entries (c : Catalog) :
    (compactedLog c).entries = (compactedOps c).map (fun op => (op, none)) := by
  have general : ∀ (ops : List CatalogOp) (log : CatalogLog),
      (ops.foldl (fun log op => log.record op none) log).entries =
        log.entries ++ ops.map (fun op => (op, none)) := by
    intro ops
    induction ops with
    | nil => simp
    | cons op ops ih =>
        intro log
        rw [List.foldl_cons, ih]
        simp [CatalogLog.record]
  exact general (compactedOps c) .new

/-- Replaying entries changes the content as their operations do. -/
theorem foldl_applyEntry_sameContent (entries : List (CatalogOp × Option String)) {c d : Catalog}
    (h : c.SameContent d) :
    (entries.foldl CatalogLog.applyEntry c).SameContent
      ((entries.map Prod.fst).foldl update d) := by
  induction entries generalizing c d with
  | nil => exact h
  | cons e entries ih => exact ih ((sameContent_apply c e.1 _).trans (h.update e.1))

/-- The replay of a compacted log holds what its operations put into an empty catalog. -/
theorem replay_compactedLog (c : Catalog) :
    (compactedLog c).replay.SameContent ((compactedOps c).foldl update .new) := by
  have h := foldl_applyEntry_sameContent (compactedLog c).entries (.refl .new)
  rw [← CatalogLog.replay_eq, compactedLog_entries, List.map_map, Function.comp_def,
    List.map_id'] at h
  exact h

theorem validRun_append {c : Catalog} {ops more : List CatalogOp} (h : c.ValidRun ops)
    (k : (ops.foldl update c).ValidRun more) : c.ValidRun (ops ++ more) := by
  induction ops generalizing c with
  | nil => exact k
  | cons op ops ih => exact ⟨h.1, ih h.2 k⟩

theorem validRun_congr {c d : Catalog} (h : c.SameContent d) {ops : List CatalogOp}
    (k : c.ValidRun ops) : d.ValidRun ops := by
  induction ops generalizing c d with
  | nil => trivial
  | cons op ops ih => exact ⟨h.valid.mp k.1, ih (h.update op) k.2⟩

theorem WellFormed.foldl {c : Catalog} {ops : List CatalogOp} (h : c.WellFormed)
    (hops : c.ValidRun ops) : (ops.foldl Catalog.update c).WellFormed := by
  induction ops generalizing c with
  | nil => exact h
  | cons op ops ih => exact ih (h.update hops.1) hops.2

/-- Operations that need no other one are valid in any order. -/
theorem validRun_of_forall {ops : List CatalogOp} (h : ∀ op ∈ ops, ∀ c : Catalog, c.Valid op)
    (c : Catalog) : c.ValidRun ops := by
  induction ops generalizing c with
  | nil => trivial
  | cons op ops ih =>
      exact ⟨h op List.mem_cons_self c, ih (fun o ho => h o (List.mem_cons_of_mem _ ho)) _⟩

theorem foldl_putRole (es : List (String × Role)) (h : ∀ e ∈ es, e.2.name = e.1) (c : Catalog) :
    (es.map (fun e => CatalogOp.putRole e.2)).foldl update c =
      { c with roles := es.foldl (fun m e => m.insert e.1 e.2) c.roles } := by
  induction es generalizing c with
  | nil => rfl
  | cons e es ih =>
      rw [List.map_cons, List.foldl_cons, ih (fun a ha => h a (List.mem_cons_of_mem _ ha))]
      simp [update, h e List.mem_cons_self]

theorem foldl_putPolicy (es : List (String × Policy)) (c : Catalog) :
    (es.map (fun e => CatalogOp.putPolicy e.1 e.2)).foldl update c =
      { c with policies := es.foldl (fun m e => m.insert e.1 e.2) c.policies } := by
  induction es generalizing c with
  | nil => rfl
  | cons e es ih => rw [List.map_cons, List.foldl_cons, ih]; rfl

theorem foldl_attachRole (es : List (Principal × String)) (c : Catalog) :
    ((es.map (fun e => CatalogOp.attachRole e.1 e.2)).foldl update c).roles = c.roles ∧
      ((es.map (fun e => CatalogOp.attachRole e.1 e.2)).foldl update c).policies = c.policies ∧
      ∀ p role, ((es.map (fun e => CatalogOp.attachRole e.1 e.2)).foldl update c).Attached p role ↔
        (p, role) ∈ es ∨ c.Attached p role := by
  induction es generalizing c with
  | nil => simp
  | cons e es ih =>
      obtain ⟨hroles, hpolicies, hattached⟩ := ih (c.update (.attachRole e.1 e.2))
      refine ⟨hroles, hpolicies, ?_⟩
      intro p role
      rw [List.map_cons, List.foldl_cons, hattached, attached_update]
      simp only [List.mem_cons, Prod.ext_iff]
      tauto

theorem validRun_attachRole (es : List (Principal × String)) (c : Catalog)
    (h : ∀ e ∈ es, ∃ r, c.roles[e.2]? = some r) :
    c.ValidRun (es.map (fun e => .attachRole e.1 e.2)) := by
  induction es generalizing c with
  | nil => trivial
  | cons e es ih =>
      exact ⟨h e List.mem_cons_self, ih _ (fun a ha => h a (List.mem_cons_of_mem _ ha))⟩

/-- The operations of a compacted log are all valid, and put back what the catalog holds. -/
theorem compactedOps_rebuild {c : Catalog} (h : c.WellFormed) :
    Catalog.new.ValidRun (compactedOps c) ∧
      ((compactedOps c).foldl update .new).SameContent c := by
  have hnamed : ∀ e ∈ c.roles.toList, e.2.name = e.1 := fun e he =>
    (h.roleNamed e.1 e.2 (OrdMap.mem_toList.mp he)).1
  have hroles := foldl_putRole c.roles.toList hnamed .new
  have hpolicies := foldl_putPolicy c.policies.toList
    { Catalog.new with roles := c.roles.toList.foldl (fun m e => m.insert e.1 e.2) ∅ }
  have hrolesEq : c.roles.toList.foldl (fun m e => m.insert e.1 e.2) ∅ = c.roles :=
    OrdMap.foldl_insert_toList c.roles
  have hpoliciesEq : c.policies.toList.foldl (fun m e => m.insert e.1 e.2) ∅ = c.policies :=
    OrdMap.foldl_insert_toList c.policies
  -- The catalog before the attachments are put back.
  let bare : Catalog := { Catalog.new with roles := c.roles, policies := c.policies }
  have hbare : (c.roles.toList.map (fun e : String × Role => CatalogOp.putRole e.2) ++
      c.policies.toList.map (fun e : String × Policy => CatalogOp.putPolicy e.1 e.2)).foldl
        update .new = bare := by
    rw [List.foldl_append, hroles]
    change List.foldl update { Catalog.new with
      roles := c.roles.toList.foldl (fun m e => m.insert e.1 e.2) ∅ } _ = _
    rw [hpolicies]
    simp only [Catalog.new, hrolesEq, hpoliciesEq, bare]
  have hattach := foldl_attachRole c.allAttachments bare
  have hvalid : Catalog.new.ValidRun (compactedOps c) := by
    rw [compactedOps_eq]
    refine validRun_append (validRun_append ?_ ?_) ?_
    · refine validRun_of_forall ?_ _
      intro op hop d
      obtain ⟨e, he, rfl⟩ := List.mem_map.mp hop
      have hname := h.roleNamed e.1 e.2 (OrdMap.mem_toList.mp he)
      simpa [Valid, hname.1] using hname.2
    · refine validRun_of_forall ?_ _
      intro op hop d
      obtain ⟨e, he, rfl⟩ := List.mem_map.mp hop
      exact h.policyNamed e.1 e.2 (OrdMap.mem_toList.mp he)
    · rw [hbare]
      refine validRun_attachRole _ _ ?_
      rintro ⟨p, role⟩ he
      have hattached := (mem_allAttachments h).mp he
      simp only [Attached, rolesFor] at hattached
      cases hget : c.attachments[p.hex]? with
      | none => simp [hget] at hattached
      | some roles =>
          rw [hget, Option.getD_some] at hattached
          exact (h.entries _ _ hget).known role hattached
  refine ⟨hvalid, ?_⟩
  have hwell := WellFormed.foldl wellFormed_new hvalid
  rw [compactedOps_eq, List.foldl_append, hbare] at hwell ⊢
  refine ⟨hattach.1, hattach.2.1, attachments_eq hwell.tidy h.tidy ?_⟩
  intro p role
  rw [hattach.2.2, mem_allAttachments h]
  simp [bare, Attached, rolesFor, Catalog.new]

/-! ## Reachable stores -/

/-- Everything a replayed catalog holds was put there by an operation of the log. -/
theorem holds_replay (log : CatalogLog) {o : CatalogObject} (h : log.replay.Holds o) :
    o ∈ log.entries.filterMap (fun e => e.1.object) := by
  rw [CatalogLog.replay_eq] at h
  obtain ⟨entries⟩ := log
  induction entries using List.reverseRecOn with
  | nil => cases o <;> simp [Holds, Catalog.new, Attached, rolesFor] at h
  | append_singleton entries e ih =>
      simp only [List.foldl_append, List.foldl_cons, List.foldl_nil] at h
      rw [List.filterMap_append, List.mem_append]
      rcases holds_update h with h | h
      · exact .inl (ih h)
      · exact .inr (by simp [h])

/-- What holds of every store that calls reach from an empty one. -/
structure Reached (s : Stored) : Prop where
  coherent : Coherent s
  wellFormed : s.1.catalog.WellFormed
  bounded : s.1.log.len ≤ maxCatalogOps

theorem sameContent_compactedLog {c : Catalog} (h : c.WellFormed) :
    (compactedLog c).replay.SameContent c :=
  (replay_compactedLog c).trans (compactedOps_rebuild h).2

theorem len_compactedLog (c : Catalog) :
    (compactedLog c).len = c.roles.size + c.policies.size + c.allAttachments.length := by
  rw [CatalogLog.len, compactedLog_entries, List.length_map, length_compactedOps]

/-- Each object of the catalog takes one operation of its log, so compaction shortens it. -/
theorem Reached.shrinks {s : Stored} (h : Reached s) :
    (compactedLog s.1.catalog).len ≤ s.1.log.len := by
  have hsub : objects s.1.catalog ⊆ s.1.log.entries.filterMap (fun e => e.1.object) := by
    intro o ho
    have hheld := (mem_objects h.wellFormed).mp ho
    rw [h.coherent.live] at hheld
    exact holds_replay _ hheld
  calc (compactedLog s.1.catalog).len
      = (objects s.1.catalog).length := by
        rw [length_objects, length_compactedOps, len_compactedLog]
    _ ≤ (s.1.log.entries.filterMap (fun e => e.1.object)).length :=
        ((nodup_objects h.wellFormed).subperm hsub).length_le
    _ ≤ s.1.log.len := List.length_filterMap_le _ _

theorem reached_new (path : String) : Reached (⟨path, .new, .new⟩, none) where
  coherent := coherent_new path
  wellFormed := wellFormed_new
  bounded := by simp [CatalogLog.len, CatalogLog.new]

theorem Reached.call {s t : Stored} {c : Call} (h : Reached s) (hstep : called s c t) :
    Reached t := by
  refine ⟨h.coherent.call hstep, ?_, ?_⟩ <;> subst hstep <;>
    rcases call_cases s c with ⟨e, he⟩ | ⟨op, actor, -, hlen, hvalid, hok⟩ | ⟨-, hok⟩
  · rw [he]
    exact h.wellFormed
  · rw [hok]
    exact (sameContent_apply _ op actor).symm.wellFormed (h.wellFormed.update hvalid)
  · rw [hok]
    exact (sameContent_compactedLog h.wellFormed).symm.wellFormed h.wellFormed
  · rw [he]
    exact h.bounded
  · rw [hok]
    simpa [applied, CatalogLog.record, CatalogLog.len, Nat.succ_le_iff] using hlen
  · rw [hok]
    exact h.shrinks.trans h.bounded

theorem reached_of_run {parse : String → Except String CatalogLog} {path : String}
    {store : CatalogStore} (hopen : openStore parse path none = .ok store) {calls : List Call}
    {s : Stored} (hrun : Run called (store, none) calls s) : Reached s := by
  rw [openStore_missing hopen] at hrun
  exact hrun.invariant (fun _ _ _ => Reached.call) (reached_new path)

/-! ## Replaying the operations one by one -/

/-- Valid operations that fit are all accepted, and make up the log. -/
theorem run_valid {ops : List CatalogOp} {s : Stored} (hvalid : s.1.catalog.ValidRun ops)
    (hfits : s.1.log.len + ops.length ≤ maxCatalogOps) :
    ∃ t, Run succeeds s (ops.map (fun op => .apply op none (.ok ()))) t ∧
      t.1.log.entries = s.1.log.entries ++ ops.map (fun op => (op, none)) := by
  induction ops generalizing s with
  | nil => exact ⟨s, .nil s, by simp⟩
  | cons op ops ih =>
      have hlen : ¬ s.1.log.len ≥ maxCatalogOps := by
        simp only [List.length_cons] at hfits
        omega
      have hcall : succeeds s (.apply op none (.ok ())) (applied op none s.1) := by
        simp only [succeeds, CatalogStore.call, CatalogStore.apply, if_neg hlen,
          validate_eq_ok.mpr hvalid.1]
        rfl
      have hnext : (applied op none s.1).1.catalog.ValidRun ops :=
        validRun_congr (sameContent_apply _ op none).symm hvalid.2
      obtain ⟨t, hrun, hlog⟩ := ih hnext (by
        simp only [applied, CatalogLog.record, CatalogLog.len, List.length_append,
          List.length_cons, List.length_nil] at hfits ⊢
        omega)
      refine ⟨t, (Run.single hcall).append hrun, ?_⟩
      rw [hlog]
      simp [applied, CatalogLog.record]

/-! ## The specification of compaction -/

/-- What a successful compaction from `s` to `t` guarantees of the store. -/
structure CompactionSpec (s t : Stored) : Prop where
  getRole : ∀ name, t.1.catalog.getRole name = s.1.catalog.getRole name
  getPolicy : ∀ name, t.1.catalog.getPolicy name = s.1.catalog.getPolicy name
  rolesFor : ∀ p, t.1.catalog.rolesFor p = s.1.catalog.rolesFor p
  listRoles : t.1.catalog.listRoles = s.1.catalog.listRoles
  listPolicies : t.1.catalog.listPolicies = s.1.catalog.listPolicies
  effectiveGrants : ∀ p, t.1.catalog.effectiveGrants p = s.1.catalog.effectiveGrants p
  replays : ∃ u, Run succeeds (⟨t.1.path, .new, .new⟩, none)
    (t.1.log.entries.map (fun e => .apply e.1 none (.ok ()))) u ∧ u.1.log = t.1.log
  opCount : t.1.opCount = s.1.catalog.roles.size + s.1.catalog.policies.size +
    s.1.catalog.allAttachments.length
  shrinks : t.1.opCount ≤ s.1.opCount
  fits : t.1.opCount ≤ maxCatalogOps
  stable : ∀ outcome u, succeeds t (.compact outcome) u →
    u.1.log = t.1.log ∧ u.1.catalog = t.1.catalog

theorem effectiveGrants_congr {c d : Catalog} (h : c.SameContent d) (p : Principal) :
    c.effectiveGrants p = d.effectiveGrants p := by
  have hadd : c.addRole = d.addRole := by
    funext groups roleName
    rw [addRole, addRole, h.roles]
  rw [effectiveGrants, effectiveGrants, hadd, rolesFor_congr h.attachments]

theorem compactedLog_congr {c d : Catalog} (h : c.SameContent d) :
    compactedLog c = compactedLog d := by
  have hops : compactedOps c = compactedOps d := by
    rw [compactedOps_eq, compactedOps_eq, h.roles, h.policies, allAttachments, allAttachments,
      h.attachments]
  rw [compactedLog, compactedLog, hops]

theorem succeeds_compact {s t : Stored} {outcome : Except String Unit}
    (h : succeeds s (.compact outcome) t) : t = compacted s.1 := by
  rcases call_cases s (.compact outcome) with ⟨e, he⟩ | ⟨op, actor, hcall, -, -, -⟩ | ⟨-, hok⟩
  · rw [succeeds, he] at h
    cases h
  · cases hcall
  · rw [succeeds, hok] at h
    cases h
    rfl

@[simp] theorem compacted_log (s : CatalogStore) :
    (compacted s).1.log = compactedLog s.catalog := rfl

@[simp] theorem compacted_catalog (s : CatalogStore) :
    (compacted s).1.catalog = (compactedLog s.catalog).replay := rfl

@[simp] theorem compacted_opCount (s : CatalogStore) :
    (compacted s).1.opCount = (compactedLog s.catalog).len := rfl

@[simp] theorem compacted_path (s : CatalogStore) : (compacted s).1.path = s.path := rfl

/-- A fresh store accepts the compacted operations one by one, and ends with their log. -/
theorem compacted_replays {s : Stored} (h : Reached s) :
    ∃ u, Run succeeds (⟨s.1.path, .new, .new⟩, none)
      ((compactedLog s.1.catalog).entries.map (fun e => .apply e.1 none (.ok ()))) u ∧
      u.1.log = compactedLog s.1.catalog := by
  have hfits : (compactedOps s.1.catalog).length ≤ maxCatalogOps := by
    rw [length_compactedOps, ← len_compactedLog]
    exact h.shrinks.trans h.bounded
  obtain ⟨u, hrun, hlog⟩ := run_valid (s := (⟨s.1.path, .new, .new⟩, none))
    (compactedOps_rebuild h.wellFormed).1 (by simpa [CatalogLog.len, CatalogLog.new] using hfits)
  refine ⟨u, ?_, ?_⟩
  · rw [compactedLog_entries, List.map_map]
    exact hrun
  · have hentries : u.1.log.entries = (compactedLog s.1.catalog).entries := by
      rw [hlog, compactedLog_entries]
      rfl
    cases hu : u.1.log
    cases hc : compactedLog s.1.catalog
    simp_all

/-- A log within the bound on operations is opened exactly when its text is within the bound of the
reader. -/
theorem opens_iff {parse : String → Except String CatalogLog}
    (reads : ∀ log : CatalogLog, parse log.toJson.pretty = .ok log) (path : String)
    {log : CatalogLog} (hfits : log.len ≤ maxCatalogOps) :
    (∃ store, openStore parse path (some log.toJson.pretty) = .ok store) ↔
      log.toJson.pretty.utf8ByteSize ≤ maxStoreBytes := by
  by_cases hlarge : log.toJson.pretty.utf8ByteSize > maxStoreBytes
  · refine iff_of_false ?_ (Nat.not_le.mpr hlarge)
    rintro ⟨store, hstore⟩
    obtain ⟨read, hload, -⟩ := Outcome.bind_eq_ok.mp hstore
    simp only [loadJsonOrDefault, if_pos hlarge] at hload
    cases hload
  · have hload : loadJsonOrDefault .new parse path (some log.toJson.pretty) = .ok log := by
      simp only [loadJsonOrDefault, if_neg hlarge, reads]
      rfl
    exact iff_of_true ⟨_, openStore_of_load hload hfits⟩ (Nat.not_lt.mp hlarge)

/-- Compacting twice compacts once. -/
theorem compacted_stable {c : Catalog} (h : c.WellFormed) :
    compactedLog (compactedLog c).replay = compactedLog c :=
  compactedLog_congr (sameContent_compactedLog h)

/-- A successful compaction of any store that calls reach from a missing file loses nothing and fits
the bound on operations; its file is opened again exactly when its text is within the bound of the
reader. -/
theorem compact_preserves {parse : String → Except String CatalogLog}
    (reads : ∀ log : CatalogLog, parse log.toJson.pretty = .ok log) {path : String}
    {store : CatalogStore} (hopen : openStore parse path none = .ok store) {calls : List Call}
    {s t : Stored} {outcome : Except String Unit} (hrun : Run called (store, none) calls s)
    (hcompact : succeeds s (.compact outcome) t) :
    CompactionSpec s t ∧ ((∃ store, openStore parse t.1.path t.2 = .ok store) ↔
      (compactedLog s.1.catalog).toJson.pretty.utf8ByteSize ≤ maxStoreBytes) := by
  have h := reached_of_run hopen hrun
  have hsame := sameContent_compactedLog h.wellFormed
  have hfits := h.shrinks.trans h.bounded
  rw [succeeds_compact hcompact]
  refine ⟨?_, opens_iff reads s.1.path hfits⟩
  constructor
  · simp only [compacted_catalog, getRole, hsame.roles, implies_true]
  · simp only [compacted_catalog, getPolicy, hsame.policies, implies_true]
  · exact rolesFor_congr hsame.attachments
  · simp only [compacted_catalog, listRoles, hsame.roles]
  · simp only [compacted_catalog, listPolicies, hsame.policies]
  · exact effectiveGrants_congr hsame
  · rw [compacted_log, compacted_path]
    exact compacted_replays h
  · rw [compacted_opCount, len_compactedLog]
  · rw [compacted_opCount]
    exact h.shrinks
  · rw [compacted_opCount]
    exact hfits
  · intro outcome' u hu
    rw [succeeds_compact hu]
    simp only [compacted_log, compacted_catalog, compacted_stable h.wellFormed, and_self]

/-- One role put twice and attached once. -/
def roleCalls : List Call :=
  let role : Role := ⟨"ops", none, .allow ["run:deploy"] .any .default⟩
  [.apply (.putRole role) none (.ok ()), .apply (.putRole role) none (.ok ()),
    .apply (.attachRole ⟨.filled 1⟩ "ops") none (.ok ())]

theorem compact_preserves_role :
    ∃ s : Stored, Run called (⟨"catalog.json", .new, .new⟩, none) roleCalls s ∧
      s.1.opCount = 3 ∧ (compacted s.1).1.opCount = 2 ∧
      CompactionSpec s (compacted s.1) ∧
      ∃ store, openStore readLog "catalog.json" (compacted s.1).2 = .ok store := by
  have hcall : ∀ s c, called s c (call s c).2 := fun _ _ => rfl
  have hrun := Run.foldl hcall (⟨"catalog.json", .new, .new⟩, none) roleCalls
  have hspec := compact_preserves readLog_pretty rfl hrun
    (show succeeds _ (.compact (.ok ())) _ from rfl)
  refine ⟨_, hrun, by decide, by decide, hspec.1, hspec.2.mpr ?_⟩
  rw [Json.utf8ByteSize_pretty]
  decide +kernel

/-- The text of a log is at least as long as the description of a role put in it. -/
theorem description_le_log {log : CatalogLog} {role : Role} {actor : Option String}
    {description : String} (hentry : (.putRole role, actor) ∈ log.entries)
    (hdescription : role.description = some description) :
    description.toList.length ≤ log.toJson.pretty.utf8ByteSize := by
  let l := Json.indented
  let actorJson := (actor.map Json.str).getD .null
  have hrole : ("description", Json.str description) ∈ [("name", Json.str role.name)] ++
      optionalField "description" .str role.description ++ [("policy", role.policy.toJson)] := by
    simp [hdescription, optionalField]
  have hlogged : .arr [(CatalogOp.putRole role).toJson, actorJson] ∈
      log.entries.map fun e => Json.arr [e.1.toJson, (e.2.map Json.str).getD .null] :=
    List.mem_map.mpr ⟨_, hentry, rfl⟩
  calc description.toList.length
      ≤ (Json.render l 5 (.str description)).length := Json.length_le_render_str l 5 description
    _ ≤ (Json.render l 4 role.toJson).length := Json.length_le_render_obj hrole
    _ ≤ (Json.render l 3 (CatalogOp.putRole role).toJson).length :=
        Json.length_le_render_obj List.mem_cons_self
    _ ≤ (Json.render l 2 (.arr [(CatalogOp.putRole role).toJson, actorJson])).length :=
        Json.length_le_render_arr List.mem_cons_self
    _ ≤ (Json.render l 1 (.arr (log.entries.map _))).length := Json.length_le_render_arr hlogged
    _ ≤ (Json.render l 0 log.toJson).length := Json.length_le_render_obj List.mem_cons_self
    _ ≤ log.toJson.pretty.utf8ByteSize := Json.length_le_utf8ByteSize_pretty _

/-- A role whose description alone exceeds the bound of the reader. -/
def verboseRole : Role where
  name := "ops"
  description := some (String.ofList (List.replicate (maxStoreBytes + 1) 'a'))
  policy := .allow ["run:deploy"] .any .default

/-- The catalog is compacted with the verbose role, and cannot be opened afterwards. -/
theorem verbose_compaction_refused :
    ¬ ∀ calls s t, Run called (⟨"catalog.json", .new, .new⟩, none) calls s →
      succeeds s (.compact (.ok ())) t →
        CompactionSpec s t ∧ ∃ store, openStore readLog "catalog.json" t.2 = .ok store := by
  intro hclaim
  have hvalid : Catalog.new.ValidRun [.putRole verboseRole] :=
    ⟨show Text.trim verboseRole.name ≠ "" by decide, trivial⟩
  obtain ⟨s, hsucceeds, hentries⟩ :=
    run_valid (s := (⟨"catalog.json", .new, .new⟩, none)) hvalid (by decide)
  have hrun : Run called (⟨"catalog.json", .new, .new⟩, none) _ s :=
    hsucceeds.mono fun _ _ _ h => congrArg Prod.snd h
  have h := reached_of_run (show openStore readLog "catalog.json" none = _ from rfl) hrun
  have hrole : s.1.catalog.roles["ops"]? = some verboseRole := by
    rw [h.coherent.live, CatalogLog.replay_eq, hentries]
    change ((∅ : OrdMap String Role).insert "ops" verboseRole)["ops"]? = some verboseRole
    rw [OrdMap.get_insert, if_pos rfl]
  have hlogged : (CatalogOp.putRole verboseRole, none) ∈ (compactedLog s.1.catalog).entries := by
    rw [compactedLog_entries, compactedOps_eq]
    refine List.mem_map.mpr ⟨_, List.mem_append_left _ (List.mem_append_left _ ?_), rfl⟩
    exact List.mem_map.mpr ⟨("ops", verboseRole), OrdMap.mem_toList.mpr hrole, rfl⟩
  obtain ⟨-, hopens⟩ := hclaim _ s (compacted s.1) hrun rfl
  have hfits := (opens_iff readLog_pretty _ (h.shrinks.trans h.bounded)).mp hopens
  have hlong := description_le_log hlogged rfl
  rw [String.toList_ofList, List.length_replicate] at hlong
  omega

end CatalogStore

end CeIam
