import CeIam.Verification.Catalog.Compaction

/-! # What every state of a store looks like

The store checks an operation before it logs it, while a replay checks nothing. The log of a
store is a run of checked operations at every moment, and so is every beginning of it. -/

namespace CeIam

namespace Catalog

/-! ## Beginnings of a log -/

theorem ValidRun.take {c : Catalog} {ops : List CatalogOp} (h : c.ValidRun ops) (n : ℕ) :
    c.ValidRun (ops.take n) := by
  induction ops generalizing c n with
  | nil => simpa using h
  | cons op ops ih =>
      cases n with
      | zero => trivial
      | succ n => exact ⟨h.1, ih h.2 n⟩

/-- A beginning of a log of checked operations replays to a well-formed catalog. -/
theorem wellFormed_replayThrough {log : CatalogLog}
    (h : new.ValidRun (log.entries.map Prod.fst)) (upto : ℕ) :
    (log.replayThrough upto).WellFormed := by
  have hsame := CatalogStore.foldl_applyEntry_sameContent (log.entries.take upto) (.refl .new)
  rw [List.map_take] at hsame
  exact hsame.symm.wellFormed (CatalogStore.WellFormed.foldl wellFormed_new (h.take upto))

/-! ## The report and the list of attachments -/

/-- Collecting a role that exists fails only at an allowing statement without actions. -/
theorem addRole_eq_error {c : Catalog} {groups : OrdMap String ScopeRoles} {name : String}
    {role : Role} {e : IamError} (hrole : c.getRole name = some role)
    (h : c.addRole groups name = .error e) :
    ∃ s ∈ role.policy.statements, s.effect = .allow ∧ s.actions = [] ∧
      e = .badPolicy ("role '" ++ name ++ "' has an Allow statement with no actions") := by
  rw [getRole] at hrole
  simp only [addRole, hrole] at h
  obtain ⟨s, hs, groups', hstep⟩ := Outcome.foldlM_eq_error h
  rw [addStatement] at hstep
  split at hstep
  · cases hstep
  · next hallow =>
      split at hstep
      · next hempty =>
          cases hstep
          exact ⟨s, hs, not_not.mp hallow, hempty, rfl⟩
      · cases hstep

/-- The list of attachments has an entry for each role of each key, in the order of the map. -/
theorem allAttachments_complete {c : Catalog} (h : c.WellFormed) :
    c.allAttachments.map (fun e => (e.1.hex, e.2)) =
      c.attachments.toList.flatMap fun e => e.2.map fun role => (e.1, role) := by
  rw [allAttachments, List.map_flatMap]
  refine List.flatMap_congr ?_
  rintro ⟨key, roles⟩ he
  obtain ⟨⟨p, rfl⟩, -, -, -⟩ := h.entries key roles (OrdMap.mem_toList.mp he)
  simp [Principal.parse_hex, Function.comp_def]

/-! ## Integrity -/

/-- The references and the order inside a catalog, and what its readers make of them. -/
structure Integrity (c : Catalog) : Prop where
  attachedExist : ∀ (key : String) (roles : List String), c.attachments[key]? = some roles →
    ∀ name ∈ roles, ∃ role, c.roles[name]? = some role
  attachedSorted : ∀ (key : String) (roles : List String), c.attachments[key]? = some roles →
    roles ≠ [] ∧ roles.Pairwise (· < ·) ∧ roles.Nodup
  attachedKey : ∀ (key : String) (roles : List String), c.attachments[key]? = some roles →
    ∃ p : Principal, key = p.hex
  roleNamed : ∀ (name : String) (role : Role), c.roles[name]? = some role → role.name = name
  report : ∀ (p : Principal) (name : String), name ∈ c.rolesFor p →
    ∃ role, c.getRole name = some role ∧ ∀ groups,
      c.addRole groups name = role.policy.statements.foldlM (addStatement name) groups
  reportError : ∀ (p : Principal) (e : IamError), c.effectiveGrants p = .error e →
    ∃ name role, name ∈ c.rolesFor p ∧ c.getRole name = some role ∧
      ∃ s ∈ role.policy.statements, s.effect = .allow ∧ s.actions = [] ∧
        e = .badPolicy ("role '" ++ name ++ "' has an Allow statement with no actions")
  listed : c.allAttachments.map (fun e => (e.1.hex, e.2)) =
    c.attachments.toList.flatMap fun e => e.2.map fun role => (e.1, role)

theorem WellFormed.getRole_of_attached {c : Catalog} (h : c.WellFormed) {p : Principal}
    {name : String} (hname : name ∈ c.rolesFor p) : ∃ role, c.getRole name = some role := by
  rw [rolesFor] at hname
  cases hget : c.attachments[p.hex]? with
  | none => simp [hget] at hname
  | some roles =>
      rw [hget, Option.getD_some] at hname
      exact (h.entries _ _ hget).known name hname

theorem WellFormed.toIntegrity {c : Catalog} (h : c.WellFormed) : c.Integrity where
  attachedExist key roles hget := (h.entries key roles hget).known
  attachedSorted key roles hget := by
    have hentry := h.entries key roles hget
    exact ⟨hentry.nonempty, hentry.sorted, hentry.sorted.imp ne_of_lt⟩
  attachedKey key roles hget := (h.entries key roles hget).key
  roleNamed name role hget := (h.roleNamed name role hget).1
  report p name hname := by
    obtain ⟨role, hrole⟩ := h.getRole_of_attached hname
    refine ⟨role, hrole, ?_⟩
    intro groups
    rw [getRole] at hrole
    simp only [addRole, hrole]
  reportError p e herror := by
    have hfold : (c.rolesFor p).foldlM c.addRole ∅ = .error e := by
      rw [effectiveGrants] at herror
      cases hgroups : (c.rolesFor p).foldlM c.addRole ∅ with
      | error e' =>
          rw [hgroups] at herror
          cases herror
          rfl
      | ok groups =>
          rw [hgroups] at herror
          cases herror
    obtain ⟨name, hname, groups, hadd⟩ := Outcome.foldlM_eq_error hfold
    obtain ⟨role, hrole⟩ := h.getRole_of_attached hname
    exact ⟨name, role, hname, hrole, addRole_eq_error hrole hadd⟩
  listed := allAttachments_complete h

end Catalog

namespace CatalogStore

open Catalog

/-- The catalog is the replay of the log, and every operation of the log passed its check. -/
structure Checked (s : Stored) : Prop where
  live : s.1.catalog = s.1.log.replay
  valid : Catalog.new.ValidRun (s.1.log.entries.map Prod.fst)

theorem sameContent_replay (log : CatalogLog) :
    log.replay.SameContent ((log.entries.map Prod.fst).foldl update .new) := by
  rw [CatalogLog.replay_eq]
  exact foldl_applyEntry_sameContent log.entries (.refl .new)

theorem Checked.wellFormed {s : Stored} (h : Checked s) : s.1.catalog.WellFormed := by
  rw [h.live]
  exact (sameContent_replay _).symm.wellFormed (WellFormed.foldl wellFormed_new h.valid)

/-- Every call, successful or not, keeps the log checked. -/
theorem Checked.call {s t : Stored} {c : Call} (h : Checked s) (hstep : called s c t) :
    Checked t := by
  subst hstep
  rcases call_cases s c with ⟨e, he⟩ | ⟨op, actor, -, -, hvalid, hok⟩ | ⟨-, hok⟩
  · rw [he]
    exact h
  · rw [hok]
    refine ⟨?_, ?_⟩
    · simp only [applied, CatalogLog.replay_record, h.live]
    · have hsame := sameContent_replay s.1.log
      rw [← h.live] at hsame
      simp only [applied, CatalogLog.record, List.map_append, List.map_cons, List.map_nil]
      exact validRun_append h.valid ⟨hsame.valid.mp hvalid, trivial⟩
  · rw [hok]
    refine ⟨rfl, ?_⟩
    simp only [compacted, compactedLog_entries, List.map_map, Function.comp_def, List.map_id']
    exact (compactedOps_rebuild h.wellFormed).1

/-- Whatever is applied and compacted, with writes that succeed or fail, on a store opened over
an empty log: the live catalog and every catalog replayed from a beginning of the log keep
their integrity. -/
theorem integrity_after_calls {parse : String → Except String CatalogLog} {path : String}
    {disk : Disk} {store : CatalogStore}
    (hempty : loadJsonOrDefault .new parse path disk = .ok .new)
    (hopen : openStore parse path disk = .ok store) {calls : List Call} {s : Stored}
    (hrun : Run called (store, disk) calls s) :
    s.1.catalog.Integrity ∧ ∀ upto, (s.1.log.replayThrough upto).Integrity := by
  have hstart : store = ⟨path, .new, .new⟩ := by
    rw [openStore_of_load hempty (by decide)] at hopen
    exact (Except.ok.inj hopen).symm
  subst hstart
  have hchecked : Checked s := hrun.invariant (fun _ _ _ => Checked.call) ⟨rfl, trivial⟩
  exact ⟨hchecked.wellFormed.toIntegrity,
    fun upto => (wellFormed_replayThrough hchecked.valid upto).toIntegrity⟩

/-- The role that was put twice and attached once. -/
theorem integrity_after_roleCalls :
    ∃ s : Stored, Run called (⟨"catalog.json", .new, .new⟩, none) roleCalls s ∧
      s.1.log.len = 3 ∧ s.1.catalog.Integrity ∧
      ∀ upto, (s.1.log.replayThrough upto).Integrity := by
  have hcall : ∀ s c, called s c (call s c).2 := fun _ _ => rfl
  have hrun := Run.foldl hcall (⟨"catalog.json", .new, .new⟩, none) roleCalls
  have hopen : openStore readLog "catalog.json" none = .ok ⟨"catalog.json", .new, .new⟩ := rfl
  exact ⟨_, hrun, by decide, integrity_after_calls rfl hopen hrun⟩

end CatalogStore

end CeIam
