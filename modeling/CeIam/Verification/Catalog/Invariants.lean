import CeIam.Library.Run
import CeIam.Model.Store

/-! # What the operations of a catalog preserve

A catalog evolves by operations that pass the store's checks. Roles stay under their own
name, attachments stay sorted and name roles that exist, and every object of the catalog
was put there by an operation of the log. -/

namespace CeIam.Catalog

/-! ## Checked operations -/

/-- The check the store makes of an operation before it writes. -/
def Valid (c : Catalog) : CatalogOp → Prop
  | .putRole r => Text.trim r.name ≠ ""
  | .putPolicy name _ => Text.trim name ≠ ""
  | .attachRole _ role => ∃ r, c.roles[role]? = some r
  | _ => True

/-- Every operation of the list passes the check in the state the ones before it leave. -/
def ValidRun (c : Catalog) : List CatalogOp → Prop
  | [] => True
  | op :: ops => c.Valid op ∧ (c.update op).ValidRun ops

/-- Two catalogs hold the same roles, policies and attachments. -/
structure SameContent (c d : Catalog) : Prop where
  roles : c.roles = d.roles
  policies : c.policies = d.policies
  attachments : c.attachments = d.attachments

theorem SameContent.refl (c : Catalog) : c.SameContent c := ⟨rfl, rfl, rfl⟩

theorem SameContent.symm {c d : Catalog} (h : c.SameContent d) : d.SameContent c :=
  ⟨h.roles.symm, h.policies.symm, h.attachments.symm⟩

theorem SameContent.trans {c d e : Catalog} (h : c.SameContent d) (k : d.SameContent e) :
    c.SameContent e :=
  ⟨h.roles.trans k.roles, h.policies.trans k.policies, h.attachments.trans k.attachments⟩

/-- Applying an operation changes the content as `update` does. -/
theorem sameContent_apply (c : Catalog) (op : CatalogOp) (actor : Option Principal) :
    (c.apply op actor).SameContent (c.update op) := ⟨rfl, rfl, rfl⟩

/-- The catalog that operations leave in an empty one, each by an author if it has one. -/
def ofOps (ops : List (CatalogOp × Option Principal)) : Catalog :=
  ops.foldl (fun c e => c.apply e.1 e.2) .new

theorem SameContent.update {c d : Catalog} (h : c.SameContent d) (op : CatalogOp) :
    (c.update op).SameContent (d.update op) := by
  obtain ⟨hr, hp, ha⟩ := h
  cases op <;> constructor <;> simp [Catalog.update, hr, hp, ha]

theorem SameContent.valid {c d : Catalog} (h : c.SameContent d) {op : CatalogOp} :
    c.Valid op ↔ d.Valid op := by
  cases op <;> simp [Valid, h.roles]

/-! ## Attachments -/

/-- A role is attached to a principal. -/
def Attached (c : Catalog) (p : Principal) (role : String) : Prop := role ∈ c.rolesFor p

theorem rolesFor_congr {c d : Catalog} (h : c.attachments = d.attachments) (p : Principal) :
    c.rolesFor p = d.rolesFor p := by
  rw [rolesFor, rolesFor, h]

/-- An attachment list without a name, dropped when nothing is left. -/
def without (name : String) (entry : Option (List String)) : Option (List String) :=
  (entry.map (fun roles => roles.filter (· ≠ name))).filter (· ≠ [])

theorem mem_without {entry : Option (List String)} {name role : String} :
    role ∈ (without name entry).getD [] ↔ role ∈ entry.getD [] ∧ role ≠ name := by
  cases entry with
  | none => simp [without]
  | some roles =>
      have hmem : role ∈ roles.filter (· ≠ name) ↔ role ∈ roles ∧ role ≠ name := by simp
      rw [without, Option.map_some, Option.getD_some, ← hmem]
      generalize roles.filter (· ≠ name) = rest
      cases rest <;> simp [Option.filter]

theorem without_eq_some {entry : Option (List String)} {name : String} {roles : List String}
    (h : without name entry = some roles) :
    ∃ old, entry = some old ∧ roles = old.filter (· ≠ name) ∧ roles ≠ [] := by
  cases entry with
  | none => simp [without] at h
  | some old =>
      refine ⟨old, rfl, ?_⟩
      rw [without, Option.map_some] at h
      generalize old.filter (· ≠ name) = rest at h ⊢
      cases rest with
      | nil => simp [Option.filter] at h
      | cons role rest =>
          have hrest : role :: rest = roles := by simpa [Option.filter] using h
          simp [← hrest]

theorem get_detachEverywhere (name : String) (m : OrdMap String (List String)) (k : String) :
    (detachEverywhere name m)[k]? = without name m[k]? := by
  rw [detachEverywhere, Std.ExtTreeMap.getElem?_filter', Std.ExtTreeMap.getElem?_map, without]

theorem get_detach (key role : String) (m : OrdMap String (List String)) (k : String) :
    (detach key role m)[k]? = if key = k then without role m[k]? else m[k]? := by
  rw [detach, without]
  cases h : m[key]? with
  | none =>
      by_cases hk : key = k
      · subst hk
        simp [h]
      · simp [hk]
  | some entry =>
      simp only
      by_cases hk : key = k
      · subst hk
        rw [if_pos rfl, h, Option.map_some]
        generalize entry.filter (· ≠ role) = rest
        cases rest <;> simp [Option.filter]
      · rw [if_neg hk]
        generalize entry.filter (· ≠ role) = rest
        split <;> simp [hk]

theorem get_attach (key role : String) (m : OrdMap String (List String)) (k : String) :
    (attach key role m)[k]? =
      if key = k then
        some (if role ∈ (m[k]?).getD [] then (m[k]?).getD []
          else ((m[k]?).getD [] ++ [role]).insertionSort (· ≤ ·))
      else m[k]? := by
  rw [attach, OrdMap.get_insert]
  by_cases hk : key = k
  · subst hk
    rfl
  · rw [if_neg hk, if_neg hk]

/-- What each operation does to the attachments of a principal. -/
theorem attached_update (c : Catalog) (op : CatalogOp) (p : Principal) (role : String) :
    (c.update op).Attached p role ↔
      match op with
      | .removeRole name => c.Attached p role ∧ role ≠ name
      | .attachRole q name => (q = p ∧ name = role) ∨ c.Attached p role
      | .detachRole q name => c.Attached p role ∧ ¬ (q = p ∧ name = role)
      | _ => c.Attached p role := by
  unfold Attached rolesFor
  cases op with
  | putRole r => rfl
  | putPolicy name policy => rfl
  | removePolicy name => rfl
  | removeRole name =>
      simp only [update, get_detachEverywhere]
      exact mem_without
  | attachRole q name =>
      simp only [update, get_attach, Principal.hex_inj]
      by_cases hq : q = p
      · subst hq
        by_cases hmem : name ∈ (c.attachments[q.hex]?).getD []
        · simp only [if_pos, hmem, Option.getD_some, true_and]
          constructor
          · exact .inr
          · rintro (rfl | h)
            · exact hmem
            · exact h
        · simp [hmem, or_comm, eq_comm]
      · simp [hq]
  | detachRole q name =>
      simp only [update, get_detach, Principal.hex_inj]
      by_cases hq : q = p
      · subst hq
        rw [if_pos rfl, mem_without]
        simp [eq_comm]
      · simp [hq]

/-! ## Tidy attachments -/

private theorem insertionSort_append_sorted {roles : List String} {role : String}
    (hs : roles.Pairwise (· < ·)) (hrole : role ∉ roles) :
    ((roles ++ [role]).insertionSort (· ≤ ·)).Pairwise (· < ·) := by
  have hperm := List.perm_insertionSort (· ≤ ·) (roles ++ [role])
  have hnodup : (roles ++ [role]).Nodup := by
    refine List.nodup_append.mpr ⟨hs.imp ne_of_lt, List.nodup_singleton _, ?_⟩
    intro a ha b hb
    rw [List.mem_singleton.mp hb]
    rintro rfl
    exact hrole ha
  have hle := List.pairwise_insertionSort (· ≤ ·) (roles ++ [role])
  have hne := hperm.nodup_iff.mpr hnodup
  exact (hle.and hne).imp (fun h => lt_of_le_of_ne h.1 h.2)

/-- An attachment list of a principal: sorted and not empty. -/
structure TidyEntry (key : String) (roles : List String) : Prop where
  key : ∃ p : Principal, key = p.hex
  nonempty : roles ≠ []
  sorted : roles.Pairwise (· < ·)

/-- What is left of an entry without one of its roles. -/
theorem TidyEntry.filter {key name : String} {roles : List String} (h : TidyEntry key roles)
    (hrest : roles.filter (· ≠ name) ≠ []) : TidyEntry key (roles.filter (· ≠ name)) :=
  ⟨h.key, hrest, h.sorted.filter _⟩

/-- An entry, which may be absent before, with one more role. -/
theorem TidyEntry.attach {p : Principal} {entry : Option (List String)} (role : String)
    (h : ∀ old, entry = some old → TidyEntry p.hex old) :
    TidyEntry p.hex (if role ∈ entry.getD [] then entry.getD []
      else (entry.getD [] ++ [role]).insertionSort (· ≤ ·)) := by
  have hsorted : (entry.getD []).Pairwise (· < ·) := by
    cases entry with
    | none => exact .nil
    | some old => exact (h old rfl).sorted
  split
  · next hmem => exact ⟨⟨p, rfl⟩, List.ne_nil_of_mem hmem, hsorted⟩
  · next hmem =>
      refine ⟨⟨p, rfl⟩, ?_, insertionSort_append_sorted hsorted hmem⟩
      exact List.ne_nil_of_mem ((List.mem_insertionSort _).mpr (by simp) : role ∈ _)

/-- Every attachment list of the catalog is tidy. -/
def Tidy (c : Catalog) : Prop :=
  ∀ (k : String) (roles : List String), c.attachments[k]? = some roles → TidyEntry k roles

theorem tidy_new : new.Tidy := by
  simp [Tidy, new]

theorem SameContent.tidy {c d : Catalog} (h : c.SameContent d) (hc : c.Tidy) : d.Tidy := by
  rw [Tidy, ← h.attachments]
  exact hc

/-- Every operation, checked or not, keeps the attachments tidy. -/
theorem Tidy.update {c : Catalog} (h : c.Tidy) (op : CatalogOp) : (c.update op).Tidy := by
  intro k roles hk
  cases op with
  | putRole r => exact h k roles hk
  | putPolicy name policy => exact h k roles hk
  | removePolicy name => exact h k roles hk
  | removeRole name =>
      simp only [Catalog.update, get_detachEverywhere] at hk
      obtain ⟨old, hold, rfl, hrest⟩ := without_eq_some hk
      exact (h k old hold).filter hrest
  | attachRole q role =>
      simp only [Catalog.update, get_attach] at hk
      split at hk
      · next hkey =>
          subst hkey
          cases hk
          exact TidyEntry.attach role (h q.hex)
      · exact h k roles hk
  | detachRole q role =>
      simp only [Catalog.update, get_detach] at hk
      split at hk
      · obtain ⟨old, hold, rfl, hrest⟩ := without_eq_some hk
        exact (h k old hold).filter hrest
      · exact h k roles hk

/-- Tidy catalogs with the same attached pairs have the same attachments. -/
theorem attachments_eq {c d : Catalog} (hc : c.Tidy) (hd : d.Tidy)
    (h : ∀ p role, c.Attached p role ↔ d.Attached p role) : c.attachments = d.attachments := by
  have hle : ∀ {c d : Catalog}, c.Tidy → d.Tidy →
      (∀ p role, c.Attached p role ↔ d.Attached p role) →
      ∀ (k : String) (roles : List String),
        c.attachments[k]? = some roles → d.attachments[k]? = some roles := by
    intro c d hc hd h k roles hk
    obtain ⟨⟨p, rfl⟩, hne, hs⟩ := hc k roles hk
    have hmem : ∀ role, role ∈ roles ↔ role ∈ d.rolesFor p := by
      intro role
      simpa [Attached, rolesFor, hk] using h p role
    cases hget : d.attachments[p.hex]? with
    | none =>
        exfalso
        obtain ⟨role, hrole⟩ := List.exists_mem_of_ne_nil roles hne
        have hnone := (hmem role).mp hrole
        simp [rolesFor, hget] at hnone
    | some others =>
        have hothers := (hd _ _ hget).sorted
        simp only [rolesFor, hget, Option.getD_some] at hmem
        rw [eq_of_mem_iff_of_pairwise hs hothers hmem]
  apply OrdMap.ext
  intro k
  cases hk : c.attachments[k]? with
  | some roles => exact (hle hc hd h k roles hk).symm
  | none =>
      cases hk' : d.attachments[k]? with
      | none => rfl
      | some roles =>
          have hback := hle hd hc (fun p role => (h p role).symm) k roles hk'
          rw [hk] at hback
          cases hback

/-! ## Well-formed catalogs -/

/-- An attachment list of a principal: sorted, not empty, and of roles that exist. -/
structure WellFormedEntry (known : OrdMap String Role) (key : String) (roles : List String) :
    Prop where
  key : ∃ p : Principal, key = p.hex
  nonempty : roles ≠ []
  sorted : roles.Pairwise (· < ·)
  known : ∀ role ∈ roles, ∃ r, known[role]? = some r

structure WellFormed (c : Catalog) : Prop where
  roleNamed : ∀ k r, c.roles[k]? = some r → r.name = k ∧ Text.trim k ≠ ""
  policyNamed : ∀ k p, c.policies[k]? = some p → Text.trim k ≠ ""
  entries : ∀ k roles, c.attachments[k]? = some roles → WellFormedEntry c.roles k roles

theorem wellFormed_new : new.WellFormed where
  roleNamed := by simp [new]
  policyNamed := by simp [new]
  entries := by simp [new]

theorem SameContent.wellFormed {c d : Catalog} (h : c.SameContent d) (hc : c.WellFormed) :
    d.WellFormed where
  roleNamed := by rw [← h.roles]; exact hc.roleNamed
  policyNamed := by rw [← h.policies]; exact hc.policyNamed
  entries := by
    rw [← h.attachments, ← h.roles]
    exact hc.entries

/-- Every role that is attached exists. -/
def AttachedKnown (c : Catalog) : Prop :=
  ∀ p role, c.Attached p role → ∃ r, c.roles[role]? = some r

/-- The entries are well formed when they are tidy and name roles that exist. -/
theorem entries_iff {c : Catalog} :
    (∀ k roles, c.attachments[k]? = some roles → WellFormedEntry c.roles k roles) ↔
      c.Tidy ∧ c.AttachedKnown := by
  constructor
  · intro h
    refine ⟨fun k roles hk => ⟨(h k roles hk).key, (h k roles hk).nonempty, (h k roles hk).sorted⟩,
      ?_⟩
    intro p role hattached
    cases hget : c.attachments[p.hex]? with
    | none => simp [Attached, rolesFor, hget] at hattached
    | some roles =>
        simp only [Attached, rolesFor, hget, Option.getD_some] at hattached
        exact (h p.hex roles hget).known role hattached
  · rintro ⟨htidy, hknown⟩ k roles hk
    obtain ⟨⟨p, rfl⟩, hne, hsorted⟩ := htidy k roles hk
    refine ⟨⟨p, rfl⟩, hne, hsorted, ?_⟩
    intro role hrole
    apply hknown p role
    rw [Attached, rolesFor, hk]
    exact hrole

/-- Every checked operation keeps attached roles in the catalog. -/
theorem AttachedKnown.update {c : Catalog} (h : c.AttachedKnown) {op : CatalogOp}
    (hop : c.Valid op) : (c.update op).AttachedKnown := by
  intro p role hattached
  rw [attached_update] at hattached
  cases op with
  | putRole r =>
      simp only [Catalog.update, OrdMap.get_insert]
      split
      · exact ⟨r, rfl⟩
      · exact h p role hattached
  | removeRole name =>
      simp only [Catalog.update, OrdMap.get_erase, if_neg hattached.2.symm]
      exact h p role hattached.1
  | putPolicy name policy => exact h p role hattached
  | removePolicy name => exact h p role hattached
  | attachRole q name =>
      rcases hattached with ⟨-, rfl⟩ | hattached
      · exact hop
      · exact h p role hattached
  | detachRole q name => exact h p role hattached.1

theorem WellFormed.tidy {c : Catalog} (h : c.WellFormed) : c.Tidy :=
  (entries_iff.mp h.entries).1

/-- Every checked operation keeps a catalog well formed. -/
theorem WellFormed.update {c : Catalog} (h : c.WellFormed) {op : CatalogOp} (hop : c.Valid op) :
    (c.update op).WellFormed := by
  obtain ⟨hroles, hpolicies, hentries⟩ := h
  obtain ⟨htidy, hknown⟩ := entries_iff.mp hentries
  refine ⟨?_, ?_, entries_iff.mpr ⟨htidy.update op, hknown.update hop⟩⟩
  · intro k r hk
    cases op with
    | putRole r' =>
        simp only [Catalog.update, OrdMap.get_insert] at hk
        split at hk
        · next hname =>
            cases hk
            exact ⟨hname, hname ▸ hop⟩
        · exact hroles k r hk
    | removeRole name =>
        simp only [Catalog.update, OrdMap.get_erase] at hk
        split at hk
        · cases hk
        · exact hroles k r hk
    | _ => exact hroles k r hk
  · intro k p hk
    cases op with
    | putPolicy name policy =>
        simp only [Catalog.update, OrdMap.get_insert] at hk
        split at hk
        · next hname => exact hname ▸ hop
        · exact hpolicies k p hk
    | removePolicy name =>
        simp only [Catalog.update, OrdMap.get_erase] at hk
        split at hk
        · cases hk
        · exact hpolicies k p hk
    | _ => exact hpolicies k p hk

end CeIam.Catalog
