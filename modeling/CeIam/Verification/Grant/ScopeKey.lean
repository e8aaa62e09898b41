import CeIam.Verification.Policy.Encoding

/-! # Scope keys identify scopes

The statements of a policy are grouped by their serialized scope. Serialization is
injective, so each group is made of the statements with one resource and one set of
conditions. -/

namespace CeIam

namespace Iam

/-- Statements have the same key exactly when they have the same scope. -/
theorem scopeKey_eq {s t : Statement} :
    scopeKey s = scopeKey t ↔ s.resource = t.resource ∧ s.conditions = t.conditions := by
  constructor
  · intro h
    have harr := Json.compact_injective h
    simp only [Json.arr.injEq, List.cons.injEq, and_true] at harr
    exact ⟨ResourceMatch.toJson_injective harr.1, Conditions.toJson_injective harr.2⟩
  · rintro ⟨hr, hc⟩
    rw [scopeKey, scopeKey, hr, hc]

private theorem foldl_actions (g : Group) (ss : List Statement) :
    ss.foldl (fun g s => { g with actions := g.actions ++ s.actions }) g =
      { g with actions := g.actions ++ ss.flatMap (·.actions) } := by
  induction ss generalizing g with
  | nil => simp
  | cons s ss ih => rw [List.foldl_cons, ih]; simp

/-- The group under a key has the scope of the first allowing statement with the key, and the
actions of all of them. -/
theorem get_groups (policy : Policy) (k : String) :
    (groups policy)[k]? =
      match (allows policy).filter (fun s => scopeKey s = k) with
      | [] => none
      | first :: rest =>
          some ⟨first.resource, first.conditions, (first :: rest).flatMap (·.actions)⟩ := by
  rw [groups, OrdMap.get_groupBy, OrdMap.groupOf]
  cases (allows policy).filter (fun s => scopeKey s = k) with
  | nil => rfl
  | cons first rest => simp [foldl_actions]

/-- A group has the scope of an allowing statement, and the actions of all statements with its
key. -/
theorem mem_groups {policy : Policy} {k : String} {g : Group}
    (h : (k, g) ∈ (groups policy).toList) :
    ∃ first ∈ allows policy, scopeKey first = k ∧ g.resource = first.resource ∧
      g.conditions = first.conditions ∧
      g.actions = ((allows policy).filter (fun s => scopeKey s = k)).flatMap (·.actions) := by
  have hget := OrdMap.mem_toList.mp h
  simp only [get_groups] at hget
  cases hfilter : (allows policy).filter (fun s => scopeKey s = k) with
  | nil => rw [hfilter] at hget; cases hget
  | cons first rest =>
      rw [hfilter] at hget
      cases hget
      have hfirst : first ∈ (allows policy).filter (fun s => scopeKey s = k) := by
        rw [hfilter]
        exact List.mem_cons_self
      obtain ⟨hmem, hkey⟩ := List.mem_filter.mp hfirst
      exact ⟨first, hmem, by simpa using hkey, rfl, rfl, rfl⟩

/-- The group of a statement has its scope and all its actions. -/
theorem group_of_key {policy : Policy} {s : Statement} {g : Group}
    (h : (scopeKey s, g) ∈ (groups policy).toList) (hs : s ∈ allows policy) :
    g.resource = s.resource ∧ g.conditions = s.conditions ∧ ∀ a ∈ s.actions, a ∈ g.actions := by
  obtain ⟨first, -, hkey, hresource, hconditions, hactions⟩ := mem_groups h
  obtain ⟨hr, hc⟩ := scopeKey_eq.mp hkey
  refine ⟨hresource.trans hr, hconditions.trans hc, ?_⟩
  intro a ha
  rw [hactions, List.mem_flatMap]
  exact ⟨s, List.mem_filter.mpr ⟨hs, by simp⟩, ha⟩

/-- Every action of a group comes from an allowing statement with the group's scope. -/
theorem mem_group_actions {policy : Policy} {k a : String} {g : Group}
    (h : (k, g) ∈ (groups policy).toList) (ha : a ∈ g.actions) :
    ∃ s ∈ allows policy, g.resource = s.resource ∧ g.conditions = s.conditions ∧
      a ∈ s.actions := by
  obtain ⟨first, -, hkey, hresource, hconditions, hactions⟩ := mem_groups h
  rw [hactions, List.mem_flatMap] at ha
  obtain ⟨s, hs, ha⟩ := ha
  obtain ⟨hmem, hkey'⟩ := List.mem_filter.mp hs
  have hsame : scopeKey s = k := by simpa using hkey'
  obtain ⟨hr, hc⟩ := scopeKey_eq.mp (hkey.trans hsame.symm)
  exact ⟨s, hmem, hresource.trans hr, hconditions.trans hc, ha⟩

/-- Every allowing statement is collected by the group of its scope. -/
theorem exists_group {policy : Policy} {s : Statement} (h : s ∈ allows policy) :
    ∃ g, (scopeKey s, g) ∈ (groups policy).toList := by
  have hmem : s ∈ (allows policy).filter (fun t => scopeKey t = scopeKey s) := by
    simp [h]
  cases hget : (groups policy)[scopeKey s]? with
  | some g => exact ⟨g, OrdMap.mem_toList.mpr hget⟩
  | none =>
      rw [get_groups] at hget
      split at hget
      · next hnil => rw [hnil] at hmem; cases hmem
      · cases hget

end Iam

end CeIam
