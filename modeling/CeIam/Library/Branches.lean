import Mathlib.Data.List.Induction

/-! # Trees of lists

A family of lists that holds every nonempty beginning of its members is a tree: a list lies below
its beginnings, and its elements are the last elements of these. -/

namespace CeIam

variable {α β : Type*} {F : List α → Prop} {l m : List α}

/-- The nonempty beginnings of a member are members. -/
def Rooted (F : List α → Prop) : Prop :=
  ∀ l m, F l → m ≠ [] → m <+: l → F m

namespace Rooted

/-- A tree stays one when a member, or nothing at all, is extended by one element. -/
theorem snoc (h : Rooted F) {a : α} (hl : l = [] ∨ F l) :
    Rooted fun m => F m ∨ m = l ++ [a] := by
  intro k m hk hm hbegins
  cases hk with
  | inl hk => exact .inl (h k m hk hm hbegins)
  | inr hk =>
      rw [hk] at hbegins
      cases List.prefix_concat_iff.mp hbegins with
      | inl heq => exact .inr heq
      | inr hbegins =>
          cases hl with
          | inl hnil =>
              rw [hnil] at hbegins
              exact absurd (List.prefix_nil.mp hbegins) hm
          | inr hl => exact .inl (h l m hl hm hbegins)

/-- What holds of the elements of a member holds of the ends of its beginnings. -/
theorem forall_mem_iff (h : Rooted F) (hl : F l) {P : α → Prop} :
    (∀ a ∈ l, P a) ↔ ∀ m (hm : m ≠ []), F m → m <+: l → P (m.getLast hm) := by
  constructor
  · intro hall m hm _ hbegins
    exact hall _ (hbegins.subset (List.getLast_mem hm))
  · intro hall a ha
    obtain ⟨s, t, hsplit⟩ := List.append_of_mem ha
    have hbegins : s ++ [a] <+: l := ⟨t, by simp [hsplit]⟩
    have hne : s ++ [a] ≠ [] := by simp
    simpa using hall _ hne (h l _ hl hne hbegins) hbegins

/-- Where the ends of the members have names of their own, the members with an element of the name
of a member's end are those below it. -/
theorem exists_named_iff (h : Rooted F) (name : α → β)
    (hname : ∀ l m (hl : l ≠ []) (hm : m ≠ []), F l → F m →
      name (l.getLast hl) = name (m.getLast hm) → l = m)
    (hl : F l) (hm : F m) (hne : l ≠ []) :
    (∃ a ∈ m, name a = name (l.getLast hne)) ↔ l <+: m := by
  constructor
  · intro hex
    obtain ⟨a, ha, heq⟩ := hex
    obtain ⟨s, t, hsplit⟩ := List.append_of_mem ha
    have hbegins : s ++ [a] <+: m := ⟨t, by simp [hsplit]⟩
    have hsne : s ++ [a] ≠ [] := by simp
    have hsame := hname _ l hsne hne (h m _ hm hsne hbegins) hl (by simpa using heq)
    rwa [hsame] at hbegins
  · intro hbegins
    exact ⟨_, hbegins.subset (List.getLast_mem hne), rfl⟩

end Rooted

/-- Either all elements have a property, or those after the last that has not. -/
theorem forall_or_last_not (P : α → Prop) (l : List α) :
    (∀ a ∈ l, P a) ∨ ∃ s a t, l = s ++ a :: t ∧ ¬ P a ∧ ∀ b ∈ t, P b := by
  induction l using List.reverseRecOn with
  | nil => exact .inl (List.forall_mem_nil P)
  | append_singleton l a ih =>
      by_cases ha : P a
      · cases ih with
        | inl hall =>
            exact .inl (List.forall_mem_append.mpr ⟨hall, List.forall_mem_singleton.mpr ha⟩)
        | inr hlast =>
            obtain ⟨s, b, t, hl, hb, ht⟩ := hlast
            refine .inr ⟨s, b, t ++ [a], by simp [hl], hb, ?_⟩
            exact List.forall_mem_append.mpr ⟨ht, List.forall_mem_singleton.mpr ha⟩
      · exact .inr ⟨l, a, [], rfl, ha, List.forall_mem_nil P⟩

end CeIam
