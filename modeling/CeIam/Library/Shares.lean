import Mathlib.Algebra.BigOperators.Group.Finset.Piecewise
import Mathlib.Algebra.Order.BigOperators.Group.Finset

/-! # Weights by owner

A list of weights, each with an owner, sums to at least what its owners' heaviest weights sum
to, and to no more exactly when no owner has two weights above zero. -/

namespace CeIam.Shares

variable {ι κ M : Type*} [DecidableEq κ] [AddCommMonoid M] [LinearOrder M]
  [IsOrderedCancelAddMonoid M]

/-- The largest of some weights, or zero. -/
def heaviest (xs : List M) : M := xs.foldr max 0

omit [IsOrderedCancelAddMonoid M] in
theorem heaviest_nonneg (xs : List M) : 0 ≤ heaviest xs := by
  induction xs with
  | nil => exact le_rfl
  | cons x xs ih => exact ih.trans (le_max_right x _)

omit [IsOrderedCancelAddMonoid M] in
theorem le_heaviest {xs : List M} {x : M} (h : x ∈ xs) : x ≤ heaviest xs := by
  induction xs with
  | nil => cases h
  | cons y xs ih =>
      rcases List.mem_cons.mp h with rfl | h
      · exact le_max_left x _
      · exact (ih h).trans (le_max_right y _)

theorem heaviest_le_sum {xs : List M} (h : ∀ x ∈ xs, 0 ≤ x) : heaviest xs ≤ xs.sum := by
  induction xs with
  | nil => exact le_rfl
  | cons x xs ih =>
      obtain ⟨hx, hxs⟩ := List.forall_mem_cons.mp h
      have hrest := ih hxs
      rw [List.sum_cons]
      refine max_le (le_add_of_nonneg_right ?_) (hrest.trans (le_add_of_nonneg_left hx))
      exact (heaviest_nonneg xs).trans hrest

/-- Weights sum to their heaviest exactly when at most one of them is above zero. -/
theorem sum_eq_heaviest_iff {xs : List M} (h : ∀ x ∈ xs, 0 ≤ x) :
    xs.sum = heaviest xs ↔ xs.Pairwise fun a b => a = 0 ∨ b = 0 := by
  induction xs with
  | nil => simp [heaviest]
  | cons x xs ih =>
      obtain ⟨hx, hxs⟩ := List.forall_mem_cons.mp h
      have hrest := heaviest_le_sum hxs
      have hcons : heaviest (x :: xs) = max x (heaviest xs) := rfl
      rw [List.sum_cons, hcons, List.pairwise_cons, ← ih hxs]
      constructor
      · intro hsum
        rcases le_total (heaviest xs) x with hle | hle
        · -- The first weight is the heaviest, so the others add nothing.
          rw [max_eq_left hle, add_eq_left] at hsum
          have hzero : heaviest xs = 0 :=
            le_antisymm (hrest.trans hsum.le) (heaviest_nonneg xs)
          refine ⟨fun y hy => .inr ?_, by rw [hsum, hzero]⟩
          exact le_antisymm ((le_heaviest hy).trans hzero.le) (hxs y hy)
        · rw [max_eq_right hle] at hsum
          have hzero : x = 0 := by
            refine le_antisymm ?_ hx
            have hsmall : x + xs.sum ≤ 0 + xs.sum := by
              rw [hsum, zero_add]
              exact hrest
            exact le_of_add_le_add_right hsmall
          refine ⟨fun y _ => .inl hzero, ?_⟩
          rwa [hzero, zero_add] at hsum
      · rintro ⟨hothers, hsum⟩
        by_cases hzero : x = 0
        · rw [hzero, zero_add, hsum, max_eq_right (heaviest_nonneg xs)]
        · have hnone : xs.sum = 0 :=
            List.sum_eq_zero fun y hy => (hothers y hy).resolve_left hzero
          rw [← hsum, hnone, add_zero, max_eq_left hx]

/-- The heaviest weight of each owner, added up. -/
def fairSum (owner : ι → κ) (weight : ι → M) (xs : List ι) : M :=
  ∑ k ∈ (xs.map owner).toFinset, heaviest ((xs.filter fun x => owner x = k).map weight)

omit [LinearOrder M] [IsOrderedCancelAddMonoid M] in
/-- A sum is the sum of its parts by owner. -/
theorem sum_by_owner (owner : ι → κ) (weight : ι → M) (xs : List ι) (ks : Finset κ)
    (h : ∀ x ∈ xs, owner x ∈ ks) :
    (xs.map weight).sum = ∑ k ∈ ks, ((xs.filter fun x => owner x = k).map weight).sum := by
  induction xs with
  | nil => simp
  | cons x xs ih =>
      obtain ⟨hx, hxs⟩ := List.forall_mem_cons.mp h
      have hcons : ∀ k, (((x :: xs).filter fun y => owner y = k).map weight).sum =
          (if owner x = k then weight x else 0) +
            ((xs.filter fun y => owner y = k).map weight).sum := by
        intro k
        by_cases hk : owner x = k
        · simp [hk]
        · simp [hk]
      rw [List.map_cons, List.sum_cons, ih hxs]
      simp only [hcons, Finset.sum_add_distrib, Finset.sum_ite_eq, if_pos hx]

/-- The weights sum to no more than the fair sum exactly when no owner has two above zero. -/
theorem sum_le_fairSum_iff (owner : ι → κ) (weight : ι → M) {xs : List ι}
    (h : ∀ x ∈ xs, 0 ≤ weight x) :
    (xs.map weight).sum ≤ fairSum owner weight xs ↔
      xs.Pairwise fun a b => owner a = owner b → weight a = 0 ∨ weight b = 0 := by
  have hparts : ∀ k, ∀ w ∈ (xs.filter fun x => owner x = k).map weight, 0 ≤ w := by
    intro k w hw
    obtain ⟨x, hx, rfl⟩ := List.mem_map.mp hw
    exact h x (List.mem_filter.mp hx).1
  have hle : ∀ k ∈ (xs.map owner).toFinset,
      heaviest ((xs.filter fun x => owner x = k).map weight) ≤
        ((xs.filter fun x => owner x = k).map weight).sum :=
    fun k _ => heaviest_le_sum (hparts k)
  have hmem : ∀ x ∈ xs, owner x ∈ (xs.map owner).toFinset := by
    intro x hx
    exact List.mem_toFinset.mpr (List.mem_map.mpr ⟨x, hx, rfl⟩)
  rw [sum_by_owner owner weight xs _ hmem, fairSum]
  rw [(Finset.sum_le_sum hle).ge_iff_eq, Finset.sum_eq_sum_iff_of_le hle]
  have hpart : ∀ k, heaviest ((xs.filter fun x => owner x = k).map weight) =
      ((xs.filter fun x => owner x = k).map weight).sum ↔
      xs.Pairwise fun a b => owner a = k → owner b = k → weight a = 0 ∨ weight b = 0 := by
    intro k
    rw [eq_comm, sum_eq_heaviest_iff (hparts k), List.pairwise_map, List.pairwise_filter]
    simp only [decide_eq_true_eq]
  simp only [hpart, List.pairwise_iff_getElem]
  constructor
  · intro hall i j hi hj hij howner
    exact hall (owner xs[i]) (hmem _ (List.getElem_mem hi)) i j hi hj hij rfl howner.symm
  · intro hall k _ i j hi hj hij hik hjk
    exact hall i j hi hj hij (hik.trans hjk.symm)

end CeIam.Shares
