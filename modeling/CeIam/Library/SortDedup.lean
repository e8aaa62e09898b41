import Mathlib.Data.List.Sort

/-! # Sorting a vector and dropping its repetitions

The result is the strictly increasing list of the elements, hence determined by
the set of elements alone. -/

namespace CeIam

variable {α : Type} [LinearOrder α]

/-- Drops every element that equals the one after it. -/
def dedup : List α → List α
  | [] => []
  | [a] => [a]
  | a :: b :: rest => if a = b then dedup (b :: rest) else a :: dedup (b :: rest)

def sortDedup (xs : List α) : List α := dedup (xs.insertionSort (· ≤ ·))

theorem mem_dedup {x : α} (xs : List α) : x ∈ dedup xs ↔ x ∈ xs := by
  induction xs using dedup.induct with
  | case1 => rfl
  | case2 a => rfl
  | case3 b rest ih =>
      rw [dedup, if_pos rfl, ih]
      simp
  | case4 a b rest hab ih =>
      simp only [dedup, if_neg hab, List.mem_cons, ih]

theorem dedup_pairwise (xs : List α) (h : xs.Pairwise (· ≤ ·)) :
    (dedup xs).Pairwise (· < ·) := by
  induction xs using dedup.induct with
  | case1 => exact .nil
  | case2 a => exact List.pairwise_singleton _ a
  | case3 b rest ih =>
      rw [dedup, if_pos rfl]
      exact ih (List.pairwise_cons.mp h).2
  | case4 a b rest hab ih =>
      obtain ⟨ha, hrest⟩ := List.pairwise_cons.mp h
      rw [dedup, if_neg hab]
      refine List.pairwise_cons.mpr ⟨?_, ih hrest⟩
      intro x hx
      have hlt : a < b := lt_of_le_of_ne (ha b List.mem_cons_self) hab
      rcases List.mem_cons.mp ((mem_dedup _).mp hx) with rfl | hx
      · exact hlt
      · exact hlt.trans_le ((List.pairwise_cons.mp hrest).1 x hx)

@[simp] theorem mem_sortDedup {x : α} {xs : List α} : x ∈ sortDedup xs ↔ x ∈ xs := by
  rw [sortDedup, mem_dedup, List.mem_insertionSort]

theorem sortDedup_pairwise (xs : List α) : (sortDedup xs).Pairwise (· < ·) :=
  dedup_pairwise _ (List.pairwise_insertionSort (· ≤ ·) xs)

@[simp] theorem sortDedup_eq_nil {xs : List α} : sortDedup xs = [] ↔ xs = [] := by
  simp only [List.eq_nil_iff_forall_not_mem, mem_sortDedup]

/-- Strictly increasing lists with the same elements are equal. -/
theorem eq_of_mem_iff_of_pairwise {xs ys : List α} (hx : xs.Pairwise (· < ·))
    (hy : ys.Pairwise (· < ·)) (h : ∀ a, a ∈ xs ↔ a ∈ ys) : xs = ys := by
  have hperm : xs.Perm ys :=
    (List.perm_ext_iff_of_nodup (hx.imp ne_of_lt) (hy.imp ne_of_lt)).mpr h
  exact hperm.eq_of_pairwise (fun a b _ _ hab hba => absurd hab hba.asymm) hx hy

end CeIam
