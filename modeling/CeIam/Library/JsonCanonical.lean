import CeIam.Library.Json
import Mathlib.Data.String.Basic

/-! # Canonical JSON values

A library of JSON has fewer values than `Json`: the keys of its objects are in order and differ,
its integers are words of 64 bits, its floats have one text each, and its reader follows brackets
to a bounded depth. -/

namespace CeIam.Json

/-- How deep a reader follows brackets. -/
def maxNesting : ℕ := 127

/-- A value that the library has, with brackets nested no deeper than a bound. The floats are those
that the library prints. -/
inductive Canonical (printed : FloatText → Prop) : ℕ → Json → Prop where
  | null (n : ℕ) : Canonical printed n .null
  | bool (n : ℕ) (b : Bool) : Canonical printed n (.bool b)
  | int (n : ℕ) (x : Int) (hlow : -2 ^ 63 ≤ x) (hhigh : x < UInt64.size) :
      Canonical printed n (.int x)
  | float (n : ℕ) (x : FloatText) (hx : printed x) : Canonical printed n (.float x)
  | str (n : ℕ) (s : String) : Canonical printed n (.str s)
  | arr (n : ℕ) (xs : List Json) (hxs : ∀ x ∈ xs, Canonical printed n x) :
      Canonical printed (n + 1) (.arr xs)
  | obj (n : ℕ) (fields : List (String × Json)) (hkeys : fields.Pairwise (·.1 < ·.1))
      (hfields : ∀ e ∈ fields, Canonical printed n e.2) : Canonical printed (n + 1) (.obj fields)

attribute [simp] Canonical.null Canonical.bool Canonical.str

variable {printed : FloatText → Prop} {m n : ℕ} {j v : Json}

theorem Canonical.mono (h : j.Canonical printed m) (hmn : m ≤ n) : j.Canonical printed n := by
  induction h generalizing n with
  | null => exact .null n
  | bool _ b => exact .bool n b
  | int _ x hlow hhigh => exact .int n x hlow hhigh
  | float _ x hx => exact .float n x hx
  | str _ s => exact .str n s
  | arr m xs _ ih =>
      obtain ⟨n, rfl⟩ := Nat.exists_eq_add_one_of_ne_zero (show n ≠ 0 by omega)
      exact .arr n xs fun x hx => ih x hx (by omega)
  | obj m fields hkeys _ ih =>
      obtain ⟨n, rfl⟩ := Nat.exists_eq_add_one_of_ne_zero (show n ≠ 0 by omega)
      exact .obj n fields hkeys fun e he => ih e he (by omega)

/-- A field is nested one bracket less. -/
theorem Canonical.field (h : j.Canonical printed n) {k : String} (hv : j.field k = some v) :
    v.Canonical printed (n - 1) := by
  cases h with
  | obj n fields _ hfields =>
      obtain ⟨before, after, rfl, -⟩ := List.lookup_eq_some_iff.mp hv
      exact hfields (k, v) (by simp)
  | _ => cases hv

/-! ## Objects -/

/-- Setting a field keeps the keys in order. -/
theorem pairwise_insertField (k : String) (v : Json) {fields : List (String × Json)}
    (h : fields.Pairwise (·.1 < ·.1)) : (insertField k v fields).Pairwise (·.1 < ·.1) := by
  induction fields with
  | nil => simp [insertField]
  | cons e rest ih =>
      obtain ⟨l, w⟩ := e
      obtain ⟨hfirst, hrest⟩ := List.pairwise_cons.mp h
      simp only [insertField]
      split_ifs with hlt heq
      · refine List.pairwise_cons.mpr ⟨fun e he => ?_, h⟩
        rcases List.mem_cons.mp he with rfl | hmem
        · exact hlt
        · exact hlt.trans (hfirst e hmem)
      · subst heq
        exact List.pairwise_cons.mpr ⟨hfirst, hrest⟩
      · refine List.pairwise_cons.mpr ⟨fun e he => ?_, ih hrest⟩
        rcases mem_insertField he with rfl | hmem
        · exact lt_of_le_of_ne (not_lt.mp hlt) (Ne.symm heq)
        · exact hfirst e hmem

theorem canonical_ofFields {fields : List (String × Json)}
    (h : ∀ e ∈ fields, e.2.Canonical printed n) : (ofFields fields).Canonical printed (n + 1) := by
  have hkeys : ∀ acc : List (String × Json), acc.Pairwise (·.1 < ·.1) →
      (fields.foldl (fun acc e => insertField e.1 e.2 acc) acc).Pairwise (·.1 < ·.1) := by
    intro acc hacc
    exact List.foldlRecOn fields _ hacc fun acc hacc e _ => pairwise_insertField e.1 e.2 hacc
  refine .obj n _ (hkeys [] .nil) fun e he => ?_
  cases mem_foldl_insertField he with
  | inl hmem => exact h e hmem
  | inr hnil => cases hnil

theorem canonical_single (k : String) (h : v.Canonical printed n) :
    (obj [(k, v)]).Canonical printed (n + 1) :=
  .obj n _ (List.pairwise_singleton _ _) fun e he => by
    rw [List.mem_singleton.mp he]
    exact h

end CeIam.Json
