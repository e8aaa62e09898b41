import Mathlib.Logic.Relation

/-! # Exchanging neighbours in a log

Steps that do not conflict may change places. Logs that differ by such exchanges lead from
the same state to related states, when exchanging two steps does. -/

namespace CeIam

variable {α σ : Type*} {conflict : α → α → Prop} {step : σ → α → σ} {R : σ → σ → Prop}

/-- Two neighbours that do not conflict change places. -/
inductive Swap (conflict : α → α → Prop) : List α → List α → Prop where
  | mk (front : List α) {a b : α} (rest : List α) (h : ¬ conflict a b) :
      Swap conflict (front ++ a :: b :: rest) (front ++ b :: a :: rest)

/-- A relation that every step respects is respected by every log. -/
theorem foldl_respects (hstep : ∀ s t a, R s t → R (step s a) (step t a)) (xs : List α) {s t : σ}
    (h : R s t) : R (xs.foldl step s) (xs.foldl step t) := by
  induction xs generalizing s t with
  | nil => exact h
  | cons x xs ih => exact ih (hstep s t x h)

/-- What every step preserves, every log preserves. -/
theorem foldl_preserves {I : σ → Prop} (hstep : ∀ s a, I s → I (step s a)) (xs : List α) {s : σ}
    (h : I s) : I (xs.foldl step s) := by
  induction xs generalizing s with
  | nil => exact h
  | cons x xs ih => exact ih (hstep s x h)

section

variable {I : σ → Prop} (hinv : ∀ s a, I s → I (step s a))
  (hstep : ∀ s t a, R s t → R (step s a) (step t a))
  (hcomm : ∀ s a b, I s → ¬ conflict a b → R (step (step s a) b) (step (step s b) a))

include hinv hstep hcomm

theorem Swap.foldl {xs ys : List α} (h : Swap conflict xs ys) {s : σ} (hs : I s) :
    R (xs.foldl step s) (ys.foldl step s) := by
  obtain ⟨front, rest, hab⟩ := h
  rw [List.foldl_append, List.foldl_append]
  exact foldl_respects hstep rest (hcomm _ _ _ (foldl_preserves hinv front hs) hab)

/-- Logs that differ by any number of exchanges lead to related states. -/
theorem foldl_swaps (hrefl : ∀ s, R s s) (htrans : ∀ s t u, R s t → R t u → R s u)
    {xs ys : List α} (h : Relation.ReflTransGen (Swap conflict) xs ys) {s : σ} (hs : I s) :
    R (xs.foldl step s) (ys.foldl step s) := by
  induction h with
  | refl => exact hrefl _
  | tail _ hswap ih => exact htrans _ _ _ ih (hswap.foldl hinv hstep hcomm hs)

end

end CeIam
