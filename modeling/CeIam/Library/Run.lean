import Mathlib.Data.List.Induction

/-! # Runs of labelled transition systems

A run applies steps one after another and records their labels in order. Invariants,
transitive relations and simulations pass from one step to whole runs. -/

namespace CeIam

inductive Run {σ ℓ : Type*} (step : σ → ℓ → σ → Prop) : σ → List ℓ → σ → Prop where
  | nil (s : σ) : Run step s [] s
  | snoc {s t u : σ} {ls : List ℓ} {l : ℓ} : Run step s ls t → step t l u →
      Run step s (ls ++ [l]) u

namespace Run

variable {σ ℓ α : Type*} {step : σ → ℓ → σ → Prop} {s t u : σ} {ls ms : List ℓ}

theorem single {l : ℓ} (h : step s l t) : Run step s [l] t :=
  Run.snoc (.nil s) h

theorem nil_iff : Run step s [] t ↔ s = t := by
  constructor
  · intro h
    generalize hls : ([] : List ℓ) = ls at h
    cases h with
    | nil => rfl
    | snoc _ _ => simp at hls
  · rintro rfl
    exact .nil s

/-- A run of one more step is a run and that step. -/
theorem snoc_iff {l : ℓ} : Run step s (ls ++ [l]) u ↔ ∃ t, Run step s ls t ∧ step t l u := by
  constructor
  · intro h
    generalize hls : ls ++ [l] = ms at h
    cases h with
    | nil => simp at hls
    | snoc hrun hl =>
        obtain ⟨rfl, hlast⟩ := List.append_inj' hls rfl
        cases hlast
        exact ⟨_, hrun, hl⟩
  · rintro ⟨t, hrun, hl⟩
    exact .snoc hrun hl

theorem single_iff {l : ℓ} : Run step s [l] t ↔ step s l t := by
  constructor
  · intro h
    obtain ⟨u, hnil, hl⟩ := snoc_iff.mp (show Run step s ([] ++ [l]) t from h)
    rwa [nil_iff.mp hnil]
  · exact single

theorem append (h : Run step s ls t) (k : Run step t ms u) : Run step s (ls ++ ms) u := by
  induction k with
  | nil => simpa using h
  | snoc _ hstep ih =>
      rw [← List.append_assoc]
      exact .snoc ih hstep

/-- Steps that are a function run along every list of labels. -/
theorem foldl {next : σ → ℓ → σ} (h : ∀ s l, step s l (next s l)) (s : σ) (ls : List ℓ) :
    Run step s ls (ls.foldl next s) := by
  induction ls using List.reverseRecOn with
  | nil => exact .nil s
  | append_singleton ls l ih =>
      rw [List.foldl_append]
      exact .snoc ih (h _ l)

/-- Steps that are also steps of another relation are a run of that relation. -/
theorem mono {step' : σ → ℓ → σ → Prop} (h : Run step s ls t)
    (hstep : ∀ s l t, step s l t → step' s l t) : Run step' s ls t := by
  induction h with
  | nil => exact .nil _
  | snoc _ hl ih => exact .snoc ih (hstep _ _ _ hl)

/-- A run whose labels have a property is a run of the steps with such a label. -/
theorem restrict {P : ℓ → Prop} (h : Run step s ls t) (hls : ∀ l ∈ ls, P l) :
    Run (fun s l t => step s l t ∧ P l) s ls t := by
  induction h with
  | nil => exact .nil _
  | snoc _ hl ih =>
      have hlast := hls _ (List.mem_append_right _ List.mem_cons_self)
      exact .snoc (ih fun l hmem => hls l (List.mem_append_left _ hmem)) ⟨hl, hlast⟩

/-- What every step preserves holds at the end of every run. -/
theorem invariant {I : σ → Prop} (h : Run step s ls t)
    (hstep : ∀ s l t, I s → step s l t → I t) (hs : I s) : I t := by
  induction h with
  | nil => exact hs
  | snoc _ hl ih => exact hstep _ _ _ ih hl

/-- What every step preserves of the labels so far and the state holds at the end. -/
theorem history {I : List ℓ → σ → Prop} (h : Run step s ls t)
    (hstep : ∀ ls s l t, I ls s → step s l t → I (ls ++ [l]) t) (hs : I [] s) : I ls t := by
  induction h with
  | nil => exact hs
  | snoc _ hl ih => exact hstep _ _ _ _ ih hl

/-- Steps that are also steps of a simpler system, seen through functions of the states and the
labels, are a run of it. -/
theorem simulation {τ κ : Type*} {step' : τ → κ → τ → Prop} {I : σ → Prop} {f : σ → τ} {g : ℓ → κ}
    (h : Run step s ls t) (hstep : ∀ s l t, I s → step s l t → I t ∧ step' (f s) (g l) (f t))
    (hs : I s) : I t ∧ Run step' (f s) (ls.map g) (f t) := by
  induction h with
  | nil => exact ⟨hs, .nil _⟩
  | snoc _ hl ih =>
      obtain ⟨hbefore, hrun⟩ := ih
      obtain ⟨hafter, hlast⟩ := hstep _ _ _ hbefore hl
      rw [List.map_append]
      exact ⟨hafter, .snoc hrun hlast⟩

/-- A preorder that every step respects relates the ends of every run. -/
theorem related {R : σ → σ → Prop} (h : Run step s ls t) (refl : ∀ s, R s s)
    (trans : ∀ s t u, R s t → R t u → R s u) (hstep : ∀ s l t, step s l t → R s t) :
    R s t := by
  induction h with
  | nil => exact refl s
  | snoc _ hl ih => exact trans _ _ _ ih (hstep _ _ _ hl)

/-- An abstraction that every step respects is the fold of the labels over the run. -/
theorem abstraction {R : σ → α → Prop} {act : α → ℓ → α} {a : α} (h : Run step s ls t)
    (hstep : ∀ s l t a, R s a → step s l t → R t (act a l)) (hs : R s a) :
    R t (ls.foldl act a) := by
  induction h with
  | nil => exact hs
  | snoc _ hl ih =>
      rw [List.foldl_append]
      exact hstep _ _ _ _ ih hl

end Run

end CeIam
