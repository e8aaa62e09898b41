import Mathlib.Data.List.Basic
import Mathlib.Data.List.Induction

/-! # Machines that answer

A machine takes inputs one after another, answers each and moves on. Two machines whose
states stay related answer alike along every list of inputs exactly when each pair of answers
agrees. -/

namespace CeIam.Machine

variable {σ τ ℓ ρ : Type}

/-- The answers to a list of inputs. -/
def answers (f : ℓ → σ → ρ × σ) : List ℓ → σ → List ρ
  | [], _ => []
  | l :: ls, s => (f l s).1 :: answers f ls (f l s).2

/-- The inputs with their answers. -/
def trace (f : ℓ → σ → ρ × σ) : List ℓ → σ → List (ℓ × ρ)
  | [], _ => []
  | l :: ls, s => (l, (f l s).1) :: trace f ls (f l s).2

/-- The state after a list of inputs. -/
def after (f : ℓ → σ → ρ × σ) (ls : List ℓ) (s : σ) : σ :=
  ls.foldl (fun s l => (f l s).2) s

/-- A condition that every input meets in the state that takes it. -/
def Along (f : ℓ → σ → ρ × σ) (P : ℓ → σ → Prop) : List ℓ → σ → Prop
  | [], _ => True
  | l :: ls, s => P l s ∧ Along f P ls (f l s).2

@[simp] theorem after_nil (f : ℓ → σ → ρ × σ) (s : σ) : after f [] s = s := rfl

@[simp] theorem after_cons (f : ℓ → σ → ρ × σ) (l : ℓ) (ls : List ℓ) (s : σ) :
    after f (l :: ls) s = after f ls (f l s).2 := rfl

theorem after_append (f : ℓ → σ → ρ × σ) (ls ms : List ℓ) (s : σ) :
    after f (ls ++ ms) s = after f ms (after f ls s) := by
  simp [after]

/-- What every input preserves holds after any list of them. -/
theorem after_invariant {f : ℓ → σ → ρ × σ} {I : σ → Prop} (h : ∀ l s, I s → I (f l s).2)
    (ls : List ℓ) {s : σ} (hs : I s) : I (after f ls s) := by
  induction ls generalizing s with
  | nil => exact hs
  | cons l ls ih => exact ih (h l s hs)

/-- What every input preserves of the inputs so far and the state holds after any list of them. -/
theorem after_history {f : ℓ → σ → ρ × σ} {I : List ℓ → σ → Prop}
    (h : ∀ ls l s, I ls s → I (ls ++ [l]) (f l s).2) (ls : List ℓ) {s : σ} (hs : I [] s) :
    I ls (after f ls s) := by
  induction ls using List.reverseRecOn with
  | nil => exact hs
  | append_singleton ls l ih =>
      rw [after_append]
      exact h ls l _ ih

theorem trace_append (f : ℓ → σ → ρ × σ) (ls ms : List ℓ) (s : σ) :
    trace f (ls ++ ms) s = trace f ls s ++ trace f ms (after f ls s) := by
  induction ls generalizing s with
  | nil => rfl
  | cons l ls ih =>
      rw [List.cons_append, trace, ih]
      rfl

/-- What every input preserves of the trace so far and the state holds after any list of them. -/
theorem trace_history {f : ℓ → σ → ρ × σ} {I : List (ℓ × ρ) → σ → Prop}
    (h : ∀ es l s, I es s → I (es ++ [(l, (f l s).1)]) (f l s).2) (ls : List ℓ) {s : σ}
    (hs : I [] s) : I (trace f ls s) (after f ls s) := by
  induction ls using List.reverseRecOn with
  | nil => exact hs
  | append_singleton ls l ih =>
      rw [after_append, trace_append]
      exact h _ l _ ih

theorem answers_append (f : ℓ → σ → ρ × σ) (ls ms : List ℓ) (s : σ) :
    answers f (ls ++ ms) s = answers f ls s ++ answers f ms (after f ls s) := by
  induction ls generalizing s with
  | nil => rfl
  | cons l ls ih =>
      rw [List.cons_append, answers, ih]
      rfl

variable {f : ℓ → σ → ρ × σ} {g : ℓ → τ → ρ × τ} {R : σ → τ → Prop} {P : ℓ → τ → Prop}
  {ls : List ℓ} {s : σ} {t : τ}

/-- A condition on the inputs alone holds along a run when it holds of every input. -/
theorem along_iff {P : ℓ → σ → Prop} {Q : ℓ → Prop} (h : ∀ l s, P l s ↔ Q l) (ls : List ℓ) (s : σ) :
    Along f P ls s ↔ ∀ l ∈ ls, Q l := by
  induction ls generalizing s with
  | nil => simp [Along]
  | cons l ls ih => rw [Along, h, ih, List.forall_mem_cons]

/-- Conditions that agree in the states a run can be in agree along the run. -/
theorem along_congr {J : σ → Prop} {P Q : ℓ → σ → Prop}
    (hnext : ∀ l ∈ ls, ∀ s, J s → J (f l s).2) (h : ∀ l ∈ ls, ∀ s, J s → (P l s ↔ Q l s))
    (hs : J s) : Along f P ls s ↔ Along f Q ls s := by
  induction ls generalizing s with
  | nil => rfl
  | cons l ls ih =>
      rw [Along, Along, h l List.mem_cons_self s hs,
        ih (fun k hk => hnext k (List.mem_cons_of_mem _ hk))
          (fun k hk => h k (List.mem_cons_of_mem _ hk)) (hnext l List.mem_cons_self s hs)]

/-- Machines whose states every input leaves related are related after all of them. -/
theorem after_related (hnext : ∀ l ∈ ls, ∀ s t, R s t → R (f l s).2 (g l t).2) (h : R s t) :
    R (after f ls s) (after g ls t) := by
  induction ls generalizing s t with
  | nil => exact h
  | cons l ls ih =>
      exact ih (fun k hk => hnext k (List.mem_cons_of_mem _ hk)) (hnext l List.mem_cons_self s t h)

/-- Related machines answer alike exactly when every input meets the condition under which
one answer is the other. -/
theorem answers_agree_iff (hnext : ∀ l ∈ ls, ∀ s t, R s t → R (f l s).2 (g l t).2)
    (hanswer : ∀ l ∈ ls, ∀ s t, R s t → ((f l s).1 = (g l t).1 ↔ P l t)) (h : R s t) :
    answers f ls s = answers g ls t ↔ Along g P ls t := by
  induction ls generalizing s t with
  | nil => simp [answers, Along]
  | cons l ls ih =>
      rw [answers, answers, List.cons.injEq, Along, hanswer l List.mem_cons_self s t h]
      rw [ih (fun k hk => hnext k (List.mem_cons_of_mem _ hk))
        (fun k hk => hanswer k (List.mem_cons_of_mem _ hk))
        (hnext l List.mem_cons_self s t h)]

/-- A property that every input keeps or breaks, by a condition on the input and the state that
takes it, holds in every state of a run exactly when every input meets the condition there. -/
theorem kept_along_iff {I : σ → Prop} {P : ℓ → σ → Prop}
    (hstep : ∀ l ∈ ls, ∀ s, I s → (I (f l s).2 ↔ P l s)) (hs : I s) :
    (∀ ks, ks <+: ls → I (after f ks s)) ↔ Along f P ls s := by
  induction ls generalizing s with
  | nil => simp [hs, Along]
  | cons l ls ih =>
      have hrest : ∀ k ∈ ls, ∀ s, I s → (I (f k s).2 ↔ P k s) :=
        fun k hk => hstep k (List.mem_cons_of_mem _ hk)
      rw [Along, ← hstep l List.mem_cons_self s hs]
      constructor
      · intro h
        have hfirst : I (f l s).2 := h [l] ⟨ls, rfl⟩
        refine ⟨hfirst, (ih hrest hfirst).mp ?_⟩
        intro ks hks
        exact h (l :: ks) ((List.prefix_cons_inj l).mpr hks)
      · rintro ⟨hfirst, halong⟩ ks hks
        cases ks with
        | nil => exact hs
        | cons k ks =>
            obtain ⟨rfl, htail⟩ := List.cons_prefix_cons.mp hks
            exact (ih hrest hfirst).mpr halong ks htail

/-- A property that holds at first and in every state of a run holds at first, and every input
meets the condition under which it stays. -/
theorem holds_along_iff {I : σ → Prop} {P : ℓ → σ → Prop}
    (hstep : ∀ l ∈ ls, ∀ s, I s → (I (f l s).2 ↔ P l s)) :
    (∀ ks, ks <+: ls → I (after f ks s)) ↔ I s ∧ Along f P ls s := by
  constructor
  · intro h
    have hs : I s := h [] ls.nil_prefix
    exact ⟨hs, (kept_along_iff hstep hs).mp h⟩
  · rintro ⟨hs, halong⟩
    exact (kept_along_iff hstep hs).mpr halong

/-- What can only be lost holds at the end exactly when it holds at first and every input meets
the condition under which it stays. -/
theorem after_along_iff {J E : σ → Prop} {P : ℓ → σ → Prop} (hnext : ∀ l s, J s → J (f l s).2)
    (hstep : ∀ l s, J s → (E (f l s).2 ↔ E s ∧ P l s)) (hs : J s) :
    E (after f ls s) ↔ E s ∧ Along f P ls s := by
  induction ls generalizing s with
  | nil => simp [Along]
  | cons l ls ih => rw [after_cons, ih (hnext l s hs), hstep l s hs, Along, and_assoc]

/-- When the condition is on the input alone, every input of the run has to meet it. -/
theorem kept_iff {I : σ → Prop} {Q : ℓ → Prop} (hstep : ∀ l s, I s → (I (f l s).2 ↔ Q l))
    (hs : I s) : (∀ ks, ks <+: ls → I (after f ks s)) ↔ ∀ l ∈ ls, Q l := by
  rw [kept_along_iff (P := fun l _ => Q l) (fun l _ => hstep l) hs]
  exact along_iff (Q := Q) (fun _ _ => Iff.rfl) ls s

end CeIam.Machine
