import Mathlib.Data.List.Forall2

/-! # Computations that may fail

Inversion of binds and of element-by-element traversals in `Except`, and panics beside errors. -/

namespace CeIam.Outcome

variable {ε α β : Type}

/-- A bind succeeds exactly when both parts do. -/
theorem bind_eq_ok {x : Except ε α} {f : α → Except ε β} {b : β} :
    (x >>= f) = .ok b ↔ ∃ a, x = .ok a ∧ f a = .ok b := by
  cases x with
  | error e =>
      constructor
      · exact fun h => nomatch h
      · rintro ⟨_, h, -⟩
        exact nomatch h
  | ok a =>
      constructor
      · exact fun h => ⟨a, rfl, h⟩
      · rintro ⟨_, h, hf⟩
        cases h
        exact hf

/-- A bind fails where one of its parts does. -/
theorem bind_eq_error {x : Except ε α} {f : α → Except ε β} {e : ε} :
    (x >>= f) = .error e ↔ x = .error e ∨ ∃ a, x = .ok a ∧ f a = .error e := by
  cases x with
  | error d =>
      constructor
      · intro h
        cases h
        exact .inl rfl
      · rintro (h | ⟨_, h, -⟩)
        · cases h
          rfl
        · cases h
  | ok a =>
      constructor
      · exact fun h => .inr ⟨a, rfl, h⟩
      · rintro (h | ⟨_, h, hf⟩)
        · cases h
        · cases h
          exact hf

theorem ok_bind (a : α) (f : α → Except ε β) : (.ok a : Except ε α) >>= f = f a := rfl

theorem isOk_iff {x : Except ε α} : x.isOk = true ↔ ∃ a, x = .ok a := by
  cases x with
  | error e => simp [Except.isOk, Except.toBool]
  | ok a => simp [Except.isOk, Except.toBool]

theorem map_eq_ok {x : Except ε α} {f : α → β} {b : β} :
    x.map f = .ok b ↔ ∃ a, x = .ok a ∧ f a = b := by
  cases x with
  | error e => simp [Except.map]
  | ok a => simp [Except.map]

theorem mapError_eq_ok {x : Except ε α} {δ : Type} {g : ε → δ} {a : α} :
    x.mapError g = .ok a ↔ x = .ok a := by
  cases x with
  | error e => simp [Except.mapError]
  | ok b => simp [Except.mapError]

/-- A result with its errors renamed is the result of the computation. -/
theorem map_mapError_eq_ok {x : Except ε α} {δ : Type} {f : α → β} {g : ε → δ} {b : β} :
    (x.mapError g).map f = .ok b ↔ ∃ a, x = .ok a ∧ f a = b := by
  simp only [map_eq_ok, mapError_eq_ok]

theorem map_unit (x : Except ε Unit) : x.map (fun _ => ()) = x := by
  cases x with
  | error e => rfl
  | ok u => rfl

/-- Succeeds exactly when the condition holds. -/
def ensure (p : Prop) [Decidable p] (e : ε) : Except ε Unit :=
  if p then .ok () else .error e

@[simp] theorem ensure_eq_ok {p : Prop} [Decidable p] {e : ε} {u : Unit} :
    ensure p e = .ok u ↔ p := by
  by_cases h : p
  · simp [ensure, h]
  · simp [ensure, h]

/-- The content of an option, or an error. -/
def require (e : ε) : Option α → Except ε α
  | some a => .ok a
  | none => .error e

@[simp] theorem require_eq_ok {e : ε} {o : Option α} {a : α} :
    require e o = .ok a ↔ o = some a := by
  cases o with
  | none => simp [require]
  | some b => simp [require]

@[simp] theorem require_eq_error {e d : ε} {o : Option α} :
    require e o = .error d ↔ o = none ∧ e = d := by
  cases o with
  | none => simp [require]
  | some b => simp [require]

/-! ## Panics -/

/-- How a call ends early: with an error for its caller, or with a panic that no caller sees. -/
inductive Abort where
  | error (message : String)
  | panic (message : String)
deriving DecidableEq

namespace Abort

def message : Abort → String
  | .error message => message
  | .panic message => message

/-- The error that a caller sees. -/
def IsError (e : Abort) : Prop := ∃ message, e = .error message

/-- An error is shown by its outermost context. -/
def context (message : String) (x : Except Abort α) : Except Abort α :=
  x.mapError fun
    | .error _ => .error message
    | .panic cause => .panic cause

@[simp] theorem message_error (message : String) : (Abort.error message).message = message := rfl

@[simp] theorem mapError_message_error (x : Except String α) :
    (x.mapError Abort.error).mapError message = x := by
  cases x <;> rfl

@[simp] theorem context_eq_ok {message : String} {x : Except Abort α} {a : α} :
    context message x = .ok a ↔ x = .ok a :=
  mapError_eq_ok

@[simp] theorem context_eq_panic {message cause : String} {x : Except Abort α} :
    context message x = .error (.panic cause) ↔ x = .error (.panic cause) := by
  rcases x with (_ | _) | _ <;> simp [context, Except.mapError]

end Abort

/-! ## Reading back what was printed -/

open Classical in
/-- Reads back what `print` printed, and nothing else. -/
noncomputable def readBack (print : α → β) (text : β) : Except String α :=
  if h : ∃ a, print a = text then .ok h.choose else .error "not a printed value"

theorem readBack_print {f : α → β} (hinj : Function.Injective f) (a : α) :
    readBack f (f a) = .ok a := by
  have hexists : ∃ b, f b = f a := ⟨a, rfl⟩
  rw [readBack, dif_pos hexists, hinj hexists.choose_spec]

theorem print_of_readBack {f : α → β} {text : β} {a : α} (h : readBack f text = .ok a) :
    f a = text := by
  rw [readBack] at h
  split at h
  · next hexists =>
      cases h
      exact hexists.choose_spec
  · cases h

/-! ## Traversals -/

theorem mapM_cons (f : α → Except ε β) (x : α) (xs : List α) :
    (x :: xs).mapM f = (do
      let y ← f x
      let ys ← xs.mapM f
      return y :: ys) := by
  simp

/-- A traversal succeeds exactly when every element does, with the results in order. -/
theorem mapM_eq_ok {f : α → Except ε β} {xs : List α} {ys : List β} :
    xs.mapM f = .ok ys ↔ List.Forall₂ (fun x y => f x = .ok y) xs ys := by
  induction xs generalizing ys with
  | nil =>
      simp only [List.mapM_nil, List.forall₂_nil_left_iff]
      exact ⟨fun h => (Except.ok.inj h).symm, fun h => h ▸ rfl⟩
  | cons x xs ih =>
      rw [mapM_cons]
      simp only [bind_eq_ok, ih]
      constructor
      · rintro ⟨y, hy, ys', hys, h⟩
        cases h
        exact .cons hy hys
      · rintro (_ | ⟨hy, hys⟩)
        exact ⟨_, hy, _, hys, rfl⟩

/-- Every element has its result in a successful traversal, and every result its element. -/
theorem mem_mapM {f : α → Except ε β} {xs : List α} {ys : List β} (h : xs.mapM f = .ok ys) :
    (∀ x ∈ xs, ∃ y ∈ ys, f x = .ok y) ∧ ∀ y ∈ ys, ∃ x ∈ xs, f x = .ok y := by
  have hall := mapM_eq_ok.mp h
  clear h
  induction hall with
  | nil => simp
  | cons hx _ ih =>
      constructor
      · rintro x (_ | ⟨_, hmem⟩)
        · exact ⟨_, List.mem_cons_self, hx⟩
        · obtain ⟨y, hy, hf⟩ := ih.1 x hmem
          exact ⟨y, List.mem_cons_of_mem _ hy, hf⟩
      · rintro y (_ | ⟨_, hmem⟩)
        · exact ⟨_, List.mem_cons_self, hx⟩
        · obtain ⟨x, hx', hf⟩ := ih.2 y hmem
          exact ⟨x, List.mem_cons_of_mem _ hx', hf⟩

/-- A traversal has results exactly when every element has one. -/
theorem mapM_exists {f : α → Except ε β} {xs : List α} :
    (∃ ys, xs.mapM f = .ok ys) ↔ ∀ x ∈ xs, ∃ y, f x = .ok y := by
  induction xs with
  | nil => exact iff_of_true ⟨[], rfl⟩ (by simp)
  | cons x xs ih =>
      rw [List.forall_mem_cons, ← ih, mapM_cons]
      simp only [bind_eq_ok]
      constructor
      · rintro ⟨_, y, hy, ys, hys, -⟩
        exact ⟨⟨y, hy⟩, ys, hys⟩
      · rintro ⟨⟨y, hy⟩, ys, hys⟩
        exact ⟨y :: ys, y, hy, ys, hys, rfl⟩

/-- A fold that fails fails in one of its steps. -/
theorem foldlM_eq_error {σ : Type} {f : σ → α → Except ε σ} {xs : List α} {s : σ} {e : ε}
    (h : xs.foldlM f s = .error e) : ∃ x ∈ xs, ∃ t, f t x = .error e := by
  induction xs generalizing s with
  | nil => cases h
  | cons x xs ih =>
      rw [List.foldlM_cons] at h
      cases hx : f s x with
      | error e' =>
          rw [hx] at h
          cases h
          exact ⟨x, List.mem_cons_self, s, hx⟩
      | ok t =>
          rw [hx] at h
          obtain ⟨y, hy, u, hu⟩ := ih h
          exact ⟨y, List.mem_cons_of_mem _ hy, u, hu⟩

/-- A fold that succeeds ends in a state related to a plain fold, when its steps do. -/
theorem foldlM_simulation {σ τ : Type} {f : σ → α → Except ε σ} {g : τ → α → τ}
    {R : σ → τ → Prop} (hstep : ∀ a s t s', f s a = .ok s' → R s t → R s' (g t a))
    {xs : List α} {s s' : σ} {t : τ} (h : xs.foldlM f s = .ok s') (hs : R s t) :
    R s' (xs.foldl g t) := by
  induction xs generalizing s t with
  | nil =>
      cases h
      exact hs
  | cons x xs ih =>
      rw [List.foldlM_cons, bind_eq_ok] at h
      obtain ⟨next, hnext, hrest⟩ := h
      exact ih hrest (hstep x s t next hnext hs)

end CeIam.Outcome
