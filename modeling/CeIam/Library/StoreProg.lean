import Mathlib.Logic.Basic

/-! # Computations over a key-value store

A computation is the tree of the store calls it makes. The tree says nothing about the
store, so one computation can be run on any backend, or one call at a time. -/

namespace CeIam

/-- Every node but the last is one store call; its continuation receives what it returned. -/
inductive StoreProg (κ ν ε α : Type) : Type where
  | done (result : Except ε α)
  | get (key : κ) (next : Option ν → StoreProg κ ν ε α)
  | put (key : κ) (value : ν) (next : StoreProg κ ν ε α)
  | del (key : κ) (next : StoreProg κ ν ε α)
  | list (pfx : κ) (next : List (κ × ν) → StoreProg κ ν ε α)

/-- A store whose calls always succeed. -/
structure Backend (σ κ ν : Type) where
  get : σ → κ → Option ν
  put : σ → κ → ν → σ
  del : σ → κ → σ
  list : σ → κ → List (κ × ν)

namespace StoreProg

variable {κ ν ε α β : Type}

protected def bind : StoreProg κ ν ε α → (α → StoreProg κ ν ε β) → StoreProg κ ν ε β
  | .done (.ok a), f => f a
  | .done (.error e), _ => .done (.error e)
  | .get k next, f => .get k (fun v => (next v).bind f)
  | .put k v next, f => .put k v (next.bind f)
  | .del k next, f => .del k (next.bind f)
  | .list p next, f => .list p (fun es => (next es).bind f)

instance : Monad (StoreProg κ ν ε) where
  pure a := .done (.ok a)
  bind := StoreProg.bind

instance : MonadLift (Except ε) (StoreProg κ ν ε) where
  monadLift := .done

/-! ## Single calls -/

def fetch (k : κ) : StoreProg κ ν ε (Option ν) := .get k (fun v => .done (.ok v))

def store (k : κ) (v : ν) : StoreProg κ ν ε Unit := .put k v (.done (.ok ()))

def remove (k : κ) : StoreProg κ ν ε Unit := .del k (.done (.ok ()))

def scan (p : κ) : StoreProg κ ν ε (List (κ × ν)) := .list p (fun es => .done (.ok es))

/-- Ends the computation with an error. -/
def fail (e : ε) : StoreProg κ ν ε α := .done (.error e)

/-- The content of an option, or an error. -/
def require (e : ε) : Option α → StoreProg κ ν ε α
  | some a => .done (.ok a)
  | none => .done (.error e)

/-- The computation with its errors renamed. -/
def mapError {δ : Type} (f : ε → δ) : StoreProg κ ν ε α → StoreProg κ ν δ α
  | .done r => .done (r.mapError f)
  | .get k next => .get k fun v => (next v).mapError f
  | .put k v next => .put k v (next.mapError f)
  | .del k next => .del k (next.mapError f)
  | .list p next => .list p fun es => (next es).mapError f

/-! ## What follows a single call -/

theorem fetch_bind (k : κ) (f : Option ν → StoreProg κ ν ε α) : fetch k >>= f = .get k f := rfl

theorem require_bind_some (e : ε) (a : α) (f : α → StoreProg κ ν ε β) :
    require e (some a) >>= f = f a := rfl

theorem lift_bind_ok (a : α) (f : α → StoreProg κ ν ε β) :
    (liftM (.ok a : Except ε α) : StoreProg κ ν ε α) >>= f = f a := rfl

/-! ## Renamed errors -/

section MapError

variable {δ : Type} (f : ε → δ)

@[simp] theorem mapError_bind (x : StoreProg κ ν ε α) (g : α → StoreProg κ ν ε β) :
    (x >>= g).mapError f = x.mapError f >>= fun a => (g a).mapError f := by
  change (x.bind g).mapError f = (x.mapError f).bind fun a => (g a).mapError f
  induction x with
  | done r => cases r <;> rfl
  | get k next ih => exact congrArg (StoreProg.get k) (funext ih)
  | put k v next ih => exact congrArg (StoreProg.put k v) ih
  | del k next ih => exact congrArg (StoreProg.del k) ih
  | list p next ih => exact congrArg (StoreProg.list p) (funext ih)

@[simp] theorem mapError_lift (r : Except ε α) :
    (liftM r : StoreProg κ ν ε α).mapError f = liftM (r.mapError f) := rfl

@[simp] theorem mapError_fetch (k : κ) :
    (fetch k : StoreProg κ ν ε (Option ν)).mapError f = fetch k := rfl

@[simp] theorem mapError_remove (k : κ) :
    (remove k : StoreProg κ ν ε Unit).mapError f = remove k := rfl

@[simp] theorem mapError_require (e : ε) (o : Option α) :
    (require e o : StoreProg κ ν ε α).mapError f = require (f e) o := by
  cases o <;> rfl

/-- Errors that are renamed and given back their names are the same. -/
theorem mapError_mapError {g : δ → ε} (h : ∀ e, g (f e) = e) (x : StoreProg κ ν ε α) :
    (x.mapError f).mapError g = x := by
  induction x with
  | done r =>
      cases r with
      | error e => exact congrArg (fun d => done (.error d)) (h e)
      | ok a => rfl
  | get k next ih => exact congrArg (StoreProg.get k) (funext ih)
  | put k v next ih => exact congrArg (StoreProg.put k v) ih
  | del k next ih => exact congrArg (StoreProg.del k) ih
  | list p next ih => exact congrArg (StoreProg.list p) (funext ih)

end MapError

/-! ## Running a computation to its end -/

variable {σ : Type} (b : Backend σ κ ν)

/-- The result of a computation that no other one interrupts, and the store it leaves. -/
def run : StoreProg κ ν ε α → σ → Except ε α × σ
  | .done r, s => (r, s)
  | .get k next, s => (next (b.get s k)).run s
  | .put k v next, s => next.run (b.put s k v)
  | .del k next, s => next.run (b.del s k)
  | .list p next, s => (next (b.list s p)).run s

/-- A bind runs its second part on the store the first one leaves, unless that one failed. -/
theorem run_bind (x : StoreProg κ ν ε α) (f : α → StoreProg κ ν ε β) (s : σ) :
    (x >>= f).run b s =
      match x.run b s with
      | (.ok a, t) => (f a).run b t
      | (.error e, t) => (.error e, t) := by
  change (x.bind f).run b s = _
  induction x generalizing s with
  | done r => cases r <;> rfl
  | get k next ih => exact ih _ s
  | put k v next ih => exact ih _
  | del k next ih => exact ih _
  | list p next ih => exact ih _ s

/-- A bind succeeds exactly when both parts do. -/
theorem run_bind_ok {x : StoreProg κ ν ε α} {f : α → StoreProg κ ν ε β} {s u : σ} {c : β} :
    (x >>= f).run b s = (.ok c, u) ↔
      ∃ a t, x.run b s = (.ok a, t) ∧ (f a).run b t = (.ok c, u) := by
  rw [run_bind]
  cases hx : x.run b s with
  | mk r t =>
      cases r with
      | ok a =>
          constructor
          · exact fun h => ⟨a, t, rfl, h⟩
          · rintro ⟨_, _, heq, h⟩
            cases heq
            exact h
      | error e =>
          constructor
          · exact fun h => nomatch h
          · rintro ⟨_, _, heq, -⟩
            cases heq

@[simp] theorem run_pure (a : α) (s : σ) :
    (pure a : StoreProg κ ν ε α).run b s = (.ok a, s) := rfl

@[simp] theorem run_lift (r : Except ε α) (s : σ) :
    (liftM r : StoreProg κ ν ε α).run b s = (r, s) := rfl

@[simp] theorem run_fail (e : ε) (s : σ) :
    (fail e : StoreProg κ ν ε α).run b s = (.error e, s) := rfl

@[simp] theorem run_require_some (e : ε) (a : α) (s : σ) :
    (require e (some a) : StoreProg κ ν ε α).run b s = (.ok a, s) := rfl

@[simp] theorem run_require_none (e : ε) (s : σ) :
    (require e none : StoreProg κ ν ε α).run b s = (.error e, s) := rfl

@[simp] theorem run_fetch (k : κ) (s : σ) :
    (fetch k : StoreProg κ ν ε (Option ν)).run b s = (.ok (b.get s k), s) := rfl

@[simp] theorem run_store (k : κ) (v : ν) (s : σ) :
    (store k v : StoreProg κ ν ε Unit).run b s = (.ok (), b.put s k v) := rfl

@[simp] theorem run_remove (k : κ) (s : σ) :
    (remove k : StoreProg κ ν ε Unit).run b s = (.ok (), b.del s k) := rfl

@[simp] theorem run_scan (p : κ) (s : σ) :
    (scan p : StoreProg κ ν ε (List (κ × ν))).run b s = (.ok (b.list s p), s) := rfl

/-- A computation succeeds exactly when its requirement is met. -/
@[simp] theorem run_require_ok {e : ε} {o : Option α} {a : α} {s t : σ} :
    (require e o : StoreProg κ ν ε α).run b s = (.ok a, t) ↔ o = some a ∧ s = t := by
  cases o with
  | none => simp
  | some c => simp

/-- A computation that follows a check succeeds only when the check does not end it. -/
@[simp] theorem run_check_ok {p : Prop} [Decidable p] {e : ε} {rest : Unit → StoreProg κ ν ε α}
    {a : α} {s t : σ} :
    (if p then fail e >>= rest else rest ()).run b s = (.ok a, t) ↔
      ¬ p ∧ (rest ()).run b s = (.ok a, t) := by
  by_cases h : p
  · simp [h, run_bind]
  · simp [h]

/-- A mapped computation has the mapped result. -/
theorem run_map (f : α → β) (x : StoreProg κ ν ε α) (s : σ) :
    (f <$> x).run b s = ((x.run b s).1.map f, (x.run b s).2) := by
  change (x >>= fun a => pure (f a)).run b s = _
  rw [run_bind]
  cases x.run b s with
  | mk r t => cases r <;> rfl

theorem run_map_ok {f : α → β} {x : StoreProg κ ν ε α} {c : β} {s t : σ} :
    (f <$> x).run b s = (.ok c, t) ↔ ∃ a, x.run b s = (.ok a, t) ∧ f a = c := by
  rw [run_map]
  cases x.run b s with
  | mk r u =>
      cases r with
      | ok a =>
          constructor
          · intro h
            cases h
            exact ⟨a, rfl, rfl⟩
          · rintro ⟨_, heq, rfl⟩
            cases heq
            rfl
      | error e => simp [Except.map]

/-! ## Running on a store whose calls may fail -/

/-- A store whose calls may fail. -/
structure FallibleBackend (σ κ ν ε : Type) where
  get : κ → σ → Except ε (Option ν) × σ
  put : κ → ν → σ → Except ε Unit × σ
  del : κ → σ → Except ε Unit × σ
  list : κ → σ → Except ε (List (κ × ν)) × σ

/-- The first call that fails ends the computation with its error. -/
def runOn (b : FallibleBackend σ κ ν ε) : StoreProg κ ν ε α → σ → Except ε α × σ
  | .done r, s => (r, s)
  | .get k next, s =>
      match b.get k s with
      | (.ok v, s) => (next v).runOn b s
      | (.error e, s) => (.error e, s)
  | .put k v next, s =>
      match b.put k v s with
      | (.ok (), s) => next.runOn b s
      | (.error e, s) => (.error e, s)
  | .del k next, s =>
      match b.del k s with
      | (.ok (), s) => next.runOn b s
      | (.error e, s) => (.error e, s)
  | .list p next, s =>
      match b.list p s with
      | (.ok es, s) => (next es).runOn b s
      | (.error e, s) => (.error e, s)

/-- What follows a put that fails is not run. -/
theorem runOn_store_error {b : FallibleBackend σ κ ν ε} {k : κ} {v : ν} {s t : σ} {e : ε}
    (h : b.put k v s = (.error e, t)) (f : Unit → StoreProg κ ν ε α) :
    (store k v >>= f).runOn b s = (.error e, t) := by
  change (StoreProg.put k v (f ())).runOn b s = _
  rw [runOn, h]

/-- What follows a put that succeeds runs on the store that it leaves. -/
theorem runOn_store_ok {b : FallibleBackend σ κ ν ε} {k : κ} {v : ν} {s t : σ}
    (h : b.put k v s = (.ok (), t)) (f : Unit → StoreProg κ ν ε α) :
    (store k v >>= f).runOn b s = (f ()).runOn b t := by
  change (StoreProg.put k v (f ())).runOn b s = _
  rw [runOn, h]

/-! ## What a computation leaves behind -/

/-- Leaves every store as it is. -/
def ReadOnly (x : StoreProg κ ν ε α) : Prop := ∀ s, (x.run b s).2 = s

/-- Succeeds on every store. -/
def NeverFails (x : StoreProg κ ν ε α) : Prop := ∀ s, ∃ a t, x.run b s = (.ok a, t)

/-- Whatever error it ends with has the property. -/
def ErrorsSatisfy (P : ε → Prop) (x : StoreProg κ ν ε α) : Prop :=
  ∀ s e, (x.run b s).1 = .error e → P e

/-- Leaves every store as it is, unless it succeeds. -/
def AllOrNothing (x : StoreProg κ ν ε α) : Prop :=
  ∀ s e, (x.run b s).1 = .error e → (x.run b s).2 = s

variable {b} {x : StoreProg κ ν ε α} {f : α → StoreProg κ ν ε β}

theorem readOnly_done (r : Except ε α) : ReadOnly b (.done r : StoreProg κ ν ε α) :=
  fun _ => rfl

theorem readOnly_fetch (k : κ) : ReadOnly b (fetch k : StoreProg κ ν ε (Option ν)) :=
  fun _ => rfl

theorem readOnly_scan (p : κ) : ReadOnly b (scan p : StoreProg κ ν ε (List (κ × ν))) :=
  fun _ => rfl

theorem readOnly_require (e : ε) (o : Option α) :
    ReadOnly b (require e o : StoreProg κ ν ε α) := by
  cases o with
  | none => exact readOnly_done _
  | some a => exact readOnly_done _

theorem readOnly_fail (e : ε) : ReadOnly b (fail e : StoreProg κ ν ε α) :=
  fun _ => rfl

theorem ReadOnly.bind (hx : ReadOnly b x) (hf : ∀ a, ReadOnly b (f a)) :
    ReadOnly b (x >>= f) := by
  intro s
  have h := hx s
  rw [run_bind]
  cases hrun : x.run b s with
  | mk r t =>
      rw [hrun] at h
      subst h
      cases r with
      | ok a => exact hf a t
      | error e => rfl

/-- A check that ends the computation, and what follows it. -/
theorem ReadOnly.check {p : Prop} [Decidable p] {e : ε} {rest : Unit → StoreProg κ ν ε α}
    (h : ∀ u, ReadOnly b (rest u)) : ReadOnly b (if p then fail e >>= rest else rest ()) := by
  split
  · exact (readOnly_fail e).bind h
  · exact h ()

theorem neverFails_pure (a : α) : NeverFails b (pure a : StoreProg κ ν ε α) :=
  fun s => ⟨a, s, rfl⟩

theorem neverFails_store (k : κ) (v : ν) : NeverFails b (store k v : StoreProg κ ν ε Unit) :=
  fun s => ⟨(), b.put s k v, rfl⟩

theorem neverFails_remove (k : κ) : NeverFails b (remove k : StoreProg κ ν ε Unit) :=
  fun s => ⟨(), b.del s k, rfl⟩

theorem NeverFails.bind (hx : NeverFails b x) (hf : ∀ a, NeverFails b (f a)) :
    NeverFails b (x >>= f) := by
  intro s
  obtain ⟨a, t, ha⟩ := hx s
  obtain ⟨c, u, hc⟩ := hf a t
  exact ⟨c, u, by rw [run_bind, ha]; exact hc⟩

/-! ### Which errors a computation ends with -/

variable {P : ε → Prop}

theorem errorsSatisfy_done {r : Except ε α} (h : ∀ e, r = .error e → P e) :
    ErrorsSatisfy b P (.done r : StoreProg κ ν ε α) :=
  fun _ => h

theorem errorsSatisfy_fetch (k : κ) :
    ErrorsSatisfy b P (fetch k : StoreProg κ ν ε (Option ν)) :=
  fun _ _ h => nomatch h

theorem errorsSatisfy_remove (k : κ) : ErrorsSatisfy b P (remove k : StoreProg κ ν ε Unit) :=
  fun _ _ h => nomatch h

theorem errorsSatisfy_require {e : ε} (h : P e) (o : Option α) :
    ErrorsSatisfy b P (require e o : StoreProg κ ν ε α) := by
  cases o with
  | none =>
      intro s e' he
      cases he
      exact h
  | some a => exact fun s e' he => nomatch he

theorem errorsSatisfy_mapError {δ : Type} {g : δ → ε} (h : ∀ d, P (g d))
    (x : StoreProg κ ν δ α) : ErrorsSatisfy b P (x.mapError g) := by
  induction x with
  | done r =>
      refine errorsSatisfy_done fun e he => ?_
      cases r with
      | ok a => cases he
      | error d =>
          cases he
          exact h d
  | get k next ih => exact fun s => ih _ s
  | put k v next ih => exact fun s => ih (b.put s k v)
  | del k next ih => exact fun s => ih (b.del s k)
  | list p next ih => exact fun s => ih _ s

theorem ErrorsSatisfy.bind (hx : ErrorsSatisfy b P x) (hf : ∀ a, ErrorsSatisfy b P (f a)) :
    ErrorsSatisfy b P (x >>= f) := by
  intro s e
  have h := hx s
  rw [run_bind]
  cases hrun : x.run b s with
  | mk r t =>
      rw [hrun] at h
      cases r with
      | ok a => exact hf a t e
      | error e' =>
          intro he
          cases he
          exact h _ rfl

/-! ### All or nothing -/

theorem ReadOnly.allOrNothing (hx : ReadOnly b x) : AllOrNothing b x :=
  fun s _ _ => hx s

theorem NeverFails.allOrNothing (hx : NeverFails b x) : AllOrNothing b x := by
  intro s e he
  obtain ⟨a, t, ha⟩ := hx s
  rw [ha] at he
  cases he

/-- What is read before the first write may fail. -/
theorem AllOrNothing.after (hx : ReadOnly b x) (hf : ∀ a, AllOrNothing b (f a)) :
    AllOrNothing b (x >>= f) := by
  intro s e
  have h := hx s
  rw [run_bind]
  cases hrun : x.run b s with
  | mk r t =>
      rw [hrun] at h
      subst h
      cases r with
      | ok a => exact hf a t e
      | error e' => exact fun _ => rfl

/-- What follows a write must not fail. -/
theorem AllOrNothing.before (hx : AllOrNothing b x) (hf : ∀ a, NeverFails b (f a)) :
    AllOrNothing b (x >>= f) := by
  intro s e
  have h := hx s
  rw [run_bind]
  cases hrun : x.run b s with
  | mk r t =>
      rw [hrun] at h
      cases r with
      | ok a =>
          obtain ⟨c, u, hc⟩ := hf a t
          simp [hc]
      | error e' => exact fun _ => h e' rfl

theorem AllOrNothing.check {p : Prop} [Decidable p] {e : ε} {rest : Unit → StoreProg κ ν ε α}
    (h : ∀ u, AllOrNothing b (rest u)) :
    AllOrNothing b (if p then fail e >>= rest else rest ()) := by
  split
  · exact .after (readOnly_fail e) h
  · exact h ()

theorem ReadOnly.map (hx : ReadOnly b x) (g : α → β) : ReadOnly b (g <$> x) :=
  hx.bind fun a => readOnly_done (.ok (g a))

theorem AllOrNothing.map (hx : AllOrNothing b x) (g : α → β) : AllOrNothing b (g <$> x) :=
  hx.before fun a => neverFails_pure (g a)

end StoreProg

end CeIam
