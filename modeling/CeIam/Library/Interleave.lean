import CeIam.Library.Run
import CeIam.Library.StoreProg
import Mathlib.Logic.Function.Basic

/-! # Computations that take turns

Several computations share one store, and one of them makes its next call at a time. A call
that fails ends its computation, before or after it took effect. -/

namespace CeIam

inductive StoreCall (κ ν : Type) where
  | get (key : κ)
  | put (key : κ) (value : ν)
  | del (key : κ)
  | list (pfx : κ)

/-- A call is answered, or it fails before or after it took effect. -/
inductive Fate (ε : Type) where
  | answered
  | refused (e : ε)
  | lost (e : ε)

/-- One call of one of the computations. -/
structure StoreEvent (ι κ ν ε : Type) where
  who : ι
  call : StoreCall κ ν
  fate : Fate ε

/-- A store and the computations that share it. -/
structure Shared (σ ι κ ν ε α : Type) where
  store : σ
  prog : ι → StoreProg κ ν ε α

variable {σ ι κ ν ε α : Type}

def StoreCall.effect (b : Backend σ κ ν) (s : σ) : StoreCall κ ν → σ
  | .get _ => s
  | .put k v => b.put s k v
  | .del k => b.del s k
  | .list _ => s

/-- The store after a call, from the ones before and after its effect. -/
def Fate.store (before after : σ) : Fate ε → σ
  | .answered => after
  | .refused _ => before
  | .lost _ => after

/-- The computation after a call. -/
def Fate.prog (rest : StoreProg κ ν ε α) : Fate ε → StoreProg κ ν ε α
  | .answered => rest
  | .refused e => .done (.error e)
  | .lost e => .done (.error e)

/-- The next call of a computation, and the rest once it is answered. -/
def StoreProg.next (b : Backend σ κ ν) (s : σ) :
    StoreProg κ ν ε α → Option (StoreCall κ ν × StoreProg κ ν ε α)
  | .done _ => none
  | .get k f => some (.get k, f (b.get s k))
  | .put k v rest => some (.put k v, rest)
  | .del k rest => some (.del k, rest)
  | .list p f => some (.list p, f (b.list s p))

variable [DecidableEq ι] {b : Backend σ κ ν} {c d : Shared σ ι κ ν ε α} {e : StoreEvent ι κ ν ε}

/-- One of the computations makes its next call. -/
def interleaved (b : Backend σ κ ν) (c : Shared σ ι κ ν ε α) (e : StoreEvent ι κ ν ε)
    (d : Shared σ ι κ ν ε α) : Prop :=
  ∃ rest, (c.prog e.who).next b c.store = some (e.call, rest) ∧
    d = ⟨e.fate.store c.store (e.call.effect b c.store),
      Function.update c.prog e.who (e.fate.prog rest)⟩

/-! ## One step -/

/-- A computation that is done makes no call. -/
theorem not_interleaved_done {r : Except ε α} (h : c.prog e.who = .done r) :
    ¬ interleaved b c e d := by
  rintro ⟨rest, hnext, -⟩
  rw [h] at hnext
  cases hnext

theorem interleaved_get {k : κ} {f : Option ν → StoreProg κ ν ε α}
    (h : interleaved b c e d) (hprog : c.prog e.who = .get k f) :
    e.call = .get k ∧
      d = ⟨c.store, Function.update c.prog e.who (e.fate.prog (f (b.get c.store k)))⟩ := by
  obtain ⟨rest, hnext, rfl⟩ := h
  rw [hprog, StoreProg.next, Option.some.injEq, Prod.mk.injEq] at hnext
  obtain ⟨hcall, rfl⟩ := hnext
  rw [← hcall]
  refine ⟨rfl, ?_⟩
  cases e.fate <;> rfl

theorem interleaved_put {k : κ} {v : ν} {rest : StoreProg κ ν ε α}
    (h : interleaved b c e d) (hprog : c.prog e.who = .put k v rest) :
    e.call = .put k v ∧ d = ⟨e.fate.store c.store (b.put c.store k v),
      Function.update c.prog e.who (e.fate.prog rest)⟩ := by
  obtain ⟨rest', hnext, rfl⟩ := h
  rw [hprog, StoreProg.next, Option.some.injEq, Prod.mk.injEq] at hnext
  obtain ⟨hcall, rfl⟩ := hnext
  rw [← hcall]
  exact ⟨rfl, rfl⟩

theorem interleaved_del {k : κ} {rest : StoreProg κ ν ε α}
    (h : interleaved b c e d) (hprog : c.prog e.who = .del k rest) :
    e.call = .del k ∧ d = ⟨e.fate.store c.store (b.del c.store k),
      Function.update c.prog e.who (e.fate.prog rest)⟩ := by
  obtain ⟨rest', hnext, rfl⟩ := h
  rw [hprog, StoreProg.next, Option.some.injEq, Prod.mk.injEq] at hnext
  obtain ⟨hcall, rfl⟩ := hnext
  rw [← hcall]
  exact ⟨rfl, rfl⟩

/-- A refused call ends its computation and nothing else. -/
theorem interleaved_refused {x : ε} (h : interleaved b c e d) (hfate : e.fate = .refused x) :
    d = ⟨c.store, Function.update c.prog e.who (.done (.error x))⟩ := by
  obtain ⟨rest, -, rfl⟩ := h
  rw [hfate]
  rfl

theorem get_interleaved {i : ι} {k : κ} {f : Option ν → StoreProg κ ν ε α}
    {rest : StoreProg κ ν ε α} (hprog : c.prog i = .get k f) (hrest : f (b.get c.store k) = rest) :
    interleaved b c ⟨i, .get k, .answered⟩ ⟨c.store, Function.update c.prog i rest⟩ :=
  ⟨rest, by rw [hprog, ← hrest]; rfl, rfl⟩

theorem put_interleaved {i : ι} {k : κ} {v : ν} {x : StoreProg κ ν ε α}
    (hprog : c.prog i = .put k v x) :
    interleaved b c ⟨i, .put k v, .answered⟩ ⟨b.put c.store k v, Function.update c.prog i x⟩ :=
  ⟨x, by rw [hprog]; rfl, rfl⟩

theorem del_interleaved {i : ι} {k : κ} {x : StoreProg κ ν ε α} (hprog : c.prog i = .del k x) :
    interleaved b c ⟨i, .del k, .answered⟩ ⟨b.del c.store k, Function.update c.prog i x⟩ :=
  ⟨x, by rw [hprog]; rfl, rfl⟩

theorem refused_interleaved {i : ι} {k : κ} {v : ν} {x : ε} {y : StoreProg κ ν ε α}
    (hprog : c.prog i = .put k v y) : interleaved b c ⟨i, .put k v, .refused x⟩
      ⟨c.store, Function.update c.prog i (.done (.error x))⟩ :=
  ⟨y, by rw [hprog]; rfl, rfl⟩

/-! ## A computation by itself -/

/-- The events are answered calls of one computation, and lead from one state to another. -/
def AloneTo (b : Backend σ κ ν) (i : ι) (c d : Shared σ ι κ ν ε α) : Prop :=
  ∃ events : List (StoreEvent ι κ ν ε), (∀ e ∈ events, e.who = i ∧ e.fate = .answered) ∧
    Run (interleaved b) c events d

theorem AloneTo.cons {i : ι} {call : StoreCall κ ν} {rest : StoreProg κ ν ε α}
    (hnext : (c.prog i).next b c.store = some (call, rest))
    (h : AloneTo b i ⟨call.effect b c.store, Function.update c.prog i rest⟩ d) :
    AloneTo b i c d := by
  obtain ⟨events, hevents, hrun⟩ := h
  have hstep : interleaved b c ⟨i, call, .answered⟩
      ⟨call.effect b c.store, Function.update c.prog i rest⟩ := ⟨rest, hnext, rfl⟩
  refine ⟨[⟨i, call, .answered⟩] ++ events, ?_, .append (.single hstep) hrun⟩
  intro e he
  cases List.mem_append.mp he with
  | inl hfirst =>
      rw [List.mem_singleton.mp hfirst]
      exact ⟨rfl, rfl⟩
  | inr hrest => exact hevents e hrest

/-- A computation that makes its calls while the others wait, all answered, ends as it does
when nothing else shares the store. -/
theorem run_alone {i : ι} {x : StoreProg κ ν ε α} (hx : c.prog i = x) :
    AloneTo b i c
      ⟨(x.run b c.store).2, Function.update c.prog i (.done (x.run b c.store).1)⟩ := by
  induction x generalizing c with
  | done r =>
      have hsame : Function.update c.prog i (.done r) = c.prog := by
        rw [← hx, Function.update_eq_self]
      rw [StoreProg.run, hsame]
      exact ⟨[], by simp, .nil c⟩
  | get k f ih =>
      refine .cons (by rw [hx]; rfl) ?_
      simpa [StoreProg.run, StoreCall.effect] using ih (b.get c.store k)
        (c := ⟨c.store, Function.update c.prog i (f (b.get c.store k))⟩) (by simp)
  | put k v rest ih =>
      refine .cons (by rw [hx]; rfl) ?_
      simpa [StoreProg.run, StoreCall.effect] using
        ih (c := ⟨b.put c.store k v, Function.update c.prog i rest⟩) (by simp)
  | del k rest ih =>
      refine .cons (by rw [hx]; rfl) ?_
      simpa [StoreProg.run, StoreCall.effect] using
        ih (c := ⟨b.del c.store k, Function.update c.prog i rest⟩) (by simp)
  | list p f ih =>
      refine .cons (by rw [hx]; rfl) ?_
      simpa [StoreProg.run, StoreCall.effect] using ih (b.list c.store p)
        (c := ⟨c.store, Function.update c.prog i (f (b.list c.store p))⟩) (by simp)

end CeIam
