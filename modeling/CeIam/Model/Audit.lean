import CeIam.Library.OrdMap
import Mathlib.Data.Prod.Lex

/-! # The access audit

A bounded list of recent events and a counter for each actor and target. -/

namespace CeIam

inductive Action where
  | kvRead
  | kvWrite
  | kvDelete
deriving DecidableEq

structure Event where
  happenedAt : UInt64
  actor : String
  action : Action
  target : String
  ns : String
  allowed : Bool
deriving DecidableEq

structure Counter where
  -- Words of 64 bits in the source, which fewer than 2 ^ 64 accesses do not fill.
  allowed : ℕ
  denied : ℕ
  lastAt : UInt64
deriving DecidableEq

def maxEvents : ℕ := 4096

structure Audit where
  ns : String
  events : List Event
  counters : OrdMap (String ×ₗ String) Counter

namespace Audit

def new (ns : String) : Audit := ⟨ns, [], ∅⟩

/-- Records one access; the oldest events are dropped, the counters never are. -/
def record (a : Audit) (now : UInt64) (actor : String) (action : Action) (target : String)
    (allowed : Bool) : Audit :=
  let c := (a.counters[toLex (actor, target)]?).getD ⟨0, 0, 0⟩
  let c :=
    if allowed then { c with allowed := c.allowed + 1 } else { c with denied := c.denied + 1 }
  let events := a.events ++ [⟨now, actor, action, target, a.ns, allowed⟩]
  { a with
    events := events.drop (events.length - maxEvents)
    counters := a.counters.insert (toLex (actor, target)) { c with lastAt := now } }

/-- How many allowed, or denied, accesses are counted for an actor and a target. -/
def count (a : Audit) (actor target : String) (allowed : Bool) : ℕ :=
  let c := (a.counters[toLex (actor, target)]?).getD ⟨0, 0, 0⟩
  if allowed then c.allowed else c.denied

/-- The most recent events, newest last. -/
def recent (a : Audit) (limit : ℕ) : List Event := (a.events.reverse.take limit).reverse

/-- The counters with their actor and target. -/
def counterList (a : Audit) : List (String × String × Counter) :=
  a.counters.toList.map fun e => ((ofLex e.1).1, (ofLex e.1).2, e.2)

end Audit

end CeIam
