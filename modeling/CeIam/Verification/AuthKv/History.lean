import CeIam.Verification.AuthKv.Auditing
import Mathlib.Data.List.DropRight

/-! # What the audit shows

The events are bounded and the counters are not. After any run of requests the audit shows the end
of its whole history, and counts all of it. -/

namespace CeIam

/-! ## The end of a list -/

theorem rtake_rtake {α : Type*} (l : List α) (m n : ℕ) :
    (l.rtake n).rtake m = l.rtake (min m n) := by
  simp only [List.rtake_eq_reverse_take_reverse, List.reverse_reverse, List.take_take]

/-- What is kept of a list is enough to keep the end of a longer one. -/
theorem rtake_rtake_append {α : Type*} (l : List α) (x : α) (n : ℕ) :
    (l.rtake n ++ [x]).rtake n = (l ++ [x]).rtake n := by
  simp only [List.rtake_eq_reverse_take_reverse, List.reverse_append, List.reverse_reverse]
  cases n with
  | zero => simp
  | succ n => simp [List.take_take]

/-! ## Histories -/

namespace Audit

/-- The event is about the actor and the target. -/
def about (actor target : String) (e : Event) : Bool := decide (e.actor = actor ∧ e.target = target)

/-- The counter of some events, if there are any. -/
def tally (events : List Event) : Option Counter :=
  events.getLast?.map fun last =>
    ⟨events.countP (·.allowed), events.countP (!·.allowed), last.happenedAt⟩

/-- The audit keeps the end of a history, and counts all of it. -/
structure Shows (history : List Event) (a : Audit) : Prop where
  events : a.events = history.rtake maxEvents
  counters : ∀ actor target,
    a.counters[toLex (actor, target)]? = tally (history.filter (about actor target))

variable {a : Audit} {history : List Event}

theorem tally_getD (events : List Event) :
    ((tally events).getD ⟨0, 0, 0⟩).allowed = events.countP (·.allowed) ∧
      ((tally events).getD ⟨0, 0, 0⟩).denied = events.countP (!·.allowed) := by
  cases hlast : events.getLast? with
  | none =>
      rw [List.getLast?_eq_none_iff.mp hlast]
      exact ⟨rfl, rfl⟩
  | some last =>
      rw [tally, hlast]
      exact ⟨rfl, rfl⟩

/-- One more event is counted as allowed or as denied. -/
theorem tally_snoc (events : List Event) (e : Event) :
    let c := (tally events).getD ⟨0, 0, 0⟩
    tally (events ++ [e]) = some
      { if e.allowed then { c with allowed := c.allowed + 1 }
        else { c with denied := c.denied + 1 } with lastAt := e.happenedAt } := by
  intro c
  obtain ⟨hallowed, hdenied⟩ := tally_getD events
  simp only [tally, List.getLast?_concat, Option.map_some, List.countP_append, List.countP_singleton]
  cases h : e.allowed with
  | true => simp [c, hallowed, hdenied]
  | false => simp [c, hallowed, hdenied]

theorem shows_new (ns : String) : Shows [] (new ns) where
  events := rfl
  counters := fun _ _ => OrdMap.get_empty _

theorem record_ns (now : UInt64) (actor : String) (action : Action) (target : String)
    (allowed : Bool) : (a.record now actor action target allowed).ns = a.ns := by
  rw [record]

theorem Shows.record (h : Shows history a) (now : UInt64) (actor : String) (action : Action)
    (target : String) (allowed : Bool) :
    Shows (history ++ [⟨now, actor, action, target, a.ns, allowed⟩])
      (a.record now actor action target allowed) where
  events := by
    rw [← rtake_rtake_append, ← h.events, List.rtake, Audit.record]
  counters := by
    intro actor' target'
    rw [List.filter_append, List.filter_singleton]
    by_cases hpair : actor = actor' ∧ target = target'
    · obtain ⟨rfl, rfl⟩ := hpair
      have habout : about actor target ⟨now, actor, action, target, a.ns, allowed⟩ = true := by
        simp [about]
      rw [habout, cond_true, tally_snoc, ← h.counters, Audit.record, OrdMap.get_insert, if_pos rfl]
    · have hother : about actor' target' ⟨now, actor, action, target, a.ns, allowed⟩ = false := by
        simpa [about] using hpair
      have hkey : toLex (actor, target) ≠ toLex (actor', target') := by
        simpa [toLex_inj] using hpair
      rw [hother, cond_false, List.append_nil, ← h.counters, Audit.record, OrdMap.get_insert,
        if_neg hkey]

/-- The most recent events that an audit shows are the end of its history. -/
theorem Shows.recent (h : Shows history a) (limit : ℕ) :
    a.recent limit = history.rtake (min limit maxEvents) := by
  rw [Audit.recent, ← List.rtake_eq_reverse_take_reverse, h.events, rtake_rtake]

theorem Shows.mem_counterList (h : Shows history a) (actor target : String) (c : Counter) :
    (actor, target, c) ∈ a.counterList ↔ tally (history.filter (about actor target)) = some c := by
  rw [← h.counters, counterList, List.mem_map]
  constructor
  · rintro ⟨⟨k, c'⟩, hmem, heq⟩
    cases heq
    exact OrdMap.mem_toList.mp hmem
  · intro hget
    exact ⟨(toLex (actor, target), c), OrdMap.mem_toList.mpr hget, rfl⟩

/-- No actor and target are counted twice. -/
theorem counterList_pairwise (a : Audit) :
    a.counterList.Pairwise fun r q => (r.1, r.2.1) ≠ (q.1, q.2.1) := by
  rw [counterList, List.pairwise_map]
  refine a.counters.sorted_toList.imp fun {e f} hlt heq => ?_
  exact hlt.ne heq

end Audit

/-! ## Runs of requests -/

namespace AuthKv

variable (cc : CeCap) (kv : AuthKv) (decode : ByteArray → Except String KvReq)

/-- The event that the server records for a request. -/
def eventOf (d : Delivery) : Option Event :=
  match decode d.payload with
  | .ok req =>
      let decision := kv.decision cc d.env d.sender req
      if req.records decision then
        some ⟨d.env.recordedAt, d.sender, req.action, req.target, kv.ns, decision⟩
      else none
  | .error _ => none

variable {cc kv decode} {s : KvState} {d : Delivery} {history : List Event}

theorem shows_serve (hns : s.audit.ns = kv.ns) (h : s.audit.Shows history) :
    (kv.serve cc decode d s).2.audit.ns = kv.ns ∧
      (kv.serve cc decode d s).2.audit.Shows (history ++ (kv.eventOf cc decode d).toList) := by
  rw [eventOf]
  cases hreq : decode d.payload with
  | error e =>
      rw [serve_audit_error hreq]
      exact ⟨hns, by simpa using h⟩
  | ok req =>
      rw [serve_audit hreq]
      simp only
      by_cases hrecords : req.records (kv.decision cc d.env d.sender req) = true
      · rw [if_pos hrecords, if_pos hrecords, ← hns]
        exact ⟨Audit.record_ns .., h.record ..⟩
      · rw [if_neg hrecords, if_neg hrecords]
        exact ⟨hns, by simpa using h⟩

variable (cc kv decode)

/-- After any run of requests, the audit's recent events are the end of all that was recorded, and
its counters have, for each actor and target of these and no other, how many were allowed, how many
were denied and the time of the last. -/
theorem audit_view (m : OrdMap String Json) (ls : List Delivery) :
    let a := (Machine.after (kv.serve cc decode) ls ⟨m, Audit.new kv.ns⟩).audit
    let history := ls.filterMap (kv.eventOf cc decode)
    (∀ limit, a.recent limit = history.rtake (min limit maxEvents)) ∧
      (∀ actor target c, (actor, target, c) ∈ a.counterList ↔
        Audit.tally (history.filter (Audit.about actor target)) = some c) ∧
      a.counterList.Pairwise fun r q => (r.1, r.2.1) ≠ (q.1, q.2.1) := by
  intro a history
  have hrun : a.ns = kv.ns ∧ a.Shows history := by
    refine Machine.after_history (I := fun ls (s : KvState) =>
      s.audit.ns = kv.ns ∧ s.audit.Shows (ls.filterMap (kv.eventOf cc decode))) ?_ ls
      ⟨rfl, Audit.shows_new kv.ns⟩
    intro ls d s hs
    have hlast : [d].filterMap (kv.eventOf cc decode) = (kv.eventOf cc decode d).toList := by
      cases h : kv.eventOf cc decode d with
      | none => simp [h]
      | some e => simp [h]
    rw [List.filterMap_append, hlast]
    exact shows_serve hs.1 hs.2
  exact ⟨hrun.2.recent, hrun.2.mem_counterList, a.counterList_pairwise⟩

end AuthKv

end CeIam
