import CeIam.Verification.Catalog.Invariants
import Mathlib.Data.List.DropRight

/-! # Polling the audit trail

The trail keeps the last entries only, with consecutive versions. A reader that asks often
enough for what is newer than the last version it has seen misses nothing and sees nothing
twice. -/

namespace CeIam

namespace Catalog

/-- An operation and its author, if it has one. -/
abbrev AuthoredOp := CatalogOp × Option Principal

/-- The audit line of the operation that makes the given version. -/
def auditEntry (version : ℕ) (op : AuthoredOp) : AuditEntry :=
  ⟨version, op.1.auditAction, op.1.auditTarget, op.2.map Principal.hex⟩

/-- One audit line for each operation; the first makes the version after `n`. -/
def trail (n : ℕ) : List AuthoredOp → List AuditEntry
  | [] => []
  | op :: ops => auditEntry (n + 1) op :: trail (n + 1) ops

@[simp] theorem length_trail (n : ℕ) (ops : List AuthoredOp) :
    (trail n ops).length = ops.length := by
  induction ops generalizing n with
  | nil => rfl
  | cons op ops ih => rw [trail, List.length_cons, ih, List.length_cons]

theorem trail_append (n : ℕ) (ops more : List AuthoredOp) :
    trail n (ops ++ more) = trail n ops ++ trail (n + ops.length) more := by
  induction ops generalizing n with
  | nil => rfl
  | cons op ops ih =>
      rw [List.cons_append, trail, ih, List.length_cons, trail, List.cons_append,
        Nat.add_right_comm, Nat.add_assoc]

theorem drop_trail (n k : ℕ) (ops : List AuthoredOp) :
    (trail n ops).drop k = trail (n + k) (ops.drop k) := by
  induction k generalizing n ops with
  | zero => rfl
  | succ k ih =>
      cases ops with
      | nil => simp [trail]
      | cons op ops =>
          rw [trail, List.drop_succ_cons, List.drop_succ_cons, ih, Nat.add_right_comm,
            Nat.add_assoc]

theorem lt_version_of_mem_trail {n : ℕ} {ops : List AuthoredOp} {e : AuditEntry}
    (h : e ∈ trail n ops) : n < e.version := by
  induction ops generalizing n with
  | nil => cases h
  | cons op ops ih =>
      rcases List.mem_cons.mp h with rfl | h
      · exact Nat.lt_succ_self n
      · exact (Nat.lt_succ_self n).trans (ih h)

/-- The last line of a trail has the version that all operations make. -/
theorem getLast_version_trail (n : ℕ) (ops : List AuthoredOp) :
    (((trail n ops).getLast?).map AuditEntry.version).getD n = n + ops.length := by
  induction ops using List.reverseRecOn with
  | nil => rfl
  | append_singleton ops op =>
      rw [trail_append, trail, trail, List.getLast?_concat, List.length_append]
      rfl

/-- The lines of a trail newer than a version are what is left without the older ones. -/
theorem filter_trail (n seen : ℕ) (ops : List AuthoredOp) (h : n ≤ seen) :
    (trail n ops).filter (fun e => seen < e.version) = (trail n ops).drop (seen - n) := by
  induction ops generalizing n with
  | nil => simp [trail]
  | cons op ops ih =>
      rcases h.eq_or_lt with rfl | hlt
      · rw [Nat.sub_self, List.drop_zero, List.filter_eq_self]
        exact fun e he => decide_eq_true (lt_version_of_mem_trail he)
      · have hold : ¬ seen < (auditEntry (n + 1) op).version := Nat.not_lt.mpr hlt
        have hsub : seen - n = seen - (n + 1) + 1 := by omega
        rw [trail, List.filter_cons, if_neg (by simpa using hold), ih (n + 1) hlt, hsub,
          List.drop_succ_cons]

/-! ## The audit of a catalog -/

/-- Keeping the last elements before and after an addition is keeping them after it. -/
theorem rtake_concat {α : Type} (xs : List α) (x : α) (n : ℕ) :
    (xs.rtake n ++ [x]).rtake n = (xs ++ [x]).rtake n := by
  simp only [List.rtake, List.length_append, List.length_drop, List.length_singleton]
  by_cases h : xs.length ≤ n
  · rw [Nat.sub_eq_zero_of_le h, List.drop_zero, Nat.sub_zero]
  · have hcount : xs.length - (xs.length - n) + 1 - n = 1 := by omega
    have hmore : xs.length + 1 - n = xs.length - n + 1 := by omega
    rw [hcount, hmore, ← List.drop_drop, List.drop_append_of_le_length (Nat.sub_le _ _)]

/-- After any operations the audit is the end of their trail. -/
theorem audit_ofOps (ops : List AuthoredOp) :
    (ofOps ops).version = ops.length ∧
      (ofOps ops).audit = (trail 0 ops).rtake maxAuditEntries := by
  induction ops using List.reverseRecOn with
  | nil => exact ⟨rfl, rfl⟩
  | append_singleton ops op ih =>
      obtain ⟨hversion, haudit⟩ := ih
      have hstep : ofOps (ops ++ [op]) = (ofOps ops).apply op.1 op.2 := by
        rw [ofOps, List.foldl_append]
        rfl
      have hkept : ((ofOps ops).update op.1).audit = (ofOps ops).audit ∧
          ((ofOps ops).update op.1).version = (ofOps ops).version := by
        cases op.1 <;> exact ⟨rfl, rfl⟩
      have htrail : trail 0 (ops ++ [op]) =
          trail 0 ops ++ [auditEntry ((ofOps ops).version + 1) op] := by
        rw [trail_append, Nat.zero_add, hversion]
        rfl
      rw [hstep, htrail, ← rtake_concat, ← haudit, List.length_append, ← hversion]
      simp only [apply, advance, hkept]
      exact ⟨rfl, rfl⟩

theorem length_audit_le (ops : List AuthoredOp) : (ofOps ops).audit.length ≤ maxAuditEntries := by
  rw [(audit_ofOps ops).2, List.rtake, List.length_drop]
  omega

/-- What the audit has after a version, when nothing newer was dropped. -/
theorem auditSince_ofOps {ops : List AuthoredOp} {seen : ℕ}
    (h : ops.length ≤ seen + maxAuditEntries) :
    (ofOps ops).auditSince seen = (trail 0 ops).drop seen := by
  have hdropped : ops.length - maxAuditEntries ≤ seen := by omega
  rw [auditSince, (audit_ofOps ops).2, List.rtake, length_trail, drop_trail, Nat.zero_add,
    filter_trail _ _ _ hdropped, drop_trail, drop_trail, List.drop_drop, Nat.zero_add,
    Nat.add_sub_cancel' hdropped]

/-! ## The poller -/

/-- The last version a poller has seen, and all that it was told. -/
structure Poller where
  seen : ℕ
  told : List AuditEntry

namespace Poller

def new : Poller := ⟨0, []⟩

/-- Asks for what is newer than the last version seen. -/
def poll (p : Poller) (c : Catalog) : Poller :=
  let entries := c.auditSince p.seen
  ⟨(entries.getLast?.map AuditEntry.version).getD p.seen, p.told ++ entries⟩

end Poller

/-- Some operations, and a poll after them. -/
def pollAfter (s : Catalog × Poller) (ops : List AuthoredOp) : Catalog × Poller :=
  let c := ops.foldl (fun c op => c.apply op.1 op.2) s.1
  (c, s.2.poll c)

/-- The poller has seen every version so far, and was told of each once. -/
structure UpToDate (ops : List AuthoredOp) (s : Catalog × Poller) : Prop where
  catalog : s.1 = ofOps ops
  seen : s.2.seen = ops.length
  told : s.2.told = trail 0 ops

theorem UpToDate.pollAfter {before ops : List AuthoredOp} {s : Catalog × Poller}
    (h : UpToDate before s) (hfew : ops.length ≤ maxAuditEntries) :
    UpToDate (before ++ ops) (pollAfter s ops) := by
  have hcatalog : ops.foldl (fun c op => c.apply op.1 op.2) s.1 = ofOps (before ++ ops) := by
    rw [h.catalog, ofOps, ofOps, List.foldl_append]
  have hsince : (ofOps (before ++ ops)).auditSince s.2.seen = trail before.length ops := by
    rw [h.seen, auditSince_ofOps (by simpa using hfew), drop_trail, List.drop_left, Nat.zero_add]
  refine ⟨hcatalog, ?_, ?_⟩
  · simp only [Catalog.pollAfter, Poller.poll, hcatalog, hsince]
    rw [h.seen, getLast_version_trail, List.length_append]
  · simp only [Catalog.pollAfter, Poller.poll, hcatalog, hsince]
    rw [h.told, trail_append, Nat.zero_add]

/-- A poller that never lets more operations pass than the audit keeps is told of every
operation once, in order, and the audit never exceeds its bound. -/
theorem polls_see_every_change :
    (∀ batches : List (List AuthoredOp), (∀ ops ∈ batches, ops.length ≤ maxAuditEntries) →
      (batches.foldl pollAfter (.new, .new)).2.told = trail 0 batches.flatten) ∧
    ∀ ops : List AuthoredOp, (ofOps ops).audit.length ≤ maxAuditEntries := by
  refine ⟨?_, length_audit_le⟩
  intro batches
  have hrun : (∀ ops ∈ batches, ops.length ≤ maxAuditEntries) →
      UpToDate batches.flatten (batches.foldl pollAfter (.new, .new)) := by
    induction batches using List.reverseRecOn with
    | nil => exact fun _ => ⟨rfl, rfl, rfl⟩
    | append_singleton batches ops ih =>
        intro h
        have hbefore := ih fun ops hops => h ops (List.mem_append_left _ hops)
        rw [List.foldl_append, List.flatten_append, List.flatten_singleton]
        exact hbefore.pollAfter (h ops (by simp))
  exact fun h => (hrun h).told

/-- Two polls, the first after two operations and the second after one. -/
theorem polls_see_three_changes :
    let ops : List (List AuthoredOp) :=
      [[(.removeRole "ops", none), (.removePolicy "dev", some ⟨.filled 1⟩)],
        [(.removeRole "dev", none)]]
    (ops.foldl pollAfter (.new, .new)).2.told =
      [⟨1, "remove_role", "ops", none⟩,
        ⟨2, "remove_policy", "dev", some (Principal.hex ⟨.filled 1⟩)⟩,
        ⟨3, "remove_role", "dev", none⟩] :=
  polls_see_every_change.1 _ (by decide)

end Catalog

end CeIam
