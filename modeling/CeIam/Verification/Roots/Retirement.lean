import CeIam.Library.Machine
import CeIam.Verification.Store.FailedSaves

/-! # Retiring a root

Retiring a root overwrites the end of its window. The key loses trust only when the new window
stays within what was accepted before: an end of 0 never comes, and a later end reopens the
window. -/

namespace CeIam

namespace RootEntry

/-- The last moment of a window with this end; an end of 0 is the last moment there is. -/
def lastMoment (notAfter : UInt64) : UInt64 :=
  if notAfter = 0 then UInt64.ofNat (2 ^ 64 - 1) else notAfter

theorem le_lastMoment_iff {now notAfter : UInt64} :
    now ≤ lastMoment notAfter ↔ notAfter = 0 ∨ now ≤ notAfter := by
  rw [lastMoment]
  split
  · next h =>
      have hlast : now ≤ UInt64.ofNat (2 ^ 64 - 1) := by
        rw [UInt64.le_iff_toNat_le]
        exact Nat.le_pred_of_lt now.toNat_lt
      exact iff_of_true hlast (.inl h)
  · next h => exact (or_iff_right h).symm

theorem acceptedAt_iff {e : RootEntry} {now : UInt64} :
    e.acceptedAt now = true ↔ e.notBefore ≤ now ∧ now ≤ lastMoment e.notAfter := by
  have hzero : e.notBefore ≠ 0 ∧ now < e.notBefore ↔ now < e.notBefore := by
    refine and_iff_right_of_imp ?_
    intro h hzero
    rw [hzero] at h
    exact absurd h (UInt64.not_lt.mpr UInt64.zero_le)
  rw [le_lastMoment_iff]
  simp only [acceptedAt, hzero]
  by_cases hbegun : now < e.notBefore
  · simp [hbegun, UInt64.not_le]
  · by_cases hended : e.notAfter ≠ 0 ∧ now > e.notAfter
    · simp only [if_neg hbegun, if_pos hended, Bool.false_eq_true, false_iff, not_and, not_or]
      exact fun _ => ⟨hended.1, UInt64.not_le.mpr hended.2⟩
    · simp only [if_neg hbegun, if_neg hended, true_iff]
      rw [not_and_or, not_not, gt_iff_lt, UInt64.not_lt] at hended
      exact ⟨UInt64.not_lt.mp hbegun, hended⟩

end RootEntry

namespace Roots

open RootEntry

theorem isAccepted_iff {r : Roots} {key : NodeId} {now : UInt64} :
    r.isAccepted key now = true ↔
      ∃ (k : String) (e : RootEntry), r.roots[k]? = some e ∧ e.key.nodeId = key ∧
        e.acceptedAt now = true := by
  simp only [isAccepted, List.any_eq_true, Bool.and_eq_true, decide_eq_true_eq, Prod.exists,
    OrdMap.mem_toList]

/-! ## Calls -/

/-- A call, successful or not. -/
def call : Call → Kept → Except IamError Bool × Kept
  | .add key label notBefore notAfter outcome, s =>
      ((s.1.add key label notBefore notAfter outcome s.2).1.map fun _ => true,
        (s.1.add key label notBefore notAfter outcome s.2).2)
  | .retire key time outcome, s => s.1.retire key time outcome s.2
  | .remove key outcome, s => s.1.remove key outcome s.2

theorem roots_retire {r : Roots} {key : Principal} {e : RootEntry}
    (h : r.roots[key.hex]? = some e) (time : UInt64) (outcome : Except String Unit)
    (disk : Disk) :
    (r.retire key time outcome disk).2.1.roots =
      r.roots.insert key.hex { e with notAfter := time } := by
  simp only [retire, h]

/-- An entry after a call was there before, was added, or was given a new end. -/
theorem entry_of_call {c : Call} {s : Kept} {k : String} {f : RootEntry}
    (h : (call c s).2.1.roots[k]? = some f) :
    s.1.roots[k]? = some f ∨
    (∃ label notBefore notAfter outcome, c = .add f.key label notBefore notAfter outcome ∧
      k = f.key.hex) ∨
    ∃ q time outcome e, c = .retire q time outcome ∧ k = q.hex ∧
      s.1.roots[q.hex]? = some e ∧ f = { e with notAfter := time } := by
  obtain ⟨r, disk⟩ := s
  cases c with
  | add key label notBefore notAfter outcome =>
      simp only [call, add] at h
      split at h
      · exact .inl h
      · simp only [OrdMap.get_insert] at h
        split at h
        · next hk =>
            cases h
            exact .inr (.inl ⟨label, notBefore, notAfter, outcome, rfl, hk.symm⟩)
        · exact .inl h
  | retire key time outcome =>
      cases hget : r.roots[key.hex]? with
      | none =>
          simp only [call, retire, hget] at h
          exact .inl h
      | some e =>
          rw [call, roots_retire hget, OrdMap.get_insert] at h
          split at h
          · next hk =>
              cases h
              exact .inr (.inr ⟨key, time, outcome, e, rfl, hk.symm, hget, rfl⟩)
          · exact .inl h
  | remove key outcome =>
      have herase : (call (.remove key outcome) (r, disk)).2.1.roots = r.roots.erase key.hex := by
        simp only [call, remove]
        split <;> rfl
      rw [herase, OrdMap.get_erase] at h
      split at h
      · cases h
      · exact .inl h

/-! ## Trust that shrinks -/

/-- After a retirement at `time` the key is accepted at no later time, and at no time at which
it was not accepted before. -/
structure Shrinks (r : Roots) (key : Principal) (time : UInt64) (s : Roots) : Prop where
  ended : ∀ now, time < now → s.isAccepted key.nodeId now = false
  within : ∀ now, s.isAccepted key.nodeId now = true → r.isAccepted key.nodeId now = true

/-- The window from the beginning of the entry to a new end holds only moments up to `time`
at which the key was accepted. -/
def Shortens (r : Roots) (key : Principal) (time : UInt64) (e : RootEntry) (notAfter : UInt64) :
    Prop :=
  ∀ now, e.notBefore ≤ now → now ≤ lastMoment notAfter →
    now ≤ time ∧ r.isAccepted key.nodeId now = true

/-- A call that gives an entry of the key a new end shortens its window. -/
def Fits (r : Roots) (key : Principal) (time : UInt64) : Call → Kept → Prop
  | .retire q notAfter _, s =>
      ∀ e : RootEntry, s.1.roots[q.hex]? = some e → e.key = key → Shortens r key time e notAfter
  | _, _ => True

/-- The entries that name the key, but not in its place, end by `time`. -/
def OthersEnd (r : Roots) (key : Principal) (time : UInt64) : Prop :=
  ∀ (k : String) (e : RootEntry), r.roots[k]? = some e → k ≠ key.hex → e.key = key →
    ∀ now, e.acceptedAt now = true → now ≤ time

variable {r : Roots} {key : Principal} {time : UInt64}

theorem shrinks_iff {s : Roots} :
    Shrinks r key time s ↔ ∀ (k : String) (e : RootEntry), s.roots[k]? = some e → e.key = key →
      ∀ now, e.acceptedAt now = true → now ≤ time ∧ r.isAccepted key.nodeId now = true := by
  constructor
  · intro h k e he hkey now hnow
    have haccepted : s.isAccepted key.nodeId now = true :=
      isAccepted_iff.mpr ⟨k, e, he, by rw [hkey], hnow⟩
    refine ⟨?_, h.within now haccepted⟩
    by_contra hlate
    rw [h.ended now (UInt64.not_le.mp hlate)] at haccepted
    cases haccepted
  · intro h
    have hkey : ∀ now, s.isAccepted key.nodeId now = true →
        now ≤ time ∧ r.isAccepted key.nodeId now = true := by
      intro now hnow
      obtain ⟨k, e, he, hnode, haccepted⟩ := isAccepted_iff.mp hnow
      exact h k e he (congrArg Principal.mk hnode) now haccepted
    refine ⟨?_, fun now hnow => (hkey now hnow).2⟩
    intro now hlate
    rw [Bool.eq_false_iff]
    exact fun hnow => absurd (hkey now hnow).1 (UInt64.not_le.mpr hlate)

theorem shortens_iff_acceptedAt {e : RootEntry} {notAfter : UInt64} :
    Shortens r key time e notAfter ↔
      ∀ now, RootEntry.acceptedAt { e with notAfter } now = true →
        now ≤ time ∧ r.isAccepted key.nodeId now = true := by
  simp only [Shortens, acceptedAt_iff, and_imp]

/-- Trust that has shrunk stays so exactly in the calls that fit. -/
theorem shrinks_call_iff {s : Kept} {c : Call} (h : Shrinks r key time s.1)
    (hadd : ∀ label notBefore notAfter outcome, c ≠ .add key label notBefore notAfter outcome) :
    Shrinks r key time (call c s).2.1 ↔ Fits r key time c s := by
  rw [shrinks_iff] at h ⊢
  constructor
  · intro hafter
    cases c with
    | retire q notAfter outcome =>
        intro e he hkey
        refine shortens_iff_acceptedAt.mpr (hafter q.hex { e with notAfter } ?_ hkey)
        rw [call, roots_retire he, OrdMap.get_insert, if_pos rfl]
    | _ => trivial
  · intro hfits k f hf hkey now hnow
    rcases entry_of_call hf with hold | ⟨label, notBefore, notAfter, outcome, rfl, -⟩ |
      ⟨q, notAfter, outcome, e, rfl, -, he, rfl⟩
    · exact h k f hold hkey now hnow
    · exact absurd (by rw [hkey]) (hadd label notBefore notAfter outcome)
    · exact shortens_iff_acceptedAt.mp (hfits e he hkey) now hnow

/-- A retirement that is answered with true finds an entry. -/
theorem exists_of_retire {outcome : Except String Unit} {disk : Disk} {s : Kept}
    (h : r.retire key time outcome disk = (.ok true, s)) :
    ∃ e, r.roots[key.hex]? = some e := by
  rw [retire] at h
  split at h
  · next e he => exact ⟨e, he⟩
  · cases h

/-- The retirement itself shrinks trust exactly when it fits and nothing else names the key
for longer. -/
theorem shrinks_retire_iff {e : RootEntry} (he : r.roots[key.hex]? = some e)
    (outcome : Except String Unit) (disk : Disk) :
    Shrinks r key time (r.retire key time outcome disk).2.1 ↔
      OthersEnd r key time ∧ Fits r key time (.retire key time outcome) (r, disk) := by
  rw [shrinks_iff, roots_retire he]
  constructor
  · intro h
    constructor
    · intro k f hf hk hkey now hnow
      refine (h k f ?_ hkey now hnow).1
      rw [OrdMap.get_insert, if_neg (Ne.symm hk), hf]
    · intro f hf hkey
      refine shortens_iff_acceptedAt.mpr (h key.hex { f with notAfter := time } ?_ hkey)
      rw [OrdMap.get_insert, if_pos rfl, Option.some.inj (he.symm.trans hf)]
  · rintro ⟨hothers, hfits⟩ k f hf hkey now hnow
    rw [OrdMap.get_insert] at hf
    split at hf
    · cases hf
      exact shortens_iff_acceptedAt.mp (hfits e he hkey) now hnow
    · next hk =>
        refine ⟨hothers k f hf (Ne.symm hk) hkey now hnow, ?_⟩
        exact isAccepted_iff.mpr ⟨k, f, hf, by rw [hkey], hnow⟩

/-! ## Sets that are keyed by hex -/

/-- Every entry is kept under the key it names. -/
def Keyed (r : Roots) : Prop :=
  ∀ (k : String) (e : RootEntry), r.roots[k]? = some e → k = e.key.hex

theorem isAccepted_of_keyed (h : Keyed r) {e : RootEntry} (he : r.roots[key.hex]? = some e)
    (now : UInt64) : r.isAccepted key.nodeId now = e.acceptedAt now := by
  rw [Bool.eq_iff_iff, isAccepted_iff]
  constructor
  · rintro ⟨k, f, hf, hnode, hnow⟩
    have hkey : f.key = key := congrArg Principal.mk hnode
    have hk := h k f hf
    rw [hkey] at hk
    rw [hk, he] at hf
    cases hf
    exact hnow
  · intro hnow
    have hkey := Principal.hex_injective (h key.hex e he)
    exact ⟨key.hex, e, he, by rw [hkey], hnow⟩

/-- In a keyed set a window is shortened when its new end is no later than the old one and
than `time`, or comes before the window begins. -/
theorem shortens_iff_of_keyed (h : Keyed r) {e f : RootEntry} (he : r.roots[key.hex]? = some e)
    (hf : f.notBefore = e.notBefore) (notAfter : UInt64) :
    Shortens r key time f notAfter ↔
      lastMoment notAfter < e.notBefore ∨
        (lastMoment notAfter ≤ time ∧ lastMoment notAfter ≤ lastMoment e.notAfter) := by
  simp only [Shortens, isAccepted_of_keyed h he, acceptedAt_iff, hf]
  constructor
  · intro hshortens
    by_cases hbefore : lastMoment notAfter < e.notBefore
    · exact .inl hbefore
    · have hlast := hshortens _ (UInt64.not_lt.mp hbefore) UInt64.le_rfl
      exact .inr ⟨hlast.1, hlast.2.2⟩
  · rintro (hbefore | ⟨htime, hend⟩) now hbegun hnow
    · exact absurd (UInt64.le_trans hbegun hnow) (UInt64.not_le.mpr hbefore)
    · exact ⟨UInt64.le_trans hnow htime, hbegun, UInt64.le_trans hnow hend⟩

theorem othersEnd_of_keyed (h : Keyed r) : OthersEnd r key time := by
  intro k e he hk hkey
  exact absurd (by rw [h k e he, hkey]) hk

theorem Keyed.call {s : Kept} (h : Keyed s.1) (c : Call) : Keyed (call c s).2.1 := by
  intro k f hf
  rcases entry_of_call hf with hold | ⟨-, -, -, -, -, hk⟩ |
    ⟨q, notAfter, outcome, e, -, hk, he, rfl⟩
  · exact h k f hold
  · exact hk
  · exact hk.trans (h q.hex e he)

/-- The entry of the key still begins when it did at first. -/
def SameBeginning (r : Roots) (key : Principal) (s : Roots) : Prop :=
  ∀ f : RootEntry, s.roots[key.hex]? = some f →
    ∃ e : RootEntry, r.roots[key.hex]? = some e ∧ f.notBefore = e.notBefore

theorem SameBeginning.call {s : Kept} {c : Call} (h : SameBeginning r key s.1)
    (hadd : ∀ label notBefore notAfter outcome, c ≠ .add key label notBefore notAfter outcome) :
    SameBeginning r key (call c s).2.1 := by
  intro f hf
  rcases entry_of_call hf with hold | ⟨label, notBefore, notAfter, outcome, rfl, hk⟩ |
    ⟨q, notAfter, outcome, e, rfl, hk, he, rfl⟩
  · exact h f hold
  · rw [← Principal.hex_injective hk] at hadd
    exact absurd rfl (hadd label notBefore notAfter outcome)
  · rw [← hk] at he
    exact h e he

/-- A retirement of the key, while it is there, sets an end that is no later than `time` and the
end of the window in `r`, or comes before that window begins. -/
def Earlier (r : Roots) (key : Principal) (time : UInt64) : Call → Kept → Prop
  | .retire q notAfter _, s =>
      q = key → key.hex ∈ s.1.roots → ∀ e : RootEntry, r.roots[key.hex]? = some e →
        lastMoment notAfter < e.notBefore ∨
          (lastMoment notAfter ≤ time ∧ lastMoment notAfter ≤ lastMoment e.notAfter)
  | _, _ => True

theorem fits_iff_earlier (h : Keyed r) {s : Kept} (hs : Keyed s.1)
    (hsame : SameBeginning r key s.1) (c : Call) :
    Fits r key time c s ↔ Earlier r key time c s := by
  cases c with
  | retire q notAfter outcome =>
      simp only [Fits, Earlier]
      constructor
      · rintro hfits rfl hmem e he
        obtain ⟨f, hf⟩ := OrdMap.mem_iff_exists.mp hmem
        obtain ⟨e', he', hbegin⟩ := hsame f hf
        rw [he] at he'
        cases he'
        have hkey := Principal.hex_injective (hs _ f hf)
        exact (shortens_iff_of_keyed h he hbegin notAfter).mp (hfits f hf hkey.symm)
      · intro hearlier f hf hkey
        have hq : q = key := (Principal.hex_injective (hs _ f hf)).trans hkey
        subst hq
        obtain ⟨e, he, hbegin⟩ := hsame f hf
        exact (shortens_iff_of_keyed h he hbegin notAfter).mpr
          (hearlier rfl (OrdMap.mem_iff_exists.mpr ⟨f, hf⟩) e he)
  | add q label notBefore notAfter outcome => rfl
  | remove q outcome => rfl

/-! ## The run after a retirement -/

/-- A retirement and the calls after it, none of which adds the key, shrink trust in every state
reached exactly when every retirement among them fits. In a set that is keyed by hex these are
the retirements to an earlier end. -/
theorem retire_shrinks_iff {outcome : Except String Unit} {disk : Disk} {s : Kept}
    (hretired : r.retire key time outcome disk = (.ok true, s)) {later : List Call}
    (hothers : ∀ c ∈ later, ∀ label notBefore notAfter outcome,
      c ≠ .add key label notBefore notAfter outcome) :
    ((∀ before, before <+: later → Shrinks r key time (Machine.after call before s).1) ↔
      OthersEnd r key time ∧
        Machine.Along call (Fits r key time) (.retire key time outcome :: later) (r, disk)) ∧
    (Keyed r →
      ((∀ before, before <+: later → Shrinks r key time (Machine.after call before s).1) ↔
        Machine.Along call (Earlier r key time) (.retire key time outcome :: later)
          (r, disk))) := by
  obtain ⟨e, he⟩ := exists_of_retire hretired
  have hs : (call (.retire key time outcome) (r, disk)).2 = s := by rw [call, hretired]
  have hfirst : Shrinks r key time s.1 ↔
      OthersEnd r key time ∧ Fits r key time (.retire key time outcome) (r, disk) := by
    rw [← shrinks_retire_iff he, hretired]
  have hgeneral : (∀ before, before <+: later →
      Shrinks r key time (Machine.after call before s).1) ↔
      OthersEnd r key time ∧
        Machine.Along call (Fits r key time) (.retire key time outcome :: later) (r, disk) := by
    rw [Machine.Along, ← and_assoc, ← hfirst, hs]
    exact Machine.holds_along_iff (I := fun t : Kept => Shrinks r key time t.1)
      fun c hc u hu => shrinks_call_iff hu (hothers c hc)
  refine ⟨hgeneral, ?_⟩
  intro hkeyed
  rw [hgeneral, and_iff_right (othersEnd_of_keyed hkeyed)]
  refine Machine.along_congr (J := fun t : Kept => Keyed t.1 ∧ SameBeginning r key t.1) ?_ ?_
    ⟨hkeyed, fun f hf => ⟨f, hf, rfl⟩⟩
  · rintro c hc t ⟨ht, hsame⟩
    refine ⟨ht.call c, hsame.call ?_⟩
    rcases List.mem_cons.mp hc with rfl | hc
    · intro label notBefore notAfter outcome' heq
      cases heq
    · exact hothers c hc
  · rintro c - t ⟨ht, hsame⟩
    exact fits_iff_earlier hkeyed ht hsame c

/-- A root that is accepted up to the time 1000. -/
def expiring : Roots := (inMemory.add ⟨.filled 1⟩ none 0 1000 (.ok ()) none).2.1

theorem roots_expiring : expiring.roots =
    (∅ : OrdMap String RootEntry).insert (Principal.hex ⟨.filled 1⟩) ⟨⟨.filled 1⟩, none, 0, 1000⟩ :=
  rfl

theorem keyed_expiring : Keyed expiring :=
  Keyed.call (s := (inMemory, none)) (by simp [Keyed, inMemory])
    (.add ⟨.filled 1⟩ none 0 1000 (.ok ()))

/-- Retired earlier twice, before another root is added. -/
theorem retire_shrinks_expiring :
    ∃ s, expiring.retire ⟨.filled 1⟩ 500 (.ok ()) none = (.ok true, s) ∧
      ∀ before, before <+: [.retire ⟨.filled 1⟩ 400 (.ok ()), .add ⟨.filled 2⟩ none 0 0 (.ok ())] →
        Shrinks expiring ⟨.filled 1⟩ 500 (Machine.after call before s).1 := by
  obtain ⟨s, hs⟩ : ∃ s, expiring.retire ⟨.filled 1⟩ 500 (.ok ()) none = (.ok true, s) := ⟨_, rfl⟩
  refine ⟨s, hs, ((retire_shrinks_iff hs ?_).2 keyed_expiring).mpr ?_⟩
  · intro c hc label notBefore notAfter outcome
    have hne : NodeId.filled 2 ≠ NodeId.filled 1 := by decide
    rcases List.mem_pair.mp hc with rfl | rfl
    · simp
    · simp [hne]
  · have hend : ∀ e, expiring.roots[Principal.hex ⟨.filled 1⟩]? = some e → e.notAfter = 1000 := by
      intro e he
      rw [roots_expiring, OrdMap.get_insert, if_pos rfl] at he
      cases he
      rfl
    refine ⟨?_, ?_, trivial, trivial⟩
    · rintro - - e he
      exact .inr ⟨by decide, by rw [hend e he]; decide⟩
    · rintro - - e he
      exact .inr ⟨by decide, by rw [hend e he]; decide⟩

/-- Retired at the time 0, the root is accepted again after its window. -/
theorem retire_extends_expiring : ¬ ∀ (r : Roots) (key : Principal) (time : UInt64)
    (outcome : Except String Unit) (disk : Disk) (s : Kept),
    r.retire key time outcome disk = (.ok true, s) → Shrinks r key time s.1 := by
  intro hclaim
  have hshrinks := hclaim expiring ⟨.filled 1⟩ 0 (.ok ()) none _ rfl
  have hafter := hshrinks.within 2000 (by decide +kernel)
  have hbefore : expiring.isAccepted (.filled 1) 2000 = false := by decide +kernel
  rw [hbefore] at hafter
  cases hafter

end Roots

end CeIam
