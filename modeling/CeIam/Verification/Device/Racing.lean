import CeIam.Verification.Device.Encoding
import CeIam.Verification.Device.LifeCycle
import Mathlib.Logic.Function.Basic

/-! # Concurrent calls and the file

A call changes the map under the lock, takes the map's text under the lock again, writes the
text to the temp file that all calls share, and renames that file into place. The file has
caught up with the map when the call that wrote last took its text after the last change. -/

namespace CeIam.DeviceStore

/-! ## Orders of steps -/

/-- The step a call takes; it settles when it changes nothing under the lock. -/
inductive Move where
  | settle
  | mutate
  | snapshot
  | write
  | rename
deriving DecidableEq

variable {ι : Type}

/-- The call that wrote the temp file last. -/
def LastWriter (ls : List (ι × Move)) (i : ι) : Prop :=
  (ls.filter fun l => l.2 = .write).getLast? = some (i, .write)

/-- No call changes the map after the last writer has taken its text. -/
def WritesCurrent (ls : List (ι × Move)) : Prop :=
  ∀ i before after, LastWriter ls i → ls = before ++ (i, .snapshot) :: after →
    ∀ j, (j, .mutate) ∉ after

/-- The call has taken the text, of the map as it is unless the map has changed since. -/
def Taken (ls : List (ι × Move)) (m : Devices) (i : ι) (text : String) : Prop :=
  ∃ before after, ls = before ++ (i, .snapshot) :: after ∧
    ((∀ j, (j, .mutate) ∉ after) → text = (devicesJson m).pretty)

variable {ls : List (ι × Move)} {i j : ι} {m n : Devices} {text : String}

theorem lastWriter_write (h : LastWriter (ls ++ [(j, .write)]) i) : j = i := by
  simp only [LastWriter, List.filter_append, List.filter_singleton, decide_true, cond_true,
    List.getLast?_concat, Option.some.injEq, Prod.mk.injEq, and_true] at h
  exact h

theorem lastWriter_other {v : Move} (hv : v ≠ .write) (h : LastWriter (ls ++ [(j, v)]) i) :
    LastWriter ls i := by
  simpa [LastWriter, List.filter_append, List.filter_singleton, hv] using h

/-- Where there is a write, some call wrote last. -/
theorem exists_lastWriter (h : (i, .write) ∈ ls) : ∃ j, LastWriter ls j := by
  have hmem : (i, Move.write) ∈ ls.filter fun l => l.2 = .write := by simp [h]
  cases hlast : (ls.filter fun l => l.2 = .write).getLast? with
  | none =>
      rw [List.getLast?_eq_none_iff.mp hlast] at hmem
      cases hmem
  | some l =>
      have hwrite := (List.mem_filter.mp (List.mem_of_getLast? hlast)).2
      have hl : l = (l.1, .write) := Prod.ext rfl (of_decide_eq_true hwrite)
      exact ⟨l.1, by rw [LastWriter, hlast, ← hl]⟩

/-- Texts are current when all changes come before the first of them. -/
theorem writesCurrent_append (ms ks : List (ι × Move)) (hms : ∀ l ∈ ms, l.2 ≠ .snapshot)
    (hks : ∀ l ∈ ks, l.2 ≠ .mutate) : WritesCurrent (ms ++ ks) := by
  intro i before after _ hls j hj
  suffices h : (j, .mutate) ∈ ks from hks _ h rfl
  rcases List.append_eq_append_iff.mp hls with ⟨front, -, hks'⟩ | ⟨back, hms', hafter⟩
  · rw [hks']
    exact List.mem_append_right _ (List.mem_cons_of_mem _ hj)
  · cases back with
    | nil =>
        rw [List.nil_append] at hafter
        rw [← hafter]
        exact List.mem_cons_of_mem _ hj
    | cons l back =>
        rw [List.cons_append, List.cons.injEq] at hafter
        exact absurd (congrArg Prod.snd hafter.1).symm
          (hms l (by rw [hms']; exact List.mem_append_right _ List.mem_cons_self))

theorem Taken.snoc (h : Taken ls m i text) {l : ι × Move} (hl : l.2 = .mutate ∨ n = m) :
    Taken (ls ++ [l]) n i text := by
  obtain ⟨before, after, hls, htext⟩ := h
  refine ⟨before, after ++ [l], by simp [hls], ?_⟩
  intro hstill
  cases hl with
  | inl hmutate =>
      have hmem : (l.1, Move.mutate) ∈ after ++ [l] := by simp [← hmutate]
      exact absurd hmem (hstill l.1)
  | inr hsame =>
      rw [hsame]
      exact htext fun j hj => hstill j (List.mem_append_left _ hj)

/-! ## Steps -/

/-- How far a call has come. -/
inductive Phase where
  | idle
  | mutated
  | holding (text : String)
  | written
  | returned
deriving DecidableEq

structure Race (ι : Type) where
  inner : Devices
  file : Disk
  temp : Disk
  phase : ι → Phase

/-- No call has begun. -/
def Race.Fresh (s : Race ι) : Prop := ∀ i, s.phase i = .idle

/-- No call is under way. -/
def Race.Quiet (s : Race ι) : Prop := ∀ i, s.phase i = .idle ∨ s.phase i = .returned

/-- The file decodes to the map. -/
def Race.InSync (parse : String → Except String Devices) (path : String) (s : Race ι) : Prop :=
  loadDevices parse path true s.file = .ok s.inner

variable [DecidableEq ι]

def Race.put (s : Race ι) (i : ι) (p : Phase) : Race ι :=
  { s with phase := Function.update s.phase i p }

/-- One step of one call; all steps succeed. -/
inductive Advance (op : ι → Op) (now : ι → UInt64) : Race ι → ι × Move → Race ι → Prop where
  | settle (s : Race ι) (i : ι) (r : Reply) (hphase : s.phase i = .idle)
      (hlocked : (op i).locked (now i) s.inner = .unchanged r) :
      Advance op now s (i, .settle) (s.put i .returned)
  | mutate (s : Race ι) (i : ι) (r : Reply) (m : Devices) (hphase : s.phase i = .idle)
      (hlocked : (op i).locked (now i) s.inner = .changed r m) :
      Advance op now s (i, .mutate) ({ s with inner := m }.put i .mutated)
  | snapshot (s : Race ι) (i : ι) (hphase : s.phase i = .mutated) :
      Advance op now s (i, .snapshot) (s.put i (.holding (devicesJson s.inner).pretty))
  | write (s : Race ι) (i : ι) (text : String) (hphase : s.phase i = .holding text) :
      Advance op now s (i, .write) ({ s with temp := some text }.put i .written)
  | rename (s : Race ι) (i : ι) (text : String) (hphase : s.phase i = .written)
      (htemp : s.temp = some text) :
      Advance op now s (i, .rename) ({ s with file := some text, temp := none }.put i .returned)

variable {op : ι → Op} {now : ι → UInt64} {s s₀ t : Race ι} {l : ι × Move}

@[simp] theorem Race.put_phase (s : Race ι) (i j : ι) (p : Phase) :
    (s.put i p).phase j = if j = i then p else s.phase j :=
  Function.update_apply ..

@[simp] theorem Race.put_file (s : Race ι) (i : ι) (p : Phase) : (s.put i p).file = s.file :=
  rfl

/-- A call that is not disturbed comes to what the call does on its own. -/
theorem advance_alone (path : String) (s : Race ι) (hphase : s.phase i = .idle) :
    ∃ ls t, Run (Advance op now) s ls t ∧ t.phase i = .returned ∧
      (exec (now i) (.ok ()) (⟨path, s.inner⟩, s.file) (op i)).2 = (⟨path, t.inner⟩, t.file) := by
  rw [exec_eq, commit]
  cases hlocked : (op i).locked (now i) s.inner with
  | unchanged r =>
      exact ⟨_, _, Run.single (.settle s i r hphase hlocked), by simp, rfl⟩
  | changed r m =>
      have hmutate := Run.single (Advance.mutate s i r m hphase hlocked)
      have hsnapshot := hmutate.snoc (.snapshot _ i (by simp))
      have hwrite := hsnapshot.snoc (.write _ i _ (by simp; rfl))
      have hrename := hwrite.snoc (.rename _ i _ (by simp) rfl)
      exact ⟨_, _, hrename, by simp, rfl⟩

/-! ## What the steps keep -/

/-- The text waits in the temp file for its writer, or has been renamed. -/
def Race.Wrote (s : Race ι) (i : ι) (text : String) : Prop :=
  s.temp = some text ∧ s.phase i = .written ∨ s.temp = none ∧ s.file = some text

omit [DecidableEq ι] in
theorem Race.Wrote.congr (h : s.Wrote i text) (htemp : t.temp = s.temp) (hfile : t.file = s.file)
    (hphase : s.phase i = .written → t.phase i = .written) : t.Wrote i text := by
  rw [Race.Wrote, htemp, hfile]
  cases h with
  | inl hwaits => exact .inl ⟨hwaits.1, hphase hwaits.2⟩
  | inr hrenamed => exact .inr hrenamed

/-- A call that has not written leaves what was written last. -/
theorem Race.Wrote.put (h : s.Wrote i text) (hj : s.phase j ≠ .written) (p : Phase) :
    (s.put j p).Wrote i text := by
  refine h.congr rfl rfl ?_
  intro hwritten
  have hne : i ≠ j := by
    rintro rfl
    exact hj hwritten
  rw [put_phase, if_neg hne, hwritten]

/-- Texts are taken of the map, and the last one that was written waits or has been renamed. -/
structure Texts (ls : List (ι × Move)) (s : Race ι) : Prop where
  held : ∀ i text, s.phase i = .holding text → Taken ls s.inner i text
  last : ∀ i, LastWriter ls i → ∃ text, Taken ls s.inner i text ∧ s.Wrote i text

/-- The texts other calls hold stay theirs. -/
theorem Texts.held_put (h : Texts ls s) {n : Devices} {p : Phase}
    (hp : ∀ text, p ≠ .holding text) (hl : l.2 = .mutate ∨ n = s.inner) (j : ι) (text : String)
    (hj : (s.put i p).phase j = .holding text) : Taken (ls ++ [l]) n j text := by
  rw [Race.put_phase] at hj
  split_ifs at hj
  · exact absurd hj (hp text)
  · exact (h.held j text hj).snoc hl

theorem Texts.step (h : Texts ls s) (hstep : Advance op now s l t) : Texts (ls ++ [l]) t := by
  cases hstep with
  | settle i r hphase hlocked =>
      refine ⟨h.held_put (by simp) (.inr rfl), ?_⟩
      intro j hj
      obtain ⟨text, htaken, hwrote⟩ := h.last j (lastWriter_other (by decide) hj)
      exact ⟨text, htaken.snoc (.inr rfl), hwrote.put (by simp [hphase]) _⟩
  | mutate i r m hphase hlocked =>
      refine ⟨h.held_put (by simp) (.inl rfl), ?_⟩
      intro j hj
      obtain ⟨text, htaken, hwrote⟩ := h.last j (lastWriter_other (by decide) hj)
      exact ⟨text, htaken.snoc (.inl rfl), hwrote.put (by simp [hphase]) _⟩
  | snapshot i hphase =>
      constructor
      · intro j text hj
        rw [Race.put_phase] at hj
        split_ifs at hj with heq
        · cases hj
          exact ⟨ls, [], by rw [heq], fun _ => rfl⟩
        · exact (h.held j text hj).snoc (.inr rfl)
      · intro j hj
        obtain ⟨text, htaken, hwrote⟩ := h.last j (lastWriter_other (by decide) hj)
        exact ⟨text, htaken.snoc (.inr rfl), hwrote.put (by simp [hphase]) _⟩
  | write i text hphase =>
      refine ⟨h.held_put (by simp) (.inr rfl), ?_⟩
      intro j hj
      rw [← lastWriter_write hj]
      exact ⟨text, (h.held i text hphase).snoc (.inr rfl), .inl ⟨rfl, by simp⟩⟩
  | rename i text hphase htemp =>
      refine ⟨h.held_put (by simp) (.inr rfl), ?_⟩
      intro j hj
      obtain ⟨text', htaken, hwrote⟩ := h.last j (lastWriter_other (by decide) hj)
      have hsame : text = text' := by
        simpa [Race.Wrote, htemp] using hwrote.imp And.left And.left
      exact ⟨text', htaken.snoc (.inr rfl), .inr ⟨rfl, congrArg some hsame⟩⟩

/-- Without a write the file stays, and without a change the map does; a call that has made
its change goes on to write. -/
structure Progress (s₀ : Race ι) (ls : List (ι × Move)) (s : Race ι) : Prop where
  file : (∀ i, (i, .write) ∉ ls) → s.file = s₀.file
  inner : (∀ i, (i, .mutate) ∉ ls) → s.inner = s₀.inner
  written : ∀ i, s.phase i = .written → (i, .write) ∈ ls
  pending : ∀ i, (i, .mutate) ∈ ls → (i, .write) ∉ ls → s.phase i ≠ .idle ∧ s.phase i ≠ .returned

theorem Progress.written_put (h : Progress s₀ ls s) {p : Phase}
    (hp : p = .written → (i, .write) ∈ ls ++ [l]) (j : ι) (hj : (s.put i p).phase j = .written) :
    (j, .write) ∈ ls ++ [l] := by
  rw [Race.put_phase] at hj
  split_ifs at hj with heq
  · rw [heq]
    exact hp hj
  · exact List.mem_append_left _ (h.written j hj)

theorem Progress.pending_put (h : Progress s₀ ls s) {p : Phase} {v : Move}
    (hi : (i, .mutate) ∈ ls ++ [(i, v)] → (i, .write) ∉ ls ++ [(i, v)] →
      p ≠ .idle ∧ p ≠ .returned) (j : ι) (hj : (j, .mutate) ∈ ls ++ [(i, v)])
    (hwrite : (j, .write) ∉ ls ++ [(i, v)]) :
    (s.put i p).phase j ≠ .idle ∧ (s.put i p).phase j ≠ .returned := by
  rw [Race.put_phase]
  split_ifs with heq
  · subst heq
    exact hi hj hwrite
  · have hmem : (j, .mutate) ∈ ls := by simpa [heq] using hj
    exact h.pending j hmem fun hw => hwrite (List.mem_append_left _ hw)

theorem Progress.step (h : Progress s₀ ls s) (hstep : Advance op now s l t) :
    Progress s₀ (ls ++ [l]) t := by
  have hfile : (∀ i, (i, .write) ∉ ls ++ [l]) → s.file = s₀.file := fun hnone =>
    h.file fun i hi => hnone i (List.mem_append_left _ hi)
  have hinner : (∀ i, (i, .mutate) ∉ ls ++ [l]) → s.inner = s₀.inner := fun hnone =>
    h.inner fun i hi => hnone i (List.mem_append_left _ hi)
  cases hstep with
  | settle i r hphase hlocked =>
      refine ⟨hfile, hinner, h.written_put (by simp), h.pending_put ?_⟩
      intro hi hwrite
      have hmutated : (i, .mutate) ∈ ls := by simpa using hi
      exact absurd hphase (h.pending i hmutated fun hw => hwrite (List.mem_append_left _ hw)).1
  | mutate i r m hphase hlocked =>
      refine ⟨hfile, fun hnone => absurd (by simp) (hnone i), h.written_put (by simp), ?_⟩
      exact h.pending_put (by simp)
  | snapshot i hphase =>
      exact ⟨hfile, hinner, h.written_put (by simp), h.pending_put (by simp)⟩
  | write i text hphase =>
      exact ⟨hfile, hinner, h.written_put (by simp), h.pending_put (by simp)⟩
  | rename i text hphase htemp =>
      have hwritten : (i, .write) ∈ ls ++ [(i, .rename)] :=
        List.mem_append_left _ (h.written i hphase)
      refine ⟨fun hnone => absurd hwritten (hnone i), hinner, h.written_put (by simp), ?_⟩
      exact h.pending_put fun _ hwrite => absurd hwritten hwrite

/-! ## The file and the map -/

/-- When all calls have returned and the last writer's text was current, the file decodes to
the map. -/
theorem in_sync_of_writesCurrent {parse : String → Except String Devices} {path : String}
    (reads : ∀ m, parse (devicesJson m).pretty = .ok m) (hfresh : s.Fresh)
    (hsync : s.InSync parse path) (h : Run (Advance op now) s ls t) (hquiet : t.Quiet)
    (hcurrent : WritesCurrent ls) : t.InSync parse path := by
  have hprogress : Progress s ls t := h.history (fun _ _ _ _ => Progress.step)
    ⟨fun _ => rfl, fun _ => rfl, by simp [hfresh _], by simp⟩
  have htexts : Texts ls t := h.history (fun _ _ _ _ => Texts.step)
    ⟨by simp [hfresh _], by simp [LastWriter]⟩
  by_cases hwrite : ∃ i, (i, .write) ∈ ls
  · obtain ⟨i, hi⟩ := hwrite
    obtain ⟨j, hj⟩ := exists_lastWriter hi
    obtain ⟨text, ⟨before, after, hls, htext⟩, hwrote⟩ := htexts.last j hj
    have hfile : t.file = some text := by
      cases hwrote with
      | inl hwaits =>
          have hbusy : ¬ (t.phase j = .idle ∨ t.phase j = .returned) := by simp [hwaits.2]
          exact absurd (hquiet j) hbusy
      | inr hrenamed => exact hrenamed.2
    rw [Race.InSync, hfile, htext (hcurrent j before after hj hls)]
    exact loadDevices_pretty path (reads t.inner)
  · -- Nobody wrote, so nobody has changed the map and come back.
    have hnone : ∀ i, (i, .write) ∉ ls := fun i hi => hwrite ⟨i, hi⟩
    have hstill : ∀ i, (i, .mutate) ∉ ls := by
      intro i hi
      have hpending := hprogress.pending i hi (hnone i)
      cases hquiet i with
      | inl hidle => exact hpending.1 hidle
      | inr hreturned => exact hpending.2 hreturned
    rw [Race.InSync, hprogress.file hnone, hprogress.inner hstill]
    exact hsync

/-! ## Two calls -/

/-- A node identity is bound to one administrator while another one is revoked. -/
def bindAndRevoke : Bool → Op
  | false => .setNodeId "desk" "node"
  | true => .revoke "lost"

/-- Two administrators, in memory and in the file. -/
def twoAdminsKept : Race Bool :=
  ⟨twoAdmins.1.inner, some (devicesJson twoAdmins.1.inner).pretty, none, fun _ => .idle⟩

theorem twoAdminsKept_inSync : twoAdminsKept.InSync readDevices "data/devices.json" :=
  loadDevices_pretty _ (readDevices_pretty _)

theorem in_sync_of_writesCurrent_two :
    ∃ ls t, Run (Advance bindAndRevoke fun _ => 0) twoAdminsKept ls t ∧ t.Quiet ∧
      WritesCurrent ls ∧ t.InSync readDevices "data/devices.json" := by
  let ls : List (Bool × Move) := [(false, .mutate), (true, .mutate), (false, .snapshot),
    (true, .snapshot), (true, .write), (true, .rename), (false, .write), (false, .rename)]
  obtain ⟨t, hrun, hquiet⟩ :
      ∃ t, Run (Advance bindAndRevoke fun _ => 0) twoAdminsKept ls t ∧ t.Quiet := by
    refine ⟨_, ((((((((Run.nil _).snoc (.mutate _ false _ _ rfl rfl)).snoc
      (.mutate _ true _ _ rfl rfl)).snoc (.snapshot _ false rfl)).snoc
      (.snapshot _ true rfl)).snoc (.write _ true _ rfl)).snoc (.rename _ true _ rfl rfl)).snoc
      (.write _ false _ rfl)).snoc (.rename _ false _ rfl rfl), ?_⟩
    intro i
    cases i <;> exact .inr rfl
  have hcurrent : WritesCurrent ls :=
    writesCurrent_append (ls.take 2) (ls.drop 2) (by decide) (by decide)
  exact ⟨ls, t, hrun, hquiet, hcurrent,
    in_sync_of_writesCurrent readDevices_pretty (fun _ => rfl) twoAdminsKept_inSync hrun hquiet
      hcurrent⟩

/-- The text taken before the revocation is renamed into place after it: the file has the
revoked device. -/
theorem stale_text_renamed_last :
    ¬ ∀ (op : Bool → Op) (now : Bool → UInt64) (s t : Race Bool) (ls : List (Bool × Move)),
      s.Fresh → s.InSync readDevices "data/devices.json" → Run (Advance op now) s ls t →
      t.Quiet → t.InSync readDevices "data/devices.json" := by
  intro hclaim
  let bound := twoAdmins.1.inner.insert "desk" ⟨"key", roleAdmin, "env-seed", 0, "node"⟩
  obtain ⟨t, hrun, hquiet, hfile, hinner⟩ : ∃ t, Run (Advance bindAndRevoke fun _ => 0)
      twoAdminsKept [(false, .mutate), (false, .snapshot), (true, .mutate), (true, .snapshot),
        (true, .write), (true, .rename), (false, .write), (false, .rename)] t ∧ t.Quiet ∧
      t.file = some (devicesJson bound).pretty ∧ t.inner = bound.erase "lost" := by
    refine ⟨_, ((((((((Run.nil _).snoc (.mutate _ false _ _ rfl rfl)).snoc
      (.snapshot _ false rfl)).snoc (.mutate _ true _ _ rfl rfl)).snoc
      (.snapshot _ true rfl)).snoc (.write _ true _ rfl)).snoc (.rename _ true _ rfl rfl)).snoc
      (.write _ false _ rfl)).snoc (.rename _ false _ rfl rfl), ?_, rfl, rfl⟩
    intro i
    cases i <;> exact .inr rfl
  have hsync := hclaim _ _ _ _ _ (fun _ => rfl) twoAdminsKept_inSync hrun hquiet
  rw [Race.InSync, hfile, hinner, loadDevices_pretty _ (readDevices_pretty bound)] at hsync
  have hlost := congrArg (fun m => m["lost"]?) (Except.ok.inj hsync)
  simp [bound, twoAdmins] at hlost

end CeIam.DeviceStore
