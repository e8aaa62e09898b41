import CeIam.Library.Run
import Mathlib.Data.Set.Card
import Mathlib.Logic.Function.Basic

/-! # Increments in two steps

Several parties increment one number. Each reads it and later writes what it read plus one, so
increments are lost when a party writes although another has written since it read. -/

namespace CeIam.Increment

inductive Stage where
  | idle
  | holding (x : ℕ)
  | finished (x : ℕ)
  | stopped

structure State (ι : Type) where
  value : ℕ
  stage : ι → Stage

inductive Act where
  | read
  | write
  | other
deriving DecidableEq

structure Access (ι : Type) where
  who : ι
  act : Act

variable {ι : Type}

/-- The parties that have read since the last write, after one more access. -/
def next (parties : Set ι) (a : Access ι) : Set ι :=
  match a.act with
  | .read => insert a.who parties
  | .write => ∅
  | .other => parties

/-- The parties that have read since the last write. -/
def current (accesses : List (Access ι)) : Set ι := accesses.foldl next ∅

/-- Every party that writes has read since the last write. -/
def Undisturbed (accesses : List (Access ι)) : Prop :=
  ∀ before a after, accesses = before ++ a :: after → a.act = .write → a.who ∈ current before

/-- The parties that have finished. -/
def finishers (s : State ι) : Set ι := {i | ∃ x, s.stage i = .finished x}

/-- Two parties have finished with the same number. -/
def Repeats (s : State ι) : Prop :=
  ∃ i j x, i ≠ j ∧ s.stage i = .finished x ∧ s.stage j = .finished x

/-- Every increment counts, and no two give the same number. -/
structure Sound (n : ℕ) (s : State ι) : Prop where
  distinct : ∀ i j x, s.stage i = .finished x → s.stage j = .finished x → i = j
  counted : s.value = n + (finishers s).ncard

variable {accesses : List (Access ι)} {a : Access ι}

theorem current_snoc : current (accesses ++ [a]) = next (current accesses) a := by
  rw [current, List.foldl_append]
  rfl

theorem undisturbed_nil : Undisturbed ([] : List (Access ι)) := by
  intro before a after h
  simp at h

/-- One more access is undisturbed, or it is a write of a party that is not current. -/
theorem undisturbed_snoc :
    Undisturbed (accesses ++ [a]) ↔
      Undisturbed accesses ∧ (a.act = .write → a.who ∈ current accesses) := by
  constructor
  · intro h
    have hearlier : Undisturbed accesses := fun before b after hsplit =>
      h before b (after ++ [a]) (by rw [hsplit, List.append_assoc, List.cons_append])
    exact ⟨hearlier, h accesses a [] rfl⟩
  · rintro ⟨hearlier, hlast⟩ before b after hsplit
    cases after using List.reverseRecOn with
    | nil =>
        obtain ⟨rfl, hb⟩ := List.append_inj' hsplit rfl
        cases hb
        exact hlast
    | append_singleton after c =>
        rw [← List.cons_append, ← List.append_assoc] at hsplit
        exact hearlier before b after (List.append_inj' hsplit rfl).1

variable {n : ℕ} {s t : State ι} {parties parties' : Set ι}

/-- The numbers after `n` up to the value are those of the finished parties, one each, and what
a party holds is the value exactly when the party is current. -/
structure Counting (n : ℕ) (parties : Set ι) (s : State ι) : Prop where
  distinct : ∀ i j x, s.stage i = .finished x → s.stage j = .finished x → i = j
  finished_iff : ∀ x, (∃ i, s.stage i = .finished x) ↔ n < x ∧ x ≤ s.value
  holding : ∀ i x, s.stage i = .holding x → n ≤ x ∧ x ≤ s.value ∧ (i ∈ parties ↔ x = s.value)
  counted : s.value = n + (finishers s).ncard
  finite : (finishers s).Finite

theorem Counting.le_value (h : Counting n parties s) : n ≤ s.value := by
  rw [h.counted]
  exact Nat.le_add_right n _

theorem Counting.not_repeats (h : Counting n parties s) : ¬ Repeats s := by
  rintro ⟨i, j, x, hne, hi, hj⟩
  exact hne (h.distinct i j x hi hj)

variable [DecidableEq ι]

/-- One access. A party may stop at any time before it finishes. -/
inductive Step (s : State ι) : Access ι → State ι → Prop where
  | read (i : ι) (h : s.stage i = .idle) :
      Step s ⟨i, .read⟩ ⟨s.value, Function.update s.stage i (.holding s.value)⟩
  | fruitless (i : ι) (h : s.stage i = .idle) :
      Step s ⟨i, .read⟩ ⟨s.value, Function.update s.stage i .stopped⟩
  | write (i : ι) (x : ℕ) (h : s.stage i = .holding x) :
      Step s ⟨i, .write⟩ ⟨x + 1, Function.update s.stage i (.finished (x + 1))⟩
  | other (i : ι) : Step s ⟨i, .other⟩ s
  | stop (i : ι) (h : ∀ x, s.stage i ≠ .finished x) :
      Step s ⟨i, .other⟩ ⟨s.value, Function.update s.stage i .stopped⟩

/-- A party that has finished stays finished. -/
theorem Step.finished (h : Step s a t) {i : ι} {x : ℕ} (hi : s.stage i = .finished x) :
    t.stage i = .finished x := by
  have hother : ∀ {j : ι} {stage : Stage}, (∀ y, s.stage j ≠ .finished y) →
      Function.update s.stage j stage i = .finished x := by
    intro j stage hj
    have hne : i ≠ j := fun heq => hj x (heq ▸ hi)
    rw [Function.update_of_ne hne, hi]
  cases h with
  | read j h => exact hother (by simp [h])
  | fruitless j h => exact hother (by simp [h])
  | write j y h => exact hother (by simp [h])
  | other j => exact hi
  | stop j h => exact hother h

theorem finished_update {i : ι} {stage : Stage} (hi : ∀ x, s.stage i ≠ .finished x)
    (hstage : ∀ x, stage ≠ .finished x) (j : ι) (x : ℕ) :
    Function.update s.stage i stage j = .finished x ↔ s.stage j = .finished x := by
  by_cases hj : j = i
  · subst hj
    rw [Function.update_self]
    exact iff_of_false (hstage x) (hi x)
  · rw [Function.update_of_ne hj]

/-- What an access that finishes nothing keeps. -/
theorem Counting.update (h : Counting n parties s) {i : ι} {stage : Stage}
    (hi : ∀ x, s.stage i ≠ .finished x) (hstage : ∀ x, stage ≠ .finished x)
    (hholding : ∀ x, stage = .holding x → x = s.value ∧ i ∈ parties')
    (hparties : ∀ j, j ≠ i → (j ∈ parties' ↔ j ∈ parties)) :
    Counting n parties' ⟨s.value, Function.update s.stage i stage⟩ := by
  have hsame := finished_update hi hstage
  have hfinishers : finishers ⟨s.value, Function.update s.stage i stage⟩ = finishers s := by
    ext j
    simp [finishers, hsame]
  refine ⟨?_, ?_, ?_, ?_, ?_⟩
  · intro j k x hj hk
    exact h.distinct j k x ((hsame j x).mp hj) ((hsame k x).mp hk)
  · intro x
    simp only [hsame]
    exact h.finished_iff x
  · intro j x hj
    by_cases hji : j = i
    · subst hji
      obtain ⟨rfl, hmem⟩ := hholding x (by simpa using hj)
      exact ⟨h.le_value, le_rfl, iff_of_true hmem rfl⟩
    · rw [hparties j hji]
      exact h.holding j x (by simpa [hji] using hj)
  · rw [hfinishers]
    exact h.counted
  · rw [hfinishers]
    exact h.finite

/-- A write by a current party gives the next number. -/
theorem Counting.write (h : Counting n parties s) {i : ι} (hi : s.stage i = .holding s.value) :
    Counting n ∅ ⟨s.value + 1, Function.update s.stage i (.finished (s.value + 1))⟩ := by
  have hnew : i ∉ finishers s := by
    rintro ⟨x, hx⟩
    rw [hi] at hx
    cases hx
  have hfinishers : finishers ⟨s.value + 1, Function.update s.stage i (.finished (s.value + 1))⟩ =
      insert i (finishers s) := by
    ext j
    by_cases hj : j = i
    · simp [finishers, hj]
    · simp [finishers, hj]
  have hcases : ∀ j x, Function.update s.stage i (.finished (s.value + 1)) j = .finished x ↔
      j = i ∧ x = s.value + 1 ∨ s.stage j = .finished x := by
    intro j x
    by_cases hj : j = i
    · simp [hj, hi, eq_comm]
    · simp [hj]
  have hlow := h.le_value
  have hle : ∀ j x, s.stage j = .finished x → x ≤ s.value := fun j x hj =>
    ((h.finished_iff x).mp ⟨j, hj⟩).2
  refine ⟨?_, ?_, ?_, ?_, ?_⟩
  · intro j k x hj hk
    rcases (hcases j x).mp hj with ⟨rfl, rfl⟩ | hj'
    · rcases (hcases k _).mp hk with ⟨rfl, -⟩ | hk'
      · rfl
      · exact absurd (hle k _ hk') (by omega)
    · rcases (hcases k x).mp hk with ⟨rfl, rfl⟩ | hk'
      · exact absurd (hle j _ hj') (by omega)
      · exact h.distinct j k x hj' hk'
  · intro x
    simp only [hcases, exists_or, exists_and_right, exists_eq, true_and, h.finished_iff]
    omega
  · intro j x hj
    have hne : j ≠ i := by
      rintro rfl
      simp at hj
    obtain ⟨hlow, hhigh, -⟩ := h.holding j x (by simpa [hne] using hj)
    refine ⟨hlow, Nat.le_succ_of_le hhigh, iff_of_false (Set.notMem_empty j) ?_⟩
    exact (Nat.lt_succ_of_le hhigh).ne
  · rw [hfinishers, Set.ncard_insert_of_notMem hnew h.finite, ← Nat.add_assoc, ← h.counted]
  · rw [hfinishers]
    exact h.finite.insert i

/-- What holds while every write is by a current party. -/
theorem Counting.step (h : Counting n parties s) (hstep : Step s a t)
    (ha : a.act = .write → a.who ∈ parties) : Counting n (next parties a) t := by
  cases hstep with
  | read i hi =>
      refine h.update (by simp [hi]) (by simp) ?_ fun j hj =>
        Set.mem_insert_iff.trans (or_iff_right hj)
      intro x hx
      cases hx
      exact ⟨rfl, Set.mem_insert i parties⟩
  | fruitless i hi =>
      exact h.update (by simp [hi]) (by simp) (by simp) fun j hj =>
        Set.mem_insert_iff.trans (or_iff_right hj)
  | write i x hi =>
      obtain ⟨-, -, hcurrent⟩ := h.holding i x hi
      cases hcurrent.mp (ha rfl)
      exact h.write hi
  | other i => exact h
  | stop i hi => exact h.update hi (by simp) (by simp) fun j _ => Iff.rfl

/-- A write by a party that is not current repeats a number. -/
theorem Counting.repeats (h : Counting n parties s) (hstep : Step s a t)
    (ha : ¬ (a.act = .write → a.who ∈ parties)) : Repeats t := by
  cases hstep with
  | write i x hi =>
      obtain ⟨hlow, hhigh, hcurrent⟩ := h.holding i x hi
      have hne : x ≠ s.value := fun hx => ha fun _ => hcurrent.mpr hx
      obtain ⟨j, hj⟩ := (h.finished_iff (x + 1)).mpr ⟨by omega, by omega⟩
      have hji : j ≠ i := by
        rintro rfl
        rw [hi] at hj
        cases hj
      exact ⟨j, i, x + 1, hji, by simpa [hji] using hj, by simp⟩
  | read i hi => exact absurd (fun hact => nomatch hact) ha
  | fruitless i hi => exact absurd (fun hact => nomatch hact) ha
  | other i => exact absurd (fun hact => nomatch hact) ha
  | stop i hi => exact absurd (fun hact => nomatch hact) ha

theorem Repeats.step (h : Repeats s) (hstep : Step s a t) : Repeats t := by
  obtain ⟨i, j, x, hne, hi, hj⟩ := h
  exact ⟨i, j, x, hne, hstep.finished hi, hstep.finished hj⟩

/-- Along a run, either all writes are by current parties or a number is repeated. -/
theorem counting_or_repeats (h : Run Step ⟨n, fun _ => .idle⟩ accesses s) :
    Undisturbed accesses ∧ Counting n (current accesses) s ∨
      ¬ Undisturbed accesses ∧ Repeats s := by
  refine h.history (I := fun accesses s => Undisturbed accesses ∧ Counting n (current accesses) s ∨
    ¬ Undisturbed accesses ∧ Repeats s) ?_ (.inl ⟨undisturbed_nil, ?_⟩)
  · intro accesses s a t hs hstep
    rw [undisturbed_snoc, current_snoc]
    rcases hs with ⟨hundisturbed, hcounting⟩ | ⟨hdisturbed, hrepeats⟩
    · by_cases ha : a.act = .write → a.who ∈ current accesses
      · exact .inl ⟨⟨hundisturbed, ha⟩, hcounting.step hstep ha⟩
      · exact .inr ⟨fun hall => ha hall.2, hcounting.repeats hstep ha⟩
    · exact .inr ⟨fun hall => hdisturbed hall.1, hrepeats.step hstep⟩
  · have hnone : finishers (⟨n, fun _ => .idle⟩ : State ι) = ∅ := by simp [finishers]
    refine ⟨by simp, ?_, by simp, by simp [hnone], by simp [hnone]⟩
    intro x
    refine iff_of_false (fun hfinished => ?_) (by simp)
    obtain ⟨i, hi⟩ := hfinished
    cases hi

/-- A number is repeated exactly when a party writes that has not read since the last write. -/
theorem repeats_iff (h : Run Step ⟨n, fun _ => .idle⟩ accesses s) :
    Repeats s ↔ ¬ Undisturbed accesses := by
  rcases counting_or_repeats h with ⟨hundisturbed, hcounting⟩ | ⟨hdisturbed, hrepeats⟩
  · exact iff_of_false hcounting.not_repeats (not_not_intro hundisturbed)
  · exact iff_of_true hrepeats hdisturbed

/-- No increment is lost exactly when every party that writes has read since the last write. -/
theorem sound_iff (h : Run Step ⟨n, fun _ => .idle⟩ accesses s) :
    Sound n s ↔ Undisturbed accesses := by
  rcases counting_or_repeats h with ⟨hundisturbed, hcounting⟩ | ⟨hdisturbed, hrepeats⟩
  · exact iff_of_true ⟨hcounting.distinct, hcounting.counted⟩ hundisturbed
  · refine iff_of_false (fun hsound => ?_) hdisturbed
    obtain ⟨i, j, x, hne, hi, hj⟩ := hrepeats
    exact hne (hsound.distinct i j x hi hj)

end CeIam.Increment
