import CeIam.Library.Machine
import Mathlib.Data.List.Induction
import Mathlib.Data.List.Nodup
import Mathlib.Logic.Function.Basic

/-! # Processes that share a file

A process prepares a job, loads a store from a file, does the job on the store and may replace
the file as a whole. Each process has a store of its own, so processes that overlap do not see
what the others write in between. -/

namespace CeIam

/-- How jobs are done on a store that is kept in a file. A job fails, or it answers and may write;
what it writes follows from what was loaded for it. -/
structure Filed (κ ε σ ρ φ : Type) where
  load : κ → φ → Except ε σ
  act : κ → σ → Except ε (ρ × Option φ)

/-- Where a process is; a store is held with the version of the file it was loaded from. -/
inductive Phase (κ ε σ ρ : Type) where
  | waiting
  | holding (held : κ × σ) (version : ℕ)
  | answered (answer : Except ε ρ)

/-- A file, how often it was replaced, and the processes that share it. -/
structure Sharing (ι κ ε σ ρ φ : Type) where
  file : φ
  version : ℕ
  phase : ι → Phase κ ε σ ρ

namespace Filed

variable {ι κ ε σ ρ φ : Type} (p : Filed κ ε σ ρ φ)

/-- A job that was prepared, with the store that is loaded for it. -/
def fetch (job : Except ε κ) (f : φ) : Except ε (κ × σ) :=
  job.bind fun k => (p.load k f).map fun a => (k, a)

def answer (held : κ × σ) : Except ε ρ := (p.act held.1 held.2).map Prod.fst

def written (held : κ × σ) : Option φ := (p.act held.1 held.2).toOption.bind Prod.snd

/-- A process from its beginning to its end, and the file it leaves. -/
def exec (job : Except ε κ) (f : φ) : Except ε ρ × φ :=
  match p.fetch job f with
  | .error e => (.error e, f)
  | .ok held => (p.answer held, (p.written held).getD f)

theorem exec_error {job : Except ε κ} {f : φ} {e : ε} (h : p.fetch job f = .error e) :
    p.exec job f = (.error e, f) := by
  rw [exec, h]

theorem exec_ok {job : Except ε κ} {f : φ} {held : κ × σ} (h : p.fetch job f = .ok held) :
    p.exec job f = (p.answer held, (p.written held).getD f) := by
  rw [exec, h]

/-- A job that writes succeeds. -/
theorem answer_of_written {held : κ × σ} {w : φ} (h : p.written held = some w) :
    ∃ a, p.answer held = .ok a := by
  rw [written] at h
  rw [answer]
  cases hact : p.act held.1 held.2 with
  | error e =>
      rw [hact] at h
      exact nomatch h
  | ok result => exact ⟨result.1, rfl⟩

theorem fetch_eq_ok {job : Except ε κ} {f : φ} {held : κ × σ} :
    p.fetch job f = .ok held ↔ job = .ok held.1 ∧ p.load held.1 f = .ok held.2 := by
  obtain ⟨k, a⟩ := held
  cases job with
  | error e => simp [fetch, Except.bind]
  | ok k' =>
      cases hload : p.load k' f with
      | error e =>
          simp only [fetch, Except.bind, hload, Except.map]
          constructor
          · exact fun h => nomatch h
          · rintro ⟨h, hok⟩
            cases h
            rw [hload] at hok
            cases hok
      | ok a' =>
          simp only [fetch, Except.bind, hload, Except.map, Except.ok.injEq, Prod.mk.injEq]
          constructor
          · rintro ⟨rfl, rfl⟩
            exact ⟨rfl, hload⟩
          · rintro ⟨rfl, hok⟩
            rw [hload] at hok
            exact ⟨rfl, Except.ok.inj hok⟩

/-! ## Processes that open, run and end -/

section Command

variable {τ : Type} (load : κ → Option τ → Except ε σ)
  (run : κ → σ → Option τ → Except ε ρ × σ × Option τ)

/-- A process that runs a job on the store it loads, and drops the store. -/
def command (job : Except ε κ) (f : Option τ) : Except ε ρ × Option τ :=
  match job with
  | .error e => (.error e, f)
  | .ok k =>
      match load k f with
      | .error e => (.error e, f)
      | .ok a =>
          let (answer, _, f) := run k a f
          (answer, f)

/-- What a run answers and leaves in memory does not depend on the file, which it leaves alone or
replaces; a run that fails leaves it alone. -/
def Uniform (k : κ) (a : σ) : Prop :=
  (∃ e b, ∀ f, run k a f = (.error e, b, f)) ∨ (∃ r b, ∀ f, run k a f = (.ok r, b, f)) ∨
    ∃ r b text, ∀ f, run k a f = (.ok r, b, some text)

/-- The jobs of such processes, from their runs over no file. -/
def ofRun : Filed κ ε σ ρ (Option τ) where
  load := load
  act k a := (run k a none).1.map fun r => (r, (run k a none).2.2.map some)

variable {run}

/-- A run is what the job answers, what it leaves in memory, and what it writes. -/
theorem run_eq_of_uniform {k : κ} {a : σ} (h : Uniform run k a) (f : Option τ) :
    run k a f = ((ofRun load run).answer (k, a), (run k a none).2.1,
      ((ofRun load run).written (k, a)).getD f) := by
  simp only [answer, written, ofRun]
  rcases h with ⟨e, b, he⟩ | ⟨r, b, hr⟩ | ⟨r, b, text, hr⟩
  · rw [he, he]
    rfl
  · rw [hr, hr]
    rfl
  · rw [hr, hr]
    rfl

variable {load}

theorem command_eq_exec (h : ∀ k f a, load k f = .ok a → Uniform run k a) (job : Except ε κ)
    (f : Option τ) :
    command load run job f = (ofRun load run).exec job f := by
  cases job with
  | error e => rfl
  | ok k =>
      cases hload : load k f with
      | error e =>
          have hfetch : (ofRun load run).fetch (.ok k) f = .error e := by
            simp only [fetch, Except.bind, ofRun, hload, Except.map]
          rw [exec_error _ hfetch]
          simp only [command, hload]
      | ok a =>
          have hfetch : (ofRun load run).fetch (.ok k) f = .ok (k, a) :=
            (fetch_eq_ok _).mpr ⟨rfl, hload⟩
          rw [exec_ok _ hfetch]
          simp only [command, hload, run_eq_of_uniform load (h k f a hload) f]

end Command

/-! ## One process after another -/

/-- Each process by itself. -/
def alone (job : ι → Except ε κ) (i : ι) (f : φ) : Except ε ρ × φ := p.exec (job i) f

section Session

variable (live : κ → σ × φ → Except ε ρ × (σ × φ))

/-- A job of a process that stays and has its store already. -/
def session (job : ι → Except ε κ) (i : ι) (s : σ × φ) : Except ε ρ × (σ × φ) :=
  match job i with
  | .error e => (.error e, s)
  | .ok k => live k s

variable {live} {Kept : σ → φ → Prop}

/-- A process that stays answers as processes of their own do, until the file cannot be loaded any
more. -/
theorem alone_session
    (hload : ∀ a f, Kept a f → (∀ k, p.load k f = .ok a) ∨ ∀ k, ∃ e, p.load k f = .error e)
    (hlive : ∀ k a f, Kept a f → ∃ b, Kept b ((p.written (k, a)).getD f) ∧
      live k (a, f) = (p.answer (k, a), b, (p.written (k, a)).getD f))
    (job : ι → Except ε κ) (is : List ι) {a : σ} {f : φ} (h : Kept a f) :
    ∃ before after, is = before ++ after ∧
      Machine.answers (p.alone job) before f =
        Machine.answers (session live job) before (a, f) ∧
      Machine.after (p.alone job) before f =
        (Machine.after (session live job) before (a, f)).2 ∧
      Kept (Machine.after (session live job) before (a, f)).1
        (Machine.after (p.alone job) before f) ∧
      (after = [] ∨ ∀ k, ∃ e, p.load k (Machine.after (p.alone job) before f) = .error e) := by
  induction is generalizing a f with
  | nil => exact ⟨[], [], rfl, rfl, rfl, h, .inl rfl⟩
  | cons i is ih =>
      rcases hload a f h with hok | herror
      · have hstep : ∃ b, Kept b (p.alone job i f).2 ∧
            session live job i (a, f) = ((p.alone job i f).1, b, (p.alone job i f).2) := by
          rw [alone, session]
          cases job i with
          | error e => exact ⟨a, h, rfl⟩
          | ok k =>
              have hfetch : p.fetch (.ok k) f = .ok (k, a) := p.fetch_eq_ok.mpr ⟨rfl, hok k⟩
              rw [p.exec_ok hfetch]
              exact hlive k a f h
        obtain ⟨b, hb, heq⟩ := hstep
        obtain ⟨before, after, rfl, hanswers, hfile, hkept, hend⟩ := ih hb
        refine ⟨i :: before, after, rfl, ?_, ?_, ?_, hend⟩
        · rw [Machine.answers, Machine.answers, heq, hanswers]
        · rw [Machine.after_cons, Machine.after_cons, heq, hfile]
        · rw [Machine.after_cons, Machine.after_cons, heq]
          exact hkept
      · exact ⟨[], i :: is, rfl, rfl, rfl, h, .inr herror⟩

/-- Over a file that cannot be loaded every process fails and leaves the file. -/
theorem alone_unloadable {f : φ} (h : ∀ k, ∃ e, p.load k f = .error e) (job : ι → Except ε κ)
    (i : ι) : ∃ e, p.alone job i f = (.error e, f) := by
  rw [alone]
  cases job i with
  | error e => exact ⟨e, rfl⟩
  | ok k =>
      obtain ⟨e, he⟩ := h k
      exact ⟨e, p.exec_error (by rw [fetch, Except.bind, he]; rfl)⟩

end Session

/-! ## Processes that overlap -/

variable [DecidableEq ι] (job : ι → Except ε κ)

/-- One turn of a process: it loads its store, or it does its job; the answer it gives if the turn
is its last one. -/
def turn (i : ι) (s : Sharing ι κ ε σ ρ φ) : Option (Except ε ρ) × Sharing ι κ ε σ ρ φ :=
  match s.phase i with
  | .waiting =>
      match p.fetch (job i) s.file with
      | .error e =>
          (some (.error e), { s with phase := Function.update s.phase i (.answered (.error e)) })
      | .ok held =>
          (none, { s with phase := Function.update s.phase i (.holding held s.version) })
  | .holding held _ =>
      (some (p.answer held),
        { file := (p.written held).getD s.file
          version := s.version + (if (p.written held).isSome then 1 else 0)
          phase := Function.update s.phase i (.answered (p.answer held)) })
  | .answered _ => (none, s)

/-- Processes that have not begun. -/
def opening (f : φ) : Sharing ι κ ε σ ρ φ := ⟨f, 0, fun _ => .waiting⟩

/-- The state after some turns, given by the processes that take them. -/
def sharing (schedule : List ι) (f : φ) : Sharing ι κ ε σ ρ φ :=
  Machine.after (p.turn job) schedule (opening f)

omit p job in
/-- What is found after an update was put there or was there before. -/
theorem of_update {β : Type} {q : ι → β} {i j : ι} {x y : β} (h : Function.update q i x j = y) :
    (j = i ∧ x = y) ∨ (j ≠ i ∧ q j = y) := by
  by_cases hij : j = i
  · subst hij
    rw [Function.update_self] at h
    exact .inl ⟨rfl, h⟩
  · rw [Function.update_of_ne hij] at h
    exact .inr ⟨hij, h⟩

theorem sharing_concat (schedule : List ι) (i : ι) (f : φ) :
    p.sharing job (schedule ++ [i]) f = (p.turn job i (p.sharing job schedule f)).2 := by
  simp [sharing, Machine.after]

section Turn

variable {p job} {i : ι} {s : Sharing ι κ ε σ ρ φ}

theorem turn_refused {e : ε} (hphase : s.phase i = .waiting)
    (h : p.fetch (job i) s.file = .error e) :
    (p.turn job i s).2 =
      { s with phase := Function.update s.phase i (.answered (.error e)) } := by
  rw [turn, hphase]
  simp only [h]

theorem turn_loads {held : κ × σ} (hphase : s.phase i = .waiting)
    (h : p.fetch (job i) s.file = .ok held) :
    (p.turn job i s).2 =
      { s with phase := Function.update s.phase i (.holding held s.version) } := by
  rw [turn, hphase]
  simp only [h]

theorem turn_acts {held : κ × σ} {v : ℕ} (hphase : s.phase i = .holding held v) :
    (p.turn job i s).2 =
      { file := (p.written held).getD s.file
        version := s.version + (if (p.written held).isSome then 1 else 0)
        phase := Function.update s.phase i (.answered (p.answer held)) } := by
  rw [turn, hphase]

theorem turn_writes {k : κ} {a : σ} {v : ℕ} {r : ρ} {w : φ} (hphase : s.phase i = .holding (k, a) v)
    (h : p.act k a = .ok (r, some w)) :
    (p.turn job i s).2 =
      ⟨w, s.version + 1, Function.update s.phase i (.answered (.ok r))⟩ := by
  rw [turn_acts hphase, written, answer, h]
  rfl

theorem turn_over {r : Except ε ρ} (hphase : s.phase i = .answered r) :
    (p.turn job i s).2 = s := by
  rw [turn, hphase]

end Turn

/-! ### A serial order behind every schedule -/

/-- Some processes that have succeeded, one after another in the order of their last turns, leave
the file and give the answers that they gave. -/
structure Explains (f : φ) (schedule : List ι) (s : Sharing ι κ ε σ ρ φ) (order : List ι)
    (g : φ) : Prop where
  file : Machine.after (p.alone job) order f = g
  inOrder : order.Sublist schedule
  once : order.Nodup
  succeeded : ∀ i ∈ order, ∃ a, s.phase i = .answered (.ok a)
  answers : order.map s.phase = (Machine.answers (p.alone job) order f).map Phase.answered

variable {p job} {f g : φ} {schedule order : List ι} {s t : Sharing ι κ ε σ ρ φ} {i : ι}

/-- A turn of a process that had not answered changes nothing about the explanation. -/
theorem Explains.mono (h : Explains p job f schedule s order g)
    (hphase : ∀ r, s.phase i ≠ .answered r) {q : Phase κ ε σ ρ}
    (ht : t.phase = Function.update s.phase i q) :
    Explains p job f (schedule ++ [i]) t order g := by
  have hsame : ∀ j ∈ order, t.phase j = s.phase j := by
    intro j hj
    obtain ⟨a, ha⟩ := h.succeeded j hj
    have hne : j ≠ i := by
      rintro rfl
      exact hphase _ ha
    rw [ht, Function.update_of_ne hne]
  refine ⟨h.file, h.inOrder.trans (List.sublist_append_left schedule [i]), h.once, ?_, ?_⟩
  · intro j hj
    rw [hsame j hj]
    exact h.succeeded j hj
  · rw [← h.answers]
    exact List.map_congr_left hsame

/-- A process that succeeds as it would alone goes to the end of the order. -/
theorem Explains.concat (h : Explains p job f schedule s order g)
    (hphase : ∀ r, s.phase i ≠ .answered r) (hok : ∃ a, (p.exec (job i) g).1 = .ok a)
    (ht : t.phase = Function.update s.phase i (.answered (p.exec (job i) g).1)) :
    Explains p job f (schedule ++ [i]) t (order ++ [i]) (p.exec (job i) g).2 := by
  have hkept := h.mono hphase ht
  have hnew : i ∉ order := by
    intro hi
    obtain ⟨a, ha⟩ := h.succeeded i hi
    exact hphase _ ha
  refine ⟨?_, h.inOrder.append (.refl [i]), ?_, ?_, ?_⟩
  · rw [Machine.after_append, h.file]
    rfl
  · simpa using List.Nodup.concat hnew h.once
  · intro j hj
    cases List.mem_append.mp hj with
    | inl hold => exact hkept.succeeded j hold
    | inr hlast =>
        obtain ⟨a, ha⟩ := hok
        refine ⟨a, ?_⟩
        rw [List.mem_singleton.mp hlast, ht, Function.update_self, ha]
  · rw [List.map_append, hkept.answers, Machine.answers_append, List.map_append, h.file]
    simp [Machine.answers, alone, ht]

/-- What the file, the stores that are held and the answers go back to. -/
structure Explained (p : Filed κ ε σ ρ φ) (job : ι → Except ε κ) (f : φ) (schedule : List ι)
    (s : Sharing ι κ ε σ ρ φ) : Prop where
  file : ∃ order, Explains p job f schedule s order s.file
  held : ∀ i held v, s.phase i = .holding held v →
    ∃ order g, Explains p job f schedule s order g ∧ p.fetch (job i) g = .ok held
  answer : ∀ i r, s.phase i = .answered r →
    ∃ order g, Explains p job f schedule s order g ∧ r = (p.exec (job i) g).1

/-- A turn changes the phase of one process, so the rest stays explained. -/
theorem Explained.update (h : Explained p job f schedule s) (hphase : ∀ r, s.phase i ≠ .answered r)
    {q : Phase κ ε σ ρ} (ht : t.phase = Function.update s.phase i q)
    (hfile : ∃ order, Explains p job f (schedule ++ [i]) t order t.file)
    (hheld : ∀ held v, q = .holding held v →
      ∃ order g, Explains p job f (schedule ++ [i]) t order g ∧ p.fetch (job i) g = .ok held)
    (hanswer : ∀ r, q = .answered r →
      ∃ order g, Explains p job f (schedule ++ [i]) t order g ∧ r = (p.exec (job i) g).1) :
    Explained p job f (schedule ++ [i]) t := by
  refine ⟨hfile, ?_, ?_⟩
  · intro j held v hj
    rw [ht] at hj
    rcases of_update hj with ⟨rfl, hq⟩ | ⟨-, hj⟩
    · exact hheld held v hq
    · obtain ⟨order, g, hex, hfetch⟩ := h.held j held v hj
      exact ⟨order, g, hex.mono hphase ht, hfetch⟩
  · intro j r hj
    rw [ht] at hj
    rcases of_update hj with ⟨rfl, hq⟩ | ⟨-, hj⟩
    · exact hanswer r hq
    · obtain ⟨order, g, hex, hr⟩ := h.answer j r hj
      exact ⟨order, g, hex.mono hphase ht, hr⟩

theorem Explained.turn (h : Explained p job f schedule s) (i : ι) :
    Explained p job f (schedule ++ [i]) (p.turn job i s).2 := by
  cases hphase : s.phase i with
  | answered r =>
      rw [turn_over hphase]
      have hlonger : ∀ {order g}, Explains p job f schedule s order g →
          Explains p job f (schedule ++ [i]) s order g := fun hex =>
        ⟨hex.file, hex.inOrder.trans (List.sublist_append_left schedule [i]), hex.once,
          hex.succeeded, hex.answers⟩
      refine ⟨?_, ?_, ?_⟩
      · obtain ⟨order, hex⟩ := h.file
        exact ⟨order, hlonger hex⟩
      · intro j held v hj
        obtain ⟨order, g, hex, hfetch⟩ := h.held j held v hj
        exact ⟨order, g, hlonger hex, hfetch⟩
      · intro j r' hj
        obtain ⟨order, g, hex, hr⟩ := h.answer j r' hj
        exact ⟨order, g, hlonger hex, hr⟩
  | waiting =>
      have hnot : ∀ r, s.phase i ≠ .answered r := by simp [hphase]
      obtain ⟨order, hex⟩ := h.file
      cases hfetch : p.fetch (job i) s.file with
      | error e =>
          rw [turn_refused hphase hfetch]
          refine h.update hnot rfl ⟨order, hex.mono hnot rfl⟩ (fun held v hq => nomatch hq) ?_
          rintro r ⟨⟩
          exact ⟨order, s.file, hex.mono hnot rfl, by rw [p.exec_error hfetch]⟩
      | ok held =>
          rw [turn_loads hphase hfetch]
          refine h.update hnot rfl ⟨order, hex.mono hnot rfl⟩ ?_ (fun r hq => nomatch hq)
          rintro held' v ⟨⟩
          exact ⟨order, s.file, hex.mono hnot rfl, hfetch⟩
  | holding held v =>
      have hnot : ∀ r, s.phase i ≠ .answered r := by simp [hphase]
      obtain ⟨order, g, hex, hfetch⟩ := h.held i held v hphase
      have hexec := p.exec_ok hfetch
      rw [turn_acts hphase]
      refine h.update hnot rfl ?_ (fun held' v' hq => nomatch hq) ?_
      · cases hwritten : (p.written held) with
        | none =>
            obtain ⟨order', hex'⟩ := h.file
            exact ⟨order', hex'.mono hnot rfl⟩
        | some w =>
            have hfile : (p.exec (job i) g).2 = w := by
              rw [hexec, hwritten, Option.getD_some]
            refine ⟨order ++ [i], ?_⟩
            simp only [Option.getD_some]
            rw [← hfile]
            exact hex.concat hnot (by rw [hexec]; exact p.answer_of_written hwritten)
              (by rw [hexec])
      · rintro r ⟨⟩
        exact ⟨order, g, hex.mono hnot rfl, by rw [hexec]⟩

/-- Whatever turns overlapping processes take, the file is what some of them leave one after
another, and each answers as it would alone on a file that some of them leave. -/
theorem explained_sharing (p : Filed κ ε σ ρ φ) (job : ι → Except ε κ) (f : φ)
    (schedule : List ι) :
    Explained p job f schedule (p.sharing job schedule f) := by
  induction schedule using List.reverseRecOn with
  | nil =>
      refine ⟨⟨[], rfl, .slnil, List.nodup_nil, (fun i hi => nomatch hi), rfl⟩, ?_, ?_⟩
      · exact fun i held v h => nomatch h
      · exact fun i r h => nomatch h
  | append_singleton schedule i ih =>
      rw [sharing_concat]
      exact ih.turn i

/-- What every process preserves by itself holds whatever turns overlapping processes take. -/
theorem sharing_invariant {I : φ → Prop} (h : ∀ job f, I f → I (p.exec job f).2) (hf : I f)
    (schedule : List ι) : I (p.sharing job schedule f).file := by
  obtain ⟨order, hex⟩ := (explained_sharing p job f schedule).file
  rw [← hex.file]
  exact Machine.after_invariant (fun i g => h (job i) g) order hf

/-- What every process preserves by itself, of the processes so far and the file, holds of processes
that have succeeded, and each answers as it would alone on a file of which it holds for processes
that have succeeded. -/
theorem sharing_history {I : List ι → φ → Prop}
    (h : ∀ is i g, I is g → I (is ++ [i]) (p.alone job i g).2) (hf : I [] f) (schedule : List ι) :
    (∃ order, I order (p.sharing job schedule f).file ∧
      ∀ i ∈ order, ∃ a, (p.sharing job schedule f).phase i = .answered (.ok a)) ∧
    ∀ i r, (p.sharing job schedule f).phase i = .answered r →
      ∃ order g, I order g ∧
        (∀ j ∈ order, ∃ a, (p.sharing job schedule f).phase j = .answered (.ok a)) ∧
        r = (p.alone job i g).1 := by
  have hex := explained_sharing p job f schedule
  have hI : ∀ {order g}, Explains p job f schedule (p.sharing job schedule f) order g →
      I order g := by
    intro order g horder
    rw [← horder.file]
    exact Machine.after_history (fun is i g => h is i g) order hf
  refine ⟨?_, ?_⟩
  · obtain ⟨order, horder⟩ := hex.file
    exact ⟨order, hI horder, horder.succeeded⟩
  · intro i r hr
    obtain ⟨order, g, horder, heq⟩ := hex.answer i r hr
    exact ⟨order, g, hI horder, horder.succeeded, heq⟩

/-! ### The processes that wrote -/

/-- The processes with a job that writes, of those that succeeded. -/
structure Writers (p : Filed κ ε σ ρ φ) (job : ι → Except ε κ) (writes : κ → Prop)
    (s : Sharing ι κ ε σ ρ φ) (writers : List ι) : Prop where
  once : writers.Nodup
  count : writers.length = s.version
  mem : ∀ i, i ∈ writers ↔
    (∃ k, job i = .ok k ∧ writes k) ∧ ∃ a, s.phase i = .answered (.ok a)

variable {writes : κ → Prop} {writers : List ι}

omit [DecidableEq ι] in
theorem Writers.not_mem (h : Writers p job writes s writers)
    (hphase : ∀ r, s.phase i ≠ .answered r) : i ∉ writers := by
  intro hi
  obtain ⟨-, a, ha⟩ := (h.mem i).mp hi
  exact hphase _ ha

/-- A turn that writes nothing adds no writer. -/
theorem Writers.same (h : Writers p job writes s writers) (hphase : ∀ r, s.phase i ≠ .answered r)
    {q : Phase κ ε σ ρ} (ht : t.phase = Function.update s.phase i q)
    (hversion : t.version = s.version)
    (hq : ∀ k a, job i = .ok k → writes k → q ≠ .answered (.ok a)) :
    Writers p job writes t writers := by
  refine ⟨h.once, hversion ▸ h.count, ?_⟩
  intro j
  rw [h.mem j, ht]
  by_cases hij : j = i
  · subst hij
    rw [Function.update_self]
    constructor
    · rintro ⟨-, a, ha⟩
      exact absurd ha (hphase _)
    · rintro ⟨⟨k, hk, hw⟩, a, ha⟩
      exact absurd ha (hq k a hk hw)
  · rw [Function.update_of_ne hij]

/-- A turn that writes adds its process. -/
theorem Writers.concat (h : Writers p job writes s writers)
    (hphase : ∀ r, s.phase i ≠ .answered r) {a : ρ}
    (ht : t.phase = Function.update s.phase i (.answered (.ok a)))
    (hversion : t.version = s.version + 1) {k : κ} (hk : job i = .ok k) (hw : writes k) :
    Writers p job writes t (writers ++ [i]) := by
  refine ⟨?_, ?_, ?_⟩
  · simpa using List.Nodup.concat (h.not_mem hphase) h.once
  · rw [List.length_append, h.count, hversion, List.length_singleton]
  · intro j
    rw [List.mem_append, h.mem j, ht, List.mem_singleton]
    by_cases hij : j = i
    · subst hij
      rw [Function.update_self]
      exact ⟨fun _ => ⟨⟨k, hk, hw⟩, a, rfl⟩, fun _ => .inr rfl⟩
    · rw [Function.update_of_ne hij]
      exact or_iff_left hij

theorem Writers.turn (hwrites : ∀ i held, job i = .ok held.1 → (∃ a, p.answer held = .ok a) →
      ((p.written held).isSome ↔ writes held.1)) (hex : Explained p job f schedule s)
    (h : Writers p job writes s writers) (i : ι) :
    ∃ writers, Writers p job writes (p.turn job i s).2 writers := by
  cases hphase : s.phase i with
  | answered r =>
      rw [turn_over hphase]
      exact ⟨writers, h⟩
  | waiting =>
      have hnot : ∀ r, s.phase i ≠ .answered r := by simp [hphase]
      cases hfetch : p.fetch (job i) s.file with
      | error e =>
          rw [turn_refused hphase hfetch]
          exact ⟨writers, h.same hnot rfl rfl (by simp)⟩
      | ok held =>
          rw [turn_loads hphase hfetch]
          exact ⟨writers, h.same hnot rfl rfl (by simp)⟩
  | holding held v =>
      have hnot : ∀ r, s.phase i ≠ .answered r := by simp [hphase]
      obtain ⟨order, g, -, hfetch⟩ := hex.held i held v hphase
      have hjob := (p.fetch_eq_ok.mp hfetch).1
      rw [turn_acts hphase]
      cases hwritten : p.written held with
      | none =>
          refine ⟨writers, h.same hnot rfl rfl ?_⟩
          intro k a hk hw ha
          rw [hjob] at hk
          cases hk
          have hsome := (hwrites i held hjob ⟨a, by simpa using ha⟩).mpr hw
          simp [hwritten] at hsome
      | some w =>
          obtain ⟨a, ha⟩ := p.answer_of_written hwritten
          have hw := (hwrites i held hjob ⟨a, ha⟩).mp (by simp [hwritten])
          exact ⟨writers ++ [i], h.concat hnot (by rw [ha]) rfl hjob hw⟩

/-- Every replacement of the file was by a process that succeeded with a job that writes. -/
theorem exists_writers (hwrites : ∀ i held, job i = .ok held.1 → (∃ a, p.answer held = .ok a) →
      ((p.written held).isSome ↔ writes held.1)) (f : φ) (schedule : List ι) :
    ∃ writers, Writers p job writes (p.sharing job schedule f) writers := by
  induction schedule using List.reverseRecOn with
  | nil =>
      refine ⟨[], List.nodup_nil, rfl, ?_⟩
      intro i
      constructor
      · exact fun hi => nomatch hi
      · rintro ⟨-, a, ha⟩
        exact nomatch ha
  | append_singleton schedule i ih =>
      obtain ⟨writers, h⟩ := ih
      rw [sharing_concat]
      exact h.turn hwrites (explained_sharing p job f schedule) i

/-! ### Lost writes -/

/-- A turn that replaces the file replaces the version that its store was loaded from. -/
def Current (p : Filed κ ε σ ρ φ) (i : ι) (s : Sharing ι κ ε σ ρ φ) : Prop :=
  ∀ held v, s.phase i = .holding held v → (p.written held).isSome → v = s.version

/-- The file has grown at most once for each write, and so had the file that a held store was
loaded from. -/
structure Growing (p : Filed κ ε σ ρ φ) (job : ι → Except ε κ) (size : φ → ℕ) (n : ℕ)
    (s : Sharing ι κ ε σ ρ φ) : Prop where
  file : size s.file ≤ n + s.version
  held : ∀ i held v, s.phase i = .holding held v → job i = .ok held.1 ∧ v ≤ s.version ∧
    ∃ g, p.load held.1 g = .ok held.2 ∧ size g ≤ n + v ∧ (v = s.version → g = s.file)

variable {size : φ → ℕ} {n : ℕ}

theorem Growing.update (h : Growing p job size n s) {q : Phase κ ε σ ρ}
    (hheld : ∀ held v, q = .holding held v → job i = .ok held.1 ∧ v ≤ s.version ∧
      ∃ g, p.load held.1 g = .ok held.2 ∧ size g ≤ n + v ∧ (v = s.version → g = s.file)) :
    Growing p job size n { s with phase := Function.update s.phase i q } := by
  refine ⟨h.file, ?_⟩
  intro j held v hj
  rcases of_update hj with ⟨rfl, hq⟩ | ⟨-, hj⟩
  · exact hheld held v hq
  · exact h.held j held v hj

/-- A write leaves the other stores behind. -/
theorem Growing.replace (h : Growing p job size n s) {w : φ} {r : Except ε ρ}
    (hw : size w ≤ n + (s.version + 1)) :
    Growing p job size n ⟨w, s.version + 1, Function.update s.phase i (.answered r)⟩ := by
  refine ⟨hw, ?_⟩
  intro j held v hj
  rcases of_update hj with ⟨-, hq⟩ | ⟨-, hj⟩
  · exact nomatch hq
  · obtain ⟨hjob, hle, g, hload, hsize, -⟩ := h.held j held v hj
    exact ⟨hjob, Nat.le_succ_of_le hle, g, hload, hsize,
      fun hv => absurd hv (Nat.ne_of_lt (Nat.lt_succ_of_le hle))⟩

/-- A turn keeps the bounds, and the file stays as large as its version says exactly when the turn
is current. -/
theorem Growing.turn (hgrow : ∀ i k a g w, job i = .ok k → p.load k g = .ok a →
      p.written (k, a) = some w → size w = size g + 1) (h : Growing p job size n s) (i : ι) :
    Growing p job size n (p.turn job i s).2 ∧
      (size (p.turn job i s).2.file = n + (p.turn job i s).2.version ↔
        size s.file = n + s.version ∧ Current p i s) := by
  cases hphase : s.phase i with
  | answered r =>
      have hcurrent : Current p i s := fun held v hv => by simp [hphase] at hv
      rw [turn_over hphase]
      exact ⟨h, (and_iff_left hcurrent).symm⟩
  | waiting =>
      have hcurrent : Current p i s := fun held v hv => by simp [hphase] at hv
      cases hfetch : p.fetch (job i) s.file with
      | error e =>
          rw [turn_refused hphase hfetch]
          exact ⟨h.update (fun held v hq => nomatch hq), (and_iff_left hcurrent).symm⟩
      | ok held =>
          rw [turn_loads hphase hfetch]
          refine ⟨h.update ?_, (and_iff_left hcurrent).symm⟩
          rintro held' v ⟨⟩
          obtain ⟨hjob, hload⟩ := p.fetch_eq_ok.mp hfetch
          exact ⟨hjob, Nat.le_refl _, s.file, hload, h.file, fun _ => rfl⟩
  | holding held v =>
      obtain ⟨hjob, hle, g, hload, hsize, hsame⟩ := h.held i held v hphase
      rw [turn_acts hphase]
      cases hwritten : (p.written held) with
      | none =>
          have hcurrent : Current p i s := by
            intro held' v' hv hsome
            rw [hphase] at hv
            cases hv
            simp [hwritten] at hsome
          exact ⟨h.update (fun held' v' hq => nomatch hq), (and_iff_left hcurrent).symm⟩
      | some w =>
          have hsizew := hgrow i _ _ _ _ hjob hload hwritten
          have hcurrent : Current p i s ↔ v = s.version := by
            constructor
            · exact fun hcur => hcur held v hphase (by simp [hwritten])
            · intro hv held' v' hv' _
              rw [hphase] at hv'
              cases hv'
              exact hv
          refine ⟨h.replace (by simp only [Option.getD_some]; omega), ?_⟩
          rw [hcurrent]
          simp only [Option.getD_some, Option.isSome_some, if_true]
          constructor
          · intro hfull
            have hv : v = s.version := by omega
            rw [← hsame hv]
            exact ⟨by omega, hv⟩
          · rintro ⟨hfull, hv⟩
            rw [← hsame hv] at hfull
            omega

/-- When every write adds one to what was loaded for it, all the writes are in the file exactly
when each replaced the version that its store was loaded from. -/
theorem all_writes_iff (hgrow : ∀ i k a g w, job i = .ok k → p.load k g = .ok a →
      p.written (k, a) = some w → size w = size g + 1) (f : φ) (schedule : List ι) :
    size (p.sharing job schedule f).file = size f + (p.sharing job schedule f).version ↔
      Machine.Along (p.turn job) (Current p) schedule (opening f) := by
  have hstart : Growing p job size (size f) (opening f : Sharing ι κ ε σ ρ φ) :=
    ⟨Nat.le_refl _, fun i held v h => nomatch h⟩
  rw [sharing, Machine.after_along_iff
    (E := fun s : Sharing ι κ ε σ ρ φ => size s.file = size f + s.version)
    (fun i s h => (Growing.turn hgrow h i).1) (fun i s h => (Growing.turn hgrow h i).2) hstart]
  exact and_iff_right rfl

end Filed

end CeIam
