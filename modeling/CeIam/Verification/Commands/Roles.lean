import CeIam.Model.Commands
import CeIam.Verification.Catalog.Integrity
import CeIam.Verification.Store.Reopening

/-! # Role commands

Every run of a role command opens the catalog, makes one call and ends. Runs that overlap share
nothing but the file. -/

namespace CeIam

namespace CatalogStore

/-- Whether a call succeeds and what it writes does not depend on the file. -/
theorem call_uniform (s : CatalogStore) (c : Call) :
    (∃ e, ∀ disk, call (s, disk) c = (.error e, s, disk)) ∨
      ∃ t : CatalogStore, ∀ disk, call (s, disk) c = (.ok (), t, some t.log.toJson.pretty) := by
  cases c with
  | apply op actor outcome =>
      simp only [call, CatalogStore.apply]
      split
      · exact .inl ⟨_, fun _ => rfl⟩
      · cases s.validate op with
        | error e => exact .inl ⟨e, fun _ => rfl⟩
        | ok u =>
            cases outcome with
            | error e => exact .inl ⟨_, fun _ => rfl⟩
            | ok u => exact .inr ⟨_, fun _ => rfl⟩
  | compact outcome =>
      cases outcome with
      | error e => exact .inl ⟨_, fun _ => rfl⟩
      | ok u => exact .inr ⟨(compacted s).1, fun _ => rfl⟩

end CatalogStore

namespace Cli

open CatalogStore

/-! ## A role command as a process -/

/-- The call of the store that a job makes. -/
def RoleJob.call : RoleJob → Option Call
  | .change op actor written _ => some (.apply op actor written)
  | .read _ => none
  | .compact written => some (.compact written)

/-- A job fails, or reads, or makes a call that succeeds; the file does not matter to it. -/
theorem run_uniform (job : RoleJob) (s : CatalogStore) :
    (∃ e, ∀ disk, job.run s disk = (.error e, s, disk)) ∨
    (job.call = none ∧ ∃ r, ∀ disk, job.run s disk = (.ok r, s, disk)) ∨
    ∃ r c t, job.call = some c ∧
      (∀ disk, CatalogStore.call (s, disk) c = (.ok (), t, some t.log.toJson.pretty)) ∧
      ∀ disk, job.run s disk = (.ok r, t, some t.log.toJson.pretty) := by
  cases job with
  | change op actor written reply =>
      rcases call_uniform s (.apply op actor written) with ⟨e, he⟩ | ⟨t, ht⟩
      · refine .inl ⟨e.display, fun disk => ?_⟩
        have happly := he disk
        rw [CatalogStore.call] at happly
        simp only [RoleJob.run, happly]
      · refine .inr (.inr ⟨reply t, _, t, rfl, ht, fun disk => ?_⟩)
        have happly := ht disk
        rw [CatalogStore.call] at happly
        simp only [RoleJob.run, happly]
  | read view =>
      cases hview : view s.catalog with
      | error e => exact .inl ⟨e, fun disk => by rw [RoleJob.run, hview]⟩
      | ok r => exact .inr (.inl ⟨rfl, r, fun disk => by rw [RoleJob.run, hview]⟩)
  | compact written =>
      rcases call_uniform s (.compact written) with ⟨e, he⟩ | ⟨t, ht⟩
      · refine .inl ⟨e.display, fun disk => ?_⟩
        have hcompact := he disk
        rw [CatalogStore.call] at hcompact
        simp only [RoleJob.run, hcompact]
      · refine .inr (.inr ⟨.compacted t.opCount, _, t, rfl, ht, fun disk => ?_⟩)
        have hcompact := ht disk
        rw [CatalogStore.call] at hcompact
        simp only [RoleJob.run, hcompact]

theorem uniform_roleJob (job : RoleJob) (s : CatalogStore) : Filed.Uniform RoleJob.run job s := by
  rcases run_uniform job s with ⟨e, he⟩ | ⟨-, r, hr⟩ | ⟨r, c, t, -, -, hr⟩
  · exact .inl ⟨e, s, he⟩
  · exact .inr (.inl ⟨r, s, hr⟩)
  · exact .inr (.inr ⟨r, t, _, hr⟩)

/-- The catalog of one data directory, as role commands share it. -/
def roleFiled (parse : String → Except String CatalogLog) (dir : String) :
    Filed RoleJob String CatalogStore RoleReply Disk :=
  .ofRun (fun _ => openCatalogStore parse (.ok dir)) RoleJob.run

variable {parse : String → Except String CatalogLog} {dir : String} {s t : CatalogStore}
  {disk : Disk} {ι : Type} {parsePolicy : String → Except String Policy} {nodeId : ι → NodeId}
  {env : CommandEnv ι}

/-- A role command is a process on the catalog of its data directory. -/
theorem cmdRole_eq (hdir : env.iamDir = .ok dir) (cmd : RoleCmd) (disk : Disk) :
    cmdRole parsePolicy parse nodeId env cmd disk =
      (roleFiled parse dir).exec (roleJob parsePolicy nodeId env cmd) disk := by
  rw [roleFiled, ← Filed.command_eq_exec fun k _ s _ => uniform_roleJob k s, cmdRole, hdir]
  cases roleJob parsePolicy nodeId env cmd with
  | error e => rfl
  | ok job =>
      simp only [Filed.command]
      cases openCatalogStore parse (.ok dir) disk <;> rfl

/-! ## What the file holds -/

/-- A store that role commands leave behind, and the file that holds it. -/
structure Kept (dir : String) (s : CatalogStore) (disk : Disk) : Prop where
  path : s.path = dir ++ "/catalog.json"
  reached : Reached (s, disk)

theorem kept_new (dir : String) : Kept dir ⟨dir ++ "/catalog.json", .new, .new⟩ none :=
  ⟨rfl, reached_new _⟩

/-- A call keeps the store and its file together. -/
theorem Kept.run (h : Kept dir s disk) (job : RoleJob) :
    Kept dir (job.run s disk).2.1 (job.run s disk).2.2 := by
  rcases run_uniform job s with ⟨e, he⟩ | ⟨-, r, hr⟩ | ⟨r, c, t, -, hcall, hr⟩
  · rw [he]
    exact h
  · rw [hr]
    exact h
  · have hcalled : called (s, disk) c (t, some t.log.toJson.pretty) :=
      congrArg Prod.snd (hcall disk)
    rw [hr]
    exact ⟨(path_call hcalled).trans h.path, h.reached.call hcalled⟩

/-- A file that holds a store is loaded as that store, unless its text is too long. -/
theorem Kept.load (reads : ∀ log : CatalogLog, parse log.toJson.pretty = .ok log)
    (h : Kept dir s disk) :
    openCatalogStore parse (.ok dir) disk = .ok s ∨
      (∃ text, disk = some text ∧ maxStoreBytes < text.utf8ByteSize) ∧
        ∃ e, openCatalogStore parse (.ok dir) disk = .error e := by
  have hopen : openCatalogStore parse (.ok dir) disk =
      (openStore parse (dir ++ "/catalog.json") disk).mapError
        fun e => "opening catalog: " ++ e.display := rfl
  rw [hopen]
  by_cases hfits : s.log.toJson.pretty.utf8ByteSize ≤ maxStoreBytes
  · refine .inl ?_
    have hload := (load_keeps_iff reads (by decide) (dir ++ "/catalog.json")
      h.reached.coherent.stored).mpr hfits
    rw [openStore_of_load hload h.reached.bounded, ← h.path, ← h.reached.coherent.live]
    rfl
  · refine .inr ?_
    rcases h.reached.coherent.stored with ⟨-, hnew⟩ | hsome
    · have hnew' : s.log = .new := hnew
      rw [hnew'] at hfits
      exact absurd (by decide) hfits
    · have hsome' : disk = some s.log.toJson.pretty := hsome
      refine ⟨⟨_, hsome', not_le.mp hfits⟩, ?_⟩
      rw [hsome', openStore, loadJsonOrDefault]
      simp only [gt_iff_lt, not_le.mp hfits, if_true]
      exact ⟨_, rfl⟩

/-- A process keeps what the file holds a store. -/
theorem kept_exec (reads : ∀ log : CatalogLog, parse log.toJson.pretty = .ok log)
    (job : Except String RoleJob) (h : ∃ s, Kept dir s disk) :
    ∃ s, Kept dir s ((roleFiled parse dir).exec job disk).2 := by
  obtain ⟨s, hs⟩ := h
  rw [roleFiled, ← Filed.command_eq_exec fun k _ s _ => uniform_roleJob k s]
  cases job with
  | error e => exact ⟨s, hs⟩
  | ok job =>
      rcases hs.load reads with hopen | ⟨-, e, hopen⟩
      · simp only [Filed.command, hopen]
        exact ⟨_, hs.run job⟩
      · simp only [Filed.command, hopen]
        exact ⟨s, hs⟩

theorem integrity_of_open (reads : ∀ log : CatalogLog, parse log.toJson.pretty = .ok log)
    (h : Kept dir s disk) (hopen : openCatalogStore parse (.ok dir) disk = .ok t) :
    t.catalog.Integrity := by
  rcases h.load reads with hok | ⟨-, e, herror⟩
  · rw [hok] at hopen
    cases hopen
    exact h.reached.wellFormed.toIntegrity
  · rw [herror] at hopen
    cases hopen

/-! ## Role commands that overlap -/

/-- The removal of two roles, each by a run of its own. -/
def removals (gpu : Bool) : RoleCmd := .rm (if gpu then "gpu" else "ops")

/-- Reads no policy. -/
def noPolicy (_ : String) : Except String Policy := .error "no policy"

def plainEnv : CommandEnv NodeId := ⟨1000, .ok (.filled 1), .ok "iam", .ok "", .ok ()⟩

section Overlap

variable {κ : Type} [DecidableEq κ] (env : κ → CommandEnv ι) (cmd : κ → RoleCmd)

/-- The catalog file and the processes of some role commands, after some turns of theirs on a data
directory without a catalog. -/
def roleSharing (parsePolicy : String → Except String Policy)
    (parse : String → Except String CatalogLog) (nodeId : ι → NodeId) (dir : String)
    (schedule : List κ) : Sharing κ RoleJob String CatalogStore RoleReply Disk :=
  (roleFiled parse dir).sharing (fun i => roleJob parsePolicy nodeId (env i) (cmd i)) schedule none

/-- Some of the commands, each by itself and one after another, succeed, answer what they answered
and leave this file. -/
structure RoleOrder (parsePolicy : String → Except String Policy)
    (parse : String → Except String CatalogLog) (nodeId : ι → NodeId) (dir : String)
    (schedule order : List κ) (file : Disk) : Prop where
  inOrder : order.Sublist schedule
  once : order.Nodup
  file : Machine.after (fun i => cmdRole parsePolicy parse nodeId (env i) (cmd i)) order none = file
  answers : order.map (roleSharing env cmd parsePolicy parse nodeId dir schedule).phase =
    (Machine.answers (fun i => cmdRole parsePolicy parse nodeId (env i) (cmd i)) order none).map
      Phase.answered
  succeeded : ∀ i ∈ order,
    ∃ r, (roleSharing env cmd parsePolicy parse nodeId dir schedule).phase i = .answered (.ok r)

variable {env cmd} {schedule order : List κ} {file : Disk}

omit [DecidableEq κ] in
theorem alone_eq (hdir : ∀ i, (env i).iamDir = .ok dir) :
    (roleFiled parse dir).alone (fun i => roleJob parsePolicy nodeId (env i) (cmd i)) =
      fun i => cmdRole parsePolicy parse nodeId (env i) (cmd i) := by
  funext i disk
  exact (cmdRole_eq (hdir i) (cmd i) disk).symm

theorem roleOrder_of_explains (hdir : ∀ i, (env i).iamDir = .ok dir)
    (h : Filed.Explains (roleFiled parse dir)
      (fun i => roleJob parsePolicy nodeId (env i) (cmd i)) none schedule
      (roleSharing env cmd parsePolicy parse nodeId dir schedule) order file) :
    RoleOrder env cmd parsePolicy parse nodeId dir schedule order file := by
  have halone : (roleFiled parse dir).alone (fun i => roleJob parsePolicy nodeId (env i) (cmd i)) =
      fun i => cmdRole parsePolicy parse nodeId (env i) (cmd i) := alone_eq hdir
  exact ⟨h.inOrder, h.once, halone ▸ h.file, halone ▸ h.answers, h.succeeded⟩

/-- Whatever turns overlapping role commands take, the catalog file is what some of them leave one
after another, every answer is the one the command gives alone on such a file, and a catalog that
opens has its integrity. -/
theorem overlapping_roles_serial
    (reads : ∀ log : CatalogLog, parse log.toJson.pretty = .ok log)
    (hdir : ∀ i, (env i).iamDir = .ok dir) (schedule : List κ) :
    (∃ order, RoleOrder env cmd parsePolicy parse nodeId dir schedule order
        (roleSharing env cmd parsePolicy parse nodeId dir schedule).file) ∧
      (∀ i r, (roleSharing env cmd parsePolicy parse nodeId dir schedule).phase i = .answered r →
        ∃ order file, RoleOrder env cmd parsePolicy parse nodeId dir schedule order file ∧
          r = (cmdRole parsePolicy parse nodeId (env i) (cmd i) file).1) ∧
      ∀ store, openCatalogStore parse (.ok dir)
        (roleSharing env cmd parsePolicy parse nodeId dir schedule).file = .ok store →
          store.catalog.Integrity := by
  have hex := Filed.explained_sharing (roleFiled parse dir)
    (fun i => roleJob parsePolicy nodeId (env i) (cmd i)) none schedule
  refine ⟨?_, ?_, ?_⟩
  · obtain ⟨order, horder⟩ := hex.file
    exact ⟨order, roleOrder_of_explains hdir horder⟩
  · intro i r hr
    obtain ⟨order, file, horder, heq⟩ := hex.answer i r hr
    exact ⟨order, file, roleOrder_of_explains hdir horder, by rw [heq, cmdRole_eq (hdir i)]⟩
  · intro store hopen
    obtain ⟨s, hs⟩ := Filed.sharing_invariant (I := fun disk => ∃ s, Kept dir s disk)
      (fun job _ => kept_exec reads job) ⟨_, kept_new dir⟩ schedule
    exact integrity_of_open reads hs hopen

/-- Two runs that open the catalog before either has written. -/
noncomputable def removalsSharing : Sharing Bool RoleJob String CatalogStore RoleReply Disk :=
  roleSharing (fun _ => plainEnv) removals noPolicy readLog id "iam" [false, true, false, true]

/-- The log of one removal. -/
def removalLog (role : String) : CatalogLog :=
  CatalogLog.new.record (.removeRole role) (some ⟨.filled 1⟩)

theorem removalsSharing_file : removalsSharing.file = some (removalLog "gpu").toJson.pretty := rfl

theorem removalsSharing_answered (gpu : Bool) :
    removalsSharing.phase gpu = .answered (.ok (.removed (if gpu then "gpu" else "ops"))) := by
  cases gpu <;> rfl

/-- Both removals succeed, and the file is what the later one leaves alone. -/
theorem overlapping_removals_serial :
    removalsSharing.phase false = .answered (.ok (.removed "ops")) ∧
      removalsSharing.phase true = .answered (.ok (.removed "gpu")) ∧
      ∃ order, RoleOrder (fun _ => plainEnv) removals noPolicy readLog id "iam"
        [false, true, false, true] order (some (removalLog "gpu").toJson.pretty) := by
  refine ⟨removalsSharing_answered false, removalsSharing_answered true, ?_⟩
  rw [← removalsSharing_file]
  exact (overlapping_roles_serial readLog_pretty (fun _ => rfl) _).1

/-! ### Lost changes -/

/-- The number of entries of the log in a file. -/
def logEntries (parse : String → Except String CatalogLog) : Disk → ℕ
  | none => 0
  | some text =>
      match parse text with
      | .ok log => log.len
      | .error _ => 0

/-- The commands that change the catalog, other than compaction. -/
def RoleCmd.Changes : RoleCmd → Prop
  | .put .. | .rm .. | .attach .. | .detach .. => True
  | _ => False

omit [DecidableEq κ] in
/-- The job of a command is a change, a reading or a compaction, as the command says. -/
theorem roleJob_cases {c : RoleCmd} {job : RoleJob} {env : CommandEnv ι}
    (hjob : roleJob parsePolicy nodeId env c = .ok job) :
    (c.Changes ∧ ∃ op actor reply, job = .change op actor env.written reply) ∨
      (¬ c.Changes ∧ ∃ view, job = .read view) ∨ (c = .compact ∧ job = .compact env.written) := by
  cases c with
  | put name description =>
      obtain ⟨text, -, hrest⟩ := Outcome.bind_eq_ok.mp hjob
      obtain ⟨policy, -, hlast⟩ := Outcome.bind_eq_ok.mp hrest
      exact .inl ⟨trivial, _, _, _, (Except.ok.inj hlast).symm⟩
  | get name => exact .inr (.inl ⟨id, _, (Except.ok.inj hjob).symm⟩)
  | list => exact .inr (.inl ⟨id, _, (Except.ok.inj hjob).symm⟩)
  | rm name => exact .inl ⟨trivial, _, _, _, (Except.ok.inj hjob).symm⟩
  | attach principal role =>
      obtain ⟨p, -, hlast⟩ := Outcome.bind_eq_ok.mp hjob
      exact .inl ⟨trivial, _, _, _, (Except.ok.inj hlast).symm⟩
  | detach principal role =>
      obtain ⟨p, -, hlast⟩ := Outcome.bind_eq_ok.mp hjob
      exact .inl ⟨trivial, _, _, _, (Except.ok.inj hlast).symm⟩
  | effectiveGrants principal =>
      obtain ⟨p, -, hlast⟩ := Outcome.bind_eq_ok.mp hjob
      exact .inr (.inl ⟨id, _, (Except.ok.inj hlast).symm⟩)
  | audit since => exact .inr (.inl ⟨id, _, (Except.ok.inj hjob).symm⟩)
  | compact => exact .inr (.inr ⟨rfl, (Except.ok.inj hjob).symm⟩)

theorem logEntries_open (hopen : openCatalogStore parse (.ok dir) disk = .ok s) :
    logEntries parse disk = s.log.len := by
  obtain ⟨log, hload, hrest⟩ := Outcome.bind_eq_ok.mp (Outcome.mapError_eq_ok.mp hopen)
  obtain ⟨-, -, hstore⟩ := Outcome.bind_eq_ok.mp hrest
  cases hstore
  cases disk with
  | none =>
      cases hload
      rfl
  | some text =>
      rw [loadJsonOrDefault] at hload
      split at hload
      · cases hload
      · rw [logEntries, Outcome.mapError_eq_ok.mp hload]

/-- A change adds one entry to the log of the store that makes it. -/
theorem len_of_apply {op : CatalogOp} {actor : Option Principal} {written : Except String Unit}
    (h : CatalogStore.call (s, disk) (.apply op actor written) = (.ok (), t, file)) :
    t.log.len = s.log.len + 1 := by
  rcases call_cases (s, disk) (.apply op actor written) with
    ⟨e, he⟩ | ⟨op', actor', hc, -, -, hok⟩ | ⟨hc, -⟩
  · rw [he] at h
    cases h
  · cases hc
    rw [hok] at h
    cases h
    simp [CatalogLog.len, CatalogLog.record]
  · cases hc

/-- What a job writes is the log of the store it leaves, and it writes when it makes a call. -/
theorem written_eq (job : RoleJob) (s : CatalogStore)
    (hok : ∃ r, (roleFiled parse dir).answer (job, s) = .ok r) :
    (job.call = none ∧ (roleFiled parse dir).written (job, s) = none) ∨
      ∃ c t, job.call = some c ∧
        (∀ disk, CatalogStore.call (s, disk) c = (.ok (), t, some t.log.toJson.pretty)) ∧
        (roleFiled parse dir).written (job, s) = some (some t.log.toJson.pretty) := by
  obtain ⟨r, hr⟩ := hok
  simp only [Filed.answer, Filed.written, roleFiled, Filed.ofRun] at hr ⊢
  rcases run_uniform job s with ⟨e, he⟩ | ⟨hnone, r', hr'⟩ | ⟨r', c, t, hcall, hc, hr'⟩
  · rw [he] at hr
    cases hr
  · rw [hr']
    exact .inl ⟨hnone, rfl⟩
  · rw [hr']
    exact .inr ⟨c, t, hcall, hc, rfl⟩

/-- A command that succeeds has a job. -/
theorem job_of_answered {schedule : List κ} {i : κ} {r : RoleReply}
    (h : (roleSharing env cmd parsePolicy parse nodeId dir schedule).phase i = .answered (.ok r)) :
    ∃ job, roleJob parsePolicy nodeId (env i) (cmd i) = .ok job := by
  obtain ⟨order, g, -, hr⟩ := (Filed.explained_sharing (roleFiled parse dir)
    (fun i => roleJob parsePolicy nodeId (env i) (cmd i)) none schedule).answer i (.ok r) h
  cases hjob : roleJob parsePolicy nodeId (env i) (cmd i) with
  | ok job => exact ⟨job, rfl⟩
  | error e =>
      rw [hjob] at hr
      exact nomatch hr

variable (env) in
/-- Overlapping commands that change the catalog, and commands that read it: the log in the file has
an entry for each change that was acknowledged exactly when no change replaced a file that another
one had written since the command opened it. -/
theorem no_change_lost_iff
    (reads : ∀ log : CatalogLog, parse log.toJson.pretty = .ok log)
    (hcmd : ∀ i, cmd i ≠ .compact) (schedule : List κ) :
    ∃ acknowledged : List κ, acknowledged.Nodup ∧
      (∀ i, i ∈ acknowledged ↔ (cmd i).Changes ∧
        ∃ r, (roleSharing env cmd parsePolicy parse nodeId dir schedule).phase i =
          .answered (.ok r)) ∧
      (logEntries parse (roleSharing env cmd parsePolicy parse nodeId dir schedule).file =
          acknowledged.length ↔
        Machine.Along
          ((roleFiled parse dir).turn fun i => roleJob parsePolicy nodeId (env i) (cmd i))
          (Filed.Current (roleFiled parse dir)) schedule (Filed.opening none)) := by
  have hwrites : ∀ i (held : RoleJob × CatalogStore),
      roleJob parsePolicy nodeId (env i) (cmd i) = .ok held.1 →
      (∃ r, (roleFiled parse dir).answer held = .ok r) →
        (((roleFiled parse dir).written held).isSome ↔ held.1.call.isSome) := by
    intro i held _ hok
    rcases written_eq held.1 held.2 hok with ⟨hcall, hw⟩ | ⟨c, t, hcall, -, hw⟩
    · simp [hcall, hw]
    · simp [hcall, hw]
  have hgrow : ∀ i (k : RoleJob) (a : CatalogStore) (g w : Disk),
      roleJob parsePolicy nodeId (env i) (cmd i) = .ok k →
      (roleFiled parse dir).load k g = .ok a → (roleFiled parse dir).written (k, a) = some w →
        logEntries parse w = logEntries parse g + 1 := by
    intro i k a g w hk hload hw
    rw [logEntries_open hload]
    rcases written_eq k a (Filed.answer_of_written _ hw) with ⟨-, hnone⟩ | ⟨c, t, hcall, hc, hsome⟩
    · rw [hw] at hnone
      cases hnone
    · rw [hw] at hsome
      cases hsome
      rw [logEntries, reads]
      rcases roleJob_cases hk with ⟨-, op, actor, reply, rfl⟩ | ⟨-, view, rfl⟩ | ⟨hcompact, -⟩
      · cases hcall
        exact len_of_apply (hc none)
      · cases hcall
      · exact absurd hcompact (hcmd i)
  obtain ⟨writers, hwriters⟩ : ∃ writers, Filed.Writers (roleFiled parse dir)
      (fun i => roleJob parsePolicy nodeId (env i) (cmd i)) (fun k => k.call.isSome)
      (roleSharing env cmd parsePolicy parse nodeId dir schedule) writers :=
    Filed.exists_writers hwrites none schedule
  refine ⟨writers, hwriters.once, ?_, ?_⟩
  · intro i
    rw [hwriters.mem i]
    constructor
    · rintro ⟨⟨k, hk, hcall⟩, hr⟩
      rcases roleJob_cases hk with ⟨hch, -⟩ | ⟨-, view, rfl⟩ | ⟨hcompact, -⟩
      · exact ⟨hch, hr⟩
      · cases hcall
      · exact absurd hcompact (hcmd i)
    · rintro ⟨hch, r, hr⟩
      obtain ⟨job, hjob⟩ := job_of_answered hr
      refine ⟨⟨job, hjob, ?_⟩, r, hr⟩
      rcases roleJob_cases hjob with ⟨-, op, actor, reply, rfl⟩ | ⟨hno, -⟩ | ⟨hcompact, -⟩
      · rfl
      · exact absurd hch hno
      · exact absurd hcompact (hcmd i)
  · have hsize : logEntries parse none +
        (roleSharing env cmd parsePolicy parse nodeId dir schedule).version = writers.length := by
      rw [hwriters.count, logEntries, Nat.zero_add]
    rw [← hsize]
    exact Filed.all_writes_iff hgrow none schedule

/-- Both removals are acknowledged, and one of them is lost: a turn was not current. -/
theorem no_removal_lost_iff :
    ∃ acknowledged : List Bool, acknowledged.Perm [false, true] ∧
      logEntries readLog removalsSharing.file = 1 ∧
      ¬ Machine.Along
        ((roleFiled readLog "iam").turn fun i => roleJob noPolicy id plainEnv (removals i))
        (Filed.Current (roleFiled readLog "iam")) [false, true, false, true]
        (Filed.opening none) := by
  have hcmd : ∀ i, removals i ≠ .compact := fun i => by simp [removals]
  obtain ⟨acknowledged, hnodup, hmem, hiff⟩ :=
    no_change_lost_iff (fun _ => plainEnv) readLog_pretty hcmd [false, true, false, true]
  have hall : acknowledged.Perm [false, true] := by
    refine (List.perm_ext_iff_of_nodup hnodup (by decide)).mpr fun gpu => ?_
    exact iff_of_true ((hmem gpu).mpr ⟨trivial, _, removalsSharing_answered gpu⟩)
      (by cases gpu <;> decide)
  have hlog : logEntries readLog removalsSharing.file = 1 := by
    rw [removalsSharing_file, logEntries, readLog_pretty]
    rfl
  refine ⟨acknowledged, hall, hlog, ?_⟩
  intro halong
  have hkept : logEntries readLog removalsSharing.file = acknowledged.length := hiff.mpr halong
  rw [hlog, hall.length_eq] at hkept
  exact absurd hkept (by decide)

end Overlap

/-! ## Role commands one after another -/

section Staying

variable {κ : Type} {env : κ → CommandEnv ι} {cmd : κ → RoleCmd}

def RoleJob.runOn (job : RoleJob) (s : CatalogStore × Disk) :
    Except String RoleReply × (CatalogStore × Disk) :=
  job.run s.1 s.2

/-- A role command of a process that stays, on the store it has in memory. -/
def stayingRole (parsePolicy : String → Except String Policy) (nodeId : ι → NodeId)
    (env : CommandEnv ι) (cmd : RoleCmd) (s : CatalogStore × Disk) :
    Except String RoleReply × (CatalogStore × Disk) :=
  match roleJob parsePolicy nodeId env cmd with
  | .error e => (.error e, s)
  | .ok job => job.runOn s

theorem stayingRole_eq : (fun i => stayingRole parsePolicy nodeId (env i) (cmd i)) =
    Filed.session RoleJob.runOn fun i => roleJob parsePolicy nodeId (env i) (cmd i) := by
  funext i s
  rw [stayingRole, Filed.session]
  cases roleJob parsePolicy nodeId (env i) (cmd i) <;> rfl

variable (cmd) in
/-- Role commands that open the catalog anew each time answer and write as one process does that
keeps it open, up to the command that leaves a file which is too long; from then on every command
fails and the file stays as it is. -/
theorem roles_one_store
    (reads : ∀ log : CatalogLog, parse log.toJson.pretty = .ok log)
    (hdir : ∀ i, (env i).iamDir = .ok dir) (is : List κ) :
    ∃ before after, is = before ++ after ∧
      Machine.answers (fun i => cmdRole parsePolicy parse nodeId (env i) (cmd i)) before none =
        Machine.answers (fun i => stayingRole parsePolicy nodeId (env i) (cmd i)) before
          (⟨dir ++ "/catalog.json", .new, .new⟩, none) ∧
      Machine.after (fun i => cmdRole parsePolicy parse nodeId (env i) (cmd i)) before none =
        (Machine.after (fun i => stayingRole parsePolicy nodeId (env i) (cmd i)) before
          (⟨dir ++ "/catalog.json", .new, .new⟩, none)).2 ∧
      (after = [] ∨ ∃ text,
        Machine.after (fun i => cmdRole parsePolicy parse nodeId (env i) (cmd i)) before none =
          some text ∧ maxStoreBytes < text.utf8ByteSize ∧
        ∀ i, ∃ e, cmdRole parsePolicy parse nodeId (env i) (cmd i) (some text) =
          (.error e, some text)) := by
  have hload : ∀ (s : CatalogStore) (disk : Disk), Kept dir s disk →
      (∀ k, (roleFiled parse dir).load k disk = .ok s) ∨
        ∀ k, ∃ e, (roleFiled parse dir).load k disk = .error e := by
    intro s disk hs
    rcases hs.load reads with hopen | ⟨-, e, herror⟩
    · exact .inl fun _ => hopen
    · exact .inr fun _ => ⟨e, herror⟩
  have hlive : ∀ (k : RoleJob) (s : CatalogStore) (disk : Disk), Kept dir s disk →
      ∃ t, Kept dir t (((roleFiled parse dir).written (k, s)).getD disk) ∧
        k.runOn (s, disk) = ((roleFiled parse dir).answer (k, s), t,
          ((roleFiled parse dir).written (k, s)).getD disk) := by
    intro k s disk hs
    have hrun := Filed.run_eq_of_uniform (fun _ => openCatalogStore parse (.ok dir))
      (uniform_roleJob k s) disk
    have hkept := hs.run k
    rw [hrun] at hkept
    exact ⟨_, hkept, hrun⟩
  have halone : (roleFiled parse dir).alone (fun i => roleJob parsePolicy nodeId (env i) (cmd i)) =
      fun i => cmdRole parsePolicy parse nodeId (env i) (cmd i) := alone_eq hdir
  obtain ⟨before, after, his, hanswers, hfile, hkept, hend⟩ :=
    Filed.alone_session _ hload hlive (fun i => roleJob parsePolicy nodeId (env i) (cmd i)) is
      (kept_new dir)
  rw [halone, ← stayingRole_eq] at hanswers hfile hkept
  refine ⟨before, after, his, hanswers, hfile, hend.imp_right ?_⟩
  intro herror
  rcases hkept.load reads with hopen | ⟨⟨text, htext, hlarge⟩, -⟩
  · obtain ⟨e, he⟩ := herror (.compact (.ok ()))
    rw [halone] at he
    exact nomatch he.symm.trans hopen
  · refine ⟨text, htext, hlarge, ?_⟩
    intro i
    obtain ⟨e, he⟩ := Filed.alone_unloadable _ herror
      (fun i => roleJob parsePolicy nodeId (env i) (cmd i)) i
    rw [halone, htext] at he
    exact ⟨e, he⟩

/-- Both removals are answered and written as by one process, to the last command. -/
theorem removals_one_store :
    Machine.answers (fun i => cmdRole noPolicy readLog id plainEnv (removals i)) [false, true]
        none = [.ok (.removed "ops"), .ok (.removed "gpu")] ∧
      Machine.after (fun i => cmdRole noPolicy readLog id plainEnv (removals i)) [false, true]
        none = (Machine.after (fun i => stayingRole noPolicy id plainEnv (removals i))
          [false, true] (⟨"iam" ++ "/catalog.json", .new, .new⟩, none)).2 := by
  have hdir : ∀ _ : Bool, plainEnv.iamDir = .ok "iam" := fun _ => rfl
  obtain ⟨before, after, his, hanswers, hfile, hend⟩ :=
    @roles_one_store _ _ _ noPolicy id _ _ removals readLog_pretty hdir [false, true]
  have hlast : after = [] := by
    rcases hend with hnil | ⟨text, htext, hlarge, -⟩
    · exact hnil
    · rw [hfile] at htext
      cases before with
      | nil => cases htext
      | cons i before =>
          obtain ⟨rfl, hrest⟩ := List.cons.inj his
          cases before with
          | nil =>
              have hsmall : (removalLog "ops").toJson.pretty.utf8ByteSize ≤ maxStoreBytes := by
                rw [Json.utf8ByteSize_pretty]
                decide +kernel
              change some (removalLog "ops").toJson.pretty = some text at htext
              rw [← Option.some.inj htext] at hlarge
              exact absurd hsmall (Nat.not_le.mpr hlarge)
          | cons j before =>
              obtain ⟨-, hnone⟩ := List.cons.inj hrest
              exact (List.append_eq_nil_iff.mp hnone.symm).2
  subst hlast
  rw [List.append_nil] at his
  subst his
  exact ⟨hanswers, hfile⟩

end Staying

end Cli

end CeIam
