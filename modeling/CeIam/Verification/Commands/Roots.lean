import CeIam.Model.Commands
import CeIam.Verification.Grant.Symbolic
import CeIam.Verification.Roots.Retirement

/-! # Root commands

Whatever root commands overlap, the file holds roots that commands which succeeded have added, and
a root still begins when the command that added it said. -/

namespace CeIam

namespace Cli

open Roots

/-! ## Windows -/

theorem toNat_saturatingAdd (a b : UInt64) :
    (saturatingAdd a b).toNat = min (a.toNat + b.toNat) (2 ^ 64 - 1) := by
  rw [saturatingAdd]
  split
  · next h =>
      rw [UInt64.toNat_add, Nat.mod_eq_of_lt h]
      omega
  · next h =>
      rw [UInt64.toNat_ofNat']
      omega

theorem le_saturatingAdd (a b : UInt64) : a ≤ saturatingAdd a b := by
  have ha := a.toNat_lt
  rw [UInt64.le_iff_toNat_le, toNat_saturatingAdd]
  omega

theorem saturatingAdd_ne_zero (a : UInt64) {b : UInt64} (h : b ≠ 0) : saturatingAdd a b ≠ 0 := by
  intro hzero
  have hsum := congrArg UInt64.toNat hzero
  have hb : b.toNat ≠ 0 := fun h' => h (UInt64.toNat_inj.mp h')
  rw [toNat_saturatingAdd, UInt64.toNat_zero] at hsum
  omega

/-- A window has a beginning and an end exactly when it was given them in seconds, and it does not
close before it opens. -/
theorem rootWindow_spec (now validIn validFor : UInt64) :
    ((rootWindow now validIn validFor).1 = 0 ↔ validIn = 0) ∧
      ((rootWindow now validIn validFor).2 = 0 ↔ validFor = 0) ∧
      emptyWindow (rootWindow now validIn validFor).1 (rootWindow now validIn validFor).2 =
        false := by
  simp only [rootWindow]
  refine ⟨?_, ?_, ?_⟩
  · split
    · next h => exact iff_of_true rfl h
    · next h => exact iff_of_false (saturatingAdd_ne_zero now h) h
  · split
    · next h => exact iff_of_true rfl h
    · next h => exact iff_of_false (saturatingAdd_ne_zero _ h) h
  · generalize (if validIn = 0 then 0 else saturatingAdd now validIn) = notBefore
    rw [emptyWindow, decide_eq_false_iff_not]
    rintro ⟨hbegins, hends, hlt⟩
    rw [if_neg hbegins] at hends hlt
    split at hlt
    · next h => exact hends (if_pos h)
    · exact absurd (le_saturatingAdd notBefore validFor) (UInt64.not_le.mpr hlt)

/-! ## A root command as a process -/

/-- What a command that succeeds does to the roots when it writes them. -/
inductive RootStep : RootJob → OrdMap String RootEntry → OrdMap String RootEntry → Prop where
  | add {key : Principal} {label : Option String} {notBefore notAfter : UInt64}
      {written : Except String Unit} {r : Roots} (check : r.check key notBefore notAfter = .ok ()) :
      RootStep (.add key label notBefore notAfter written) r.roots
        (r.roots.insert key.hex ⟨key, label, notBefore, notAfter⟩)
  | retire {key : Principal} {time : UInt64} {written : Except String Unit}
      {m : OrdMap String RootEntry} {e : RootEntry} (found : m[key.hex]? = some e) :
      RootStep (.retire key time written) m (m.insert key.hex { e with notAfter := time })
  | rm {key : Principal} {written : Except String Unit} {m : OrdMap String RootEntry} :
      RootStep (.rm key written) m (m.erase key.hex)

theorem saveRoots_uniform {r : Roots} {path : String} (hpath : r.path = some path)
    (outcome : Except String Unit) :
    (∃ e, ∀ disk, r.save outcome disk = (.error e, disk)) ∨
      ∀ disk, r.save outcome disk = (.ok (), some (rootsJson r.roots).pretty) := by
  simp only [save, hpath]
  cases outcome with
  | error e => exact .inl ⟨_, fun _ => rfl⟩
  | ok u => exact .inr fun _ => rfl

/-- A job on open roots fails, or leaves the roots alone, or changes and writes them. -/
theorem rootJob_run (job : RootJob) {r : Roots} {path : String} (hpath : r.path = some path) :
    (∃ e b, ∀ disk, job.run r disk = (.error e, b, disk)) ∨
    (∃ a b, ∀ disk, job.run r disk = (.ok a, b, disk)) ∨
    ∃ a b m, RootStep job r.roots m ∧
      ∀ disk, job.run r disk = (.ok a, b, some (rootsJson m).pretty) := by
  cases job with
  | add key label notBefore notAfter written =>
      simp only [RootJob.run, Roots.add]
      cases hcheck : r.check key notBefore notAfter with
      | error e => exact .inl ⟨_, _, fun _ => rfl⟩
      | ok u =>
          rcases saveRoots_uniform (r := { r with
            roots := r.roots.insert key.hex ⟨key, label, notBefore, notAfter⟩ }) hpath written with
            ⟨e, he⟩ | hok
          · exact .inl ⟨e.display, _, fun disk => by simp only [he]; rfl⟩
          · exact .inr (.inr ⟨_, _, _, .add hcheck, fun disk => by simp only [hok]; rfl⟩)
  | list => exact .inr (.inl ⟨_, r, fun _ => rfl⟩)
  | retire key time written =>
      simp only [RootJob.run, Roots.retire]
      cases hget : r.roots[key.hex]? with
      | none => exact .inr (.inl ⟨_, _, fun _ => rfl⟩)
      | some e =>
          rcases saveRoots_uniform (r := { r with
            roots := r.roots.insert key.hex { e with notAfter := time } }) hpath written with
            ⟨e', he⟩ | hok
          · exact .inl ⟨e'.display, _, fun disk => by simp only [he]; rfl⟩
          · exact .inr (.inr ⟨_, _, _, .retire hget, fun disk => by simp only [hok]; rfl⟩)
  | rm key written =>
      simp only [RootJob.run, Roots.remove]
      split
      · rcases saveRoots_uniform (r := { r with roots := r.roots.erase key.hex }) hpath written with
          ⟨e, he⟩ | hok
        · exact .inl ⟨e.display, _, fun disk => by simp only [he]; rfl⟩
        · exact .inr (.inr ⟨_, _, _, .rm, fun disk => by simp only [hok]; rfl⟩)
      · exact .inr (.inl ⟨_, _, fun _ => rfl⟩)

/-- The job that a root command has with the roots. -/
def storeJob (cc : CeCap) (service : Iam) (env : CommandEnv cc.Identity) (cmd : RootCmd) :
    Except String RootJob :=
  (rootJob cc service env cmd).bind fun job =>
    match job with
    | .inl job => .ok job
    | .inr _ => .error "a grant is reissued without the roots"

/-- The roots of one data directory, as root commands share them. -/
def rootFiled (parse : String → Except String (OrdMap String RootEntry)) (dir : String) :
    Filed RootJob String Roots RootReply Disk :=
  .ofRun (fun _ => openRoots parse (.ok dir)) RootJob.run

variable {cc : CeCap} {service : Iam} {parse : String → Except String (OrdMap String RootEntry)}
  {dir : String} {m : OrdMap String RootEntry} {disk : Disk} {env : CommandEnv cc.Identity}

/-- Roots that are opened have a path, and are what the file holds. -/
theorem openRoots_eq (reads : ∀ roots, parse (rootsJson roots).pretty = .ok roots)
    (h : Keeps ∅ rootsJson m disk) {r : Roots} (hopen : openRoots parse (.ok dir) disk = .ok r) :
    r = ⟨m, some (dir ++ "/roots.json")⟩ := by
  obtain ⟨roots, hload, hr⟩ := Outcome.bind_eq_ok.mp (Outcome.mapError_eq_ok.mp hopen)
  cases hr
  rw [eq_of_load_keeps reads h hload]

theorem path_of_openRoots {r : Roots} (hopen : openRoots parse (.ok dir) disk = .ok r) :
    r.path = some (dir ++ "/roots.json") := by
  obtain ⟨roots, -, hr⟩ := Outcome.bind_eq_ok.mp (Outcome.mapError_eq_ok.mp hopen)
  cases hr
  rfl

/-- A file within the bound is opened with the roots that it holds. -/
theorem openRoots_of_size (reads : ∀ roots, parse (rootsJson roots).pretty = .ok roots)
    (dir : String) (h : (rootsJson m).pretty.utf8ByteSize ≤ maxStoreBytes) :
    openRoots parse (.ok dir) (some (rootsJson m).pretty) =
      .ok ⟨m, some (dir ++ "/roots.json")⟩ := by
  have hload : loadJsonOrDefault ∅ parse (dir ++ "/roots.json") (some (rootsJson m).pretty) =
      .ok m := by
    simp only [loadJsonOrDefault, reads]
    rw [if_neg (Nat.not_lt.mpr h)]
    rfl
  exact Outcome.bind_eq_ok.mpr ⟨dir, rfl, Outcome.mapError_eq_ok.mpr
    (Outcome.bind_eq_ok.mpr ⟨m, hload, rfl⟩)⟩

theorem uniform_rootJob (job : RootJob) {r : Roots} {path : String} (hpath : r.path = some path) :
    Filed.Uniform RootJob.run job r := by
  rcases rootJob_run job hpath with ⟨e, b, he⟩ | ⟨a, b, ha⟩ | ⟨a, b, m, -, ha⟩
  · exact .inl ⟨e, b, he⟩
  · exact .inr (.inl ⟨a, b, ha⟩)
  · exact .inr (.inr ⟨a, b, _, ha⟩)

/-! ### The jobs of the commands -/

/-- The command adds this root, with the window that its seconds stand for. -/
def AddsRoot (env : CommandEnv cc.Identity) (cmd : RootCmd) (key : Principal)
    (label : Option String) (notBefore notAfter : UInt64) : Prop :=
  ∃ text validIn validFor, cmd = .add text label validIn validFor ∧
    Principal.parse text = .ok key ∧ rootWindow env.now validIn validFor = (notBefore, notAfter)

/-- The command retires this root at this time. -/
def RetiresRoot (env : CommandEnv cc.Identity) (cmd : RootCmd) (key : Principal) (time : UInt64) :
    Prop :=
  ∃ text inSecs, cmd = .retire text inSecs ∧ Principal.parse text = .ok key ∧
    saturatingAdd env.now inSecs = time

theorem rootJob_inr {cmd : RootCmd} {grant : Grant}
    (h : rootJob cc service env cmd = .ok (.inr grant)) :
    ∃ token nonce, cmd = .reissue token nonce := by
  cases cmd with
  | add text label validIn validFor =>
      obtain ⟨key, -, hjob⟩ := Outcome.bind_eq_ok.mp h
      cases hjob
  | list => cases h
  | retire text inSecs =>
      obtain ⟨key, -, hjob⟩ := Outcome.bind_eq_ok.mp h
      cases hjob
  | rm text =>
      obtain ⟨key, -, hjob⟩ := Outcome.bind_eq_ok.mp h
      cases hjob
  | reissue token nonce => exact ⟨token, nonce, rfl⟩

theorem storeJob_eq_ok {cmd : RootCmd} {job : RootJob} :
    storeJob cc service env cmd = .ok job ↔ rootJob cc service env cmd = .ok (.inl job) := by
  rw [storeJob]
  cases rootJob cc service env cmd with
  | error e => simp [Except.bind]
  | ok j => cases j <;> simp [Except.bind]

/-- The job of a command adds a root, lists them, retires one or removes one. -/
theorem storeJob_cases {cmd : RootCmd} {job : RootJob} (h : storeJob cc service env cmd = .ok job) :
    (∃ key label notBefore notAfter, job = .add key label notBefore notAfter env.written ∧
        AddsRoot env cmd key label notBefore notAfter) ∨
      job = .list ∨
      (∃ key time, job = .retire key time env.written ∧ RetiresRoot env cmd key time) ∨
      ∃ key, job = .rm key env.written := by
  have hjob := storeJob_eq_ok.mp h
  cases cmd with
  | add text label validIn validFor =>
      obtain ⟨key, hkey, hlast⟩ := Outcome.bind_eq_ok.mp hjob
      cases hlast
      exact .inl ⟨key, label, _, _, rfl, text, validIn, validFor, rfl,
        Outcome.mapError_eq_ok.mp hkey, rfl⟩
  | list =>
      cases hjob
      exact .inr (.inl rfl)
  | retire text inSecs =>
      obtain ⟨key, hkey, hlast⟩ := Outcome.bind_eq_ok.mp hjob
      cases hlast
      exact .inr (.inr (.inl ⟨key, _, rfl, text, inSecs, rfl, Outcome.mapError_eq_ok.mp hkey, rfl⟩))
  | rm text =>
      obtain ⟨key, -, hlast⟩ := Outcome.bind_eq_ok.mp hjob
      cases hlast
      exact .inr (.inr (.inr ⟨key, rfl⟩))
  | reissue token nonce =>
      obtain ⟨identity, -, hrest⟩ := Outcome.bind_eq_ok.mp hjob
      obtain ⟨grant, -, hmore⟩ := Outcome.bind_eq_ok.mp hrest
      obtain ⟨reissued, -, hlast⟩ := Outcome.bind_eq_ok.mp hmore
      cases hlast

/-- A root command that reissues no grant is a process on the roots of its data directory. -/
theorem cmdRoot_eq (hdir : env.iamDir = .ok dir) {cmd : RootCmd}
    (hcmd : ∀ token nonce, cmd ≠ .reissue token nonce) (disk : Disk) :
    cmdRoot cc service parse env cmd disk =
      (rootFiled parse dir).exec (storeJob cc service env cmd) disk := by
  rw [rootFiled, ← Filed.command_eq_exec fun k _ r hopen => uniform_rootJob k
    (path_of_openRoots hopen), cmdRoot, hdir, storeJob]
  cases hjob : rootJob cc service env cmd with
  | error e => rfl
  | ok job =>
      cases job with
      | inl job =>
          simp only [Filed.command, Except.bind]
          cases openRoots parse (.ok dir) disk <;> rfl
      | inr grant =>
          obtain ⟨token, nonce, hreissue⟩ := rootJob_inr hjob
          exact absurd hreissue (hcmd token nonce)

/-- A process leaves the file as it is, or changes the roots that the file holds. -/
theorem rootFiled_step (reads : ∀ roots, parse (rootsJson roots).pretty = .ok roots)
    (job : Except String RootJob) (h : Keeps ∅ rootsJson m disk) :
    ((rootFiled parse dir).exec job disk).2 = disk ∨
      ∃ k n, job = .ok k ∧ RootStep k m n ∧
        ((rootFiled parse dir).exec job disk).2 = some (rootsJson n).pretty := by
  rw [rootFiled, ← Filed.command_eq_exec fun k _ r hopen => uniform_rootJob k
    (path_of_openRoots hopen)]
  cases job with
  | error e => exact .inl rfl
  | ok k =>
      simp only [Filed.command]
      cases hopen : openRoots parse (.ok dir) disk with
      | error e => exact .inl rfl
      | ok r =>
          have hr := openRoots_eq reads h hopen
          rcases rootJob_run k (path_of_openRoots hopen) with
            ⟨e, b, he⟩ | ⟨a, b, ha⟩ | ⟨a, b, n, hstep, ha⟩
          · simp only [he]
            exact .inl trivial
          · simp only [ha]
            exact .inl trivial
          · simp only [ha]
            rw [hr] at hstep
            exact .inr ⟨k, n, rfl, hstep, rfl⟩

/-! ## Root commands that overlap -/

/-- The roots are within their bound, each under the key it names. -/
structure RootsSound (m : OrdMap String RootEntry) : Prop where
  size : m.size ≤ maxRoots
  keyed : ∀ (k : String) (e : RootEntry), m[k]? = some e → k = e.key.hex

theorem RootsSound.step {k : RootJob} {n : OrdMap String RootEntry} (h : RootsSound m)
    (hstep : RootStep k m n) : RootsSound n := by
  cases hstep with
  | @add key label notBefore notAfter written r hcheck =>
      obtain ⟨-, hroom⟩ := check_eq_ok.mp hcheck
      refine ⟨?_, ?_⟩
      · rw [Std.ExtTreeMap.size_insert]
        have hsize := h.size
        split
        · exact hsize
        · next hnew => exact Nat.lt_of_not_le fun hfull => hroom ⟨hnew, hfull⟩
      · intro k f hf
        rw [OrdMap.get_insert] at hf
        split at hf
        · next heq =>
            cases hf
            exact heq.symm
        · exact h.keyed k f hf
  | @retire key time written _ e he =>
      have hmem : key.hex ∈ m := OrdMap.mem_iff_exists.mpr ⟨e, he⟩
      refine ⟨?_, ?_⟩
      · rw [Std.ExtTreeMap.size_insert, if_pos (Std.ExtTreeMap.mem_iff_contains.mp hmem)]
        exact h.size
      · intro k f hf
        rw [OrdMap.get_insert] at hf
        split at hf
        · next heq =>
            cases hf
            exact heq.symm.trans (h.keyed key.hex e he)
        · exact h.keyed k f hf
  | rm =>
      refine ⟨Std.ExtTreeMap.size_erase_le.trans h.size, ?_⟩
      intro k f hf
      rw [OrdMap.get_erase] at hf
      split at hf
      · cases hf
      · exact h.keyed k f hf

section Overlap

variable {κ : Type} [DecidableEq κ] (env : κ → CommandEnv cc.Identity) (cmd : κ → RootCmd)

/-- The roots file and the processes of some root commands, after some turns of theirs on a data
directory without roots. -/
def rootSharing (service : Iam) (parse : String → Except String (OrdMap String RootEntry))
    (dir : String) (schedule : List κ) : Sharing κ RootJob String Roots RootReply Disk :=
  (rootFiled parse dir).sharing (fun i => storeJob cc service (env i) (cmd i)) schedule none

/-- A root that one of the commands has added, and whose end it or a retirement has set. -/
def Traced (is : List κ) (e : RootEntry) : Prop :=
  ∃ i ∈ is, ∃ notAfter, AddsRoot (env i) (cmd i) e.key e.label e.notBefore notAfter ∧
    (e.notAfter = notAfter ∨ ∃ j ∈ is, RetiresRoot (env j) (cmd j) e.key e.notAfter)

/-- Sound roots, each traced to the commands, are in the file. -/
def RootsAccounted (is : List κ) (disk : Disk) : Prop :=
  ∃ m, Keeps ∅ rootsJson m disk ∧ RootsSound m ∧
    ∀ (k : String) (e : RootEntry), m[k]? = some e → Traced env cmd is e

variable {env cmd}

omit [DecidableEq κ] in
theorem Traced.mono {is js : List κ} (hsub : ∀ i ∈ is, i ∈ js) {e : RootEntry}
    (h : Traced env cmd is e) : Traced env cmd js e := by
  obtain ⟨i, hi, notAfter, hadds, hend⟩ := h
  refine ⟨i, hsub i hi, notAfter, hadds, hend.imp_right ?_⟩
  rintro ⟨j, hj, hretires⟩
  exact ⟨j, hsub j hj, hretires⟩

omit [DecidableEq κ] in
theorem RootsAccounted.step (reads : ∀ roots, parse (rootsJson roots).pretty = .ok roots)
    {is : List κ} (h : RootsAccounted env cmd is disk) (i : κ) :
    RootsAccounted env cmd (is ++ [i])
      ((rootFiled parse dir).exec (storeJob cc service (env i) (cmd i)) disk).2 := by
  obtain ⟨m, hm, hsound, htraced⟩ := h
  have hbefore : ∀ (k : String) (e : RootEntry), m[k]? = some e → Traced env cmd (is ++ [i]) e :=
    fun k e he => (htraced k e he).mono fun j hj => List.mem_append_left _ hj
  have hi : i ∈ is ++ [i] := List.mem_append_right _ List.mem_cons_self
  rcases rootFiled_step reads (storeJob cc service (env i) (cmd i)) hm with
    hsame | ⟨job, n, hjob, hstep, hfile⟩
  · rw [hsame]
    exact ⟨m, hm, hsound, hbefore⟩
  · refine ⟨n, .inr hfile, hsound.step hstep, ?_⟩
    intro k f hf
    rcases storeJob_cases hjob with ⟨key, label, notBefore, notAfter, rfl, hadds⟩ | rfl |
      ⟨key, time, rfl, hretires⟩ | ⟨key, rfl⟩
    · cases hstep
      rw [OrdMap.get_insert] at hf
      split at hf
      · cases hf
        exact ⟨i, hi, notAfter, hadds, .inl rfl⟩
      · exact hbefore k f hf
    · cases hstep
    · cases hstep with
      | @retire _ _ _ _ e he =>
          rw [OrdMap.get_insert] at hf
          split at hf
          · cases hf
            obtain ⟨j, hj, notAfter, hadds, -⟩ := hbefore key.hex e he
            have hkey : key = e.key := Principal.hex_injective (hsound.keyed key.hex e he)
            exact ⟨j, hj, notAfter, hadds, .inr ⟨i, hi, hkey ▸ hretires⟩⟩
          · exact hbefore k f hf
    · cases hstep
      rw [OrdMap.get_erase] at hf
      split at hf
      · cases hf
      · exact hbefore k f hf

variable (service env cmd) in
/-- Whatever turns overlapping root commands take, the file holds at most as many roots as there may
be, each under its own key. Commands that succeeded have added each with its label and the beginning
of its window, and have set the end of its window, in the addition or in a retirement. Every answer
is the one that the command gives alone on such a file. -/
theorem overlapping_roots_traced (reads : ∀ roots, parse (rootsJson roots).pretty = .ok roots)
    (hdir : ∀ i, (env i).iamDir = .ok dir) (hcmd : ∀ i token nonce, cmd i ≠ .reissue token nonce)
    (schedule : List κ) :
    (∃ succeeded,
      RootsAccounted env cmd succeeded (rootSharing env cmd service parse dir schedule).file ∧
      ∀ i ∈ succeeded, ∃ a,
        (rootSharing env cmd service parse dir schedule).phase i = .answered (.ok a)) ∧
    ∀ i r, (rootSharing env cmd service parse dir schedule).phase i = .answered r →
      ∃ succeeded disk, RootsAccounted env cmd succeeded disk ∧
        (∀ j ∈ succeeded, ∃ a,
          (rootSharing env cmd service parse dir schedule).phase j = .answered (.ok a)) ∧
        r = (cmdRoot cc service parse (env i) (cmd i) disk).1 := by
  have hempty : RootsAccounted env cmd [] none :=
    ⟨∅, .inl ⟨rfl, rfl⟩, ⟨by simp, fun k e he => by simp at he⟩, fun k e he => by simp at he⟩
  have hstep : ∀ is i disk, RootsAccounted env cmd is disk → RootsAccounted env cmd (is ++ [i])
      ((rootFiled parse dir).alone (fun i => storeJob cc service (env i) (cmd i)) i disk).2 :=
    fun is i disk h => h.step reads i
  have halone : (rootFiled parse dir).alone (fun i => storeJob cc service (env i) (cmd i)) =
      fun i => cmdRoot cc service parse (env i) (cmd i) := by
    funext i disk
    exact (cmdRoot_eq (hdir i) (hcmd i) disk).symm
  have hhistory := Filed.sharing_history hstep hempty schedule
  rw [halone] at hhistory
  exact hhistory

/-! ### Two roots at once -/

theorem RootEntry_toJson_injective : Function.Injective RootEntry.toJson := by
  intro a b h
  have field : ∀ k, a.toJson.field k = b.toJson.field k := fun k => by rw [h]
  simp only [RootEntry.toJson, Json.field_obj, List.lookup_append, lookup_optionalField,
    Json.lookup_cons] at field
  have h1 : a.key = b.key := by simpa using field "key"
  have h2 := Option.map_injective (fun _ _ => Json.str.inj) (by simpa using field "label")
  have h3 : a.notBefore = b.notBefore := by
    simpa [UInt64.toNat_inj] using field "not_before"
  have h4 : a.notAfter = b.notAfter := by simpa [UInt64.toNat_inj] using field "not_after"
  cases a
  cases b
  simp_all

theorem rootsJson_injective : Function.Injective rootsJson := by
  intro m n h
  simp only [rootsJson, Json.obj.injEq, List.cons.injEq, Prod.mk.injEq, true_and, and_true] at h
  exact OrdMap.map_toList_injective RootEntry_toJson_injective h

/-- Reads back exactly the roots that were printed. -/
noncomputable def readRoots : String → Except String (OrdMap String RootEntry) :=
  Outcome.readBack fun roots => (rootsJson roots).pretty

theorem readRoots_pretty (roots : OrdMap String RootEntry) :
    readRoots (rootsJson roots).pretty = .ok roots :=
  Outcome.readBack_print (f := fun roots : OrdMap String RootEntry => (rootsJson roots).pretty)
    (fun _ _ h => rootsJson_injective (Json.pretty_injective h)) roots

/-- Two processes that add a root, and one that retires a root. -/
inductive RootProcess where
  | main
  | backup
  | retirement
deriving DecidableEq

def rootEnv (_ : RootProcess) : CommandEnv Iam.symbolic.Identity :=
  ⟨1000, .error "no key", .ok "iam", .ok "", .ok ()⟩

def mainRoot : Principal := ⟨.filled 1⟩

def backupRoot : Principal := ⟨.filled 2⟩

/-- The main root is accepted for an hour, and later for a minute; the other one is accepted from a
minute on. -/
def rootCommand : RootProcess → RootCmd
  | .main => .add mainRoot.hex (some "main") 0 3600
  | .backup => .add backupRoot.hex none 60 0
  | .retirement => .retire mainRoot.hex 60

def rootJobOf : RootProcess → RootJob
  | .main => .add mainRoot (some "main") 0 4600 (.ok ())
  | .backup => .add backupRoot none 1060 0 (.ok ())
  | .retirement => .retire mainRoot 1060 (.ok ())

theorem storeJob_rootCommand (i : RootProcess) :
    storeJob Iam.symbolic .default (rootEnv i) (rootCommand i) = .ok (rootJobOf i) := by
  cases i <;> simp only [storeJob, rootJob, rootCommand, parsePrincipal, Principal.parse_hex] <;> rfl

/-- The roots with only the main root, accepted until a time. -/
def mainUntil (notAfter : UInt64) : OrdMap String RootEntry :=
  (∅ : OrdMap String RootEntry).insert mainRoot.hex ⟨mainRoot, some "main", 0, notAfter⟩

/-- Both additions open the roots before either has written; the main root is written last, and
retired after that. -/
noncomputable def rootsSharing : Sharing RootProcess RootJob String Roots RootReply Disk :=
  rootSharing rootEnv rootCommand .default readRoots "iam"
    [.main, .backup, .backup, .main, .retirement, .retirement]

theorem mainUntil_size : (rootsJson (mainUntil 4600)).pretty.utf8ByteSize ≤ maxStoreBytes := by
  rw [Json.utf8ByteSize_pretty]
  decide +kernel

theorem act_add {key : Principal} {label : Option String} {notBefore notAfter : UInt64}
    {path : String} (hcheck : Roots.check key notBefore notAfter ⟨∅, some path⟩ = .ok ()) :
    (rootFiled parse dir).act (.add key label notBefore notAfter (.ok ())) ⟨∅, some path⟩ =
      .ok (.added key notBefore notAfter, some (some (rootsJson ((∅ : OrdMap String RootEntry).insert
        key.hex ⟨key, label, notBefore, notAfter⟩)).pretty)) := by
  simp only [rootFiled, Filed.ofRun, RootJob.run, Roots.add, hcheck]
  rfl

theorem act_retire {path : String} :
    (rootFiled parse dir).act (rootJobOf .retirement) ⟨mainUntil 4600, some path⟩ =
      .ok (.retiring mainRoot 1060 true, some (some (rootsJson (mainUntil 1060)).pretty)) := by
  have hget : (mainUntil 4600)[mainRoot.hex]? = some ⟨mainRoot, some "main", 0, 4600⟩ := by
    simp [mainUntil]
  have hmain : (mainUntil 4600).insert mainRoot.hex ⟨mainRoot, some "main", 0, 1060⟩ =
      mainUntil 1060 := by
    refine OrdMap.ext fun k => ?_
    simp only [mainUntil, OrdMap.get_insert]
    split <;> rfl
  simp only [rootFiled, Filed.ofRun, rootJobOf, RootJob.run, Roots.retire, hget, hmain]
  rfl

theorem rootsSharing_eq :
    rootsSharing.file = some (rootsJson (mainUntil 1060)).pretty ∧
      rootsSharing.phase .backup = .answered (.ok (.added backupRoot 1060 0)) ∧
      rootsSharing.phase .retirement = .answered (.ok (.retiring mainRoot 1060 true)) := by
  let p := rootFiled readRoots "iam"
  let job : RootProcess → Except String RootJob := fun i => .ok (rootJobOf i)
  let opened : Roots := ⟨∅, some ("iam" ++ "/roots.json")⟩
  have hloaded : p.sharing job [.main, .backup] none = ⟨none, 0, Function.update (Function.update
      (fun _ => .waiting) .main (.holding (rootJobOf .main, opened) 0)) .backup
      (.holding (rootJobOf .backup, opened) 0)⟩ := rfl
  have hlost := p.sharing_concat job [.main, .backup] .backup none
  rw [hloaded, Filed.turn_writes rfl (act_add rfl)] at hlost
  have hkept := p.sharing_concat job ([.main, .backup] ++ [.backup]) .main none
  rw [hlost, Filed.turn_writes rfl (act_add rfl)] at hkept
  -- Only now does the third process open the roots.
  have hwaits : (p.sharing job ([.main, .backup] ++ [.backup] ++ [.main]) none).phase
      .retirement = .waiting := by
    rw [hkept]
    rfl
  have hfetch : p.fetch (job .retirement)
      (p.sharing job ([.main, .backup] ++ [.backup] ++ [.main]) none).file =
        .ok (rootJobOf .retirement, ⟨mainUntil 4600, some ("iam" ++ "/roots.json")⟩) := by
    rw [hkept]
    exact (Filed.fetch_eq_ok _).mpr
      ⟨rfl, openRoots_of_size readRoots_pretty "iam" mainUntil_size⟩
  have hopened := p.sharing_concat job ([.main, .backup] ++ [.backup] ++ [.main]) .retirement none
  rw [Filed.turn_loads hwaits hfetch, hkept] at hopened
  have hend := p.sharing_concat job ([.main, .backup] ++ [.backup] ++ [.main] ++ [.retirement])
    .retirement none
  rw [hopened, Filed.turn_writes rfl act_retire] at hend
  have hjobs : rootsSharing = p.sharing job
      [.main, .backup, .backup, .main, .retirement, .retirement] none := by
    rw [rootsSharing, rootSharing, funext storeJob_rootCommand]
  rw [hjobs.trans hend]
  exact ⟨rfl, rfl, rfl⟩

/-- Both additions and the retirement succeed, and the file has the main root with its end. -/
theorem overlapping_roots_traced_two :
    rootsSharing.file = some (rootsJson (mainUntil 1060)).pretty ∧
      rootsSharing.phase .backup = .answered (.ok (.added backupRoot 1060 0)) ∧
      rootsSharing.phase .retirement = .answered (.ok (.retiring mainRoot 1060 true)) ∧
      (∃ succeeded, RootsAccounted rootEnv rootCommand succeeded rootsSharing.file ∧
        ∀ i ∈ succeeded, ∃ a, rootsSharing.phase i = .answered (.ok a)) ∧
      ∃ succeeded disk, RootsAccounted rootEnv rootCommand succeeded disk ∧
        (∀ i ∈ succeeded, ∃ a, rootsSharing.phase i = .answered (.ok a)) ∧
        .ok (.retiring mainRoot 1060 true) = (cmdRoot Iam.symbolic .default readRoots
          (rootEnv .retirement) (rootCommand .retirement) disk).1 := by
  have hcmd : ∀ i token nonce, rootCommand i ≠ .reissue token nonce := by
    intro i token nonce
    cases i <;> simp [rootCommand]
  obtain ⟨hfile, hbackup, hretirement⟩ := rootsSharing_eq
  refine ⟨hfile, hbackup, hretirement, ?_, ?_⟩
  · rw [rootsSharing]
    exact (overlapping_roots_traced .default rootEnv rootCommand readRoots_pretty (fun _ => rfl)
      hcmd _).1
  · rw [rootsSharing] at hretirement ⊢
    exact (overlapping_roots_traced .default rootEnv rootCommand readRoots_pretty (fun _ => rfl)
      hcmd _).2 .retirement _ hretirement

end Overlap

end Cli

end CeIam
