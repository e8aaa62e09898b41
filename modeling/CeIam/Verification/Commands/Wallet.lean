import CeIam.Model.Commands
import CeIam.Verification.Store.FailedSaves

/-! # Wallet commands

The wallet changes its entries before it saves them, but a command that fails ends with its
process. Whatever commands overlap, the file holds entries that commands which succeeded have
added, within the bounds of the wallet. -/

namespace CeIam

namespace Cli

open WalletStore

variable {cc : CeCap} {service : Iam}

/-- What a command that succeeds does to the entries when it writes them. -/
inductive WalletStep (cc : CeCap) (service : Iam) :
    WalletJob → OrdMap String WalletEntry → OrdMap String WalletEntry → Prop where
  | add {label token : String} {note : Option String} {now : UInt64} {written : Except String Unit}
      {w : WalletStore} (check : w.check cc service label token = .ok ()) :
      WalletStep cc service (.add label token note now written) w.entries
        (w.entries.insert label ⟨label, token, now, note⟩)
  | rm {label : String} {written : Except String Unit} {m : OrdMap String WalletEntry} :
      WalletStep cc service (.rm label written) m (m.erase label)

/-- The write of an open wallet fails, or puts the entries into the file. -/
theorem save_uniform {w : WalletStore} {path : String} (hpath : w.path = some path)
    (outcome : Except String Unit) :
    (∃ e, ∀ disk, w.save outcome disk = (.error e, disk)) ∨
      ∀ disk, w.save outcome disk = (.ok (), some (entriesJson w.entries).pretty) := by
  simp only [save, hpath]
  cases outcome with
  | error e => exact .inl ⟨_, fun _ => rfl⟩
  | ok u => exact .inr fun _ => rfl

variable (cc service) in
/-- A job on an open wallet fails, or leaves the entries alone, or changes and writes them. -/
theorem walletJob_run (job : WalletJob) {w : WalletStore} {path : String}
    (hpath : w.path = some path) :
    (∃ e b, ∀ disk, job.run cc service w disk = (.error e, b, disk)) ∨
    (∃ r b, ∀ disk, job.run cc service w disk = (.ok r, b, disk)) ∨
    ∃ r b m, WalletStep cc service job w.entries m ∧
      ∀ disk, job.run cc service w disk = (.ok r, b, some (entriesJson m).pretty) := by
  cases job with
  | add label token note now written =>
      simp only [WalletJob.run, WalletStore.add]
      cases hcheck : w.check cc service label token with
      | error e => exact .inl ⟨_, _, fun _ => rfl⟩
      | ok u =>
          rcases save_uniform (w := { w with
            entries := w.entries.insert label ⟨label, token, now, note⟩ }) hpath written with
            ⟨e, he⟩ | hok
          · exact .inl ⟨e.display, _, fun disk => by simp only [he]; rfl⟩
          · exact .inr (.inr ⟨_, _, _, .add hcheck, fun disk => by simp only [hok]; rfl⟩)
  | list => exact .inr (.inl ⟨_, w, fun _ => rfl⟩)
  | «show» label =>
      simp only [WalletJob.run]
      cases hshown : (do
          let entry ← Outcome.require ("no grant labeled '" ++ label ++ "'") (w.get label)
          let scope ← (Iam.inspect cc service entry.token).mapError IamError.display
          return WalletReply.shown entry scope : Except String WalletReply) with
      | error e => exact .inl ⟨e, w, fun _ => rfl⟩
      | ok r => exact .inr (.inl ⟨r, w, fun _ => rfl⟩)
  | rm label written =>
      simp only [WalletJob.run, WalletStore.remove]
      split
      · rcases save_uniform (w := { w with entries := w.entries.erase label }) hpath written with
          ⟨e, he⟩ | hok
        · exact .inl ⟨e.display, _, fun disk => by simp only [he]; rfl⟩
        · exact .inr (.inr ⟨_, _, _, .rm, fun disk => by simp only [hok]; rfl⟩)
      · exact .inr (.inl ⟨_, _, fun _ => rfl⟩)

/-! ## A wallet command as a process -/

/-- The wallet of one data directory, as wallet commands share it. -/
def walletFiled (cc : CeCap) (service : Iam)
    (parse : String → Except String (OrdMap String WalletEntry)) (dir : String) :
    Filed WalletJob String WalletStore WalletReply Disk :=
  .ofRun (fun _ => openWallet parse (.ok dir)) (WalletJob.run cc service)

variable {parse : String → Except String (OrdMap String WalletEntry)} {dir : String}
  {m : OrdMap String WalletEntry} {disk : Disk} {ι : Type} {env : CommandEnv ι}

/-- A wallet that is opened has a path, and what the file holds. -/
theorem openWallet_eq (reads : ∀ entries, parse (entriesJson entries).pretty = .ok entries)
    (h : Keeps ∅ entriesJson m disk) {w : WalletStore}
    (hopen : openWallet parse (.ok dir) disk = .ok w) :
    w = ⟨m, some (dir ++ "/wallet.json")⟩ := by
  obtain ⟨entries, hload, hw⟩ := Outcome.bind_eq_ok.mp (Outcome.mapError_eq_ok.mp hopen)
  cases hw
  rw [eq_of_load_keeps reads h hload]

theorem path_of_open {w : WalletStore} (hopen : openWallet parse (.ok dir) disk = .ok w) :
    w.path = some (dir ++ "/wallet.json") := by
  obtain ⟨entries, -, hw⟩ := Outcome.bind_eq_ok.mp (Outcome.mapError_eq_ok.mp hopen)
  cases hw
  rfl

/-- A file within the bound is opened with the entries that it holds. -/
theorem openWallet_of_size (reads : ∀ entries, parse (entriesJson entries).pretty = .ok entries)
    (dir : String) (h : (entriesJson m).pretty.utf8ByteSize ≤ maxStoreBytes) :
    openWallet parse (.ok dir) (some (entriesJson m).pretty) =
      .ok ⟨m, some (dir ++ "/wallet.json")⟩ := by
  have hload := (load_keeps_iff reads (by decide) (dir ++ "/wallet.json")
    (.inr rfl : Keeps ∅ entriesJson m _)).mpr h
  exact Outcome.bind_eq_ok.mpr ⟨dir, rfl, Outcome.mapError_eq_ok.mpr
    ((WalletStore.openWallet_iff rfl).mpr hload)⟩

theorem uniform_walletJob (job : WalletJob) {w : WalletStore} {path : String}
    (hpath : w.path = some path) : Filed.Uniform (WalletJob.run cc service) job w := by
  rcases walletJob_run cc service job hpath with
    ⟨e, b, he⟩ | ⟨r, b, hr⟩ | ⟨r, b, m, -, hr⟩
  · exact .inl ⟨e, b, he⟩
  · exact .inr (.inl ⟨r, b, hr⟩)
  · exact .inr (.inr ⟨r, b, _, hr⟩)

/-- A wallet command is a process on the wallet of its data directory. -/
theorem cmdWallet_eq (hdir : env.iamDir = .ok dir) (cmd : WalletCmd) (disk : Disk) :
    cmdWallet cc service parse env cmd disk =
      (walletFiled cc service parse dir).exec (walletJob env cmd) disk := by
  rw [walletFiled, ← Filed.command_eq_exec fun k _ w hopen => uniform_walletJob k
    (path_of_open hopen), cmdWallet, hdir]
  cases walletJob env cmd with
  | error e => rfl
  | ok job =>
      simp only [Filed.command]
      cases openWallet parse (.ok dir) disk <;> rfl

/-- A command leaves the file as it is, or changes the entries that the file holds. -/
theorem cmdWallet_step (reads : ∀ entries, parse (entriesJson entries).pretty = .ok entries)
    (hdir : env.iamDir = .ok dir) (cmd : WalletCmd) (h : Keeps ∅ entriesJson m disk) :
    (cmdWallet cc service parse env cmd disk).2 = disk ∨
      ∃ job n, walletJob env cmd = .ok job ∧ WalletStep cc service job m n ∧
        (cmdWallet cc service parse env cmd disk).2 = some (entriesJson n).pretty := by
  rw [cmdWallet, hdir]
  cases hjob : walletJob env cmd with
  | error e => exact .inl rfl
  | ok job =>
      cases hopen : openWallet parse (.ok dir) disk with
      | error e => exact .inl rfl
      | ok w =>
          have hw := openWallet_eq reads h hopen
          rcases walletJob_run cc service job (path_of_open hopen) with
            ⟨e, b, he⟩ | ⟨r, b, hr⟩ | ⟨r, b, n, hstep, hr⟩
          · simp only [he]
            exact .inl trivial
          · simp only [hr]
            exact .inl trivial
          · simp only [hr]
            rw [hw] at hstep
            exact .inr ⟨job, n, rfl, hstep, rfl⟩

/-! ## Wallet commands that overlap -/

/-- What the entries of a wallet have to be. -/
structure WalletSound (cc : CeCap) (service : Iam) (m : OrdMap String WalletEntry) : Prop where
  size : m.size ≤ maxWalletEntries
  entry : ∀ (label : String) (e : WalletEntry), m[label]? = some e → e.label = label ∧
    Text.trim label ≠ "" ∧ label.utf8ByteSize ≤ maxLabelLen ∧
      e.token.utf8ByteSize ≤ maxTokenBytes ∧ ∃ g, service.decode cc e.token = .ok g

theorem WalletSound.step {job : WalletJob} {n : OrdMap String WalletEntry}
    (h : WalletSound cc service m)
    (hstep : WalletStep cc service job m n) : WalletSound cc service n := by
  cases hstep with
  | add hcheck =>
      obtain ⟨hlabel, hlong, htoken, -, hroom, hdecode⟩ := check_eq_ok.mp hcheck
      refine ⟨Std.ExtTreeMap.size_insert_le.trans hroom, ?_⟩
      intro label e he
      rw [OrdMap.get_insert] at he
      split at he
      · next heq =>
          cases he
          subst heq
          exact ⟨rfl, hlabel, hlong, htoken, hdecode⟩
      · exact h.entry label e he
  | rm =>
      refine ⟨Std.ExtTreeMap.size_erase_le.trans h.size, ?_⟩
      intro label e he
      rw [OrdMap.get_erase] at he
      split at he
      · cases he
      · exact h.entry label e he

section Overlap

variable {κ : Type} [DecidableEq κ] (env : κ → CommandEnv ι) (cmd : κ → WalletCmd)

/-- The wallet file and the processes of some wallet commands, after some turns of theirs on a data
directory without a wallet. -/
def walletSharing (cc : CeCap) (service : Iam)
    (parse : String → Except String (OrdMap String WalletEntry)) (dir : String)
    (schedule : List κ) : Sharing κ WalletJob String WalletStore WalletReply Disk :=
  (walletFiled cc service parse dir).sharing (fun i => walletJob (env i) (cmd i)) schedule none

/-- The entry is what the command adds. -/
def Adds (env : CommandEnv ι) (cmd : WalletCmd) (e : WalletEntry) : Prop :=
  ∃ token, cmd = .add e.label token e.note ∧ readArgOrStdin env token = .ok e.token ∧
    env.now = e.addedAt

theorem adds_of_job {env : CommandEnv ι} {cmd : WalletCmd} {label token : String}
    {note : Option String} {now : UInt64} {written : Except String Unit}
    (h : walletJob env cmd = .ok (.add label token note now written)) :
    Adds env cmd ⟨label, token, now, note⟩ := by
  cases cmd with
  | add label' token' note' =>
      obtain ⟨t, ht, hjob⟩ := Outcome.bind_eq_ok.mp h
      cases hjob
      exact ⟨token', rfl, ht, rfl⟩
  | list => cases h
  | «show» label' => cases h
  | rm label' => cases h

/-- Sound entries, each added by one of the commands, are in the file. -/
def Accounted (cc : CeCap) (service : Iam) (is : List κ) (disk : Disk) : Prop :=
  ∃ m, Keeps ∅ entriesJson m disk ∧ WalletSound cc service m ∧
    ∀ (label : String) (e : WalletEntry), m[label]? = some e → ∃ i ∈ is, Adds (env i) (cmd i) e

variable {env cmd}

omit [DecidableEq κ] in
theorem Accounted.step (reads : ∀ entries, parse (entriesJson entries).pretty = .ok entries)
    (hdir : ∀ i, (env i).iamDir = .ok dir) {is : List κ} (h : Accounted env cmd cc service is disk)
    (i : κ) : Accounted env cmd cc service (is ++ [i])
      (cmdWallet cc service parse (env i) (cmd i) disk).2 := by
  obtain ⟨m, hm, hsound, hadded⟩ := h
  have hbefore : ∀ (label : String) (e : WalletEntry), m[label]? = some e →
      ∃ j ∈ is ++ [i], Adds (env j) (cmd j) e := by
    intro label e he
    obtain ⟨j, hj, hadds⟩ := hadded label e he
    exact ⟨j, List.mem_append_left _ hj, hadds⟩
  rcases cmdWallet_step reads (hdir i) (cmd i) hm with hsame | ⟨job, n, hjob, hstep, hfile⟩
  · rw [hsame]
    exact ⟨m, hm, hsound, hbefore⟩
  · refine ⟨n, .inr hfile, hsound.step hstep, ?_⟩
    intro label e he
    cases hstep with
    | add hcheck =>
        rw [OrdMap.get_insert] at he
        split at he
        · cases he
          exact ⟨i, List.mem_append_right _ List.mem_cons_self, adds_of_job hjob⟩
        · exact hbefore label e he
    | rm =>
        rw [OrdMap.get_erase] at he
        split at he
        · cases he
        · exact hbefore label e he

variable (env cmd) in
/-- Whatever turns overlapping wallet commands take, the file holds entries within the bounds of the
wallet, each stored under its own label with a token that decodes, and each is what a command that
succeeded has added. Every answer is the one that the command gives alone on such a file. -/
theorem overlapping_wallets_sound
    (reads : ∀ entries, parse (entriesJson entries).pretty = .ok entries)
    (hdir : ∀ i, (env i).iamDir = .ok dir) (schedule : List κ) :
    (∃ succeeded,
      Accounted env cmd cc service succeeded
        (walletSharing env cmd cc service parse dir schedule).file ∧
      ∀ i ∈ succeeded, ∃ r,
        (walletSharing env cmd cc service parse dir schedule).phase i = .answered (.ok r)) ∧
    ∀ i r, (walletSharing env cmd cc service parse dir schedule).phase i = .answered r →
      ∃ succeeded disk, Accounted env cmd cc service succeeded disk ∧
        (∀ j ∈ succeeded, ∃ a,
          (walletSharing env cmd cc service parse dir schedule).phase j = .answered (.ok a)) ∧
        r = (cmdWallet cc service parse (env i) (cmd i) disk).1 := by
  have hempty : Accounted env cmd cc service [] none :=
    ⟨∅, .inl ⟨rfl, rfl⟩, ⟨by simp, fun label e he => by simp at he⟩, fun label e he => by simp at he⟩
  have halone : (walletFiled cc service parse dir).alone (fun i => walletJob (env i) (cmd i)) =
      fun i => cmdWallet cc service parse (env i) (cmd i) := by
    funext i disk
    exact (cmdWallet_eq (hdir i) (cmd i) disk).symm
  have hstep : ∀ is i disk, Accounted env cmd cc service is disk →
      Accounted env cmd cc service (is ++ [i])
        ((walletFiled cc service parse dir).alone (fun i => walletJob (env i) (cmd i)) i disk).2 := by
    intro is i disk h
    rw [halone]
    exact h.step reads hdir i
  have hhistory := Filed.sharing_history hstep hempty schedule
  rw [halone] at hhistory
  exact hhistory

/-- Two processes that add a grant, and one that lists the wallet. -/
inductive Holder where
  | disk
  | gpu
  | lister
deriving DecidableEq

def holderEnv (_ : Holder) : CommandEnv Unit := ⟨1000, .error "no key", .ok "iam", .ok "", .ok ()⟩

/-- The owner's grant is added under two labels. -/
noncomputable def holderCmd : Holder → WalletCmd
  | .disk => .add "disk" (some Iam.ownerGrant.token) none
  | .gpu => .add "gpu" (some Iam.ownerGrant.token) none
  | .lister => .list

/-- The additions open the wallet before either has written, and the list comes after both. -/
noncomputable def holderSharing : Sharing Holder WalletJob String WalletStore WalletReply Disk :=
  walletSharing holderEnv holderCmd Iam.symbolic .default readEntries "iam"
    [.disk, .gpu, .gpu, .disk, .lister, .lister]

/-- The job that puts the owner's grant into the wallet. -/
noncomputable def addOwner (label : String) : WalletJob :=
  .add label Iam.ownerGrant.token none 1000 (.ok ())

theorem act_addOwner {label : String} (hlabel : Text.trim label ≠ "")
    (hlong : label.utf8ByteSize ≤ maxLabelLen) (path : String) :
    (walletFiled Iam.symbolic .default readEntries "iam").act (addOwner label) ⟨∅, some path⟩ =
      .ok (.stored label, some (some (entriesJson (ownerHeld label)).pretty)) := by
  have hadd : WalletStore.add _ _ _ _ _ _ _ _ _ = _ := add_ownerGrant ⟨∅, some path⟩ _ rfl
    (check_ownerGrant hlabel hlong (by simp) (by simp [maxWalletEntries])) none
  simp only [walletFiled, Filed.ofRun, addOwner, WalletJob.run, hadd]
  rfl

theorem holderSharing_eq :
    holderSharing.file = some (entriesJson (ownerHeld "disk")).pretty ∧
      holderSharing.phase .disk = .answered (.ok (.stored "disk")) ∧
      holderSharing.phase .gpu = .answered (.ok (.stored "gpu")) ∧
      holderSharing.phase .lister = .answered (.ok (.entries [ownerEntry "disk"])) := by
  let p := walletFiled Iam.symbolic .default readEntries "iam"
  let job := fun i => walletJob (holderEnv i) (holderCmd i)
  let opened : WalletStore := ⟨∅, some ("iam" ++ "/wallet.json")⟩
  have hloaded : p.sharing job [.disk, .gpu] none = ⟨none, 0, Function.update (Function.update
      (fun _ => .waiting) .disk (.holding (addOwner "disk", opened) 0)) .gpu
      (.holding (addOwner "gpu", opened) 0)⟩ := rfl
  have hgpu := p.sharing_concat job [.disk, .gpu] .gpu none
  rw [hloaded, Filed.turn_writes rfl (act_addOwner (by decide) (by decide) _)] at hgpu
  have hdisk := p.sharing_concat job ([.disk, .gpu] ++ [.gpu]) .disk none
  rw [hgpu, Filed.turn_writes rfl (act_addOwner (by decide) (by decide) _)] at hdisk
  -- Only now does the third process open the wallet.
  have hwaits : (p.sharing job ([.disk, .gpu] ++ [.gpu] ++ [.disk]) none).phase .lister =
      .waiting := by
    rw [hdisk]
    rfl
  have hfetch : p.fetch (job .lister)
      (p.sharing job ([.disk, .gpu] ++ [.gpu] ++ [.disk]) none).file =
        .ok (.list, ⟨ownerHeld "disk", some ("iam" ++ "/wallet.json")⟩) := by
    rw [hdisk]
    exact (Filed.fetch_eq_ok _).mpr
      ⟨rfl, openWallet_of_size readEntries_pretty "iam" ownerHeld_size⟩
  have hlist := p.sharing_concat job ([.disk, .gpu] ++ [.gpu] ++ [.disk]) .lister none
  rw [Filed.turn_loads hwaits hfetch, hdisk] at hlist
  have hend := p.sharing_concat job ([.disk, .gpu] ++ [.gpu] ++ [.disk] ++ [.lister]) .lister none
  rw [hlist, Filed.turn_acts rfl] at hend
  rw [show holderSharing = _ from hend]
  exact ⟨rfl, rfl, rfl, rfl⟩

/-- Both additions succeed, and the file and the list have the later one. -/
theorem overlapping_wallets_sound_two :
    holderSharing.file = some (entriesJson (ownerHeld "disk")).pretty ∧
      holderSharing.phase .disk = .answered (.ok (.stored "disk")) ∧
      holderSharing.phase .gpu = .answered (.ok (.stored "gpu")) ∧
      holderSharing.phase .lister = .answered (.ok (.entries [ownerEntry "disk"])) ∧
      (∃ succeeded, Accounted holderEnv holderCmd Iam.symbolic .default succeeded
          holderSharing.file ∧
        ∀ i ∈ succeeded, ∃ r, holderSharing.phase i = .answered (.ok r)) ∧
      ∃ succeeded disk, Accounted holderEnv holderCmd Iam.symbolic .default succeeded disk ∧
        (∀ i ∈ succeeded, ∃ r, holderSharing.phase i = .answered (.ok r)) ∧
        .ok (.entries [ownerEntry "disk"]) = (cmdWallet Iam.symbolic .default readEntries
          (holderEnv .lister) (holderCmd .lister) disk).1 := by
  obtain ⟨hfile, hdisk, hgpu, hlist⟩ := holderSharing_eq
  refine ⟨hfile, hdisk, hgpu, hlist, ?_, ?_⟩
  · rw [holderSharing]
    exact (overlapping_wallets_sound holderEnv holderCmd readEntries_pretty (fun _ => rfl) _).1
  · rw [holderSharing] at hlist ⊢
    exact (overlapping_wallets_sound holderEnv holderCmd readEntries_pretty (fun _ => rfl) _).2
      .lister _ hlist

end Overlap

end Cli

end CeIam
