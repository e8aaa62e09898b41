import CeIam.Library.Machine
import CeIam.Model.Commands
import CeIam.Verification.Device.Restarts

/-! # Device commands

A call of the registry whose write fails has changed the map in memory. A command that fails has
changed nothing, since the map ends with its process and the file is as it was. -/

namespace CeIam

namespace Cli

open DeviceStore

/-! ## One command -/

/-- The call of the registry that a command makes. -/
def DeviceJob.op : DeviceJob → Option Op
  | .claim deviceId pubB64 nodeId _ => some (.claim deviceId pubB64 nodeId)
  | .request deviceId pubB64 nodeId label _ => some (.request deviceId pubB64 nodeId label)
  | .list => none
  | .approve deviceId => some (.approve deviceId)
  | .revoke deviceId => some (.revoke deviceId)

/-- The registry that the file holds. -/
def HoldsDevices (parse : String → Except String Devices) (disk : Disk) (m : Devices) : Prop :=
  ∃ path, loadDevices parse path true disk = .ok m

variable {parse : String → Except String Devices} {env : DeviceEnv} {disk : Disk} {m n : Devices}

/-- A call fails at its write, or refuses, or succeeds and writes a change of the map. -/
theorem commit_cases {α : Type} (written : Except PersistFault Unit) {locked : Devices → Locked α}
    {f : α → Reply} (op : Op) (now : UInt64) (hop : ∀ m, op.locked now m = (locked m).map f)
    (s : DeviceStore) (disk : Disk) :
    (∃ e t, s.commit written locked disk = (.error e, t, disk)) ∨
      (∃ a, op.Refuses (f a) ∧ s.commit written locked disk = (.ok a, s, disk)) ∨
      ∃ a n, Change now s.inner op (f a) n ∧
        s.commit written locked disk = (.ok a, { s with inner := n }, some (devicesJson n).pretty) := by
  have hcases := locked_cases now s.inner op
  rw [hop] at hcases
  rw [commit]
  cases hlocked : locked s.inner with
  | unchanged a =>
      rw [hlocked] at hcases
      exact .inr (.inl ⟨a, hcases, rfl⟩)
  | changed a n =>
      rw [hlocked] at hcases
      cases written with
      | error fault => exact .inl ⟨_, _, rfl⟩
      | ok u => exact .inr (.inr ⟨a, n, hcases, rfl⟩)

/-- A job fails without a trace in the file, or lists, or writes a change of the map. -/
theorem deviceJob_run (written : Except PersistFault Unit) (job : DeviceJob) (s : DeviceStore)
    (disk : Disk) :
    (∃ e t, job.run written s disk = (.error e, t, disk)) ∨
      (job = .list ∧ ∃ a, job.run written s disk = (.ok a, s, disk)) ∨
      ∃ op now r n a, job.op = some op ∧ Change now s.inner op r n ∧
        job.run written s disk = (.ok a, { s with inner := n }, some (devicesJson n).pretty) := by
  cases job with
  | claim deviceId pubB64 nodeId now =>
      rcases commit_cases written (.claim deviceId pubB64 nodeId) now (fun m => rfl) s disk with
        ⟨e, t, hrun⟩ | ⟨a, hrefuses, hrun⟩ | ⟨a, n, hchange, hrun⟩
      · rw [← claim] at hrun
        exact .inl ⟨e, t, by simp only [DeviceJob.run, hrun]; rfl⟩
      · rw [← claim] at hrun
        cases hrefuses
        exact .inl ⟨_, s, by simp only [DeviceJob.run, hrun]; rfl⟩
      · rw [← claim] at hrun
        have hclaimed := hchange
        cases hchange
        refine .inr (.inr ⟨_, now, _, _, .claimed deviceId nodeId, rfl, hclaimed, ?_⟩)
        simp only [DeviceJob.run, hrun]
        rfl
  | request deviceId pubB64 nodeId label now =>
      rcases commit_cases written (.request deviceId pubB64 nodeId label) now (fun m => rfl) s disk
        with ⟨e, t, hrun⟩ | ⟨a, hrefuses, -⟩ | ⟨a, n, hchange, hrun⟩
      · rw [← request] at hrun
        exact .inl ⟨e, t, by simp only [DeviceJob.run, hrun]; rfl⟩
      · exact hrefuses.elim
      · rw [← request] at hrun
        refine .inr (.inr ⟨_, now, _, n, .requested deviceId a nodeId, rfl, hchange, ?_⟩)
        simp only [DeviceJob.run, hrun]
        rfl
  | list => exact .inr (.inl ⟨rfl, _, rfl⟩)
  | approve deviceId =>
      rcases commit_cases written (.approve deviceId) 0 (fun m => rfl) s disk with
        ⟨e, t, hrun⟩ | ⟨a, hrefuses, hrun⟩ | ⟨a, n, hchange, hrun⟩
      · rw [← approve] at hrun
        exact .inl ⟨e, t, by simp only [DeviceJob.run, hrun]; rfl⟩
      · rw [← approve] at hrun
        cases hrefuses
        exact .inl ⟨_, s, by simp only [DeviceJob.run, hrun]; rfl⟩
      · rw [← approve] at hrun
        have happroved := hchange
        cases hchange
        refine .inr (.inr ⟨_, 0, _, _, .approved deviceId, rfl, happroved, ?_⟩)
        simp only [DeviceJob.run, hrun]
        rfl
  | revoke deviceId =>
      rcases commit_cases written (.revoke deviceId) 0 (fun m => rfl) s disk with
        ⟨e, t, hrun⟩ | ⟨a, hrefuses, hrun⟩ | ⟨a, n, hchange, hrun⟩
      · rw [← revoke] at hrun
        exact .inl ⟨e, t, by simp only [DeviceJob.run, hrun]; rfl⟩
      · rw [← revoke] at hrun
        rcases hrefuses with hnone | hlast
        · cases hnone
          exact .inl ⟨_, s, by simp only [DeviceJob.run, hrun]; rfl⟩
        · cases hlast
          exact .inl ⟨_, s, by simp only [DeviceJob.run, hrun]; rfl⟩
      · rw [← revoke] at hrun
        have hremoved := hchange
        cases hchange
        refine .inr (.inr ⟨_, 0, _, _, .revoked deviceId, rfl, hremoved, ?_⟩)
        simp only [DeviceJob.run, hrun]
        rfl

/-- The path of the file is not part of what it holds. -/
theorem eq_of_loadDevices {path path' : String} {readable : Bool}
    (h : loadDevices parse path true disk = .ok m)
    (h' : loadDevices parse path' readable disk = .ok n) : n = m := by
  cases disk with
  | none =>
      cases h
      cases h'
      rfl
  | some raw =>
      cases readable with
      | false => cases h'
      | true =>
          rw [loadDevices, if_neg (by simp)] at h h'
          split at h
          · next hblank =>
              rw [if_pos hblank] at h'
              cases h
              cases h'
              rfl
          · next hblank =>
              rw [if_neg hblank] at h'
              have hparse := Outcome.mapError_eq_ok.mp h'
              rw [Outcome.mapError_eq_ok.mp h] at hparse
              exact (Except.ok.inj hparse).symm

/-- Without seeds, a registry is opened as the file holds it. -/
theorem openDeviceStore_eq (hm : HoldsDevices parse disk m) {s : DeviceStore}
    (hopen : openDeviceStore parse env disk = .ok s) : s.inner = m := by
  obtain ⟨path, hm⟩ := hm
  obtain ⟨dir, -, hstore⟩ := Outcome.bind_eq_ok.mp hopen
  cases hout : openStore parse dir [] ⟨env.created, env.readable, fun _ => env.now, env.written⟩
      disk with
  | mk r disk' =>
      have hresult : r = .ok s := by
        have hfirst := Outcome.mapError_eq_ok.mp hstore
        rwa [hout] at hfirst
      rcases openStore_cases hout with ⟨hnone, -⟩ | ⟨path', m', hload, hok, -⟩
      · rw [hresult] at hnone
        cases hnone
      · rw [hresult] at hok
        cases hok
        exact eq_of_loadDevices hm hload

theorem list_of_job {env : DeviceEnv} {cmd : DeviceCmd} (hjob : deviceJob env cmd = .ok .list) :
    cmd = .list := by
  cases cmd with
  | claim id pubB64 nodeId =>
      obtain ⟨n, -, hlast⟩ := Outcome.bind_eq_ok.mp hjob
      cases hlast
  | request id pubB64 nodeId label =>
      obtain ⟨n, -, hlast⟩ := Outcome.bind_eq_ok.mp hjob
      cases hlast
  | list => rfl
  | approve id => cases hjob
  | revoke id => cases hjob

variable (env) in
/-- A command fails without a trace in the file, or lists, or writes a change of the registry that
the file holds. -/
theorem cmdDevice_cases (cmd : DeviceCmd) (hm : HoldsDevices parse disk m) :
    (∃ e, cmdDevice parse env cmd disk = (.error e, disk)) ∨
      (cmd = .list ∧ ∃ a, cmdDevice parse env cmd disk = (.ok a, disk)) ∨
      ∃ job op now r n a, deviceJob env cmd = .ok job ∧ job.op = some op ∧ Change now m op r n ∧
        cmdDevice parse env cmd disk = (.ok a, some (devicesJson n).pretty) := by
  rw [cmdDevice]
  cases hjob : deviceJob env cmd with
  | error e => exact .inl ⟨e, rfl⟩
  | ok job =>
      cases hopen : openDeviceStore parse env disk with
      | error e => exact .inl ⟨e, rfl⟩
      | ok s =>
          rcases deviceJob_run env.written job s disk with
            ⟨e, t, hrun⟩ | ⟨rfl, a, hrun⟩ | ⟨op, now, r, n, a, hop, hchange, hrun⟩
          · exact .inl ⟨e, by simp only [hrun]⟩
          · exact .inr (.inl ⟨list_of_job hjob, a, by simp only [hrun]⟩)
          · rw [openDeviceStore_eq hm hopen] at hchange
            exact .inr (.inr ⟨job, op, now, r, n, a, rfl, hop, hchange, by simp only [hrun]⟩)

/-! ## Commands one after another -/

section Run

variable {κ : Type} (env : κ → DeviceEnv) (cmd : κ → DeviceCmd)

def DeviceCmd.isClaim : DeviceCmd → Bool
  | .claim .. => true
  | _ => false

/-- A claim that succeeded. -/
def claimed (e : κ × Except String DeviceReply) : Bool := (cmd e.1).isClaim && e.2.isOk

/-- What commands and their answers have made of the registry that the file held at first. -/
structure Registry (parse : String → Except String Devices) (m : Devices)
    (events : List (κ × Except String DeviceReply)) (disk : Disk) (n : Devices) : Prop where
  holds : HoldsDevices parse disk n
  guards : HasAdmin m → HasAdmin n
  promotes : ∀ id, Admin n id → Admin m id ∨ ∃ e ∈ events, (∃ a, e.2 = .ok a) ∧
    ((∃ pubB64 nodeId, cmd e.1 = .claim id pubB64 nodeId) ∨ cmd e.1 = .approve id)
  removes : ∀ id, m[id]? ≠ none → n[id]? = none →
    ∃ e ∈ events, (∃ a, e.2 = .ok a) ∧ cmd e.1 = .revoke id
  claims : events.countP (claimed cmd) ≤ 1
  claimsFirst : 0 < events.countP (claimed cmd) → ¬ HasAdmin m ∧ HasAdmin n

/-- The command of a job that makes a call. -/
theorem cmd_of_job {env : DeviceEnv} {cmd : DeviceCmd} {job : DeviceJob} {op : Op}
    (hjob : deviceJob env cmd = .ok job) (hop : job.op = some op) :
    (∀ id pubB64 nodeId, op = .claim id pubB64 nodeId →
      ∃ pubB64 nodeId, cmd = .claim id pubB64 nodeId) ∧
    (∀ id, op = .approve id → cmd = .approve id) ∧ (∀ id, op = .revoke id → cmd = .revoke id) ∧
    (cmd.isClaim = true → ∃ id pubB64 nodeId, op = .claim id pubB64 nodeId) := by
  cases cmd with
  | claim id pubB64 nodeId =>
      obtain ⟨n, -, hlast⟩ := Outcome.bind_eq_ok.mp hjob
      cases hlast
      cases hop
      simp
  | request id pubB64 nodeId label =>
      obtain ⟨n, -, hlast⟩ := Outcome.bind_eq_ok.mp hjob
      cases hlast
      cases hop
      simp [DeviceCmd.isClaim]
  | list =>
      cases hjob
      cases hop
  | approve id =>
      cases hjob
      cases hop
      simp [DeviceCmd.isClaim]
  | revoke id =>
      cases hjob
      cases hop
      simp [DeviceCmd.isClaim]

variable {env cmd} {events : List (κ × Except String DeviceReply)}

/-- An event that leaves the registry adds nothing, unless it is a claim that succeeded. -/
theorem Registry.same (h : Registry cmd parse m events disk n)
    {e : κ × Except String DeviceReply} (he : claimed cmd e = false) :
    Registry cmd parse m (events ++ [e]) disk n := by
  have hcount : (events ++ [e]).countP (claimed cmd) = events.countP (claimed cmd) := by
    simp [List.countP_append, he]
  refine ⟨h.holds, h.guards, ?_, ?_, hcount ▸ h.claims, hcount ▸ h.claimsFirst⟩
  · intro id hid
    refine (h.promotes id hid).imp_right ?_
    rintro ⟨f, hf, hrest⟩
    exact ⟨f, List.mem_append_left _ hf, hrest⟩
  · intro id hbefore hafter
    obtain ⟨f, hf, hrest⟩ := h.removes id hbefore hafter
    exact ⟨f, List.mem_append_left _ hf, hrest⟩

/-- A change that is written keeps the account of the registry. -/
theorem Registry.change (reads : ∀ m, parse (devicesJson m).pretty = .ok m)
    (h : Registry cmd parse m events disk n) {i : κ} {a : DeviceReply} {job : DeviceJob} {op : Op}
    {now : UInt64} {r : Reply} {n' : Devices} (hjob : deviceJob (env i) (cmd i) = .ok job)
    (hop : job.op = some op) (hchange : Change now n op r n') :
    Registry cmd parse m (events ++ [(i, .ok a)]) (some (devicesJson n').pretty) n' := by
  obtain ⟨hclaim, happrove, hrevoke, hisClaim⟩ := cmd_of_job hjob hop
  have hlast : (i, Except.ok a) ∈ events ++ [(i, .ok a)] := by simp
  have hbefore : ∀ {e}, e ∈ events → e ∈ events ++ [(i, .ok a)] := List.mem_append_left _
  have hcount : (events ++ [((i, .ok a) : κ × Except String DeviceReply)]).countP (claimed cmd) =
      events.countP (claimed cmd) + if (cmd i).isClaim then 1 else 0 := by
    simp [List.countP_append, claimed, Except.isOk, Except.toBool, List.countP_cons]
  refine ⟨⟨"", loadDevices_pretty "" (reads n')⟩, fun hm => hchange.guards (h.guards hm),
    ?_, ?_, ?_, ?_⟩
  · intro id hid
    by_cases hold : Admin n id
    · refine (h.promotes id hold).imp_right ?_
      rintro ⟨e, he, hrest⟩
      exact ⟨e, hbefore he, hrest⟩
    · refine .inr ⟨_, hlast, ⟨a, rfl⟩, ?_⟩
      rcases hchange.promotes hold hid with ⟨-, pubB64, nodeId, hclaimed⟩ | ⟨happroved, -⟩
      · exact .inl (hclaim id pubB64 nodeId hclaimed)
      · exact .inr (happrove id happroved)
  · intro id hthere hgone
    by_cases hold : n[id]? = none
    · obtain ⟨e, he, hrest⟩ := h.removes id hthere hold
      exact ⟨e, hbefore he, hrest⟩
    · exact ⟨_, hlast, ⟨a, rfl⟩, hrevoke id (hchange.removes hold hgone).1⟩
  · rw [hcount]
    split
    · next hc =>
        obtain ⟨id, pubB64, nodeId, rfl⟩ := hisClaim hc
        cases hchange with
        | claim _ _ _ hnone =>
            have hzero := Nat.eq_zero_of_not_pos fun hpos => hnone (h.claimsFirst hpos).2
            rw [hzero]
    · exact h.claims
  · rw [hcount]
    split
    · next hc =>
        intro _
        obtain ⟨id, pubB64, nodeId, rfl⟩ := hisClaim hc
        cases hchange with
        | claim _ _ _ hnone =>
            exact ⟨fun hm => hnone (h.guards hm), id, _, by rw [OrdMap.get_insert, if_pos rfl], rfl⟩
    · intro hpos
      obtain ⟨hm, hadmin⟩ := h.claimsFirst hpos
      exact ⟨hm, hchange.guards hadmin⟩

theorem Registry.step (reads : ∀ m, parse (devicesJson m).pretty = .ok m)
    (h : ∃ n, Registry cmd parse m events disk n) (i : κ) :
    ∃ n, Registry cmd parse m (events ++ [(i, (cmdDevice parse (env i) (cmd i) disk).1)])
      (cmdDevice parse (env i) (cmd i) disk).2 n := by
  obtain ⟨n, h⟩ := h
  rcases cmdDevice_cases (env i) (cmd i) h.holds with
    ⟨e, hrun⟩ | ⟨hlist, a, hrun⟩ | ⟨job, op, now, r, n', a, hjob, hop, hchange, hrun⟩
  · rw [hrun]
    exact ⟨n, h.same (by simp [claimed, Except.isOk, Except.toBool])⟩
  · rw [hrun]
    exact ⟨n, h.same (by simp [claimed, hlist, DeviceCmd.isClaim])⟩
  · rw [hrun]
    exact ⟨n', h.change reads hjob hop hchange⟩

variable (env cmd) in
/-- Device commands one after another, whether or not their writes succeed: the registry keeps an
administrator once it has one, at most one claim succeeds and only where there is none, a device
becomes an administrator by a claim or an approval that succeeded, and disappears by a revocation
that succeeded. -/
theorem device_commands_registry (reads : ∀ m, parse (devicesJson m).pretty = .ok m)
    (hm : HoldsDevices parse disk m) (is : List κ) :
    ∃ n, Registry cmd parse m
      (Machine.trace (fun i => cmdDevice parse (env i) (cmd i)) is disk)
      (Machine.after (fun i => cmdDevice parse (env i) (cmd i)) is disk) n := by
  refine Machine.trace_history (I := fun events disk => ∃ n, Registry cmd parse m events disk n)
    (fun events i disk h => h.elim fun n hn => Registry.step reads ⟨n, hn⟩ i) is ⟨m, ?_⟩
  exact ⟨hm, id, fun _ => .inl, fun _ hthere hgone => absurd hgone hthere, by simp, by simp⟩

/-- The first claim, with a write that fails and one that succeeds. -/
theorem device_commands_registry_claims :
    ∃ n, Registry (fun _ => .claim "desk" "key" (some (Principal.hex ⟨.filled 1⟩))) readDevices ∅
      (Machine.trace (fun written => cmdDevice readDevices
          ⟨1000, .error "no key", .ok "iam", true, true, written⟩
          (.claim "desk" "key" (some (Principal.hex ⟨.filled 1⟩))))
        [.error .renameTemp, .ok ()] none)
      (Machine.after (fun written => cmdDevice readDevices
          ⟨1000, .error "no key", .ok "iam", true, true, written⟩
          (.claim "desk" "key" (some (Principal.hex ⟨.filled 1⟩))))
        [.error .renameTemp, .ok ()] none) n :=
  device_commands_registry (fun written => ⟨1000, .error "no key", .ok "iam", true, true, written⟩)
    _ readDevices_pretty ⟨"", rfl⟩ _

end Run

end Cli

end CeIam
