import CeIam.Verification.Device.Encoding
import CeIam.Verification.Device.LifeCycle

/-! # Revoked devices across restarts

A registry lives through calls and through openings of its data directory with one list of
seeded devices. A revoked device stays out of the registry's administrators until it is
claimed or approved again exactly when the list does not seed it. -/

namespace CeIam.DeviceStore

/-! ## Seeding -/

variable {now : String → UInt64} {seed : List (String × String)} {m : Devices}

/-- Seeding leaves alone a device that the list does not have. -/
theorem get_foldl_seedDevice {id : String} (hseed : ∀ entry ∈ seed, entry.1 ≠ id)
    (acc : Devices × Bool) :
    (seed.foldl (seedDevice now) acc).1[id]? = acc.1[id]? := by
  induction seed generalizing acc with
  | nil => rfl
  | cons entry rest ih =>
      rw [List.foldl_cons, ih fun e he => hseed e (List.mem_cons_of_mem _ he), seedDevice]
      split_ifs
      · rfl
      · rw [OrdMap.get_insert, if_neg (hseed entry List.mem_cons_self)]

/-- Seeding keeps the devices that are there. -/
theorem mem_foldl_seedDevice {id : String} {d : Device} {acc : Devices × Bool}
    (hd : acc.1[id]? = some d) : (seed.foldl (seedDevice now) acc).1[id]? = some d := by
  induction seed generalizing acc with
  | nil => exact hd
  | cons entry rest ih =>
      rw [List.foldl_cons]
      apply ih
      rw [seedDevice]
      split_ifs with hmem
      · exact hd
      · have hne : entry.1 ≠ id := by
          rintro rfl
          exact hmem (OrdMap.mem_iff_exists.mpr ⟨d, hd⟩)
        rw [OrdMap.get_insert, if_neg hne]
        exact hd

/-- A seeded device that is missing becomes an administrator. -/
theorem admin_foldl_seedDevice {id pubB64 : String} (hseed : (id, pubB64) ∈ seed)
    {acc : Devices × Bool} (hmissing : acc.1[id]? = none) :
    Admin (seed.foldl (seedDevice now) acc).1 id := by
  induction seed generalizing acc with
  | nil => cases hseed
  | cons entry rest ih =>
      rw [List.foldl_cons]
      by_cases hid : entry.1 = id
      · have habsent : entry.1 ∉ acc.1 := by
          rw [hid, OrdMap.mem_iff_exists]
          simp [hmissing]
        refine ⟨⟨entry.2, roleAdmin, "env-seed", now entry.1, ""⟩, ?_, rfl⟩
        apply mem_foldl_seedDevice
        rw [seedDevice, if_neg habsent, OrdMap.get_insert, if_pos hid]
      · have hrest : (id, pubB64) ∈ rest := by
          cases hseed with
          | head => exact absurd rfl hid
          | tail _ hmem => exact hmem
        apply ih hrest
        rw [seedDevice]
        split_ifs
        · exact hmissing
        · rw [OrdMap.get_insert, if_neg hid]
          exact hmissing

/-! ## Lives of a registry -/

/-- What happens to a registry: a call, or a restart of the program. -/
inductive Event where
  | call (c : Call)
  | reopen (boot : Boot)

/-- The store of the running program, if it could be opened, and the file. -/
abbrev Life := Option DeviceStore × Disk

variable (parse : String → Except String Devices) (dataDir : String)
  (seed : List (String × String))

def lived (s : Life) : Event → Life → Prop
  | .call c, t => ∃ st st', s.1 = some st ∧ called (st, s.2) c (st', t.2) ∧ t.1 = some st'
  | .reopen boot, t =>
      ∃ r, openStore parse dataDir seed boot s.2 = (r, t.2) ∧ t.1 = r.toOption

/-- A call that claims or approves the device. -/
def Call.Enrolls (id : String) (c : Call) : Prop :=
  (∃ pubB64 nodeId, c.op = .claim id pubB64 nodeId) ∨ c.op = .approve id

/-- A claim or an approval of the device that succeeds. -/
def Event.Reinstates (id : String) : Event → Prop
  | .call c => c.Enrolls id ∧ c.result = .ok (.flag true)
  | .reopen _ => False

/-- The write of every claim and approval of the device succeeds. -/
def Event.EnrollsInFile (id : String) : Event → Prop
  | .call c => c.Enrolls id → c.write = .ok ()
  | .reopen _ => True

/-- In every run whose claims and approvals of the device are written, the device is no
administrator from a revocation that returned `Removed` until it is claimed or approved. -/
def StaysRevoked (id : String) : Prop :=
  ∀ s c u events t, lived parse dataDir seed s (.call c) u →
    c.op = .revoke id → c.result = .ok (.outcome .removed) →
    Run (lived parse dataDir seed) u events t → (∀ e ∈ events, ¬ e.Reinstates id) →
    (∀ e ∈ events, e.EnrollsInFile id) →
    ∀ st, t.1 = some st → st.inner.isAdmin id = false

/-! ## Staying revoked -/

variable {parse dataDir seed} {id : String}

theorem isAdmin_iff {m : Devices} : m.isAdmin id = true ↔ Admin m id := by
  rw [Devices.isAdmin, decide_eq_true_iff, Devices.roleOf, Admin]
  cases m[id]? with
  | none => simp [roleAdmin]
  | some d =>
      simp only [Option.some.injEq, exists_eq_left']
      split_ifs with hadmin hpending
      · exact iff_of_true rfl hadmin
      · exact iff_of_false (by decide) hadmin
      · exact iff_of_false (by decide) hadmin

/-- Neither the running registry nor its file has the device as an administrator. -/
structure Out (id : String) (s : Life) : Prop where
  memory : ∀ st, s.1 = some st → ¬ Admin st.inner id
  file : ∃ m, s.2 = some (devicesJson m).pretty ∧ ¬ Admin m id

theorem Out.call {s t : Life} {c : Call} (h : Out id s)
    (hstep : lived parse dataDir seed s (.call c) t) (hnew : ¬ (Event.call c).Reinstates id)
    (hwritten : (Event.call c).EnrollsInFile id) : Out id t := by
  obtain ⟨st, st', hs, hcalled, ht⟩ := hstep
  have hbefore := h.memory st hs
  rcases called_cases hcalled with ⟨r, -, -, -, hsame⟩ | ⟨r, m, -, hchange, hinner, hfile⟩
  · obtain ⟨rfl, hdisk⟩ := Prod.mk.inj hsame
    refine ⟨?_, by rw [hdisk]; exact h.file⟩
    intro st'' hst
    rw [ht, Option.some.injEq] at hst
    rwa [← hst]
  · have hout : ¬ Admin m id := by
      intro hadmin
      -- Only an enrollment makes the device an administrator, and a written one succeeds.
      have henrolls : c.Enrolls id ∧ r = .flag true := by
        rcases hchange.promotes hbefore hadmin with ⟨-, pubB64, nodeId, hop⟩ | ⟨hop, -⟩
        · rw [hop] at hchange
          cases hchange
          exact ⟨.inl ⟨pubB64, nodeId, hop⟩, rfl⟩
        · rw [hop] at hchange
          cases hchange
          exact ⟨.inr hop, rfl⟩
      obtain ⟨henrolls, rfl⟩ := henrolls
      rcases hfile with ⟨-, hresult, -⟩ | ⟨fault, e, hwrite, -, -⟩
      · exact hnew ⟨henrolls, hresult⟩
      · have hok := hwritten henrolls
        rw [hwrite] at hok
        cases hok
    refine ⟨?_, ?_⟩
    · intro st'' hst
      rw [ht, Option.some.injEq] at hst
      rw [← hst, show st'.inner = m from congrArg DeviceStore.inner hinner]
      exact hout
    · rcases hfile with ⟨-, -, hdisk⟩ | ⟨fault, e, -, -, hdisk⟩
      · exact ⟨m, hdisk, hout⟩
      · rw [hdisk]
        exact h.file

/-- Opening fails without a trace, or it runs on what it loaded and seeded. -/
theorem openStore_cases {boot : Boot} {disk disk' : Disk} {r : Except String DeviceStore}
    (h : openStore parse dataDir seed boot disk = (r, disk')) :
    (r.toOption = none ∧ disk' = disk) ∨
      ∃ path m, loadDevices parse path boot.readable disk = .ok m ∧
        r = .ok ⟨path, (seedDevices boot.now seed m).1⟩ ∧
        (disk' = disk ∨ disk' = some (devicesJson (seedDevices boot.now seed m).1).pretty) := by
  simp only [openStore] at h
  split_ifs at h
  · cases h
    exact .inl ⟨rfl, rfl⟩
  · cases hload : loadDevices parse (dataDir ++ "/devices.json") boot.readable disk with
    | error e =>
        rw [hload] at h
        cases h
        exact .inl ⟨rfl, rfl⟩
    | ok m =>
        simp only [hload] at h
        split_ifs at h
        · cases hwrite : boot.outcome with
          | ok u =>
              rw [hwrite] at h
              cases h
              exact .inr ⟨_, m, hload, rfl, .inr rfl⟩
          | error fault =>
              rw [hwrite] at h
              cases h
              exact .inl ⟨rfl, rfl⟩
        · cases h
          exact .inr ⟨_, m, hload, rfl, .inl rfl⟩

theorem Out.reopen (reads : ∀ m, parse (devicesJson m).pretty = .ok m)
    (hseed : ∀ entry ∈ seed, entry.1 ≠ id) {s t : Life} {boot : Boot} (h : Out id s)
    (hstep : lived parse dataDir seed s (.reopen boot) t) : Out id t := by
  obtain ⟨r, hopen, ht⟩ := hstep
  obtain ⟨m, hdisk, hm⟩ := h.file
  rcases openStore_cases hopen with ⟨hr, hsame⟩ | ⟨path, n, hload, rfl, hfile⟩
  · refine ⟨fun st hst => ?_, by rw [hsame]; exact h.file⟩
    rw [ht, hr] at hst
    cases hst
  · rw [hdisk] at hload
    have hloaded : ¬ Admin n id := by
      rwa [loadDevices_kept (reads m) hload]
    have hseeded : ¬ Admin (seedDevices boot.now seed n).1 id := by
      rwa [Admin, seedDevices, get_foldl_seedDevice hseed]
    refine ⟨?_, ?_⟩
    · intro st hst
      rw [ht] at hst
      cases hst
      exact hseeded
    · rcases hfile with hfile | hfile
      · rw [hfile]
        exact h.file
      · exact ⟨_, hfile, hseeded⟩

/-- A revocation that returned `Removed` put the device out. -/
theorem out_of_removed {s u : Life} {c : Call} (hstep : lived parse dataDir seed s (.call c) u)
    (hop : c.op = .revoke id) (hresult : c.result = .ok (.outcome .removed)) : Out id u := by
  obtain ⟨st, st', -, hcalled, hu⟩ := hstep
  rcases called_cases hcalled with ⟨r, -, hrefuses, hresult', -⟩ |
    ⟨r, m, -, hchange, hinner, ⟨-, -, hdisk⟩ | ⟨fault, e, -, hresult', -⟩⟩
  · rw [hresult] at hresult'
    cases hresult'
    rw [hop] at hrefuses
    rcases hrefuses with h | h <;> cases h
  · rw [hop] at hchange
    have hgone : ¬ Admin m id := by
      cases hchange
      rintro ⟨d, hd, -⟩
      simp at hd
    refine ⟨?_, m, hdisk, hgone⟩
    intro st'' hst
    rw [hu, Option.some.injEq] at hst
    rw [← hst, show st'.inner = m from congrArg DeviceStore.inner hinner]
    exact hgone
  · rw [hresult] at hresult'
    cases hresult'

/-- With a list that does not seed the device, it stays out. -/
theorem Out.run (reads : ∀ m, parse (devicesJson m).pretty = .ok m)
    (hseed : ∀ entry ∈ seed, entry.1 ≠ id) {s t : Life} {events : List Event} (h : Out id s)
    (hrun : Run (lived parse dataDir seed) s events t)
    (hnew : ∀ e ∈ events, ¬ e.Reinstates id) (hwritten : ∀ e ∈ events, e.EnrollsInFile id) :
    Out id t := by
  have hrestricted := hrun.restrict (P := fun e => ¬ e.Reinstates id ∧ e.EnrollsInFile id)
    fun e he => ⟨hnew e he, hwritten e he⟩
  refine hrestricted.invariant (I := Out id) ?_ h
  rintro s e t hs ⟨hstep, hnew, hwritten⟩
  cases e with
  | call c => exact hs.call hstep hnew hwritten
  | reopen boot => exact hs.reopen reads hseed hstep

/-! ## Coming back -/

/-- A restart on which nothing fails. -/
def plainBoot : Boot := ⟨true, true, fun _ => 0, .ok ()⟩

variable (dataDir) in
/-- A restart makes a seeded device that the file does not have an administrator. -/
theorem comes_back (reads : ∀ m, parse (devicesJson m).pretty = .ok m) {pubB64 : String}
    (hseed : (id, pubB64) ∈ seed) {u : Life} {m : Devices}
    (hfile : u.2 = some (devicesJson m).pretty) (hm : m[id]? = none) :
    ∃ t st, lived parse dataDir seed u (.reopen plainBoot) t ∧ t.1 = some st ∧
      Admin st.inner id := by
  have hload := loadDevices_pretty (dataDir ++ "/devices.json") (reads m)
  have hadmin : Admin (seedDevices plainBoot.now seed m).1 id := admin_foldl_seedDevice hseed hm
  let st : DeviceStore := ⟨dataDir ++ "/devices.json", (seedDevices plainBoot.now seed m).1⟩
  have hopen : (openStore parse dataDir seed plainBoot u.2).1 = .ok st := by
    have hcreated : plainBoot.created = true := rfl
    have hreadable : plainBoot.readable = true := rfl
    rw [hfile, openStore]
    simp only [hcreated, hreadable, Bool.not_true, Bool.false_eq_true, if_false, hload]
    split_ifs <;> rfl
  refine ⟨(some st, (openStore parse dataDir seed plainBoot u.2).2), st, ⟨.ok st, ?_, rfl⟩, rfl,
    hadmin⟩
  exact Prod.ext hopen rfl

/-- A registry whose only device has asked to be enrolled. -/
def requested (id : String) : Kept :=
  (⟨"data/devices.json", (∅ : Devices).insert id ⟨"key", rolePending, "", 0, ""⟩⟩, none)

/-- A device that the list seeds does not stay revoked. -/
theorem not_staysRevoked (reads : ∀ m, parse (devicesJson m).pretty = .ok m) {pubB64 : String}
    (hseed : (id, pubB64) ∈ seed) : ¬ StaysRevoked parse dataDir seed id := by
  intro hstays
  let s := requested id
  let c := Call.of (.revoke id) 0 (.ok ()) s
  have hremoved : exec 0 (.ok ()) s (.revoke id) = (.ok (.outcome .removed),
      ⟨s.1.path, s.1.inner.erase id⟩, some (devicesJson (s.1.inner.erase id)).pretty) := by
    rw [exec_eq]
    simp [s, commit, Op.locked, Locked.revoke, Locked.map, requested, persist, Except.map,
      rolePending, roleAdmin]
  let u : Life := (some (exec 0 (.ok ()) s (.revoke id)).2.1, (exec 0 (.ok ()) s (.revoke id)).2.2)
  have hrevoke : lived parse dataDir seed (some s.1, s.2) (.call c) u :=
    ⟨_, _, rfl, called_of _ _ _ _, rfl⟩
  have hfile : u.2 = some (devicesJson (s.1.inner.erase id)).pretty := by
    simp only [u, hremoved]
  obtain ⟨t, st, hreopen, hst, hadmin⟩ := comes_back dataDir reads hseed hfile
    (by simp)
  have hout := hstays _ c u [.reopen plainBoot] t hrevoke rfl (congrArg Prod.fst hremoved)
    (Run.single hreopen) (by simp [Event.Reinstates]) (by simp [Event.EnrollsInFile]) st hst
  rw [isAdmin_iff.mpr hadmin] at hout
  cases hout

/-- A revoked device stays revoked across restarts exactly when the list does not seed it. -/
theorem stays_revoked_iff (reads : ∀ m, parse (devicesJson m).pretty = .ok m) :
    StaysRevoked parse dataDir seed id ↔ ∀ entry ∈ seed, entry.1 ≠ id := by
  constructor
  · rintro hstays ⟨id, pubB64⟩ hseed rfl
    exact not_staysRevoked reads hseed hstays
  · intro hseed s c u events t hrevoke hop hresult hrun hnew hwritten st hst
    have hout := (out_of_removed hrevoke hop hresult).run reads hseed hrun hnew hwritten
    rw [Bool.eq_false_iff]
    exact fun hadmin => hout.memory st hst (isAdmin_iff.mp hadmin)

/-! ## A seeded device -/

theorem stays_revoked_iff_unseeded :
    StaysRevoked readDevices "data" [("desk", "key")] "lost" ↔
      ∀ entry ∈ [("desk", "key")], entry.1 ≠ "lost" :=
  stays_revoked_iff readDevices_pretty

/-- A seeded device is revoked, the program restarts, and the device is an administrator. -/
theorem seeded_device_comes_back :
    ¬ ∀ seed id, StaysRevoked readDevices "data" seed id := fun hclaim =>
  not_staysRevoked readDevices_pretty (List.mem_singleton.mpr rfl)
    (hclaim [("lost", "key")] "lost")

end CeIam.DeviceStore
