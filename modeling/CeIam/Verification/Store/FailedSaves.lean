import CeIam.Library.Saver
import CeIam.Model.Roots
import CeIam.Verification.Device.LifeCycle
import CeIam.Verification.Store.Reopening

/-! # What a failed save leaves behind

The catalog saves before it changes what it holds in memory. The wallet, the roots and the
devices change it first, and a save that fails does not take the change back. -/

namespace CeIam

section
variable {σ ρ : Type} (path : σ → Option String) (toJson : σ → Json)

/-- Writes a store atomically, unless it has no file. -/
def fileSaver (outcome : Except String Unit) : Saver IamError σ Disk where
  save s disk :=
    match path s with
    | some _ => atomicWriteJson (toJson s) outcome disk
    | none => (.ok (), disk)
  atomic s disk e h := by
    cases hpath : path s with
    | none => rfl
    | some file =>
        rw [hpath] at h
        cases outcome with
        | ok u => cases h
        | error fault => rfl

theorem fileSaver_eq_ok {outcome : Except String Unit} {s : σ} {disk : Disk} :
    ((fileSaver path toJson outcome).save s disk).1 = .ok () ↔
      outcome = .ok () ∨ path s = none := by
  cases hpath : path s with
  | none => simp [fileSaver, hpath]
  | some file =>
      cases outcome with
      | ok u => simp [fileSaver, hpath, atomicWriteJson]
      | error fault => simp [fileSaver, hpath, atomicWriteJson]

/-- An edit that is saved last. -/
theorem edit_untouched_iff (outcome : Except String Unit) (r : ρ) (s next : σ) (disk : Disk) :
    Untouched (s, disk) ((fileSaver path toJson outcome).editThenSave r next disk) ↔
      outcome = .ok () ∨ path next = none ∨ next = s := by
  rw [Saver.editThenSave_untouched_iff, fileSaver_eq_ok, or_assoc]

end

/-! ## The catalog -/

namespace CatalogStore

def saver (outcome : Except String Unit) : Saver IamError CatalogStore Disk :=
  fileSaver (fun s => some s.path) (fun s => s.log.toJson) outcome

/-- A call on the catalog that fails leaves nothing behind. -/
theorem apply_untouched (outcome : Except String Unit) (op : CatalogOp) (actor : Option Principal)
    (s : CatalogStore) (disk : Disk) : Untouched (s, disk) (s.apply outcome op actor disk) := by
  have hedit := (saver outcome).saveThenEdit_untouched () s
    { s with log := s.log.record op actor, catalog := s.catalog.apply op actor } disk
  rw [apply]
  split_ifs
  · exact untouched_of_eq rfl
  · cases s.validate op with
    | error e => exact untouched_of_eq rfl
    | ok u =>
        cases outcome with
        | error fault => exact hedit
        | ok u => exact hedit

theorem compact_untouched (outcome : Except String Unit) (s : CatalogStore) (disk : Disk) :
    Untouched (s, disk) (s.compact outcome disk) := by
  have hedit := (saver outcome).saveThenEdit_untouched () s
    { s with log := compactedLog s.catalog, catalog := (compactedLog s.catalog).replay } disk
  cases outcome with
  | error fault => exact hedit
  | ok u => exact hedit

end CatalogStore

/-! ## The wallet -/

namespace WalletStore

def saver (outcome : Except String Unit) : Saver IamError WalletStore Disk :=
  fileSaver WalletStore.path (fun w => entriesJson w.entries) outcome

def Call.outcome : Call → Except String Unit
  | .add _ _ _ _ _ outcome => outcome
  | .remove _ outcome => outcome

/-- A failure of the call leaves the wallet and its file as they were. -/
def FailsClean (cc : CeCap) (s : Kept) : Call → Prop
  | .add iam label token note now outcome =>
      Untouched s (s.1.add cc iam label token note now outcome s.2)
  | .remove label outcome => Untouched s (s.1.remove label outcome s.2)

/-- The call is refused, or finds nothing to change. -/
def Idle (cc : CeCap) (w : WalletStore) : Call → Prop
  | .add iam label token _ _ _ =>
      Text.trim label = "" ∨ maxLabelLen < label.utf8ByteSize ∨
        maxTokenBytes < token.utf8ByteSize ∨ label ∈ w.entries ∨
        maxWalletEntries ≤ w.entries.size ∨ ∃ e, iam.decode cc token = .error e
  | .remove label _ => label ∉ w.entries

theorem idle_add_iff {cc : CeCap} {w : WalletStore} {iam : Iam} {label token : String}
    {note : Option String} {now : UInt64} {outcome : Except String Unit} :
    w.Idle cc (.add iam label token note now outcome) ↔ w.check cc iam label token ≠ .ok () := by
  rw [Ne, check_eq_ok, Idle]
  cases hdecode : iam.decode cc token with
  | error e =>
      refine iff_of_true (.inr (.inr (.inr (.inr (.inr ⟨e, rfl⟩))))) ?_
      rintro ⟨-, -, -, -, -, c, hc⟩
      cases hc
  | ok c =>
      simp only [reduceCtorEq, exists_false, or_false, Except.ok.injEq, exists_eq', and_true,
        not_and_or, not_not, not_le, not_lt, Std.ExtTreeMap.mem_iff_isSome_getElem?,
        Option.ne_none_iff_isSome]

/-- New entries that are saved last. -/
theorem edit_entries_iff {ρ : Type} (outcome : Except String Unit) (r : ρ) (w : WalletStore)
    (entries : OrdMap String WalletEntry) (disk : Disk) :
    Untouched (w, disk) ((saver outcome).editThenSave r { w with entries } disk) ↔
      outcome = .ok () ∨ w.path = none ∨ entries = w.entries := by
  rw [saver, edit_untouched_iff]
  exact or_congr_right (or_congr_right ⟨congrArg WalletStore.entries, fun h => h ▸ rfl⟩)

theorem failsClean_iff (cc : CeCap) (s : Kept) (c : Call) :
    FailsClean cc s c ↔ c.outcome = .ok () ∨ s.1.path = none ∨ s.1.Idle cc c := by
  obtain ⟨w, disk⟩ := s
  cases c with
  | add iam label token note now outcome =>
      rw [idle_add_iff, FailsClean, add]
      cases hcheck : w.check cc iam label token with
      | error e => exact iff_of_true (untouched_of_eq rfl) (.inr (.inr (by simp)))
      | ok u =>
          have hfresh := (check_eq_ok.mp hcheck).2.2.2.1
          have hedit := edit_entries_iff outcome () w
            (w.entries.insert label ⟨label, token, now, note⟩) disk
          rw [Saver.editThenSave, Outcome.map_unit] at hedit
          refine hedit.trans (or_congr_right (or_congr_right ?_))
          rw [OrdMap.insert_eq_iff, hfresh]
          simp
  | remove label outcome =>
      rw [FailsClean, remove, Idle, get, Std.ExtTreeMap.mem_iff_isSome_getElem?,
        Option.not_isSome_iff_eq_none]
      split_ifs with hsome
      · have hedit := edit_entries_iff outcome true w (w.entries.erase label) disk
        rwa [OrdMap.erase_eq_iff] at hedit
      · have hnone := Option.not_isSome_iff_eq_none.mp hsome
        refine iff_of_true (untouched_of_eq ?_) (.inr (.inr hnone))
        rw [OrdMap.erase_eq_self hnone]

end WalletStore

/-! ## The roots -/

namespace Roots

/-- Roots with the file they are kept in. -/
abbrev Kept := Roots × Disk

/-- A mutating call, with what becomes of the write it makes. -/
inductive Call where
  | add (key : Principal) (label : Option String) (notBefore notAfter : UInt64)
      (outcome : Except String Unit)
  | retire (key : Principal) (time : UInt64) (outcome : Except String Unit)
  | remove (key : Principal) (outcome : Except String Unit)

def Call.outcome : Call → Except String Unit
  | .add _ _ _ _ outcome => outcome
  | .retire _ _ outcome => outcome
  | .remove _ outcome => outcome

def saver (outcome : Except String Unit) : Saver IamError Roots Disk :=
  fileSaver Roots.path (fun r => rootsJson r.roots) outcome

/-- A failure of the call leaves the roots and their file as they were. -/
def FailsClean (s : Kept) : Call → Prop
  | .add key label notBefore notAfter outcome =>
      Untouched s (s.1.add key label notBefore notAfter outcome s.2)
  | .retire key time outcome => Untouched s (s.1.retire key time outcome s.2)
  | .remove key outcome => Untouched s (s.1.remove key outcome s.2)

/-- The call is refused, or finds nothing to change. -/
def Idle (r : Roots) : Call → Prop
  | .add key label notBefore notAfter _ =>
      emptyWindow notBefore notAfter ∨ (key.hex ∉ r.roots ∧ maxRoots ≤ r.roots.size) ∨
        r.roots[key.hex]? = some ⟨key, label, notBefore, notAfter⟩
  | .retire key time _ => ∀ e, r.roots[key.hex]? = some e → e.notAfter = time
  | .remove key _ => key.hex ∉ r.roots

theorem check_eq_ok {r : Roots} {key : Principal} {notBefore notAfter : UInt64} :
    r.check key notBefore notAfter = .ok () ↔
      ¬ emptyWindow notBefore notAfter ∧ ¬ (key.hex ∉ r.roots ∧ maxRoots ≤ r.roots.size) := by
  simp only [check, Outcome.bind_eq_ok, Outcome.ensure_eq_ok, exists_const, ge_iff_le]

/-- New roots that are saved last. -/
theorem edit_roots_iff {ρ : Type} (outcome : Except String Unit) (a : ρ) (r : Roots)
    (roots : OrdMap String RootEntry) (disk : Disk) :
    Untouched (r, disk) ((saver outcome).editThenSave a { r with roots } disk) ↔
      outcome = .ok () ∨ r.path = none ∨ roots = r.roots := by
  rw [saver, edit_untouched_iff]
  exact or_congr_right (or_congr_right ⟨congrArg Roots.roots, fun h => h ▸ rfl⟩)

theorem failsClean_iff (s : Kept) (c : Call) :
    FailsClean s c ↔ c.outcome = .ok () ∨ s.1.path = none ∨ s.1.Idle c := by
  obtain ⟨r, disk⟩ := s
  cases c with
  | add key label notBefore notAfter outcome =>
      rw [FailsClean, add]
      cases hcheck : r.check key notBefore notAfter with
      | error e =>
          have hfails : r.check key notBefore notAfter ≠ .ok () := by simp [hcheck]
          have hrefused := mt check_eq_ok.mpr hfails
          rw [not_and_or, not_not, not_not] at hrefused
          exact iff_of_true (untouched_of_eq rfl) (.inr (.inr (hrefused.imp_right .inl)))
      | ok u =>
          obtain ⟨hwindow, hroom⟩ := check_eq_ok.mp hcheck
          have hedit := edit_roots_iff outcome () r
            (r.roots.insert key.hex ⟨key, label, notBefore, notAfter⟩) disk
          rw [Saver.editThenSave, Outcome.map_unit, OrdMap.insert_eq_iff] at hedit
          rw [Idle, or_iff_right hwindow, or_iff_right hroom]
          exact hedit
  | retire key time outcome =>
      rw [FailsClean, retire, Idle]
      cases hget : r.roots[key.hex]? with
      | none => exact iff_of_true (untouched_of_eq rfl) (.inr (.inr (by simp)))
      | some e =>
          have hedit := edit_roots_iff outcome true r
            (r.roots.insert key.hex { e with notAfter := time }) disk
          refine hedit.trans (or_congr_right (or_congr_right ?_))
          rw [OrdMap.insert_eq_iff, hget, Option.some.injEq]
          constructor
          · rintro h _ ⟨⟩
            rw [h]
          · intro h
            rw [← h e rfl]
  | remove key outcome =>
      rw [FailsClean, remove, Idle]
      split_ifs with hmem
      · have hedit := edit_roots_iff outcome true r (r.roots.erase key.hex) disk
        rwa [OrdMap.erase_eq_iff, OrdMap.get_eq_none_iff] at hedit
      · refine iff_of_true (untouched_of_eq ?_) (.inr (.inr hmem))
        rw [OrdMap.erase_eq_self (OrdMap.get_eq_none_iff.mpr hmem)]

end Roots

/-! ## The devices -/

namespace DeviceStore

def saver (write : Except PersistFault Unit) : Saver String DeviceStore Disk where
  save s disk := s.persist write disk
  atomic s disk e h := by
    cases write with
    | ok u => cases h
    | error fault => rfl

/-- The call is refused, or finds nothing to change. -/
def Op.Idle (m : Devices) : Op → Prop
  | .claim _ _ _ => HasAdmin m
  | .request id pubB64 nodeId label =>
      ∃ d, m[id]? = some d ∧ (nodeId = "" ∨ nodeId = d.nodeId) ∧
        (d.role = roleAdmin ∨ pubB64 = d.pubB64 ∧ (label = "" ∨ label = d.label))
  | .setNodeId id nodeId => ∀ d, m[id]? = some d → nodeId = d.nodeId
  | .approve id => ∀ d, m[id]? = some d → d.role ≠ rolePending
  | .revoke id => ∀ d, m[id]? = some d → d.role = roleAdmin ∧ Devices.adminCount m ≤ 1

end DeviceStore

namespace Locked

/-- What is done under the lock leaves the map as it is. -/
def Keeps {α : Type} (m : Devices) (l : Locked α) : Prop := ∀ a n, l = .changed a n → n = m

variable {α β : Type} {m n : Devices} {a : α} {id : String} {d : Device}

@[simp] theorem keeps_unchanged : (unchanged a).Keeps m := by
  intro b n h
  cases h

@[simp] theorem keeps_changed : (changed a n).Keeps m ↔ n = m := by
  constructor
  · exact fun h => h a n rfl
  · rintro h _ _ ⟨⟩
    exact h

@[simp] theorem keeps_map {f : α → β} {l : Locked α} : (l.map f).Keeps m ↔ l.Keeps m := by
  cases l with
  | unchanged a => exact iff_of_true keeps_unchanged keeps_unchanged
  | changed a n => exact keeps_changed.trans keeps_changed.symm

/-- Writing an entry back changes nothing exactly when it is the one that was read. -/
theorem keeps_insert {e : Device} (hd : m[id]? = some d) :
    (changed a (m.insert id e)).Keeps m ↔ d = e := by
  rw [keeps_changed, OrdMap.insert_eq_iff, hd, Option.some.injEq]

theorem keeps_claim {pubB64 nodeId : String} {now : UInt64} :
    (claim id m pubB64 nodeId now).Keeps m ↔ DeviceStore.HasAdmin m := by
  rw [claim]
  split_ifs with h
  · exact iff_of_true keeps_unchanged (DeviceStore.hasAdmin_iff.mp h)
  · have hnone := mt DeviceStore.hasAdmin_iff.mpr h
    rw [keeps_changed, OrdMap.insert_eq_iff]
    exact iff_of_false (fun hget => hnone ⟨id, _, hget, rfl⟩) hnone

/-- A text that is only replaced by one that says something. -/
theorem replaced_eq_iff {x y : String} : y = (if x = "" then y else x) ↔ x = "" ∨ x = y := by
  split_ifs with h
  · exact iff_of_true rfl (.inl h)
  · exact eq_comm.trans (or_iff_right h).symm

theorem keeps_request {pubB64 nodeId label : String} {now : UInt64} :
    (request id m pubB64 nodeId label now).Keeps m ↔ ∃ d, m[id]? = some d ∧
      (nodeId = "" ∨ nodeId = d.nodeId) ∧
        (d.role = roleAdmin ∨ pubB64 = d.pubB64 ∧ (label = "" ∨ label = d.label)) := by
  rw [request]
  cases hd : m[id]? with
  | none =>
      rw [keeps_changed, OrdMap.insert_eq_iff, hd]
      simp
  | some d =>
      obtain ⟨pubB64', role, label', addedTs, nodeId'⟩ := d
      simp only [Option.some.injEq, exists_eq_left']
      by_cases hrole : role = roleAdmin
      · rw [if_pos hrole, keeps_insert hd]
        simp only [Device.mk.injEq, true_and, replaced_eq_iff, hrole, true_or, and_true]
      · rw [if_neg hrole, keeps_insert hd]
        simp only [Device.mk.injEq, true_and, replaced_eq_iff, hrole, false_or]
        rw [eq_comm (a := pubB64'), ← and_assoc, and_comm]

theorem keeps_setNodeId {nodeId : String} :
    (setNodeId id m nodeId).Keeps m ↔ ∀ d, m[id]? = some d → nodeId = d.nodeId := by
  rw [setNodeId]
  cases hd : m[id]? with
  | none => simp
  | some d =>
      obtain ⟨pubB64, role, label, addedTs, nodeId'⟩ := d
      simp only [keeps_insert hd, Option.some.injEq, Device.mk.injEq, true_and, forall_eq']
      exact eq_comm

theorem keeps_approve :
    (approve id m).Keeps m ↔ ∀ d, m[id]? = some d → d.role ≠ rolePending := by
  rw [approve]
  cases hd : m[id]? with
  | none => simp
  | some d =>
      simp only [Option.some.injEq, forall_eq']
      split_ifs with hpending
      · rw [keeps_insert hd]
        refine iff_of_false (fun h => ?_) (not_not.mpr hpending)
        have hrole := congrArg Device.role h
        rw [hpending] at hrole
        exact absurd hrole (show rolePending ≠ roleAdmin by decide)
      · exact iff_of_true keeps_unchanged hpending

theorem keeps_revoke :
    (revoke id m).Keeps m ↔
      ∀ d, m[id]? = some d → d.role = roleAdmin ∧ Devices.adminCount m ≤ 1 := by
  rw [revoke]
  cases hd : m[id]? with
  | none => simp
  | some d =>
      simp only [Option.some.injEq, forall_eq']
      split_ifs with hguard
      · exact iff_of_true keeps_unchanged hguard
      · rw [keeps_changed, OrdMap.erase_eq_iff, hd]
        exact iff_of_false (by simp) hguard

end Locked

namespace DeviceStore

/-- An idle call changes nothing under the lock, whether it goes on to write or not. -/
theorem Op.idle_iff (now : UInt64) (m : Devices) (op : Op) :
    op.Idle m ↔ (op.locked now m).Keeps m := by
  cases op with
  | claim id pubB64 nodeId => exact Locked.keeps_map.trans Locked.keeps_claim |>.symm
  | request id pubB64 nodeId label => exact Locked.keeps_map.trans Locked.keeps_request |>.symm
  | setNodeId id nodeId => exact Locked.keeps_map.trans Locked.keeps_setNodeId |>.symm
  | approve id => exact Locked.keeps_map.trans Locked.keeps_approve |>.symm
  | revoke id => exact Locked.keeps_map.trans Locked.keeps_revoke |>.symm

theorem failsClean_iff (now : UInt64) (write : Except PersistFault Unit) (s : Kept) (op : Op) :
    Untouched s (exec now write s op) ↔ write = .ok () ∨ op.Idle s.1.inner := by
  obtain ⟨s, disk⟩ := s
  rw [exec_eq, commit, Op.idle_iff now]
  cases op.locked now s.inner with
  | unchanged r => exact iff_of_true (untouched_of_eq rfl) (.inr Locked.keeps_unchanged)
  | changed r m =>
      have hedit := (saver write).editThenSave_untouched_iff r s { s with inner := m } disk
      rw [Locked.keeps_changed]
      refine hedit.trans (or_congr ?_ ?_)
      · cases write with
        | ok u => exact iff_of_true rfl rfl
        | error fault => simp [saver, persist]
      · exact ⟨congrArg inner, fun h => h ▸ rfl⟩

end DeviceStore

/-! ## All three stores -/

/-- A call that fails leaves memory and file as they were exactly when its save succeeds, there is
no file, or the call is idle. -/
theorem failed_calls_untouched_iff (cc : CeCap) :
    (∀ (s : WalletStore.Kept) (c : WalletStore.Call), WalletStore.FailsClean cc s c ↔
        c.outcome = .ok () ∨ s.1.path = none ∨ s.1.Idle cc c) ∧
      (∀ (s : Roots.Kept) (c : Roots.Call), Roots.FailsClean s c ↔
        c.outcome = .ok () ∨ s.1.path = none ∨ s.1.Idle c) ∧
      ∀ (s : DeviceStore.Kept) (op : DeviceStore.Op) (now : UInt64)
        (write : Except PersistFault Unit), Untouched s (DeviceStore.exec now write s op) ↔
          write = .ok () ∨ op.Idle s.1.inner :=
  ⟨WalletStore.failsClean_iff cc, Roots.failsClean_iff,
    fun s op now write => DeviceStore.failsClean_iff now write s op⟩

/-! ## A revocation that is not saved -/

namespace DeviceStore

def operator (nodeId : String) : Device := ⟨"key", roleAdmin, "", 0, nodeId⟩

def twoOperators : Devices :=
  ((∅ : Devices).insert "laptop" (operator "1")).insert "phone" (operator "2")

/-- Both operators are in memory and in the file. -/
def twoOperatorsKept : Kept :=
  (⟨"data/devices.json", twoOperators⟩, some (devicesJson twoOperators).pretty)

/-- The revocation fails, the device is gone from memory and the file still lists it; a second try
finds no such device. -/
theorem unsaved_revocation :
    let x := exec 0 (.error .renameTemp) twoOperatorsKept (.revoke "phone")
    x.1 = .error "rename devices into place" ∧ x.2.1 ≠ twoOperatorsKept.1 ∧
      x.2.2 = some (devicesJson twoOperators).pretty ∧
      exec 0 (.ok ()) x.2 (.revoke "phone") = (.ok (.outcome .notFound), x.2) := by
  have hphone : twoOperators["phone"]? = some (operator "2") := by decide
  have hgone : (twoOperators.erase "phone")["phone"]? = none := by simp
  have hguard : ¬ ((operator "2").role = roleAdmin ∧ Devices.adminCount twoOperators ≤ 1) := by
    decide
  have hlocked : Locked.revoke "phone" twoOperators =
      .changed .removed (twoOperators.erase "phone") := by
    simp only [Locked.revoke, hphone, if_neg hguard]
  have hfailed : exec 0 (.error .renameTemp) twoOperatorsKept (.revoke "phone") =
      (.error "rename devices into place", ⟨"data/devices.json", twoOperators.erase "phone"⟩,
        twoOperatorsKept.2) := by
    rw [exec_eq, commit, Op.locked]
    simp only [twoOperatorsKept, hlocked]
    rfl
  rw [hfailed]
  refine ⟨rfl, ?_, rfl, ?_⟩
  · intro h
    rw [OrdMap.erase_eq_iff.mp (congrArg inner h)] at hphone
    cases hphone
  · rw [exec_eq, commit, Op.locked]
    simp only [Locked.revoke, hgone]
    rfl

end DeviceStore

end CeIam
