import CeIam.Library.JsonText
import CeIam.Library.OrdMap
import CeIam.Library.Text
import CeIam.Model.Store

/-! # The device registry

The devices that operate a vault, kept in memory under a lock and mirrored to a file. A
call changes the map under the lock and writes the file after it has let the lock go. -/

namespace CeIam

def roleAdmin : String := "admin"

def rolePending : String := "pending"

/-- A device with its compact key, and the node identity that its grants name. -/
structure Device where
  pubB64 : String
  role : String
  label : String
  addedTs : UInt64
  nodeId : String
deriving DecidableEq

def Device.toJson (d : Device) : Json :=
  .obj ([("pub", .str d.pubB64), ("role", .str d.role), ("label", .str d.label),
    ("added_ts", .int d.addedTs.toNat)] ++
    if d.nodeId = "" then [] else [("nodeId", .str d.nodeId)])

abbrev Devices := OrdMap String Device

def devicesJson (m : Devices) : Json := .obj (m.toList.map fun e => (e.1, e.2.toJson))

inductive RevokeOutcome where
  | removed
  | notFound
  | lastAdmin
deriving DecidableEq

namespace Devices

variable (m : Devices)

def adminCount : ℕ := (m.toList.filter fun e => e.2.role = roleAdmin).length

def hasAdmins : Bool := 0 < adminCount m

def roleOf (deviceId : String) : String :=
  match m[deviceId]? with
  | some d =>
      if d.role = roleAdmin then roleAdmin
      else if d.role = rolePending then rolePending
      else "none"
  | none => "none"

def isAdmin (deviceId : String) : Bool := roleOf m deviceId = roleAdmin

def nodeIdOf (deviceId : String) : Option String :=
  (m[deviceId]?.map (·.nodeId)).filter (· ≠ "")

def pubOf (deviceId : String) : Option String := m[deviceId]?.map (·.pubB64)

end Devices

/-! ## Under the lock -/

/-- What a call does while it holds the lock: it returns, or it changes the map and returns
after the map is written. -/
inductive Locked (α : Type) where
  | unchanged (a : α)
  | changed (a : α) (m : Devices)

namespace Locked

def map {α β : Type} (f : α → β) : Locked α → Locked β
  | .unchanged a => .unchanged (f a)
  | .changed a m => .changed (f a) m

variable (deviceId : String) (m : Devices)

def claim (pubB64 nodeId : String) (now : UInt64) : Locked Bool :=
  if m.toList.any (fun e => e.2.role = roleAdmin) then .unchanged false
  else .changed true (m.insert deviceId ⟨pubB64, roleAdmin, "claimed", now, nodeId⟩)

def request (pubB64 nodeId label : String) (now : UInt64) : Locked String :=
  match m[deviceId]? with
  | some d =>
      if d.role = roleAdmin then
        let nodeId := if nodeId = "" then d.nodeId else nodeId
        .changed roleAdmin (m.insert deviceId { d with nodeId := nodeId })
      else
        let label := if label = "" then d.label else label
        let nodeId := if nodeId = "" then d.nodeId else nodeId
        .changed rolePending
          (m.insert deviceId { d with pubB64 := pubB64, label := label, nodeId := nodeId })
  | none =>
      .changed rolePending (m.insert deviceId ⟨pubB64, rolePending, label, now, nodeId⟩)

def setNodeId (nodeId : String) : Locked Bool :=
  match m[deviceId]? with
  | some d => .changed true (m.insert deviceId { d with nodeId := nodeId })
  | none => .unchanged false

def approve : Locked Bool :=
  match m[deviceId]? with
  | some d =>
      if d.role = rolePending then .changed true (m.insert deviceId { d with role := roleAdmin })
      else .unchanged false
  | none => .unchanged false

def revoke : Locked RevokeOutcome :=
  match m[deviceId]? with
  | none => .unchanged .notFound
  | some d =>
      if d.role = roleAdmin ∧ Devices.adminCount m ≤ 1 then .unchanged .lastAdmin
      else .changed .removed (m.erase deviceId)

end Locked

/-! ## The store and its file -/

/-- Where a write of the file fails; the file is as it was. -/
inductive PersistFault where
  | openTemp
  | writeTemp
  | renameTemp

def PersistFault.display (path : String) : PersistFault → String
  | .openTemp => "open temp " ++ path ++ ".tmp"
  | .writeTemp => "write devices temp"
  | .renameTemp => "rename devices into place"

structure DeviceStore where
  path : String
  inner : Devices

namespace DeviceStore

/-- Replaces the file by the map as it is. -/
def persist (outcome : Except PersistFault Unit) (s : DeviceStore) (disk : Disk) :
    Except String Unit × Disk :=
  match outcome with
  | .ok () => (.ok (), some (devicesJson s.inner).pretty)
  | .error fault => (.error (fault.display s.path), disk)

/-- Goes on from the lock to the file; a failed write does not take the change back. -/
def commit {α : Type} (outcome : Except PersistFault Unit) (locked : Devices → Locked α)
    (s : DeviceStore) (disk : Disk) : Except String α × DeviceStore × Disk :=
  match locked s.inner with
  | .unchanged a => (.ok a, s, disk)
  | .changed a m =>
      let next := { s with inner := m }
      let (result, disk) := next.persist outcome disk
      (result.map fun _ => a, next, disk)

def claim (outcome : Except PersistFault Unit) (deviceId pubB64 nodeId : String) (now : UInt64)
    (s : DeviceStore) (disk : Disk) : Except String Bool × DeviceStore × Disk :=
  s.commit outcome (Locked.claim deviceId · pubB64 nodeId now) disk

def request (outcome : Except PersistFault Unit) (deviceId pubB64 nodeId label : String)
    (now : UInt64) (s : DeviceStore) (disk : Disk) : Except String String × DeviceStore × Disk :=
  s.commit outcome (Locked.request deviceId · pubB64 nodeId label now) disk

def setNodeId (outcome : Except PersistFault Unit) (deviceId nodeId : String) (s : DeviceStore)
    (disk : Disk) : Except String Bool × DeviceStore × Disk :=
  s.commit outcome (Locked.setNodeId deviceId · nodeId) disk

def approve (outcome : Except PersistFault Unit) (deviceId : String) (s : DeviceStore)
    (disk : Disk) : Except String Bool × DeviceStore × Disk :=
  s.commit outcome (Locked.approve deviceId) disk

def revoke (outcome : Except PersistFault Unit) (deviceId : String) (s : DeviceStore)
    (disk : Disk) : Except String RevokeOutcome × DeviceStore × Disk :=
  s.commit outcome (Locked.revoke deviceId) disk

/-! ## Opening -/

/-- What opening meets in the file system, and the clock while it seeds a device. -/
structure Boot where
  created : Bool
  readable : Bool
  now : String → UInt64
  outcome : Except PersistFault Unit

def loadDevices (parse : String → Except String Devices) (path : String) (readable : Bool)
    (disk : Disk) : Except String Devices :=
  match disk with
  | none => .ok ∅
  | some raw =>
      if !readable then .error ("read " ++ path)
      else if Text.trim raw = "" then .ok ∅
      else (parse raw).mapError fun _ => "parse " ++ path

/-- Adds one seeded device as an admin, unless the map has it; tells whether the map
changed so far. -/
def seedDevice (now : String → UInt64) (acc : Devices × Bool) (entry : String × String) :
    Devices × Bool :=
  if entry.1 ∈ acc.1 then acc
  else (acc.1.insert entry.1 ⟨entry.2, roleAdmin, "env-seed", now entry.1, ""⟩, true)

def seedDevices (now : String → UInt64) (seed : List (String × String)) (m : Devices) :
    Devices × Bool :=
  seed.foldl (seedDevice now) (m, false)

/-- Reads the file, seeds the devices it does not have, and writes what was added; `parse`
reads a map back from its text. -/
def openStore (parse : String → Except String Devices) (dataDir : String)
    (seed : List (String × String)) (boot : Boot) (disk : Disk) :
    Except String DeviceStore × Disk :=
  let path := dataDir ++ "/devices.json"
  if !boot.created then (.error ("create data dir " ++ dataDir), disk)
  else
    match loadDevices parse path boot.readable disk with
    | .error e => (.error e, disk)
    | .ok m =>
        let (m, changed) := seedDevices boot.now seed m
        let s : DeviceStore := ⟨path, m⟩
        if changed then
          let (result, disk) := s.persist boot.outcome disk
          (result.map fun _ => s, disk)
        else (.ok s, disk)

end DeviceStore

end CeIam
