import CeIam.Model.Store

/-! # Accepted roots and their rotation -/

namespace CeIam

def maxRoots : ℕ := 1024

/-- A root key with the window in which it is accepted; a bound of 0 is no bound. -/
structure RootEntry where
  key : Principal
  label : Option String
  notBefore : UInt64
  notAfter : UInt64
deriving DecidableEq

namespace RootEntry

def toJson (e : RootEntry) : Json :=
  .obj ([("key", .str e.key.hex)] ++ optionalField "label" .str e.label ++
    [("not_before", .int e.notBefore.toNat), ("not_after", .int e.notAfter.toNat)])

def acceptedAt (e : RootEntry) (now : UInt64) : Bool :=
  if e.notBefore ≠ 0 ∧ now < e.notBefore then false
  else if e.notAfter ≠ 0 ∧ now > e.notAfter then false
  else true

end RootEntry

structure Roots where
  roots : OrdMap String RootEntry
  path : Option String

namespace Roots

/-- The file holds the roots; the path is not stored. -/
def rootsJson (roots : OrdMap String RootEntry) : Json :=
  .obj [("roots", .obj (roots.toList.map fun e => (e.1, e.2.toJson)))]

/-- Opens the roots over a file; `parse` reads them back from its text. -/
def openRoots (parse : String → Except String (OrdMap String RootEntry)) (path : String)
    (disk : Disk) : Except IamError Roots := do
  let roots ← loadJsonOrDefault ∅ parse path disk
  return ⟨roots, some path⟩

def inMemory : Roots := ⟨∅, none⟩

/-- Writes the roots, unless they have no file. -/
def save (outcome : Except String Unit) (r : Roots) (disk : Disk) : Except IamError Unit × Disk :=
  match r.path with
  | some _ => atomicWriteJson (rootsJson r.roots) outcome disk
  | none => (.ok (), disk)

/-- A window that closes before it opens. -/
def emptyWindow (notBefore notAfter : UInt64) : Bool :=
  notBefore ≠ 0 ∧ notAfter ≠ 0 ∧ notAfter < notBefore

/-- The checks a new root has to pass; one that is replaced takes no more room. -/
def check (key : Principal) (notBefore notAfter : UInt64) (r : Roots) : Except IamError Unit := do
  Outcome.ensure (¬ emptyWindow notBefore notAfter)
    (.badPolicy "root not_after is before not_before (empty validity window)")
  Outcome.ensure (¬ (key.hex ∉ r.roots ∧ r.roots.size ≥ maxRoots))
    (.badPolicy ("roots set is full (" ++ toString maxRoots ++ ")"))

/-- Adds or replaces a root and then saves; a failed save does not take it back. -/
def add (key : Principal) (label : Option String) (notBefore notAfter : UInt64)
    (outcome : Except String Unit) (r : Roots) (disk : Disk) :
    Except IamError Unit × Roots × Disk :=
  match r.check key notBefore notAfter with
  | .error e => (.error e, r, disk)
  | .ok () =>
      let next := { r with roots := r.roots.insert key.hex ⟨key, label, notBefore, notAfter⟩ }
      let (result, disk) := next.save outcome disk
      (result, next, disk)

/-- Sets the end of a root's window. -/
def retire (key : Principal) (time : UInt64) (outcome : Except String Unit) (r : Roots)
    (disk : Disk) : Except IamError Bool × Roots × Disk :=
  match r.roots[key.hex]? with
  | some e =>
      let next := { r with roots := r.roots.insert key.hex { e with notAfter := time } }
      let (result, disk) := next.save outcome disk
      (result.map fun _ => true, next, disk)
  | none => (.ok false, r, disk)

/-- Removes a root; the file is only written when there was one. -/
def remove (key : Principal) (outcome : Except String Unit) (r : Roots) (disk : Disk) :
    Except IamError Bool × Roots × Disk :=
  let next := { r with roots := r.roots.erase key.hex }
  if key.hex ∈ r.roots then
    let (result, disk) := next.save outcome disk
    (result.map fun _ => true, next, disk)
  else (.ok false, next, disk)

/-- The nodes whose chains a verifier honors at a time. -/
def acceptedAt (now : UInt64) (r : Roots) : List NodeId :=
  (r.roots.toList.filter fun e => e.2.acceptedAt now).map fun e => e.2.key.nodeId

def isAccepted (key : NodeId) (now : UInt64) (r : Roots) : Bool :=
  r.roots.toList.any fun e => e.2.key.nodeId = key && e.2.acceptedAt now

end Roots

end CeIam
