import CeIam.Model.Principal
import CeIam.Model.Store
import Mathlib.Data.Finset.Basic

/-! # The view of revoked capabilities

The node lists the revoked pairs of an issuer and a nonce. The last list that it returned is
kept in a file, with the time it was fetched. -/

namespace CeIam

/-- A snapshot of the revoked pairs. -/
structure RevocationSet where
  revoked : Finset (NodeId × UInt64)
deriving DecidableEq

namespace RevocationSet

def empty : RevocationSet := ⟨∅⟩

/-- A row of the node's list, unless its issuer is malformed. -/
def fromHexPair (row : String × UInt64) : Option (NodeId × UInt64) := do
  let bytes ← Hex.decode (Text.trim row.1)
  if h : bytes.length = 32 then some (⟨bytes, h⟩, row.2) else none

def fromHexPairs (pairs : List (String × UInt64)) : RevocationSet :=
  ⟨(pairs.filterMap fromHexPair).toFinset⟩

def isRevoked (s : RevocationSet) (issuer : NodeId) (nonce : UInt64) : Bool :=
  (issuer, nonce) ∈ s.revoked

end RevocationSet

/-- What a verifier does when the node does not answer. -/
inductive RevocationPolicy where
  | failOpen
  | failClosed
deriving DecidableEq

/-- The last list that was fetched; a time of 0 is never, a window of 0 has no end. -/
structure CachedRevocationSet where
  pairs : List (String × UInt64)
  fetchedAt : UInt64
  ttlSecs : UInt64
deriving DecidableEq

/-- The difference, or 0 when it would be negative. -/
def saturatingSub (a b : UInt64) : UInt64 := if b ≤ a then a - b else 0

namespace CachedRevocationSet

def default : CachedRevocationSet := ⟨[], 0, 0⟩

def toJson (c : CachedRevocationSet) : Json :=
  .obj [("pairs", .arr (c.pairs.map fun row => .arr [.str row.1, .int row.2.toNat])),
    ("fetched_at", .int c.fetchedAt.toNat), ("ttl_secs", .int c.ttlSecs.toNat)]

/-- Loads the list from its file, with a window of its own; `parse` reads it back from its
text. -/
def load (parse : String → Except String CachedRevocationSet) (path : String) (ttlSecs : UInt64)
    (disk : Disk) : Except IamError CachedRevocationSet := do
  let c ← loadJsonOrDefault default parse path disk
  return { c with ttlSecs := ttlSecs }

def set (c : CachedRevocationSet) : RevocationSet := .fromHexPairs c.pairs

def isFresh (c : CachedRevocationSet) (now : UInt64) : Bool :=
  if c.fetchedAt = 0 then false
  else if c.ttlSecs = 0 then true
  else saturatingSub now c.fetchedAt ≤ c.ttlSecs

/-- Takes over the node's answer and then saves it; a failed save does not take it back. -/
def refresh (fetched : Except String (List (String × UInt64))) (now : UInt64)
    (path : Option String) (outcome : Except String Unit) (c : CachedRevocationSet) (disk : Disk) :
    Except IamError Unit × CachedRevocationSet × Disk :=
  match fetched with
  | .error e => (.error (.node ("fetching revoked set: " ++ e)), c, disk)
  | .ok pairs =>
      let next := { c with pairs := pairs, fetchedAt := now }
      match path with
      | some _ =>
          let (result, disk) := atomicWriteJson next.toJson outcome disk
          (result, next, disk)
      | none => (.ok (), next, disk)

end CachedRevocationSet

end CeIam
