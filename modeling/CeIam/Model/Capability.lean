import CeIam.Model.Principal

/-! # Capabilities and the library that signs them

The data of a capability chain, and the calls of the capability library that the
service makes. The library itself is a parameter. -/

namespace CeIam

inductive Resource where
  | any
  | node (id : NodeId)
  | tag (t : String)
  | allOf (ts : List String)
deriving DecidableEq

structure Caveats where
  notBefore : UInt64
  notAfter : UInt64
  maxCpu : Option UInt32
  maxMemMb : Option UInt32
  maxCredits : Option UInt64
  allowedPorts : Option (List UInt16)
  pathPrefix : Option String
deriving DecidableEq

/-- The hash that names a link as the parent of the next one. -/
abbrev CapId := List UInt8

structure Capability where
  issuer : NodeId
  audience : NodeId
  abilities : List String
  resource : Resource
  caveats : Caveats
  nonce : UInt64
  parent : Option CapId
deriving DecidableEq

structure SignedCapability where
  cap : Capability
  sig : List UInt8
deriving DecidableEq

/-- The calls made of the capability and identity libraries, and the form that the formatter gives
a text in an error. -/
structure CeCap where
  Identity : Type
  nodeId : Identity → NodeId
  issue : Identity → (audience : NodeId) → (abilities : List String) → Resource → Caveats →
    (nonce : UInt64) → (parent : Option CapId) → SignedCapability
  id : SignedCapability → CapId
  isSubsetOf : Resource → Resource → Bool
  isNarrowerOrEqual : Caveats → Caveats → Bool
  encodeChain : List SignedCapability → String
  decodeChain : String → Except String (List SignedCapability)
  authorize : (selfId : NodeId) → (acceptedRoots : List NodeId) → (selfTags : List String) →
    (now : UInt64) → (requester : NodeId) → (action : String) → List SignedCapability →
    (isRevoked : NodeId → UInt64 → Bool) → Except String Unit
  debugString : String → String

end CeIam
