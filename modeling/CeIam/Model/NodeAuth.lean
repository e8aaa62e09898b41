import CeIam.Model.Iam

/-! # Vouching for browsers

A node vouches for a browser that asks it to: it signs a capability for itself that names the
browser's peer and the chosen name, and grants what the browser's app may do. -/

namespace CeIam

def abilityLogin : String := "account:login"

def abilityPeer (peerId : String) : String := "account:peer:" ++ peerId

def abilityName (name : String) : String := "account:name:" ++ name

/-- A reading of the clock, in nanoseconds from the Unix epoch. -/
abbrev SystemTime := ℤ

namespace SystemTime

/-- Whole seconds since the epoch, and zero before it. -/
def asSecs (t : SystemTime) : UInt64 := UInt64.ofNat (t.toNat / 10 ^ 9)

/-- Whole microseconds since the epoch, and zero before it. -/
def asMicros (t : SystemTime) : UInt64 := UInt64.ofNat (t.toNat / 10 ^ 3)

end SystemTime

/-- A browser's request to be vouched for. -/
structure AuthReq where
  peerId : String
  name : String
  nonce : String
  abilities : List String

structure NodeAuthResponder (cc : CeCap) where
  identity : cc.Identity
  iam : Iam
  autoApprove : Bool
  allowedPrefixes : List String
  nonce : UInt64

namespace NodeAuthResponder

variable {cc : CeCap}

/-- A responder whose nonces count from the clock it was built at. -/
def withAllowed (identity : cc.Identity) (iam : Iam) (autoApprove : Bool)
    (allowedPrefixes : List String) (now : SystemTime) : NodeAuthResponder cc where
  identity := identity
  iam := iam
  autoApprove := autoApprove
  allowedPrefixes := allowedPrefixes
  nonce := now.asSecs

def new (identity : cc.Identity) (iam : Iam) (autoApprove : Bool) (now : SystemTime) :
    NodeAuthResponder cc :=
  withAllowed identity iam autoApprove [] now

variable (r : NodeAuthResponder cc)

def nodeIdHex : String := (Principal.mk (cc.nodeId r.identity)).hex

/-- The requested abilities that start with an allowed prefix; without prefixes, all. -/
def grantable (requested : List String) : List String :=
  requested.filter fun a =>
    r.allowedPrefixes.isEmpty || r.allowedPrefixes.any (fun p => Text.startsWith a p)

/-- A vouch with the abilities it binds. A nonce is used up even when the vouch is refused. -/
def vouchToken (peerId name : String) (appAbilities : List String) :
    Except String (String × List String) × NodeAuthResponder cc :=
  let actions := [abilityLogin, abilityPeer peerId, abilityName name] ++ appAbilities
  let policy := Policy.allow actions .any .default
  let audience : Principal := ⟨cc.nodeId r.identity⟩
  let minted := (r.iam.mint cc r.identity audience policy r.nonce).mapError fun e =>
    "mint vouch cap: " ++ e.display
  (minted.map fun grant => (grant.token, actions), { r with nonce := r.nonce + 1 })

/-- The answer to a request, or nothing when vouches are not approved automatically. -/
def respond (req : AuthReq) : Except String (Option Json) × NodeAuthResponder cc :=
  let name := if req.name = "" then "pilot" else req.name
  if !r.autoApprove then (.ok none, r)
  else
    let (vouched, r) := r.vouchToken req.peerId name (r.grantable req.abilities)
    (vouched.map fun vouch => some (Json.ofFields [("nonce", .str req.nonce),
      ("cap", .str vouch.1), ("nodeId", .str r.nodeIdHex), ("name", .str name),
      ("abilities", strings vouch.2)]), r)

variable (decode : ByteArray → Except String AuthReq)

/-- A request that came over gossip. -/
def handleReq (payload : ByteArray) : Except String (Option Json) × NodeAuthResponder cc :=
  match decode payload with
  | .error _ => (.error "decode auth request", r)
  | .ok req => r.respond req

/-- A request that came as a directed call. -/
def handleDirect (payload : ByteArray) : Except String (Option Json) × NodeAuthResponder cc :=
  match decode payload with
  | .error _ => (.error "decode direct auth request", r)
  | .ok req => r.respond req

end NodeAuthResponder

end CeIam
