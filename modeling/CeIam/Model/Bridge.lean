import CeIam.Model.NodeAuth

/-! # The capability bridge

A device that has proved its key receives a short-lived grant for its node identity, signed by
the root that relying apps trust. -/

namespace CeIam

def abilityOperator : String := "auth:operator"

def abilityForAud (aud : String) : String := "aud:" ++ aud

structure CapBridge (cc : CeCap) where
  root : cc.Identity
  iam : Iam
  resource : ResourceMatch
  ttlSecs : UInt64
  nonce : UInt64

namespace CapBridge

variable {cc : CeCap}

/-- A bridge whose nonces count from the clock it was built at. -/
def new (root : cc.Identity) (resource : ResourceMatch) (ttlSecs : UInt64) (now : SystemTime) :
    CapBridge cc where
  root := root
  iam := Iam.default.withActionUniverse [abilityOperator]
  resource := resource
  ttlSecs := ttlSecs
  nonce := now.asMicros

variable (b : CapBridge cc)

def rootNodeIdHex : String := (Principal.mk (cc.nodeId b.root)).hex

/-- The grant of an operator for one app. A nonce is used up once the device's node identity
and the expiry are there. -/
def mintOperatorGrant (audienceNodeIdHex aud : String) (now : UInt64) :
    Except String String × CapBridge cc :=
  match Principal.parse audienceNodeIdHex with
  | .error _ =>
      (.error ("device CE NodeId '" ++ audienceNodeIdHex ++ "' is not a valid principal"), b)
  | .ok audience =>
      match Iam.checkedAdd now b.ttlSecs with
      -- The sum panics when it overflows.
      | none => (.error "attempt to add with overflow", b)
      | some notAfter =>
          let policy := Policy.allow [abilityOperator, abilityForAud aud] b.resource
            { Conditions.default with notAfter := some notAfter }
          let minted := (b.iam.mint cc b.root audience policy b.nonce).mapError fun e =>
            "mint operator grant: " ++ e.display
          (minted.map Grant.token, { b with nonce := b.nonce + 1 })

end CapBridge

end CeIam
