import CeIam.Library.JsonText
import CeIam.Model.Principal

/-! # Attestations

A provider signs a claim about a node: what it verified, at which level, and under which
pseudonym. -/

namespace CeIam

def levelEmail : UInt8 := 0
def levelSocial : UInt8 := 1
def levelVerified : UInt8 := 2
def levelStrongEid : UInt8 := 3

abbrev Signature := { bytes : List UInt8 // bytes.length = 64 }

/-- The calls made of the identity library. -/
structure CeIdentity where
  Identity : Type
  nodeId : Identity → NodeId
  sign : Identity → (message : ByteArray) → Signature
  verify : (signer : NodeId) → (message : ByteArray) → Signature → Except String Unit

/-- What the provider verified about the subject. -/
inductive Claim where
  | uniqueHuman
  | emailVerified (hash : String)
  | domainControl (domain : String)
  | orgMember (org : String)
  | custom (kind value : String)
deriving DecidableEq

def Claim.toJson : Claim → Json
  | .uniqueHuman => .str "UniqueHuman"
  | .emailVerified hash => .obj [("EmailVerified", .str hash)]
  | .domainControl domain => .obj [("DomainControl", .str domain)]
  | .orgMember org => .obj [("OrgMember", .str org)]
  | .custom kind value => .obj [("Custom", .arr [.str kind, .str value])]

/-- The signed fields. -/
structure AttestationBody where
  provider : NodeId
  subject : NodeId
  claim : Claim
  level : UInt8
  pseudonym : { bytes : List UInt8 // bytes.length = 32 }
  issued : UInt64
  expires : UInt64
  nonce : UInt64
deriving DecidableEq

namespace AttestationBody

/-- Bytes are an array of numbers. -/
def bytesJson (bytes : List UInt8) : Json := .arr (bytes.map fun b => .int b.toNat)

def toJson (b : AttestationBody) : Json :=
  .obj [("provider", bytesJson b.provider.bytes), ("subject", bytesJson b.subject.bytes),
    ("claim", b.claim.toJson), ("level", .int b.level.toNat),
    ("pseudonym", bytesJson b.pseudonym.val), ("issued", .int b.issued.toNat),
    ("expires", .int b.expires.toNat), ("nonce", .int b.nonce.toNat)]

def signingBytes (b : AttestationBody) : ByteArray := b.toJson.compact.toUTF8

end AttestationBody

/-- The signed fields with the signature in hexadecimal. -/
structure Attestation where
  body : AttestationBody
  sig : String

namespace Attestation

variable (ci : CeIdentity)

def issue (provider : ci.Identity) (subject : NodeId) (claim : Claim) (level : UInt8)
    (pseudonym : { bytes : List UInt8 // bytes.length = 32 }) (issued expires nonce : UInt64) :
    Attestation :=
  let body : AttestationBody :=
    ⟨ci.nodeId provider, subject, claim, level, pseudonym, issued, expires, nonce⟩
  ⟨body, Hex.encode (ci.sign provider body.signingBytes).val⟩

/-- Not expired, and signed by the named provider. -/
def verify (a : Attestation) (now : UInt64) : Except String Unit :=
  if a.body.expires ≠ 0 ∧ now ≥ a.body.expires then .error "attestation expired"
  else
    match Hex.decode a.sig with
    | none => .error "sig not hex"
    | some raw =>
        if h : raw.length = 64 then ci.verify a.body.provider a.body.signingBytes ⟨raw, h⟩
        else .error "sig wrong length"

/-- The highest level among the attestations that verify. -/
def maxLevel (attestations : List Attestation) (now : UInt64) : UInt8 :=
  (((attestations.filter fun a => (a.verify ci now).isOk).map fun a => a.body.level).max?).getD 0

end Attestation

end CeIam
