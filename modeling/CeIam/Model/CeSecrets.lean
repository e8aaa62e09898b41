import CeIam.Library.Json

/-! # The cryptography of the vault

The crate behind the vault is a parameter. Its randomized functions take their random
choice as an argument. -/

namespace CeIam

abbrev Bytes := List UInt8

/-- Key pairs for key agreement and for signatures, by their private halves. -/
structure KeyPairs where
  EcdhPriv : Type
  EcdsaPriv : Type
  Jwk : Type
  ecdhPub : EcdhPriv → Jwk
  ecdsaPub : EcdsaPriv → Jwk

/-- A device, whose public halves are those of its private ones. -/
structure DeviceKey (pairs : KeyPairs) where
  id : String
  ecdhPriv : pairs.EcdhPriv
  ecdsaPriv : pairs.EcdsaPriv

namespace DeviceKey

variable {pairs : KeyPairs} (device : DeviceKey pairs)

def ecdhPub : pairs.Jwk := pairs.ecdhPub device.ecdhPriv

def ecdsaPub : pairs.Jwk := pairs.ecdsaPub device.ecdsaPriv

end DeviceKey

/-- What the vault calls: owner-derived masters, wrapping, sealing, signatures, and the
encodings of all of these. -/
structure CeSecrets extends KeyPairs where
  Seed : Type
  WrapBlob : Type
  SealedSecret : Type
  deriveOwnerMaster : EcdhPriv → String → Except String Bytes
  wrapMaster : Bytes → Jwk → Seed → Except String WrapBlob
  unwrapMaster : EcdhPriv → WrapBlob → Except String Bytes
  sealSecret : Bytes → Bytes → Seed → Except String SealedSecret
  decryptSecret : Bytes → SealedSecret → Except String Bytes
  fingerprint : Bytes → String
  signRecord : DeviceKey toKeyPairs → Json → Seed → Except String String
  verifyRecord : Jwk → Json → String → Except String Bool
  signChallenge : DeviceKey toKeyPairs → String → String → String → Seed → Except String String
  verifyAuth : Jwk → String → String → String → String → String → Except String Bool
  parseIsoMs : String → Option Int
  jwkToJson : Jwk → Json
  jwkFromJson : Json → Except String Jwk
  wrapToJson : WrapBlob → Json
  wrapFromJson : Json → Except String WrapBlob
  sealedToJson : SealedSecret → Json
  sealedFromJson : Json → Except String SealedSecret
  b64urlEncode : Bytes → String
  b64urlDecode : String → Except String Bytes
  fromSlice : Bytes → Except String Json

end CeIam
