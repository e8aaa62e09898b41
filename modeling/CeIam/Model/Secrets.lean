import CeIam.Library.Hex
import CeIam.Library.JsonText
import CeIam.Library.OrdMap
import CeIam.Library.Outcome
import CeIam.Library.Slices
import CeIam.Library.StoreProg
import CeIam.Model.CeSecrets

/-! # The secrets vault

Every operation is a computation over the store. A vault is bound to one device and one
namespace; the clock readings and random choices of a call are its ambient. -/

namespace CeIam

/-- The store kept in memory. -/
def memStore : Backend (OrdMap String Json) String Json where
  get m k := m[k]?
  put m k v := m.insert k v
  del m k := m.erase k
  list m p := m.scanPrefix p

@[simp] theorem memStore_get (m : OrdMap String Json) (k : String) : memStore.get m k = m[k]? := rfl

@[simp] theorem memStore_put (m : OrdMap String Json) (k : String) (v : Json) :
    memStore.put m k v = m.insert k v := rfl

@[simp] theorem memStore_del (m : OrdMap String Json) (k : String) :
    memStore.del m k = m.erase k := rfl

@[simp] theorem memStore_list (m : OrdMap String Json) (p : String) :
    memStore.list m p = m.scanPrefix p := rfl

structure DeviceInfo where
  id : String
  label : String
  addedAt : String
  isSelf : Bool

structure SecretMeta where
  name : String
  kind : String
  version : ℕ
  fp : String
  pub : Option String
  createdAt : String
  rotatedAt : Option String

structure RevealedSecret where
  bytes : Bytes
  kind : String
  pub : Option String

structure IssuedGrant where
  id : String
  token : String
  record : Json

/-- The clock readings and random choices of one call, in the order the call makes them. -/
structure Moment (cs : CeSecrets) where
  now : ℕ → String
  nowSecs : ℕ → Int64
  random : ℕ → UInt8
  seed : ℕ → cs.Seed

/-- Fills a buffer of `n` bytes. -/
def Moment.fillRandom {cs : CeSecrets} (env : Moment cs) (n : ℕ) : Bytes :=
  (List.range n).map env.random

structure Vault (cs : CeSecrets) where
  device : DeviceKey cs.toKeyPairs
  ns : String

namespace Vault

open Outcome (Abort)
open StoreProg

abbrev Prog (α : Type) := StoreProg String Json String α

/-- An error is shown by its outermost context. -/
def context {α : Type} (message : String) (r : Except String α) : Except String α :=
  r.mapError fun _ => message

/-! ## Keys and fields -/

def secretKey (name : String) : String := "s." ++ name

def deviceKey (id : String) : String := "d." ++ id

def pairKey (code : String) : String := "p." ++ code

def enrolKey (id : String) : String := "enrol." ++ id

def grantKey (id : String) : String := "g." ++ id

/-- A field that holds a string. -/
def strField (record : Json) (k : String) : Option String := (record.field k).bind Json.asStr

def optionalStr (s : Option String) : Json := (s.map Json.str).getD .null

/-! ## Random texts -/

/-- Adds the digits of a hexadecimal number to a value, which must stay a byte. -/
def addDigits (value : ℕ) : List Char → Except String UInt8
  | [] => .ok (UInt8.ofNat value)
  | c :: rest =>
      match Hex.digitValue c with
      | none => .error "invalid digit found in string"
      | some digit =>
          if 16 * value + digit < 256 then addDigits (16 * value + digit) rest
          else .error "number too large to fit in target type"

/-- The integer parser for a byte in base 16, which takes a plus sign before the digits. -/
def fromStrRadix (src : String) : Except String UInt8 :=
  match src.toList with
  | [] => .error "cannot parse integer from empty string"
  | ['+'] => .error "invalid digit found in string"
  | '+' :: digits => addDigits 0 digits
  | digits => addDigits 0 digits

abbrev b64Encode (b : Bytes) : String := Hex.encode b

/-- The byte at an offset; the slice panics when an end of it is inside a character. -/
def decodePair (s : String) (i : ℕ) : Except Abort UInt8 := do
  let digits ← Outcome.require (.panic "byte index is not a char boundary") (Text.slice s i (i + 2))
  (fromStrRadix digits).mapError fun e => .error ("bad hex: " ++ e)

def b64Decode (s : String) : Except Abort Bytes :=
  if s.utf8ByteSize % 2 ≠ 0 then .error (.error "odd-length hex secret")
  else (List.range' 0 (s.utf8ByteSize / 2) 2).mapM (decodePair s)

def pairingAlphabet : List Char := "23456789ABCDEFGHJKLMNPQRSTUVWXYZ".toList

def pairingCode (r : Bytes) : String :=
  let symbols := r.map fun byte => pairingAlphabet.getD (byte.toNat % pairingAlphabet.length) '2'
  String.ofList (symbols.take 4 ++ '-' :: symbols.drop 4)

variable {cs : CeSecrets} (v : Vault cs) (env : Moment cs)

/-- The public half of a device as a record. -/
def publicValue (device : DeviceKey cs.toKeyPairs) : Json :=
  .ofFields [("id", .str device.id), ("ecdhPub", cs.jwkToJson device.ecdhPub),
    ("ecdsaPub", cs.jwkToJson device.ecdsaPub)]

/-! ## The master -/

/-- The master in an enrollment record, for the device that holds the private key. -/
def openMaster (device : DeviceKey cs.toKeyPairs) (record : Json) : Except String Bytes := do
  let wrapped ← Outcome.require "device record has no wrappedMaster"
    (record.field "wrappedMaster")
  let wrapped ← context "parse wrappedMaster" (cs.wrapFromJson wrapped)
  context "unwrap master" (cs.unwrapMaster device.ecdhPriv wrapped)

def loadMaster : Prog Bytes := do
  let record ← fetch (deviceKey v.device.id)
  let record ← require
    "this device is not enrolled in the vault — run pairing and approve it from a trusted device"
    record
  openMaster v.device record

def vaultExists : Prog Bool := do
  let record ← fetch "meta"
  return record.isSome

def isEnrolled : Prog Bool := do
  let record ← fetch (deviceKey v.device.id)
  return record.isSome

/-! ## Enrollment -/

/-- The signed record that enrolls a public half under an id. -/
def enrolRecord (pubv : Json) (master : Bytes) (label id : String) : Except String Json := do
  let ecdhPub ← Outcome.require "device public has no ecdhPub" (pubv.field "ecdhPub")
  let ecdsaPub ← Outcome.require "device public has no ecdsaPub" (pubv.field "ecdsaPub")
  let recip ← context "parse recipient ecdhPub" (cs.jwkFromJson ecdhPub)
  let wrapped ← context "wrap master to device" (cs.wrapMaster master recip (env.seed 0))
  let fields := [("id", .str id), ("label", .str label), ("ecdhPub", ecdhPub),
    ("ecdsaPub", ecdsaPub), ("wrappedMaster", cs.wrapToJson wrapped),
    ("addedAt", .str (env.now 0)), ("writer", .str v.device.id)]
  let sig ← cs.signRecord v.device (.ofFields fields) (env.seed 1)
  return .ofFields (fields ++ [("sig", .str sig)])

def enroll (pubv : Json) (master : Bytes) (label id : String) : Prog Unit := do
  let record ← v.enrolRecord env pubv master label id
  store (deviceKey id) record

def metaRecord : Json :=
  .ofFields [("createdAt", .str (env.now 1)), ("version", .int 2), ("owner", .str v.device.id)]

def recover (label : String) : Prog Unit := do
  let master ← context "derive owner master" (cs.deriveOwnerMaster v.device.ecdhPriv v.ns)
  let label := if label = "" then "this device (owner)" else label
  v.enroll env (publicValue v.device) master label v.device.id
  store "meta" (v.metaRecord env)

def init (label : String) : Prog Bool := do
  if ← vaultExists then
    return false
  v.recover env label
  return true

/-! ## Pairing -/

def pairRecord (code label : String) : Json :=
  .ofFields [("code", .str code), ("label", .str (if label = "" then "new device" else label)),
    ("ts", .str (env.now 0)), ("pub", publicValue v.device)]

def requestPairing (label : String) : Prog String := do
  let code := pairingCode (env.fillRandom 8)
  store (pairKey code) (v.pairRecord env code label)
  return code

def listPairing : Prog (List Json) := do
  let entries ← scan "p."
  return entries.map Prod.snd

def approvePairing (code : String) : Prog String := do
  let req ← fetch (pairKey code)
  let req ← require ("no pairing request with code " ++ code) req
  let pubv ← require "pairing request has no pub" (req.field "pub")
  let id ← require "pairing request pub has no id" (strField pubv "id")
  let label := (strField req "label").getD "new device"
  let master ← v.loadMaster
  v.enroll env pubv master label id
  remove (pairKey code)
  return id

/-! ## Enrol tokens -/

/-- The sum of a time and a number of seconds, which panics when it overflows. -/
def expiry (now : Int64) (ttlSecs : UInt64) : Except String Int :=
  let sum := now.toInt + ttlSecs.toInt64.toInt
  if -2 ^ 63 ≤ sum ∧ sum < 2 ^ 63 then .ok sum else .error "attempt to add with overflow"

def issueEnrolToken (label : String) (ttlSecs : UInt64) : Prog String := do
  let master ← v.loadMaster
  let secret := env.fillRandom 32
  let sealedMaster ← context "seal master under the enrol token"
    (cs.sealSecret secret master (env.seed 0))
  let id := cs.fingerprint secret
  let expires ← expiry (env.nowSecs 0) ttlSecs
  store (enrolKey id) (.ofFields [("id", .str id),
    ("label", .str (if label = "" then "enrolled device" else label)),
    ("sealed", cs.sealedToJson sealedMaster), ("expires", .int expires),
    ("ts", .int (env.nowSecs 1).toInt)])
  return id ++ "." ++ Hex.encode secret

/-- The master in the record of an enrol token, unless the token expired. -/
def openToken (secret : Bytes) (record : Json) : Except String Bytes := do
  let expires := ((record.field "expires").bind Json.asI64).getD 0
  Outcome.ensure (¬ expires < (env.nowSecs 0).toInt) "enrol token expired"
  let sealedMaster ← Outcome.require "enrol token has no sealed master" (record.field "sealed")
  let sealedMaster ← context "parse sealed master" (cs.sealedFromJson sealedMaster)
  context "recover master from enrol token" (cs.decryptSecret secret sealedMaster)

/-- The id and the secret in the text of a token. -/
def readToken (token : String) : Except Abort (String × Bytes) := do
  let (id, secretText) ← Outcome.require (.error "malformed enrol token (want <id>.<secret>)")
    (Text.splitOnce token '.')
  let secret ← Abort.context "decode enrol token secret" (b64Decode secretText)
  return (id, secret)

/-- A redemption, which may end in a panic. -/
def redeemEnrolTokenCall (token label : String) : StoreProg String Json Abort Unit := do
  let (id, secret) ← readToken token
  let record ← fetch (enrolKey id)
  let record ← require (.error "enrol token not found (already used, or never issued)") record
  let master ← (openToken env secret record).mapError Abort.error
  let label := if label = "" then "vm device" else label
  (v.enroll env (publicValue v.device) master label v.device.id).mapError Abort.error
  remove (enrolKey id)

/-- A redemption that ended with the message, be it that of an error or of a panic. -/
def redeemEnrolToken (token label : String) : Prog Unit :=
  (v.redeemEnrolTokenCall env token label).mapError Abort.message

/-! ## Devices -/

def deviceInfo (record : Json) : DeviceInfo :=
  let id := (strField record "id").getD ""
  ⟨id, (strField record "label").getD "", (strField record "addedAt").getD "",
    id = v.device.id⟩

def listDevices : Prog (List DeviceInfo) := do
  let entries ← scan "d."
  return entries.map fun e => v.deviceInfo e.2

def revokeDevice (id : String) : Prog Unit :=
  if id = v.device.id then fail "refusing to revoke the device you are using"
  else remove (deviceKey id)

/-! ## Secrets -/

/-- The public data of the next version of a secret. -/
def nextMeta (name : String) (bytes : Bytes) (kind : String) (pub : Option String)
    (rotated : Bool) (prev : Option Json) : Except String SecretMeta :=
  let version := ((prev.bind (·.field "version")).bind Json.asU64).getD 0 + 1
  if version < UInt64.size then
    .ok
      { name := name
        kind := kind
        version := version
        fp := cs.fingerprint bytes
        pub := pub <|> prev.bind (strField · "public")
        createdAt := (prev.bind (strField · "createdAt")).getD (env.now 0)
        rotatedAt := if rotated || prev.isSome then some (env.now 1) else none }
  else .error "attempt to add with overflow"

/-- The signed record of a secret. -/
def secretRecord (info : SecretMeta) (sealedBytes : cs.SealedSecret) : Except String Json := do
  let fields := [("name", .str info.name), ("type", .str info.kind),
    ("version", .int info.version), ("createdAt", .str info.createdAt),
    ("rotatedAt", optionalStr info.rotatedAt), ("sealed", cs.sealedToJson sealedBytes),
    ("public", optionalStr info.pub), ("display", .str info.kind), ("fp", .str info.fp),
    ("writer", .str v.device.id)]
  let sig ← cs.signRecord v.device (.ofFields fields) (env.seed 1)
  return .ofFields (fields ++ [("sig", .str sig)])

def storeSecret (name : String) (bytes : Bytes) (kind : String) (pub : Option String)
    (rotated : Bool) : Prog SecretMeta := do
  let master ← v.loadMaster
  let sealedBytes ← context "seal secret" (cs.sealSecret master bytes (env.seed 0))
  let prev ← fetch (secretKey name)
  let info ← nextMeta env name bytes kind pub rotated prev
  let record ← v.secretRecord env info sealedBytes
  store (secretKey name) record
  return info

def putSecret (name : String) (bytes : Bytes) (kind : String) : Prog SecretMeta :=
  v.storeSecret env name bytes kind none false

variable (cs) in
/-- The bytes in the record of a secret, for a holder of the master. -/
def openSecret (master : Bytes) (record : Json) : Except String RevealedSecret := do
  let sealedBytes ← Outcome.require "secret record has no sealed body" (record.field "sealed")
  let sealedBytes ← context "parse sealed secret" (cs.sealedFromJson sealedBytes)
  let bytes ← context "open secret" (cs.decryptSecret master sealedBytes)
  return ⟨bytes, (strField record "type").getD "opaque", strField record "public"⟩

def getSecret (name : String) : Prog RevealedSecret := do
  let record ← fetch (secretKey name)
  let record ← require ("no secret named " ++ name) record
  let master ← v.loadMaster
  openSecret cs master record

def secretMeta (record : Json) : SecretMeta where
  name := (strField record "name").getD ""
  kind := (strField record "type").getD ""
  version := ((record.field "version").bind Json.asU64).getD 1
  fp := (strField record "fp").getD ""
  pub := strField record "public"
  createdAt := (strField record "createdAt").getD ""
  rotatedAt := strField record "rotatedAt"

def listSecrets : Prog (List SecretMeta) := do
  let entries ← scan "s."
  return (entries.map fun e => secretMeta e.2).mergeSort fun a b => a.name ≤ b.name

def fingerprint (name : String) : Prog (Option String) := do
  let record ← fetch (secretKey name)
  return record.bind (strField · "fp")

def deleteSecret (name : String) : Prog Unit := remove (secretKey name)

/-! ## Grants -/

def grantId (r : Bytes) : String := Hex.encode r

def issueGrant (audience : String) (read : List String) (expires : Option String) :
    Prog IssuedGrant := do
  if !(← v.isEnrolled) then
    fail "only an enrolled device can issue grants"
  let id := grantId (env.fillRandom 8)
  let body := [("id", .str id), ("audience", .str audience),
    ("abilities", .arr (read.map fun n => .str ("read:" ++ n))), ("issuer", .str v.device.id),
    ("issued", .str (env.now 0)), ("expires", optionalStr expires)]
  let sig ← cs.signRecord v.device (.ofFields body) (env.seed 0)
  let record := Json.ofFields (body ++
    [("issuerEcdsaPub", cs.jwkToJson v.device.ecdsaPub), ("sig", .str sig)])
  store (grantKey id) record
  return ⟨id, cs.b64urlEncode record.compact.toUTF8.toList, record⟩

def listGrants : Prog (List Json) := do
  let entries ← scan "g."
  return entries.map Prod.snd

def revokeGrant (id : String) : Prog Unit := remove (grantKey id)

/-- The record without its signature and the signing key. -/
def signedBody (record : Json) : Json :=
  match record with
  | .obj fields => .obj (Json.removeField "issuerEcdsaPub" (Json.removeField "sig" fields))
  | other => other

def isObject : Json → Bool
  | .obj _ => true
  | _ => false

variable (cs) in
/-- A grant token with its signature checked, and the key that made it. -/
def readGrant (token : String) : Except String (Json × Json) := do
  let raw ← context "bad grant token" (cs.b64urlDecode token)
  let record ← context "bad grant token" (cs.fromSlice raw)
  Outcome.ensure (isObject record) "malformed grant"
  let sig ← Outcome.require "malformed grant" (strField record "sig")
  let issuerPub ← Outcome.require "malformed grant" (record.field "issuerEcdsaPub")
  let issuerJwk ← context "parse issuer ecdsaPub" (cs.jwkFromJson issuerPub)
  let valid ← cs.verifyRecord issuerJwk (signedBody record) sig
  Outcome.ensure valid "grant signature invalid"
  return (record, issuerPub)

variable (cs) in
/-- The checks of a grant that need no store. -/
def permitsRead (record : Json) (audience action name : String) (nowMs : Int) :
    Except String Unit := do
  let expired := ((strField record "expires").bind cs.parseIsoMs).any (· < nowMs)
  Outcome.ensure (!expired) "grant expired"
  Outcome.ensure (strField record "audience" = some audience) "grant audience mismatch"
  let abilities ← Outcome.require "malformed grant"
    ((record.field "abilities").bind Json.asArray)
  let want := action ++ ":" ++ name
  let wantStar := action ++ ":*"
  Outcome.ensure (abilities.any fun a => a.asStr = some want || a.asStr = some wantStar)
    ("grant does not permit " ++ want)

variable (cs) in
def verifyGrant (token audience action name : String) (nowMs : Int) : Prog Unit := do
  let (record, issuerPub) ← readGrant cs token
  let issuer ← require "malformed grant" (strField record "issuer")
  let device ← fetch (deviceKey issuer)
  let device ← require "grant issuer is not an enrolled device" device
  if device.field "ecdsaPub" ≠ some issuerPub then
    fail "grant issuer key mismatch"
  let id ← require "malformed grant" (strField record "id")
  let stored ← fetch (grantKey id)
  if stored.isNone then
    fail "grant revoked"
  permitsRead cs record audience action name nowMs

/-! ## Challenge-response authentication -/

/-- The proof of a device that it signed a challenge, with the signature. -/
def challengeProof (deviceId : String) (ecdsaPub : Json) (aud nonce ts sig : String) : Json :=
  .ofFields [("deviceId", .str deviceId), ("ecdsaPub", ecdsaPub), ("aud", .str aud),
    ("nonce", .str nonce), ("ts", .str ts), ("sig", .str sig)]

def signChallenge (aud nonce ts : String) (seed : cs.Seed) : Except String Json := do
  let sig ← cs.signChallenge v.device aud nonce ts seed
  return challengeProof v.device.id (cs.jwkToJson v.device.ecdsaPub) aud nonce ts sig

variable (cs) in
def verifyAuth (aud nonce : String) (proof : Json) : Prog String := do
  if !isObject proof then
    fail "malformed-proof"
  let sig ← require "malformed-proof" (strField proof "sig")
  let proofPub ← require "malformed-proof" (proof.field "ecdsaPub")
  if strField proof "aud" ≠ some aud then
    fail "aud-mismatch"
  if strField proof "nonce" ≠ some nonce then
    fail "nonce-mismatch"
  let deviceId ← require "malformed-proof" (strField proof "deviceId")
  let device ← fetch (deviceKey deviceId)
  let device ← require "not-enrolled" device
  if device.field "ecdsaPub" ≠ some proofPub then
    fail "device-key-mismatch"
  let ts ← require "malformed-proof" (strField proof "ts")
  let jwk ← context "parse proof ecdsaPub" (cs.jwkFromJson proofPub)
  if !(← cs.verifyAuth jwk aud deviceId nonce ts sig) then
    fail "bad-signature"
  return deviceId

end Vault

end CeIam
