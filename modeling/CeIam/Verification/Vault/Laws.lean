import CeIam.Library.JsonCanonical
import CeIam.Library.JsonText
import CeIam.Library.Hex
import CeIam.Library.Outcome
import CeIam.Model.CeSecrets

/-! # What the vault relies on

The properties of the cryptography that proofs about the vault use, and a symbolic
instance in which they hold: public keys, sealed texts and signatures name the private key
they belong to. -/

namespace CeIam.CeSecrets

/-- Opening undoes closing, nothing but what was sealed is ever opened, encodings read
back, and masters have the length of a key. -/
structure VaultLaws (cs : CeSecrets) : Prop where
  unwrap_wrap : ∀ {master priv seed blob}, cs.wrapMaster master (cs.ecdhPub priv) seed = .ok blob →
    cs.unwrapMaster priv blob = .ok master
  decrypt_seal : ∀ {key bytes seed box}, cs.sealSecret key bytes seed = .ok box →
    cs.decryptSecret key box = .ok bytes
  sealed_only : ∀ {key key' bytes bytes' seed box}, cs.sealSecret key bytes seed = .ok box →
    cs.decryptSecret key' box = .ok bytes' → bytes' = bytes
  derive_length : ∀ {priv ns master}, cs.deriveOwnerMaster priv ns = .ok master →
    master.length = 32
  read_jwk : ∀ jwk, cs.jwkFromJson (cs.jwkToJson jwk) = .ok jwk
  read_wrap : ∀ blob, cs.wrapFromJson (cs.wrapToJson blob) = .ok blob
  read_sealed : ∀ box, cs.sealedFromJson (cs.sealedToJson box) = .ok box

/-- The encodings are values of the JSON library, nested a few brackets deep. -/
structure EncodingLaws (cs : CeSecrets) (printed : FloatText → Prop) : Prop where
  jwk : ∀ jwk, (cs.jwkToJson jwk).Canonical printed 8
  wrap : ∀ blob, (cs.wrapToJson blob).Canonical printed 8
  box : ∀ box, (cs.sealedToJson box).Canonical printed 8

/-- The signature is one that the private key makes. -/
def MadeBy (cs : CeSecrets) (key : cs.EcdsaPriv) (sig : String) : Prop :=
  (∃ device record seed, device.ecdsaPriv = key ∧ cs.signRecord device record seed = .ok sig) ∨
    ∃ device aud nonce ts seed, device.ecdsaPriv = key ∧
      cs.signChallenge device aud nonce ts seed = .ok sig

/-- Signatures verify under the public half of the key that made them, and under no other. -/
structure SignatureLaws (cs : CeSecrets) : Prop where
  record_maker : ∀ {jwk record sig key}, cs.verifyRecord jwk record sig = .ok true →
    cs.MadeBy key sig → cs.ecdsaPub key = jwk
  challenge_maker : ∀ {jwk aud id nonce ts sig key},
    cs.verifyAuth jwk aud id nonce ts sig = .ok true → cs.MadeBy key sig → cs.ecdsaPub key = jwk
  challenge_verifies : ∀ device aud nonce ts, ∃ seed sig,
    cs.signChallenge device aud nonce ts seed = .ok sig ∧
      cs.verifyAuth device.ecdsaPub aud device.id nonce ts sig = .ok true

/-! ## A symbolic instance -/

inductive SymbolicJwk where
  | ecdh (priv : Bytes)
  | ecdsa (priv : String)

namespace SymbolicJwk

def toJson : SymbolicJwk → Json
  | .ecdh priv => .arr [.str "ECDH", .str (Hex.encode priv)]
  | .ecdsa priv => .arr [.str "ECDSA", .str priv]

def ofJson : Json → Except String SymbolicJwk
  | .arr [.str "ECDH", .str text] =>
      match Hex.decode text with
      | some priv => .ok (.ecdh priv)
      | none => .error "invalid point"
  | .arr [.str "ECDSA", .str priv] => .ok (.ecdsa priv)
  | _ => .error "invalid key"

end SymbolicJwk

/-- A text closed under a key. -/
abbrev Closed := Bytes × Bytes

namespace Closed

def toJson (c : Closed) : Json := .arr [.str (Hex.encode c.1), .str (Hex.encode c.2)]

def ofJson : Json → Except String Closed
  | .arr [.str key, .str text] =>
      match Hex.decode key, Hex.decode text with
      | some key, some text => .ok (key, text)
      | _, _ => .error "invalid box"
  | _ => .error "invalid box"

/-- The closed text, for the key it was closed under. -/
def openWith (c : Closed) (key : Bytes) : Except String Bytes :=
  if c.1 = key then .ok c.2 else .error "aead::Error"

end Closed

def symbolicSignature (key kind : String) (message : Json) : String :=
  Json.compact (.arr [.str kind, .str key, message])

def symbolicVerify (jwk : SymbolicJwk) (kind : String) (message : Json) (sig : String) : Bool :=
  match jwk with
  | .ecdh _ => false
  | .ecdsa key => sig = symbolicSignature key kind message

def challengeMessage (aud id nonce ts : String) : Json :=
  .arr [.str aud, .str id, .str nonce, .str ts]

noncomputable def symbolic : CeSecrets where
  EcdhPriv := { bytes : Bytes // bytes.length = 32 }
  EcdsaPriv := String
  Jwk := SymbolicJwk
  ecdhPub priv := .ecdh priv.1
  ecdsaPub := .ecdsa
  Seed := Unit
  WrapBlob := Closed
  SealedSecret := Closed
  deriveOwnerMaster priv _ := .ok priv.1
  wrapMaster master jwk _ :=
    match jwk with
    | .ecdh priv => .ok (priv, master)
    | .ecdsa _ => .error "not an ECDH key"
  unwrapMaster priv blob := blob.openWith priv.1
  sealSecret key bytes _ := .ok (key, bytes)
  decryptSecret key box := box.openWith key
  fingerprint := Hex.encode
  signRecord device record _ := .ok (symbolicSignature device.ecdsaPriv "record" record)
  verifyRecord jwk record sig := .ok (symbolicVerify jwk "record" record sig)
  signChallenge device aud nonce ts _ :=
    .ok (symbolicSignature device.ecdsaPriv "challenge" (challengeMessage aud device.id nonce ts))
  verifyAuth jwk aud id nonce ts sig :=
    .ok (symbolicVerify jwk "challenge" (challengeMessage aud id nonce ts) sig)
  parseIsoMs _ := none
  jwkToJson := SymbolicJwk.toJson
  jwkFromJson := SymbolicJwk.ofJson
  wrapToJson := Closed.toJson
  wrapFromJson := Closed.ofJson
  sealedToJson := Closed.toJson
  sealedFromJson := Closed.ofJson
  b64urlEncode := Hex.encode
  b64urlDecode text := (Hex.decode text).elim (.error "invalid byte") .ok
  fromSlice := Outcome.readBack fun record : Json => record.compact.toUTF8.toList

theorem SymbolicJwk.ofJson_toJson (jwk : SymbolicJwk) : ofJson jwk.toJson = .ok jwk := by
  cases jwk with
  | ecdh priv => simp [toJson, ofJson, Hex.decode_encode]
  | ecdsa priv => rfl

theorem Closed.ofJson_toJson (c : Closed) : ofJson c.toJson = .ok c := by
  simp [toJson, ofJson, Hex.decode_encode]

theorem Closed.openWith_eq_ok {c : Closed} {key bytes : Bytes} :
    c.openWith key = .ok bytes ↔ c = (key, bytes) := by
  obtain ⟨key', bytes'⟩ := c
  by_cases h : key' = key
  · simp [openWith, h]
  · simp [openWith, h]

theorem symbolic_vaultLaws : symbolic.VaultLaws where
  unwrap_wrap := by
    intro master priv seed blob h
    cases h
    exact Closed.openWith_eq_ok.mpr rfl
  decrypt_seal := by
    intro key bytes seed box h
    cases h
    exact Closed.openWith_eq_ok.mpr rfl
  sealed_only := by
    intro key key' bytes bytes' seed box h hopen
    cases h
    exact (congrArg Prod.snd (Closed.openWith_eq_ok.mp hopen)).symm
  derive_length := by
    intro priv ns master h
    cases h
    exact priv.2
  read_jwk := SymbolicJwk.ofJson_toJson
  read_wrap := Closed.ofJson_toJson
  read_sealed := Closed.ofJson_toJson

theorem canonical_pair {printed : FloatText → Prop} (a b : String) :
    (Json.arr [.str a, .str b]).Canonical printed 8 :=
  .arr 7 _ (by simp)

theorem symbolic_encodingLaws (printed : FloatText → Prop) : symbolic.EncodingLaws printed where
  jwk := by
    intro jwk
    cases jwk with
    | ecdh priv => exact canonical_pair _ _
    | ecdsa priv => exact canonical_pair _ _
  wrap blob := canonical_pair _ _
  box box := canonical_pair _ _

theorem key_of_symbolicSignature {key key' kind kind' : String} {message message' : Json}
    (h : symbolicSignature key kind message = symbolicSignature key' kind' message') :
    key = key' := by
  unfold symbolicSignature at h
  have htext := Json.compact_injective h
  simp only [Json.arr.injEq, List.cons.injEq, Json.str.injEq] at htext
  exact htext.2.1

theorem symbolicVerify_ecdsa {key kind sig : String} {message : Json} :
    symbolicVerify (.ecdsa key) kind message sig = true ↔
      sig = symbolicSignature key kind message :=
  decide_eq_true_iff

/-- A signature that verifies names the key that made it. -/
theorem key_of_symbolicVerify {jwk : SymbolicJwk} {key kind kind' : String}
    {message message' : Json}
    (h : symbolicVerify jwk kind message (symbolicSignature key kind' message') = true) :
    .ecdsa key = jwk := by
  cases jwk with
  | ecdh priv => cases h
  | ecdsa priv => rw [key_of_symbolicSignature (symbolicVerify_ecdsa.mp h)]

theorem symbolic_madeBy {key sig : String} (h : symbolic.MadeBy key sig) :
    ∃ kind message, sig = symbolicSignature key kind message := by
  rcases h with ⟨device, record, seed, rfl, hsig⟩ | ⟨device, aud, nonce, ts, seed, rfl, hsig⟩
  · exact ⟨"record", record, (Except.ok.inj hsig).symm⟩
  · exact ⟨"challenge", challengeMessage aud device.id nonce ts, (Except.ok.inj hsig).symm⟩

theorem symbolic_signatureLaws : symbolic.SignatureLaws where
  record_maker := by
    intro jwk record sig key hverify hmade
    obtain ⟨kind, message, rfl⟩ := symbolic_madeBy hmade
    exact key_of_symbolicVerify (Except.ok.inj hverify)
  challenge_maker := by
    intro jwk aud id nonce ts sig key hverify hmade
    obtain ⟨kind, message, rfl⟩ := symbolic_madeBy hmade
    exact key_of_symbolicVerify (Except.ok.inj hverify)
  challenge_verifies := by
    intro device aud nonce ts
    exact ⟨(), _, rfl, congrArg Except.ok (symbolicVerify_ecdsa.mpr rfl)⟩

end CeIam.CeSecrets
