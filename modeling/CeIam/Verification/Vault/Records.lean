import CeIam.Verification.Vault.Calls
import CeIam.Verification.Vault.Laws

/-! # Records are values of the JSON library

Whatever an operation writes is an object of texts, words of 64 bits, encodings, and what an
earlier record holds under a field. -/

namespace CeIam.Vault

variable {cs : CeSecrets} {printed : FloatText → Prop} {v : Vault cs} {env : Moment cs}

theorem canonical_optionalStr {n : ℕ} (text : Option String) :
    (optionalStr text).Canonical printed n := by
  cases text <;> simp [optionalStr]

theorem canonical_metaRecord : (v.metaRecord env).Canonical printed 1 :=
  Json.canonical_ofFields (by simpa using Json.Canonical.int 0 2 (by decide) (by decide))

/-- An expiry is a signed word. -/
theorem canonical_expiry {now : Int64} {ttlSecs : UInt64} {e : Int} {n : ℕ}
    (h : expiry now ttlSecs = .ok e) : (Json.int e).Canonical printed n := by
  rw [expiry] at h
  split at h
  · next hfits =>
      cases h
      exact .int n _ hfits.1 (hfits.2.trans (by decide))
  · cases h

theorem canonical_int64 (x : Int64) (n : ℕ) : (Json.int x.toInt).Canonical printed n :=
  .int n _ (Int64.le_toInt x) (x.toInt_lt.trans (by decide))

/-- The record of a grant, with its signature. -/
def grantRecord (v : Vault cs) (env : Moment cs) (audience : String) (read : List String)
    (expires : Option String) (sig : String) : Json :=
  .ofFields ([("id", .str (grantId (env.fillRandom 8))), ("audience", .str audience),
    ("abilities", .arr (read.map fun n => .str ("read:" ++ n))), ("issuer", .str v.device.id),
    ("issued", .str (env.now 0)), ("expires", optionalStr expires)] ++
    [("issuerEcdsaPub", cs.jwkToJson v.device.ecdsaPub), ("sig", .str sig)])

section Encodings

variable (laws : cs.EncodingLaws printed)

include laws

theorem canonical_publicValue (device : DeviceKey cs.toKeyPairs) :
    (publicValue device).Canonical printed 9 :=
  Json.canonical_ofFields (by simp [laws.jwk])

theorem canonical_pairRecord (code label : String) :
    (v.pairRecord env code label).Canonical printed 10 :=
  Json.canonical_ofFields (by simp [canonical_publicValue laws])

theorem canonical_enrolRecord {pubv record : Json} {master : Bytes} {label id : String} {n : ℕ}
    (hn : 8 ≤ n) (hpub : pubv.Canonical printed (n + 1))
    (h : v.enrolRecord env pubv master label id = .ok record) :
    record.Canonical printed (n + 1) := by
  simp only [enrolRecord, Outcome.bind_eq_ok, Outcome.require_eq_ok] at h
  obtain ⟨ecdhPub, hecdh, ecdsaPub, hecdsa, recip, -, wrapped, -, sig, -, hret⟩ := h
  cases hret
  have hecdhPub : ecdhPub.Canonical printed n := hpub.field hecdh
  have hecdsaPub : ecdsaPub.Canonical printed n := hpub.field hecdsa
  exact Json.canonical_ofFields (by simp [hecdhPub, hecdsaPub, (laws.wrap wrapped).mono hn])

theorem canonical_offerRecord {label : String} {box : cs.SealedSecret} {expires : Int}
    {ttlSecs : UInt64} (h : expiry (env.nowSecs 0) ttlSecs = .ok expires) :
    (offerRecord env label box expires).Canonical printed 9 :=
  Json.canonical_ofFields (by simp [laws.box, canonical_expiry h, canonical_int64])

theorem canonical_secretRecord {info : SecretMeta} {box : cs.SealedSecret} {record : Json}
    (hfits : info.version < UInt64.size) (h : v.secretRecord env info box = .ok record) :
    record.Canonical printed 9 := by
  obtain ⟨sig, -, hret⟩ := Outcome.bind_eq_ok.mp h
  cases hret
  have hversion : (Json.int info.version).Canonical printed 8 :=
    .int 8 _ (by omega) (by exact_mod_cast hfits)
  exact Json.canonical_ofFields (by simp [hversion, laws.box, canonical_optionalStr])

theorem canonical_grantRecord {audience : String} {read : List String} {expires : Option String}
    {sig : String} : (v.grantRecord env audience read expires sig).Canonical printed 9 := by
  have habilities : (Json.arr (read.map fun n => .str ("read:" ++ n))).Canonical printed 8 :=
    .arr 7 _ (by simp)
  exact Json.canonical_ofFields (by simp [habilities, canonical_optionalStr, laws.jwk])

end Encodings

end CeIam.Vault
