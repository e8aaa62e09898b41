import CeIam.Verification.Vault.Invariants

/-! # Impersonation through an altered record

Both verification paths compare the presented key with the stored one and never check the
signature of the enrollment record itself. Whoever can put a key of its own into the
record of a device passes as that device. -/

namespace CeIam.Vault

open StoreProg

variable {cs : CeSecrets} {s t : OrdMap String Json}

/-! ## What is accepted -/

/-- An accepted proof is signed by the key in the record of the device it names. -/
theorem verifyAuth_ok {aud nonce id : String} {proof : Json}
    (h : (verifyAuth cs aud nonce proof).run memStore s = (.ok id, t)) :
    ∃ record pub jwk sig ts, look s (.device id) = some record ∧
      record.field "ecdsaPub" = some pub ∧ cs.jwkFromJson pub = .ok jwk ∧
      strField proof "sig" = some sig ∧ cs.verifyAuth jwk aud id nonce ts sig = .ok true := by
  unfold verifyAuth at h
  simp only [run_bind_ok, run_check_ok, run_require_ok, run_fetch, run_lift, run_pure,
    context_eq_ok, memStore_get, Prod.mk.injEq, Except.ok.injEq] at h
  obtain ⟨-, sig, _, ⟨hsig, rfl⟩, pub, _, ⟨-, rfl⟩, -, -, id, _, ⟨-, rfl⟩, _, _, ⟨rfl, rfl⟩,
    record, _, ⟨hrecord, rfl⟩, hkey, ts, _, ⟨-, rfl⟩, jwk, _, ⟨hjwk, rfl⟩,
    valid, _, ⟨hverify, rfl⟩, hvalid, rfl, -⟩ := h
  have htrue : valid = true := by simpa using hvalid
  exact ⟨record, pub, jwk, sig, ts, hrecord, not_not.mp hkey, hjwk, hsig, htrue ▸ hverify⟩

/-- The fields of a proof are those it was made of. -/
theorem field_challengeProof (id : String) (pub : Json) (aud nonce ts sig : String) :
    let proof := challengeProof id pub aud nonce ts sig
    isObject proof = true ∧ strField proof "sig" = some sig ∧ proof.field "ecdsaPub" = some pub ∧
      strField proof "aud" = some aud ∧ strField proof "nonce" = some nonce ∧
      strField proof "deviceId" = some id ∧ strField proof "ts" = some ts := by
  refine ⟨rfl, ?_, ?_, ?_, ?_, ?_, ?_⟩ <;>
    simp [strField, challengeProof, Json.field_ofFields]

/-- A proof signed by the key in the record of the device it names is accepted. -/
theorem verifyAuth_accepts {device : DeviceKey cs.toKeyPairs} {record pub : Json}
    {aud nonce ts sig : String} (hrecord : look s (.device device.id) = some record)
    (hpub : record.field "ecdsaPub" = some pub) (hjwk : cs.jwkFromJson pub = .ok device.ecdsaPub)
    (hverify : cs.verifyAuth device.ecdsaPub aud device.id nonce ts sig = .ok true) :
    (verifyAuth cs aud nonce (challengeProof device.id pub aud nonce ts sig)).run
      memStore s = (.ok device.id, s) := by
  have hget : s[deviceKey device.id]? = some record := hrecord
  obtain ⟨hobject, hsig, hproof, haud, hnonce, hid, hts⟩ :=
    field_challengeProof device.id pub aud nonce ts sig
  unfold verifyAuth
  simp [run_bind, hobject, hsig, hproof, haud, hnonce, hid, hts, hget, hpub, hjwk, hverify]

/-- A token is read when it holds a record that is signed by the key in it. -/
theorem readGrant_ok {token : String} {grant pub : Json} :
    readGrant cs token = .ok (grant, pub) ↔ ∃ raw sig jwk, cs.b64urlDecode token = .ok raw ∧
      cs.fromSlice raw = .ok grant ∧ isObject grant = true ∧ strField grant "sig" = some sig ∧
      grant.field "issuerEcdsaPub" = some pub ∧ cs.jwkFromJson pub = .ok jwk ∧
      cs.verifyRecord jwk (signedBody grant) sig = .ok true := by
  simp only [readGrant, Outcome.bind_eq_ok, Outcome.require_eq_ok, Outcome.ensure_eq_ok,
    context_eq_ok]
  constructor
  · rintro ⟨raw, hraw, grant, hgrant, _, hobject, sig, hsig, pub, hpub, jwk, hjwk, valid, hverify,
      _, hvalid, hret⟩
    cases hret
    exact ⟨raw, sig, jwk, hraw, hgrant, hobject, hsig, hpub, hjwk, hvalid ▸ hverify⟩
  · rintro ⟨raw, sig, jwk, hraw, hgrant, hobject, hsig, hpub, hjwk, hverify⟩
    exact ⟨raw, hraw, grant, hgrant, (), hobject, sig, hsig, pub, hpub, jwk, hjwk, true, hverify,
      (), rfl, rfl⟩

/-- A grant is accepted when its token is read, its issuer has a record with the signing key,
it is in the store, and it permits what is asked. -/
theorem verifyGrant_iff {token audience action name : String} {nowMs : Int} :
    (verifyGrant cs token audience action name nowMs).run memStore s = (.ok (), t) ↔
      s = t ∧ ∃ grant pub issuer record id, readGrant cs token = .ok (grant, pub) ∧
        strField grant "issuer" = some issuer ∧ look s (.device issuer) = some record ∧
        record.field "ecdsaPub" = some pub ∧ strField grant "id" = some id ∧
        look s (.grant id) ≠ none ∧ permitsRead cs grant audience action name nowMs = .ok () := by
  unfold verifyGrant
  simp only [run_bind_ok, run_check_ok, run_require_ok, run_fetch, run_lift, memStore_get,
    Prod.mk.injEq, Except.ok.injEq]
  constructor
  · rintro ⟨⟨grant, pub⟩, _, ⟨hread, rfl⟩, issuer, _, ⟨hissuer, rfl⟩, _, _, ⟨rfl, rfl⟩,
      record, _, ⟨hrecord, rfl⟩, hkey, id, _, ⟨hid, rfl⟩, _, _, ⟨rfl, rfl⟩, hstored, hpermits, rfl⟩
    refine ⟨rfl, grant, pub, issuer, record, id, hread, hissuer, hrecord, not_not.mp hkey, hid, ?_,
      hpermits⟩
    intro hnone
    have hget : s[grantKey id]? = none := hnone
    exact hstored (by rw [hget]; rfl)
  · rintro ⟨rfl, grant, pub, issuer, record, id, hread, hissuer, hrecord, hkey, hid, hstored,
      hpermits⟩
    refine ⟨(grant, pub), s, ⟨hread, rfl⟩, issuer, s, ⟨hissuer, rfl⟩, _, s, ⟨rfl, rfl⟩, record, s,
      ⟨hrecord, rfl⟩, not_not.mpr hkey, id, s, ⟨hid, rfl⟩, _, s, ⟨rfl, rfl⟩, ?_, hpermits, rfl⟩
    intro hnone
    exact hstored (Option.isNone_iff_eq_none.mp hnone)

/-- An accepted grant is signed by the key in the record of its issuer. -/
theorem verifyGrant_ok {token audience action name : String} {nowMs : Int}
    (h : (verifyGrant cs token audience action name nowMs).run memStore s = (.ok (), t)) :
    ∃ raw grant issuer record pub jwk sig, cs.b64urlDecode token = .ok raw ∧
      cs.fromSlice raw = .ok grant ∧ strField grant "issuer" = some issuer ∧
      strField grant "sig" = some sig ∧ look s (.device issuer) = some record ∧
      record.field "ecdsaPub" = some pub ∧ cs.jwkFromJson pub = .ok jwk ∧
      cs.verifyRecord jwk (signedBody grant) sig = .ok true := by
  obtain ⟨-, grant, pub, issuer, record, id, hread, hissuer, hrecord, hkey, -⟩ :=
    verifyGrant_iff.mp h
  obtain ⟨raw, sig, jwk, hraw, hgrant, -, hsig, -, hjwk, hverify⟩ := readGrant_ok.mp hread
  exact ⟨raw, grant, issuer, record, pub, jwk, sig, hraw, hgrant, hissuer, hsig, hrecord, hkey,
    hjwk, hverify⟩

/-! ## Altered records -/

/-- The store after the record of a device was replaced or removed. -/
def alter (s : OrdMap String Json) (id : String) : Option Json → OrdMap String Json
  | some record => place s (.device id) record
  | none => drop s (.device id)

@[simp] theorem look_alter (s : OrdMap String Json) (id : String) (altered : Option Json) :
    look (alter s id altered) (.device id) = altered := by
  cases altered <;> simp [alter]

/-- No signature by a key other than the device's own is taken for one of the device. -/
def OwnKeyOnly (cs : CeSecrets) (s : OrdMap String Json) (device : DeviceKey cs.toKeyPairs) :
    Prop :=
  ∀ key sig, key ≠ device.ecdsaPriv → cs.MadeBy key sig →
    (∀ aud nonce proof, strField proof "sig" = some sig →
      ((verifyAuth cs aud nonce proof).run memStore s).1 ≠ .ok device.id) ∧
    ∀ token raw grant audience action name nowMs, cs.b64urlDecode token = .ok raw →
      cs.fromSlice raw = .ok grant → strField grant "issuer" = some device.id →
      strField grant "sig" = some sig →
      ((verifyGrant cs token audience action name nowMs).run memStore s).1 ≠ .ok ()

/-- The record holds the public half of no signing key but the device's own. -/
def NamesNoOtherKey (device : DeviceKey cs.toKeyPairs) (altered : Option Json) : Prop :=
  ∀ record pub jwk key, altered = some record → record.field "ecdsaPub" = some pub →
    cs.jwkFromJson pub = .ok jwk → cs.ecdsaPub key = jwk → key = device.ecdsaPriv

variable {device : DeviceKey cs.toKeyPairs}

theorem ownKeyOnly_of_namesNoOtherKey (laws : cs.SignatureLaws)
    (h : NamesNoOtherKey device (look s (.device device.id))) : OwnKeyOnly cs s device := by
  intro key sig hkey hmade
  constructor
  · intro aud nonce proof hsig haccept
    obtain ⟨record, pub, jwk, sig', ts, hrecord, hpub, hjwk, hsig', hverify⟩ :=
      verifyAuth_ok (run_of_fst haccept)
    cases hsig.symm.trans hsig'
    exact hkey (h record pub jwk key hrecord hpub hjwk (laws.challenge_maker hverify hmade))
  · intro token raw grant audience action name nowMs hraw hgrant hissuer hsig haccept
    obtain ⟨raw', grant', issuer, record, pub, jwk, sig', hraw', hgrant', hissuer', hsig',
      hrecord, hpub, hjwk, hverify⟩ := verifyGrant_ok (run_of_fst haccept)
    cases hraw.symm.trans hraw'
    cases hgrant.symm.trans hgrant'
    cases hissuer.symm.trans hissuer'
    cases hsig.symm.trans hsig'
    exact hkey (h record pub jwk key hrecord hpub hjwk (laws.record_maker hverify hmade))

/-- Whoever holds the key in the record signs challenges as the device. -/
theorem namesNoOtherKey_of_ownKeyOnly (laws : cs.SignatureLaws) (h : OwnKeyOnly cs s device) :
    NamesNoOtherKey device (look s (.device device.id)) := by
  intro record pub jwk key hrecord hpub hjwk hkey
  by_contra hne
  let impostor : DeviceKey cs.toKeyPairs := { device with ecdsaPriv := key }
  obtain ⟨seed, sig, hsign, hverify⟩ := laws.challenge_verifies impostor "" "" ""
  have hmade : cs.MadeBy key sig := .inr ⟨impostor, _, _, _, seed, rfl, hsign⟩
  have hparsed : cs.jwkFromJson pub = .ok impostor.ecdsaPub := by rw [hjwk, ← hkey]; rfl
  have hstored : look s (.device impostor.id) = some record := hrecord
  have haccept := verifyAuth_accepts hstored hpub hparsed hverify
  have hsig := (field_challengeProof device.id pub "" "" "" sig).2.1
  exact (h key sig hne hmade).1 _ _ _ hsig (congrArg Prod.fst haccept)

/-- In every reachable store an enrolled device has its own key in its record. After the
record was altered, signatures by other keys are refused exactly when the record holds the
public half of none of them. -/
theorem impersonation_iff (laws : cs.SignatureLaws) {devices : Set (DeviceKey cs.toKeyPairs)}
    (hids : Set.InjOn DeviceKey.id devices) {ns : String} {calls : List (Call cs)}
    (hrun : Run (called devices ns) ∅ calls s) (hdevice : device ∈ devices)
    (henrolled : s[deviceKey device.id]? ≠ none) :
    (∃ record, s[deviceKey device.id]? = some record ∧
      record.field "ecdsaPub" = some (cs.jwkToJson device.ecdsaPub)) ∧
    ∀ altered, OwnKeyOnly cs (alter s device.id altered) device ↔
      NamesNoOtherKey device altered := by
  constructor
  · obtain ⟨record, hrecord⟩ := Option.ne_none_iff_exists'.mp henrolled
    obtain ⟨d, hd, hid, hpub⟩ := identifies_of_run hrun (.device device.id) record hrecord
    cases hids hd hdevice hid
    exact ⟨record, hrecord, hpub⟩
  · intro altered
    constructor
    · intro h
      simpa only [look_alter] using namesNoOtherKey_of_ownKeyOnly laws h
    · intro h
      exact ownKeyOnly_of_namesNoOtherKey laws (by rwa [look_alter])

/-! ## A key of an attacker in the record of the owner -/

theorem impersonation_iff_laptop :
    ∃ calls s, Run (called {laptop} "home") ∅ calls s ∧
      (∃ record, s[deviceKey laptop.id]? = some record ∧
        record.field "ecdsaPub" = some (CeSecrets.symbolic.jwkToJson laptop.ecdsaPub)) ∧
      ∀ altered, OwnKeyOnly .symbolic (alter s laptop.id altered) laptop ↔
        NamesNoOtherKey laptop altered := by
  obtain ⟨record, s, -, hrecord, -, -, hcall⟩ := laptop_recovers (Set.mem_singleton laptop)
  have hrun := Run.single hcall
  have hids : Set.InjOn DeviceKey.id {laptop} := Set.injOn_singleton _ _
  have henrolled : s[deviceKey laptop.id]? ≠ none :=
    Option.ne_none_iff_exists'.mpr ⟨record, hrecord⟩
  exact ⟨_, s, hrun,
    impersonation_iff CeSecrets.symbolic_signatureLaws hids hrun rfl henrolled⟩

variable (cs) in
/-- The record with another signing key. -/
def withKey (key : cs.EcdsaPriv) (record : Json) : Json :=
  match record with
  | .obj fields => .obj (Json.insertField "ecdsaPub" (cs.jwkToJson (cs.ecdsaPub key)) fields)
  | other => other

theorem field_withKey {key : cs.EcdsaPriv} {record : Json} {k : String} {x : Json}
    (h : record.field k = some x) :
    (withKey cs key record).field "ecdsaPub" = some (cs.jwkToJson (cs.ecdsaPub key)) := by
  cases record with
  | obj fields => simp [withKey, Json.lookup_insertField]
  | _ => cases h

/-- An attacker's key in the record of the owner is taken for the owner's. -/
theorem substituted_key_accepted :
    ¬ ∀ calls s record key, Run (called {laptop} "home") ∅ calls s →
      s[deviceKey laptop.id]? = some record → key ≠ laptop.ecdsaPriv →
      OwnKeyOnly .symbolic
        (alter s laptop.id (some (withKey .symbolic key record))) laptop := by
  intro hclaim
  obtain ⟨record, s, -, hrecord, -, -, hcall⟩ := laptop_recovers (Set.mem_singleton laptop)
  have hrun := Run.single hcall
  obtain ⟨_, -, -, hpub⟩ := identifies_of_run hrun (.device laptop.id) record hrecord
  let key : CeSecrets.symbolic.EcdsaPriv := "attacker signing key"
  have hkey : key ≠ laptop.ecdsaPriv := show "attacker signing key" ≠ "laptop signing key" by decide
  have howned := hclaim _ s record key hrun hrecord hkey
  have hnames := namesNoOtherKey_of_ownKeyOnly CeSecrets.symbolic_signatureLaws howned
  rw [look_alter] at hnames
  have hparsed := CeSecrets.symbolic_vaultLaws.read_jwk (CeSecrets.symbolic.ecdsaPub key)
  exact hkey (hnames _ _ _ key rfl (field_withKey hpub) hparsed rfl)

end CeIam.Vault
