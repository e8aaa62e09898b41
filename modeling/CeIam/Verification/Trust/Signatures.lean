import Mathlib
import CeIam.Library.Outcome
import CeIam.Model.Attestation

/-! # What the signature of an attestation covers

The signed bytes are the JSON text of all fields, and different fields have different texts. A
signature that is good for one message only is therefore good for one body only. -/

namespace CeIam

/-! ## The signed text -/

theorem Claim.toJson_injective : Function.Injective Claim.toJson := by
  intro a b h
  cases a <;> cases b <;> simp_all [toJson]

namespace AttestationBody

theorem bytesJson_injective : Function.Injective bytesJson := by
  intro a b h
  refine List.map_injective_iff.mpr ?_ (Json.arr.inj h)
  intro x y hxy
  have hnat : (x.toNat : ℤ) = y.toNat := Json.int.inj hxy
  exact UInt8.toNat_inj.mp (by exact_mod_cast hnat)

theorem toJson_injective : Function.Injective toJson := by
  rintro ⟨⟨p, hp⟩, ⟨s, hs⟩, claim, level, ⟨y, hy⟩, issued, expires, nonce⟩
    ⟨⟨p', hp'⟩, ⟨s', hs'⟩, claim', level', ⟨y', hy'⟩, issued', expires', nonce'⟩ h
  simp only [toJson, Json.obj.injEq, List.cons.injEq, Prod.mk.injEq, true_and, and_true,
    bytesJson_injective.eq_iff, Claim.toJson_injective.eq_iff, Json.int.injEq, Nat.cast_inj,
    UInt8.toNat_inj, UInt64.toNat_inj] at h
  obtain ⟨rfl, rfl, rfl, rfl, rfl, rfl, rfl, rfl⟩ := h
  rfl

/-- Different bodies have different signed bytes. -/
theorem signingBytes_injective : Function.Injective signingBytes := by
  intro a b h
  have htext : a.toJson.compact = b.toJson.compact := String.toByteArray_inj.mp h
  exact toJson_injective (Json.compact_injective htext)

end AttestationBody

/-! ## Altered attestations -/

/-- A signature verifies for one message at most, under whatever key. -/
def CeIdentity.SignsOnce (ci : CeIdentity) : Prop :=
  ∀ (sig : Signature) (signer other : NodeId) (message text : ByteArray),
    ci.verify signer message sig = .ok () → ci.verify other text sig = .ok () → message = text

namespace Attestation

variable {ci : CeIdentity}

/-- What verifies has a signature by its provider over its body. -/
theorem verify_ok {a : Attestation} {now : UInt64} (h : a.verify ci now = .ok ()) :
    ∃ sig : Signature, Hex.decode a.sig = some sig.val ∧
      ci.verify a.body.provider a.body.signingBytes sig = .ok () := by
  rw [verify] at h
  split at h
  · cases h
  · split at h
    · cases h
    · next raw hraw =>
        split at h
        · next hsize => exact ⟨⟨raw, hsize⟩, hraw, h⟩
        · cases h

theorem body_eq_of_verify (hone : ci.SignsOnce) {a b : Attestation} {now later : UInt64}
    (ha : a.verify ci now = .ok ()) (hb : b.verify ci later = .ok ()) (hsig : b.sig = a.sig) :
    b.body = a.body := by
  obtain ⟨sig, hread, hverify⟩ := verify_ok ha
  obtain ⟨sig', hread', hverify'⟩ := verify_ok hb
  have hsame : sig' = sig := by
    rw [hsig, hread] at hread'
    exact (Subtype.ext (Option.some.inj hread')).symm
  rw [hsame] at hverify'
  exact AttestationBody.signingBytes_injective (hone _ _ _ _ _ hverify' hverify)

/-- Any two bodies are signed as different messages, and an attestation with the signature of a
valid one and another body is valid at no time. -/
theorem signature_binds (ci : CeIdentity) :
    (∀ a b : AttestationBody, a ≠ b → a.signingBytes ≠ b.signingBytes) ∧
    (ci.SignsOnce → ∀ (a altered : Attestation) (now later : UInt64), a.verify ci now = .ok () →
      altered.sig = a.sig → altered.body ≠ a.body → altered.verify ci later ≠ .ok ()) := by
  constructor
  · intro a b hne hbytes
    exact hne (AttestationBody.signingBytes_injective hbytes)
  · intro hone a altered now later ha hsig hne haltered
    exact hne (body_eq_of_verify hone ha haltered hsig)

/-! ## A raised level -/

/-- The provider 1 attests the subject 9 as a member. -/
def memberBody : AttestationBody where
  provider := .filled 1
  subject := .filled 9
  claim := .orgMember "builders"
  level := levelSocial
  pseudonym := Hex.filled 7
  issued := 0
  expires := 1000
  nonce := 1

theorem mark_size (signer : NodeId) : (signer.bytes ++ signer.bytes).length = 64 := by
  rw [List.length_append, signer.size]

/-- The mark that an identity puts under a message. -/
def mark (signer : NodeId) : Signature := ⟨signer.bytes ++ signer.bytes, mark_size signer⟩

/-- Identities of which one has signed one body. -/
def signedMember : CeIdentity where
  Identity := NodeId
  nodeId := id
  sign signer _ := mark signer
  verify signer message sig :=
    if signer = memberBody.provider ∧ message = memberBody.signingBytes ∧ sig = mark signer then
      .ok ()
    else .error "bad signature"

theorem signedMember_once : signedMember.SignsOnce := by
  have hmessage : ∀ signer message sig, signedMember.verify signer message sig = .ok () →
      message = memberBody.signingBytes := by
    intro signer message sig h
    simp only [signedMember] at h
    split at h
    · next hsigned => exact hsigned.2.1
    · cases h
  intro sig signer other message text h k
  rw [hmessage signer message sig h, hmessage other text sig k]

/-- The attestation of the member, with the level given. -/
def member (level : UInt8) : Attestation :=
  ⟨{ memberBody with level := level }, Hex.encode (mark memberBody.provider).val⟩

theorem signature_binds_member :
    (member levelSocial).verify signedMember 100 = .ok () ∧
      (member levelStrongEid).verify signedMember 100 ≠ .ok () := by
  have hvalid : (member levelSocial).verify signedMember 100 = .ok () := by
    have hsigned : signedMember.verify memberBody.provider memberBody.signingBytes
        (mark memberBody.provider) = .ok () := by simp [signedMember]
    rw [verify, if_neg (by decide)]
    simp only [member, Hex.decode_encode]
    rw [dif_pos (mark memberBody.provider).property]
    exact hsigned
  refine ⟨hvalid, (signature_binds signedMember).2 signedMember_once _ _ 100 100 hvalid rfl ?_⟩
  intro hsame
  have hlevel : levelStrongEid = levelSocial := congrArg AttestationBody.level hsame
  exact absurd hlevel (by decide)

end Attestation

end CeIam
