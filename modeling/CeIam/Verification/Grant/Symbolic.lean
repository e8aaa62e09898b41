import CeIam.Verification.Grant.Rules
import CeIam.Verification.Grant.ScopeKey

/-! # A symbolic capability library

Signatures and link names are the issuer's identity, tokens are JSON text, and the six
rules decide. It meets every fact the service relies on, so these facts are consistent. -/

namespace CeIam

/-! ## Narrowing -/

/-- The tags a resource requires. -/
def Resource.requiredTags : Resource → List String
  | .any => []
  | .node _ => []
  | .tag t => [t]
  | .allOf ts => ts

/-- Every node selected by the first resource is selected by the second. -/
def Resource.isSubsetOf (r : Resource) : Resource → Bool
  | .any => true
  | .node id => r = .node id
  | .tag t => t ∈ r.requiredTags
  | .allOf ts => ∀ t ∈ ts, t ∈ r.requiredTags

theorem Resource.isSubsetOf_refl (r : Resource) : r.isSubsetOf r = true := by
  cases r <;> simp [isSubsetOf, requiredTags]

theorem Resource.requiredTags_subset {r s : Resource} (h : r.isSubsetOf s = true) :
    s.requiredTags ⊆ r.requiredTags := by
  cases s with
  | any => simp [requiredTags]
  | node id => simp [requiredTags]
  | tag t =>
      have ht : t ∈ r.requiredTags := by simpa only [isSubsetOf, decide_eq_true_eq] using h
      simpa [requiredTags] using ht
  | allOf ts =>
      have hts : ∀ t ∈ ts, t ∈ r.requiredTags := by
        simpa only [isSubsetOf, decide_eq_true_eq] using h
      exact hts

theorem Resource.isSubsetOf_trans {r s t : Resource} (h : r.isSubsetOf s = true)
    (k : s.isSubsetOf t = true) : r.isSubsetOf t = true := by
  have htags := requiredTags_subset h
  cases t with
  | any => rfl
  | node id =>
      have hs : s = .node id := by simpa [isSubsetOf] using k
      rwa [hs] at h
  | tag x =>
      have hx : x ∈ s.requiredTags := by simpa only [isSubsetOf, decide_eq_true_eq] using k
      simpa only [isSubsetOf, decide_eq_true_eq] using htags hx
  | allOf ts =>
      have hts : ∀ x ∈ ts, x ∈ s.requiredTags := by
        simpa only [isSubsetOf, decide_eq_true_eq] using k
      simpa only [isSubsetOf, decide_eq_true_eq] using fun x hx => htags (hts x hx)

/-- A bound that is present allows only what `le` relates to it. -/
def boundedBy {α : Type} (le : α → α → Bool) (child : Option α) : Option α → Bool
  | none => true
  | some limit => child.any (fun c => le c limit)

theorem boundedBy_refl {α : Type} {le : α → α → Bool} (hle : ∀ a, le a a = true)
    (a : Option α) : boundedBy le a a = true := by
  cases a <;> simp [boundedBy, hle]

theorem boundedBy_trans {α : Type} {le : α → α → Bool}
    (hle : ∀ a b c, le a b = true → le b c = true → le a c = true) {a b c : Option α}
    (h : boundedBy le a b = true) (k : boundedBy le b c = true) : boundedBy le a c = true := by
  cases c with
  | none => rfl
  | some limit =>
      obtain ⟨middle, rfl, hmiddle⟩ : ∃ middle, b = some middle ∧ le middle limit = true := by
        simpa [boundedBy, Option.any_eq_true] using k
      obtain ⟨child, rfl, hchild⟩ : ∃ child, a = some child ∧ le child middle = true := by
        simpa [boundedBy, Option.any_eq_true] using h
      simpa [boundedBy] using hle _ _ _ hchild hmiddle

namespace Caveats

/-- The expiry, when there is one. -/
def expiry (c : Caveats) : Option UInt64 := if c.notAfter = 0 then none else some c.notAfter

def isNarrowerOrEqual (child parent : Caveats) : Bool :=
  decide (parent.notBefore ≤ child.notBefore) &&
    boundedBy (fun a b => decide (a ≤ b)) child.expiry parent.expiry &&
    boundedBy (fun a b => decide (a ≤ b)) child.maxCpu parent.maxCpu &&
    boundedBy (fun a b => decide (a ≤ b)) child.maxMemMb parent.maxMemMb &&
    boundedBy (fun a b => decide (a ≤ b)) child.maxCredits parent.maxCredits &&
    boundedBy (fun a b => decide (a ⊆ b)) child.allowedPorts parent.allowedPorts &&
    boundedBy Text.startsWith child.pathPrefix parent.pathPrefix

theorem isNarrowerOrEqual_refl (c : Caveats) : c.isNarrowerOrEqual c = true := by
  have hpath : ∀ p, Text.startsWith p p = true := fun p =>
    Text.startsWith_iff.mpr ⟨"", by simp⟩
  simp [isNarrowerOrEqual, boundedBy_refl, hpath]

theorem isNarrowerOrEqual_trans {c d e : Caveats} (h : c.isNarrowerOrEqual d = true)
    (k : d.isNarrowerOrEqual e = true) : c.isNarrowerOrEqual e = true := by
  simp only [isNarrowerOrEqual, Bool.and_eq_true, decide_eq_true_eq] at h k ⊢
  obtain ⟨⟨⟨⟨⟨⟨h1, h2⟩, h3⟩, h4⟩, h5⟩, h6⟩, h7⟩ := h
  obtain ⟨⟨⟨⟨⟨⟨k1, k2⟩, k3⟩, k4⟩, k5⟩, k6⟩, k7⟩ := k
  have hwords : ∀ a b c : UInt64, decide (a ≤ b) = true → decide (b ≤ c) = true →
      decide (a ≤ c) = true := by
    simp only [decide_eq_true_eq]
    exact fun _ _ _ => UInt64.le_trans
  have hhalves : ∀ a b c : UInt32, decide (a ≤ b) = true → decide (b ≤ c) = true →
      decide (a ≤ c) = true := by
    simp only [decide_eq_true_eq]
    exact fun _ _ _ => UInt32.le_trans
  have hports : ∀ a b c : List UInt16, decide (a ⊆ b) = true → decide (b ⊆ c) = true →
      decide (a ⊆ c) = true := by
    simp only [decide_eq_true_eq]
    exact fun _ _ _ => List.Subset.trans
  have hpaths : ∀ a b c : String, Text.startsWith a b = true → Text.startsWith b c = true →
      Text.startsWith a c = true := by
    simp only [Text.startsWith_iff]
    rintro a b c ⟨x, rfl⟩ ⟨y, rfl⟩
    exact ⟨y ++ x, String.append_assoc⟩
  exact ⟨⟨⟨⟨⟨⟨UInt64.le_trans k1 h1, boundedBy_trans hwords h2 k2⟩, boundedBy_trans hhalves h3 k3⟩,
    boundedBy_trans hhalves h4 k4⟩, boundedBy_trans hwords h5 k5⟩, boundedBy_trans hports h6 k6⟩,
    boundedBy_trans hpaths h7 k7⟩

end Caveats

/-! ## Tokens -/

/-- The caveats as the conditions they come from. -/
def Caveats.toJson (c : Caveats) : Json :=
  Conditions.toJson ⟨some c.notBefore, some c.notAfter, c.maxCpu, c.maxMemMb, c.maxCredits,
    c.allowedPorts, c.pathPrefix⟩

theorem Caveats.toJson_injective : Function.Injective toJson := by
  rintro ⟨⟩ ⟨⟩ h
  have hconditions := Conditions.toJson_injective h
  simpa using hconditions

/-- The matcher that lowers to a resource. -/
def Resource.toMatch : Resource → ResourceMatch
  | .any => .any
  | .node id => .node (Principal.mk id).hex
  | .tag t => .tag t
  | .allOf ts => .allOf ts

theorem Resource.toMatch_injective : Function.Injective toMatch := by
  intro r s h
  cases r <;> cases s <;> simp_all [toMatch]

def CapId.toJson (id : CapId) : Json := .str (Hex.encode id)

def SignedCapability.toJson (link : SignedCapability) : Json :=
  .arr [.str (Hex.encode link.cap.issuer.bytes), .str (Hex.encode link.cap.audience.bytes),
    strings link.cap.abilities, link.cap.resource.toMatch.toJson, link.cap.caveats.toJson,
    .int link.cap.nonce.toNat, .arr (link.cap.parent.toList.map CapId.toJson),
    .str (Hex.encode link.sig)]

theorem SignedCapability.toJson_injective : Function.Injective toJson := by
  rintro ⟨⟨⟨i, _⟩, ⟨a, _⟩, ab, r, c, n, p⟩, sig⟩ ⟨⟨⟨i', _⟩, ⟨a', _⟩, ab', r', c', n', p'⟩, sig'⟩ h
  simp only [toJson, Json.arr.injEq, List.cons.injEq, Json.str.injEq, Json.int.injEq, and_true] at h
  obtain ⟨hi, ha, hab, hr, hc, hn, hp, hsig⟩ := h
  have hids : Function.Injective CapId.toJson := fun _ _ hid =>
    Hex.encode_injective (Json.str.inj hid)
  have hparent : p = p' := by
    have hlist := List.map_injective_iff.mpr hids hp
    cases p <;> cases p' <;> simp_all
  simp [Hex.encode_injective hi, Hex.encode_injective ha, strings_injective hab,
    Resource.toMatch_injective (ResourceMatch.toJson_injective hr), Caveats.toJson_injective hc,
    UInt64.toNat_inj.mp (Int.ofNat.inj hn), hparent, Hex.encode_injective hsig]

namespace Iam

def symbolicToken (chain : List SignedCapability) : String :=
  Json.compact (.arr (chain.map SignedCapability.toJson))

theorem symbolicToken_injective : Function.Injective symbolicToken := by
  intro a b h
  exact List.map_injective_iff.mpr SignedCapability.toJson_injective
    (Json.arr.inj (Json.compact_injective h))

theorem symbolicToken_ne_empty (chain : List SignedCapability) : symbolicToken chain ≠ "" := by
  intro h
  have hlist := congrArg String.toList h
  cases chain <;> simp [symbolicToken, Json.compact, Json.render] at hlist

/-! ## The library -/

def symbolicSignatureValid (link : SignedCapability) : Bool := link.sig = link.cap.issuer.bytes

/-- The library without its decision. -/
noncomputable def symbolicSigner : CeCap where
  Identity := NodeId
  nodeId := fun identity => identity
  issue := fun issuer audience abilities resource caveats nonce parent =>
    ⟨⟨issuer, audience, abilities, resource, caveats, nonce, parent⟩, issuer.bytes⟩
  id := fun link => link.sig
  isSubsetOf := Resource.isSubsetOf
  isNarrowerOrEqual := Caveats.isNarrowerOrEqual
  encodeChain := symbolicToken
  decodeChain := Outcome.readBack symbolicToken
  authorize := fun _ _ _ _ _ _ _ _ => .error "no rules"
  debugString := fun s => "\"" ++ s ++ "\""

open Classical in
/-- The library that decides by the six rules. -/
noncomputable def symbolic : CeCap :=
  { symbolicSigner with
    authorize := fun selfId acceptedRoots selfTags now requester action chain isRevoked =>
      if SixRules symbolicSigner symbolicSignatureValid selfId acceptedRoots selfTags now
          requester action chain isRevoked then .ok ()
      else .error "not authorized" }

theorem symbolic_empty (chain : List SignedCapability) : symbolic.decodeChain "" ≠ .ok chain :=
  fun hdecode => symbolicToken_ne_empty chain (Outcome.print_of_readBack hdecode)

theorem symbolic_delegationLaws : DelegationLaws symbolic where
  subset_refl := Resource.isSubsetOf_refl
  subset_trans := fun _ _ _ => Resource.isSubsetOf_trans
  narrower_refl := Caveats.isNarrowerOrEqual_refl
  narrower_trans := fun _ _ _ => Caveats.isNarrowerOrEqual_trans
  issue_cap := fun _ _ _ _ _ _ _ => rfl

theorem symbolic_verifierLaws : VerifierLaws symbolic symbolicSignatureValid where
  issue_cap := fun _ _ _ _ _ _ _ => rfl
  issue_valid := fun _ _ _ _ _ _ _ => by simp [symbolic, symbolicSigner, symbolicSignatureValid]
  decode_encode := Outcome.readBack_print symbolicToken_injective
  authorize_iff := fun selfId acceptedRoots selfTags now requester action chain isRevoked => by
    have hsame : SixRules symbolic symbolicSignatureValid selfId acceptedRoots selfTags now
        requester action chain isRevoked ↔ SixRules symbolicSigner symbolicSignatureValid selfId
          acceptedRoots selfTags now requester action chain isRevoked :=
      ⟨fun h => ⟨h.1, h.2, h.3, h.4, h.5, h.6.imp fun _ _ k => ⟨k.1, k.2.1, k.2.2, k.2.3⟩, h.7⟩,
        fun h => ⟨h.1, h.2, h.3, h.4, h.5, h.6.imp fun _ _ k => ⟨k.1, k.2.1, k.2.2, k.2.3⟩, h.7⟩⟩
    rw [hsame]
    simp only [symbolic]
    split
    · next h => simp [h]
    · next h => simp [h]

end Iam

end CeIam
