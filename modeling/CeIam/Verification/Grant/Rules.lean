import CeIam.Verification.Grant.Delegation

/-! # The six rules of verification

The chains the capability library accepts, as the security model states them, and the
facts about its calls that minting and verifying rely on. -/

namespace CeIam

/-- The nodes a resource selects. -/
def Resource.Matches (selfId : NodeId) (selfTags : List String) : Resource → Prop
  | .any => True
  | .node id => id = selfId
  | .tag t => t ∈ selfTags
  | .allOf ts => ∀ t ∈ ts, t ∈ selfTags

/-- The times a set of caveats admits; a bound of zero is no bound. -/
def Caveats.AdmitsTime (now : UInt64) (c : Caveats) : Prop :=
  c.notBefore ≤ now ∧ (c.notAfter = 0 ∨ now ≤ c.notAfter)

namespace Iam

/-- The rules by which a chain authorizes an action of the requester on a node. -/
structure SixRules (cc : CeCap) (signatureValid : SignedCapability → Bool) (selfId : NodeId)
    (acceptedRoots : List NodeId) (selfTags : List String) (now : UInt64) (requester : NodeId)
    (action : String) (chain : List SignedCapability) (isRevoked : NodeId → UInt64 → Bool) :
    Prop where
  roots : ∃ first ∈ chain.head?, first.cap.issuer = selfId ∨ first.cap.issuer ∈ acceptedRoots
  signatures : ∀ link ∈ chain, signatureValid link = true
  temporal : ∀ link ∈ chain, link.cap.caveats.AdmitsTime now
  revocation : ∀ link ∈ chain, isRevoked link.cap.issuer link.cap.nonce = false
  resources : ∀ link ∈ chain, link.cap.resource.Matches selfId selfTags
  continuity : chain.IsChain
    (fun p c => Continues cc p c ∧ (scopeOf c).Within cc p.cap)
  leaf : ∃ last ∈ chain.getLast?, last.cap.audience = requester ∧ action ∈ last.cap.abilities

/-- The facts about the capability library that verification relies on. -/
structure VerifierLaws (cc : CeCap) (signatureValid : SignedCapability → Bool) : Prop where
  issue_cap : ∀ issuer audience abilities resource caveats nonce parent,
    (cc.issue issuer audience abilities resource caveats nonce parent).cap =
      ⟨cc.nodeId issuer, audience, abilities, resource, caveats, nonce, parent⟩
  issue_valid : ∀ issuer audience abilities resource caveats nonce parent,
    signatureValid (cc.issue issuer audience abilities resource caveats nonce parent) = true
  decode_encode : ∀ chain, cc.decodeChain (cc.encodeChain chain) = .ok chain
  authorize_iff : ∀ selfId acceptedRoots selfTags now requester action chain isRevoked,
    cc.authorize selfId acceptedRoots selfTags now requester action chain isRevoked = .ok () ↔
      SixRules cc signatureValid selfId acceptedRoots selfTags now requester action chain isRevoked

/-! ## The verification entry point -/

variable {cc : CeCap} {iam : Iam} {selfId : NodeId} {selfTags : List String} {now : UInt64}
  {requester : Principal} {action : String} {isRevoked : NodeId → UInt64 → Bool}

theorem guardedDecode_eq_ok {token : String}
    {chain : {chain : List SignedCapability // chain ≠ []}} :
    iam.guardedDecode cc token = .ok chain ↔
      token.utf8ByteSize ≤ iam.maxTokenBytes ∧ cc.decodeChain token = .ok chain.val ∧
        chain.val.length ≤ iam.maxChainDepth := by
  obtain ⟨chain, hchain⟩ := chain
  unfold guardedDecode
  split
  · next h => simp [h]
  · next h =>
      split
      · next e he => simp [he]
      · next c hc =>
          simp only [hc, Except.ok.injEq]
          split
          · next hnil =>
              constructor
              · exact fun hcall => nomatch hcall
              · rintro ⟨-, rfl, -⟩
                exact absurd hnil hchain
          · next hnil =>
              split
              · next hdeep =>
                  constructor
                  · exact fun hcall => nomatch hcall
                  · rintro ⟨-, rfl, hlen⟩
                    exact absurd hlen (not_le.mpr hdeep)
              · next hdeep =>
                  simp only [Except.ok.injEq, Subtype.mk.injEq]
                  constructor
                  · rintro rfl
                    exact ⟨not_lt.mp h, rfl, not_lt.mp hdeep⟩
                  · exact fun hcall => hcall.2.1

/-- The token of a chain is decoded as the grant of that chain, within the service's bounds. -/
theorem decode_encodeChain {signatureValid : SignedCapability → Bool}
    (laws : VerifierLaws cc signatureValid) {chain : List SignedCapability} (hne : chain ≠ [])
    (hsize : (cc.encodeChain chain).utf8ByteSize ≤ iam.maxTokenBytes)
    (hdepth : chain.length ≤ iam.maxChainDepth) :
    iam.decode cc (cc.encodeChain chain) = .ok (.fromChain cc chain hne) := by
  have hguarded : iam.guardedDecode cc (cc.encodeChain chain) = .ok ⟨chain, hne⟩ :=
    guardedDecode_eq_ok.mpr ⟨hsize, laws.decode_encode chain, hdepth⟩
  rw [decode, hguarded]
  rfl

/-- A token is accepted when it decodes within the service's bounds to a chain that the
library authorizes. -/
theorem verify_eq_ok {token : String} :
    iam.verify cc selfId selfTags now requester action token isRevoked = .ok () ↔
      ∃ chain, chain ≠ [] ∧ token.utf8ByteSize ≤ iam.maxTokenBytes ∧
        cc.decodeChain token = .ok chain ∧ chain.length ≤ iam.maxChainDepth ∧
        cc.authorize selfId iam.acceptedRoots selfTags now requester.nodeId action chain
          isRevoked = .ok () := by
  simp only [verify, Outcome.bind_eq_ok, guardedDecode_eq_ok]
  constructor
  · rintro ⟨chain, ⟨hsize, hdecode, hdepth⟩, hauth⟩
    refine ⟨chain.val, chain.property, hsize, hdecode, hdepth, ?_⟩
    cases h : cc.authorize selfId iam.acceptedRoots selfTags now requester.nodeId action
        chain.val isRevoked with
    | ok u => rfl
    | error e => rw [h] at hauth; cases hauth
  · rintro ⟨chain, hne, hsize, hdecode, hdepth, hauth⟩
    exact ⟨⟨chain, hne⟩, ⟨hsize, hdecode, hdepth⟩, by rw [hauth]; rfl⟩

/-- Without a chain nothing is accepted, when the empty text decodes to none. -/
theorem verify_empty (hempty : ∀ chain, cc.decodeChain "" ≠ .ok chain) :
    iam.verify cc selfId selfTags now requester action "" isRevoked ≠ .ok () := by
  intro hverify
  obtain ⟨chain, -, -, hdecode, -⟩ := verify_eq_ok.mp hverify
  exact hempty chain hdecode

theorem verifyChain_eq_ok {chain : List SignedCapability} :
    iam.verifyChain cc selfId selfTags now requester action chain isRevoked = .ok () ↔
      cc.authorize selfId iam.acceptedRoots selfTags now requester.nodeId action chain
        isRevoked = .ok () := by
  rw [verifyChain]
  cases cc.authorize selfId iam.acceptedRoots selfTags now requester.nodeId action chain
      isRevoked with
  | ok u => exact iff_of_true rfl rfl
  | error e => exact iff_of_false nofun nofun

/-! ## Acceptance by the rules -/

variable {signatureValid : SignedCapability → Bool} {acceptedRoots : List NodeId}

theorem not_sixRules_nil {requester : NodeId} :
    ¬ SixRules cc signatureValid selfId acceptedRoots selfTags now requester action []
      isRevoked := by
  intro h
  obtain ⟨first, hfirst, -⟩ := h.roots
  cases hfirst

/-- A single link is accepted when it is issued by a root to the requester. -/
theorem sixRules_singleton {requester : NodeId} {link : SignedCapability} :
    SixRules cc signatureValid selfId acceptedRoots selfTags now requester action [link]
        isRevoked ↔
      (link.cap.issuer = selfId ∨ link.cap.issuer ∈ acceptedRoots) ∧
        signatureValid link = true ∧ link.cap.caveats.AdmitsTime now ∧
        isRevoked link.cap.issuer link.cap.nonce = false ∧
        link.cap.resource.Matches selfId selfTags ∧ link.cap.audience = requester ∧
        action ∈ link.cap.abilities := by
  constructor
  · intro h
    obtain ⟨first, hfirst, hroot⟩ := h.roots
    obtain ⟨last, hlast, hrequester, haction⟩ := h.leaf
    cases hfirst
    cases hlast
    exact ⟨hroot, h.signatures _ List.mem_cons_self, h.temporal _ List.mem_cons_self,
      h.revocation _ List.mem_cons_self, h.resources _ List.mem_cons_self, hrequester, haction⟩
  · rintro ⟨hroot, hvalid, htime, hlive, hresource, hrequester, haction⟩
    constructor
    · exact ⟨link, rfl, hroot⟩
    · exact List.forall_mem_singleton.mpr hvalid
    · exact List.forall_mem_singleton.mpr htime
    · exact List.forall_mem_singleton.mpr hlive
    · exact List.forall_mem_singleton.mpr hresource
    · exact .singleton _
    · exact ⟨link, rfl, hrequester, haction⟩

/-- A chain is accepted as a token when it keeps to the bounds and to the rules. -/
theorem verify_encodeChain (laws : VerifierLaws cc signatureValid)
    {chain : List SignedCapability} :
    iam.verify cc selfId selfTags now requester action (cc.encodeChain chain) isRevoked =
        .ok () ↔
      (cc.encodeChain chain).utf8ByteSize ≤ iam.maxTokenBytes ∧
        chain.length ≤ iam.maxChainDepth ∧
        SixRules cc signatureValid selfId iam.acceptedRoots selfTags now requester.nodeId action
          chain isRevoked := by
  rw [verify_eq_ok]
  simp only [laws.decode_encode, laws.authorize_iff, Except.ok.injEq]
  constructor
  · rintro ⟨_, -, hsize, rfl, hdepth, hrules⟩
    exact ⟨hsize, hdepth, hrules⟩
  · rintro ⟨hsize, hdepth, hrules⟩
    refine ⟨chain, ?_, hsize, rfl, hdepth, hrules⟩
    rintro rfl
    exact not_sixRules_nil hrules

/-- The token of a root grant is accepted exactly when the issuer is a root of the
verifier and the scope admits the request. -/
theorem verify_issueRoot {signatureValid : SignedCapability → Bool}
    (laws : VerifierLaws cc signatureValid) {issuer : cc.Identity} {audience : Principal}
    {scope : Scope} {nonce : UInt64} (hdepth : 1 ≤ iam.maxChainDepth)
    (hsize : (issueRoot cc issuer audience scope nonce).token.utf8ByteSize ≤ iam.maxTokenBytes) :
    iam.verify cc selfId selfTags now requester action
        (issueRoot cc issuer audience scope nonce).token isRevoked = .ok () ↔
      (cc.nodeId issuer = selfId ∨ cc.nodeId issuer ∈ iam.acceptedRoots) ∧
        scope.caveats.AdmitsTime now ∧ isRevoked (cc.nodeId issuer) nonce = false ∧
        scope.resource.Matches selfId selfTags ∧ audience = requester ∧
        action ∈ scope.abilities := by
  have haudience : audience.nodeId = requester.nodeId ↔ audience = requester := by
    cases audience
    cases requester
    rw [Principal.mk.injEq]
  rw [issueRoot, Grant.fromChain] at hsize ⊢
  rw [verify_encodeChain laws, sixRules_singleton, laws.issue_valid, laws.issue_cap, haudience]
  constructor
  · rintro ⟨-, -, hroot, -, hrest⟩
    exact ⟨hroot, hrest⟩
  · rintro ⟨hroot, hrest⟩
    exact ⟨hsize, hdepth, hroot, rfl, hrest⟩

end Iam

end CeIam
