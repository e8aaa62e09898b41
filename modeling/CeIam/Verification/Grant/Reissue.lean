import CeIam.Verification.Grant.Symbolic

/-! # Grants under a new root

Moving a grant to another root copies what its link says. The link is not verified, so that a
grant of which the signature is not valid becomes one that is. -/

namespace CeIam.Iam

variable {cc : CeCap} {signatureValid : SignedCapability → Bool}

/-! ## The same authority -/

section Definitions

variable (cc : CeCap)

/-- A service accepts the issuer of a grant, which is not revoked. -/
structure Trusts (iam : Iam) (selfId : NodeId) (isRevoked : NodeId → UInt64 → Bool) (g : Grant) :
    Prop where
  root : ∃ first ∈ g.chain.head?, first.cap.issuer = selfId ∨ first.cap.issuer ∈ iam.acceptedRoots
  live : ∀ link ∈ g.chain, isRevoked link.cap.issuer link.cap.nonce = false

/-- A service reads the token of a grant. -/
structure Reads (iam : Iam) (g : Grant) : Prop where
  size : g.token.utf8ByteSize ≤ iam.maxTokenBytes
  depth : g.chain.length ≤ iam.maxChainDepth

/-- One grant authorizes where its issuer is accepted what the other authorizes where the issuer
of that is accepted, as chains and as tokens. -/
def SameAuthority (g g' : Grant) : Prop :=
  ∀ (before after : Iam) (selfId : NodeId) (selfTags : List String) (now : UInt64)
    (requester : Principal) (action : String) (isRevoked isRevoked' : NodeId → UInt64 → Bool),
    Trusts before selfId isRevoked g → Trusts after selfId isRevoked' g' →
    (before.verifyChain cc selfId selfTags now requester action g.chain isRevoked = .ok () ↔
      after.verifyChain cc selfId selfTags now requester action g'.chain isRevoked' = .ok ()) ∧
    (Reads before g → Reads after g' →
      (before.verify cc selfId selfTags now requester action g.token isRevoked = .ok () ↔
        after.verify cc selfId selfTags now requester action g'.token isRevoked' = .ok ()))

end Definitions

/-- A grant of one link. -/
def single (cc : CeCap) (link : SignedCapability) : Grant :=
  .fromChain cc [link] (List.cons_ne_nil _ _)

theorem leaf_eq {g : Grant} {link : SignedCapability} (h : g.chain = [link]) : g.leaf = link := by
  obtain ⟨chain, token, hne⟩ := g
  cases h
  rfl

/-- What is moved to a new root is a link without a parent. -/
theorem reissueUnder_eq_ok {newRoot : cc.Identity} {g g' : Grant} {nonce : UInt64} :
    reissueUnder cc newRoot g nonce = .ok g' ↔
      ∃ link, g.chain = [link] ∧ link.cap.parent = none ∧
        g' = issueRoot cc newRoot ⟨link.cap.audience⟩
          ⟨link.cap.abilities, link.cap.resource, link.cap.caveats⟩ nonce := by
  rw [reissueUnder]
  by_cases hlength : g.chain.length = 1
  · obtain ⟨link, hlink⟩ := List.length_eq_one_iff.mp hlength
    rw [if_neg (not_not.mpr hlength), leaf_eq hlink, hlink]
    by_cases hparent : link.cap.parent.isSome = true
    · rw [if_pos hparent]
      refine iff_of_false nofun ?_
      rintro ⟨_, ⟨⟩, hnone, -⟩
      rw [hnone] at hparent
      cases hparent
    · rw [if_neg hparent, Except.ok.injEq]
      constructor
      · rintro rfl
        exact ⟨link, rfl, Option.not_isSome_iff_eq_none.mp hparent, rfl⟩
      · rintro ⟨_, ⟨⟩, -, rfl⟩
        rfl
  · rw [if_pos hlength]
    refine iff_of_false nofun ?_
    rintro ⟨link, hlink, -⟩
    rw [hlink] at hlength
    exact hlength rfl

/-! ## One link -/

/-- Two links that are valid alike and say the same to the same audience. -/
structure SameLink (signatureValid : SignedCapability → Bool) (link link' : SignedCapability) :
    Prop where
  valid : signatureValid link = signatureValid link'
  audience : link.cap.audience = link'.cap.audience
  scope : scopeOf link = scopeOf link'

theorem sixRules_trusted {iam : Iam} {selfId : NodeId} {selfTags : List String} {now : UInt64}
    {requester : NodeId} {action : String} {isRevoked : NodeId → UInt64 → Bool}
    {link : SignedCapability} (h : Trusts iam selfId isRevoked (single cc link)) :
    SixRules cc signatureValid selfId iam.acceptedRoots selfTags now requester action [link]
        isRevoked ↔
      signatureValid link = true ∧ (scopeOf link).caveats.AdmitsTime now ∧
        (scopeOf link).resource.Matches selfId selfTags ∧ link.cap.audience = requester ∧
        action ∈ (scopeOf link).abilities := by
  obtain ⟨first, hfirst, hroot⟩ := h.root
  cases hfirst
  have hlive := h.live link List.mem_cons_self
  rw [sixRules_singleton]
  simp only [hroot, hlive, scopeOf, true_and]

theorem SameLink.sameAuthority (laws : VerifierLaws cc signatureValid)
    {link link' : SignedCapability} (h : SameLink signatureValid link link') :
    SameAuthority cc (single cc link) (single cc link') := by
  intro before after selfId selfTags now requester action isRevoked isRevoked' htrusts htrusts'
  have hrules : SixRules cc signatureValid selfId before.acceptedRoots selfTags now
      requester.nodeId action [link] isRevoked ↔ SixRules cc signatureValid selfId
        after.acceptedRoots selfTags now requester.nodeId action [link'] isRevoked' := by
    rw [sixRules_trusted htrusts, sixRules_trusted htrusts', h.valid, h.audience, h.scope]
  constructor
  · rw [verifyChain_eq_ok, verifyChain_eq_ok, laws.authorize_iff, laws.authorize_iff]
    exact hrules
  · intro hreads hreads'
    rw [single, Grant.fromChain, verify_encodeChain laws, single, Grant.fromChain,
      verify_encodeChain laws, hrules]
    constructor
    · rintro ⟨-, -, h⟩
      exact ⟨hreads'.size, hreads'.depth, h⟩
    · rintro ⟨-, -, h⟩
      exact ⟨hreads.size, hreads.depth, h⟩

/-! ## Moving a grant -/

theorem reissueUnder_single {newRoot : cc.Identity} {link : SignedCapability} {nonce : UInt64}
    (hparent : link.cap.parent = none) :
    reissueUnder cc newRoot (single cc link) nonce =
      .ok (issueRoot cc newRoot ⟨link.cap.audience⟩
        ⟨link.cap.abilities, link.cap.resource, link.cap.caveats⟩ nonce) :=
  reissueUnder_eq_ok.mpr ⟨link, rfl, hparent, rfl⟩

/-- What a moved grant says is what the grant says, and it is valid. -/
theorem reissued_link (laws : VerifierLaws cc signatureValid) {newRoot : cc.Identity}
    {chain : List SignedCapability} {hchain : chain ≠ []} {nonce : UInt64} {g' : Grant}
    (h : reissueUnder cc newRoot (.fromChain cc chain hchain) nonce = .ok g') :
    ∃ link link', chain = [link] ∧ link.cap.parent = none ∧ g' = single cc link' ∧
      signatureValid link' = true ∧ link.cap.audience = link'.cap.audience ∧
      scopeOf link = scopeOf link' := by
  obtain ⟨link, hlink, hparent, rfl⟩ := reissueUnder_eq_ok.mp h
  exact ⟨link, _, hlink, hparent, rfl, laws.issue_valid .., by rw [laws.issue_cap],
    by rw [scopeOf, scopeOf, laws.issue_cap]⟩

/-- Grants keep their authority when they are moved to a new root, and only valid ones are
moved, exactly when the grant is no root grant or its signature is valid. -/
theorem reissueUnder_sameAuthority (laws : VerifierLaws cc signatureValid) (newRoot : cc.Identity)
    (chain : List SignedCapability) (hchain : chain ≠ []) (nonce : UInt64) :
    (∀ g', reissueUnder cc newRoot (.fromChain cc chain hchain) nonce = .ok g' →
      SameAuthority cc (.fromChain cc chain hchain) g' ∧
        ∀ link ∈ chain, signatureValid link = true) ↔
      ∀ link, chain = [link] → link.cap.parent = none → signatureValid link = true := by
  constructor
  · rintro h link rfl hparent
    exact (h _ (reissueUnder_single hparent)).2 link List.mem_cons_self
  · intro h g' hissued
    obtain ⟨link, link', rfl, hparent, rfl, hvalid', haudience, hscope⟩ :=
      reissued_link laws hissued
    have hvalid := h link rfl hparent
    have hsame : SameLink signatureValid link link' :=
      ⟨hvalid.trans hvalid'.symm, haudience, hscope⟩
    exact ⟨hsame.sameAuthority laws, List.forall_mem_singleton.mpr hvalid⟩

/-- A root grant that is not valid authorizes nothing, and all that it says once it is moved. -/
theorem reissueUnder_gains (laws : VerifierLaws cc signatureValid) {newRoot : cc.Identity}
    {link : SignedCapability} {nonce : UInt64} {g' : Grant} {iam : Iam} {selfId : NodeId}
    {isRevoked : NodeId → UInt64 → Bool} (selfTags : List String) (now : UInt64) (action : String)
    (hinvalid : signatureValid link = false)
    (hissued : reissueUnder cc newRoot (single cc link) nonce = .ok g')
    (htrusts : Trusts iam selfId isRevoked g') (htime : link.cap.caveats.AdmitsTime now)
    (hresource : link.cap.resource.Matches selfId selfTags)
    (haction : action ∈ link.cap.abilities) :
    iam.verifyChain cc selfId selfTags now ⟨link.cap.audience⟩ action [link] isRevoked ≠ .ok () ∧
      iam.verifyChain cc selfId selfTags now ⟨link.cap.audience⟩ action g'.chain isRevoked =
        .ok () := by
  obtain ⟨_, link', ⟨⟩, -, rfl, hvalid', haudience, hscope⟩ := reissued_link laws hissued
  rw [ne_eq, verifyChain_eq_ok, verifyChain_eq_ok, laws.authorize_iff, laws.authorize_iff]
  constructor
  · intro hrules
    have hvalid := hrules.signatures link List.mem_cons_self
    rw [hinvalid] at hvalid
    cases hvalid
  · refine (sixRules_trusted htrusts).mpr ⟨hvalid', ?_, ?_, haudience.symm, ?_⟩
    · exact hscope ▸ htime
    · exact hscope ▸ hresource
    · exact hscope ▸ haction

/-! ## A forged grant -/

/-- Writing on every node, in the name of the first identity. -/
def claimedCap : Capability :=
  ⟨.filled 1, .filled 3, ["storage:write"], .any, Conditions.default.toCaveats, 7, none⟩

def forgedLink : SignedCapability := ⟨claimedCap, []⟩

def genuineLink : SignedCapability := ⟨claimedCap, (NodeId.filled 1).bytes⟩

theorem reissueUnder_sameAuthority_genuine :
    ∃ g', reissueUnder symbolic (NodeId.filled 4) (single symbolic genuineLink) 8 = .ok g' ∧
      SameAuthority symbolic (single symbolic genuineLink) g' := by
  have hvalid : ∀ link, [genuineLink] = [link] → link.cap.parent = none →
      symbolicSignatureValid link = true := by
    rintro _ ⟨⟩ -
    decide
  exact ⟨_, reissueUnder_single rfl, ((reissueUnder_sameAuthority symbolic_verifierLaws
    (NodeId.filled 4) [genuineLink] (List.cons_ne_nil _ _) 8).mpr hvalid _
      (reissueUnder_single rfl)).1⟩

/-- A service on a node of its own that accepts the first identity and the new root. -/
def twoRoots : Iam := Iam.default.withAcceptedRoots [.filled 1, .filled 4]

/-- The forged grant is refused where its issuer is accepted, and accepted once it is moved. -/
theorem forged_grant_gains :
    ¬ ∀ g', reissueUnder symbolic (NodeId.filled 4) (single symbolic forgedLink) 8 = .ok g' →
      SameAuthority symbolic (single symbolic forgedLink) g' := by
  intro hclaim
  let moved := issueRoot symbolic (NodeId.filled 4) ⟨.filled 3⟩
    ⟨["storage:write"], .any, Conditions.default.toCaveats⟩ 8
  have hissued : reissueUnder symbolic (NodeId.filled 4) (single symbolic forgedLink) 8 =
      .ok moved := reissueUnder_single rfl
  have htrusts : Trusts twoRoots (.filled 5) (fun _ _ => false) (single symbolic forgedLink) :=
    ⟨⟨forgedLink, rfl, .inr (by decide +kernel)⟩, fun _ _ => rfl⟩
  have htrusts' : Trusts twoRoots (.filled 5) (fun _ _ => false) moved :=
    ⟨⟨_, rfl, .inr (by decide +kernel)⟩, fun _ _ => rfl⟩
  obtain ⟨hrefused, haccepted⟩ := reissueUnder_gains symbolic_verifierLaws [] 100 "storage:write"
    (by decide) hissued htrusts' ⟨by decide, .inl rfl⟩ trivial (by decide)
  exact hrefused ((hclaim _ hissued _ _ _ _ _ _ _ _ _ htrusts htrusts').1.mpr haccepted)

end CeIam.Iam
