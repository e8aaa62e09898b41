import CeIam.Verification.Grant.Correctness

/-! # The bounds of a service

A service refuses tokens beyond a size and chains beyond a depth. Delegation checks neither,
and of the two ways to verify a chain only the one that decodes a token does. -/

namespace CeIam.Iam

variable {cc : CeCap} {iam : Iam} {signatureValid : SignedCapability → Bool} {selfId : NodeId}
  {selfTags : List String} {now : UInt64} {action : String} {isRevoked : NodeId → UInt64 → Bool}

/-! ## Delegation -/

/-- A link admits an action on a node at a time. -/
structure Admits (isRevoked : NodeId → UInt64 → Bool) (selfId : NodeId) (selfTags : List String)
    (now : UInt64) (action : String) (link : Capability) : Prop where
  ability : action ∈ link.abilities
  resource : link.resource.Matches selfId selfTags
  time : link.caveats.AdmitsTime now
  live : isRevoked link.issuer link.nonce = false

/-- The rules hold of a delegated chain when they hold of the chain it extends and the new link
admits the action. -/
theorem sixRules_delegate (laws : VerifierLaws cc signatureValid) {acceptedRoots : List NodeId}
    {holder : cc.Identity} {parent child : Grant} {audience : Principal} {narrower : Policy}
    {nonce : UInt64} {requester : NodeId} {held : String}
    (hchild : iam.attenuate cc holder parent audience narrower nonce = .ok child)
    (hparent : SixRules cc signatureValid selfId acceptedRoots selfTags now requester held
      parent.chain isRevoked)
    (hadmits : Admits isRevoked selfId selfTags now action child.leaf.cap) :
    SixRules cc signatureValid selfId acceptedRoots selfTags now audience.nodeId action
      child.chain isRevoked := by
  obtain ⟨haudience, scope, -, hwithin, rfl⟩ := attenuate_eq_ok.mp hchild
  obtain ⟨hability, hresource, htime, hlive⟩ := hadmits
  simp only [Grant.fromChain, Grant.leaf, List.getLast_append_singleton, laws.issue_cap]
    at hability hresource htime hlive
  have hall : ∀ {P : SignedCapability → Prop} {link}, (∀ l ∈ parent.chain, P l) → P link →
      ∀ l ∈ parent.chain ++ [link], P l := by
    intro P link hchain hlink
    rw [List.forall_mem_append]
    exact ⟨hchain, List.forall_mem_singleton.mpr hlink⟩
  constructor
  · obtain ⟨first, hfirst, hroot⟩ := hparent.roots
    exact ⟨first, List.mem_head?_append_of_mem_head? hfirst, hroot⟩
  · exact hall hparent.signatures (laws.issue_valid ..)
  · exact hall hparent.temporal (by simpa only [laws.issue_cap] using htime)
  · exact hall hparent.revocation (by simpa only [laws.issue_cap] using hlive)
  · exact hall hparent.resources (by simpa only [laws.issue_cap] using hresource)
  · refine List.isChain_append.mpr ⟨hparent.continuity, .singleton _, ?_⟩
    intro last hlast link hlink
    rw [List.getLast?_eq_some_getLast parent.nonempty] at hlast
    cases hlast
    cases hlink
    refine ⟨⟨?_, ?_⟩, ?_⟩
    · rw [laws.issue_cap]
      exact haudience.symm
    · rw [laws.issue_cap]
      rfl
    · rw [scopeOf, laws.issue_cap]
      exact hwithin
  · exact ⟨_, List.getLast?_concat, by rw [laws.issue_cap], by rwa [laws.issue_cap]⟩

/-- A delegated grant that admits an action is accepted for it, as the grant it comes from is,
exactly when one more link is within the bounds of the service. -/
theorem attenuate_accepted (laws : VerifierLaws cc signatureValid) {chain : List SignedCapability}
    {hchain : chain ≠ []} {holder : cc.Identity} {child : Grant} {audience : Principal}
    {narrower : Policy} {nonce : UInt64}
    (hparent : iam.verify cc selfId selfTags now (Grant.fromChain cc chain hchain).audience action
      (Grant.fromChain cc chain hchain).token isRevoked = .ok ())
    (hchild : iam.attenuate cc holder (.fromChain cc chain hchain) audience narrower nonce =
      .ok child)
    (hadmits : Admits isRevoked selfId selfTags now action child.leaf.cap) :
    iam.verify cc selfId selfTags now audience action child.token isRevoked = .ok () ↔
      chain.length < iam.maxChainDepth ∧ child.token.utf8ByteSize ≤ iam.maxTokenBytes := by
  obtain ⟨-, -, hrules⟩ := (verify_encodeChain laws).mp hparent
  have hextended := sixRules_delegate laws hchild hrules hadmits
  obtain ⟨-, scope, -, -, rfl⟩ := attenuate_eq_ok.mp hchild
  rw [Grant.fromChain, verify_encodeChain laws, Grant.fromChain, List.length_append,
    List.length_singleton]
  constructor
  · rintro ⟨hsize, hdepth, -⟩
    exact ⟨hdepth, hsize⟩
  · rintro ⟨hdepth, hsize⟩
    exact ⟨hsize, hdepth, hextended⟩

/-- A service that reads the tokens of the owner and the reader, and chains up to a depth. -/
noncomputable def boundedService (depth : ℕ) : Iam :=
  (storageService.withMaxChainDepth depth).withMaxTokenBytes
    (max ownerGrant.token.utf8ByteSize readerGrant.token.utf8ByteSize)

theorem readerGrant_delegated (depth : ℕ) :
    (boundedService depth).attenuate symbolic storageOwner ownerGrant ⟨storageReader⟩
      (.allow ["storage:read"] (.tag "gpu") .default) 8 = .ok readerGrant :=
  rfl

theorem readerGrant_admits :
    Admits (fun _ _ => false) storageOwner ["gpu"] 100 "storage:read" readerGrant.leaf.cap where
  ability := by decide
  resource := List.mem_singleton_self _
  time := ⟨by decide, .inl rfl⟩
  live := rfl

/-- The owner may read on its own node, however short the chains are that its service accepts. -/
theorem ownerGrant_accepted {depth : ℕ} (hdepth : 1 ≤ depth) :
    (boundedService depth).verify symbolic storageOwner ["gpu"] 100 ownerGrant.audience
      "storage:read" ownerGrant.token (fun _ _ => false) = .ok () := by
  have hsize : ownerGrant.token.utf8ByteSize ≤ (boundedService depth).maxTokenBytes :=
    le_max_left ..
  rw [ownerGrant] at hsize ⊢
  exact (verify_issueRoot symbolic_verifierLaws hdepth hsize).mpr
    ⟨.inl rfl, ⟨by decide, .inl rfl⟩, rfl, trivial, rfl, by decide⟩

/-- A service that accepts chains of two links accepts what the owner has delegated. -/
theorem attenuate_accepted_reader :
    (boundedService 2).verify symbolic storageOwner ["gpu"] 100 ⟨storageReader⟩ "storage:read"
      readerGrant.token (fun _ _ => false) = .ok () :=
  (attenuate_accepted symbolic_verifierLaws (ownerGrant_accepted (by decide))
    (readerGrant_delegated 2) readerGrant_admits).mpr ⟨Nat.lt_succ_self 1, le_max_right ..⟩

/-- A service that accepts single links delegates beyond what it accepts. -/
theorem readerGrant_too_deep :
    ¬ ∀ (iam : Iam) (child : Grant) (audience : Principal) (narrower : Policy) (nonce : UInt64),
      iam.verify symbolic storageOwner ["gpu"] 100 ownerGrant.audience "storage:read"
        ownerGrant.token (fun _ _ => false) = .ok () →
      iam.attenuate symbolic storageOwner ownerGrant audience narrower nonce = .ok child →
      Admits (fun _ _ => false) storageOwner ["gpu"] 100 "storage:read" child.leaf.cap →
      iam.verify symbolic storageOwner ["gpu"] 100 audience "storage:read" child.token
        (fun _ _ => false) = .ok () := by
  intro hclaim
  have haccepted := hclaim _ _ _ _ _ (ownerGrant_accepted (le_refl 1)) (readerGrant_delegated 1)
    readerGrant_admits
  obtain ⟨-, hdepth, -⟩ := (verify_encodeChain symbolic_verifierLaws).mp haccepted
  exact absurd hdepth (Nat.not_succ_le_self 1)

/-! ## The two ways to verify -/

/-- The two entry points agree on a chain whose token fits, and neither accepts a chain that is
empty or too deep, unless the rules hold of a chain that is too deep. -/
theorem verifyChain_agrees (laws : VerifierLaws cc signatureValid) (iam : Iam) (selfId : NodeId)
    (selfTags : List String) (now : UInt64) (requester : Principal) (action : String)
    (chain : List SignedCapability) (isRevoked : NodeId → UInt64 → Bool) :
    (((cc.encodeChain chain).utf8ByteSize ≤ iam.maxTokenBytes →
        (iam.verify cc selfId selfTags now requester action (cc.encodeChain chain) isRevoked =
            .ok () ↔
          iam.verifyChain cc selfId selfTags now requester action chain isRevoked = .ok ())) ∧
      (chain = [] ∨ iam.maxChainDepth < chain.length →
        iam.verify cc selfId selfTags now requester action (cc.encodeChain chain) isRevoked ≠
            .ok () ∧
          iam.verifyChain cc selfId selfTags now requester action chain isRevoked ≠ .ok ())) ↔
      ¬ (iam.maxChainDepth < chain.length ∧ SixRules cc signatureValid selfId iam.acceptedRoots
        selfTags now requester.nodeId action chain isRevoked) := by
  have hnil : chain = [] → ¬ SixRules cc signatureValid selfId iam.acceptedRoots selfTags now
      requester.nodeId action chain isRevoked := by
    rintro rfl
    exact not_sixRules_nil
  simp only [ne_eq, verify_encodeChain laws, verifyChain_eq_ok, laws.authorize_iff, ← not_le]
  constructor
  · rintro ⟨-, hrefused⟩ ⟨hdeep, hrules⟩
    exact (hrefused (.inr hdeep)).2 hrules
  · intro hshallow
    have hdepth : SixRules cc signatureValid selfId iam.acceptedRoots selfTags now
        requester.nodeId action chain isRevoked → chain.length ≤ iam.maxChainDepth := by
      intro hrules
      by_contra hdeep
      exact hshallow ⟨hdeep, hrules⟩
    constructor
    · intro hsize
      exact ⟨fun h => h.2.2, fun hrules => ⟨hsize, hdepth hrules, hrules⟩⟩
    · rintro (hempty | hdeep)
      · exact ⟨fun h => hnil hempty h.2.2, hnil hempty⟩
      · exact ⟨fun h => hdeep h.2.1, fun hrules => hdeep (hdepth hrules)⟩

/-- Within the depth of the service it makes no difference which way the chain is verified. -/
theorem verifyChain_agrees_reader :
    (boundedService 2).verify symbolic storageOwner ["gpu"] 100 ⟨storageReader⟩ "storage:read"
        (symbolic.encodeChain readerGrant.chain) (fun _ _ => false) = .ok () ↔
      (boundedService 2).verifyChain symbolic storageOwner ["gpu"] 100 ⟨storageReader⟩
        "storage:read" readerGrant.chain (fun _ _ => false) = .ok () :=
  ((verifyChain_agrees symbolic_verifierLaws (boundedService 2) storageOwner ["gpu"] 100
    ⟨storageReader⟩ "storage:read" readerGrant.chain fun _ _ => false).mpr
      fun h => absurd h.1 (Nat.lt_irrefl 2)).1 (le_max_right ..)

/-- The delegated chain, and the token of it, before a service that accepts single links. -/
theorem readerGrant_verifyChain_too_deep :
    ¬ ∀ (iam : Iam) (chain : List SignedCapability),
      ((symbolic.encodeChain chain).utf8ByteSize ≤ iam.maxTokenBytes →
        (iam.verify symbolic storageOwner ["gpu"] 100 ⟨storageReader⟩ "storage:read"
            (symbolic.encodeChain chain) (fun _ _ => false) = .ok () ↔
          iam.verifyChain symbolic storageOwner ["gpu"] 100 ⟨storageReader⟩ "storage:read" chain
            (fun _ _ => false) = .ok ())) ∧
      (chain = [] ∨ iam.maxChainDepth < chain.length →
        iam.verifyChain symbolic storageOwner ["gpu"] 100 ⟨storageReader⟩ "storage:read" chain
          (fun _ _ => false) ≠ .ok ()) := by
  intro hclaim
  obtain ⟨-, -, howner⟩ := (verify_encodeChain symbolic_verifierLaws).mp
    (ownerGrant_accepted (le_refl 1))
  have hreader := sixRules_delegate symbolic_verifierLaws (readerGrant_delegated 1) howner
    readerGrant_admits
  have hrefused := (hclaim (boundedService 1) readerGrant.chain).2
    (.inr (Nat.lt_succ_self 1))
  exact hrefused (verifyChain_eq_ok.mpr ((symbolic_verifierLaws.authorize_iff ..).mpr hreader))

end CeIam.Iam
