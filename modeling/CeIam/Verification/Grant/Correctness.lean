import CeIam.Verification.Grant.Exactness
import CeIam.Verification.Grant.Symbolic

/-! # Minting and delegating grants

The results about whole calls of the service: a delegated grant is never broader than
the grant it comes from, and a policy's grants verify for exactly what it permits. -/

namespace CeIam.Iam

/-- A service that knows two actions. -/
def storageService : Iam :=
  Iam.default.withActionUniverse ["storage:write", "storage:read"]

def storageOwner : NodeId := .filled 1

def storageReader : NodeId := .filled 2

/-- Everything on every node, and reading alone where a tag is advertised. -/
def storagePolicy : Policy where
  version := Policy.versionTag
  statements := [⟨none, .allow, ["storage:*"], .any, .default⟩,
    ⟨none, .allow, [" storage:read "], .tag "gpu", { Conditions.default with notAfter := some 9 }⟩]

def storageScopes : List Scope :=
  [⟨["storage:read", "storage:write"], .any, Conditions.default.toCaveats⟩,
    ⟨["storage:read"], .tag "gpu", { Conditions.default.toCaveats with notAfter := 9 }⟩]

variable {cc : CeCap} {iam : Iam} {policy : Policy}

/-! ## Delegation -/

/-- However often a minted grant is delegated, its chain starts at a root, every link is
issued by the holder of the one before, and no link grants more than any earlier one. -/
theorem delegation_never_broadens (laws : DelegationLaws cc) {mintedBy : Iam}
    {issuer : cc.Identity} {audience : Principal} {policy : Policy} {nonce : UInt64}
    {minted g : Grant} {ds : List (Delegation cc)}
    (hmint : mintedBy.mint cc issuer audience policy nonce = .ok minted)
    (hrun : Run (delegates cc) minted ds g) :
    WellDelegated cc g.chain ∧ minted.chain <+: g.chain ∧
      (∀ ds' g', Run (delegates cc) g ds' g' → g.chain <+: g'.chain) ∧
      ∀ (service : Iam) (holder : cc.Identity) (next : Principal) (narrower : Policy) (n : UInt64),
        (g.leaf.cap.audience ≠ cc.nodeId holder ∨
          ∃ scope, service.compile narrower = .ok scope ∧
            ∃ link ∈ g.chain, ¬ scope.Within cc link.cap) →
        ∃ e, service.attenuate cc holder g next narrower n = .error e := by
  obtain ⟨scope, -, hminted⟩ := Outcome.bind_eq_ok.mp hmint
  have hroot : WellDelegated cc minted.chain := by
    cases hminted
    exact wellDelegated_issueRoot laws issuer audience scope nonce
  have hwell := hrun.invariant (I := fun g => WellDelegated cc g.chain)
    (fun _ _ _ h hd => h.delegate laws hd) hroot
  refine ⟨hwell, delegations_extend hrun, fun _ _ => delegations_extend, ?_⟩
  intro service holder next narrower n hbad
  exact attenuate_refuses laws hwell next n hbad

noncomputable def ownerGrant : Grant :=
  issueRoot symbolic storageOwner ⟨storageOwner⟩
    ⟨["storage:read", "storage:write"], .any, Conditions.default.toCaveats⟩ 7

theorem ownerGrant_decoded : Iam.decode symbolic .default ownerGrant.token = .ok ownerGrant := by
  refine decode_encodeChain symbolic_verifierLaws ownerGrant.nonempty ?_ (by decide)
  refine (Json.utf8ByteSize_compact _).trans_le ?_
  decide +kernel

noncomputable def readerDelegation : Delegation symbolic where
  service := storageService
  holder := storageOwner
  audience := ⟨storageReader⟩
  narrower := .allow ["storage:read"] (.tag "gpu") .default
  nonce := 8

noncomputable def readerGrant : Grant :=
  .fromChain symbolic (ownerGrant.chain ++
    [symbolic.issue storageOwner storageReader ["storage:read"] (.tag "gpu")
      Conditions.default.toCaveats 8 (some (symbolic.id ownerGrant.leaf))]) (by simp)

/-- The owner's grant on every node, delegated once to read under a tag. -/
theorem delegation_never_broadens_reader :
    Run (delegates symbolic) ownerGrant [readerDelegation] readerGrant ∧
      WellDelegated symbolic readerGrant.chain := by
  have hmint : storageService.mint symbolic storageOwner ⟨storageOwner⟩
      (.allow ["storage:*"] .any .default) 7 = .ok ownerGrant := rfl
  have hdelegates : delegates symbolic ownerGrant readerDelegation readerGrant := by
    change Iam.attenuate symbolic storageService storageOwner ownerGrant ⟨storageReader⟩
      (.allow ["storage:read"] (.tag "gpu") .default) 8 = .ok readerGrant
    rfl
  have hrun := Run.single hdelegates
  exact ⟨hrun, (delegation_never_broadens symbolic_delegationLaws hmint hrun).1⟩

/-! ## Exactness -/

/-- A service that accepts chains of one link accepts some grant minted from a policy for
exactly the requests the policy permits. -/
theorem mintPolicy_exact {signatureValid : SignedCapability → Bool}
    (laws : VerifierLaws cc signatureValid) {issuer : cc.Identity} {audience : Principal}
    {base : UInt64} {grants : List Grant} {verifier : Iam} {selfId : NodeId}
    (hmint : iam.mintPolicy cc issuer audience policy base = .ok grants)
    (hdepth : 1 ≤ verifier.maxChainDepth)
    (hsize : ∀ g ∈ grants, g.token.utf8ByteSize ≤ verifier.maxTokenBytes)
    (haccepts : cc.nodeId issuer = selfId ∨ cc.nodeId issuer ∈ verifier.acceptedRoots)
    (action : String) (selfTags : List String) (now : UInt64) :
    (∃ g ∈ grants, verifier.verify cc selfId selfTags now audience action g.token
        (fun _ _ => false) = .ok ()) ↔
      policy.Permits iam action selfId selfTags now := by
  obtain ⟨scopes, hscopes, hsource, hminted⟩ := mintPolicy_eq_ok hmint
  rw [permits_iff_scope hscopes]
  constructor
  · rintro ⟨g, hg, hverify⟩
    obtain ⟨scope, hscope, nonce, rfl⟩ := hsource g hg
    obtain ⟨-, htime, -, hresource, -, haction⟩ :=
      (verify_issueRoot laws hdepth (hsize _ hg)).mp hverify
    exact ⟨scope, hscope, haction, hresource, htime⟩
  · rintro ⟨scope, hscope, haction, hresource, htime⟩
    obtain ⟨g, hg, nonce, rfl⟩ := hminted scope hscope
    exact ⟨_, hg, (verify_issueRoot laws hdepth (hsize _ hg)).mpr
      ⟨haccepts, htime, rfl, hresource, rfl, haction⟩⟩

theorem storageScopes_compiled (depth : ℕ) :
    (storageService.withMaxChainDepth depth).compileScopes storagePolicy = .ok storageScopes := by
  rfl

/-- Both scopes of the storage policy, under consecutive nonces. -/
noncomputable def storageGrants : List Grant :=
  storageScopes.zipIdx.map fun e =>
    issueRoot symbolic storageOwner ⟨storageReader⟩ e.1 (7 + UInt64.ofNat e.2)

theorem storageGrants_minted (depth : ℕ) :
    (storageService.withMaxChainDepth depth).mintPolicy symbolic storageOwner ⟨storageReader⟩
      storagePolicy 7 = .ok storageGrants := by
  unfold mintPolicy
  rw [storageScopes_compiled]
  rfl

theorem storageGrants_size : ∀ g ∈ storageGrants, g.token.utf8ByteSize ≤ defaultMaxTokenBytes := by
  have hsize : ∀ g ∈ storageGrants, String.utf8Len (Json.render Json.oneLine 0
      (.arr (g.chain.map SignedCapability.toJson))) ≤ defaultMaxTokenBytes := by
    decide +kernel
  intro g hg
  obtain ⟨e, -, rfl⟩ := List.mem_map.mp hg
  exact (Json.utf8ByteSize_compact _).trans_le (hsize _ hg)

/-- On the owner's node the reader may write with the grants of the storage policy. -/
theorem mintPolicy_exact_storage :
    (∃ g ∈ storageGrants, Iam.default.verify symbolic storageOwner [] 100
        ⟨storageReader⟩ "storage:write" g.token (fun _ _ => false) = .ok ()) ↔
      storagePolicy.Permits (storageService.withMaxChainDepth 1) "storage:write" storageOwner [] 100 :=
  mintPolicy_exact symbolic_verifierLaws (storageGrants_minted 1) (by decide) storageGrants_size
    (Or.inl rfl) "storage:write" [] 100

/-- A service whose depth limit is zero accepts no grant at all. -/
theorem mintPolicy_inexact_at_depth_zero :
    ¬ ∀ (iam : Iam) (policy : Policy) (base : UInt64) (grants : List Grant),
      iam.mintPolicy symbolic storageOwner ⟨storageReader⟩ policy base = .ok grants →
      (∀ g ∈ grants, g.token.utf8ByteSize ≤ iam.maxTokenBytes) →
      ∀ (action : String) (selfTags : List String) (now : UInt64),
        (∃ g ∈ grants, iam.verify symbolic storageOwner selfTags now ⟨storageReader⟩ action g.token
          (fun _ _ => false) = .ok ()) ↔
        policy.Permits iam action storageOwner selfTags now := by
  intro hclaim
  have hpermits : storagePolicy.Permits (storageService.withMaxChainDepth 0) "storage:write"
      storageOwner [] 100 := by
    rw [permits_iff_scope (storageScopes_compiled 0)]
    exact ⟨_, List.mem_cons_self, by decide, trivial, by decide, by decide⟩
  obtain ⟨g, -, hverify⟩ := (hclaim (storageService.withMaxChainDepth 0) storagePolicy 7
    storageGrants (storageGrants_minted 0) storageGrants_size "storage:write" [] 100).mpr hpermits
  obtain ⟨chain, hne, -, -, hdepth, -⟩ := verify_eq_ok.mp hverify
  exact hne (List.length_eq_zero_iff.mp (Nat.le_zero.mp hdepth))

end CeIam.Iam
