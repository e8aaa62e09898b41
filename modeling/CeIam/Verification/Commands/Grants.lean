import CeIam.Library.Branches
import CeIam.Library.Run
import CeIam.Model.Grants
import CeIam.Model.Revocation
import CeIam.Verification.Grant.Correctness
import CeIam.Verification.Grant.Trees

/-! # Grants in circulation

The tokens that commands print form trees: below a grant are the grants that were delegated from
it. Whatever is issued and revoked in whatever order, a token is accepted for what its last link
says until a grant that it comes from is revoked. -/

namespace CeIam

namespace Cli

open Iam

/-! ## Issuing a grant -/

section Issue

variable {cc : CeCap} {service : Iam} {parse : String → Except String CatalogLog}
  {env : CommandEnv cc.Identity} {a : GrantArgs} {disk : Disk}

theorem mint_eq_ok {iam : Iam} {issuer : cc.Identity} {audience : Principal} {policy : Policy}
    {nonce : UInt64} {g : Grant} (h : iam.mint cc issuer audience policy nonce = .ok g) :
    ∃ scope, g = issueRoot cc issuer audience scope nonce := by
  obtain ⟨scope, -, hg⟩ := Outcome.bind_eq_ok.mp h
  exact ⟨scope, (Except.ok.inj hg).symm⟩

theorem mintRole_eq_ok {iam : Iam} {issuer : cc.Identity} {audience : Principal}
    {catalog : Catalog} {role : String} {nonce : UInt64} {g : Grant}
    (h : iam.mintRole cc issuer audience catalog role nonce = .ok g) :
    ∃ scope, g = issueRoot cc issuer audience scope nonce := by
  obtain ⟨r, -, hmint⟩ := Outcome.bind_eq_ok.mp h
  exact mint_eq_ok hmint

/-- A grant that a command issues is a root grant of its identity, or a delegation by it of the
parent grant. -/
theorem grantFromArgs_eq_ok {identity : cc.Identity} {audience : Principal} {g : Grant}
    (h : grantFromArgs cc service parse env a identity audience disk = .ok g) :
    (∃ scope, g = issueRoot cc identity audience scope a.nonce) ∨
    ∃ token parent d, a.parent = some token ∧ service.decode cc token = .ok parent ∧
      delegates cc parent d g ∧ d.holder = identity ∧ d.nonce = a.nonce := by
  rw [grantFromArgs] at h
  cases hrole : a.role with
  | some role =>
      rw [hrole] at h
      obtain ⟨-, -, hopen⟩ := Outcome.bind_eq_ok.mp h
      obtain ⟨store, -, hmint⟩ := Outcome.bind_eq_ok.mp hopen
      exact .inl (mintRole_eq_ok (Outcome.mapError_eq_ok.mp hmint))
  | none =>
      rw [hrole] at h
      obtain ⟨-, -, hresource⟩ := Outcome.bind_eq_ok.mp h
      obtain ⟨resource, -, hissue⟩ := Outcome.bind_eq_ok.mp hresource
      cases hparent : a.parent with
      | none =>
          rw [hparent] at hissue
          exact .inl (mint_eq_ok (Outcome.mapError_eq_ok.mp hissue))
      | some token =>
          rw [hparent] at hissue
          obtain ⟨parent, hdecode, hattenuate⟩ := Outcome.bind_eq_ok.mp hissue
          exact .inr ⟨token, parent, ⟨service, identity, audience, _, a.nonce⟩, rfl,
            Outcome.mapError_eq_ok.mp hdecode, Outcome.mapError_eq_ok.mp hattenuate, rfl, rfl⟩

/-- Under a parent the flags are a policy that narrows it. -/
theorem grantFromArgs_parent {identity : cc.Identity} {audience : Principal} {token : String}
    {parent : Grant} {resource : ResourceMatch} (hrole : a.role = none) (hactions : a.actions ≠ [])
    (hresource : ResourceMatch.parse a.resource = .ok resource) (hparent : a.parent = some token)
    (hdecode : service.decode cc token = .ok parent) :
    grantFromArgs cc service parse env a identity audience disk =
      (service.attenuate cc identity parent audience
        (simplePolicy a.actions resource (buildConditions env.now a.conditions)) a.nonce).mapError
          IamError.display := by
  have hensure : Outcome.ensure (a.actions ≠ []) "provide --action (one or more) or --role" =
      .ok () := Outcome.ensure_eq_ok.mpr hactions
  simp only [grantFromArgs, hrole, hensure, hresource, hparent, hdecode]
  rfl

/-- A command without JSON output prints the token of the grant it issues. -/
theorem cmdGrant_of_grant {identity : cc.Identity} {audience : Principal} {g : Grant}
    (hidentity : env.identity = .ok identity) (haudience : a.audience = audience.hex)
    (hjson : a.json = false)
    (hgrant : grantFromArgs cc service parse env a identity audience disk = .ok g) :
    cmdGrant cc service parse env a disk = .ok ⟨g.token, none⟩ := by
  have hparsed : parsePrincipal "parsing --to" a.audience = .ok audience := by
    rw [haudience, parsePrincipal, Principal.parse_hex]
    rfl
  simp only [cmdGrant, hidentity, hparsed, hjson]
  change (grantFromArgs cc service parse env a identity audience disk).bind _ = _
  rw [hgrant]
  rfl

/-- What a command prints is the token of a grant that it issued. -/
theorem cmdGrant_eq_ok {reply : GrantReply}
    (h : cmdGrant cc service parse env a disk = .ok reply) :
    ∃ identity audience g, env.identity = .ok identity ∧
      grantFromArgs cc service parse env a identity audience disk = .ok g ∧
      reply.token = g.token := by
  obtain ⟨identity, hidentity, haudience⟩ := Outcome.bind_eq_ok.mp h
  obtain ⟨audience, -, hgrant⟩ := Outcome.bind_eq_ok.mp haudience
  obtain ⟨g, hg, hreply⟩ := Outcome.bind_eq_ok.mp hgrant
  refine ⟨identity, audience, g, hidentity, hg, ?_⟩
  split at hreply
  · obtain ⟨scope, -, hlast⟩ := Outcome.bind_eq_ok.mp hreply
    rw [← Except.ok.inj hlast]
  · rw [← Except.ok.inj hreply]

/-- Reissuing prints the token of a root grant of the machine's identity, which says what the link
says that was decoded. -/
theorem cmdRoot_reissue_eq_ok {parse : String → Except String (OrdMap String RootEntry)}
    {token : String} {nonce : UInt64} {g : Grant}
    (h : (cmdRoot cc service parse env (.reissue token nonce) disk).1 = .ok (.reissued g)) :
    ∃ identity grant link, env.identity = .ok identity ∧ service.decode cc token = .ok grant ∧
      grant.chain = [link] ∧ g = issueRoot cc identity ⟨link.cap.audience⟩
        ⟨link.cap.abilities, link.cap.resource, link.cap.caveats⟩ nonce := by
  rw [cmdRoot] at h
  cases hjob : rootJob cc service env (.reissue token nonce) with
  | error e =>
      rw [hjob] at h
      cases h
  | ok job =>
      obtain ⟨identity, hidentity, hdecode⟩ := Outcome.bind_eq_ok.mp hjob
      obtain ⟨grant, hgrant, hreissue⟩ := Outcome.bind_eq_ok.mp hdecode
      obtain ⟨g', hg', hlast⟩ := Outcome.bind_eq_ok.mp hreissue
      obtain ⟨link, hlink, -, hroot⟩ := reissueUnder_eq_ok.mp (Outcome.mapError_eq_ok.mp hg')
      rw [hjob, ← Except.ok.inj hlast] at h
      cases h
      exact ⟨identity, grant, link, hidentity, Outcome.mapError_eq_ok.mp hgrant, hlink, hroot⟩

end Issue

end Cli

/-! ## Tokens in circulation -/

/-- The tokens that were printed, and the pairs that were revoked. -/
structure Circulation where
  tokens : List String
  revoked : RevocationSet

/-- A command of some machine prints a token, or a pair is revoked. -/
inductive GrantEvent (cc : CeCap) where
  | grant (env : CommandEnv cc.Identity) (a : Cli.GrantArgs) (disk : Disk)
  | reissue (env : CommandEnv cc.Identity) (token : String) (nonce : UInt64) (disk : Disk)
  | revoke (issuer : NodeId) (nonce : UInt64)

def RevocationSet.revoke (s : RevocationSet) (issuer : NodeId) (nonce : UInt64) : RevocationSet :=
  ⟨insert (issuer, nonce) s.revoked⟩

namespace Circulation

open Iam

variable (cc : CeCap) (service : Iam) (parseLog : String → Except String CatalogLog)
  (parseRoots : String → Except String (OrdMap String RootEntry))

def empty : Circulation := ⟨[], .empty⟩

/-- One event; the parent of a grant is a token that circulates. -/
def Step (s : Circulation) (e : GrantEvent cc) (t : Circulation) : Prop :=
  match e with
  | .grant env a disk => ∃ reply, Cli.cmdGrant cc service parseLog env a disk = .ok reply ∧
      (∀ token ∈ a.parent, token ∈ s.tokens) ∧ t = ⟨s.tokens ++ [reply.token], s.revoked⟩
  | .reissue env token nonce disk => ∃ g,
      (Cli.cmdRoot cc service parseRoots env (.reissue token nonce) disk).1 =
        .ok (.reissued g) ∧ t = ⟨s.tokens ++ [g.token], s.revoked⟩
  | .revoke issuer nonce => t = ⟨s.tokens, s.revoked.revoke issuer nonce⟩

/-- A grant of which the token circulates. -/
structure Holds (s : Circulation) (g : Grant) : Prop where
  circulates : g.token ∈ s.tokens
  token : g.token = cc.encodeChain g.chain

/-- The pair by which a grant is revoked. -/
def name (g : Grant) : NodeId × UInt64 := (g.leaf.cap.issuer, g.leaf.cap.nonce)

/-- A grant comes from another one, or is it. -/
def Under (g above : Grant) : Prop := above.chain <+: g.chain

/-- A chain of which the token circulates. -/
def Has (s : Circulation) (chain : List SignedCapability) : Prop :=
  chain ≠ [] ∧ cc.encodeChain chain ∈ s.tokens

variable (signatureValid : SignedCapability → Bool)

/-- The tokens are those of delegated chains, and with a chain its beginnings circulate. -/
structure Sound (s : Circulation) : Prop where
  tree : Rooted (s.Has cc)
  grants : ∀ token ∈ s.tokens, ∃ g, Holds cc s g ∧ g.token = token
  delegated : ∀ g, Holds cc s g → WellDelegated cc g.chain
  valid : ∀ g, Holds cc s g → ∀ link ∈ g.chain, signatureValid link = true

/-- A grant that is new: a root grant, or one link below a grant that circulates. -/
structure Extends (s : Circulation) (n : NodeId × UInt64) (g : Grant) : Prop where
  token : g.token = cc.encodeChain g.chain
  above : ∃ above link, g.chain = above ++ [link] ∧ (above = [] ∨ s.Has cc above)
  delegated : WellDelegated cc g.chain
  valid : ∀ link ∈ g.chain, signatureValid link = true
  named : name g = n

/-! ### Steps -/

variable {cc service parseLog parseRoots signatureValid} {s t : Circulation} {g : Grant}
  {e : GrantEvent cc} {events : List (GrantEvent cc)}

/-- The pair by which the grant of an event is revoked. -/
def issued : GrantEvent cc → Option (NodeId × UInt64)
  | .grant env a _ => env.identity.toOption.map fun i => (cc.nodeId i, a.nonce)
  | .reissue env _ nonce _ => env.identity.toOption.map fun i => (cc.nodeId i, nonce)
  | .revoke _ _ => none

theorem encodeChain_injective (laws : VerifierLaws cc signatureValid) :
    Function.Injective cc.encodeChain := by
  intro a b h
  have hdecode := laws.decode_encode a
  rw [h, laws.decode_encode] at hdecode
  exact (Except.ok.inj hdecode).symm

theorem extends_root (dlaws : DelegationLaws cc) (laws : VerifierLaws cc signatureValid)
    (identity : cc.Identity) (audience : Principal) (scope : Scope) (nonce : UInt64) :
    Extends cc signatureValid s (cc.nodeId identity, nonce)
      (issueRoot cc identity audience scope nonce) where
  token := rfl
  above := ⟨[], _, rfl, .inl rfl⟩
  delegated := wellDelegated_issueRoot dlaws identity audience scope nonce
  valid := List.forall_mem_singleton.mpr (laws.issue_valid ..)
  named := by simp [name, issueRoot, Grant.fromChain, Grant.leaf, laws.issue_cap]

theorem Sound.extends_delegate (dlaws : DelegationLaws cc) (laws : VerifierLaws cc signatureValid)
    (h : Sound cc signatureValid s) {parent : Grant} {d : Delegation cc}
    (hparent : Holds cc s parent) (hd : delegates cc parent d g) :
    Extends cc signatureValid s (cc.nodeId d.holder, d.nonce) g := by
  have hwell := (h.delegated parent hparent).delegate dlaws hd
  obtain ⟨-, scope, -, -, rfl⟩ := attenuate_eq_ok.mp hd
  have hcirculates : cc.encodeChain parent.chain ∈ s.tokens := hparent.token ▸ hparent.circulates
  exact
    { token := rfl
      above := ⟨parent.chain, _, rfl, .inr ⟨parent.nonempty, hcirculates⟩⟩
      delegated := hwell
      valid := List.forall_mem_append.mpr
        ⟨h.valid parent hparent, List.forall_mem_singleton.mpr (laws.issue_valid ..)⟩
      named := by simp [name, Grant.fromChain, Grant.leaf, laws.issue_cap] }

/-- The parent that a command decodes circulates, when its token does. -/
theorem Sound.holds_of_decode (laws : VerifierLaws cc signatureValid)
    (h : Sound cc signatureValid s) {token : String} (htoken : token ∈ s.tokens)
    (hdecode : service.decode cc token = .ok g) : Holds cc s g := by
  obtain ⟨chain, hchain, hg⟩ := Outcome.bind_eq_ok.mp hdecode
  obtain ⟨-, hread, -⟩ := guardedDecode_eq_ok.mp hchain
  obtain ⟨held, hheld, rfl⟩ := h.grants token htoken
  rw [hheld.token, laws.decode_encode, Except.ok.injEq] at hread
  have hsame : cc.encodeChain chain.val = held.token := by rw [← hread, hheld.token]
  cases hg
  refine ⟨?_, rfl⟩
  change cc.encodeChain chain.val ∈ s.tokens
  rw [hsame]
  exact htoken

/-- An event issues a grant that is new under its name, or revokes a pair. -/
theorem Sound.step_cases (dlaws : DelegationLaws cc) (laws : VerifierLaws cc signatureValid)
    (h : Sound cc signatureValid s) (hstep : Step cc service parseLog parseRoots s e t) :
    (∃ n g, issued e = some n ∧ Extends cc signatureValid s n g ∧
      t = ⟨s.tokens ++ [g.token], s.revoked⟩) ∨
    ∃ issuer nonce, e = .revoke issuer nonce ∧ t = ⟨s.tokens, s.revoked.revoke issuer nonce⟩ := by
  cases e with
  | grant env a disk =>
      obtain ⟨reply, hrun, hknown, rfl⟩ := hstep
      obtain ⟨identity, audience, g, hidentity, hgrant, htoken⟩ := Cli.cmdGrant_eq_ok hrun
      have hname : issued (.grant env a disk) = some (cc.nodeId identity, a.nonce) := by
        simp [issued, hidentity, Except.toOption]
      refine .inl ⟨_, g, hname, ?_, by rw [htoken]⟩
      cases Cli.grantFromArgs_eq_ok hgrant with
      | inl hroot =>
          obtain ⟨scope, rfl⟩ := hroot
          exact extends_root dlaws laws identity audience scope a.nonce
      | inr hchild =>
          obtain ⟨token, parent, d, hparent, hdecode, hd, rfl, hnonce⟩ := hchild
          have hheld := h.holds_of_decode laws (hknown token hparent) hdecode
          rw [← hnonce]
          exact h.extends_delegate dlaws laws hheld hd
  | reissue env token nonce disk =>
      obtain ⟨g, hrun, rfl⟩ := hstep
      obtain ⟨identity, grant, link, hidentity, -, -, rfl⟩ := Cli.cmdRoot_reissue_eq_ok hrun
      have hname : issued (.reissue env token nonce disk) = some (cc.nodeId identity, nonce) := by
        simp [issued, hidentity, Except.toOption]
      exact .inl ⟨_, _, hname, extends_root dlaws laws identity _ _ nonce, rfl⟩
  | revoke issuer nonce => exact .inr ⟨issuer, nonce, rfl, hstep⟩

theorem has_add (laws : VerifierLaws cc signatureValid) (hg : g.token = cc.encodeChain g.chain) :
    (⟨s.tokens ++ [g.token], s.revoked⟩ : Circulation).Has cc =
      fun chain => s.Has cc chain ∨ chain = g.chain := by
  funext chain
  rw [Has, Has, List.mem_append, List.mem_singleton, hg,
    (encodeChain_injective laws).eq_iff, and_or_left]
  refine propext (or_congr_right (and_iff_right_of_imp ?_))
  intro hchain
  exact hchain ▸ g.nonempty

theorem holds_add_iff (laws : VerifierLaws cc signatureValid)
    (hg : g.token = cc.encodeChain g.chain) {g' : Grant} :
    Holds cc ⟨s.tokens ++ [g.token], s.revoked⟩ g' ↔ Holds cc s g' ∨ g' = g := by
  constructor
  · intro h
    cases List.mem_append.mp h.circulates with
    | inl hold => exact .inl ⟨hold, h.token⟩
    | inr hnew =>
        have htoken := List.mem_singleton.mp hnew
        have hchain := encodeChain_injective laws (h.token.symm.trans (htoken.trans hg))
        cases g'
        cases g
        cases hchain
        cases htoken
        exact .inr rfl
  · intro h
    cases h with
    | inl hold => exact ⟨List.mem_append_left _ hold.circulates, hold.token⟩
    | inr heq =>
        rw [heq]
        exact ⟨List.mem_append_right _ List.mem_cons_self, hg⟩

theorem Sound.add (laws : VerifierLaws cc signatureValid) (h : Sound cc signatureValid s)
    {n : NodeId × UInt64} (hg : Extends cc signatureValid s n g) :
    Sound cc signatureValid ⟨s.tokens ++ [g.token], s.revoked⟩ where
  tree := by
    obtain ⟨above, link, hchain, habove⟩ := hg.above
    rw [has_add laws hg.token, hchain]
    exact h.tree.snoc habove
  grants := by
    intro token htoken
    cases List.mem_append.mp htoken with
    | inl hold =>
        obtain ⟨g', hg', rfl⟩ := h.grants token hold
        exact ⟨g', (holds_add_iff laws hg.token).mpr (.inl hg'), rfl⟩
    | inr hnew =>
        rw [List.mem_singleton.mp hnew]
        exact ⟨g, (holds_add_iff laws hg.token).mpr (.inr rfl), rfl⟩
  delegated := by
    intro g' hg'
    cases (holds_add_iff laws hg.token).mp hg' with
    | inl hold => exact h.delegated g' hold
    | inr heq => exact heq ▸ hg.delegated
  valid := by
    intro g' hg'
    cases (holds_add_iff laws hg.token).mp hg' with
    | inl hold => exact h.valid g' hold
    | inr heq => exact heq ▸ hg.valid

theorem sound_empty : Sound cc signatureValid empty where
  tree := fun _ _ hl => by cases hl.2
  grants := fun _ htoken => by cases htoken
  delegated := fun _ hg => by cases hg.circulates
  valid := fun _ hg => by cases hg.circulates

theorem Sound.step (dlaws : DelegationLaws cc) (laws : VerifierLaws cc signatureValid)
    (h : Sound cc signatureValid s) (hstep : Step cc service parseLog parseRoots s e t) :
    Sound cc signatureValid t := by
  cases h.step_cases dlaws laws hstep with
  | inl hissue =>
      obtain ⟨n, g, -, hg, rfl⟩ := hissue
      exact h.add laws hg
  | inr hrevoke =>
      obtain ⟨issuer, nonce, -, rfl⟩ := hrevoke
      exact ⟨h.tree, fun token ht => (h.grants token ht).imp fun g hg => ⟨⟨hg.1.1, hg.1.2⟩, hg.2⟩,
        fun g hg => h.delegated g ⟨hg.1, hg.2⟩, fun g hg => h.valid g ⟨hg.1, hg.2⟩⟩

/-! ### Runs -/

theorem revoked_step (hstep : Step cc service parseLog parseRoots s e t) (issuer : NodeId)
    (nonce : UInt64) :
    t.revoked.isRevoked issuer nonce = true ↔
      s.revoked.isRevoked issuer nonce = true ∨ .revoke issuer nonce = e := by
  cases e with
  | grant env a disk =>
      obtain ⟨reply, -, -, rfl⟩ := hstep
      simp
  | reissue env token n disk =>
      obtain ⟨g, -, rfl⟩ := hstep
      simp
  | revoke i n =>
      cases hstep
      rw [or_comm]
      simp [RevocationSet.isRevoked, RevocationSet.revoke]

/-- The pairs that are revoked are those that an event of the run revoked. -/
theorem isRevoked_of_run (h : Run (Step cc service parseLog parseRoots) empty events s)
    (issuer : NodeId) (nonce : UInt64) :
    s.revoked.isRevoked issuer nonce = true ↔ GrantEvent.revoke issuer nonce ∈ events := by
  refine h.history (I := fun events s =>
    s.revoked.isRevoked issuer nonce = true ↔ GrantEvent.revoke issuer nonce ∈ events) ?_ ?_
  · intro events s e t ih hstep
    rw [List.mem_append, List.mem_singleton, ← ih]
    exact revoked_step hstep issuer nonce
  · simp [empty, RevocationSet.isRevoked, RevocationSet.empty]

theorem sound_of_run (dlaws : DelegationLaws cc) (laws : VerifierLaws cc signatureValid)
    (h : Run (Step cc service parseLog parseRoots) empty events s) : Sound cc signatureValid s :=
  h.invariant (fun _ _ _ hs hstep => hs.step dlaws laws hstep) sound_empty

/-! ### Acceptance -/

/-- What a verifier is asked. -/
structure Request where
  selfId : NodeId
  selfTags : List String
  now : UInt64
  requester : Principal
  action : String

/-- A verifier that has the revoked pairs accepts a token. -/
def Accepts (cc : CeCap) (iam : Iam) (revoked : RevocationSet) (r : Request) (token : String) :
    Prop :=
  iam.verify cc r.selfId r.selfTags r.now r.requester r.action token revoked.isRevoked = .ok ()

/-- Where the requests are that the last link of a grant permits, under a root that a verifier
accepts. -/
structure Says (iam : Iam) (r : Request) (g : Grant) : Prop where
  read : Reads iam g
  root : (g.chain.head g.nonempty).cap.issuer = r.selfId ∨
    (g.chain.head g.nonempty).cap.issuer ∈ iam.acceptedRoots
  audience : g.audience = r.requester
  permits : (scopeOf g.leaf).Permits r.selfId r.selfTags r.now r.action

/-- A grant that circulates is accepted for what its last link says, unless a link is revoked. -/
theorem Sound.accepts_iff (dlaws : DelegationLaws cc) (laws : VerifierLaws cc signatureValid)
    (sound : NarrowingLaws cc) (h : Sound cc signatureValid s) (hg : Holds cc s g) {iam : Iam}
    {r : Request} {revoked : RevocationSet} :
    Accepts cc iam revoked r g.token ↔ Says iam r g ∧
      ∀ link ∈ g.chain, revoked.isRevoked link.cap.issuer link.cap.nonce = false := by
  have haudience : g.audience = r.requester ↔ g.leaf.cap.audience = r.requester.nodeId := by
    cases hr : r.requester
    rw [Grant.audience, Principal.mk.injEq]
  rw [Accepts, hg.token, verify_encodeChain laws,
    sixRules_wellDelegated dlaws sound (h.delegated g hg) (h.valid g hg), ← haudience, ← hg.token]
  constructor
  · rintro ⟨hsize, hdepth, hroot, hlive, hrequester, hpermits⟩
    exact ⟨⟨⟨hsize, hdepth⟩, hroot, hrequester, hpermits⟩, hlive⟩
  · rintro ⟨hterms, hlive⟩
    exact ⟨hterms.read.size, hterms.read.depth, hterms.root, hlive, hterms.audience, hterms.permits⟩

/-- The links of a grant are not revoked exactly when the grants that it comes from are not. -/
theorem Sound.live_iff (h : Sound cc signatureValid s) (hg : Holds cc s g)
    {revoked : RevocationSet} :
    (∀ link ∈ g.chain, revoked.isRevoked link.cap.issuer link.cap.nonce = false) ↔
      ∀ above, Holds cc s above → Under g above →
        revoked.isRevoked (name above).1 (name above).2 = false := by
  rw [h.tree.forall_mem_iff ⟨g.nonempty, hg.token ▸ hg.circulates⟩]
  constructor
  · intro hlive above habove hunder
    exact hlive above.chain above.nonempty
      ⟨above.nonempty, habove.token ▸ habove.circulates⟩ hunder
  · intro hlive chain hne hchain hbegins
    exact hlive (.fromChain cc chain hne) ⟨hchain.2, rfl⟩ hbegins

/-- However grants are issued, delegated, reissued and revoked, every token is that of a grant with
a well delegated chain, and a verifier accepts it for what its last link says as long as no grant
that it comes from has been revoked. -/
theorem grants_accepted_iff (dlaws : DelegationLaws cc) (laws : VerifierLaws cc signatureValid)
    (sound : NarrowingLaws cc) (h : Run (Step cc service parseLog parseRoots) empty events s) :
    (∀ token ∈ s.tokens, ∃ g, Holds cc s g ∧ WellDelegated cc g.chain ∧ g.token = token) ∧
    ∀ g, Holds cc s g → ∀ (iam : Iam) (r : Request),
      Accepts cc iam s.revoked r g.token ↔ Says iam r g ∧
        ∀ above, Holds cc s above → Under g above →
          GrantEvent.revoke (name above).1 (name above).2 ∉ events := by
  have hs := sound_of_run dlaws laws h
  refine ⟨fun token htoken => ?_, ?_⟩
  · obtain ⟨g, hg, rfl⟩ := hs.grants token htoken
    exact ⟨g, hg, hs.delegated g hg, rfl⟩
  intro g hg iam r
  rw [hs.accepts_iff dlaws laws sound hg, hs.live_iff hg]
  refine and_congr_right fun _ => forall_congr' fun above => imp_congr_right fun _ =>
    imp_congr_right fun _ => ?_
  rw [← isRevoked_of_run h, Bool.not_eq_true]

/-- The owner of a node lets a reader read on every node. -/
def loanArgs : Cli.GrantArgs :=
  ⟨Principal.hex ⟨storageReader⟩, ["storage:read"], "*", ⟨0, 0, none, none, none, [], none⟩, 7, none,
    none, false⟩

noncomputable def ownerEnv : CommandEnv symbolic.Identity :=
  ⟨1000, .ok storageOwner, .ok "iam", .ok "", .ok ()⟩

noncomputable def loan : Grant :=
  issueRoot symbolic storageOwner ⟨storageReader⟩
    ⟨["storage:read"], .any, Conditions.default.toCaveats⟩ 7

noncomputable def lent : Circulation := ⟨[loan.token], .empty⟩

def toRead : Request := ⟨storageOwner, [], 100, ⟨storageReader⟩, "storage:read"⟩

def unread {α : Type} (_ : String) : Except String α := .error "not read"

theorem loan_issued : Step symbolic storageService unread unread empty
    (.grant ownerEnv loanArgs none) lent := by
  refine ⟨⟨loan.token, none⟩, ?_, (fun token htoken => nomatch htoken), rfl⟩
  simp only [Cli.cmdGrant, ownerEnv, loanArgs, Cli.parsePrincipal, Principal.parse_hex]
  rfl

theorem loan_held : Holds symbolic lent loan := ⟨List.mem_cons_self, rfl⟩

/-- Somebody whom the reader lets read. -/
def storageFriend : NodeId := .filled 3

noncomputable def readerEnv : CommandEnv symbolic.Identity :=
  ⟨1000, .ok storageReader, .ok "iam", .ok "", .ok ()⟩

/-- The reader passes the loan on. -/
noncomputable def subletArgs : Cli.GrantArgs :=
  { loanArgs with audience := Principal.hex ⟨storageFriend⟩, nonce := 8, parent := some loan.token }

/-- The owner lets the reader write as well, with a grant of its own. -/
def giftArgs : Cli.GrantArgs := { loanArgs with actions := ["storage:write"], nonce := 9 }

noncomputable def sublet : Grant :=
  .fromChain symbolic (loan.chain ++ [symbolic.issue storageReader storageFriend ["storage:read"]
    .any Conditions.default.toCaveats 8 (some (symbolic.id loan.leaf))]) (by simp)

noncomputable def gift : Grant :=
  issueRoot symbolic storageOwner ⟨storageReader⟩
    ⟨["storage:write"], .any, Conditions.default.toCaveats⟩ 9

noncomputable def subletted : Circulation := ⟨lent.tokens ++ [sublet.token], .empty⟩

noncomputable def shared : Circulation := ⟨subletted.tokens ++ [gift.token], .empty⟩

theorem reads_default : ∀ g ∈ [loan, sublet, gift], Reads .default g := by
  have hsize : ∀ g ∈ [loan, sublet, gift], String.utf8Len (Json.render Json.oneLine 0
      (.arr (g.chain.map SignedCapability.toJson))) ≤ defaultMaxTokenBytes ∧
        g.chain.length ≤ defaultMaxChainDepth := by
    decide +kernel
  have htoken : ∀ g ∈ [loan, sublet, gift], g.token = symbolicToken g.chain := by
    simp only [List.forall_mem_cons]
    exact ⟨rfl, rfl, rfl, by simp⟩
  intro g hg
  refine ⟨?_, (hsize g hg).2⟩
  rw [htoken g hg]
  exact (Json.utf8ByteSize_compact _).trans_le (hsize g hg).1

theorem sublet_issued : Step symbolic storageService unread unread lent
    (.grant readerEnv subletArgs none) subletted := by
  have hdecode : storageService.decode symbolic loan.token = .ok loan := by
    have hreads := reads_default loan List.mem_cons_self
    exact decode_encodeChain symbolic_verifierLaws loan.nonempty hreads.size hreads.depth
  have hattenuate : attenuate symbolic storageService storageReader loan ⟨storageFriend⟩
      (.allow ["storage:read"] .any .default) 8 = .ok sublet := rfl
  have hgrant : Cli.grantFromArgs symbolic storageService unread readerEnv subletArgs storageReader
      ⟨storageFriend⟩ none = .ok sublet :=
    (Cli.grantFromArgs_parent (a := subletArgs) rfl (List.cons_ne_nil _ _) rfl rfl hdecode).trans
      (congrArg (Except.mapError IamError.display) hattenuate)
  refine ⟨⟨sublet.token, none⟩, Cli.cmdGrant_of_grant rfl rfl rfl hgrant, ?_, rfl⟩
  intro token htoken
  rw [← Option.some.inj htoken]
  exact List.mem_cons_self

theorem gift_issued : Step symbolic storageService unread unread subletted
    (.grant ownerEnv giftArgs none) shared := by
  refine ⟨⟨gift.token, none⟩, ?_, (fun token htoken => nomatch htoken), rfl⟩
  simp only [Cli.cmdGrant, ownerEnv, giftArgs, loanArgs, Cli.parsePrincipal, Principal.parse_hex]
  rfl

def friendReads : Request := ⟨storageOwner, [], 100, ⟨storageFriend⟩, "storage:read"⟩

def readerWrites : Request := ⟨storageOwner, [], 100, ⟨storageReader⟩, "storage:write"⟩

theorem says_sublet : Says .default friendReads sublet where
  read := reads_default sublet (by simp)
  root := .inl rfl
  audience := rfl
  permits := ⟨by decide, trivial, by decide, .inl rfl⟩

theorem says_gift : Says .default readerWrites gift where
  read := reads_default gift (by simp)
  root := .inl rfl
  audience := rfl
  permits := ⟨by decide, trivial, by decide, .inl rfl⟩

theorem shared_held : Holds symbolic shared loan ∧ Holds symbolic shared sublet ∧
    Holds symbolic shared gift :=
  ⟨⟨List.mem_append_left _ (List.mem_append_left _ List.mem_cons_self), rfl⟩,
    ⟨List.mem_append_left _ (List.mem_append_right _ List.mem_cons_self), rfl⟩,
    ⟨List.mem_append_right _ List.mem_cons_self, rfl⟩⟩

theorem sublet_under_loan : Under sublet loan := List.prefix_append _ _

/-- Only the gift itself is above the gift. -/
theorem name_of_gift_under {above : Grant} (h : Under gift above) :
    name above = (storageOwner, 9) := by
  have hchain : above.chain = gift.chain := by
    cases List.prefix_cons_iff.mp h with
    | inl hnil => exact absurd hnil above.nonempty
    | inr hcons =>
        obtain ⟨rest, hrest, hprefix⟩ := hcons
        rw [hrest, List.prefix_nil.mp hprefix]
        rfl
  have hleaf : above.leaf = gift.leaf := by
    simp only [Grant.leaf, hchain]
  rw [name, hleaf]
  rfl

/-- Once the owner has revoked the loan, what was delegated from it is refused, and the gift is
still accepted. -/
theorem grants_accepted_iff_loan :
    ¬ Accepts symbolic .default (shared.revoked.revoke storageOwner 7) friendReads sublet.token ∧
      Accepts symbolic .default (shared.revoked.revoke storageOwner 7) readerWrites gift.token := by
  have hrun : Run (Step symbolic storageService unread unread) empty
      [.grant ownerEnv loanArgs none, .grant readerEnv subletArgs none,
        .grant ownerEnv giftArgs none, .revoke storageOwner 7]
      ⟨shared.tokens, shared.revoked.revoke storageOwner 7⟩ :=
    (((Run.single loan_issued).snoc sublet_issued).snoc gift_issued).snoc rfl
  obtain ⟨hloan, hsublet, hgift⟩ := shared_held
  have hexact := (grants_accepted_iff symbolic_delegationLaws symbolic_verifierLaws
    symbolic_narrowingLaws hrun).2
  refine ⟨?_, ?_⟩
  · intro haccepted
    refine ((hexact sublet ⟨hsublet.1, hsublet.2⟩ .default friendReads).mp haccepted).2 loan
      ⟨hloan.1, hloan.2⟩ sublet_under_loan ?_
    exact List.mem_append_right [_, _, _] List.mem_cons_self
  · refine (hexact gift ⟨hgift.1, hgift.2⟩ .default readerWrites).mpr ⟨says_gift, ?_⟩
    intro above habove hunder
    rw [name_of_gift_under hunder]
    simp

/-! ### Revocation -/

/-- Grants that circulate have names of their own. -/
def Named (cc : CeCap) (s : Circulation) : Prop :=
  ∀ g g', Holds cc s g → Holds cc s g' → name g = name g' → g = g'

/-- No grant that circulates has the name of a new one. -/
def Fresh (s : Circulation) (e : GrantEvent cc) : Prop :=
  ∀ n ∈ issued e, ∀ g, Holds cc s g → name g ≠ n

theorem Named.add (laws : VerifierLaws cc signatureValid) (h : Named cc s) {n : NodeId × UInt64}
    (hg : Extends cc signatureValid s n g) (hfresh : ∀ g, Holds cc s g → name g ≠ n) :
    Named cc ⟨s.tokens ++ [g.token], s.revoked⟩ := by
  intro g' g'' hg' hg'' hname
  cases (holds_add_iff laws hg.token).mp hg' with
  | inl hold' =>
      cases (holds_add_iff laws hg.token).mp hg'' with
      | inl hold'' => exact h g' g'' hold' hold'' hname
      | inr heq =>
          rw [heq, hg.named] at hname
          exact absurd hname (hfresh g' hold')
  | inr heq =>
      cases (holds_add_iff laws hg.token).mp hg'' with
      | inl hold'' =>
          rw [heq, hg.named] at hname
          exact absurd hname.symm (hfresh g'' hold'')
      | inr heq' => rw [heq, heq']

theorem Named.step (dlaws : DelegationLaws cc) (laws : VerifierLaws cc signatureValid)
    (hs : Sound cc signatureValid s) (h : Named cc s)
    (hstep : Step cc service parseLog parseRoots s e t) (hfresh : Fresh s e) : Named cc t := by
  cases hs.step_cases dlaws laws hstep with
  | inl hissue =>
      obtain ⟨n, g, hn, hg, rfl⟩ := hissue
      exact h.add laws hg (hfresh n hn)
  | inr hrevoke =>
      obtain ⟨issuer, nonce, -, rfl⟩ := hrevoke
      exact fun g g' hg hg' => h g g' ⟨hg.1, hg.2⟩ ⟨hg'.1, hg'.2⟩

/-- A link has the name of a grant exactly in the chains below that grant. -/
theorem Sound.exists_named_iff (hs : Sound cc signatureValid s) (h : Named cc s) {g' : Grant}
    (hg : Holds cc s g) (hg' : Holds cc s g') :
    (∃ link ∈ g'.chain, (link.cap.issuer, link.cap.nonce) = name g) ↔ Under g' g := by
  have hhas : ∀ g, Holds cc s g → s.Has cc g.chain :=
    fun g hg => ⟨g.nonempty, hg.token ▸ hg.circulates⟩
  refine hs.tree.exists_named_iff (fun link => (link.cap.issuer, link.cap.nonce)) ?_
    (hhas g hg) (hhas g' hg') g.nonempty
  intro l m hl hm hhasl hhasm hname
  have hsame := h (.fromChain cc l hl) (.fromChain cc m hm) ⟨hhasl.2, rfl⟩ ⟨hhasm.2, rfl⟩ hname
  exact congrArg Grant.chain hsame

/-- Where no issuer uses a nonce twice, revoking a grant takes it and all that was delegated from
it from every verifier, and no other grant. -/
theorem revocation_exact (dlaws : DelegationLaws cc) (laws : VerifierLaws cc signatureValid)
    (sound : NarrowingLaws cc)
    (h : Run (fun s e t => Step cc service parseLog parseRoots s e t ∧ Fresh s e) empty events s)
    {g' : Grant} (hg : Holds cc s g) (hg' : Holds cc s g') (iam : Iam) (r : Request) :
    Accepts cc iam (s.revoked.revoke (name g).1 (name g).2) r g'.token ↔
      Accepts cc iam s.revoked r g'.token ∧ ¬ Under g' g := by
  have hboth : Sound cc signatureValid s ∧ Named cc s := by
    refine h.invariant (I := fun s => Sound cc signatureValid s ∧ Named cc s) ?_ ?_
    · intro s e t hs hstep
      exact ⟨hs.1.step dlaws laws hstep.1, hs.2.step dlaws laws hs.1 hstep.1 hstep.2⟩
    · exact ⟨sound_empty, fun g g' hg => by cases hg.circulates⟩
  obtain ⟨hs, hnamed⟩ := hboth
  have hrevoke : ∀ link : SignedCapability,
      (s.revoked.revoke (name g).1 (name g).2).isRevoked link.cap.issuer link.cap.nonce = false ↔
        (link.cap.issuer, link.cap.nonce) ≠ name g ∧
          s.revoked.isRevoked link.cap.issuer link.cap.nonce = false := by
    intro link
    simp [RevocationSet.isRevoked, RevocationSet.revoke]
  rw [hs.accepts_iff dlaws laws sound hg', hs.accepts_iff dlaws laws sound hg',
    ← hs.exists_named_iff hnamed hg hg']
  simp only [hrevoke]
  constructor
  · rintro ⟨hterms, hlive⟩
    refine ⟨⟨hterms, fun link hlink => (hlive link hlink).2⟩, ?_⟩
    rintro ⟨link, hlink, hname⟩
    exact (hlive link hlink).1 hname
  · rintro ⟨⟨hterms, hlive⟩, hnot⟩
    exact ⟨hterms, fun link hlink => ⟨fun hname => hnot ⟨link, hlink, hname⟩, hlive link hlink⟩⟩

theorem fresh_loan : Fresh empty (GrantEvent.grant ownerEnv loanArgs none) :=
  fun _ _ _ hg => by cases hg.circulates

theorem held_lent {g : Grant} (h : Holds symbolic lent g) : g = loan := by
  cases (holds_add_iff (s := empty) symbolic_verifierLaws loan_held.token).mp h with
  | inl hnone => cases hnone.circulates
  | inr heq => exact heq

theorem fresh_sublet : Fresh lent (GrantEvent.grant readerEnv subletArgs none) := by
  intro n hn g hg
  rw [held_lent hg, ← Option.some.inj hn]
  decide

theorem fresh_gift : Fresh subletted (GrantEvent.grant ownerEnv giftArgs none) := by
  intro n hn g hg
  rw [← Option.some.inj hn]
  cases (holds_add_iff symbolic_verifierLaws shared_held.2.1.token).mp hg with
  | inl hold =>
      rw [held_lent hold]
      decide
  | inr heq =>
      rw [heq]
      decide

/-- Revoking the loan takes what was delegated from it, and not the gift. -/
theorem revocation_exact_loan :
    (Accepts symbolic .default shared.revoked friendReads sublet.token ∧
      ¬ Accepts symbolic .default (shared.revoked.revoke storageOwner 7) friendReads
        sublet.token) ∧
      Accepts symbolic .default shared.revoked readerWrites gift.token ∧
        Accepts symbolic .default (shared.revoked.revoke storageOwner 7) readerWrites
          gift.token := by
  have hrun : Run (fun s e t => Step symbolic storageService unread unread s e t ∧ Fresh s e) empty
      [.grant ownerEnv loanArgs none, .grant readerEnv subletArgs none,
        .grant ownerEnv giftArgs none] shared :=
    ((Run.single ⟨loan_issued, fresh_loan⟩).snoc ⟨sublet_issued, fresh_sublet⟩).snoc
      ⟨gift_issued, fresh_gift⟩
  obtain ⟨hloan, hsublet, hgift⟩ := shared_held
  have hsound := sound_of_run symbolic_delegationLaws symbolic_verifierLaws
    (hrun.mono fun _ _ _ h => h.1)
  have hexact : ∀ {g r}, Holds symbolic shared g → (Accepts symbolic .default
      (shared.revoked.revoke storageOwner 7) r g.token ↔
        Accepts symbolic .default shared.revoked r g.token ∧ ¬ Under g loan) := fun hg =>
    revocation_exact symbolic_delegationLaws symbolic_verifierLaws symbolic_narrowingLaws hrun
      hloan hg .default _
  have hbefore : ∀ {g r}, Holds symbolic shared g → Says .default r g →
      Accepts symbolic .default shared.revoked r g.token := fun hg hpermits =>
    (hsound.accepts_iff symbolic_delegationLaws symbolic_verifierLaws symbolic_narrowingLaws hg).mpr
      ⟨hpermits, fun _ _ => rfl⟩
  refine ⟨⟨hbefore hsublet says_sublet, ?_⟩, hbefore hgift says_gift, ?_⟩
  · intro haccepted
    exact ((hexact hsublet).mp haccepted).2 sublet_under_loan
  · refine (hexact hgift).mpr ⟨hbefore hgift says_gift, ?_⟩
    intro hunder
    exact absurd (name_of_gift_under hunder) (by decide)

/-! ### Confinement -/

/-- What one of a group of principals may do with a grant is a root's among them to give, or is
authorized by a grant that an outsider gave to one of them. -/
theorem group_confined (dlaws : DelegationLaws cc) (laws : VerifierLaws cc signatureValid)
    (sound : NarrowingLaws cc) (h : Run (Step cc service parseLog parseRoots) empty events s)
    (member : NodeId → Prop) (hg : Holds cc s g) {iam : Iam} {r : Request}
    (hmember : member r.requester.nodeId) (haccepted : Accepts cc iam s.revoked r g.token) :
    (∀ link ∈ g.chain, member link.cap.issuer) ∨
    ∃ above, Holds cc s above ∧ Under g above ∧ ¬ member above.leaf.cap.issuer ∧
      member above.audience.nodeId ∧
      iam.verifyChain cc r.selfId r.selfTags r.now above.audience r.action above.chain
        s.revoked.isRevoked = .ok () := by
  have hs := sound_of_run dlaws laws h
  obtain ⟨hterms, hlive⟩ := (hs.accepts_iff dlaws laws sound hg).mp haccepted
  cases forall_or_last_not (fun link : SignedCapability => member link.cap.issuer) g.chain with
  | inl hall => exact .inl hall
  | inr hlast =>
      obtain ⟨before, link, after, hchain, hout, hin⟩ := hlast
      have hbegins : before ++ [link] <+: g.chain := ⟨after, by simp [hchain]⟩
      have hne : before ++ [link] ≠ [] := by simp
      have hhas := hs.tree g.chain _ ⟨g.nonempty, hg.token ▸ hg.circulates⟩ hne hbegins
      let above : Grant := .fromChain cc (before ++ [link]) hne
      have habove : Holds cc s above := ⟨hhas.2, rfl⟩
      have hleaf : above.leaf = link := by simp [above, Grant.leaf, Grant.fromChain]
      have hmemlink : link ∈ g.chain := by simp [hchain]
      have haudience : member link.cap.audience := by
        cases after with
        | nil =>
            have hgleaf : g.leaf = link := by simp [Grant.leaf, hchain]
            rw [← hgleaf]
            have hsame := hterms.audience
            rw [← hsame] at hmember
            exact hmember
        | cons next rest =>
            have hcontinuous := (hs.delegated g hg).continuous
            rw [hchain] at hcontinuous
            have hnext := (List.isChain_append.mp hcontinuous).2.1
            cases hnext with
            | cons_cons hlinks _ =>
                rw [← hlinks.1]
                exact hin next List.mem_cons_self
      refine .inr ⟨above, habove, hbegins, ?_, ?_, ?_⟩
      · rw [hleaf]
        exact hout
      · rw [Grant.audience, hleaf]
        exact haudience
      · have hhead : above.chain.head above.nonempty = g.chain.head g.nonempty := by
          cases before <;> simp [above, Grant.fromChain, hchain]
        have hpermits := hterms.permits.widen sound
          ((hs.delegated g hg).leaf_within dlaws link hmemlink)
        rw [verifyChain_eq_ok, laws.authorize_iff, sixRules_wellDelegated dlaws sound
          (hs.delegated above habove) (hs.valid above habove), hhead, hleaf]
        refine ⟨hterms.root, ?_, ?_, hpermits⟩
        · exact fun l hl => hlive l (hbegins.subset hl)
        · rw [← hleaf]
          rfl

noncomputable def lender : Iam := Iam.default.withMaxTokenBytes loan.token.utf8ByteSize

theorem loan_terms : Says lender toRead loan where
  read := ⟨by rw [lender, withMaxTokenBytes], by decide⟩
  root := .inl rfl
  audience := rfl
  permits := ⟨by decide, trivial, by decide, .inl rfl⟩

/-- The reader may read because an outsider lent it that. -/
theorem group_confined_reader :
    (∀ link ∈ loan.chain, link.cap.issuer = storageReader) ∨
    ∃ above, Holds symbolic lent above ∧ Under loan above ∧ ¬ above.leaf.cap.issuer = storageReader ∧
      above.audience.nodeId = storageReader ∧
      lender.verifyChain symbolic storageOwner [] 100 above.audience "storage:read" above.chain
        lent.revoked.isRevoked = .ok () := by
  have hrun := Run.single loan_issued
  have haccepted : Accepts symbolic lender lent.revoked toRead loan.token :=
    ((sound_of_run symbolic_delegationLaws symbolic_verifierLaws hrun).accepts_iff
      symbolic_delegationLaws symbolic_verifierLaws symbolic_narrowingLaws loan_held).mpr
        ⟨loan_terms, fun link _ => rfl⟩
  exact group_confined symbolic_delegationLaws symbolic_verifierLaws symbolic_narrowingLaws hrun
    (· = storageReader) loan_held rfl haccepted

end Circulation

end CeIam
