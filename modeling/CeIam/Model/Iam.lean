import CeIam.Library.JsonText
import CeIam.Library.OrdMap
import CeIam.Library.Outcome
import CeIam.Library.SortDedup
import CeIam.Model.Policy

/-! # The service: mint, attenuate and verify grants -/

namespace CeIam

def defaultMaxTokenBytes : ℕ := 256 * 1024

def defaultMaxChainDepth : ℕ := 64

/-- The service handle; both lists are kept sorted and without repetitions. -/
structure Iam where
  actionUniverse : List String
  acceptedRoots : List NodeId
  maxTokenBytes : ℕ
  maxChainDepth : ℕ
  universeSorted : actionUniverse.Pairwise (· < ·)
  rootsSorted : acceptedRoots.Pairwise (· < ·)

/-- A capability chain, root first, with its portable form. -/
structure Grant where
  chain : List SignedCapability
  token : String
  nonempty : chain ≠ []
deriving DecidableEq

namespace Grant

def fromChain (cc : CeCap) (chain : List SignedCapability) (h : chain ≠ []) : Grant :=
  ⟨chain, cc.encodeChain chain, h⟩

/-- The link held by the final audience. -/
def leaf (g : Grant) : SignedCapability := g.chain.getLast g.nonempty

def audience (g : Grant) : Principal := ⟨g.leaf.cap.audience⟩

end Grant

namespace Iam

/-! ## Configuration -/

def default : Iam where
  actionUniverse := []
  acceptedRoots := []
  maxTokenBytes := defaultMaxTokenBytes
  maxChainDepth := defaultMaxChainDepth
  universeSorted := .nil
  rootsSorted := .nil

def withActionUniverse (iam : Iam) (actions : List String) : Iam :=
  { iam with
    actionUniverse := sortDedup actions
    universeSorted := sortDedup_pairwise actions }

def withAcceptedRoots (iam : Iam) (roots : List NodeId) : Iam :=
  { iam with
    acceptedRoots := sortDedup (iam.acceptedRoots ++ roots)
    rootsSorted := sortDedup_pairwise _ }

def withMaxTokenBytes (iam : Iam) (max : ℕ) : Iam := { iam with maxTokenBytes := max }

def withMaxChainDepth (iam : Iam) (max : ℕ) : Iam := { iam with maxChainDepth := max }

/-! ## Expanding actions -/

/-- The abilities one entry of an action list stands for. -/
def expandAction (iam : Iam) (entry : String) : Except IamError (List String) :=
  let a := Text.trim entry
  if a = "" then .error (.badAction "empty action string")
  else if a = "*" then
    if iam.actionUniverse = [] then
      .error (.badAction "'*' used but the action universe is empty")
    else .ok iam.actionUniverse
  else
    match Text.stripSuffix a '*' with
    | some pfx =>
        let matched := iam.actionUniverse.filter (fun u => Text.startsWith u pfx)
        if matched = [] then
          .error (.badAction ("wildcard '" ++ a ++ "' matched no action in the universe"))
        else .ok matched
    | none => .ok [a]

/-- Wildcards are expanded against the universe; the result is sorted and deduplicated. -/
def expandActions (iam : Iam) (actions : List String) : Except IamError (List String) := do
  let out ← actions.mapM iam.expandAction
  return sortDedup out.flatten

/-! ## Compiling policies -/

/-- The body of a capability. -/
structure Scope where
  abilities : List String
  resource : Resource
  caveats : Caveats
deriving DecidableEq

/-- Every statement must agree with the first one on resource and conditions. -/
def checkUniform (first : Statement) : List Statement → Except IamError Unit
  | [] => .ok ()
  | s :: rest =>
      if s.resource ≠ first.resource then
        .error (.badPolicy
          "all Allow statements must target the same resource to compile to one grant")
      else if s.conditions ≠ first.conditions then
        .error (.badPolicy
          "all Allow statements must share the same conditions to compile to one grant")
      else checkUniform first rest

def allows (policy : Policy) : List Statement :=
  policy.statements.filter (fun s => s.effect = .allow)

def hasDeny (policy : Policy) : Bool :=
  policy.statements.any (fun s => s.effect = .deny)

/-- The single scope of a policy whose statements share one. -/
def compile (iam : Iam) (policy : Policy) : Except IamError Scope :=
  if hasDeny policy then .error .denyUnsupported
  else
    match allows policy with
    | [] => .error (.badPolicy "policy grants nothing")
    | first :: rest => do
        checkUniform first rest
        let abilities ← iam.expandActions ((first :: rest).flatMap (·.actions))
        Outcome.ensure (abilities ≠ []) (.badAction "policy expanded to no actions")
        let resource ← first.resource.toCapResource
        return ⟨abilities, resource, first.conditions.toCaveats⟩

/-- The statements of one scope while they are being collected. -/
structure Group where
  resource : ResourceMatch
  conditions : Conditions
  actions : List String

/-- The serialized scope of a statement. -/
def scopeKey (s : Statement) : String :=
  Json.compact (.arr [s.resource.toJson, s.conditions.toJson])

def groups (policy : Policy) : OrdMap String Group :=
  OrdMap.groupBy scopeKey (fun s => ⟨s.resource, s.conditions, []⟩)
    (fun g s => { g with actions := g.actions ++ s.actions }) (allows policy)

def compileGroup (iam : Iam) (g : Group) : Except IamError Scope := do
  let abilities ← iam.expandActions g.actions
  Outcome.ensure (abilities ≠ []) (.badAction "a policy scope expanded to no actions")
  let resource ← g.resource.toCapResource
  return ⟨abilities, resource, g.conditions.toCaveats⟩

/-- One scope for each distinct pair of resource and conditions. -/
def compileScopes (iam : Iam) (policy : Policy) : Except IamError (List Scope) :=
  if hasDeny policy then .error .denyUnsupported
  else if (groups policy).toList = [] then .error (.badPolicy "policy grants nothing")
  else (groups policy).toList.mapM (fun e => iam.compileGroup e.2)

/-! ## Issuing grants -/

section Issue

variable (cc : CeCap)

/-- A chain of one link that names no parent. -/
def issueRoot (issuer : cc.Identity) (audience : Principal) (scope : Scope) (nonce : UInt64) :
    Grant :=
  .fromChain cc
    [cc.issue issuer audience.nodeId scope.abilities scope.resource scope.caveats nonce none]
    (List.cons_ne_nil _ _)

def mint (iam : Iam) (issuer : cc.Identity) (audience : Principal) (policy : Policy)
    (nonce : UInt64) : Except IamError Grant := do
  let scope ← iam.compile policy
  return issueRoot cc issuer audience scope nonce

def checkedAdd (a b : UInt64) : Option UInt64 :=
  if a.toNat + b.toNat < 2 ^ 64 then some (a + b) else none

/-- The root grant of the scope at position `i`, whose nonce is `i` after the base. -/
def issueScope (issuer : cc.Identity) (audience : Principal) (baseNonce : UInt64)
    (scope : Scope) (i : ℕ) : Except IamError Grant :=
  match checkedAdd baseNonce (UInt64.ofNat i) with
  | none => .error (.badPolicy "nonce range overflows u64")
  | some nonce => .ok (issueRoot cc issuer audience scope nonce)

/-- One root grant for each scope of the policy, with consecutive nonces. -/
def mintPolicy (iam : Iam) (issuer : cc.Identity) (audience : Principal) (policy : Policy)
    (baseNonce : UInt64) : Except IamError (List Grant) := do
  let scopes ← iam.compileScopes policy
  scopes.zipIdx.mapM (fun e => issueScope cc issuer audience baseNonce e.1 e.2)

/-- The same root grant under another issuer. -/
def reissueUnder (newRoot : cc.Identity) (grant : Grant) (nonce : UInt64) :
    Except IamError Grant :=
  if grant.chain.length ≠ 1 then
    .error (.wouldAmplify "only a single-link root grant can be re-issued under a new root")
  else
    let leaf := grant.leaf.cap
    if leaf.parent.isSome then
      .error (.wouldAmplify "grant is not a root (it names a parent); cannot re-root")
    else
      .ok (issueRoot cc newRoot ⟨leaf.audience⟩ ⟨leaf.abilities, leaf.resource, leaf.caveats⟩ nonce)

/-- A list of strings as its debug form shows it. -/
def debugStrings (ss : List String) : String :=
  "[" ++ ", ".intercalate (ss.map cc.debugString) ++ "]"

/-- The holder of a grant issues a narrower one; a broader one is refused before signing. -/
def attenuate (iam : Iam) (holder : cc.Identity) (parent : Grant) (audience : Principal)
    (narrower : Policy) (nonce : UInt64) : Except IamError Grant := do
  let leaf := parent.leaf
  Outcome.ensure (leaf.cap.audience = cc.nodeId holder)
    (.wouldAmplify "delegating identity does not hold the parent grant (not its audience)")
  let scope ← iam.compile narrower
  Outcome.ensure (∀ a ∈ scope.abilities, a ∈ leaf.cap.abilities)
    (.wouldAmplify ("child abilities " ++ debugStrings cc scope.abilities ++
      " exceed parent " ++ debugStrings cc leaf.cap.abilities))
  Outcome.ensure (cc.isSubsetOf scope.resource leaf.cap.resource)
    (.wouldAmplify "child resource is broader than the parent resource")
  Outcome.ensure (cc.isNarrowerOrEqual scope.caveats leaf.cap.caveats)
    (.wouldAmplify "child conditions are broader than the parent conditions")
  let child := cc.issue holder audience.nodeId scope.abilities scope.resource scope.caveats nonce
    (some (cc.id leaf))
  return .fromChain cc (parent.chain ++ [child]) (by simp)

end Issue

/-! ## Verifying grants -/

section Verify

variable (cc : CeCap)

/-- Decoding that refuses oversized tokens and chains that are empty or too deep. -/
def guardedDecode (iam : Iam) (token : String) :
    Except IamError {chain : List SignedCapability // chain ≠ []} :=
  if token.utf8ByteSize > iam.maxTokenBytes then
    .error (.malformedChain ("token is " ++ toString token.utf8ByteSize ++
      " bytes, exceeding the " ++ toString iam.maxTokenBytes ++ "-byte limit"))
  else
    match cc.decodeChain token with
    | .error e => .error (.malformedChain e)
    | .ok chain =>
        if h : chain = [] then .error (.malformedChain "empty chain")
        else if chain.length > iam.maxChainDepth then
          .error (.malformedChain ("chain depth " ++ toString chain.length ++
            " exceeds the " ++ toString iam.maxChainDepth ++ "-link limit"))
        else .ok ⟨chain, h⟩

/-- The decision on a chain that is already decoded. -/
def verifyChain (iam : Iam) (selfId : NodeId) (selfTags : List String) (now : UInt64)
    (requester : Principal) (action : String) (chain : List SignedCapability)
    (isRevoked : NodeId → UInt64 → Bool) : Except IamError Unit :=
  (cc.authorize selfId iam.acceptedRoots selfTags now requester.nodeId action chain
    isRevoked).mapError .denied

/-- Whether the requester may perform the action on the node, given the token. -/
def verify (iam : Iam) (selfId : NodeId) (selfTags : List String) (now : UInt64)
    (requester : Principal) (action : String) (token : String)
    (isRevoked : NodeId → UInt64 → Bool) : Except IamError Unit := do
  let chain ← iam.guardedDecode cc token
  (cc.authorize selfId iam.acceptedRoots selfTags now requester.nodeId action chain.val
    isRevoked).mapError .denied

def decode (iam : Iam) (token : String) : Except IamError Grant := do
  let chain ← iam.guardedDecode cc token
  return .fromChain cc chain.val chain.property

end Verify

/-! ## Inspecting grants -/

section Inspect

/-- A resource in the spelling of the command line. -/
def renderResource : Resource → String
  | .any => "*"
  | .node n => Hex.encode n.bytes
  | .tag t => "tag:" ++ t
  | .allOf ts => "all-of:" ++ ",".intercalate ts

/-- What inspection shows of one link. -/
structure LinkInfo where
  issuer : String
  audience : String
  abilities : List String
  resource : String
  nonce : UInt64
  notAfter : UInt64

/-- What inspection shows of a chain, root first. -/
structure InspectedScope where
  rootIssuer : String
  audience : String
  depth : ℕ
  abilities : List String
  resource : String
  notAfter : UInt64
  links : List LinkInfo

def linkInfo (link : SignedCapability) : LinkInfo where
  issuer := Hex.encode link.cap.issuer.bytes
  audience := Hex.encode link.cap.audience.bytes
  abilities := link.cap.abilities
  resource := renderResource link.cap.resource
  nonce := link.cap.nonce
  notAfter := link.cap.caveats.notAfter

def inspectChain : List SignedCapability → Except IamError InspectedScope
  | [] => .error (.malformedChain "empty chain")
  | root :: rest =>
      let leaf := ((root :: rest).getLast (List.cons_ne_nil _ _)).cap
      .ok
        { rootIssuer := Hex.encode root.cap.issuer.bytes
          audience := Hex.encode leaf.audience.bytes
          depth := (root :: rest).length
          abilities := leaf.abilities
          resource := renderResource leaf.resource
          notAfter := leaf.caveats.notAfter
          links := (root :: rest).map linkInfo }

/-- The summary of a token, which is not verified. -/
def inspect (cc : CeCap) (iam : Iam) (token : String) : Except IamError InspectedScope := do
  let chain ← iam.guardedDecode cc token
  inspectChain chain.val

end Inspect

end Iam

end CeIam
