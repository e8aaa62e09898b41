import CeIam.Library.Counter
import CeIam.Model.Bridge
import CeIam.Verification.Grant.Symbolic

/-! # Nonces across restarts

A responder and a bridge number their capabilities from the clock they were started at. The
numbers of several lifetimes differ as long as no lifetime has counted past the start of a
later one. -/

namespace CeIam

/-! ## Lifetimes -/

/-- A process from its start: its configuration, and its calls with the times they are made. -/
structure Lifetime (K C : Type) where
  config : K
  startedAt : SystemTime
  calls : List (SystemTime × C)

/-- Every start reads a later clock than the calls of the earlier lifetimes. -/
def InOrder {K C : Type} (lives : List (Lifetime K C)) : Prop :=
  lives.Pairwise fun a b => ∀ call ∈ a.calls, call.1 < b.startedAt

/-- Lifetimes have not counted past the starts of later ones, and no counter wraps. -/
structure NotPassed {K C : Type} (seed : SystemTime → UInt64) (lives : List (Lifetime K C)) :
    Prop where
  passed : lives.Pairwise fun a b => a.calls = [] ∨ b.calls = [] ∨
    (seed a.startedAt).toNat + a.calls.length ≤ (seed b.startedAt).toNat
  unwrapped : ∀ a ∈ lives, (seed a.startedAt).toNat + a.calls.length ≤ UInt64.size

section Keys

variable (cc : CeCap)

/-- What a capability is revoked by: the issuer and the nonce of its last link. -/
def capKey (token : String) : Option (NodeId × UInt64) :=
  match cc.decodeChain token with
  | .ok chain => chain.getLast?.map fun link => (link.cap.issuer, link.cap.nonce)
  | .error _ => none

/-- The keys of the capabilities that a lifetime mints. -/
def mintedKeys {σ C ρ : Type} (step : σ → C → Except String ρ × σ) (token : ρ → String) (s : σ)
    (calls : List (SystemTime × C)) : List (NodeId × UInt64) :=
  (Machine.answers (fun call s => step s call.2) calls s).filterMap fun r =>
    r.toOption.bind fun minted => capKey cc (token minted)

/-- A capability has the issuer and the nonce it is issued with, and survives its encoding. -/
structure IssueLaws : Prop where
  issue_cap : ∀ issuer audience abilities resource caveats nonce parent,
    (cc.issue issuer audience abilities resource caveats nonce parent).cap =
      ⟨cc.nodeId issuer, audience, abilities, resource, caveats, nonce, parent⟩
  decode_encode : ∀ chain, cc.decodeChain (cc.encodeChain chain) = .ok chain

variable {cc}

/-- The key of what a mint returned. -/
theorem capKey_mint (laws : IssueLaws cc) {iam : Iam} {issuer : cc.Identity}
    {audience : Principal} {policy : Policy} {nonce : UInt64} {g : Grant}
    (h : iam.mint cc issuer audience policy nonce = .ok g) :
    capKey cc g.token = some (cc.nodeId issuer, nonce) := by
  obtain ⟨scope, -, hg⟩ := Outcome.bind_eq_ok.mp h
  cases hg
  simp [capKey, Iam.issueRoot, Grant.fromChain, laws.decode_encode, laws.issue_cap]

end Keys

/-! ## The two issuers -/

structure Vouch where
  peerId : String
  name : String
  appAbilities : List String

structure OperatorGrant where
  audienceNodeIdHex : String
  aud : String
  now : UInt64

variable {cc : CeCap}

def NodeAuthResponder.vouch (r : NodeAuthResponder cc) (v : Vouch) :
    Except String (String × List String) × NodeAuthResponder cc :=
  r.vouchToken v.peerId v.name v.appAbilities

def CapBridge.grant (b : CapBridge cc) (g : OperatorGrant) :
    Except String String × CapBridge cc :=
  b.mintOperatorGrant g.audienceNodeIdHex g.aud g.now

variable (cc) in
/-- The keys of all vouches of a node, over its lifetimes. -/
def vouchKeys (identity : cc.Identity) (lives : List (Lifetime (Iam × Bool × List String) Vouch)) :
    List (NodeId × UInt64) :=
  lives.flatMap fun a => mintedKeys cc NodeAuthResponder.vouch Prod.fst
    (.withAllowed identity a.config.1 a.config.2.1 a.config.2.2 a.startedAt) a.calls

variable (cc) in
/-- The keys of all operator grants of a root, over the lifetimes of its bridge. -/
def operatorKeys (root : cc.Identity)
    (lives : List (Lifetime (ResourceMatch × UInt64) OperatorGrant)) : List (NodeId × UInt64) :=
  lives.flatMap fun a => mintedKeys cc CapBridge.grant id
    (.new root a.config.1 a.config.2 a.startedAt) a.calls

variable (cc) in
/-- The nonce that an answer carries. -/
def numberOf {ρ : Type} (token : ρ → String) (r : Except String ρ) : Option UInt64 :=
  (r.toOption.bind fun minted => capKey cc (token minted)).map Prod.snd

theorem numberOf_mint (laws : IssueLaws cc) {ρ : Type} {token : ρ → String} {iam : Iam}
    {issuer : cc.Identity} {audience : Principal} {policy : Policy} {nonce : UInt64}
    {shown : IamError → String} {f : Grant → ρ} (hf : ∀ g, token (f g) = g.token) :
    numberOf cc token (((iam.mint cc issuer audience policy nonce).mapError shown).map f) = none ∨
      numberOf cc token (((iam.mint cc issuer audience policy nonce).mapError shown).map f) =
        some nonce := by
  cases hmint : iam.mint cc issuer audience policy nonce with
  | error e => exact .inl rfl
  | ok g =>
      right
      change (capKey cc (token (f g))).map Prod.snd = some nonce
      rw [hf, capKey_mint laws hmint]
      rfl

theorem draws_vouch (laws : IssueLaws cc) :
    Counter.Draws (fun (call : SystemTime × Vouch) (r : NodeAuthResponder cc) => r.vouch call.2)
      (·.nonce) (numberOf cc Prod.fst) := by
  intro call r
  simp only [NodeAuthResponder.vouch, NodeAuthResponder.vouchToken]
  refine .inr ⟨?_, trivial⟩
  apply numberOf_mint laws
  exact fun _ => rfl

theorem draws_grant (laws : IssueLaws cc) :
    Counter.Draws (fun (call : SystemTime × OperatorGrant) (b : CapBridge cc) => b.grant call.2)
      (·.nonce) (numberOf cc id) := by
  intro call b
  simp only [CapBridge.grant, CapBridge.mintOperatorGrant]
  cases Principal.parse call.2.audienceNodeIdHex with
  | error e => exact .inl ⟨rfl, rfl⟩
  | ok audience =>
      cases Iam.checkedAdd call.2.now b.ttlSecs with
      | none => exact .inl ⟨rfl, rfl⟩
      | some notAfter =>
          simp only
          refine .inr ⟨?_, trivial⟩
          apply numberOf_mint laws
          exact fun _ => rfl

/-- The keys of several lifetimes differ when their numbers do. -/
theorem nodup_mintedKeys {K C σ ρ : Type} {step : σ → C → Except String ρ × σ}
    {token : ρ → String} {counter : σ → UInt64} {start : Lifetime K C → σ}
    {seed : SystemTime → UInt64} {lives : List (Lifetime K C)}
    (hdraws : Counter.Draws (fun (call : SystemTime × C) s => step s call.2) counter
      (numberOf cc token))
    (hstart : ∀ a, counter (start a) = seed a.startedAt) (h : NotPassed seed lives) :
    (lives.flatMap fun a => mintedKeys cc step token (start a) a.calls).Nodup := by
  let runs : List (Counter.Life σ (SystemTime × C)) := lives.map fun a => ⟨start a, a.calls⟩
  have hahead : Counter.Ahead counter runs := by
    constructor
    · rw [List.pairwise_map]
      simpa only [hstart] using h.passed
    · simpa only [runs, List.forall_mem_map, hstart] using h.unwrapped
  have hnumbers := Counter.nodup_lives hdraws hahead
  rw [List.flatMap_map] at hnumbers
  apply List.Nodup.of_map Prod.snd
  rw [List.map_flatMap]
  simp only [mintedKeys, List.map_filterMap]
  exact hnumbers

/-- A node's vouches and a root's operator grants differ in their keys as long as no lifetime
has counted past the start of a later one. -/
theorem keys_unique (laws : IssueLaws cc) (identity : cc.Identity)
    (vouching : List (Lifetime (Iam × Bool × List String) Vouch))
    (granting : List (Lifetime (ResourceMatch × UInt64) OperatorGrant)) :
    (NotPassed SystemTime.asSecs vouching → (vouchKeys cc identity vouching).Nodup) ∧
      (NotPassed SystemTime.asMicros granting → (operatorKeys cc identity granting).Nodup) :=
  ⟨nodup_mintedKeys (draws_vouch laws) fun _ => rfl,
    nodup_mintedKeys (draws_grant laws) fun _ => rfl⟩

/-! ## A burst and a quick restart -/

theorem symbolic_issueLaws : IssueLaws Iam.symbolic where
  issue_cap := Iam.symbolic_delegationLaws.issue_cap
  decode_encode := Iam.symbolic_verifierLaws.decode_encode

def vouchForAda : Vouch := ⟨"12D3Koo", "Ada", []⟩

/-- Two vouches in the second of the start, and a restart in the next second. -/
def burst : List (Lifetime (Iam × Bool × List String) Vouch) :=
  [⟨(.default, true, []), 100000000000, [(100100000000, vouchForAda), (100200000000, vouchForAda)]⟩,
    ⟨(.default, true, []), 101000000000, [(101100000000, vouchForAda)]⟩]

/-- One vouch in each of two seconds. -/
def calm : List (Lifetime (Iam × Bool × List String) Vouch) :=
  [⟨(.default, true, []), 100000000000, [(100100000000, vouchForAda)]⟩,
    ⟨(.default, true, []), 101000000000, [(101100000000, vouchForAda)]⟩]

def adaActions : List String := [abilityLogin, abilityPeer "12D3Koo", abilityName "Ada"]

theorem ada_compiled : (Iam.default.compile (.allow adaActions .any .default)).isOk = true := by
  decide +kernel

/-- Ada is vouched for under the next nonce. -/
theorem vouch_ada {r : NodeAuthResponder Iam.symbolic} (hiam : r.iam = .default) :
    ∃ v, r.vouch vouchForAda = (.ok v, { r with nonce := r.nonce + 1 }) ∧
      capKey Iam.symbolic v.1 = some (r.identity, r.nonce) := by
  obtain ⟨scope, hscope⟩ := Outcome.isOk_iff.mp ada_compiled
  let g := Iam.issueRoot Iam.symbolic r.identity ⟨r.identity⟩ scope r.nonce
  have hmint : r.iam.mint Iam.symbolic r.identity ⟨Iam.symbolic.nodeId r.identity⟩
      (.allow adaActions .any .default) r.nonce = .ok g := by
    rw [hiam, Iam.mint, hscope]
    rfl
  refine ⟨(g.token, adaActions), ?_, capKey_mint symbolic_issueLaws hmint⟩
  have hactions : [abilityLogin, abilityPeer vouchForAda.peerId, abilityName vouchForAda.name] ++
      vouchForAda.appAbilities = adaActions := rfl
  simp only [NodeAuthResponder.vouch, NodeAuthResponder.vouchToken, hactions, hmint]
  rfl

theorem mintedKeys_ada {r : NodeAuthResponder Iam.symbolic} (hiam : r.iam = .default)
    (t : SystemTime) (calls : List (SystemTime × Vouch)) :
    mintedKeys Iam.symbolic NodeAuthResponder.vouch Prod.fst r ((t, vouchForAda) :: calls) =
      (r.identity, r.nonce) :: mintedKeys Iam.symbolic NodeAuthResponder.vouch Prod.fst
        { r with nonce := r.nonce + 1 } calls := by
  obtain ⟨v, hvouch, hkey⟩ := vouch_ada hiam
  simp only [mintedKeys, Machine.answers, hvouch]
  exact List.filterMap_cons_some hkey

def castGrant : OperatorGrant := ⟨(Principal.mk (.filled 2)).hex, "cast", 100⟩

def castPolicy : Policy :=
  .allow [abilityOperator, abilityForAud "cast"] .any
    { Conditions.default with notAfter := some 700 }

def bridgeIam : Iam := Iam.default.withActionUniverse [abilityOperator]

theorem cast_compiled : (bridgeIam.compile castPolicy).isOk = true := by decide +kernel

/-- The operator grant is issued under the next nonce. -/
theorem grant_cast {b : CapBridge Iam.symbolic} (hiam : b.iam = bridgeIam)
    (hresource : b.resource = .any) (httl : b.ttlSecs = 600) :
    ∃ token, b.grant castGrant = (.ok token, { b with nonce := b.nonce + 1 }) ∧
      capKey Iam.symbolic token = some (b.root, b.nonce) := by
  obtain ⟨scope, hscope⟩ := Outcome.isOk_iff.mp cast_compiled
  let g := Iam.issueRoot Iam.symbolic b.root ⟨.filled 2⟩ scope b.nonce
  have hmint : b.iam.mint Iam.symbolic b.root ⟨.filled 2⟩ castPolicy b.nonce = .ok g := by
    rw [hiam, Iam.mint, hscope]
    rfl
  have hexpiry : Iam.checkedAdd castGrant.now 600 = some 700 := by decide
  refine ⟨g.token, ?_, capKey_mint symbolic_issueLaws hmint⟩
  have hpolicy : Policy.allow [abilityOperator, abilityForAud castGrant.aud] .any
      { Conditions.default with notAfter := some 700 } = castPolicy := rfl
  simp only [CapBridge.grant, CapBridge.mintOperatorGrant, castGrant, Principal.parse_hex, httl,
    hresource]
  simp only [castGrant] at hexpiry hpolicy
  simp only [hexpiry, hpolicy, hmint]
  rfl

theorem mintedKeys_cast {b : CapBridge Iam.symbolic} (hiam : b.iam = bridgeIam)
    (hresource : b.resource = .any) (httl : b.ttlSecs = 600) (t : SystemTime) :
    mintedKeys Iam.symbolic CapBridge.grant id b [(t, castGrant)] = [(b.root, b.nonce)] := by
  obtain ⟨token, hgrant, hkey⟩ := grant_cast hiam hresource httl
  simp only [mintedKeys, Machine.answers, hgrant]
  exact List.filterMap_cons_some hkey

/-- One operator grant in each of two lifetimes of a bridge. -/
def calmGrants : List (Lifetime (ResourceMatch × UInt64) OperatorGrant) :=
  [⟨(.any, 600), 100000000000, [(100100000000, castGrant)]⟩,
    ⟨(.any, 600), 101000000000, [(101100000000, castGrant)]⟩]

theorem keys_unique_calm :
    vouchKeys Iam.symbolic (NodeId.filled 1) calm =
      [(NodeId.filled 1, 100), (NodeId.filled 1, 101)] ∧
    operatorKeys Iam.symbolic (NodeId.filled 1) calmGrants =
      [(NodeId.filled 1, 100000000), (NodeId.filled 1, 101000000)] ∧
    (vouchKeys Iam.symbolic (NodeId.filled 1) calm).Nodup ∧
    (operatorKeys Iam.symbolic (NodeId.filled 1) calmGrants).Nodup := by
  have hunique := keys_unique symbolic_issueLaws (NodeId.filled 1) calm calmGrants
  refine ⟨?_, ?_, hunique.1 ⟨?_, ?_⟩, hunique.2 ⟨?_, ?_⟩⟩
  · simp only [vouchKeys, calm, List.flatMap_cons, List.flatMap_nil]
    rw [mintedKeys_ada rfl, mintedKeys_ada rfl]
    rfl
  · simp only [operatorKeys, calmGrants, List.flatMap_cons, List.flatMap_nil]
    rw [mintedKeys_cast rfl rfl rfl, mintedKeys_cast rfl rfl rfl]
    rfl
  · simp only [calm, List.pairwise_cons]
    decide
  · decide
  · simp only [calmGrants, List.pairwise_cons, List.length_cons]
    decide
  · simp only [calmGrants]
    decide

/-- The second vouch of the burst and the first one after the restart have one key. -/
theorem burst_repeats_key :
    ¬ ∀ lives, InOrder lives → (vouchKeys Iam.symbolic (NodeId.filled 1) lives).Nodup := by
  intro hclaim
  have horder : InOrder burst := by
    simp only [InOrder, burst, List.pairwise_cons]
    decide
  have hkeys : vouchKeys Iam.symbolic (NodeId.filled 1) burst =
      [(NodeId.filled 1, 100), (NodeId.filled 1, 101), (NodeId.filled 1, 101)] := by
    simp only [vouchKeys, burst, List.flatMap_cons, List.flatMap_nil]
    rw [mintedKeys_ada rfl, mintedKeys_ada rfl, mintedKeys_ada rfl]
    rfl
  have hnodup := hclaim burst horder
  rw [hkeys] at hnodup
  exact absurd hnodup (by decide)

end CeIam
