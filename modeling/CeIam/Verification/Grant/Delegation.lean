import CeIam.Library.Run
import CeIam.Verification.Grant.Compile
import Mathlib.Data.List.Chain

/-! # Delegation only narrows

A call of `attenuate` extends the chain by one link that is no broader than the last.
Narrowing is transitive, so a chain built by any number of calls narrows throughout. -/

namespace CeIam.Iam

/-- The facts about the capability library that delegation relies on. -/
structure DelegationLaws (cc : CeCap) : Prop where
  subset_refl : ∀ r, cc.isSubsetOf r r = true
  subset_trans : ∀ r s t, cc.isSubsetOf r s = true → cc.isSubsetOf s t = true →
    cc.isSubsetOf r t = true
  narrower_refl : ∀ c, cc.isNarrowerOrEqual c c = true
  narrower_trans : ∀ c d e, cc.isNarrowerOrEqual c d = true → cc.isNarrowerOrEqual d e = true →
    cc.isNarrowerOrEqual c e = true
  issue_cap : ∀ issuer audience abilities resource caveats nonce parent,
    (cc.issue issuer audience abilities resource caveats nonce parent).cap =
      ⟨cc.nodeId issuer, audience, abilities, resource, caveats, nonce, parent⟩

section Definitions

variable (cc : CeCap)

/-- A scope grants no more than a link. -/
structure Scope.Within (scope : Scope) (link : Capability) : Prop where
  abilities : ∀ a ∈ scope.abilities, a ∈ link.abilities
  resource : cc.isSubsetOf scope.resource link.resource = true
  caveats : cc.isNarrowerOrEqual scope.caveats link.caveats = true

/-- The scope of a link. -/
def scopeOf (link : SignedCapability) : Scope :=
  ⟨link.cap.abilities, link.cap.resource, link.cap.caveats⟩

/-- A link continues the chain that ends with `parent`. -/
def Continues (parent child : SignedCapability) : Prop :=
  child.cap.issuer = parent.cap.audience ∧ child.cap.parent = some (cc.id parent)

structure WellDelegated (chain : List SignedCapability) : Prop where
  root : ∀ link ∈ chain.head?, link.cap.parent = none
  continuous : chain.IsChain (Continues cc)
  narrowing : chain.Pairwise (fun earlier later => (scopeOf later).Within cc earlier.cap)

/-- The arguments of one delegation. -/
structure Delegation where
  service : Iam
  holder : cc.Identity
  audience : Principal
  narrower : Policy
  nonce : UInt64

/-- A successful call of `attenuate`. -/
def delegates (g : Grant) (d : Delegation cc) (g' : Grant) : Prop :=
  d.service.attenuate cc d.holder g d.audience d.narrower d.nonce = .ok g'

end Definitions

variable {cc : CeCap} {iam : Iam}

/-! ## One delegation -/

/-- Everything a successful delegation has checked, and the grant it returns. -/
theorem attenuate_eq_ok {holder : cc.Identity} {parent : Grant} {audience : Principal}
    {narrower : Policy} {nonce : UInt64} {g : Grant} :
    iam.attenuate cc holder parent audience narrower nonce = .ok g ↔
      parent.leaf.cap.audience = cc.nodeId holder ∧
      ∃ scope, iam.compile narrower = .ok scope ∧ scope.Within cc parent.leaf.cap ∧
        g = .fromChain cc (parent.chain ++ [cc.issue holder audience.nodeId scope.abilities
          scope.resource scope.caveats nonce (some (cc.id parent.leaf))]) (by simp) := by
  simp only [attenuate, Outcome.bind_eq_ok, Outcome.ensure_eq_ok]
  constructor
  · rintro ⟨-, haudience, scope, hscope, -, habilities, -, hresource, -, hcaveats, hg⟩
    exact ⟨haudience, scope, hscope, ⟨habilities, hresource, hcaveats⟩, (Except.ok.inj hg).symm⟩
  · rintro ⟨haudience, scope, hscope, ⟨habilities, hresource, hcaveats⟩, rfl⟩
    exact ⟨⟨⟩, haudience, scope, hscope, ⟨⟩, habilities, ⟨⟩, hresource, ⟨⟩, hcaveats, rfl⟩

theorem Scope.Within.trans (laws : DelegationLaws cc) {scope : Scope}
    {middle : SignedCapability} {link : Capability} (h : scope.Within cc middle.cap)
    (k : (scopeOf middle).Within cc link) : scope.Within cc link where
  abilities := fun a ha => k.abilities a (h.abilities a ha)
  resource := laws.subset_trans _ _ _ h.resource k.resource
  caveats := laws.narrower_trans _ _ _ h.caveats k.caveats

/-- A scope within the last link is within every link of a well-delegated chain. -/
theorem WellDelegated.within_of_leaf (laws : DelegationLaws cc) {g : Grant} {scope : Scope}
    (h : WellDelegated cc g.chain) (hleaf : scope.Within cc g.leaf.cap) :
    ∀ link ∈ g.chain, scope.Within cc link.cap := by
  intro link hlink
  have hsplit := List.dropLast_append_getLast g.nonempty
  have hnarrowing := h.narrowing
  rw [← hsplit] at hlink hnarrowing
  rcases List.mem_append.mp hlink with hlink | hlink
  · have hlast := (List.pairwise_append.mp hnarrowing).2.2 link hlink g.leaf (by simp [Grant.leaf])
    exact hleaf.trans laws hlast
  · rw [List.mem_singleton.mp hlink]
    exact hleaf

theorem wellDelegated_issueRoot (laws : DelegationLaws cc) (issuer : cc.Identity)
    (audience : Principal) (scope : Scope) (nonce : UInt64) :
    WellDelegated cc (issueRoot cc issuer audience scope nonce).chain where
  root := by simp [issueRoot, Grant.fromChain, laws.issue_cap]
  continuous := .singleton _
  narrowing := List.pairwise_singleton _ _

/-- One delegation keeps a chain well delegated and extends it by one link. -/
theorem WellDelegated.delegate (laws : DelegationLaws cc) {g g' : Grant} {d : Delegation cc}
    (h : WellDelegated cc g.chain) (hd : delegates cc g d g') : WellDelegated cc g'.chain := by
  obtain ⟨haudience, scope, -, hwithin, rfl⟩ := attenuate_eq_ok.mp hd
  have hall := h.within_of_leaf laws hwithin
  constructor
  · intro link hlink
    apply h.root
    rwa [Grant.fromChain, List.head?_append_of_ne_nil _ g.nonempty] at hlink
  · refine List.isChain_append.mpr ⟨h.continuous, .singleton _, ?_⟩
    intro last hlast child hchild
    simp only [List.head?_cons, Option.mem_some_iff] at hchild
    subst hchild
    have hleaf : last = g.leaf := by
      rw [List.getLast?_eq_some_getLast g.nonempty] at hlast
      exact (Option.mem_some_iff.mp hlast).symm
    subst hleaf
    exact ⟨by simp [laws.issue_cap, haudience], by simp [laws.issue_cap]⟩
  · refine List.pairwise_append.mpr ⟨h.narrowing, List.pairwise_singleton _ _, ?_⟩
    intro link hlink child hchild
    rw [List.mem_singleton.mp hchild]
    simpa [scopeOf, laws.issue_cap] using hall link hlink

theorem delegates_extends {g g' : Grant} {d : Delegation cc} (hd : delegates cc g d g') :
    ∃ child, g'.chain = g.chain ++ [child] := by
  obtain ⟨-, scope, -, -, rfl⟩ := attenuate_eq_ok.mp hd
  exact ⟨_, rfl⟩

/-! ## Any number of delegations -/

theorem delegations_extend {g g' : Grant} {ds : List (Delegation cc)}
    (h : Run (delegates cc) g ds g') : g.chain <+: g'.chain := by
  refine h.related (R := fun g g' => g.chain <+: g'.chain) (fun g => List.prefix_refl _)
    (fun _ _ _ => List.IsPrefix.trans) ?_
  intro g d g' hd
  obtain ⟨child, hchild⟩ := delegates_extends hd
  exact ⟨[child], hchild.symm⟩

/-- A delegation by anyone but the holder, or beyond some link of the chain, is refused. -/
theorem attenuate_refuses (laws : DelegationLaws cc) {g : Grant} (h : WellDelegated cc g.chain)
    {holder : cc.Identity} {narrower : Policy} (audience : Principal) (nonce : UInt64)
    (hbad : g.leaf.cap.audience ≠ cc.nodeId holder ∨
      ∃ scope, iam.compile narrower = .ok scope ∧
        ∃ link ∈ g.chain, ¬ scope.Within cc link.cap) :
    ∃ e, iam.attenuate cc holder g audience narrower nonce = .error e := by
  cases hcall : iam.attenuate cc holder g audience narrower nonce with
  | error e => exact ⟨e, rfl⟩
  | ok g' =>
      exfalso
      obtain ⟨haudience, scope, hscope, hwithin, -⟩ := attenuate_eq_ok.mp hcall
      rcases hbad with hne | ⟨scope', hscope', link, hlink, hnot⟩
      · exact hne haudience
      · have hsame : scope = scope' := Except.ok.inj (hscope.symm.trans hscope')
        exact hnot (hsame ▸ h.within_of_leaf laws hwithin link hlink)

end CeIam.Iam
