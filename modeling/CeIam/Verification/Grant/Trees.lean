import CeIam.Verification.Grant.Reissue

/-! # What the last link says

Delegation only narrows, so a chain that was delegated authorizes what its last link says, as long
as its root is accepted and none of its links is revoked. -/

namespace CeIam.Iam

/-- What a narrower resource or narrower caveats admit, the broader ones admit. -/
structure NarrowingLaws (cc : CeCap) : Prop where
  resource : ∀ r s, cc.isSubsetOf r s = true → ∀ selfId selfTags,
    r.Matches selfId selfTags → s.Matches selfId selfTags
  caveats : ∀ c d, cc.isNarrowerOrEqual c d = true → ∀ now, c.AdmitsTime now → d.AdmitsTime now

/-- A scope permits an action on a node at a time. -/
structure Scope.Permits (selfId : NodeId) (selfTags : List String) (now : UInt64) (action : String)
    (scope : Scope) : Prop where
  ability : action ∈ scope.abilities
  resource : scope.resource.Matches selfId selfTags
  time : scope.caveats.AdmitsTime now

variable {cc : CeCap} {signatureValid : SignedCapability → Bool} {selfId : NodeId}
  {selfTags : List String} {now : UInt64} {action : String}

theorem Scope.Permits.widen (sound : NarrowingLaws cc) {scope : Scope} {link : SignedCapability}
    (h : scope.Permits selfId selfTags now action) (hwithin : scope.Within cc link.cap) :
    (scopeOf link).Permits selfId selfTags now action where
  ability := hwithin.abilities action h.ability
  resource := sound.resource _ _ hwithin.resource selfId selfTags h.resource
  time := sound.caveats _ _ hwithin.caveats now h.time

/-- The last link of a chain is within every link of it. -/
theorem WellDelegated.leaf_within (laws : DelegationLaws cc) {g : Grant}
    (h : WellDelegated cc g.chain) : ∀ link ∈ g.chain, (scopeOf g.leaf).Within cc link.cap := by
  have hself : (scopeOf g.leaf).Within cc g.leaf.cap :=
    ⟨fun _ => id, laws.subset_refl _, laws.narrower_refl _⟩
  exact h.within_of_leaf laws hself

theorem isChain_and {α : Type*} {R S : α → α → Prop} {l : List α} (h : l.IsChain R)
    (k : l.IsChain S) : l.IsChain fun a b => R a b ∧ S a b := by
  induction h with
  | nil => exact .nil
  | singleton a => exact .singleton a
  | cons_cons hab _ ih =>
      cases k with
      | cons_cons hs hrest => exact .cons_cons ⟨hab, hs⟩ (ih hrest)

/-- A delegated chain follows the rules exactly when its root is accepted, no link is revoked and
the last link names the requester and permits the action. -/
theorem sixRules_wellDelegated (laws : DelegationLaws cc) (sound : NarrowingLaws cc) {g : Grant}
    (hwell : WellDelegated cc g.chain) (hvalid : ∀ link ∈ g.chain, signatureValid link = true)
    {acceptedRoots : List NodeId} {requester : NodeId} {isRevoked : NodeId → UInt64 → Bool} :
    SixRules cc signatureValid selfId acceptedRoots selfTags now requester action g.chain
        isRevoked ↔
      ((g.chain.head g.nonempty).cap.issuer = selfId ∨
          (g.chain.head g.nonempty).cap.issuer ∈ acceptedRoots) ∧
        (∀ link ∈ g.chain, isRevoked link.cap.issuer link.cap.nonce = false) ∧
        g.leaf.cap.audience = requester ∧
        (scopeOf g.leaf).Permits selfId selfTags now action := by
  have hhead := List.head?_eq_some_head g.nonempty
  have hlast := List.getLast?_eq_some_getLast g.nonempty
  constructor
  · intro h
    obtain ⟨first, hfirst, hroot⟩ := h.roots
    obtain ⟨last, hleaf, hrequester, haction⟩ := h.leaf
    rw [hhead, Option.mem_some_iff] at hfirst
    rw [hlast, Option.mem_some_iff] at hleaf
    rw [← hfirst] at hroot
    rw [← hleaf] at hrequester haction
    have hmem : g.leaf ∈ g.chain := List.getLast_mem g.nonempty
    exact ⟨hroot, h.revocation, hrequester, haction, h.resources _ hmem, h.temporal _ hmem⟩
  · rintro ⟨hroot, hlive, hrequester, hpermits⟩
    have hall : ∀ link ∈ g.chain, (scopeOf link).Permits selfId selfTags now action :=
      fun link hlink => hpermits.widen sound (hwell.leaf_within laws link hlink)
    exact
      { roots := ⟨_, hhead, hroot⟩
        signatures := hvalid
        temporal := fun link hlink => (hall link hlink).time
        revocation := hlive
        resources := fun link hlink => (hall link hlink).resource
        continuity := isChain_and hwell.continuous hwell.narrowing.isChain
        leaf := ⟨_, hlast, hrequester, hpermits.ability⟩ }

/-- The symbolic library narrows soundly. -/
theorem symbolic_narrowingLaws : NarrowingLaws symbolic where
  resource := by
    intro r s h selfId selfTags hr
    cases s with
    | any => exact trivial
    | node id =>
        have heq : r = .node id := by simpa [symbolic, symbolicSigner, Resource.isSubsetOf] using h
        rwa [heq] at hr
    | tag t =>
        have ht : t ∈ r.requiredTags := by
          simpa [symbolic, symbolicSigner, Resource.isSubsetOf] using h
        cases r with
        | any => cases ht
        | node id => cases ht
        | tag u =>
            rw [List.mem_singleton.mp ht]
            exact hr
        | allOf us => exact hr t ht
    | allOf ts =>
        have hts : ∀ t ∈ ts, t ∈ r.requiredTags := by
          simpa [symbolic, symbolicSigner, Resource.isSubsetOf] using h
        intro t ht
        cases r with
        | any => cases hts t ht
        | node id => cases hts t ht
        | tag u =>
            rw [List.mem_singleton.mp (hts t ht)]
            exact hr
        | allOf us => exact hr t (hts t ht)
  caveats := by
    intro c d h now hc
    have hboth : d.notBefore ≤ c.notBefore ∧
        boundedBy (fun a b => decide (a ≤ b)) c.expiry d.expiry = true := by
      simp only [symbolic, symbolicSigner, Caveats.isNarrowerOrEqual, Bool.and_eq_true,
        decide_eq_true_eq] at h
      exact ⟨h.1.1.1.1.1.1, h.1.1.1.1.1.2⟩
    refine ⟨UInt64.le_trans hboth.1 hc.1, ?_⟩
    by_cases hd : d.notAfter = 0
    · exact .inl hd
    · have hbound := hboth.2
      simp only [Caveats.expiry, if_neg hd, boundedBy] at hbound
      by_cases hzero : c.notAfter = 0
      · simp [hzero] at hbound
      · rw [if_neg hzero, Option.any_some, decide_eq_true_eq] at hbound
        exact .inr (UInt64.le_trans (hc.2.resolve_left hzero) hbound)

end CeIam.Iam
