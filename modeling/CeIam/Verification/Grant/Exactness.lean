import CeIam.Verification.Grant.Rules
import CeIam.Verification.Grant.ScopeKey

/-! # Compilation preserves what a policy permits

The grants minted from a policy verify for exactly the requests that one of its
statements permits. -/

namespace CeIam

/-- The nodes a statement's resource selects; a node is named by its hexadecimal text. -/
def ResourceMatch.Matches (selfId : NodeId) (selfTags : List String) : ResourceMatch → Prop
  | .any => True
  | .node h => Hex.decode (Text.trim h) = some selfId.bytes
  | .tag t => t ∈ selfTags
  | .allOf ts => ∀ t ∈ ts, t ∈ selfTags

/-- The times a set of conditions admits. -/
def Conditions.AdmitsTime (now : UInt64) (c : Conditions) : Prop :=
  (∀ n ∈ c.notBefore, n ≤ now) ∧ ∀ n ∈ c.notAfter, n = 0 ∨ now ≤ n

/-- A policy permits what one of its allowing statements does. -/
def Policy.Permits (iam : Iam) (policy : Policy) (action : String) (selfId : NodeId)
    (selfTags : List String) (now : UInt64) : Prop :=
  ∃ s ∈ policy.statements, s.effect = .allow ∧ (∃ entry ∈ s.actions, iam.covers entry action) ∧
    s.resource.Matches selfId selfTags ∧ s.conditions.AdmitsTime now

/-! ## Lowering -/

theorem ResourceMatch.matches_toCapResource {r : ResourceMatch} {resource : Resource}
    (h : r.toCapResource = .ok resource) (selfId : NodeId) (selfTags : List String) :
    resource.Matches selfId selfTags ↔ r.Matches selfId selfTags := by
  cases r with
  | any => cases h; exact Iff.rfl
  | node text =>
      simp only [toCapResource] at h
      split at h
      · cases h
      · next bytes hbytes =>
          split at h
          · next hsize =>
              cases h
              obtain ⟨self, hself⟩ := selfId
              simp [Resource.Matches, Matches, hbytes]
          · cases h
  | tag t =>
      simp only [toCapResource] at h
      split at h
      · cases h
      · cases h; exact Iff.rfl
  | allOf ts =>
      simp only [toCapResource] at h
      split at h
      · cases h
      · cases h; exact Iff.rfl

theorem Conditions.admitsTime_toCaveats (c : Conditions) (now : UInt64) :
    c.toCaveats.AdmitsTime now ↔ c.AdmitsTime now := by
  have hzero : (0 : UInt64) ≤ now := UInt64.zero_le
  unfold Caveats.AdmitsTime AdmitsTime toCaveats
  cases c.notBefore <;> cases c.notAfter <;> simp [hzero]

namespace Iam

variable {iam : Iam} {policy : Policy}

theorem mem_allows {s : Statement} :
    s ∈ allows policy ↔ s ∈ policy.statements ∧ s.effect = .allow := by
  simp [allows]

/-- The scope a group compiles to admits what the group's actions, resource and
conditions do. -/
theorem compileGroup_eq_ok {g : Group} {scope : Scope} (h : iam.compileGroup g = .ok scope) :
    (∀ action, action ∈ scope.abilities ↔ ∃ entry ∈ g.actions, iam.covers entry action) ∧
      g.resource.toCapResource = .ok scope.resource ∧ scope.caveats = g.conditions.toCaveats := by
  simp only [compileGroup, Outcome.bind_eq_ok, Outcome.ensure_eq_ok] at h
  obtain ⟨abilities, habilities, -, -, resource, hresource, hscope⟩ := h
  cases hscope
  exact ⟨(mem_expandActions habilities).2, hresource, rfl⟩

/-- The scopes of a policy together admit exactly what it permits. -/
theorem permits_iff_scope {scopes : List Scope} (h : iam.compileScopes policy = .ok scopes)
    (action : String) (selfId : NodeId) (selfTags : List String) (now : UInt64) :
    policy.Permits iam action selfId selfTags now ↔
      ∃ scope ∈ scopes, action ∈ scope.abilities ∧ scope.resource.Matches selfId selfTags ∧
        scope.caveats.AdmitsTime now := by
  obtain ⟨-, -, hgroups⟩ := compileScopes_eq_ok.mp h
  obtain ⟨hcompiled, hsource⟩ := Outcome.mem_mapM hgroups
  constructor
  · rintro ⟨s, hs, heffect, ⟨entry, hentry, hcovers⟩, hmatches, htime⟩
    have hallow : s ∈ allows policy := mem_allows.mpr ⟨hs, heffect⟩
    obtain ⟨g, hg⟩ := exists_group hallow
    obtain ⟨hresource, hconditions, hactions⟩ := group_of_key hg hallow
    obtain ⟨scope, hscope, hgroup⟩ := hcompiled _ hg
    obtain ⟨habilities, hlowered, hcaveats⟩ := compileGroup_eq_ok hgroup
    refine ⟨scope, hscope, (habilities action).mpr ⟨entry, hactions entry hentry, hcovers⟩, ?_, ?_⟩
    · rw [ResourceMatch.matches_toCapResource hlowered, hresource]
      exact hmatches
    · rw [hcaveats, Conditions.admitsTime_toCaveats, hconditions]
      exact htime
  · rintro ⟨scope, hscope, haction, hmatches, htime⟩
    obtain ⟨⟨k, g⟩, hg, hgroup⟩ := hsource scope hscope
    obtain ⟨habilities, hlowered, hcaveats⟩ := compileGroup_eq_ok hgroup
    obtain ⟨entry, hentry, hcovers⟩ := (habilities action).mp haction
    obtain ⟨s, hs, hresource, hconditions, hmem⟩ := mem_group_actions hg hentry
    obtain ⟨hstatement, heffect⟩ := mem_allows.mp hs
    refine ⟨s, hstatement, heffect, ⟨entry, hmem, hcovers⟩, ?_, ?_⟩
    · rwa [ResourceMatch.matches_toCapResource hlowered, hresource] at hmatches
    · rwa [hcaveats, Conditions.admitsTime_toCaveats, hconditions] at htime

/-! ## Minting -/

variable {cc : CeCap}

theorem checkedAdd_eq_some {a b n : UInt64} :
    checkedAdd a b = some n ↔ n.toNat = a.toNat + b.toNat := by
  rw [checkedAdd]
  split_ifs with hfits
  · have hsum : (a + b).toNat = a.toNat + b.toNat := by
      rw [UInt64.toNat_add, Nat.mod_eq_of_lt hfits]
    rw [Option.some.injEq, ← hsum, UInt64.toNat_inj, eq_comm]
  · have hlt := n.toNat_lt
    exact iff_of_false nofun fun hn => hfits (hn ▸ hlt)

theorem issueScope_eq_ok {issuer : cc.Identity} {audience : Principal} {base : UInt64}
    {scope : Scope} {i : ℕ} {g : Grant} :
    issueScope cc issuer audience base scope i = .ok g ↔
      ∃ nonce, checkedAdd base (UInt64.ofNat i) = some nonce ∧
        g = issueRoot cc issuer audience scope nonce := by
  rw [issueScope]
  cases checkedAdd base (UInt64.ofNat i) with
  | none => simp
  | some nonce => simp [eq_comm]

/-- The grants of a policy are root grants of its scopes, and each scope has one. -/
theorem mintPolicy_eq_ok {issuer : cc.Identity} {audience : Principal} {base : UInt64}
    {grants : List Grant} (h : iam.mintPolicy cc issuer audience policy base = .ok grants) :
    ∃ scopes, iam.compileScopes policy = .ok scopes ∧
      (∀ g ∈ grants, ∃ scope ∈ scopes, ∃ nonce, g = issueRoot cc issuer audience scope nonce) ∧
      ∀ scope ∈ scopes, ∃ g ∈ grants, ∃ nonce, g = issueRoot cc issuer audience scope nonce := by
  obtain ⟨scopes, hscopes, hmint⟩ := Outcome.bind_eq_ok.mp h
  obtain ⟨hminted, hsource⟩ := Outcome.mem_mapM hmint
  refine ⟨scopes, hscopes, ?_, ?_⟩
  · intro g hg
    obtain ⟨e, he, hcall⟩ := hsource g hg
    obtain ⟨nonce, -, hissued⟩ := issueScope_eq_ok.mp hcall
    exact ⟨e.1, List.fst_mem_of_mem_zipIdx he, nonce, hissued⟩
  · intro scope hscope
    obtain ⟨i, hi⟩ := List.mem_iff_getElem?.mp hscope
    obtain ⟨g, hg, hcall⟩ := hminted (scope, i) (List.mem_zipIdx_iff_getElem?.mpr hi)
    obtain ⟨nonce, -, hissued⟩ := issueScope_eq_ok.mp hcall
    exact ⟨g, hg, nonce, hissued⟩

end Iam

end CeIam
