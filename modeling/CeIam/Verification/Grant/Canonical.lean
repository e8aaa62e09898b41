import CeIam.Verification.Grant.Exactness
import CeIam.Verification.Grant.Symbolic

/-! # Canonical minting

What a policy allows is a set of actions on resources under conditions. Policies that allow
the same mint the same grants, with the same nonces, whatever the order and the grouping of
their statements. -/

namespace CeIam.Iam

variable {iam : Iam} {cc : CeCap} {p q : Policy}

/-- An allowing statement lists the action for this resource and these conditions. -/
def Allows (p : Policy) (r : ResourceMatch) (c : Conditions) (a : String) : Prop :=
  ∃ s ∈ allows p, s.resource = r ∧ s.conditions = c ∧ a ∈ s.actions

def SameTriples (p q : Policy) : Prop := ∀ r c a, Allows p r c a ↔ Allows q r c a

/-- The policy denies something, or allows nothing in one of its scopes. -/
def Refused (p : Policy) : Prop :=
  hasDeny p = true ∨ ∃ s ∈ allows p, ∀ a, ¬ Allows p s.resource s.conditions a

/-! ## The groups as sets -/

/-- A group with its actions in order and without repetitions. -/
def Group.sorted (g : Group) : Group := { g with actions := sortDedup g.actions }

def sortedGroups (p : Policy) : OrdMap String Group := (groups p).map fun _ g => g.sorted

theorem compileGroup_sorted (g : Group) (scope : Scope) :
    iam.compileGroup g.sorted = .ok scope ↔ iam.compileGroup g = .ok scope :=
  compileGroup_congr fun _ => mem_sortDedup

/-- The scopes of a policy are those of its groups as sets. -/
theorem compileScopes_sorted {scopes : List Scope} :
    iam.compileScopes p = .ok scopes ↔ hasDeny p = false ∧ (sortedGroups p).toList ≠ [] ∧
      (sortedGroups p).toList.mapM (fun e => iam.compileGroup e.2) = .ok scopes := by
  rw [compileScopes_eq_ok, sortedGroups, Std.ExtTreeMap.toList_map, Outcome.mapM_eq_ok,
    Outcome.mapM_eq_ok, List.forall₂_map_left_iff]
  simp only [compileGroup_sorted, ne_eq, List.map_eq_nil_iff]

/-- A group has exactly the actions that the policy allows in its scope. -/
theorem mem_group_iff {k a : String} {g : Group} (h : (k, g) ∈ (groups p).toList) :
    a ∈ g.actions ↔ Allows p g.resource g.conditions a := by
  constructor
  · intro ha
    obtain ⟨s, hs, hresource, hconditions, hmem⟩ := mem_group_actions h ha
    exact ⟨s, hs, hresource.symm, hconditions.symm, hmem⟩
  · rintro ⟨s, hs, hresource, hconditions, hmem⟩
    obtain ⟨first, -, rfl, hfirst, hfirst', -⟩ := mem_groups h
    have hkey : scopeKey first = scopeKey s :=
      scopeKey_eq.mpr ⟨hfirst.symm.trans hresource.symm, hfirst'.symm.trans hconditions.symm⟩
    exact (group_of_key (hkey ▸ h) hs).2.2 a hmem

/-- There is a group for each scope of an allowing statement. -/
theorem get_sortedGroups {k : String} {g : Group} :
    (sortedGroups p)[k]? = some g ↔
      (∃ s ∈ allows p, scopeKey s = k ∧ s.resource = g.resource ∧ s.conditions = g.conditions) ∧
        g.actions.Pairwise (· < ·) ∧ ∀ a, a ∈ g.actions ↔ Allows p g.resource g.conditions a := by
  rw [sortedGroups, Std.ExtTreeMap.getElem?_map, Option.map_eq_some_iff]
  constructor
  · rintro ⟨g, hget, rfl⟩
    have hmem : (k, g) ∈ (groups p).toList := OrdMap.mem_toList.mpr hget
    obtain ⟨first, hfirst, hkey, hresource, hconditions, -⟩ := mem_groups hmem
    refine ⟨⟨first, hfirst, hkey, hresource.symm, hconditions.symm⟩, sortDedup_pairwise _, ?_⟩
    exact fun a => mem_sortDedup.trans (mem_group_iff hmem)
  · rintro ⟨⟨s, hs, rfl, hresource, hconditions⟩, hsorted, hactions⟩
    obtain ⟨g', hg'⟩ := exists_group hs
    obtain ⟨hresource', hconditions', -⟩ := group_of_key hg' hs
    have hsame : g'.sorted.actions = g.actions := by
      apply eq_of_mem_iff_of_pairwise (sortDedup_pairwise _) hsorted
      intro a
      rw [mem_sortDedup, mem_group_iff hg', hactions, hresource', hconditions', hresource,
        hconditions]
    refine ⟨g', OrdMap.mem_toList.mp hg', ?_⟩
    cases g
    simp_all [Group.sorted]

/-- A policy that is not refused has no group that another policy with its triples has not. -/
theorem get_sortedGroups_of_same (hp : ¬ Refused p) (h : SameTriples p q) {k : String} {g : Group}
    (hget : (sortedGroups p)[k]? = some g) : (sortedGroups q)[k]? = some g := by
  rw [get_sortedGroups] at hget ⊢
  obtain ⟨⟨s, hs, rfl, hresource, hconditions⟩, hsorted, hactions⟩ := hget
  obtain ⟨a, ha⟩ : ∃ a, Allows p s.resource s.conditions a := by
    by_contra hnone
    exact hp (.inr ⟨s, hs, not_exists.mp hnone⟩)
  obtain ⟨t, ht, htr, htc, -⟩ := (h _ _ _).mp ha
  refine ⟨⟨t, ht, scopeKey_eq.mpr ⟨htr, htc⟩, htr.trans hresource, htc.trans hconditions⟩,
    hsorted, ?_⟩
  exact fun a => (hactions a).trans (h _ _ a)

theorem sortedGroups_eq (hp : ¬ Refused p) (hq : ¬ Refused q) (h : SameTriples p q) :
    sortedGroups p = sortedGroups q := by
  apply OrdMap.ext
  intro k
  apply Option.ext
  intro g
  constructor
  · exact get_sortedGroups_of_same hp h
  · exact get_sortedGroups_of_same hq fun r c a => (h r c a).symm

/-- Policies that are not refused compile alike when they allow the same. -/
theorem compileScopes_congr (hp : ¬ Refused p) (hq : ¬ Refused q) (h : SameTriples p q)
    (scopes : List Scope) :
    iam.compileScopes p = .ok scopes ↔ iam.compileScopes q = .ok scopes := by
  have hdeny : ∀ {p : Policy}, ¬ Refused p → hasDeny p = false := fun hp =>
    Bool.eq_false_iff.mpr fun hdeny => hp (.inl hdeny)
  rw [compileScopes_sorted, compileScopes_sorted, sortedGroups_eq hp hq h, hdeny hp, hdeny hq]

/-- A policy that is refused does not compile. -/
theorem compileScopes_refused (hp : Refused p) {scopes : List Scope} :
    iam.compileScopes p ≠ .ok scopes := by
  intro h
  obtain ⟨hdeny, -, hgroups⟩ := compileScopes_sorted.mp h
  rcases hp with hp | ⟨s, hs, hnone⟩
  · rw [hdeny] at hp
    cases hp
  · have hget : (sortedGroups p)[scopeKey s]? = some ⟨s.resource, s.conditions, []⟩ :=
      get_sortedGroups.mpr ⟨⟨s, hs, rfl, rfl, rfl⟩, .nil, fun a => by simp [hnone a]⟩
    have hmem : (scopeKey s, ⟨s.resource, s.conditions, []⟩) ∈ (sortedGroups p).toList :=
      OrdMap.mem_toList.mpr hget
    obtain ⟨scope, -, hscope⟩ := (Outcome.mem_mapM hgroups).1 _ hmem
    exact compileGroup_actions hscope rfl

/-! ## Nonces -/

/-- A policy has at most as many scopes as statements. -/
theorem length_scopes_le {scopes : List Scope} (h : iam.compileScopes p = .ok scopes) :
    scopes.length ≤ p.statements.length := by
  obtain ⟨-, -, hgroups⟩ := compileScopes_eq_ok.mp h
  rw [← (Outcome.mapM_eq_ok.mp hgroups).length_eq]
  exact (OrdMap.length_groupBy_le ..).trans (List.length_filter_le ..)

/-- The capability library keeps the nonce that it is given. -/
def KeepsNonce (cc : CeCap) : Prop :=
  ∀ issuer audience abilities resource caveats nonce parent,
    (cc.issue issuer audience abilities resource caveats nonce parent).cap.nonce = nonce

/-- The scopes from position `k` on have the nonces from `k` after the base on. -/
theorem nonces_issued (hnonce : KeepsNonce cc) {issuer : cc.Identity} {audience : Principal}
    {base : UInt64} {scopes : List Scope} {k : ℕ} {gs : List Grant}
    (h : (scopes.zipIdx k).mapM (fun e => issueScope cc issuer audience base e.1 e.2) = .ok gs)
    (hsize : k + scopes.length ≤ UInt64.size) :
    gs.map (fun g => g.leaf.cap.nonce.toNat) = List.range' (base.toNat + k) gs.length := by
  rw [Outcome.mapM_eq_ok] at h
  induction scopes generalizing k gs with
  | nil =>
      cases h
      rfl
  | cons scope scopes ih =>
      rw [List.length_cons] at hsize
      cases h with
      | cons hg hgs =>
          obtain ⟨nonce, hadd, rfl⟩ := issueScope_eq_ok.mp hg
          have hfirst : nonce.toNat = base.toNat + k := by
            rw [checkedAdd_eq_some.mp hadd, UInt64.toNat_ofNat_of_lt' (by omega)]
          rw [List.map_cons, ih hgs (by omega), List.length_cons, List.range'_succ]
          simp [issueRoot, Grant.fromChain, Grant.leaf, hnonce _ _ _ _ _ _ _, hfirst, add_assoc]

/-- The nonces of a policy count from the base on. -/
theorem mintPolicy_nonces (hnonce : KeepsNonce cc) {issuer : cc.Identity} {audience : Principal}
    {base : UInt64} {gs : List Grant} (hsize : p.statements.length ≤ UInt64.size)
    (h : iam.mintPolicy cc issuer audience p base = .ok gs) :
    gs.map (fun g => g.leaf.cap.nonce.toNat) = List.range' base.toNat gs.length := by
  obtain ⟨scopes, hscopes, hissued⟩ := Outcome.bind_eq_ok.mp h
  have hlength := length_scopes_le hscopes
  exact nonces_issued hnonce hissued (by omega)

/-! ## Minting -/

theorem mintPolicy_refused (hp : Refused p) (issuer : cc.Identity) (audience : Principal)
    (base : UInt64) : ∃ e, iam.mintPolicy cc issuer audience p base = .error e := by
  cases hmint : iam.mintPolicy cc issuer audience p base with
  | error e => exact ⟨e, rfl⟩
  | ok gs =>
      obtain ⟨scopes, hscopes, -⟩ := Outcome.bind_eq_ok.mp hmint
      exact absurd hscopes (compileScopes_refused hp)

/-- Policies that allow the same, and are both refused or not, both fail to be minted or give
the same grants, whose nonces count from the base on. A vector holds no more than `UInt64.size`
statements. -/
theorem mintPolicy_canonical (hnonce : KeepsNonce cc) (iam : Iam) (issuer : cc.Identity)
    (audience : Principal) (base : UInt64) (hsame : SameTriples p q)
    (hrefused : Refused p ↔ Refused q) :
    ((∃ e, iam.mintPolicy cc issuer audience p base = .error e) ∧
      ∃ e, iam.mintPolicy cc issuer audience q base = .error e) ∨
    ∃ gs, iam.mintPolicy cc issuer audience p base = .ok gs ∧
      iam.mintPolicy cc issuer audience q base = .ok gs ∧
      (p.statements.length ≤ UInt64.size →
        gs.map (fun g => g.leaf.cap.nonce.toNat) = List.range' base.toNat gs.length ∧
        (gs.map fun g => g.leaf.cap.nonce).Nodup) := by
  by_cases hp : Refused p
  · exact .inl ⟨mintPolicy_refused hp .., mintPolicy_refused (hrefused.mp hp) ..⟩
  · have hminted : ∀ gs, iam.mintPolicy cc issuer audience p base = .ok gs ↔
        iam.mintPolicy cc issuer audience q base = .ok gs := by
      intro gs
      simp only [mintPolicy, Outcome.bind_eq_ok,
        compileScopes_congr hp (mt hrefused.mpr hp) hsame]
    cases hmint : iam.mintPolicy cc issuer audience p base with
    | error e =>
        refine .inl ⟨⟨e, rfl⟩, ?_⟩
        cases hmint' : iam.mintPolicy cc issuer audience q base with
        | error e' => exact ⟨e', rfl⟩
        | ok gs =>
            rw [← hminted, hmint] at hmint'
            cases hmint'
    | ok gs =>
        refine .inr ⟨gs, rfl, (hminted gs).mp hmint, fun hsize => ?_⟩
        have hnonces := mintPolicy_nonces hnonce hsize hmint
        refine ⟨hnonces, List.Nodup.of_map UInt64.toNat ?_⟩
        rw [List.map_map]
        exact hnonces ▸ List.nodup_range'

/-- Two scopes, in one statement each. -/
def twoScopes : Policy := ⟨Policy.versionTag,
  [⟨none, .allow, ["read", "write"], .any, .default⟩,
    ⟨none, .allow, ["exec"], .tag "gpu", .default⟩]⟩

/-- The same two scopes, repeated and cut into other statements. -/
def regrouped : Policy := ⟨Policy.versionTag,
  [⟨some "gpu", .allow, ["exec", "exec"], .tag "gpu", .default⟩,
    ⟨none, .allow, ["write"], .any, .default⟩, ⟨none, .allow, ["read"], .any, .default⟩]⟩

theorem twoScopes_same : SameTriples twoScopes regrouped := by
  intro r c a
  have hleft : allows twoScopes = [_, _] := rfl
  have hright : allows regrouped = [_, _, _] := rfl
  simp only [Allows, hleft, hright, List.mem_cons, List.not_mem_nil, or_false, exists_eq_or_imp,
    exists_eq_left]
  grind

/-- A policy is not refused when it denies nothing and each of its statements has an action. -/
theorem not_refused (hdeny : hasDeny p = false) (hactions : ∀ s ∈ allows p, s.actions ≠ []) :
    ¬ Refused p := by
  rintro (h | ⟨s, hs, hnone⟩)
  · rw [hdeny] at h
    cases h
  · obtain ⟨a, ha⟩ := List.exists_mem_of_ne_nil _ (hactions s hs)
    exact hnone a ⟨s, hs, rfl, rfl, ha⟩

theorem mintPolicy_canonical_twoScopes : ∃ gs,
    Iam.default.mintPolicy symbolic (NodeId.filled 1) ⟨.filled 2⟩ twoScopes 7 = .ok gs ∧
    Iam.default.mintPolicy symbolic (NodeId.filled 1) ⟨.filled 2⟩ regrouped 7 = .ok gs ∧
    gs.map (fun g => g.leaf.cap.nonce.toNat) = List.range' 7 gs.length ∧
    (gs.map fun g => g.leaf.cap.nonce).Nodup := by
  have hnonce : KeepsNonce symbolic := fun _ _ _ _ _ _ _ => rfl
  have hrefused : Refused twoScopes ↔ Refused regrouped :=
    iff_of_false (not_refused rfl (by simp [allows, twoScopes]))
      (not_refused rfl (by simp [allows, regrouped]))
  have hminted : (Iam.default.mintPolicy symbolic (NodeId.filled 1) ⟨.filled 2⟩
      twoScopes 7).isOk = true := by
    decide +kernel
  rcases mintPolicy_canonical hnonce .default (NodeId.filled 1) ⟨.filled 2⟩ 7
    twoScopes_same hrefused with ⟨⟨e, herror⟩, -⟩ | ⟨gs, hgs, hgs', hnonces⟩
  · rw [herror] at hminted
    cases hminted
  · exact ⟨gs, hgs, hgs', hnonces (by decide)⟩

/-- The same allowing statements, with one that denies. -/
def withDeny : Policy :=
  { twoScopes with statements := twoScopes.statements ++ [⟨none, .deny, ["exec"], .any, .default⟩] }

/-- A statement that denies makes the difference between grants and none. -/
theorem mintPolicy_withDeny : ¬ ∀ (iam : Iam) (issuer : NodeId) (audience : Principal)
    (base : UInt64) (p q : Policy), SameTriples p q →
    ((∃ e, iam.mintPolicy symbolic issuer audience p base = .error e) ∧
      ∃ e, iam.mintPolicy symbolic issuer audience q base = .error e) ∨
    ∃ gs, iam.mintPolicy symbolic issuer audience p base = .ok gs ∧
      iam.mintPolicy symbolic issuer audience q base = .ok gs := by
  intro hclaim
  have hsame : SameTriples twoScopes withDeny := fun _ _ _ => Iff.rfl
  have hminted : (Iam.default.mintPolicy symbolic (NodeId.filled 1) ⟨.filled 2⟩
      twoScopes 7).isOk = true := by
    decide +kernel
  have hdenied : Iam.default.mintPolicy symbolic (NodeId.filled 1) ⟨.filled 2⟩ withDeny 7 =
      .error .denyUnsupported := rfl
  rcases hclaim .default (NodeId.filled 1) ⟨.filled 2⟩ 7 _ _ hsame with ⟨⟨e, herror⟩, -⟩ | h
  · rw [herror] at hminted
    cases hminted
  · obtain ⟨gs, -, hok⟩ := h
    rw [hdenied] at hok
    cases hok

end CeIam.Iam
