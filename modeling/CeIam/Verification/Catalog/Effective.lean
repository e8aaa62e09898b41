import CeIam.Model.Catalog
import CeIam.Verification.Grant.Compilers
import CeIam.Verification.Grant.Exactness
import CeIam.Verification.Grant.Nonces

/-! # The report of effective grants

A catalog reports what minting from the roles of a principal would issue. The report groups
the statements of the roles as the policy compiler does, without expanding wildcards; minting
its entries one by one issues what minting all statements at once does. -/

namespace CeIam

namespace Catalog

/-- The statements of the roles attached to a principal, one role after another. -/
def attachedStatements (c : Catalog) (p : Principal) : List Statement :=
  (c.rolesFor p).flatMap fun name => ((c.getRole name).map (·.policy.statements)).getD []

/-! ## The groups of the report -/

/-- The group of a scope without the roles it comes from. -/
def ScopeRoles.group (g : ScopeRoles) : Iam.Group := ⟨g.resource, g.conditions, g.actions⟩

/-- The groups of a report are those of the compiler. -/
def Groups (m : OrdMap String ScopeRoles) (groups : OrdMap String Iam.Group) : Prop :=
  m.map (fun _ g => g.group) = groups

/-- Collects the actions of an allowing statement as the compiler does. -/
def collect (groups : OrdMap String Iam.Group) (s : Statement) : OrdMap String Iam.Group :=
  if s.effect = .allow then
    let g := (groups[Iam.scopeKey s]?).getD ⟨s.resource, s.conditions, []⟩
    groups.insert (Iam.scopeKey s) { g with actions := g.actions ++ s.actions }
  else groups

theorem groups_eq_collect (policy : Policy) :
    Iam.groups policy = policy.statements.foldl collect ∅ := by
  rw [Iam.groups, OrdMap.groupBy, Iam.allows, List.foldl_filter]
  simp only [decide_eq_true_eq]
  rfl

theorem addStatement_groups {name : String} {m m' : OrdMap String ScopeRoles}
    {groups : OrdMap String Iam.Group} {s : Statement}
    (h : addStatement name m s = .ok m') (hm : Groups m groups) :
    Groups m' (collect groups s) := by
  subst hm
  simp only [addStatement] at h
  by_cases hallow : s.effect = .allow
  · rw [if_neg (not_not.mpr hallow)] at h
    by_cases hempty : s.actions = []
    · rw [if_pos hempty] at h
      cases h
    · rw [if_neg hempty] at h
      cases h
      rw [collect, if_pos hallow]
      apply OrdMap.ext
      intro k
      simp only [Std.ExtTreeMap.getElem?_map, OrdMap.get_insert]
      by_cases hk : Iam.scopeKey s = k
      · subst hk
        rw [if_pos rfl, if_pos rfl]
        cases m[Iam.scopeKey s]? with
        | none => rfl
        | some g => rfl
      · rw [if_neg hk, if_neg hk]
  · rw [if_pos hallow] at h
    cases h
    rw [collect, if_neg hallow]
    rfl

theorem addRole_groups {c : Catalog} {name : String} {m m' : OrdMap String ScopeRoles}
    {groups : OrdMap String Iam.Group} (h : c.addRole m name = .ok m') (hm : Groups m groups) :
    Groups m' ((((c.getRole name).map (·.policy.statements)).getD []).foldl collect groups) := by
  rw [addRole] at h
  rw [getRole]
  split at h
  · cases h
  · next role hrole =>
      rw [hrole]
      exact Outcome.foldlM_simulation (fun _ _ _ _ => addStatement_groups) h hm

/-- A report lists the groups of the compiler, with their actions sorted. -/
theorem effectiveGrants_eq_ok {c : Catalog} {p : Principal} {gs : List EffectiveGrant}
    {policy : Policy} (h : c.effectiveGrants p = .ok gs)
    (hpolicy : policy.statements = c.attachedStatements p) :
    List.Forall₂ (fun g e => g.resource = e.2.resource ∧ g.conditions = e.2.conditions ∧
      g.abilities = sortDedup e.2.actions) gs (Iam.groups policy).toList := by
  obtain ⟨m, hm, hgs⟩ := Outcome.bind_eq_ok.mp h
  cases hgs
  have hempty : Groups ∅ ∅ := by
    apply OrdMap.ext
    intro k
    simp
  have hgroups := Outcome.foldlM_simulation (fun _ _ _ _ => addRole_groups) hm hempty
  rw [← List.foldl_flatMap, ← attachedStatements, ← hpolicy, ← groups_eq_collect, Groups] at hgroups
  rw [← hgroups, Std.ExtTreeMap.toList_map, List.forall₂_map_left_iff, List.forall₂_map_right_iff,
    List.forall₂_same]
  exact fun e _ => ⟨rfl, rfl, rfl⟩

end Catalog

/-! ## Minting from the report -/

namespace Iam

variable {iam : Iam} {cc : CeCap}

/-- The statement of an entry of the report. -/
def reported (g : EffectiveGrant) : Policy := .allow g.abilities g.resource g.conditions

/-- Mints the entries of a report one by one. -/
def mintReport (iam : Iam) (cc : CeCap) (issuer : cc.Identity) (audience : Principal)
    (gs : List EffectiveGrant) (nonces : ℕ → UInt64) : Except IamError (List Grant) :=
  gs.zipIdx.mapM fun e => iam.mint cc issuer audience (reported e.1) (nonces e.2)

/-- The scopes of the report are the scopes of the policy. -/
theorem compileScopes_report {c : Catalog} {p : Principal} {gs : List EffectiveGrant}
    {policy : Policy} {scopes : List Scope} (hreport : c.effectiveGrants p = .ok gs)
    (hpolicy : policy.statements = c.attachedStatements p) (hdeny : hasDeny policy = false)
    (hgs : gs ≠ []) :
    iam.compileScopes policy = .ok scopes ↔
      gs.mapM (fun g => iam.compile (reported g)) = .ok scopes := by
  have hgroups := Catalog.effectiveGrants_eq_ok hreport hpolicy
  have hnil : (groups policy).toList ≠ [] := by
    intro hnil
    rw [hnil] at hgroups
    exact hgs (List.forall₂_nil_right_iff.mp hgroups)
  rw [compileScopes_eq_ok, and_iff_right hdeny, and_iff_right hnil, Outcome.mapM_eq_ok,
    Outcome.mapM_eq_ok]
  generalize (groups policy).toList = entries at hgroups
  clear hnil hgs hreport
  induction hgroups generalizing scopes with
  | nil => rw [List.forall₂_nil_left_iff, List.forall₂_nil_left_iff]
  | @cons g e gs entries hge _ ih =>
      obtain ⟨hresource, hconditions, habilities⟩ := hge
      have hscope : ∀ scope, iam.compileGroup e.2 = .ok scope ↔
          iam.compile (reported g) = .ok scope := by
        intro scope
        rw [reported, compile_allow, hresource, hconditions]
        exact compileGroup_congr fun a => by rw [habilities, mem_sortDedup]
      cases scopes with
      | nil => simp
      | cons scope scopes =>
          rw [List.forall₂_cons, List.forall₂_cons, hscope]
          exact and_congr_right fun _ => ih

/-- The entries of a report can be minted exactly when they compile. -/
theorem mintReport_exists {issuer : cc.Identity} {audience : Principal} {gs : List EffectiveGrant}
    {nonces : ℕ → UInt64} :
    (∃ minted, iam.mintReport cc issuer audience gs nonces = .ok minted) ↔
      ∃ scopes, gs.mapM (fun g => iam.compile (reported g)) = .ok scopes := by
  rw [mintReport, Outcome.mapM_exists, Outcome.mapM_exists]
  constructor
  · intro h g hg
    obtain ⟨i, hi⟩ := List.mem_iff_getElem?.mp hg
    obtain ⟨minted, hminted⟩ := h (g, i) (List.mem_zipIdx_iff_getElem?.mpr hi)
    obtain ⟨scope, hscope, -⟩ := mint_eq_ok.mp hminted
    exact ⟨scope, hscope⟩
  · rintro h ⟨g, i⟩ he
    obtain ⟨scope, hscope⟩ := h g (List.fst_mem_of_mem_zipIdx he)
    exact ⟨_, mint_eq_ok.mpr ⟨scope, hscope, rfl⟩⟩

/-- All scopes can be issued exactly when their nonces do not overflow. -/
theorem mintPolicy_exists {issuer : cc.Identity} {audience : Principal} {policy : Policy}
    {base : UInt64} :
    (∃ grants, iam.mintPolicy cc issuer audience policy base = .ok grants) ↔
      ∃ scopes, iam.compileScopes policy = .ok scopes ∧
        ∀ i < scopes.length, ∃ nonce, checkedAdd base (UInt64.ofNat i) = some nonce := by
  simp only [mintPolicy, Outcome.bind_eq_ok]
  rw [exists_comm]
  simp only [exists_and_left, Outcome.mapM_exists]
  refine exists_congr fun scopes => and_congr_right fun _ => ?_
  constructor
  · intro h i hi
    obtain ⟨g, hg⟩ := h (scopes[i], i) (List.mem_zipIdx_iff_getElem?.mpr (by simp [hi]))
    obtain ⟨nonce, hnonce, -⟩ := issueScope_eq_ok.mp hg
    exact ⟨nonce, hnonce⟩
  · rintro h ⟨scope, i⟩ he
    obtain ⟨nonce, hnonce⟩ := h i (List.snd_lt_of_mem_zipIdx he)
    exact ⟨_, issueScope_eq_ok.mpr ⟨nonce, hnonce, rfl⟩⟩

/-- The grants convey the same abilities on the same resource, under the same caveats. -/
def SameScope (g g' : Grant) : Prop :=
  g.leaf.cap.abilities = g'.leaf.cap.abilities ∧ g.leaf.cap.resource = g'.leaf.cap.resource ∧
    g.leaf.cap.caveats = g'.leaf.cap.caveats

theorem sameScope_issueRoot (laws : IssueLaws cc) (issuer : cc.Identity) (audience : Principal)
    (scope : Scope) (n n' : UInt64) :
    SameScope (issueRoot cc issuer audience scope n) (issueRoot cc issuer audience scope n') := by
  simp [SameScope, issueRoot, Grant.fromChain, Grant.leaf, laws.issue_cap]

/-- Entries and scopes that are issued give the same grants, position by position. -/
theorem sameScope_minted (laws : IssueLaws cc) {issuer : cc.Identity} {audience : Principal}
    {gs : List EffectiveGrant} {scopes : List Scope} {nonces : ℕ → UInt64} {base : UInt64}
    {minted grants : List Grant} {k : ℕ}
    (hscopes : gs.mapM (fun g => iam.compile (reported g)) = .ok scopes)
    (hminted : (gs.zipIdx k).mapM
      (fun e => iam.mint cc issuer audience (reported e.1) (nonces e.2)) = .ok minted)
    (hgrants : (scopes.zipIdx k).mapM
      (fun e => issueScope cc issuer audience base e.1 e.2) = .ok grants) :
    List.Forall₂ SameScope minted grants := by
  rw [Outcome.mapM_eq_ok] at hscopes hminted hgrants
  induction hscopes generalizing k minted grants with
  | nil =>
      cases hminted
      cases hgrants
      exact .nil
  | cons hscope _ ih =>
      cases hminted with
      | cons hmint hminted =>
          cases hgrants with
          | cons hissue hgrants =>
              refine .cons ?_ (ih hminted hgrants)
              obtain ⟨scope, hcompiled, rfl⟩ := mint_eq_ok.mp hmint
              obtain ⟨nonce, -, rfl⟩ := issueScope_eq_ok.mp hissue
              rw [hscope] at hcompiled
              cases hcompiled
              exact sameScope_issueRoot laws ..

/-- Minting from the roles of a principal issues what the report of its effective grants lists,
unless the nonces of the scopes overflow. -/
theorem mintPolicy_report (laws : IssueLaws cc) (iam : Iam) {c : Catalog} {p : Principal}
    {gs : List EffectiveGrant} {policy : Policy} (hreport : c.effectiveGrants p = .ok gs)
    (hpolicy : policy.statements = c.attachedStatements p) (hdeny : hasDeny policy = false)
    (issuer : cc.Identity) (audience : Principal) (nonces : ℕ → UInt64) (base : UInt64) :
    (gs = [] → iam.mintPolicy cc issuer audience policy base =
      .error (.badPolicy "policy grants nothing")) ∧
    (gs ≠ [] →
      ((∃ grants, iam.mintPolicy cc issuer audience policy base = .ok grants) ↔
        (∃ minted, iam.mintReport cc issuer audience gs nonces = .ok minted) ∧
          ∀ i < gs.length, ∃ nonce, checkedAdd base (UInt64.ofNat i) = some nonce) ∧
      ∀ minted grants, iam.mintReport cc issuer audience gs nonces = .ok minted →
        iam.mintPolicy cc issuer audience policy base = .ok grants →
        List.Forall₂ SameScope minted grants) := by
  constructor
  · rintro rfl
    have hnil := List.forall₂_nil_left_iff.mp (Catalog.effectiveGrants_eq_ok hreport hpolicy)
    rw [mintPolicy, compileScopes, if_neg (by simp [hdeny]), if_pos hnil]
    rfl
  · intro hgs
    have hscopes : ∀ scopes, iam.compileScopes policy = .ok scopes ↔
        gs.mapM (fun g => iam.compile (reported g)) = .ok scopes :=
      fun _ => compileScopes_report hreport hpolicy hdeny hgs
    constructor
    · rw [mintPolicy_exists, mintReport_exists, ← exists_and_right]
      refine exists_congr fun scopes => ?_
      rw [hscopes]
      refine and_congr_right fun hcompiled => ?_
      rw [(Outcome.mapM_eq_ok.mp hcompiled).length_eq]
    · intro minted grants hminted hgrants
      obtain ⟨scopes, hcompiled, hissued⟩ := Outcome.bind_eq_ok.mp hgrants
      exact sameScope_minted laws ((hscopes scopes).mp hcompiled) hminted hissued

/-! ## Two scopes and the last nonce -/

/-- A role with two scopes. -/
def operator : Role :=
  ⟨"operator", none, ⟨Policy.versionTag,
    [⟨none, .allow, ["read"], .any, .default⟩, ⟨none, .allow, ["exec"], .tag "gpu", .default⟩]⟩⟩

def operated : Catalog :=
  (Catalog.new.apply (.putRole operator) none).apply (.attachRole ⟨.filled 2⟩ "operator") none

theorem operated_report : ∃ gs, operated.effectiveGrants ⟨.filled 2⟩ = .ok gs ∧ gs ≠ [] ∧
    ∃ minted, Iam.default.mintReport symbolic (NodeId.filled 1) ⟨.filled 2⟩ gs UInt64.ofNat =
      .ok minted := by
  have hminted : ((operated.effectiveGrants ⟨.filled 2⟩) >>= fun gs =>
      Outcome.ensure (gs ≠ []) (.badPolicy "no scope") >>= fun _ =>
      Iam.default.mintReport symbolic (NodeId.filled 1) ⟨.filled 2⟩ gs UInt64.ofNat).isOk =
        true := by
    decide +kernel
  obtain ⟨minted, hok⟩ := Outcome.isOk_iff.mp hminted
  obtain ⟨gs, hgs, hrest⟩ := Outcome.bind_eq_ok.mp hok
  obtain ⟨_, hnil, hmint⟩ := Outcome.bind_eq_ok.mp hrest
  exact ⟨gs, hgs, Outcome.ensure_eq_ok.mp hnil, minted, hmint⟩

theorem operated_statements :
    operator.policy.statements = operated.attachedStatements ⟨.filled 2⟩ := by
  decide +kernel

/-- The report of the two scopes is what minting the role issues. -/
theorem mintPolicy_report_operated : ∃ gs minted grants,
    operated.effectiveGrants ⟨.filled 2⟩ = .ok gs ∧
    Iam.default.mintReport symbolic (NodeId.filled 1) ⟨.filled 2⟩ gs UInt64.ofNat = .ok minted ∧
    Iam.default.mintPolicy symbolic (NodeId.filled 1) ⟨.filled 2⟩ operator.policy 7 = .ok grants ∧
    List.Forall₂ SameScope minted grants := by
  obtain ⟨gs, hreport, hgs, minted, hminted⟩ := operated_report
  have hgrants : (Iam.default.mintPolicy symbolic (NodeId.filled 1) ⟨.filled 2⟩
      operator.policy 7).isOk = true := by
    decide +kernel
  obtain ⟨grants, hgrants⟩ := Outcome.isOk_iff.mp hgrants
  have hsame := ((mintPolicy_report symbolic_issueLaws .default hreport operated_statements
    (by decide) (NodeId.filled 1) ⟨.filled 2⟩ UInt64.ofNat 7).2 hgs).2
  exact ⟨gs, minted, grants, hreport, hminted, hgrants, hsame minted grants hminted hgrants⟩

/-- The entries of the report are minted, but after the last nonce the policy is not. -/
theorem operated_overflows : ¬ ∀ gs base,
    operated.effectiveGrants ⟨.filled 2⟩ = .ok gs → gs ≠ [] →
      ((∃ minted, Iam.default.mintReport symbolic (NodeId.filled 1) ⟨.filled 2⟩ gs UInt64.ofNat =
          .ok minted) ↔
        ∃ grants, Iam.default.mintPolicy symbolic (NodeId.filled 1) ⟨.filled 2⟩ operator.policy
          base = .ok grants) := by
  intro hclaim
  obtain ⟨gs, hreport, hgs, hminted⟩ := operated_report
  obtain ⟨grants, hgrants⟩ := (hclaim gs (UInt64.ofNat (2 ^ 64 - 1)) hreport hgs).mp hminted
  have hoverflow : (Iam.default.mintPolicy symbolic (NodeId.filled 1) ⟨.filled 2⟩ operator.policy
      (UInt64.ofNat (2 ^ 64 - 1))).isOk = false := by
    decide +kernel
  rw [hgrants] at hoverflow
  cases hoverflow

end Iam

end CeIam
