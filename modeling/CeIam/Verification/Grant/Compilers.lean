import CeIam.Verification.Grant.Compile
import CeIam.Verification.Grant.ScopeKey

/-! # Two compilers for one document

`compile` compares the scopes of the statements with each other, `compileScopes` groups the
statements by their serialized scope. The first succeeds exactly when the second finds a
single group and compiles it. -/

namespace CeIam.Iam

variable {iam : Iam} {policy : Policy} {cc : CeCap}

/-- The statements have the scope of the first one. -/
def Uniform (first : Statement) (ss : List Statement) : Prop :=
  ∀ s ∈ ss, s.resource = first.resource ∧ s.conditions = first.conditions

theorem checkUniform_eq_ok {first : Statement} {ss : List Statement} {u : Unit} :
    checkUniform first ss = .ok u ↔ Uniform first ss := by
  induction ss with
  | nil => simp [checkUniform, Uniform]
  | cons s ss ih =>
      rw [checkUniform, Uniform, List.forall_mem_cons]
      split_ifs with hresource hconditions
      · exact iff_of_false nofun fun h => hresource h.1.1
      · exact iff_of_false nofun fun h => hconditions h.1.2
      · rw [ih]
        exact (and_iff_right ⟨not_not.mp hresource, not_not.mp hconditions⟩).symm

/-- The group of all statements of a list, with the scope of the first one. -/
def groupFrom (first : Statement) (rest : List Statement) : Group :=
  ⟨first.resource, first.conditions, (first :: rest).flatMap (·.actions)⟩

theorem compile_eq_ok {scope : Scope} :
    iam.compile policy = .ok scope ↔ hasDeny policy = false ∧
      ∃ first rest, allows policy = first :: rest ∧ Uniform first rest ∧
        iam.compileGroup (groupFrom first rest) = .ok scope := by
  rw [compile]
  cases hdeny : hasDeny policy with
  | true => exact iff_of_false nofun fun h => nomatch h.1
  | false =>
      rw [if_neg Bool.false_ne_true]
      cases hallows : allows policy with
      | nil =>
          refine iff_of_false nofun ?_
          rintro ⟨-, first, rest, h, -⟩
          cases h
      | cons first rest =>
          simp only [Outcome.bind_eq_ok, checkUniform_eq_ok, Outcome.ensure_eq_ok, compileGroup,
            groupFrom]
          constructor
          · rintro ⟨-, huniform, hscope⟩
            exact ⟨trivial, first, rest, rfl, huniform, hscope⟩
          · rintro ⟨-, _, _, heq, huniform, hscope⟩
            cases heq
            exact ⟨(), huniform, hscope⟩

/-- A policy of a single statement compiles as its group. -/
theorem compile_allow {actions : List String} {resource : ResourceMatch} {conditions : Conditions}
    {scope : Scope} :
    iam.compile (.allow actions resource conditions) = .ok scope ↔
      iam.compileGroup ⟨resource, conditions, actions⟩ = .ok scope := by
  have hallows : allows (.allow actions resource conditions) =
      [⟨none, .allow, actions, resource, conditions⟩] := rfl
  have hgroup : groupFrom ⟨none, .allow, actions, resource, conditions⟩ [] =
      ⟨resource, conditions, actions⟩ := by
    rw [groupFrom, List.flatMap_cons, List.flatMap_nil, List.append_nil]
  rw [compile_eq_ok, hallows]
  constructor
  · rintro ⟨-, first, rest, heq, -, hscope⟩
    cases heq
    exact hgroup ▸ hscope
  · intro hscope
    refine ⟨rfl, _, [], rfl, ?_, hgroup.symm ▸ hscope⟩
    exact fun s hs => absurd hs List.not_mem_nil

/-- There is a single group exactly when all allowing statements have one scope. -/
theorem groups_eq_singleton {k : String} {g : Group} :
    (groups policy).toList = [(k, g)] ↔
      ∃ first rest, allows policy = first :: rest ∧ Uniform first rest ∧
        k = scopeKey first ∧ g = groupFrom first rest := by
  constructor
  · intro h
    have hkey : ∀ s ∈ allows policy, scopeKey s = k := by
      intro s hs
      obtain ⟨g', hg'⟩ := exists_group hs
      rw [h, List.mem_singleton] at hg'
      exact congrArg Prod.fst hg'
    have hfilter : (allows policy).filter (fun s => scopeKey s = k) = allows policy := by
      rw [List.filter_eq_self]
      exact fun s hs => decide_eq_true (hkey s hs)
    have hget := OrdMap.toList_eq_singleton.mp h k
    rw [if_pos rfl, get_groups, hfilter] at hget
    cases hallows : allows policy with
    | nil =>
        rw [hallows] at hget
        cases hget
    | cons first rest =>
        rw [hallows] at hget hkey
        refine ⟨first, rest, rfl, ?_, (hkey first List.mem_cons_self).symm,
          (Option.some.inj hget).symm⟩
        intro s hs
        refine scopeKey_eq.mp ?_
        rw [hkey s (List.mem_cons_of_mem _ hs), hkey first List.mem_cons_self]
  · rintro ⟨first, rest, hallows, huniform, rfl, rfl⟩
    rw [OrdMap.toList_eq_singleton]
    intro a
    have hkey : ∀ s ∈ first :: rest, scopeKey s = scopeKey first := by
      rw [List.forall_mem_cons]
      exact ⟨rfl, fun s hs => scopeKey_eq.mpr (huniform s hs)⟩
    rw [get_groups, hallows]
    split_ifs with ha
    · have hfilter : (first :: rest).filter (fun s => scopeKey s = a) = first :: rest := by
        rw [List.filter_eq_self]
        exact fun s hs => decide_eq_true ((hkey s hs).trans ha)
      rw [hfilter]
      rfl
    · have hfilter : (first :: rest).filter (fun s => scopeKey s = a) = [] := by
        rw [List.filter_eq_nil_iff]
        exact fun s hs => mt of_decide_eq_true fun heq => ha ((hkey s hs).symm.trans heq)
      rw [hfilter]

/-- The compiler of single scopes and the compiler of many agree on single scopes. -/
theorem compile_iff_compileScopes {scope : Scope} :
    iam.compile policy = .ok scope ↔ iam.compileScopes policy = .ok [scope] := by
  rw [compile_eq_ok, compileScopes_eq_ok, Outcome.mapM_eq_ok]
  refine and_congr_right fun _ => ?_
  constructor
  · rintro ⟨first, rest, hallows, huniform, hscope⟩
    have hgroups : (groups policy).toList = [(scopeKey first, groupFrom first rest)] :=
      groups_eq_singleton.mpr ⟨first, rest, hallows, huniform, rfl, rfl⟩
    rw [hgroups]
    exact ⟨List.cons_ne_nil _ _, .cons hscope .nil⟩
  · rintro ⟨-, hall⟩
    generalize hgroups : (groups policy).toList = entries at hall
    cases hall with
    | @cons e _ entries _ hscope hrest =>
        cases hrest
        obtain ⟨first, rest, hallows, huniform, -, hg⟩ := groups_eq_singleton.mp hgroups
        rw [hg] at hscope
        exact ⟨first, rest, hallows, huniform, hscope⟩

/-! ## Minting -/

theorem mint_eq_ok {issuer : cc.Identity} {audience : Principal} {nonce : UInt64} {g : Grant} :
    iam.mint cc issuer audience policy nonce = .ok g ↔
      ∃ scope, iam.compile policy = .ok scope ∧ g = issueRoot cc issuer audience scope nonce := by
  rw [mint, Outcome.bind_eq_ok]
  constructor
  · rintro ⟨scope, hscope, hg⟩
    cases hg
    exact ⟨scope, hscope, rfl⟩
  · rintro ⟨scope, hscope, rfl⟩
    exact ⟨scope, hscope, rfl⟩

/-- The first nonce is the base itself. -/
theorem issueScope_zero (issuer : cc.Identity) (audience : Principal) (base : UInt64)
    (scope : Scope) :
    issueScope cc issuer audience base scope 0 = .ok (issueRoot cc issuer audience scope base) := by
  have hadd : checkedAdd base (UInt64.ofNat 0) = some base := by
    have hfits : base.toNat + (UInt64.ofNat 0).toNat < 2 ^ 64 := base.toNat_lt
    rw [checkedAdd, if_pos hfits]
    simp
  rw [issueScope, hadd]

/-- Minting one grant succeeds exactly when minting all grants of the policy gives a single one,
which is the same; what the second refuses the first refuses. -/
theorem mint_iff_mintPolicy (issuer : cc.Identity) (audience : Principal) (policy : Policy)
    (nonce : UInt64) :
    (∀ g, iam.mint cc issuer audience policy nonce = .ok g ↔
      iam.mintPolicy cc issuer audience policy nonce = .ok [g]) ∧
    ((∃ e, iam.mintPolicy cc issuer audience policy nonce = .error e) →
      ∃ e, iam.mint cc issuer audience policy nonce = .error e) := by
  have hgrants : ∀ g, iam.mint cc issuer audience policy nonce = .ok g ↔
      iam.mintPolicy cc issuer audience policy nonce = .ok [g] := by
    intro g
    rw [mint_eq_ok, mintPolicy, Outcome.bind_eq_ok]
    constructor
    · rintro ⟨scope, hscope, rfl⟩
      refine ⟨[scope], compile_iff_compileScopes.mp hscope, ?_⟩
      rw [Outcome.mapM_eq_ok]
      exact .cons (issueScope_zero issuer audience nonce scope) .nil
    · rintro ⟨scopes, hscopes, hissued⟩
      have hlength := (Outcome.mapM_eq_ok.mp hissued).length_eq
      rw [List.length_zipIdx] at hlength
      obtain ⟨scope, rfl⟩ := List.length_eq_one_iff.mp hlength
      refine ⟨scope, compile_iff_compileScopes.mpr hscopes, ?_⟩
      cases Outcome.mapM_eq_ok.mp hissued with
      | cons hg _ =>
          rw [issueScope_zero] at hg
          exact (Except.ok.inj hg).symm
  refine ⟨hgrants, ?_⟩
  rintro ⟨e, herror⟩
  cases hmint : iam.mint cc issuer audience policy nonce with
  | error e' => exact ⟨e', rfl⟩
  | ok g =>
      have hok := (hgrants g).mp hmint
      rw [herror] at hok
      cases hok

end CeIam.Iam
