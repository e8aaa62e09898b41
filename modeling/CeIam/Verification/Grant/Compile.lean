import CeIam.Model.Iam

/-! # What the policy compiler accepts

One inversion lemma for each function of the compiler; later results use these and
never unfold the compiler. -/

namespace CeIam.Iam

variable {iam : Iam}

/-! ## Actions -/

/-- The actions a single entry covers. -/
def covers (iam : Iam) (entry action : String) : Prop :=
  let a := Text.trim entry
  if a = "*" then action ∈ iam.actionUniverse
  else
    match Text.stripSuffix a '*' with
    | some pfx => action ∈ iam.actionUniverse ∧ Text.startsWith action pfx = true
    | none => action = a

/-- An entry that expands stands for exactly the actions it covers, of which there is one. -/
theorem mem_expandAction {entry : String} {out : List String}
    (h : iam.expandAction entry = .ok out) :
    out ≠ [] ∧ ∀ action, action ∈ out ↔ iam.covers entry action := by
  unfold expandAction at h
  unfold covers
  by_cases hempty : Text.trim entry = ""
  · simp [hempty] at h
  · by_cases hstar : Text.trim entry = "*"
    · by_cases hu : iam.actionUniverse = []
      · simp [hstar, hu] at h
      · simp only [hstar, hu, if_false, if_true] at h
        simp only [hstar, if_true]
        cases h
        exact ⟨hu, fun _ => Iff.rfl⟩
    · simp only [hempty, hstar, if_false] at h ⊢
      cases hsuffix : Text.stripSuffix (Text.trim entry) '*' with
      | none =>
          simp only [hsuffix] at h ⊢
          cases h
          simp
      | some pfx =>
          simp only [hsuffix] at h ⊢
          split at h
          · cases h
          · next hmatched =>
              cases h
              exact ⟨hmatched, by simp⟩

/-- A single star is the pattern of an empty front. -/
theorem covers_iff {entry action : String} :
    iam.covers entry action ↔
      match Text.stripSuffix (Text.trim entry) '*' with
      | none => action = Text.trim entry
      | some stem => action ∈ iam.actionUniverse ∧ Text.startsWith action stem = true := by
  simp only [covers]
  by_cases hstar : Text.trim entry = "*"
  · have hstem : Text.stripSuffix "*" '*' = some "" := by decide
    rw [if_pos hstar, hstar, hstem]
    exact (and_iff_left (Text.startsWith_iff.mpr ⟨action, String.empty_append.symm⟩)).symm
  · rw [if_neg hstar]
    cases Text.stripSuffix (Text.trim entry) '*' <;> exact Iff.rfl

-- Later results go through the two lemmas; unfolding compares strings character by character.
attribute [irreducible] covers

/-- An expanded list holds exactly what its entries cover; it is empty only if the list is. -/
theorem mem_expandActions {actions abilities : List String}
    (h : iam.expandActions actions = .ok abilities) :
    (abilities = [] ↔ actions = []) ∧
      ∀ action, action ∈ abilities ↔ ∃ entry ∈ actions, iam.covers entry action := by
  obtain ⟨out, hout, hret⟩ := Outcome.bind_eq_ok.mp h
  cases hret
  have hall := Outcome.mapM_eq_ok.mp hout
  clear hout h
  induction hall with
  | nil => simp
  | @cons entry chunk entries chunks hentry hrest ih =>
      obtain ⟨hchunk, hmem⟩ := mem_expandAction hentry
      refine ⟨by simp [hchunk], ?_⟩
      intro action
      have htail := ih.2 action
      simp only [mem_sortDedup] at htail
      simp [hmem, htail]

theorem expandActions_eq_ok {actions out : List String} :
    iam.expandActions actions = .ok out ↔
      (∀ entry ∈ actions, ∃ chunk, iam.expandAction entry = .ok chunk) ∧
        out.Pairwise (· < ·) ∧ ∀ a, a ∈ out ↔ ∃ entry ∈ actions, iam.covers entry a := by
  constructor
  · intro h
    obtain ⟨chunks, hchunks, hout⟩ := Outcome.bind_eq_ok.mp h
    refine ⟨Outcome.mapM_exists.mp ⟨chunks, hchunks⟩, ?_, (mem_expandActions h).2⟩
    cases hout
    exact sortDedup_pairwise _
  · rintro ⟨hentries, hsorted, hmem⟩
    obtain ⟨chunks, hchunks⟩ := Outcome.mapM_exists.mpr hentries
    have h : iam.expandActions actions = .ok (sortDedup chunks.flatten) :=
      Outcome.bind_eq_ok.mpr ⟨chunks, hchunks, rfl⟩
    have hsame : ∀ a, a ∈ out ↔ a ∈ sortDedup chunks.flatten := fun a => by
      rw [hmem, (mem_expandActions h).2]
    rw [h, eq_of_mem_iff_of_pairwise hsorted (sortDedup_pairwise _) hsame]

/-- An expansion depends only on which entries a list has. -/
theorem expandActions_congr {actions entries out : List String}
    (h : ∀ entry, entry ∈ actions ↔ entry ∈ entries) :
    iam.expandActions actions = .ok out ↔ iam.expandActions entries = .ok out := by
  simp only [expandActions_eq_ok, h]

/-- The scopes of a policy are those of its groups. -/
theorem compileScopes_eq_ok {policy : Policy} {scopes : List Scope} :
    iam.compileScopes policy = .ok scopes ↔ hasDeny policy = false ∧
      (groups policy).toList ≠ [] ∧
      (groups policy).toList.mapM (fun e => iam.compileGroup e.2) = .ok scopes := by
  rw [compileScopes]
  cases hasDeny policy with
  | true => simp
  | false =>
      by_cases hnil : (groups policy).toList = []
      · simp [hnil]
      · simp [hnil]

/-- A group without actions does not compile. -/
theorem compileGroup_actions {g : Group} {scope : Scope} (h : iam.compileGroup g = .ok scope) :
    g.actions ≠ [] := by
  simp only [compileGroup, Outcome.bind_eq_ok, Outcome.ensure_eq_ok] at h
  obtain ⟨abilities, habilities, -, hne, -⟩ := h
  exact fun hnil => hne ((mem_expandActions habilities).1.mpr hnil)

/-- A group compiles by which actions it has. -/
theorem compileGroup_congr {resource : ResourceMatch} {conditions : Conditions}
    {actions entries : List String} {scope : Scope} (h : ∀ a, a ∈ actions ↔ a ∈ entries) :
    iam.compileGroup ⟨resource, conditions, actions⟩ = .ok scope ↔
      iam.compileGroup ⟨resource, conditions, entries⟩ = .ok scope := by
  simp only [compileGroup, Outcome.bind_eq_ok, expandActions_congr h]

end CeIam.Iam
