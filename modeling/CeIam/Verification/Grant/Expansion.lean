import CeIam.Verification.Grant.Compile

/-! # What an action list expands to

A list expands when no entry is blank and every pattern matches something. The result holds the
literals and what the patterns match, each once and in order, and is its own expansion. -/

namespace CeIam.Iam

variable {iam : Iam} {actions out : List String}

/-- The entry stands for the action: as a literal, or as a pattern that a known action matches. -/
def Names (iam : Iam) (entry action : String) : Prop :=
  (action = Text.trim entry ∧ ∀ stem, Text.trim entry ≠ stem ++ "*") ∨
    ∃ stem, Text.trim entry = stem ++ "*" ∧ action ∈ iam.actionUniverse ∧
      Text.startsWith action stem = true

/-- The entry is not blank, and a known action matches it if it is a pattern. -/
def Expands (iam : Iam) (entry : String) : Prop :=
  Text.trim entry ≠ "" ∧ ∀ stem, Text.trim entry = stem ++ "*" →
    ∃ action ∈ iam.actionUniverse, Text.startsWith action stem = true

/-- An action as the catalogue of an app lists it: no pattern, and nothing to trim. -/
structure Plain (action : String) : Prop where
  nonempty : action ≠ ""
  trimmed : Text.trim action = action
  literal : ∀ stem, action ≠ stem ++ "*"

/-! ## One entry -/

theorem stem_eq_some {entry stem : String} :
    Text.stripSuffix entry '*' = some stem ↔ entry = stem ++ "*" :=
  Text.stripSuffix_eq_some rfl

theorem stem_eq_none {entry : String} :
    Text.stripSuffix entry '*' = none ↔ ∀ stem, entry ≠ stem ++ "*" := by
  rw [Option.eq_none_iff_forall_ne_some]
  exact forall_congr' fun stem => not_congr stem_eq_some

theorem covers_iff_names {entry action : String} :
    iam.covers entry action ↔ iam.Names entry action := by
  rw [covers_iff, Names]
  cases hstem : Text.stripSuffix (Text.trim entry) '*' with
  | none =>
      have hliteral := stem_eq_none.mp hstem
      constructor
      · exact fun haction => .inl ⟨haction, hliteral⟩
      · rintro (⟨haction, -⟩ | ⟨stem, hpattern, -⟩)
        · exact haction
        · exact absurd hpattern (hliteral stem)
  | some stem =>
      have hpattern := stem_eq_some.mp hstem
      constructor
      · exact fun hmatch => .inr ⟨stem, hpattern, hmatch⟩
      · rintro (⟨-, hliteral⟩ | ⟨other, hother, hmatch⟩)
        · exact absurd hpattern (hliteral stem)
        · rw [stem_eq_some.mpr hother] at hstem
          rwa [Option.some.inj hstem] at hmatch

theorem expandAction_ok {entry : String} :
    (∃ chunk, iam.expandAction entry = .ok chunk) ↔ iam.Expands entry := by
  constructor
  · rintro ⟨chunk, h⟩
    have hblank : Text.trim entry ≠ "" := by
      intro hblank
      rw [expandAction, hblank] at h
      cases h
    obtain ⟨hchunk, hmem⟩ := mem_expandAction h
    refine ⟨hblank, fun stem hpattern => ?_⟩
    -- Whatever the entry stands for is matched by its pattern.
    obtain ⟨action, haction⟩ := List.exists_mem_of_ne_nil chunk hchunk
    rcases covers_iff_names.mp ((hmem action).mp haction) with
      ⟨-, hliteral⟩ | ⟨other, hother, hmatch⟩
    · exact absurd hpattern (hliteral stem)
    · have hsame : other = stem := by
        have hstem := stem_eq_some.mpr hpattern
        rw [stem_eq_some.mpr hother] at hstem
        exact Option.some.inj hstem
      exact ⟨action, hsame ▸ hmatch⟩
  · rintro ⟨hblank, hpattern⟩
    rw [expandAction]
    simp only [if_neg hblank]
    by_cases hstar : Text.trim entry = "*"
    · have huniverse : iam.actionUniverse ≠ [] := by
        obtain ⟨action, haction, -⟩ := hpattern "" (by rw [hstar, String.empty_append])
        exact List.ne_nil_of_mem haction
      rw [if_pos hstar, if_neg huniverse]
      exact ⟨_, rfl⟩
    · rw [if_neg hstar]
      cases hstem : Text.stripSuffix (Text.trim entry) '*' with
      | none => exact ⟨_, rfl⟩
      | some stem =>
          obtain ⟨action, haction, hmatch⟩ := hpattern stem (stem_eq_some.mp hstem)
          have hmatched : iam.actionUniverse.filter (fun u => Text.startsWith u stem) ≠ [] :=
            List.ne_nil_of_mem (List.mem_filter.mpr ⟨haction, hmatch⟩)
          simp only [if_neg hmatched]
          exact ⟨_, rfl⟩

/-! ## Plain actions -/

theorem Plain.expands {action : String} (h : Plain action) : iam.Expands action := by
  refine ⟨h.trimmed.symm ▸ h.nonempty, fun stem hpattern => ?_⟩
  rw [h.trimmed] at hpattern
  exact absurd hpattern (h.literal stem)

theorem Plain.names_iff {entry action : String} (h : Plain entry) :
    iam.Names entry action ↔ action = entry := by
  rw [Names, h.trimmed]
  constructor
  · rintro (⟨haction, -⟩ | ⟨stem, hpattern, -⟩)
    · exact haction
    · exact absurd hpattern (h.literal stem)
  · exact fun haction => .inl ⟨haction, h.literal⟩

/-- What an entry stands for is plain when the known actions are. -/
theorem plain_of_names (huniverse : ∀ action ∈ iam.actionUniverse, Plain action)
    {entry action : String} (hentry : iam.Expands entry) (h : iam.Names entry action) :
    Plain action := by
  rcases h with ⟨rfl, hliteral⟩ | ⟨stem, -, haction, -⟩
  · exact ⟨hentry.1, Text.trim_trim entry, hliteral⟩
  · exact huniverse action haction

theorem expandActions_plain (h : ∀ action ∈ out, Plain action) (hsorted : out.Pairwise (· < ·)) :
    iam.expandActions out = .ok out := by
  refine expandActions_eq_ok.mpr ⟨fun entry hentry => ?_, hsorted, fun action => ?_⟩
  · exact expandAction_ok.mpr (h entry hentry).expands
  · constructor
    · intro haction
      exact ⟨action, haction, covers_iff_names.mpr ((h action haction).names_iff.mpr rfl)⟩
    · rintro ⟨entry, hentry, hcovers⟩
      rwa [(h entry hentry).names_iff.mp (covers_iff_names.mp hcovers)]

/-! ## Lists of entries -/

theorem expandActions_iff :
    iam.expandActions actions = .ok out ↔ (∀ entry ∈ actions, iam.Expands entry) ∧
      out.Pairwise (· < ·) ∧
      ∀ action, action ∈ out ↔ ∃ entry ∈ actions, iam.Names entry action := by
  simp only [expandActions_eq_ok, expandAction_ok, covers_iff_names]

/-- An expansion succeeds exactly when every entry can be expanded; it is then the increasing
list of what the entries stand for, and over plain actions it is plain and its own expansion. -/
theorem expandActions_exact (iam : Iam) (actions : List String) :
    ((∃ out, iam.expandActions actions = .ok out) ↔ ∀ entry ∈ actions, iam.Expands entry) ∧
    ∀ out, iam.expandActions actions = .ok out →
      out.Pairwise (· < ·) ∧
      (∀ action, action ∈ out ↔ ∃ entry ∈ actions, iam.Names entry action) ∧
      ((∀ action ∈ iam.actionUniverse, Plain action) →
        (∀ action ∈ out, ∀ stem, action ≠ stem ++ "*") ∧ iam.expandActions out = .ok out) := by
  constructor
  · constructor
    · rintro ⟨out, h⟩
      exact (expandActions_iff.mp h).1
    · intro h
      obtain ⟨chunks, hchunks⟩ := Outcome.mapM_exists.mpr fun entry hentry =>
        expandAction_ok.mpr (h entry hentry)
      exact ⟨_, Outcome.bind_eq_ok.mpr ⟨chunks, hchunks, rfl⟩⟩
  · intro out h
    obtain ⟨hentries, hsorted, hmem⟩ := expandActions_iff.mp h
    refine ⟨hsorted, hmem, fun huniverse => ?_⟩
    have hplain : ∀ action ∈ out, Plain action := by
      intro action haction
      obtain ⟨entry, hentry, hnames⟩ := (hmem action).mp haction
      exact plain_of_names huniverse (hentries entry hentry) hnames
    exact ⟨fun action haction => (hplain action haction).literal,
      expandActions_plain hplain hsorted⟩

end CeIam.Iam
