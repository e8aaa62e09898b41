import CeIam.Verification.Grant.Compilers
import CeIam.Verification.Grant.Exactness
import CeIam.Verification.Grant.Nonces
import CeIam.Verification.Grant.Symbolic

/-! # Tighter windows

A policy with an earlier end gives a grant that admits fewer times, unless the end is zero: in a
grant this is the text of no end at all. -/

namespace CeIam

/-! ## Tighter policies -/

/-- The second conditions differ from the first ones by a later beginning and an earlier end. -/
structure Conditions.Tightens (c d : Conditions) : Prop where
  rest : { d with notBefore := c.notBefore, notAfter := c.notAfter } = c
  later : c.notBefore.getD 0 ≤ d.notBefore.getD 0
  earlier : ∃ m, d.notAfter = some m ∧ ∀ n ∈ c.notAfter, m ≤ n

structure Statement.Tightens (s t : Statement) : Prop where
  rest : { t with conditions := s.conditions } = s
  conditions : s.conditions.Tightens t.conditions

/-- Statement by statement the second policy is the first one with a tighter window. -/
structure Policy.Tightens (p q : Policy) : Prop where
  version : p.version = q.version
  statements : List.Forall₂ Statement.Tightens p.statements q.statements

/-- The end becomes zero where it was a time that clocks can pass. -/
def Conditions.Reopens (c d : Conditions) : Prop :=
  d.notAfter = some 0 ∧ ∃ n, c.notAfter = some n ∧ n ≠ 0 ∧ n.toNat ≠ 2 ^ 64 - 1

/-- A tighter window admits only times of the wider one exactly when its end is not zero in place
of a time. -/
theorem Conditions.Tightens.admits_iff {c d : Conditions} (h : c.Tightens d) :
    (∀ now, d.toCaveats.AdmitsTime now → c.toCaveats.AdmitsTime now) ↔ ¬ c.Reopens d := by
  obtain ⟨m, hm, hmn⟩ := h.earlier
  have hlater := UInt64.le_iff_toNat_le.mp h.later
  constructor
  · rintro hadmits ⟨hzero, n, hn, hne, hmax⟩
    -- At the last instant a grant without an end is still in use.
    have hlast : d.toCaveats.AdmitsTime (UInt64.ofNat (2 ^ 64 - 1)) := by
      refine ⟨?_, .inl (by rw [toCaveats, hzero, Option.getD_some])⟩
      have hbound := (d.notBefore.getD 0).toNat_lt
      rw [UInt64.le_iff_toNat_le, UInt64.toNat_ofNat']
      simp only [toCaveats]
      omega
    have hend := (hadmits _ hlast).2
    simp only [toCaveats, hn, Option.getD_some, hne, false_or] at hend
    rw [UInt64.le_iff_toNat_le, UInt64.toNat_ofNat'] at hend
    have hbound := n.toNat_lt
    omega
  · intro hkeeps now hnow
    obtain ⟨hbegin, hend⟩ := hnow
    simp only [toCaveats, hm, Option.getD_some, UInt64.le_iff_toNat_le] at hbegin hend
    refine ⟨UInt64.le_iff_toNat_le.mpr (hlater.trans hbegin), ?_⟩
    cases hn : c.notAfter with
    | none => exact .inl (by rw [toCaveats, hn, Option.getD_none])
    | some n =>
        simp only [toCaveats, hn, Option.getD_some, UInt64.le_iff_toNat_le]
        have hle := UInt64.le_iff_toNat_le.mp (hmn n hn)
        rcases hend with rfl | hend
        · by_cases hne : n = 0
          · exact .inl hne
          · have hmax : n.toNat = 2 ^ 64 - 1 := by
              by_contra hmax
              exact hkeeps ⟨hm, n, hn, hne, hmax⟩
            have hbound := now.toNat_lt
            exact .inr (by omega)
        · exact .inr (by omega)

/-! ## Minted windows -/

namespace Iam

variable {iam : Iam} {cc : CeCap}

/-- A policy that compiles has statements, all with the conditions that its scope is made of. -/
theorem compile_conditions {policy : Policy} {scope : Scope}
    (h : iam.compile policy = .ok scope) :
    ∃ c : Conditions, scope.caveats = c.toCaveats ∧ policy.statements ≠ [] ∧
      ∀ s ∈ policy.statements, s.conditions = c := by
  obtain ⟨hdeny, first, rest, hallows, huniform, hgroup⟩ := compile_eq_ok.mp h
  have hall : allows policy = policy.statements := by
    refine List.filter_eq_self.mpr fun s hs => decide_eq_true ?_
    have hs' : s.effect ≠ .deny := by simpa using List.any_eq_false.mp hdeny s hs
    cases heffect : s.effect with
    | allow => rfl
    | deny => exact absurd heffect hs'
  refine ⟨first.conditions, (compileGroup_eq_ok hgroup).2.2, ?_, ?_⟩
  · rw [← hall, hallows]
    exact List.cons_ne_nil first rest
  · rw [← hall, hallows, List.forall_mem_cons]
    exact ⟨rfl, fun s hs => (huniform s hs).2⟩

/-- A minted grant carries the caveats of the conditions that all statements share. -/
theorem mint_conditions (laws : IssueLaws cc) {issuer : cc.Identity} {audience : Principal}
    {policy : Policy} {nonce : UInt64} {g : Grant}
    (h : iam.mint cc issuer audience policy nonce = .ok g) :
    ∃ c : Conditions, g.leaf.cap.caveats = c.toCaveats ∧ policy.statements ≠ [] ∧
      ∀ s ∈ policy.statements, s.conditions = c := by
  obtain ⟨scope, hscope, rfl⟩ := mint_eq_ok.mp h
  obtain ⟨c, hcaveats, hstatements⟩ := compile_conditions hscope
  refine ⟨c, ?_, hstatements⟩
  simp [issueRoot, Grant.fromChain, Grant.leaf, laws.issue_cap, hcaveats]

/-- What relates the conditions of two policies relates those of their statements. -/
theorem forall₂_conditions {R : Conditions → Conditions → Prop} {c d : Conditions}
    {ss ts : List Statement} (hlength : ss.length = ts.length) (hne : ss ≠ [])
    (hss : ∀ s ∈ ss, s.conditions = c) (hts : ∀ t ∈ ts, t.conditions = d) :
    List.Forall₂ (fun s t => R s.conditions t.conditions) ss ts ↔ R c d := by
  constructor
  · intro h
    cases h with
    | nil => exact absurd rfl hne
    | cons hhead _ => rwa [hss _ List.mem_cons_self, hts _ List.mem_cons_self] at hhead
  · intro h
    refine List.forall₂_iff_get.mpr ⟨hlength, fun i hi hi' => ?_⟩
    rw [hss _ (List.get_mem ss ⟨i, hi⟩), hts _ (List.get_mem ts ⟨i, hi'⟩)]
    exact h

/-- A grant of a tighter policy is in use only while the wider one is, exactly when no statement
has its end replaced by zero. -/
theorem mint_tightens_iff (laws : IssueLaws cc) {p q : Policy} (htighter : p.Tightens q)
    {issuer other : cc.Identity} {audience holder : Principal} {nonce unused : UInt64}
    {g h : Grant} (hp : iam.mint cc issuer audience p nonce = .ok g)
    (hq : iam.mint cc other holder q unused = .ok h) :
    (∀ now, h.leaf.cap.caveats.AdmitsTime now → g.leaf.cap.caveats.AdmitsTime now) ↔
      List.Forall₂ (fun s t : Statement => ¬ s.conditions.Reopens t.conditions) p.statements
        q.statements := by
  obtain ⟨c, hwide, hne, hss⟩ := mint_conditions laws hp
  obtain ⟨d, htight, -, hts⟩ := mint_conditions laws hq
  have hlength := htighter.statements.length_eq
  have hconditions : c.Tightens d :=
    (forall₂_conditions hlength hne hss hts).mp
      (htighter.statements.imp fun _ _ hst => hst.conditions)
  rw [hwide, htight, hconditions.admits_iff]
  exact (forall₂_conditions (R := fun c d => ¬ c.Reopens d) hlength hne hss hts).symm

/-! ## An end at zero -/

def ending (notAfter : UInt64) : Conditions :=
  { Conditions.default with notAfter := some notAfter }

/-- Reading until an end. -/
def readUntil (notAfter : UInt64) : Policy := .allow ["storage:read"] .any (ending notAfter)

theorem readUntil_tightens {m n : UInt64} (h : m ≤ n) : (readUntil n).Tightens (readUntil m) := by
  refine ⟨rfl, .cons ⟨rfl, rfl, UInt64.le_refl 0, m, rfl, ?_⟩ .nil⟩
  rintro k hk
  cases hk
  exact h

theorem readUntil_mints (notAfter : UInt64) : ∃ g, Iam.default.mint symbolic (NodeId.filled 1)
    ⟨.filled 2⟩ (readUntil notAfter) 1 = .ok g := by
  have hactions : Iam.default.expandActions ["storage:read"] = .ok ["storage:read"] := by
    decide +kernel
  have hscope : ∃ scope, Iam.default.compile (readUntil notAfter) = .ok scope := by
    refine ⟨⟨["storage:read"], .any, (ending notAfter).toCaveats⟩, compile_allow.mpr ?_⟩
    rw [compileGroup, hactions]
    rfl
  obtain ⟨scope, hscope⟩ := hscope
  exact ⟨_, mint_eq_ok.mpr ⟨scope, hscope, rfl⟩⟩

/-- A grant until 700 is in use only while the grant until 1000 is. -/
theorem mint_tightens_earlier : ∃ g h : Grant,
    Iam.default.mint symbolic (NodeId.filled 1) ⟨.filled 2⟩ (readUntil 1000) 1 = .ok g ∧
    Iam.default.mint symbolic (NodeId.filled 1) ⟨.filled 2⟩ (readUntil 700) 1 = .ok h ∧
    ∀ now, h.leaf.cap.caveats.AdmitsTime now → g.leaf.cap.caveats.AdmitsTime now := by
  obtain ⟨g, hg⟩ := readUntil_mints 1000
  obtain ⟨h, hh⟩ := readUntil_mints 700
  refine ⟨g, h, hg, hh, ?_⟩
  refine (mint_tightens_iff symbolic_issueLaws (readUntil_tightens (by decide)) hg hh).mpr ?_
  refine .cons ?_ .nil
  rintro ⟨hzero, -⟩
  exact absurd (Option.some.inj hzero) (by decide)

/-- A grant until 0 is in use at all times, that until 1000 is not. -/
theorem mint_until_zero : ¬ ∀ (cc : CeCap), IssueLaws cc → ∀ (iam : Iam) (p q : Policy),
    p.Tightens q → ∀ (issuer : cc.Identity) (audience : Principal) (nonce : UInt64) (g h : Grant),
      iam.mint cc issuer audience p nonce = .ok g → iam.mint cc issuer audience q nonce = .ok h →
      ∀ now, h.leaf.cap.caveats.AdmitsTime now → g.leaf.cap.caveats.AdmitsTime now := by
  intro hclaim
  obtain ⟨g, hg⟩ := readUntil_mints 1000
  obtain ⟨h, hh⟩ := readUntil_mints 0
  have hadmits := hclaim _ symbolic_issueLaws _ _ _ (readUntil_tightens (by decide)) _ _ _ _ _ hg hh
  obtain ⟨c, hwide, -, hss⟩ := mint_conditions symbolic_issueLaws hg
  obtain ⟨d, htight, -, hts⟩ := mint_conditions symbolic_issueLaws hh
  have hc : ending 1000 = c := hss _ List.mem_cons_self
  have hd : ending 0 = d := hts _ List.mem_cons_self
  rw [hwide, htight, ← hc, ← hd] at hadmits
  obtain ⟨-, hpast⟩ := hadmits 2000 ⟨by decide, .inl rfl⟩
  revert hpast
  decide

end Iam

end CeIam
