import CeIam.Library.Shares
import CeIam.Model.Trust
import Mathlib.Algebra.Order.Ring.Rat

/-! # Trust that is counted twice

A score adds up the lines of a policy that are met, so any number of attestations counts once
for each line. Several lines may name one provider; each of them counts. -/

namespace CeIam

namespace TrustPolicy

variable {ci : CeIdentity} {policy : TrustPolicy} {subject : NodeId}
  {attestations : List Attestation} {now : UInt64}

/-- The lines of a policy that some attestation meets. -/
def met (ci : CeIdentity) (policy : TrustPolicy) (subject : NodeId)
    (attestations : List Attestation) (now : UInt64) : List ProviderWeight :=
  policy.providers.filter (qualifies ci subject attestations now)

/-- Each provider at the largest weight among its lines that are met. -/
def fairScore (ci : CeIdentity) (policy : TrustPolicy) (subject : NodeId)
    (attestations : List Attestation) (now : UInt64) : ℚ :=
  Shares.fairSum ProviderWeight.key ProviderWeight.weight
    (policy.met ci subject attestations now)

/-- A line is met by an attestation about the subject that verifies and is not expired. -/
theorem qualifies_iff {pw : ProviderWeight} :
    qualifies ci subject attestations now pw = true ↔
      ∃ a ∈ attestations, a.body.subject = subject ∧ a.body.provider = pw.key ∧
        pw.minLevel ≤ a.body.level ∧ a.verify ci now = .ok () := by
  have hok : ∀ a : Attestation, (a.verify ci now).isOk = true ↔ a.verify ci now = .ok () := by
    intro a
    cases a.verify ci now <;> simp [Except.isOk, Except.toBool]
  simp only [qualifies, List.any_eq_true, Bool.and_eq_true, decide_eq_true_eq, hok, ge_iff_le,
    and_assoc]

/-- A score is the sum of the weights of the lines that are met. -/
theorem score_eq_sum (policy : TrustPolicy) :
    policy.score ci subject attestations now =
      ((policy.met ci subject attestations now).map ProviderWeight.weight).sum := by
  have hfold : ∀ (lines : List ProviderWeight) (total : ℚ),
      lines.foldl (fun total pw =>
        if qualifies ci subject attestations now pw then total + pw.weight else total) total =
      total + ((lines.filter (qualifies ci subject attestations now)).map
        ProviderWeight.weight).sum := by
    intro lines
    induction lines with
    | nil => simp
    | cons pw lines ih =>
        intro total
        rw [List.foldl_cons, ih, List.filter_cons]
        split
        · rw [List.map_cons, List.sum_cons, add_assoc]
        · rfl
  rw [score, met, hfold, zero_add]

/-- The policy has no two lines for one provider, both above zero and both met. -/
def CountsOnce (ci : CeIdentity) (policy : TrustPolicy) (subject : NodeId)
    (attestations : List Attestation) (now : UInt64) : Prop :=
  policy.providers.Pairwise fun a b => a.key = b.key →
    (∃ x ∈ attestations, x.body.subject = subject ∧ x.body.provider = a.key ∧
      a.minLevel ≤ x.body.level ∧ x.verify ci now = .ok ()) →
    (∃ x ∈ attestations, x.body.subject = subject ∧ x.body.provider = b.key ∧
      b.minLevel ≤ x.body.level ∧ x.verify ci now = .ok ()) →
    a.weight = 0 ∨ b.weight = 0

/-- A score exceeds what each provider contributes at most exactly when some provider has two
lines above zero that are met. -/
theorem score_le_fairScore_iff (ci : CeIdentity) {policy : TrustPolicy}
    (hweights : ∀ pw ∈ policy.providers, 0 ≤ pw.weight) (subject : NodeId)
    (attestations : List Attestation) (now : UInt64) :
    policy.score ci subject attestations now ≤ policy.fairScore ci subject attestations now ↔
      policy.CountsOnce ci subject attestations now := by
  have hmet : ∀ pw ∈ policy.met ci subject attestations now, 0 ≤ pw.weight :=
    fun pw hpw => hweights pw (List.mem_filter.mp hpw).1
  rw [score_eq_sum, fairScore, Shares.sum_le_fairSum_iff _ _ hmet, met, List.pairwise_filter,
    CountsOnce]
  simp only [qualifies_iff]
  exact ⟨fun h => h.imp fun hab hkey ha hb => hab ha hb hkey,
    fun h => h.imp fun hab ha hb hkey => hab hkey ha hb⟩

/-! ## Two lines for one provider -/

/-- Identities that sign with their name. -/
def named : CeIdentity where
  Identity := NodeId
  nodeId := id
  sign signer _ := ⟨signer.bytes ++ signer.bytes, by simp [signer.size]⟩
  verify signer _ sig :=
    if sig.val = signer.bytes ++ signer.bytes then .ok () else .error "bad signature"

/-- The provider 1 attests the subject 9 at a level. -/
def attested (level : UInt8) : Attestation :=
  .issue named (.filled 1) (.filled 9) .uniqueHuman level ⟨List.replicate 32 7, by simp⟩ 0 1000 1

/-- Trusts the provider 1 fully at the strongest level, and half at a lower one. -/
def graded : TrustPolicy :=
  ((TrustPolicy.new (3 / 2)).trust (.filled 1) 1 levelStrongEid).trust (.filled 1) (1 / 2)
    levelSocial

theorem graded_weights : ∀ pw ∈ graded.providers, 0 ≤ pw.weight := by
  intro pw hpw
  rcases List.mem_pair.mp hpw with rfl | rfl
  · exact zero_le_one
  · exact div_nonneg zero_le_one zero_le_two

/-- Attested at the lower level, one line counts. -/
theorem score_le_fairScore_social :
    graded.score named (.filled 9) [attested levelSocial] 100 ≤
      graded.fairScore named (.filled 9) [attested levelSocial] 100 := by
  have hiff := score_le_fairScore_iff named graded_weights (.filled 9) [attested levelSocial] 100
  refine hiff.mpr (List.pairwise_pair.mpr ?_)
  rintro - ⟨x, hx, -, -, hlevel, -⟩
  rw [List.mem_singleton.mp hx] at hlevel
  exact absurd hlevel (by decide)

/-- Attested at the strongest level, the provider counts once for each of its lines. -/
theorem score_inflated : ¬ ∀ (ci : CeIdentity) (policy : TrustPolicy),
    (∀ pw ∈ policy.providers, 0 ≤ pw.weight) →
    ∀ (subject : NodeId) (attestations : List Attestation) (now : UInt64),
      policy.score ci subject attestations now ≤
        policy.fairScore ci subject attestations now := by
  intro hclaim
  have hle := hclaim named graded graded_weights (.filled 9) [attested levelStrongEid] 100
  revert hle
  decide +kernel

end TrustPolicy

end CeIam
