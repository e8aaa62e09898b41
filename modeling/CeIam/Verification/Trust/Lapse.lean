import CeIam.Verification.Trust.Inflation
import Mathlib.Algebra.Order.BigOperators.Group.List
import Mathlib.Data.UInt

/-! # How long trust lasts

More attestations never lower a score, and time never raises it. A subject is trusted up to a
moment, at which one of its attestations expires, and not from then on. -/

namespace CeIam

/-- A property of the numbers below a bound that passes down holds up to some number. -/
theorem exists_end {P : ℕ → Prop} {n : ℕ} (hdown : ∀ i, i + 1 < n → P (i + 1) → P i) :
    ∃ d ≤ n, ∀ i < n, P i ↔ i < d := by
  induction n with
  | zero => exact ⟨0, le_rfl, fun i hi => absurd hi (Nat.not_lt_zero i)⟩
  | succ n ih =>
      obtain ⟨d, hd, hbelow⟩ := ih fun i hi => hdown i (Nat.lt_succ_of_lt hi)
      by_cases hn : P n ∧ d = n
      · refine ⟨n + 1, le_rfl, fun i hi => ?_⟩
        by_cases hlast : i = n
        · subst hlast
          exact iff_of_true hn.1 hi
        · rw [hbelow i (by omega)]
          omega
      · refine ⟨d, Nat.le_succ_of_le hd, fun i hi => ?_⟩
        by_cases hlast : i = n
        · subst hlast
          by_cases hd' : d = i
          · exact iff_of_false (fun h => hn ⟨h, hd'⟩) (by omega)
          · -- What holds at the last number holds at the one before it.
            refine iff_of_false (fun h => ?_) (by omega)
            have hprev : P (i - 1) := by
              refine hdown (i - 1) (by omega) ?_
              rwa [Nat.sub_add_cancel (by omega)]
            have := (hbelow (i - 1) (by omega)).mp hprev
            omega
        · exact hbelow i (by omega)

namespace TrustPolicy

variable {ci : CeIdentity} {policy : TrustPolicy} {subject : NodeId}
  {attestations more : List Attestation} {now later : UInt64}

/-- What verifies at a time has verified before. -/
theorem verify_earlier {a : Attestation} (hle : now ≤ later) (h : a.verify ci later = .ok ()) :
    a.verify ci now = .ok () := by
  rw [Attestation.verify] at h ⊢
  by_cases hexpired : a.body.expires ≠ 0 ∧ now ≥ a.body.expires
  · rw [if_pos ⟨hexpired.1, UInt64.le_trans hexpired.2 hle⟩] at h
    cases h
  · rw [if_neg hexpired]
    by_cases hlater : a.body.expires ≠ 0 ∧ later ≥ a.body.expires
    · rw [if_pos hlater] at h
      cases h
    · rwa [if_neg hlater] at h

/-- What verified and does so no more has expired. -/
theorem expires_of_verify {a : Attestation} (h : a.verify ci now = .ok ())
    (hlater : a.verify ci later ≠ .ok ()) : now < a.body.expires ∧ a.body.expires ≤ later := by
  rw [Attestation.verify] at h hlater
  by_cases hexpired : a.body.expires ≠ 0 ∧ now ≥ a.body.expires
  · rw [if_pos hexpired] at h
    cases h
  · rw [if_neg hexpired] at h
    by_cases hend : a.body.expires ≠ 0 ∧ later ≥ a.body.expires
    · exact ⟨UInt64.not_le.mp fun hge => hexpired ⟨hend.1, hge⟩, hend.2⟩
    · rw [if_neg hend] at hlater
      exact absurd h hlater

theorem qualifies_mono {pw : ProviderWeight} (hsub : attestations ⊆ more) (hle : now ≤ later)
    (h : qualifies ci subject attestations later pw = true) :
    qualifies ci subject more now pw = true := by
  obtain ⟨a, ha, hsubject, hprovider, hlevel, hverify⟩ := qualifies_iff.mp h
  exact qualifies_iff.mpr
    ⟨a, hsub ha, hsubject, hprovider, hlevel, verify_earlier hle hverify⟩

/-- A score is at most another one when every line that is met for it is met for the other. -/
theorem score_le_score (hweights : ∀ pw ∈ policy.providers, 0 ≤ pw.weight)
    (h : ∀ pw ∈ policy.providers, qualifies ci subject attestations now pw = true →
      qualifies ci subject more later pw = true) :
    policy.score ci subject attestations now ≤ policy.score ci subject more later := by
  have hmet : policy.met ci subject attestations now =
      (policy.met ci subject more later).filter (qualifies ci subject attestations now) := by
    rw [met, met, List.filter_filter]
    refine List.filter_congr fun pw hpw => ?_
    by_cases hnow : qualifies ci subject attestations now pw = true
    · rw [hnow, h pw hpw hnow]
      rfl
    · rw [Bool.not_eq_true] at hnow
      rw [hnow]
      rfl
  rw [score_eq_sum, score_eq_sum, hmet]
  refine (List.filter_sublist.map ProviderWeight.weight).sum_le_sum ?_
  intro weight hweight
  obtain ⟨pw, hpw, rfl⟩ := List.mem_map.mp hweight
  exact hweights pw (List.mem_filter.mp hpw).1

theorem isTrusted_iff :
    policy.isTrusted ci subject attestations now = true ↔
      policy.threshold ≤ policy.score ci subject attestations now := by
  rw [isTrusted, decide_eq_true_eq]

/-- Trust outlives neither more attestations nor less time. -/
theorem isTrusted_mono (hweights : ∀ pw ∈ policy.providers, 0 ≤ pw.weight)
    (hsub : attestations ⊆ more) (hle : now ≤ later)
    (h : policy.isTrusted ci subject attestations later = true) :
    policy.isTrusted ci subject more now = true := by
  have hscore : policy.score ci subject attestations later ≤ policy.score ci subject more now :=
    score_le_score hweights fun pw _ => qualifies_mono hsub hle
  exact isTrusted_iff.mpr ((isTrusted_iff.mp h).trans hscore)

/-- The policy has a line that the attestation meets until it expires. -/
def Counted (policy : TrustPolicy) (subject : NodeId) (a : Attestation) : Prop :=
  a.body.subject = subject ∧
    ∃ pw ∈ policy.providers, a.body.provider = pw.key ∧ pw.minLevel ≤ a.body.level

/-- Where trust ends, an attestation that counts expires. -/
theorem expires_of_lapse (hweights : ∀ pw ∈ policy.providers, 0 ≤ pw.weight)
    (h : policy.isTrusted ci subject attestations now = true)
    (hlater : policy.isTrusted ci subject attestations later ≠ true) :
    ∃ a ∈ attestations, policy.Counted subject a ∧
      now < a.body.expires ∧ a.body.expires ≤ later := by
  by_contra hnone
  refine hlater (isTrusted_iff.mpr ((isTrusted_iff.mp h).trans ?_))
  refine score_le_score hweights fun pw hpw hmet => ?_
  obtain ⟨a, ha, hsubject, hprovider, hlevel, hverify⟩ := qualifies_iff.mp hmet
  by_cases hstill : a.verify ci later = .ok ()
  · exact qualifies_iff.mpr ⟨a, ha, hsubject, hprovider, hlevel, hstill⟩
  · exact absurd ⟨a, ha, ⟨hsubject, pw, hpw, hprovider, hlevel⟩, expires_of_verify hverify hstill⟩
      hnone

/-- Under weights that are not negative, a subject is trusted up to a moment and not from then on:
never, always, or until an attestation that counts expires. More attestations only prolong it. -/
theorem trusted_until (ci : CeIdentity) {policy : TrustPolicy}
    (hweights : ∀ pw ∈ policy.providers, 0 ≤ pw.weight) (subject : NodeId)
    (attestations : List Attestation) :
    ∃ d : ℕ, (∀ now, policy.isTrusted ci subject attestations now = true ↔ now.toNat < d) ∧
      (d = 0 ∨ d = UInt64.size ∨
        ∃ a ∈ attestations, policy.Counted subject a ∧ d = a.body.expires.toNat) ∧
      ∀ more, attestations ⊆ more → ∀ now, now.toNat < d →
        policy.isTrusted ci subject more now = true := by
  let P : ℕ → Prop := fun i => policy.isTrusted ci subject attestations (.ofNat i) = true
  have hword : ∀ i < UInt64.size, (UInt64.ofNat i).toNat = i :=
    fun i hi => UInt64.toNat_ofNat_of_lt' hi
  obtain ⟨d, hd, hbelow⟩ := exists_end (P := P) (n := UInt64.size) fun i hi h =>
    isTrusted_mono hweights (fun _ ha => ha) (by
      rw [UInt64.le_iff_toNat_le, hword i (by omega), hword _ hi]
      omega) h
  have hmoment : ∀ now, policy.isTrusted ci subject attestations now = true ↔ now.toNat < d := by
    intro now
    rw [← hbelow now.toNat now.toNat_lt]
    simp only [P, UInt64.ofNat_toNat]
  refine ⟨d, hmoment, ?_, fun more hsub now hnow =>
    isTrusted_mono hweights hsub UInt64.le_rfl ((hmoment now).mpr hnow)⟩
  by_cases hzero : d = 0
  · exact .inl hzero
  · by_cases hsize : d = UInt64.size
    · exact .inr (.inl hsize)
    · have hlast : policy.isTrusted ci subject attestations (.ofNat (d - 1)) = true := by
        rw [hmoment, hword _ (by omega)]
        omega
      have hended : policy.isTrusted ci subject attestations (.ofNat d) ≠ true := by
        rw [Ne, hmoment, hword _ (by omega)]
        omega
      obtain ⟨a, ha, hcounted, hfrom, hto⟩ := expires_of_lapse hweights hlast hended
      rw [UInt64.lt_iff_toNat_lt, hword _ (by omega)] at hfrom
      rw [UInt64.le_iff_toNat_le, hword _ (by omega)] at hto
      exact .inr (.inr ⟨a, ha, hcounted, by omega⟩)

/-- The subject that the provider 1 attests at the strongest level is trusted until that expires. -/
theorem trusted_until_graded :
    {now | graded.isTrusted named (.filled 9) [attested levelStrongEid] now = true} =
      {now | now.toNat < 1000} := by
  obtain ⟨d, hmoment, -⟩ :=
    trusted_until named graded_weights (.filled 9) [attested levelStrongEid]
  have hbefore : graded.isTrusted named (.filled 9) [attested levelStrongEid] 999 = true := by
    decide +kernel
  have hafter : graded.isTrusted named (.filled 9) [attested levelStrongEid] 1000 ≠ true := by
    decide +kernel
  rw [hmoment] at hbefore
  rw [Ne, hmoment] at hafter
  refine Set.ext fun now => (hmoment now).trans ?_
  change now.toNat < d ↔ now.toNat < 1000
  change 999 < d at hbefore
  change ¬ 1000 < d at hafter
  omega

end TrustPolicy

end CeIam
