import CeIam.Model.Attestation
import Mathlib.Data.Rat.Defs

/-! # Trust policies

A relying party weights the providers it trusts and scores a subject from its attestations.
Weights are exact rational numbers. -/

namespace CeIam

/-- Trusts the attestations of a provider from a level on, at a weight. -/
structure ProviderWeight where
  key : NodeId
  weight : ℚ
  minLevel : UInt8
deriving DecidableEq

structure TrustPolicy where
  providers : List ProviderWeight
  threshold : ℚ

namespace TrustPolicy

def new (threshold : ℚ) : TrustPolicy := ⟨[], threshold⟩

def trust (policy : TrustPolicy) (key : NodeId) (weight : ℚ) (minLevel : UInt8) : TrustPolicy :=
  { policy with providers := policy.providers ++ [⟨key, weight, minLevel⟩] }

variable (ci : CeIdentity)

/-- Some attestation about the subject verifies and meets the line of the policy. -/
def qualifies (subject : NodeId) (attestations : List Attestation) (now : UInt64)
    (pw : ProviderWeight) : Bool :=
  attestations.any fun a =>
    a.body.subject = subject && a.body.provider = pw.key && a.body.level ≥ pw.minLevel &&
      (a.verify ci now).isOk

def score (policy : TrustPolicy) (subject : NodeId) (attestations : List Attestation)
    (now : UInt64) : ℚ :=
  policy.providers.foldl (fun total pw =>
    if qualifies ci subject attestations now pw then total + pw.weight else total) 0

def isTrusted (policy : TrustPolicy) (subject : NodeId) (attestations : List Attestation)
    (now : UInt64) : Bool :=
  policy.score ci subject attestations now ≥ policy.threshold

end TrustPolicy

end CeIam
