import CeIam.Model.Iam
import Mathlib.Data.UInt

/-! # The JSON forms of policies are injective

Each field is read back under its own name, and an absent field stands for one value. -/

namespace CeIam

theorem strings_injective : Function.Injective strings := by
  intro xs ys h
  exact List.map_injective_iff.mpr (fun _ _ => Json.str.inj) (Json.arr.inj h)

theorem ResourceMatch.toJson_injective : Function.Injective ResourceMatch.toJson := by
  intro a b h
  cases a with
  | any => cases b <;> simp_all [toJson]
  | node => cases b <;> simp_all [toJson]
  | tag => cases b <;> simp_all [toJson]
  | allOf =>
      cases b with
      | allOf =>
          simp only [toJson, Json.obj.injEq, List.cons.injEq, Prod.mk.injEq, true_and,
            and_true] at h
          rw [strings_injective h]
      | _ => simp_all [toJson]

theorem lookup_optionalField {α : Type} (name : String) (toJson : α → Json) (o : Option α)
    (k : String) :
    (optionalField name toJson o).lookup k = if k = name then o.map toJson else none := by
  cases o with
  | none => simp [optionalField]
  | some a => simp [optionalField, Json.lookup_cons]

namespace Conditions

private theorem option_map_eq {α : Type} {f : α → Json} (hf : Function.Injective f)
    {a b : Option α} (h : a.map f = b.map f) : a = b :=
  Option.map_injective hf h

theorem toJson_injective : Function.Injective toJson := by
  intro a b h
  -- Each optional field is read back under its own name.
  have field : ∀ k, a.toJson.field k = b.toJson.field k := fun k => by rw [h]
  simp only [toJson, Json.field_obj, List.lookup_append, lookup_optionalField] at field
  have hword : Function.Injective (fun n : UInt64 => Json.int n.toNat) := by
    intro m n hmn
    simpa [UInt64.toNat_inj] using hmn
  have hhalf : Function.Injective (fun n : UInt32 => Json.int n.toNat) := by
    intro m n hmn
    simpa [UInt32.toNat_inj] using hmn
  have hports : Function.Injective
      (fun ps : List UInt16 => Json.arr (ps.map (fun p => Json.int p.toNat))) := by
    intro ps qs hpq
    refine List.map_injective_iff.mpr ?_ (Json.arr.inj hpq)
    intro m n hmn
    simpa [UInt16.toNat_inj] using hmn
  have h1 := option_map_eq hword (by simpa using field "not_before")
  have h2 := option_map_eq hword (by simpa using field "not_after")
  have h3 := option_map_eq hhalf (by simpa using field "max_cpu")
  have h4 := option_map_eq hhalf (by simpa using field "max_mem_mb")
  have h5 := option_map_eq hword (by simpa using field "max_credits")
  have h6 := option_map_eq hports (by simpa using field "allowed_ports")
  have h7 := option_map_eq (fun _ _ => Json.str.inj) (by simpa using field "path_prefix")
  cases a
  cases b
  simp_all

end Conditions

theorem Effect.toJson_injective : Function.Injective Effect.toJson := by
  intro a b h
  cases a <;> cases b <;> simp_all [toJson]

theorem Statement.toJson_injective : Function.Injective Statement.toJson := by
  intro a b h
  have field : ∀ k, a.toJson.field k = b.toJson.field k := fun k => by rw [h]
  simp only [toJson, Json.field_obj, List.lookup_append, lookup_optionalField,
    Json.lookup_cons] at field
  have h1 := Option.map_injective (fun _ _ => Json.str.inj) (by simpa using field "sid")
  have h2 := Effect.toJson_injective (by simpa using field "effect")
  have h3 := strings_injective (by simpa using field "actions")
  have h4 := ResourceMatch.toJson_injective (by simpa using field "resource")
  have h5 := Option.map_injective Conditions.toJson_injective (by simpa using field "conditions")
  -- Conditions are left out exactly when they are the default ones.
  have hconditions : a.conditions = b.conditions := by
    simp only [Conditions.isEmpty, decide_eq_true_eq] at h5
    split at h5 <;> split at h5 <;> simp_all
  cases a
  cases b
  simp_all

theorem Policy.toJson_injective : Function.Injective Policy.toJson := by
  rintro ⟨v, ss⟩ ⟨w, ts⟩ h
  simp only [toJson, Json.obj.injEq, List.cons.injEq, Prod.mk.injEq, Json.str.injEq,
    Json.arr.injEq, true_and, and_true] at h
  rw [h.1, List.map_injective_iff.mpr Statement.toJson_injective h.2]

theorem Role.toJson_injective : Function.Injective Role.toJson := by
  intro a b h
  have field : ∀ k, a.toJson.field k = b.toJson.field k := fun k => by rw [h]
  simp only [toJson, Json.field_obj, List.lookup_append, lookup_optionalField,
    Json.lookup_cons] at field
  have h1 : a.name = b.name := by simpa using field "name"
  have h2 := Option.map_injective (fun _ _ => Json.str.inj) (by simpa using field "description")
  have h3 := Policy.toJson_injective (by simpa using field "policy")
  cases a
  cases b
  simp_all

end CeIam
