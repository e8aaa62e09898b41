import CeIam.Model.Catalog
import CeIam.Verification.Policy.Encoding

/-! # The file form of the log is injective -/

namespace CeIam

theorem CatalogOp.toJson_injective : Function.Injective CatalogOp.toJson := by
  intro a b h
  cases a <;> cases b <;>
    simp_all [toJson, Role.toJson_injective.eq_iff, Policy.toJson_injective.eq_iff]

theorem CatalogLog.toJson_injective : Function.Injective CatalogLog.toJson := by
  rintro ⟨es⟩ ⟨fs⟩ h
  simp only [toJson, Json.obj.injEq, List.cons.injEq, Prod.mk.injEq, Json.arr.injEq, true_and,
    and_true] at h
  congr 1
  refine List.map_injective_iff.mpr ?_ h
  rintro ⟨op, actor⟩ ⟨op', actor'⟩ hentry
  simp only [Json.arr.injEq, List.cons.injEq, and_true] at hentry
  have hactor : actor = actor' := by
    cases actor <;> cases actor' <;> simp_all
  rw [CatalogOp.toJson_injective hentry.1, hactor]

end CeIam
