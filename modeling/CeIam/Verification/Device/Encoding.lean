import CeIam.Library.Outcome
import CeIam.Model.Device

/-! # The text of a device registry

No two registries have the same text, and what is loaded from the text of a registry is that
registry. -/

namespace CeIam

theorem Device.toJson_injective : Function.Injective Device.toJson := by
  rintro ⟨pub, role, label, ts, node⟩ ⟨pub', role', label', ts', node'⟩ h
  simp only [toJson, Json.obj.injEq, List.cons_append, List.nil_append, List.cons.injEq,
    Prod.mk.injEq, Json.str.injEq, Json.int.injEq, true_and, Nat.cast_inj,
    UInt64.toNat_inj] at h
  obtain ⟨rfl, rfl, rfl, rfl, hnode⟩ := h
  -- The node identity is left out exactly when it is empty.
  have hnode' : node = node' := by
    split_ifs at hnode with hempty hempty'
    · exact hempty.trans hempty'.symm
    · simpa using hnode
  rw [hnode']

namespace DeviceStore

theorem devicesJson_pretty_injective :
    Function.Injective fun m : Devices => (devicesJson m).pretty := by
  intro a b h
  exact OrdMap.map_toList_injective Device.toJson_injective
    (Json.obj.inj (Json.pretty_injective h))

/-- Reads back exactly the maps that were printed. -/
noncomputable def readDevices : String → Except String Devices :=
  Outcome.readBack fun m => (devicesJson m).pretty

theorem readDevices_pretty (m : Devices) : readDevices (devicesJson m).pretty = .ok m :=
  Outcome.readBack_print devicesJson_pretty_injective m

/-- The text of a registry is not blank. -/
theorem trim_devicesJson_pretty (m : Devices) : Text.trim (devicesJson m).pretty ≠ "" :=
  Text.trim_ne_empty (Json.brace_mem_pretty_obj _) (by decide)

variable {parse : String → Except String Devices} {path : String} {m : Devices}

variable (path) in
/-- A registry is loaded from its text. -/
theorem loadDevices_pretty (reads : parse (devicesJson m).pretty = .ok m) :
    loadDevices parse path true (some (devicesJson m).pretty) = .ok m := by
  simp only [loadDevices, Bool.not_true, Bool.false_eq_true, if_false, reads]
  rw [if_neg (trim_devicesJson_pretty m)]
  rfl

/-- What is loaded from the text of a registry is that registry. -/
theorem loadDevices_kept (reads : parse (devicesJson m).pretty = .ok m) {readable : Bool}
    {n : Devices} (h : loadDevices parse path readable (some (devicesJson m).pretty) = .ok n) :
    n = m := by
  cases readable with
  | false => cases h
  | true =>
      rw [loadDevices_pretty path reads] at h
      cases h
      rfl

end DeviceStore

end CeIam
