import CeIam.Library.Machine
import CeIam.Verification.Device.LifeCycle

/-! # Requests for an administrator

A request for a device that is an administrator leaves its key, role and label alone. The node
that its grants name is replaced whenever the request names one, whoever makes it. -/

namespace CeIam.DeviceStore

/-! ## One request -/

/-- A request to enroll a device, with the clock it reads and what becomes of its write. -/
structure EnrollRequest where
  deviceId : String
  pubB64 : String
  nodeId : String
  label : String
  now : UInt64
  write : Except PersistFault Unit

def asked (r : EnrollRequest) (s : Kept) : Except String String × Kept :=
  s.1.request r.write r.deviceId r.pubB64 r.nodeId r.label r.now s.2

theorem asked_inner (r : EnrollRequest) (s : Kept) :
    (asked r s).2.1.inner =
      match Locked.request r.deviceId s.1.inner r.pubB64 r.nodeId r.label r.now with
      | .unchanged _ => s.1.inner
      | .changed _ m => m := by
  rw [asked, request, commit]
  cases Locked.request r.deviceId s.1.inner r.pubB64 r.nodeId r.label r.now <;> rfl

/-- A request says nothing new about the node of an administrator. -/
def EnrollRequest.Harmless (r : EnrollRequest) (id nodeId : String) : Prop :=
  r.deviceId = id → r.nodeId = "" ∨ r.nodeId = nodeId

/-- A request for another device leaves a device alone. -/
theorem asked_other {r : EnrollRequest} {s : Kept} {id : String} (h : r.deviceId ≠ id) :
    (asked r s).2.1.inner[id]? = s.1.inner[id]? := by
  rw [asked_inner, Locked.request]
  cases s.1.inner[r.deviceId]? with
  | none =>
      simp only
      rw [OrdMap.get_insert, if_neg h]
  | some d =>
      simp only
      by_cases hrole : d.role = roleAdmin
      · rw [if_pos hrole]
        simp only
        rw [OrdMap.get_insert, if_neg h]
      · rw [if_neg hrole]
        simp only
        rw [OrdMap.get_insert, if_neg h]

/-- A request for an administrator replaces its node, if it names one. -/
theorem asked_admin {r : EnrollRequest} {s : Kept} {d : Device}
    (hd : s.1.inner[r.deviceId]? = some d) (hadmin : d.role = roleAdmin) :
    (asked r s).2.1.inner[r.deviceId]? =
      some { d with nodeId := if r.nodeId = "" then d.nodeId else r.nodeId } := by
  rw [asked_inner, Locked.request, hd]
  simp only
  rw [if_pos hadmin]
  simp only
  rw [OrdMap.get_insert, if_pos rfl]

theorem asked_keeps_iff {r : EnrollRequest} {s : Kept} {id : String} {d : Device}
    (hd : s.1.inner[id]? = some d) (hadmin : d.role = roleAdmin) :
    (asked r s).2.1.inner[id]? = some d ↔ r.Harmless id d.nodeId := by
  by_cases hid : r.deviceId = id
  · subst hid
    rw [asked_admin hd hadmin, Option.some.injEq]
    by_cases hempty : r.nodeId = ""
    · rw [if_pos hempty]
      exact iff_of_true rfl fun _ => .inl hempty
    · rw [if_neg hempty]
      constructor
      · intro h _
        exact .inr (congrArg Device.nodeId h)
      · intro h
        rcases h rfl with hnone | hsame
        · exact absurd hnone hempty
        · rw [hsame]
  · rw [asked_other hid]
    exact iff_of_true hd fun h => absurd h hid

/-! ## Any number of requests -/

/-- Along requests that do not present the key of an administrator, its record is unchanged
exactly when none of those for it names another node. -/
theorem requests_keep_admin {s : Kept} {id : String} {d : Device}
    (hd : s.1.inner[id]? = some d) (hadmin : d.role = roleAdmin) (rs : List EnrollRequest) :
    ((∀ r ∈ rs, r.deviceId = id → r.pubB64 ≠ d.pubB64) →
      ∀ past, past <+: rs → (Machine.after asked past s).1.inner[id]? = some d) ↔
    ((∃ r ∈ rs, r.deviceId = id ∧ r.pubB64 = d.pubB64) ∨ ∀ r ∈ rs, r.Harmless id d.nodeId) := by
  have hstep : ∀ (r : EnrollRequest) (s : Kept), s.1.inner[id]? = some d →
      ((asked r s).2.1.inner[id]? = some d ↔ r.Harmless id d.nodeId) :=
    fun r s hs => asked_keeps_iff hs hadmin
  have hkept : (∀ past, past <+: rs → (Machine.after asked past s).1.inner[id]? = some d) ↔
      ∀ r ∈ rs, r.Harmless id d.nodeId := Machine.kept_iff hstep hd
  rw [hkept, imp_iff_not_or]
  simp only [not_forall, not_not, exists_prop]

/-! ## A stranger -/

/-- A console that is the only administrator, bound to a node. -/
def console : Device := ⟨"console key", roleAdmin, "claimed", 1, "console node"⟩

def consoleOnly : Kept := (⟨"devices.json", (∅ : Devices).insert "console" console⟩, none)

/-- A request for the console with another key. -/
def strangerRequest (nodeId : String) : EnrollRequest :=
  ⟨"console", "stranger key", nodeId, "stranger", 2, .ok ()⟩

theorem console_registered : consoleOnly.1.inner["console"]? = some console := by
  decide

/-- A stranger that names no node leaves the console as it is. -/
theorem requests_keep_console :
    (Machine.after asked [strangerRequest ""] consoleOnly).1.inner["console"]? =
      some console := by
  have hharmless : ∀ r ∈ [strangerRequest ""], r.Harmless "console" console.nodeId :=
    List.forall_mem_singleton.mpr fun _ => .inl rfl
  exact (requests_keep_admin console_registered rfl [strangerRequest ""]).mpr (.inr hharmless)
    (by decide) _ (List.prefix_refl _)

/-- A stranger that names its own node becomes the node of the console. -/
theorem stranger_rebinds_console :
    ¬ ∀ rs : List EnrollRequest, (∀ r ∈ rs, r.deviceId = "console" → r.pubB64 ≠ console.pubB64) →
      (Machine.after asked rs consoleOnly).1.inner["console"]? = some console := by
  intro hclaim
  have hkept := hclaim [strangerRequest "stranger node"] (by decide)
  exact absurd hkept (by decide)

end CeIam.DeviceStore
