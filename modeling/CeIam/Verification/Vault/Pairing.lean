import CeIam.Verification.Vault.Invariants

/-! # Approving a pairing request

Whoever can write the store publishes a request under any code, with any identifier in it.
Approving the request enrolls its keys under that identifier, which may be enrolled already. -/

namespace CeIam.Vault

open StoreProg

variable {cs : CeSecrets} {v : Vault cs} {env : Moment cs} {s t : OrdMap String Json}

/-! ## The keys of a record -/

/-- Two records carry the same public keys. -/
def SameKeys (a b : Json) : Prop :=
  a.field "ecdhPub" = b.field "ecdhPub" ∧ a.field "ecdsaPub" = b.field "ecdsaPub"

theorem SameKeys.symm {a b : Json} (h : SameKeys a b) : SameKeys b a := ⟨h.1.symm, h.2.symm⟩

theorem SameKeys.trans {a b c : Json} (h : SameKeys a b) (k : SameKeys b c) : SameKeys a c :=
  ⟨h.1.trans k.1, h.2.trans k.2⟩

/-- An enrollment record carries the keys of the public half. -/
theorem sameKeys_enrolRecord {pubv record : Json} {master : Bytes} {label id : String}
    (h : v.enrolRecord env pubv master label id = .ok record) : SameKeys record pubv := by
  simp only [enrolRecord, Outcome.bind_eq_ok, Outcome.require_eq_ok] at h
  obtain ⟨ecdhPub, hecdh, ecdsaPub, hecdsa, recip, -, blob, -, sig, -, hret⟩ := h
  cases hret
  constructor
  · rw [hecdh]
    simp [Json.field_ofFields]
  · rw [hecdsa]
    simp [Json.field_ofFields]

/-! ## One approval -/

/-- The public half in the pairing request of a code. -/
def requestedPub (s : OrdMap String Json) (code : String) : Option Json :=
  (look s (.pair code)).bind fun req => req.field "pub"

theorem approvePairing_effect {code id : String} {pubv : Json}
    (hpub : requestedPub s code = some pubv)
    (h : (v.approvePairing env code).run memStore s = (.ok id, t)) :
    strField pubv "id" = some id ∧ ∃ record, SameKeys record pubv ∧
      t = drop (place s (.device id) record) (.pair code) := by
  cases approvePairing_ok h with
  | approvePairing code req pubv' id label master record hreq hpub' hid hmaster hrecord =>
      rw [requestedPub, hreq, Option.bind_some, hpub'] at hpub
      cases hpub
      exact ⟨hid, record, sameKeys_enrolRecord hrecord, rfl⟩

theorem approvePairing_succeeds {code id : String} {req pubv record : Json} {master : Bytes}
    (hreq : look s (.pair code) = some req) (hpub : req.field "pub" = some pubv)
    (hid : strField pubv "id" = some id) (hmaster : v.Holds s master)
    (hrecord : v.enrolRecord env pubv master ((strField req "label").getD "new device") id =
      .ok record) :
    (v.approvePairing env code).run memStore s =
      (.ok id, drop (place s (.device id) record) (.pair code)) := by
  simp only [approvePairing, run_bind_ok, run_fetch, run_require_ok, loadMaster_ok, enroll_ok,
    run_remove, run_pure, memStore_get, memStore_del, Prod.mk.injEq, Except.ok.injEq]
  exact ⟨_, _, ⟨rfl, rfl⟩, req, _, ⟨hreq, rfl⟩, pubv, _, ⟨hpub, rfl⟩, id, _, ⟨hid, rfl⟩,
    master, _, ⟨hmaster, rfl⟩, (), _, ⟨record, hrecord, rfl⟩, (), _, ⟨trivial, rfl⟩, rfl, rfl⟩

/-- An approval that takes over no device: nothing changes beyond the enrollment and the
request, the named device had the keys of the request, and enrolled devices keep theirs. -/
structure KeepsDevices (s t : OrdMap String Json) (code id : String) (pubv : Json) : Prop where
  named : strField pubv "id" = some id
  frame : ∀ k, k ≠ deviceKey id → k ≠ pairKey code → t[k]? = s[k]?
  carried : ∀ old, look s (.device id) = some old → SameKeys old pubv
  kept : ∀ other old, look s (.device other) = some old →
    ∃ new, look t (.device other) = some new ∧ SameKeys new old

/-- An approval takes over no device exactly when the named device is not enrolled, or is
enrolled with the keys of the request. -/
theorem approvePairing_keepsDevices {code id : String} {pubv : Json}
    (hpub : requestedPub s code = some pubv)
    (h : (v.approvePairing env code).run memStore s = (.ok id, t)) :
    KeepsDevices s t code id pubv ↔
      look s (.device id) = none ∨ ∃ old, look s (.device id) = some old ∧ SameKeys old pubv := by
  obtain ⟨hid, record, hkeys, rfl⟩ := approvePairing_effect hpub h
  constructor
  · intro hkeeps
    cases hold : look s (.device id) with
    | none => exact .inl rfl
    | some old => exact .inr ⟨old, rfl, hkeeps.carried old hold⟩
  · intro hcondition
    have hcarried : ∀ old, look s (.device id) = some old → SameKeys old pubv := by
      intro old hold
      rw [hold] at hcondition
      rcases hcondition with hnone | ⟨_, ⟨⟩, hsame⟩
      · cases hnone
      · exact hsame
    refine ⟨hid, ?_, hcarried, ?_⟩
    · intro k hdevice hpair
      have hcode : (Key.pair code).text ≠ k := Ne.symm hpair
      have hid : (Key.device id).text ≠ k := Ne.symm hdevice
      rw [drop, place, OrdMap.get_erase, OrdMap.get_insert, if_neg hcode, if_neg hid]
    · intro other old hold
      rw [look_drop, if_neg (by simp), look_place]
      by_cases hother : id = other
      · subst hother
        rw [if_pos rfl]
        exact ⟨record, rfl, hkeys.trans (hcarried old hold).symm⟩
      · rw [if_neg (mt Key.device.inj hother)]
        exact ⟨old, hold, rfl, rfl⟩

/-! ## A request in the name of the approver -/

/-- A device that calls itself the laptop, with the keys of the phone. -/
def impostor : DeviceKey CeSecrets.symbolic.toKeyPairs :=
  ⟨laptop.id, phone.ecdhPriv, phone.ecdsaPriv⟩

/-- The laptop owns the store and approves what a device has published. -/
theorem laptop_approves (device : DeviceKey CeSecrets.symbolic.toKeyPairs) :
    ∃ s t old, look s (.device laptop.id) = some old ∧ SameKeys old (publicValue laptop) ∧
      look s (.device phone.id) = none ∧
      requestedPub s "2345-6789" = some (publicValue device) ∧
      (approvePairing (⟨laptop, "home"⟩ : Vault .symbolic) noon "2345-6789").run memStore s =
        (.ok device.id, t) := by
  obtain ⟨old, hopen, howner, -⟩ := symbolic_recovers ⟨laptop, "home"⟩ noon "" ∅
  obtain ⟨_, -, hold⟩ := Outcome.bind_eq_ok.mp howner
  obtain ⟨record, hrecord⟩ := symbolic_enrolRecord ⟨laptop, "home"⟩ noon device laptop.ecdhPriv.1
    "new device" device.id
  let request := pairRecord ⟨device, "home"⟩ noon "2345-6789" ""
  let s := place (place ∅ (.device laptop.id) old) (.pair "2345-6789") request
  have hdevice : look s (.device laptop.id) = some old := by simp [s]
  have hrequest : look s (.pair "2345-6789") = some request := by simp [s]
  have hpub : request.field "pub" = some (publicValue device) := pub_pairRecord ..
  have hlabel : (strField request "label").getD "new device" = "new device" := by
    simp [request, strField, pairRecord, Json.field_ofFields]
  have hrun := approvePairing_succeeds hrequest hpub (id_publicValue device)
    (show Holds ⟨laptop, "home"⟩ s _ from ⟨old, hdevice, hopen⟩) (hlabel ▸ hrecord)
  refine ⟨s, _, old, hdevice, sameKeys_enrolRecord hold, ?_, ?_, hrun⟩
  · have hne : laptop.id ≠ phone.id := by decide
    simp [s, hne]
  · rw [requestedPub, hrequest]
    exact hpub

/-- The phone is enrolled, and the laptop stays as it was. -/
theorem approvePairing_keepsDevices_phone : ∃ s t, KeepsDevices s t "2345-6789" phone.id
    (publicValue phone) ∧ (approvePairing (⟨laptop, "home"⟩ : Vault .symbolic) noon
      "2345-6789").run memStore s = (.ok phone.id, t) := by
  obtain ⟨s, t, old, -, -, hphone, hpub, hrun⟩ := laptop_approves phone
  exact ⟨s, t, (approvePairing_keepsDevices hpub hrun).mpr (.inl hphone), hrun⟩

/-- Whoever publishes a request in the name of the laptop replaces its keys. -/
theorem impostor_replaces_laptop : ¬ ∀ (s t : OrdMap String Json) (code id : String) (pubv : Json),
    requestedPub s code = some pubv →
    (approvePairing (⟨laptop, "home"⟩ : Vault .symbolic) noon code).run memStore s = (.ok id, t) →
    KeepsDevices s t code id pubv := by
  intro hclaim
  obtain ⟨s, t, old, hold, hkeys, -, hpub, hrun⟩ := laptop_approves impostor
  have hsame := hkeys.symm.trans ((hclaim s t _ _ _ hpub hrun).carried old hold)
  have hecdsa := hsame.2
  rw [ecdsaPub_publicValue, ecdsaPub_publicValue] at hecdsa
  exact absurd hecdsa (by decide)

end CeIam.Vault
