import CeIam.Verification.Vault.Invariants

/-! # What a stranger can do

Operations that need the master, and the issuing of grants, turn away a device that is not
enrolled. The removals and the recovery make no such check. -/

namespace CeIam.Vault

open StoreProg

variable {cs : CeSecrets} {v : Vault cs} {env : Moment cs} {s t : OrdMap String Json}

/-- The vault has an owner, and its device is neither the owner nor enrolled. -/
structure Stranger (v : Vault cs) (s : OrdMap String Json) : Prop where
  unenrolled : s[deviceKey v.device.id]? = none
  owned : ∃ r, s["meta"]? = some r ∧ strField r "owner" ≠ some v.device.id

/-- The operations that are for enrolled devices. -/
def Op.Gated : Op → Prop
  | .query (.getSecret _) => True
  | .putSecret _ _ _ => True
  | .issueGrant _ _ _ => True
  | .approvePairing _ => True
  | .issueEnrolToken _ _ => True
  | .deleteSecret _ => True
  | .revokeGrant _ => True
  | .revokeDevice _ => True
  | .recover _ => True
  | _ => False

/-- The effects on the way to enrollment: a pairing request, or an enrollment of the device
itself by a token that has not expired, which is burnt. -/
inductive Bootstraps (v : Vault cs) (env : Moment cs) (s : OrdMap String Json) :
    Op → OrdMap String Json → Prop where
  | request (label code : String) :
      Bootstraps v env s (.requestPairing label)
        (s.insert (pairKey code) (v.pairRecord env code label))
  | redeem (token label id secretText label' : String) (secret master : Bytes)
      (found record : Json) (htoken : Text.splitOnce token '.' = some (id, secretText))
      (hsecret : b64Decode secretText = .ok secret) (hfound : s[enrolKey id]? = some found)
      (hmaster : openToken env secret found = .ok master)
      (hrecord : v.enrolRecord env (publicValue v.device) master label' v.device.id = .ok record) :
      Bootstraps v env s (.redeemEnrolToken token label)
        ((s.insert (deviceKey v.device.id) record).erase (enrolKey id))

/-- A gated operation returns an error and leaves every record but pairing requests as it
is, and any operation has no effect but on the way to enrollment. -/
def Denied (v : Vault cs) (env : Moment cs) (s : OrdMap String Json) (op : Op) : Prop :=
  let (result, t) := (v.exec env op).run memStore s
  (op.Gated → (∃ e, result = .error e) ∧
    ∀ k, (∀ code, k ≠ pairKey code) → t[k]? = s[k]?) ∧
  (t = s ∨ Bootstraps v env s op t)

/-- The operation is none that forgets to check the enrollment. -/
def Checked (v : Vault cs) (env : Moment cs) : Op → Prop
  | .deleteSecret _ => False
  | .revokeGrant _ => False
  | .revokeDevice id => id = v.device.id
  | .recover label => ∀ record, v.ownerRecord env label ≠ .ok record
  | _ => True

theorem Stranger.not_holds (h : Stranger v s) {master : Bytes} : ¬ v.Holds s master := by
  rintro ⟨record, hrecord, -⟩
  have hget : s[deviceKey v.device.id]? = some record := hrecord
  rw [h.unenrolled] at hget
  cases hget

/-- A call that returned an error is denied. -/
theorem denied_of_error {op : Op} {e : String} (h : ((v.exec env op).run memStore s).1 = .error e) :
    Denied v env s op := by
  have hsame := v.exec_allOrNothing env op s e h
  rw [Denied, run_of_fst h, hsame]
  exact ⟨fun _ => ⟨⟨e, rfl⟩, fun _ _ => rfl⟩, .inl rfl⟩

/-- A gated operation that succeeds for a stranger is one that makes no check. -/
theorem not_checked_of_ok (h : Stranger v s) {op : Op} {reply : Reply} (hgated : op.Gated)
    (hrun : (v.exec env op).run memStore s = (.ok reply, t)) : ¬ Checked v env op := by
  cases exec_ok hrun with
  | query q reply =>
      cases q with
      | getSecret name =>
          obtain ⟨_, hget, -⟩ := (run_map_ok memStore).mp hrun
          obtain ⟨_, master, -, hmaster, -, -⟩ := getSecret_ok.mp hget
          exact absurd hmaster h.not_holds
      | _ => cases hgated
  | found => cases hgated
  | init => cases hgated
  | recover label t hestablished =>
      obtain ⟨record, hrecord, -⟩ := hestablished
      exact fun hchecked => hchecked record hrecord
  | requestPairing => cases hgated
  | approvePairing code req pubv id label master record hreq hpub hid hmaster =>
      exact absurd hmaster h.not_holds
  | issueEnrolToken label ttlSecs master secret box record token hmaster =>
      exact absurd hmaster h.not_holds
  | redeemEnrolToken => cases hgated
  | revokeDevice id hid => exact hid
  | putSecret name bytes kind master box info record hmaster =>
      exact absurd hmaster h.not_holds
  | deleteSecret => exact id
  | issueGrant audience read expires g henrolled => exact absurd h.unenrolled henrolled
  | revokeGrant => exact id

/-- What an operation that is not gated does for a stranger. -/
theorem bootstraps_of_ok (h : Stranger v s) {op : Op} {reply : Reply} (hopen : ¬ op.Gated)
    (hrun : (v.exec env op).run memStore s = (.ok reply, t)) :
    t = s ∨ Bootstraps v env s op t := by
  cases exec_ok hrun with
  | query => exact .inl rfl
  | found => exact .inl rfl
  | init label t hmeta =>
      obtain ⟨r, hr, -⟩ := h.owned
      have hget : s["meta"]? = none := hmeta
      rw [hr] at hget
      cases hget
  | requestPairing label code => exact .inr (.request label code)
  | redeemEnrolToken token label id secretText label' secret master found record htoken hsecret
      hfound hmaster hrecord =>
      exact .inr (.redeem token label id secretText label' secret master found record htoken
        hsecret hfound hmaster hrecord)
  | _ => exact absurd trivial hopen

/-- An operation that makes no check succeeds for everyone. -/
theorem ok_of_not_checked {op : Op} (h : ¬ Checked v env op) (s : OrdMap String Json) :
    op.Gated ∧ ∃ reply t, (v.exec env op).run memStore s = (.ok reply, t) := by
  cases op with
  | deleteSecret name => exact ⟨trivial, _, _, rfl⟩
  | revokeGrant id => exact ⟨trivial, _, _, rfl⟩
  | revokeDevice id =>
      have hid : ¬ id = v.device.id := h
      refine ⟨trivial, .unit, drop s (.device id), (run_map_ok memStore).mpr ⟨(), ?_, rfl⟩⟩
      rw [revokeDevice, if_neg hid]
      rfl
  | recover label =>
      obtain ⟨record, hrecord⟩ := not_forall_not.mp h
      exact ⟨trivial, .unit, _, exec_recover ⟨record, hrecord, rfl⟩⟩
  | _ => exact absurd trivial h

/-- A stranger is denied exactly the operations that check the enrollment. -/
theorem denied_iff (h : Stranger v s) (env : Moment cs) (op : Op) :
    Denied v env s op ↔ Checked v env op := by
  constructor
  · intro hdenied
    by_contra hchecked
    obtain ⟨hgated, reply, t, hrun⟩ := ok_of_not_checked hchecked s
    rw [Denied, hrun] at hdenied
    obtain ⟨⟨e, he⟩, -⟩ := hdenied.1 hgated
    cases he
  · intro hchecked
    cases hrun : (v.exec env op).run memStore s with
    | mk result t =>
        cases result with
        | error e => exact denied_of_error (congrArg Prod.fst hrun)
        | ok reply =>
            have hopen : ¬ op.Gated := fun hgated => not_checked_of_ok h hgated hrun hchecked
            rw [Denied, hrun]
            exact ⟨fun hgated => absurd hgated hopen, bootstraps_of_ok h hopen hrun⟩

/-! ## A stranger recovers -/

theorem phone_stranger : ∃ s, Stranger (⟨phone, "home"⟩ : Vault .symbolic) s := by
  obtain ⟨_, s, -, -, hphone, ⟨r, hr, howner⟩, -⟩ := laptop_recovers (Set.mem_singleton laptop)
  refine ⟨s, hphone, r, hr, ?_⟩
  rw [howner]
  decide

theorem denied_iff_phone : ∃ s, Stranger (⟨phone, "home"⟩ : Vault .symbolic) s ∧
    (Denied ⟨phone, "home"⟩ noon s (.deleteSecret "api-key") ↔
      Checked (⟨phone, "home"⟩ : Vault .symbolic) noon (.deleteSecret "api-key")) := by
  obtain ⟨s, h⟩ := phone_stranger
  exact ⟨s, h, denied_iff h noon _⟩

/-- A stranger enrolls itself and becomes the owner by recovering. -/
theorem stranger_recovers :
    ¬ ∀ (s : OrdMap String Json) (op : Op),
      Stranger (⟨phone, "home"⟩ : Vault .symbolic) s → Denied ⟨phone, "home"⟩ noon s op := by
  intro hclaim
  obtain ⟨s, h⟩ := phone_stranger
  obtain ⟨record, -, -, hrun⟩ := symbolic_recovers ⟨phone, "home"⟩ noon "" s
  have hdenied := hclaim s (.recover "") h
  rw [Denied, hrun] at hdenied
  obtain ⟨⟨e, he⟩, -⟩ := hdenied.1 trivial
  cases he

end CeIam.Vault
