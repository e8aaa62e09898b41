import CeIam.Library.Interleave
import CeIam.Verification.Vault.Codec

/-! # Redeeming one token at the same time

Several devices redeem the same enrol token, one store call at a time, and any call may fail.
At most one of them gets in, and those that fail stay out, exactly when each writes its
enrollment while the token is neither burnt nor being burnt, and no call fails too late. -/

namespace CeIam.Vault

open StoreProg

variable {cs : CeSecrets}

/-! ## The calls of a redemption -/

/-- The enrollment record that a device makes from what it found under a token. -/
def admission (v : Vault cs) (env : Moment cs) (secret : Bytes) (label : String)
    (found : Option Json) : Except String Json := do
  let record ← Outcome.require "enrol token not found (already used, or never issued)" found
  let master ← openToken env secret record
  let label := if label = "" then "vm device" else label
  v.enrolRecord env (publicValue v.device) master label v.device.id

/-- Takes the token away. -/
def burn (id : String) : Prog Unit := .del (enrolKey id) (.done (.ok ()))

/-- Writes the enrollment record and takes the token away. -/
def enter (id device : String) (record : Json) : Prog Unit :=
  .put (deviceKey device) record (burn id)

def enterWith (id device : String) : Except String Json → Prog Unit
  | .ok record => enter id device record
  | .error e => .done (.error e)

/-- A redemption reads the token, writes the enrollment record and takes the token away. -/
theorem redeemEnrolToken_eq (v : Vault cs) (env : Moment cs) (token label : String) :
    v.redeemEnrolToken env token label =
      match readToken token with
      | .ok (id, secret) => .get (enrolKey id) fun found =>
          enterWith id v.device.id (v.admission env secret label found)
      | .error e => .done (.error e.message) := by
  rw [redeemEnrolToken_steps]
  cases readToken token with
  | error e => rfl
  | ok parts =>
      obtain ⟨id, secret⟩ := parts
      change fetch (enrolKey id) >>= _ = _
      rw [fetch_bind]
      refine congrArg (StoreProg.get (enrolKey id)) (funext fun found => ?_)
      cases found with
      | none => rfl
      | some record =>
          rw [require_bind_some]
          simp only [admission, Outcome.require, Outcome.ok_bind]
          cases openToken env secret record with
          | error e => rfl
          | ok master =>
              rw [lift_bind_ok, Outcome.ok_bind, enroll]
              cases v.enrolRecord env (publicValue v.device) master _ v.device.id with
              | error e => rfl
              | ok enrolled => rfl

/-- The id of a token, if it can be read. -/
def tokenId (token : String) : String :=
  match readToken token with
  | .ok (id, _) => id
  | .error _ => ""

/-- The text of a token reads back as its id and its secret. -/
theorem readToken_text {id : String} (secret : Bytes) (hid : '.' ∉ id.toList) :
    readToken (id ++ "." ++ Hex.encode secret) = .ok (id, secret) :=
  readToken_ok.mpr ⟨_, Text.splitOnce_append rfl hid, b64Decode_encode secret⟩

/-- What is left of a redemption of the token `id` by a device. -/
inductive Redeeming (id device : String) : Prog Unit → Prop where
  | reading (f : Option Json → Except String Json) (hnone : ∀ record, f none ≠ .ok record) :
      Redeeming id device (.get (enrolKey id) fun found => enterWith id device (f found))
  | entering (record : Json) : Redeeming id device (enter id device record)
  | burning : Redeeming id device (burn id)
  | done (r : Except String Unit) : Redeeming id device (.done r)

/-- A redemption that has made no call yet. -/
def Fresh (x : Prog Unit) : Prop := (∃ k f, x = .get k f) ∨ ∃ e, x = .done (.error e)

theorem redeemEnrolToken_redeeming (v : Vault cs) (env : Moment cs) (token label : String) :
    Redeeming (tokenId token) v.device.id (v.redeemEnrolToken env token label) := by
  rw [redeemEnrolToken_eq, tokenId]
  cases readToken token with
  | error e => exact .done _
  | ok parts =>
      refine .reading _ fun record hnone => ?_
      cases hnone

theorem redeemEnrolToken_fresh (v : Vault cs) (env : Moment cs) (token label : String) :
    Fresh (v.redeemEnrolToken env token label) := by
  rw [redeemEnrolToken_eq]
  cases readToken token with
  | error e => exact .inr ⟨e.message, rfl⟩
  | ok parts => exact .inl ⟨_, _, rfl⟩

/-! ## One at most -/

variable {ι : Type} {id : String} {device : ι → String} {s : OrdMap String Json}

/-- Redemptions by several devices, and the store they share. -/
abbrev Redemptions (ι : Type) := Shared (OrdMap String Json) ι String Json String Unit

abbrev RedeemEvent (ι : Type) := StoreEvent ι String Json String

/-- The device has an enrollment record. -/
def Enrolled (device : ι → String) (s : OrdMap String Json) (i : ι) : Prop :=
  look s (.device (device i)) ≠ none

/-- At most one device is enrolled, and none whose redemption failed. -/
structure OneTime (device : ι → String) (c : Redemptions ι) : Prop where
  once : ∀ i j, Enrolled device c.store i → Enrolled device c.store j → i = j
  failed : ∀ i x, c.prog i = .done (.error x) → ¬ Enrolled device c.store i

/-- No call fails too late, and an enrollment is written only while the token is there and no
other redemption is about to take it away. -/
structure Exclusive (id : String) (c : Redemptions ι) (e : RedeemEvent ι) : Prop where
  acknowledged : ∀ k record x, e.call = .put k record → e.fate ≠ .lost x
  burnt : ∀ k, e.call = .del k → e.fate = .answered
  unburnt : ∀ k record, e.call = .put k record → e.fate = .answered →
    look c.store (.enrol id) ≠ none ∧ ∀ j, c.prog j ≠ burn id

/-- The redemption has written the enrollment record. -/
def HasEntered (id : String) (x : Prog Unit) : Prop := x = burn id ∨ x = .done (.ok ())

/-- The enrolled devices are those whose redemption has entered, and there is one at most. -/
structure Settled (id : String) (device : ι → String) (c : Redemptions ι) : Prop where
  enrolled_iff : ∀ i, Enrolled device c.store i ↔ HasEntered id (c.prog i)
  once : ∀ i j, Enrolled device c.store i → Enrolled device c.store j → i = j
  gone : ∀ i, c.prog i = .done (.ok ()) → look c.store (.enrol id) = none
  taken : ∀ i record, c.prog i = enter id (device i) record → look c.store (.enrol id) = none →
    ∃ j, c.prog j = .done (.ok ())

@[simp] theorem hasEntered_burn : HasEntered id (burn id) := .inl rfl

@[simp] theorem hasEntered_ok : HasEntered id (.done (.ok ())) := .inr rfl

@[simp] theorem not_hasEntered_error {x : String} : ¬ HasEntered id (.done (.error x)) := by
  simp [HasEntered, burn]

@[simp] theorem not_hasEntered_get {k : String} {f : Option Json → Prog Unit} :
    ¬ HasEntered id (.get k f) := by
  simp [HasEntered, burn]

@[simp] theorem not_hasEntered_enter {device : String} {record : Json} :
    ¬ HasEntered id (enter id device record) := by
  simp [HasEntered, burn, enter]

theorem enrolled_place (hids : Function.Injective device) {i j : ι} {record : Json} :
    Enrolled device (place s (.device (device j)) record) i ↔ i = j ∨ Enrolled device s i := by
  by_cases hij : i = j
  · subst hij
    simp [Enrolled]
  · have hne : device j ≠ device i := hids.ne (Ne.symm hij)
    simp [Enrolled, hne, hij]

@[simp] theorem enrolled_drop {i : ι} :
    Enrolled device (drop s (.enrol id)) i ↔ Enrolled device s i := by
  simp [Enrolled]

theorem Settled.oneTime {c : Redemptions ι} (h : Settled id device c) : OneTime device c where
  once := h.once
  failed i x hfailed henrolled := by
    have hentered := (h.enrolled_iff i).mp henrolled
    rw [hfailed] at hentered
    exact not_hasEntered_error hentered

/-- While the token is there and nobody is burning it, nobody is enrolled. -/
theorem Settled.nobody {c : Redemptions ι} (h : Settled id device c)
    (hthere : look c.store (.enrol id) ≠ none) (hburning : ∀ j, c.prog j ≠ burn id) (i : ι) :
    ¬ Enrolled device c.store i := by
  rw [h.enrolled_iff]
  rintro (hburn | hdone)
  · exact hburning i hburn
  · exact hthere (h.gone i hdone)

/-- What holds of the redemptions of a token while every step is exclusive. -/
structure InOrder (id : String) (device : ι → String) (c : Redemptions ι) : Prop where
  redeeming : ∀ i, Redeeming id (device i) (c.prog i)
  settled : Settled id device c

/-- Redemptions that have made no call yet, by devices without an enrollment record. -/
theorem inOrder_start {start : Redemptions ι}
    (hredeeming : ∀ i, Redeeming id (device i) (start.prog i)) (hprog : ∀ i, Fresh (start.prog i))
    (hfresh : ∀ i, ¬ Enrolled device start.store i) :
    InOrder id device start := by
  have houtside : ∀ i, ¬ HasEntered id (start.prog i) := by
    intro i
    rcases hprog i with ⟨k, f, hget⟩ | ⟨x, herror⟩
    · rw [hget]
      exact not_hasEntered_get
    · rw [herror]
      exact not_hasEntered_error
  refine ⟨hredeeming, ?_, ?_, ?_, ?_⟩
  · intro i
    exact iff_of_false (hfresh i) (houtside i)
  · intro i j hi
    exact absurd hi (hfresh i)
  · intro i hdone
    exact absurd (.inr hdone) (houtside i)
  · intro i record hentering
    rcases hprog i with ⟨k, f, hget⟩ | ⟨x, herror⟩
    · rw [hget] at hentering
      cases hentering
    · rw [herror] at hentering
      cases hentering

theorem exclusive_of_get {c : Redemptions ι} {e : RedeemEvent ι} {k : String}
    (hcall : e.call = .get k) : Exclusive id c e where
  acknowledged k' record x hput := by
    rw [hcall] at hput
    cases hput
  burnt k' hdel := by
    rw [hcall] at hdel
    cases hdel
  unburnt k' record hput := by
    rw [hcall] at hput
    cases hput

theorem exclusive_of_refused {c : Redemptions ι} {e : RedeemEvent ι} {k x : String} {record : Json}
    (hcall : e.call = .put k record) (hfate : e.fate = .refused x) : Exclusive id c e where
  acknowledged k' record x _ hlost := by
    rw [hfate] at hlost
    cases hlost
  burnt k' hdel := by
    rw [hcall] at hdel
    cases hdel
  unburnt k' record _ hanswered := by
    rw [hfate] at hanswered
    cases hanswered

theorem exclusive_of_answered {c : Redemptions ι} {e : RedeemEvent ι} (hfate : e.fate = .answered)
    (hput : ∀ k record, e.call = .put k record →
      look c.store (.enrol id) ≠ none ∧ ∀ j, c.prog j ≠ burn id) : Exclusive id c e where
  acknowledged k record x _ hlost := by
    rw [hfate] at hlost
    cases hlost
  burnt k _ := hfate
  unburnt k record hcall _ := hput k record hcall

/-! ## One step of a redemption -/

variable [DecidableEq ι] {c d : Redemptions ι} {e : RedeemEvent ι}

/-- What one step of the redemptions of a token does. -/
inductive RedeemStep (id : String) (device : ι → String) (c : Redemptions ι) (e : RedeemEvent ι) :
    Redemptions ι → Prop where
  | read (k : String) (f : Option Json → Prog Unit) (rest : Prog Unit)
      (hprog : c.prog e.who = .get k f) (hcall : e.call = .get k)
      (hrest : (∃ x, rest = .done (.error x)) ∨
        ∃ record, rest = enter id (device e.who) record ∧ look c.store (.enrol id) ≠ none) :
      RedeemStep id device c e ⟨c.store, Function.update c.prog e.who rest⟩
  | enter (record : Json) (hprog : c.prog e.who = enter id (device e.who) record)
      (hcall : e.call = .put (deviceKey (device e.who)) record) (hfate : e.fate = .answered) :
      RedeemStep id device c e ⟨place c.store (.device (device e.who)) record,
        Function.update c.prog e.who (burn id)⟩
  | refused (record : Json) (x : String)
      (hprog : c.prog e.who = Vault.enter id (device e.who) record)
      (hcall : e.call = .put (deviceKey (device e.who)) record) (hfate : e.fate = .refused x) :
      RedeemStep id device c e ⟨c.store, Function.update c.prog e.who (.done (.error x))⟩
  | lost (record : Json) (x : String)
      (hprog : c.prog e.who = Vault.enter id (device e.who) record)
      (hcall : e.call = .put (deviceKey (device e.who)) record) (hfate : e.fate = .lost x) :
      RedeemStep id device c e ⟨place c.store (.device (device e.who)) record,
        Function.update c.prog e.who (.done (.error x))⟩
  | burn (hprog : c.prog e.who = burn id) (hcall : e.call = .del (enrolKey id))
      (hfate : e.fate = .answered) :
      RedeemStep id device c e
        ⟨drop c.store (.enrol id), Function.update c.prog e.who (.done (.ok ()))⟩
  | unburnt (x : String) (t : OrdMap String Json) (hprog : c.prog e.who = Vault.burn id)
      (hcall : e.call = .del (enrolKey id)) (hfate : e.fate ≠ .answered)
      (hstore : t = c.store ∨ t = drop c.store (.enrol id)) :
      RedeemStep id device c e ⟨t, Function.update c.prog e.who (.done (.error x))⟩

theorem redeemStep (hredeeming : Redeeming id (device e.who) (c.prog e.who))
    (h : interleaved memStore c e d) : RedeemStep id device c e d := by
  generalize hprog : c.prog e.who = x at hredeeming
  cases hredeeming with
  | reading f hnone =>
      obtain ⟨hcall, rfl⟩ := interleaved_get h hprog
      refine .read _ _ _ hprog hcall ?_
      cases e.fate with
      | answered =>
          cases hfound : f (look c.store (.enrol id)) with
          | error x => exact .inl ⟨x, congrArg (enterWith id (device e.who)) hfound⟩
          | ok record =>
              refine .inr ⟨record, congrArg (enterWith id (device e.who)) hfound, ?_⟩
              intro hgone
              rw [hgone] at hfound
              exact hnone record hfound
      | refused x => exact .inl ⟨x, rfl⟩
      | lost x => exact .inl ⟨x, rfl⟩
  | entering record =>
      obtain ⟨hcall, rfl⟩ := interleaved_put h hprog
      cases hfate : e.fate with
      | answered => exact .enter record hprog hcall hfate
      | refused x => exact .refused record x hprog hcall hfate
      | lost x => exact .lost record x hprog hcall hfate
  | burning =>
      obtain ⟨hcall, rfl⟩ := interleaved_del h hprog
      cases hfate : e.fate with
      | answered => exact .burn hprog hcall hfate
      | refused x => exact .unburnt x _ hprog hcall (by simp [hfate]) (.inl rfl)
      | lost x => exact .unburnt x _ hprog hcall (by simp [hfate]) (.inr rfl)
  | done r => exact absurd h (not_interleaved_done hprog)

/-- A redemption that is done stays done. -/
theorem RedeemStep.done (h : RedeemStep id device c e d) {i : ι} {r : Except String Unit}
    (hi : c.prog i = .done r) : d.prog i = .done r := by
  have hother : ∀ {x : Prog Unit}, c.prog e.who ≠ .done r →
      Function.update c.prog e.who x i = .done r := by
    intro x hwho
    have hne : i ≠ e.who := fun heq => hwho (heq ▸ hi)
    rw [Function.update_of_ne hne, hi]
  cases h with
  | read k f rest hprog => exact hother (by simp [hprog])
  | enter record hprog => exact hother (by simp [hprog, Vault.enter])
  | refused record x hprog => exact hother (by simp [hprog, Vault.enter])
  | lost record x hprog => exact hother (by simp [hprog, Vault.enter])
  | burn hprog => exact hother (by simp [hprog, Vault.burn])
  | unburnt x t hprog => exact hother (by simp [hprog, Vault.burn])

/-- Enrolled devices stay enrolled. -/
theorem RedeemStep.enrolled (h : RedeemStep id device c e d) (hids : Function.Injective device)
    {i : ι} (hi : Enrolled device c.store i) : Enrolled device d.store i := by
  cases h with
  | read => exact hi
  | enter => exact (enrolled_place hids).mpr (.inr hi)
  | refused => exact hi
  | lost => exact (enrolled_place hids).mpr (.inr hi)
  | burn => exact enrolled_drop.mpr hi
  | unburnt x t hprog hcall hfate hstore =>
      cases hstore with
      | inl hsame => exact hsame ▸ hi
      | inr hdrop =>
          rw [hdrop]
          exact enrolled_drop.mpr hi

/-! ## Exclusive steps keep the order, and no others do -/

/-- What a step that enrolls nobody keeps. -/
theorem Settled.update (h : Settled id device c) {rest : Prog Unit}
    (hwho : ¬ HasEntered id (c.prog e.who)) (hrest : ¬ HasEntered id rest)
    (htaken : ∀ record, rest = enter id (device e.who) record → look c.store (.enrol id) ≠ none) :
    Settled id device ⟨c.store, Function.update c.prog e.who rest⟩ where
  enrolled_iff := by
    refine (Function.forall_update_iff c.prog
      fun i x => Enrolled device c.store i ↔ HasEntered id x).mpr ⟨?_, fun i _ => h.enrolled_iff i⟩
    rw [h.enrolled_iff]
    exact iff_of_false hwho hrest
  once := h.once
  gone := by
    refine (Function.forall_update_iff c.prog
      fun i x => x = .done (.ok ()) → look c.store (.enrol id) = none).mpr
        ⟨fun hdone => absurd (.inr hdone) hrest, fun i _ => h.gone i⟩
  taken := by
    refine (Function.forall_update_iff c.prog fun i x => ∀ record, x = enter id (device i) record →
      look c.store (.enrol id) = none →
        ∃ j, Function.update c.prog e.who rest j = .done (.ok ())).mpr ⟨?_, ?_⟩
    · intro record hentering hgone
      exact absurd hgone (htaken record hentering)
    · intro i hi record hentering hgone
      obtain ⟨j, hj⟩ := h.taken i record hentering hgone
      have hne : j ≠ e.who := fun heq => hwho (heq ▸ .inr hj)
      exact ⟨j, (Function.update_of_ne hne _ _).trans hj⟩

/-- The enrollment of the first device. -/
theorem Settled.enter (h : Settled id device c) (hids : Function.Injective device)
    (hthere : look c.store (.enrol id) ≠ none) (hburning : ∀ j, c.prog j ≠ Vault.burn id)
    (record : Json) :
    Settled id device ⟨place c.store (.device (device e.who)) record,
      Function.update c.prog e.who (Vault.burn id)⟩ := by
  have hnobody := h.nobody hthere hburning
  have hentered : ∀ i, ¬ HasEntered id (c.prog i) := fun i hi =>
    hnobody i ((h.enrolled_iff i).mpr hi)
  have honly : ∀ i, Enrolled device (place c.store (.device (device e.who)) record) i ↔
      i = e.who := by
    intro i
    rw [enrolled_place hids]
    exact or_iff_left (hnobody i)
  refine ⟨?_, ?_, ?_, ?_⟩
  · refine (Function.forall_update_iff c.prog fun i x => Enrolled device
      (place c.store (.device (device e.who)) record) i ↔ HasEntered id x).mpr ⟨?_, ?_⟩
    · rw [honly]
      exact iff_of_true rfl hasEntered_burn
    · intro i hi
      rw [honly]
      exact iff_of_false hi (hentered i)
  · intro i j hi hj
    rw [(honly i).mp hi, (honly j).mp hj]
  · refine (Function.forall_update_iff c.prog fun i x => x = .done (.ok ()) → look
      (place c.store (.device (device e.who)) record) (.enrol id) = none).mpr ⟨?_, ?_⟩
    · intro hdone
      cases hdone
    · intro i _ hdone
      exact absurd (.inr hdone) (hentered i)
  · intro i record' _ hgone
    exact absurd (by simpa using hgone) hthere

/-- The token is burnt by a redemption that has entered. -/
theorem Settled.burn (h : Settled id device c) (hprog : c.prog e.who = Vault.burn id) :
    Settled id device
      ⟨drop c.store (.enrol id), Function.update c.prog e.who (.done (.ok ()))⟩ where
  enrolled_iff := by
    refine (Function.forall_update_iff c.prog fun i x =>
      Enrolled device (drop c.store (.enrol id)) i ↔ HasEntered id x).mpr ⟨?_, ?_⟩
    · rw [enrolled_drop, h.enrolled_iff, hprog]
      exact iff_of_true hasEntered_burn hasEntered_ok
    · intro i _
      rw [enrolled_drop, h.enrolled_iff]
  once i j hi hj := h.once i j (enrolled_drop.mp hi) (enrolled_drop.mp hj)
  gone i _ := by simp
  taken i record _ _ := ⟨e.who, Function.update_self _ _ _⟩

theorem Settled.step (h : Settled id device c) (hids : Function.Injective device)
    (hstep : RedeemStep id device c e d) (hexclusive : Exclusive id c e) :
    Settled id device d := by
  cases hstep with
  | read k f rest hprog hcall hrest =>
      have hwho : ¬ HasEntered id (c.prog e.who) := by simp [hprog]
      rcases hrest with ⟨x, rfl⟩ | ⟨record, rfl, hthere⟩
      · exact h.update hwho not_hasEntered_error fun record henter => nomatch henter
      · exact h.update hwho not_hasEntered_enter fun _ _ => hthere
  | enter record hprog hcall hfate =>
      obtain ⟨hthere, hburning⟩ := hexclusive.unburnt _ record hcall hfate
      exact h.enter hids hthere hburning record
  | refused record x hprog =>
      have hwho : ¬ HasEntered id (c.prog e.who) := by
        rw [hprog]
        exact not_hasEntered_enter
      exact h.update hwho not_hasEntered_error fun record henter => nomatch henter
  | lost record x hprog hcall hfate => exact absurd hfate (hexclusive.acknowledged _ _ x hcall)
  | burn hprog => exact h.burn hprog
  | unburnt x t hprog hcall hfate => exact absurd (hexclusive.burnt _ hcall) hfate

/-- A step that is not exclusive enrolls a second device, or one whose redemption failed. -/
theorem Settled.step_not_exclusive (h : Settled id device c) (hids : Function.Injective device)
    (hstep : RedeemStep id device c e d) (hexclusive : ¬ Exclusive id c e) :
    ¬ OneTime device d := by
  intro honce
  cases hstep with
  | read k f rest hprog hcall hrest => exact hexclusive (exclusive_of_get hcall)
  | enter record hprog hcall hfate =>
      have hself : Enrolled device (place c.store (.device (device e.who)) record) e.who :=
        (enrolled_place hids).mpr (.inl rfl)
      have hnot : ∀ j, ¬ HasEntered id (c.prog j) := by
        intro j hj
        have hother := honce.once j e.who
          ((enrolled_place hids).mpr (.inr ((h.enrolled_iff j).mpr hj))) hself
        rw [hother, hprog] at hj
        exact not_hasEntered_enter hj
      refine hexclusive (exclusive_of_answered hfate fun _ _ _ =>
        ⟨?_, fun j hj => hnot j (.inl hj)⟩)
      intro hgone
      obtain ⟨j, hj⟩ := h.taken _ record hprog hgone
      exact hnot j (.inr hj)
  | refused record x hprog hcall hfate => exact hexclusive (exclusive_of_refused hcall hfate)
  | lost record x hprog hcall hfate =>
      exact honce.failed e.who x (Function.update_self _ _ _)
        ((enrolled_place hids).mpr (.inl rfl))
  | burn hprog hcall hfate =>
      refine hexclusive (exclusive_of_answered hfate fun k record hput => ?_)
      rw [hcall] at hput
      cases hput
  | unburnt x t hprog hcall hfate hstore =>
      have hself : Enrolled device c.store e.who := by
        rw [h.enrolled_iff, hprog]
        exact hasEntered_burn
      refine honce.failed e.who x (Function.update_self _ _ _) ?_
      cases hstore with
      | inl hsame => exact hsame ▸ hself
      | inr hdrop =>
          rw [hdrop]
          exact enrolled_drop.mpr hself

/-- What has gone wrong stays wrong. -/
theorem oneTime_of_step (hids : Function.Injective device) (hstep : RedeemStep id device c e d)
    (h : OneTime device d) : OneTime device c where
  once i j hi hj := h.once i j (hstep.enrolled hids hi) (hstep.enrolled hids hj)
  failed i x hfailed hi := h.failed i x (hstep.done hfailed) (hstep.enrolled hids hi)

/-! ## Runs -/

/-- The redemption stays one. -/
theorem redeeming_step (h : ∀ i, Redeeming id (device i) (c.prog i))
    (hstep : RedeemStep id device c e d) : ∀ i, Redeeming id (device i) (d.prog i) := by
  have hwho : ∀ {x : Prog Unit}, Redeeming id (device e.who) x →
      ∀ i, Redeeming id (device i) (Function.update c.prog e.who x i) := fun hx =>
    (Function.forall_update_iff c.prog fun i x => Redeeming id (device i) x).mpr
      ⟨hx, fun i _ => h i⟩
  cases hstep with
  | read k f rest hprog hcall hrest =>
      rcases hrest with ⟨x, rfl⟩ | ⟨record, rfl, -⟩
      · exact hwho (.done _)
      · exact hwho (.entering record)
  | enter => exact hwho .burning
  | refused => exact hwho (.done _)
  | lost => exact hwho (.done _)
  | burn => exact hwho (.done _)
  | unburnt => exact hwho (.done _)

theorem InOrder.step (h : InOrder id device c) (hids : Function.Injective device)
    (hstep : interleaved memStore c e d) (hexclusive : Exclusive id c e) : InOrder id device d := by
  have hredeem := redeemStep (h.redeeming e.who) hstep
  exact ⟨redeeming_step h.redeeming hredeem, h.settled.step hids hredeem hexclusive⟩

/-- Exclusive steps. -/
def exclusively (id : String) (c : Redemptions ι) (e : RedeemEvent ι) (d : Redemptions ι) : Prop :=
  interleaved memStore c e d ∧ Exclusive id c e

variable {start : Redemptions ι} {events : List (RedeemEvent ι)}

theorem InOrder.run (h : InOrder id device start) (hids : Function.Injective device)
    (hrun : Run (exclusively id) start events c) : InOrder id device c :=
  hrun.invariant (fun _ _ _ hc hstep => hc.step hids hstep.1 hstep.2) h

/-- A run that ends well is in order all along. -/
theorem InOrder.exclusively_run (h : InOrder id device start) (hids : Function.Injective device)
    (hrun : Run (interleaved memStore) start events c) (honce : OneTime device c) :
    Run (exclusively id) start events c := by
  have hhistory : (∀ i, Redeeming id (device i) (c.prog i)) ∧ (OneTime device c →
      InOrder id device c ∧ Run (exclusively id) start events c) := by
    refine hrun.history (I := fun events c => (∀ i, Redeeming id (device i) (c.prog i)) ∧
      (OneTime device c → InOrder id device c ∧ Run (exclusively id) start events c)) ?_
      ⟨h.redeeming, fun _ => ⟨h, .nil _⟩⟩
    rintro events c e d ⟨hredeeming, hc⟩ hstep
    have hredeem := redeemStep (hredeeming e.who) hstep
    refine ⟨redeeming_step hredeeming hredeem, fun hd => ?_⟩
    obtain ⟨horder, hexclusively⟩ := hc (oneTime_of_step hids hredeem hd)
    by_cases hexclusive : Exclusive id c e
    · exact ⟨horder.step hids hstep hexclusive, .snoc hexclusively ⟨hstep, hexclusive⟩⟩
    · exact absurd hd (horder.settled.step_not_exclusive hids hredeem hexclusive)
  exact (hhistory.2 honce).2

/-- Redemptions of one token by fresh devices let in one device at most, and none whose
redemption failed, exactly when every step is exclusive. -/
theorem oneTime_iff {v : ι → Vault cs} {env : ι → Moment cs} {token : String} {label : ι → String}
    (hids : Function.Injective fun i => (v i).device.id)
    (hfresh : ∀ i, s[deviceKey (v i).device.id]? = none)
    (hrun : Run (interleaved memStore)
      ⟨s, fun i => (v i).redeemEnrolToken (env i) token (label i)⟩ events c) :
    OneTime (fun i => (v i).device.id) c ↔ Run (exclusively (tokenId token))
      ⟨s, fun i => (v i).redeemEnrolToken (env i) token (label i)⟩ events c := by
  have horder : InOrder (tokenId token) (fun i => (v i).device.id)
      ⟨s, fun i => (v i).redeemEnrolToken (env i) token (label i)⟩ :=
    inOrder_start (fun i => redeemEnrolToken_redeeming _ _ _ _)
      (fun i => redeemEnrolToken_fresh _ _ _ _) fun i hi => hi (hfresh i)
  constructor
  · exact horder.exclusively_run hids hrun
  · intro hexclusively
    exact (horder.run hids hexclusively).settled.oneTime

/-! ## Two devices at once -/

/-- Whoever has the secret of a token that has not expired makes an enrollment record. -/
theorem symbolic_admission (v : Vault .symbolic) {secret master : Bytes} {offer : Json}
    (hsealed : offer.field "sealed" = some (CeSecrets.symbolic.sealedToJson (secret, master)))
    (hexpires : (offer.field "expires").bind Json.asI64 = some 600) :
    ∃ record, v.admission noon secret "" (some offer) = .ok record ∧
      openMaster v.device record = .ok master := by
  obtain ⟨record, hrecord⟩ :=
    symbolic_enrolRecord v noon v.device master "vm device" v.device.id
  have hopened : openToken noon secret offer = .ok master := by
    simp only [openToken, Outcome.bind_eq_ok, Outcome.ensure_eq_ok, Outcome.require_eq_ok,
      context_eq_ok]
    refine ⟨(), by simp [hexpires, noon], _, hsealed, (secret, master), ?_, ?_⟩
    · exact CeSecrets.symbolic_vaultLaws.read_sealed _
    · exact CeSecrets.Closed.openWith_eq_ok (c := (secret, master)).mpr rfl
  simp only [admission, Outcome.require, Outcome.ok_bind, hopened, if_true]
  exact ⟨record, hrecord, (enrolRecord_opens hrecord).2 CeSecrets.symbolic_vaultLaws⟩

/-- A store with one enrolled device, the laptop, and a token that every device can redeem. -/
structure Offered (s : OrdMap String Json) (token : String) : Prop where
  holds : Holds ⟨laptop, "home"⟩ s laptop.ecdhPriv.1
  fresh : ∀ id, id ≠ laptop.id → look s (.device id) = none
  secret : ∀ name, look s (.secret name) = none
  redeem : ∀ v : Vault .symbolic, ∃ (f : Option Json → Except String Json) (record : Json),
    f (look s (.enrol (tokenId token))) = .ok record ∧
      openMaster v.device record = .ok laptop.ecdhPriv.1 ∧
      v.redeemEnrolToken noon token "" = .get (enrolKey (tokenId token)) fun found =>
        enterWith (tokenId token) v.device.id (f found)

/-- The laptop becomes the owner of an empty store and issues a token. -/
theorem laptop_issues {devices : Set (DeviceKey CeSecrets.symbolic.toKeyPairs)}
    (h : laptop ∈ devices) : ∃ s t token,
      called devices "home" ∅ ⟨laptop, noon, .recover "", .ok .unit⟩ s ∧
      called devices "home" s ⟨laptop, noon, .issueEnrolToken "ci" 600, .ok (.text token)⟩ t ∧
      Offered t token := by
  obtain ⟨record, hopen, -, hrecover⟩ := symbolic_recovers ⟨laptop, "home"⟩ noon "" ∅
  let s := place (place ∅ (.device laptop.id) record) .vault (metaRecord ⟨laptop, "home"⟩ noon)
  obtain ⟨secret, hsecret⟩ : ∃ secret, noon.fillRandom 32 = secret := ⟨_, rfl⟩
  let id := Hex.encode secret
  have hread : readToken (id ++ "." ++ Hex.encode secret) = .ok (id, secret) :=
    readToken_text secret (Hex.notMem_encode rfl secret)
  have hholds : Holds ⟨laptop, "home"⟩ s laptop.ecdhPriv.1 := ⟨record, by simp [s], hopen⟩
  let offer := offerRecord noon "ci" (secret, laptop.ecdhPriv.1) 600
  let v : Vault .symbolic := ⟨laptop, "home"⟩
  have hissue : (v.issueEnrolToken noon "ci" 600).run memStore s =
      (.ok (id ++ "." ++ Hex.encode secret), place s (.enrol id) offer) := by
    have hexpiry : expiry (noon.nowSecs 0) 600 = .ok 600 := by decide +kernel
    exact issueEnrolToken_run.mpr ⟨_, _, 600, hholds, rfl, hexpiry, by rw [hsecret]; rfl,
      by rw [hsecret]; rfl⟩
  refine ⟨s, place s (.enrol id) offer, id ++ "." ++ Hex.encode secret, ⟨h, hrecover⟩,
    ⟨h, (run_map_ok memStore).mpr ⟨_, hissue, rfl⟩⟩, ⟨record, by simp [s], hopen⟩, ?_, ?_, ?_⟩
  · intro other hne
    simp [s, Ne.symm hne]
  · intro name
    simp [s]
  · intro v
    have hoffer : look (place s (.enrol id) offer) (.enrol id) = some offer := by simp
    have hsealed : offer.field "sealed" =
        some (CeSecrets.symbolic.sealedToJson (secret, laptop.ecdhPriv.1)) := by
      simp [offer, offerRecord, Json.field_ofFields]
    have hexpires : (offer.field "expires").bind Json.asI64 = some 600 := by
      simp [offer, offerRecord, Json.field_ofFields, Json.asI64]
    obtain ⟨record, hrecord, hopened⟩ := symbolic_admission v hsealed hexpires
    rw [redeemEnrolToken_eq, tokenId, hread]
    exact ⟨_, record, (congrArg _ hoffer).trans hrecord, hopened, rfl⟩

def tablet : DeviceKey CeSecrets.symbolic.toKeyPairs :=
  ⟨"tablet", Hex.filled 4, "tablet signing key"⟩

/-- Two devices that redeem the same token. -/
def newcomer : Bool → Vault .symbolic
  | true => ⟨phone, "home"⟩
  | false => ⟨tablet, "home"⟩

theorem newcomer_ids : Function.Injective fun i => (newcomer i).device.id := by
  intro i j h
  cases i <;> cases j
  · rfl
  · exact absurd h (by decide)
  · exact absurd h (by decide)
  · rfl

theorem newcomer_ne_laptop (i : Bool) : (newcomer i).device.id ≠ laptop.id := by
  cases i <;> decide

/-- Both newcomers have read the token, and either writes its enrollment record next. -/
theorem newcomers_ready : ∃ (s t : OrdMap String Json) (token : String) (record : Bool → Json),
    called {laptop} "home" ∅ ⟨laptop, noon, .recover "", .ok .unit⟩ s ∧
    called {laptop} "home" s ⟨laptop, noon, .issueEnrolToken "ci" 600, .ok (.text token)⟩ t ∧
    (∀ i, look t (.device (newcomer i).device.id) = none) ∧
    Run (interleaved memStore) ⟨t, fun i => (newcomer i).redeemEnrolToken noon token ""⟩
      [⟨true, .get (enrolKey (tokenId token)), .answered⟩,
        ⟨false, .get (enrolKey (tokenId token)), .answered⟩]
      ⟨t, fun i => enter (tokenId token) (newcomer i).device.id (record i)⟩ := by
  obtain ⟨s, t, token, hrecover, hissue, hoffered⟩ := laptop_issues (Set.mem_singleton laptop)
  choose f record hf _ hcall using fun i => hoffered.redeem (newcomer i)
  let redeeming (i : Bool) := (newcomer i).redeemEnrolToken noon token ""
  let entering (i : Bool) := enter (tokenId token) (newcomer i).device.id (record i)
  have hfound (i : Bool) : enterWith (tokenId token) (newcomer i).device.id
      (f i (look t (.enrol (tokenId token)))) = entering i :=
    congrArg (enterWith (tokenId token) (newcomer i).device.id) (hf i)
  have hphone := get_interleaved (b := memStore) (c := ⟨t, redeeming⟩) (hcall true) (hfound true)
  have htablet := get_interleaved (b := memStore) (i := false)
    (c := ⟨t, Function.update redeeming true (entering true)⟩) (hcall false) (hfound false)
  have hready : Function.update (Function.update redeeming true (entering true)) false
      (entering false) = entering := by
    funext i
    cases i <;> rfl
  rw [hready] at htablet
  exact ⟨s, t, token, record, hrecover, hissue,
    fun i => hoffered.fresh _ (newcomer_ne_laptop i), (Run.single hphone).snoc htablet⟩

/-- The tablet reads the token while the phone redeems it, but does not reach the store again. -/
theorem oneTime_iff_newcomers : ∃ t token events c,
    Run (interleaved memStore) ⟨t, fun i => (newcomer i).redeemEnrolToken noon token ""⟩ events c ∧
      (∃ s, called {laptop} "home" s
        ⟨laptop, noon, .issueEnrolToken "ci" 600, .ok (.text token)⟩ t) ∧
      events.map StoreEvent.who = [true, false, true, false, true] ∧
      c.prog true = .done (.ok ()) ∧ c.prog false = .done (.error "offline") ∧
      (OneTime (fun i => (newcomer i).device.id) c ↔ Run (exclusively (tokenId token))
        ⟨t, fun i => (newcomer i).redeemEnrolToken noon token ""⟩ events c) := by
  obtain ⟨s, t, token, record, -, hissue, hfresh, hready⟩ := newcomers_ready
  let id := tokenId token
  let p (i : Bool) := enter id (newcomer i).device.id (record i)
  have hphone_enters := put_interleaved (b := memStore) (c := ⟨t, p⟩) (i := true)
    (k := deviceKey phone.id) (v := record true) (x := burn id) rfl
  let u := place t (.device phone.id) (record true)
  let p' := Function.update p true (burn id)
  have htablet_fails := refused_interleaved (b := memStore) (c := ⟨u, p'⟩) (i := false)
    (k := deviceKey tablet.id) (v := record false) (x := "offline") (y := burn id) rfl
  let p'' := Function.update p' false (.done (.error "offline"))
  have hphone_burns := del_interleaved (b := memStore) (c := ⟨u, p''⟩) (i := true)
    (k := enrolKey id) (x := .done (.ok ())) rfl
  have hrun := ((hready.snoc hphone_enters).snoc htablet_fails).snoc hphone_burns
  exact ⟨t, token, _, _, hrun, ⟨s, hissue⟩, rfl, rfl, rfl, oneTime_iff newcomer_ids hfresh hrun⟩

/-- Two devices that both read the token before either takes it away are both enrolled. -/
theorem both_newcomers_enter :
    ¬ ∀ (s t : OrdMap String Json) (token : String) (events : List (RedeemEvent Bool))
        (c : Redemptions Bool),
      Run (called {laptop} "home") ∅ [⟨laptop, noon, .recover "", .ok .unit⟩] s →
      called {laptop} "home" s ⟨laptop, noon, .issueEnrolToken "ci" 600, .ok (.text token)⟩ t →
      (∀ i, t[deviceKey (newcomer i).device.id]? = none) →
      Run (interleaved memStore) ⟨t, fun i => (newcomer i).redeemEnrolToken noon token ""⟩
        events c → OneTime (fun i => (newcomer i).device.id) c := by
  intro hclaim
  obtain ⟨s, t, token, record, hrecover, hissue, hfresh, hready⟩ := newcomers_ready
  let id := tokenId token
  let p (i : Bool) := enter id (newcomer i).device.id (record i)
  have hphone_enters := put_interleaved (b := memStore) (c := ⟨t, p⟩) (i := true)
    (k := deviceKey phone.id) (v := record true) (x := burn id) rfl
  have htablet_enters := put_interleaved (b := memStore) (i := false)
    (c := ⟨place t (.device phone.id) (record true), Function.update p true (burn id)⟩)
    (k := deviceKey tablet.id) (v := record false) (x := burn id) rfl
  have hrun := (hready.snoc hphone_enters).snoc htablet_enters
  have honce := hclaim s t token _ _ (.single hrecover) hissue hfresh hrun
  have hphone_enrolled : Enrolled (fun i => (newcomer i).device.id)
      (place t (.device phone.id) (record true)) true :=
    (enrolled_place (j := true) newcomer_ids).mpr (.inl rfl)
  have hsame := honce.once true false
    ((enrolled_place (j := false) newcomer_ids).mpr (.inr hphone_enrolled))
    ((enrolled_place (j := false) newcomer_ids).mpr (.inl rfl))
  cases hsame

end CeIam.Vault
