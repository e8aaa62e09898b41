import CeIam.Library.Increment
import CeIam.Verification.Vault.Refinement
import CeIam.Verification.Vault.Tokens

/-! # Storing one secret at the same time

Several devices store the same secret, one store call at a time. Each reads the version and
writes the next one, so no rotation is lost exactly when each call that writes has read since
the last write. -/

namespace CeIam.Vault

open StoreProg

variable {cs : CeSecrets}

/-! ## The calls of `put_secret` -/

/-- The version in the record of a secret, zero if there is none. -/
def versionOf (record : Option Json) : ℕ :=
  ((record.bind (·.field "version")).bind Json.asU64).getD 0

/-- The bytes sealed under the master in what a device found under its own key. -/
def sealing (v : Vault cs) (env : Moment cs) (bytes : Bytes) (found : Option Json) :
    Except String cs.SealedSecret := do
  let record ← Outcome.require
    "this device is not enrolled in the vault — run pairing and approve it from a trusted device"
    found
  let master ← openMaster v.device record
  context "seal secret" (cs.sealSecret master bytes (env.seed 0))

/-- The next version of a secret, from what was found under its name. -/
def revision (v : Vault cs) (env : Moment cs) (name : String) (bytes : Bytes) (kind : String)
    (sealedBytes : cs.SealedSecret) (prev : Option Json) : Except String (SecretMeta × Json) := do
  let info ← nextMeta env name bytes kind none false prev
  let record ← v.secretRecord env info sealedBytes
  return (info, record)

/-- Writes the record of a secret. -/
def publish (name : String) : Except String (SecretMeta × Json) → Prog SecretMeta
  | .ok (info, record) => .put (secretKey name) record (.done (.ok info))
  | .error e => .done (.error e)

/-- A call of `put_secret` reads the record of its device, then that of the secret, and writes
the latter. -/
theorem putSecret_eq (v : Vault cs) (env : Moment cs) (name : String) (bytes : Bytes)
    (kind : String) : v.putSecret env name bytes kind =
      .get (deviceKey v.device.id) fun found =>
        match v.sealing env bytes found with
        | .ok sealedBytes => .get (secretKey name) fun prev =>
            publish name (v.revision env name bytes kind sealedBytes prev)
        | .error e => .done (.error e) := by
  unfold putSecret storeSecret loadMaster
  refine congrArg (StoreProg.get (deviceKey v.device.id)) (funext fun found => ?_)
  cases found with
  | none => rfl
  | some record =>
      simp only [sealing, Outcome.require, Outcome.ok_bind]
      change StoreProg.bind (.done (openMaster v.device record)) _ = _
      cases openMaster v.device record with
      | error e => rfl
      | ok master =>
          rw [Outcome.ok_bind]
          change liftM (context "seal secret" (cs.sealSecret master bytes (env.seed 0))) >>= _ = _
          cases context "seal secret" (cs.sealSecret master bytes (env.seed 0)) with
          | error e => rfl
          | ok sealedBytes =>
              refine congrArg (StoreProg.get (secretKey name)) (funext fun prev => ?_)
              unfold revision
              change liftM (nextMeta env name bytes kind none false prev) >>= _ = _
              cases nextMeta env name bytes kind none false prev with
              | error e => rfl
              | ok info =>
                  rw [Outcome.ok_bind, lift_bind_ok]
                  cases v.secretRecord env info sealedBytes with
                  | error e => rfl
                  | ok record => rfl

theorem nextMeta_version {env : Moment cs} {name : String} {bytes : Bytes} {kind : String}
    {prev : Option Json} {info : SecretMeta}
    (h : nextMeta env name bytes kind none false prev = .ok info) :
    info.version = versionOf prev + 1 ∧ info.version < UInt64.size := by
  rw [nextMeta] at h
  split at h
  · next hfits =>
      cases h
      exact ⟨rfl, hfits⟩
  · cases h

/-- A revision has the version after the one it was made from, and records it. -/
theorem revision_version {v : Vault cs} {env : Moment cs} {name : String} {bytes : Bytes}
    {kind : String} {sealedBytes : cs.SealedSecret} {prev : Option Json} {info : SecretMeta}
    {record : Json} (h : v.revision env name bytes kind sealedBytes prev = .ok (info, record)) :
    info.version = versionOf prev + 1 ∧ versionOf (some record) = info.version := by
  obtain ⟨info', hinfo, h⟩ := Outcome.bind_eq_ok.mp h
  obtain ⟨record', hrecord, h⟩ := Outcome.bind_eq_ok.mp h
  cases h
  obtain ⟨hversion, hfits⟩ := nextMeta_version hinfo
  obtain ⟨-, -, -, -, -, hnumber, -⟩ := fields_secretRecord hrecord hfits
  refine ⟨hversion, ?_⟩
  rw [versionOf, Option.bind_some, hnumber, Option.getD_some]

/-! ## Increments of the version -/

variable {ι : Type} {name : String}

/-- Calls of `put_secret` by several devices, and the store they share. -/
abbrev Rotations (ι : Type) := Shared (OrdMap String Json) ι String Json String SecretMeta

abbrev RotateEvent (ι : Type) := StoreEvent ι String Json String

/-- How far a call has come. -/
def stageOf : Prog SecretMeta → Increment.Stage
  | .get _ _ => .idle
  | .put _ record _ => .holding (versionOf (some record) - 1)
  | .done (.ok info) => .finished info.version
  | _ => .stopped

/-- The version in the store, and how far the calls have come. -/
def counter (name : String) (c : Rotations ι) : Increment.State ι :=
  ⟨versionOf (look c.store (.secret name)), stageOf ∘ c.prog⟩

/-- What an event does to the record of a secret. -/
def access (name : String) (e : RotateEvent ι) : Increment.Access ι where
  who := e.who
  act :=
    match e.call, e.fate with
    | .get k, .answered => if k = secretKey name then .read else .other
    | .put k _, .answered => if k = secretKey name then .write else .other
    | _, _ => .other

/-- A call that reads the record of the secret next. -/
def Reading (name : String) (x : Prog SecretMeta) : Prop :=
  ∃ f : Option Json → Except String (SecretMeta × Json),
    x = .get (secretKey name) (fun prev => publish name (f prev)) ∧
    ∀ prev info record, f prev = .ok (info, record) →
      info.version = versionOf prev + 1 ∧ versionOf (some record) = info.version

/-- What is left of a call of `put_secret`. -/
inductive Rotating (name : String) : Prog SecretMeta → Prop where
  | loading (device : String) (f : Option Json → Prog SecretMeta)
      (hf : ∀ found, (∃ x, f found = .done (.error x)) ∨ Reading name (f found)) :
      Rotating name (.get (deviceKey device) f)
  | reading (x : Prog SecretMeta) (h : Reading name x) : Rotating name x
  | writing (info : SecretMeta) (record : Json) (hpos : 0 < info.version)
      (hversion : versionOf (some record) = info.version) :
      Rotating name (.put (secretKey name) record (.done (.ok info)))
  | done (r : Except String SecretMeta) : Rotating name (.done r)

theorem putSecret_rotating (v : Vault cs) (env : Moment cs) (bytes : Bytes) (kind : String) :
    Rotating name (v.putSecret env name bytes kind) := by
  rw [putSecret_eq]
  refine .loading _ _ fun found => ?_
  cases v.sealing env bytes found with
  | error e => exact .inl ⟨e, rfl⟩
  | ok sealedBytes => exact .inr ⟨_, rfl, fun prev info record h => revision_version h⟩

variable {c d : Rotations ι} {e : RotateEvent ι}

theorem access_read (hcall : e.call = .get (secretKey name)) (hfate : e.fate = .answered) :
    access name e = ⟨e.who, .read⟩ := by
  simp [access, hcall, hfate]

theorem access_write {record : Json} (hcall : e.call = .put (secretKey name) record)
    (hfate : e.fate = .answered) : access name e = ⟨e.who, .write⟩ := by
  simp [access, hcall, hfate]

theorem access_load {device : String} (hcall : e.call = .get (deviceKey device)) :
    access name e = ⟨e.who, .other⟩ := by
  have hne : deviceKey device ≠ secretKey name := fun heq =>
    nomatch Key.text_injective (show (Key.device device).text = (Key.secret name).text from heq)
  cases hfate : e.fate <;> simp [access, hcall, hfate, hne]

theorem access_refused {x : String} (hfate : e.fate = .refused x) :
    access name e = ⟨e.who, .other⟩ := by
  cases hcall : e.call <;> simp [access, hcall, hfate]

/-- The versions of the calls that succeeded are distinct, and each of them counts. -/
structure NoneLost (name : String) (initial : ℕ) (c : Rotations ι) : Prop where
  distinct : ∀ i j info info', c.prog i = .done (.ok info) → c.prog j = .done (.ok info') →
    info.version = info'.version → i = j
  counted : versionOf c.store[secretKey name]? =
    initial + {i | ∃ info, c.prog i = .done (.ok info)}.ncard

/-- Two calls that succeeded have one version. -/
def VersionRepeats (c : Rotations ι) : Prop :=
  ∃ i j info info', i ≠ j ∧ c.prog i = .done (.ok info) ∧ c.prog j = .done (.ok info') ∧
    info.version = info'.version

theorem stageOf_eq_finished {x : Prog SecretMeta} {n : ℕ} :
    stageOf x = .finished n ↔ ∃ info, x = .done (.ok info) ∧ info.version = n := by
  cases x with
  | done r => cases r <;> simp [stageOf]
  | _ => simp [stageOf]

theorem noneLost_iff_sound {n : ℕ} : NoneLost name n c ↔ Increment.Sound n (counter name c) := by
  have hfinishers : Increment.finishers (counter name c) =
      {i | ∃ info, c.prog i = .done (.ok info)} := by
    ext i
    simp [Increment.finishers, counter, stageOf_eq_finished]
  constructor
  · intro h
    refine ⟨?_, ?_⟩
    · intro i j x hi hj
      obtain ⟨info, hinfo, rfl⟩ := stageOf_eq_finished.mp hi
      obtain ⟨info', hinfo', hsame⟩ := stageOf_eq_finished.mp hj
      exact h.distinct i j info info' hinfo hinfo' hsame.symm
    · rw [hfinishers]
      exact h.counted
  · intro h
    refine ⟨?_, ?_⟩
    · intro i j info info' hi hj hsame
      exact h.distinct i j info.version (stageOf_eq_finished.mpr ⟨info, hi, rfl⟩)
        (stageOf_eq_finished.mpr ⟨info', hj, hsame.symm⟩)
    · rw [← hfinishers]
      exact h.counted

theorem versionRepeats_iff : VersionRepeats c ↔ Increment.Repeats (counter name c) := by
  constructor
  · rintro ⟨i, j, info, info', hne, hi, hj, hsame⟩
    exact ⟨i, j, info.version, hne, stageOf_eq_finished.mpr ⟨info, hi, rfl⟩,
      stageOf_eq_finished.mpr ⟨info', hj, hsame.symm⟩⟩
  · rintro ⟨i, j, x, hne, hi, hj⟩
    obtain ⟨info, hinfo, hx⟩ := stageOf_eq_finished.mp hi
    obtain ⟨info', hinfo', hx'⟩ := stageOf_eq_finished.mp hj
    exact ⟨i, j, info, info', hne, hinfo, hinfo', hx.trans hx'.symm⟩

variable [DecidableEq ι]

theorem counter_update (t : OrdMap String Json) (i : ι) (x : Prog SecretMeta) :
    counter name ⟨t, Function.update c.prog i x⟩ =
      ⟨versionOf (look t (.secret name)),
        Function.update (counter name c).stage i (stageOf x)⟩ := by
  rw [counter, Function.comp_update]
  rfl

/-- A call that fails stops. -/
theorem counter_stop {x : String} (haccess : access name e = ⟨e.who, .other⟩)
    (hstage : ∀ n, stageOf (c.prog e.who) ≠ .finished n) :
    Increment.Step (counter name c) (access name e)
      (counter name ⟨c.store, Function.update c.prog e.who (.done (.error x))⟩) := by
  rw [haccess, counter_update]
  exact .stop e.who hstage

/-- Reading the record of the device is no access. -/
theorem loading_step {device : String} {f : Option Json → Prog SecretMeta}
    (hprog : c.prog e.who = .get (deviceKey device) f) (hcall : e.call = .get (deviceKey device))
    (found : Option Json) (hf : (∃ x, f found = .done (.error x)) ∨ Reading name (f found)) :
    Rotating name (f found) ∧ Increment.Step (counter name c) (access name e)
      (counter name ⟨c.store, Function.update c.prog e.who (f found)⟩) := by
  rcases hf with ⟨x, hfailed⟩ | hreading
  · rw [hfailed]
    exact ⟨.done _, counter_stop (access_load hcall) (by rw [hprog]; simp [stageOf])⟩
  · refine ⟨.reading _ hreading, ?_⟩
    obtain ⟨g, hg, -⟩ := hreading
    have hsame : Function.update (counter name c).stage e.who (stageOf (f found)) =
        (counter name c).stage := by
      rw [Function.update_eq_self_iff, hg]
      exact (congrArg stageOf hprog).symm
    rw [access_load hcall, counter_update, hsame]
    exact .other e.who

/-- Reading the record of the secret reads the version. -/
theorem reading_step {f : Option Json → Except String (SecretMeta × Json)}
    (hprog : c.prog e.who = .get (secretKey name) fun prev => publish name (f prev))
    (hcall : e.call = .get (secretKey name)) (hfate : e.fate = .answered)
    (hf : ∀ prev info record, f prev = .ok (info, record) →
      info.version = versionOf prev + 1 ∧ versionOf (some record) = info.version) :
    let rest := publish name (f (look c.store (.secret name)))
    Rotating name rest ∧ Increment.Step (counter name c) (access name e)
      (counter name ⟨c.store, Function.update c.prog e.who rest⟩) := by
  have hidle : (counter name c).stage e.who = .idle := congrArg stageOf hprog
  simp only
  rw [access_read hcall hfate, counter_update]
  cases hrevision : f (look c.store (.secret name)) with
  | error x => exact ⟨.done _, .fruitless e.who hidle⟩
  | ok parts =>
      obtain ⟨info, record⟩ := parts
      obtain ⟨hnext, hversion⟩ := hf _ info record hrevision
      have hstage : stageOf (publish name (.ok (info, record))) =
          .holding (versionOf (look c.store (.secret name))) := by
        rw [publish, stageOf, hversion, hnext, Nat.add_sub_cancel]
      rw [hstage]
      exact ⟨.writing info record (by omega) hversion, .read e.who hidle⟩

/-- Writing the record of the secret writes the version. -/
theorem writing_step {info : SecretMeta} {record : Json}
    (hprog : c.prog e.who = .put (secretKey name) record (.done (.ok info)))
    (hcall : e.call = .put (secretKey name) record) (hfate : e.fate = .answered)
    (hpos : 0 < info.version) (hversion : versionOf (some record) = info.version) :
    Increment.Step (counter name c) (access name e) (counter name
      ⟨place c.store (.secret name) record, Function.update c.prog e.who (.done (.ok info))⟩) := by
  have hholding : (counter name c).stage e.who = .holding (info.version - 1) := by
    rw [← hversion]
    exact congrArg stageOf hprog
  have hnext : info.version - 1 + 1 = info.version := Nat.sub_add_cancel hpos
  have hstep := Increment.Step.write e.who _ hholding
  rw [access_write hcall hfate, counter_update, look_place, if_pos rfl, hversion]
  rw [hnext] at hstep
  exact hstep

/-- A call is one access to the version, and what is left of it is still a call. -/
theorem rotating_step (h : Rotating name (c.prog e.who)) (hstep : interleaved memStore c e d)
    (hlost : ∀ x, e.fate ≠ .lost x) :
    (∃ t rest, d = ⟨t, Function.update c.prog e.who rest⟩ ∧ Rotating name rest) ∧
      Increment.Step (counter name c) (access name e) (counter name d) := by
  generalize hprog : c.prog e.who = x at h
  cases hfate : e.fate with
  | answered =>
      cases h with
      | loading device f hf =>
          obtain ⟨hcall, rfl⟩ := interleaved_get hstep hprog
          rw [hfate]
          obtain ⟨hrest, hnext⟩ := loading_step hprog hcall _ (hf _)
          exact ⟨⟨_, _, rfl, hrest⟩, hnext⟩
      | reading x h =>
          obtain ⟨f, rfl, hf⟩ := h
          obtain ⟨hcall, rfl⟩ := interleaved_get hstep hprog
          rw [hfate]
          obtain ⟨hrest, hnext⟩ := reading_step hprog hcall hfate hf
          exact ⟨⟨_, _, rfl, hrest⟩, hnext⟩
      | writing info record hpos hversion =>
          obtain ⟨hcall, rfl⟩ := interleaved_put hstep hprog
          rw [hfate]
          exact ⟨⟨_, _, rfl, .done _⟩, writing_step hprog hcall hfate hpos hversion⟩
      | done r => exact absurd hstep (not_interleaved_done hprog)
  | refused x =>
      have hd := interleaved_refused hstep hfate
      have hstage : ∀ n, stageOf (c.prog e.who) ≠ .finished n := by
        intro n hn
        rw [hprog] at hn
        cases h with
        | loading => cases hn
        | reading x h =>
            obtain ⟨f, rfl, -⟩ := h
            cases hn
        | writing => cases hn
        | done r => exact not_interleaved_done hprog hstep
      rw [hd]
      exact ⟨⟨_, _, rfl, .done _⟩, counter_stop (access_refused hfate) hstage⟩
  | lost x => exact absurd hfate (hlost x)

/-! ## Runs -/

/-- No rotation is lost exactly when every call that writes the secret has read it since the last
write of it, as long as every write that reaches the store is acknowledged. Otherwise two calls
have one version. -/
theorem noneLost_iff {s : OrdMap String Json} {v : ι → Vault cs} {env : ι → Moment cs}
    {bytes : ι → Bytes} {kind : ι → String} {events : List (RotateEvent ι)}
    (hrun : Run (interleaved memStore)
      ⟨s, fun i => (v i).putSecret (env i) name (bytes i) (kind i)⟩ events c)
    (hlost : ∀ e ∈ events, ∀ x, e.fate ≠ .lost x) :
    (NoneLost name (versionOf s[secretKey name]?) c ↔
      Increment.Undisturbed (events.map (access name))) ∧
    (VersionRepeats c ↔ ¬ Increment.Undisturbed (events.map (access name))) := by
  let start : Rotations ι := ⟨s, fun i => (v i).putSecret (env i) name (bytes i) (kind i)⟩
  have hsimulation : (∀ i, Rotating name (c.prog i)) ∧ Run Increment.Step (counter name start)
      (events.map (access name)) (counter name c) :=
    (hrun.restrict hlost).simulation (I := fun c => ∀ i, Rotating name (c.prog i)) ?_
      fun i => putSecret_rotating _ _ _ _
  · have hidle : stageOf ∘ (fun i => (v i).putSecret (env i) name (bytes i) (kind i)) =
        fun _ => .idle := by
      funext i
      rw [Function.comp_apply, putSecret_eq]
      rfl
    have hcounter : Run Increment.Step ⟨versionOf s[secretKey name]?, fun _ => .idle⟩
        (events.map (access name)) (counter name c) := by
      rw [← hidle]
      exact hsimulation.2
    rw [noneLost_iff_sound, versionRepeats_iff]
    exact ⟨Increment.sound_iff hcounter, Increment.repeats_iff hcounter⟩
  · rintro c e d hc ⟨hstep, hfate⟩
    obtain ⟨⟨t, rest, rfl, hrest⟩, hnext⟩ := rotating_step (hc e.who) hstep hfate
    refine ⟨?_, hnext⟩
    exact (Function.forall_update_iff c.prog fun _ x => Rotating name x).mpr
      ⟨hrest, fun i _ => hc i⟩

/-! ## Two devices at once -/

/-- Two devices that store the same secret. -/
def writer : Bool → Vault .symbolic
  | true => ⟨laptop, "home"⟩
  | false => ⟨phone, "home"⟩

def draft : Bool → Bytes
  | true => [1]
  | false => [2]

/-- The laptop becomes the owner of an empty store, and the phone redeems a token of it. -/
theorem writers_enrolled : ∃ s t u token,
    called {laptop, phone} "home" ∅ ⟨laptop, noon, .recover "", .ok .unit⟩ s ∧
    called {laptop, phone} "home" s ⟨laptop, noon, .issueEnrolToken "ci" 600, .ok (.text token)⟩ t ∧
    called {laptop, phone} "home" t ⟨phone, noon, .redeemEnrolToken token "", .ok .unit⟩ u ∧
    (∀ i, (writer i).Holds u laptop.ecdhPriv.1) ∧ look u (.secret "db") = none := by
  obtain ⟨s, t, token, hrecover, hissue, hoffered⟩ :=
    laptop_issues (show laptop ∈ ({laptop, phone} : Set _) by simp)
  obtain ⟨f, record, hf, hopen, hphone⟩ := hoffered.redeem (writer false)
  let u := drop (place t (.device phone.id) record) (.enrol (tokenId token))
  have hredeem : ((writer false).redeemEnrolToken noon token "").run memStore t = (.ok (), u) := by
    have hfound : enterWith (tokenId token) (writer false).device.id
        (f t[enrolKey (tokenId token)]?) = enter (tokenId token) phone.id record := congrArg _ hf
    rw [hphone, StoreProg.run, memStore_get, hfound]
    rfl
  have hcall : called {laptop, phone} "home" t
      ⟨phone, noon, .redeemEnrolToken token "", .ok .unit⟩ u :=
    ⟨by simp, (run_map_ok memStore).mpr ⟨(), hredeem, rfl⟩⟩
  refine ⟨s, t, u, token, hrecover, hissue, hcall, ?_, by simpa [u] using hoffered.secret "db"⟩
  intro i
  cases i with
  | true =>
      obtain ⟨r, hr, hmaster⟩ := hoffered.holds
      have hne : phone.id ≠ laptop.id := by decide
      exact ⟨r, by simpa [u, writer, hne] using hr, hmaster⟩
  | false => exact ⟨record, by simp [u, writer], hopen⟩

theorem symbolic_sealing {v : Vault .symbolic} {s : OrdMap String Json} {master : Bytes}
    (h : v.Holds s master) (bytes : Bytes) :
    v.sealing noon bytes (look s (.device v.device.id)) = .ok (master, bytes) := by
  obtain ⟨record, hrecord, hopen⟩ := h
  rw [hrecord, sealing, Outcome.require, Outcome.ok_bind, hopen]
  rfl

theorem symbolic_revision (v : Vault .symbolic) (name : String) (bytes : Bytes) (kind : String)
    (box : CeSecrets.symbolic.SealedSecret) (prev : Option Json)
    (hfits : versionOf prev + 1 < UInt64.size) :
    ∃ info record, v.revision noon name bytes kind box prev = .ok (info, record) ∧
      info.version = versionOf prev + 1 ∧ versionOf (some record) = info.version := by
  obtain ⟨info, hinfo⟩ : ∃ info, nextMeta noon name bytes kind none false prev = .ok info :=
    ⟨_, if_pos hfits⟩
  obtain ⟨record, hrecord⟩ : ∃ record, v.secretRecord noon info box = .ok record := ⟨_, rfl⟩
  have hrevision : v.revision noon name bytes kind box prev = .ok (info, record) :=
    Outcome.bind_eq_ok.mpr ⟨info, hinfo, Outcome.bind_eq_ok.mpr ⟨record, hrecord, rfl⟩⟩
  exact ⟨info, record, hrevision, revision_version hrevision⟩

/-- The call of an enrolled device reads its record and then that of the secret. -/
theorem symbolic_putSecret {v : Vault .symbolic} {s : OrdMap String Json} {master : Bytes}
    (h : v.Holds s master) (name : String) (bytes : Bytes) (kind : String) :
    ∃ f : Option Json → Prog SecretMeta,
      v.putSecret noon name bytes kind = .get (deviceKey v.device.id) f ∧
        f (look s (.device v.device.id)) = .get (secretKey name) fun prev =>
          publish name (v.revision noon name bytes kind (master, bytes) prev) :=
  ⟨_, putSecret_eq _ _ _ _ _, by simp only [symbolic_sealing h]⟩

/-- A writer reads the record of its device. -/
def loads (i : Bool) : RotateEvent Bool := ⟨i, .get (deviceKey (writer i).device.id), .answered⟩

def reads (i : Bool) : RotateEvent Bool := ⟨i, .get (secretKey "db"), .answered⟩

def writes (i : Bool) (record : Json) : RotateEvent Bool :=
  ⟨i, .put (secretKey "db") record, .answered⟩

theorem access_loads (i : Bool) : access "db" (loads i) = ⟨i, .other⟩ := access_load rfl

theorem access_reads (i : Bool) : access "db" (reads i) = ⟨i, .read⟩ := access_read rfl rfl

theorem access_writes (i : Bool) (record : Json) : access "db" (writes i record) = ⟨i, .write⟩ :=
  access_write rfl rfl

/-- Both writers have found the master, and either reads the secret next. -/
theorem writers_ready : ∃ (calls : List (Call .symbolic)) (s : OrdMap String Json)
    (g : Bool → Option Json → Except String (SecretMeta × Json)),
    Run (called {laptop, phone} "home") ∅ calls s ∧
    (∀ i, s[deviceKey (writer i).device.id]? ≠ none) ∧ look s (.secret "db") = none ∧
    (∀ i prev, versionOf prev + 1 < UInt64.size → ∃ info record, g i prev = .ok (info, record) ∧
      info.version = versionOf prev + 1 ∧ versionOf (some record) = info.version) ∧
    Run (interleaved memStore)
      ⟨s, fun i => (writer i).putSecret noon "db" (draft i) "opaque"⟩ [loads true, loads false]
      ⟨s, fun i => .get (secretKey "db") fun prev => publish "db" (g i prev)⟩ := by
  obtain ⟨_, _, s, token, hrecover, hissue, hredeem, hholds, hnone⟩ := writers_enrolled
  choose f hcall hf using fun i => symbolic_putSecret (hholds i) "db" (draft i) "opaque"
  let g (i : Bool) (prev : Option Json) :=
    (writer i).revision noon "db" (draft i) "opaque" (laptop.ecdhPriv.1, draft i) prev
  let ready (i : Bool) : Prog SecretMeta :=
    .get (secretKey "db") fun prev => publish "db" (g i prev)
  let drafting (i : Bool) := (writer i).putSecret noon "db" (draft i) "opaque"
  have hlaptop := get_interleaved (b := memStore) (c := ⟨s, drafting⟩) (hcall true) (hf true)
  have hphone := get_interleaved (b := memStore) (i := false)
    (c := ⟨s, Function.update drafting true (ready true)⟩) (hcall false) (hf false)
  have hready : Function.update (Function.update drafting true (ready true)) false (ready false) =
      ready := by
    funext i
    cases i <;> rfl
  rw [hready] at hphone
  refine ⟨_, s, g, ((Run.single hrecover).snoc hissue).snoc hredeem, fun i => ?_, hnone,
    fun i prev hfits => symbolic_revision _ _ _ _ _ _ hfits, (Run.single hlaptop).snoc hphone⟩
  obtain ⟨record, hrecord, -⟩ := hholds i
  exact Option.ne_none_iff_exists'.mpr ⟨record, hrecord⟩

/-- The writers take turns after both have found the master. -/
theorem noneLost_iff_in_turn : ∃ s events c info info',
    Run (interleaved memStore)
      ⟨s, fun i => (writer i).putSecret noon "db" (draft i) "opaque"⟩ events c ∧
      (∃ calls, Run (called {laptop, phone} "home") ∅ calls s) ∧
      events.map (access "db") = [⟨true, .other⟩, ⟨false, .other⟩, ⟨true, .read⟩, ⟨true, .write⟩,
        ⟨false, .read⟩, ⟨false, .write⟩] ∧
      c.prog true = .done (.ok info) ∧ info.version = 1 ∧
      c.prog false = .done (.ok info') ∧ info'.version = 2 ∧
      (NoneLost "db" (versionOf s[secretKey "db"]?) c ↔
        Increment.Undisturbed (events.map (access "db"))) ∧
      (VersionRepeats c ↔ ¬ Increment.Undisturbed (events.map (access "db"))) := by
  obtain ⟨calls, s, g, hcalls, -, hnone, hg, hready⟩ := writers_ready
  let p (i : Bool) : Prog SecretMeta := .get (secretKey "db") fun prev => publish "db" (g i prev)
  obtain ⟨info, record, hfirst, hinfo, hversion⟩ := hg true (look s (.secret "db"))
    (by rw [hnone]; decide)
  have hone : info.version = 1 := by rw [hinfo, hnone]; rfl
  obtain ⟨info', record', hsecond, hinfo', -⟩ := hg false (some record)
    (by rw [hversion, hone]; decide)
  have htwo : info'.version = 2 := by rw [hinfo', hversion, hone]
  let write (info : SecretMeta) (r : Json) : Prog SecretMeta :=
    .put (secretKey "db") r (.done (.ok info))
  let t := place s (.secret "db") record
  have hreads := get_interleaved (b := memStore) (c := ⟨s, p⟩) (i := true) rfl
    (congrArg (publish "db") hfirst)
  let p₁ := Function.update p true (write info record)
  have hwrites := put_interleaved (b := memStore) (c := ⟨s, p₁⟩) (i := true)
    (k := secretKey "db") (v := record) (x := .done (.ok info)) rfl
  let p₂ := Function.update p₁ true (.done (.ok info))
  have hfound : g false (look t (.secret "db")) = .ok (info', record') := by
    rw [look_place, if_pos rfl, hsecond]
  have hreads' := get_interleaved (b := memStore) (c := ⟨t, p₂⟩) (i := false) rfl
    (congrArg (publish "db") hfound)
  let p₃ := Function.update p₂ false (write info' record')
  have hwrites' := put_interleaved (b := memStore) (c := ⟨t, p₃⟩) (i := false)
    (k := secretKey "db") (v := record') (x := .done (.ok info')) rfl
  have hrun := (((hready.snoc hreads).snoc hwrites).snoc hreads').snoc hwrites'
  refine ⟨s, _, _, info, info', hrun, ⟨calls, hcalls⟩, ?_, rfl, hone, rfl, htwo,
    noneLost_iff hrun ?_⟩
  · change List.map (access "db") [loads true, loads false, reads true, writes true record,
      reads false, writes false record'] = _
    simp only [List.map_cons, List.map_nil, access_loads, access_reads, access_writes]
  · simp [loads]

/-- Two devices that both read the secret before either writes it store two values under one
version. -/
theorem versions_repeat :
    ¬ ∀ (calls : List (Call .symbolic)) (s : OrdMap String Json) (events : List (RotateEvent Bool))
        (c : Rotations Bool), Run (called {laptop, phone} "home") ∅ calls s →
      (∀ i, s[deviceKey (writer i).device.id]? ≠ none) →
      Run (interleaved memStore)
        ⟨s, fun i => (writer i).putSecret noon "db" (draft i) "opaque"⟩ events c →
      (∀ e ∈ events, e.fate = .answered) → NoneLost "db" (versionOf s[secretKey "db"]?) c := by
  intro hclaim
  obtain ⟨calls, s, g, hcalls, henrolled, hnone, hg, hready⟩ := writers_ready
  let p (i : Bool) : Prog SecretMeta := .get (secretKey "db") fun prev => publish "db" (g i prev)
  have hfits : versionOf (look s (.secret "db")) + 1 < UInt64.size := by rw [hnone]; decide
  obtain ⟨info, record, hfirst, hinfo, -⟩ := hg true _ hfits
  obtain ⟨info', record', hsecond, hinfo', -⟩ := hg false _ hfits
  let write (info : SecretMeta) (r : Json) : Prog SecretMeta :=
    .put (secretKey "db") r (.done (.ok info))
  let p₁ := Function.update p true (write info record)
  let p₂ := Function.update p₁ false (write info' record')
  have hreads := get_interleaved (b := memStore) (c := ⟨s, p⟩) (i := true) rfl
    (congrArg (publish "db") hfirst)
  have hreads' := get_interleaved (b := memStore) (c := ⟨s, p₁⟩) (i := false) rfl
    (congrArg (publish "db") hsecond)
  have hwrites := put_interleaved (b := memStore) (c := ⟨s, p₂⟩) (i := true)
    (k := secretKey "db") (v := record) (x := .done (.ok info)) rfl
  have hwrites' := put_interleaved (b := memStore) (i := false)
    (c := ⟨place s (.secret "db") record, Function.update p₂ true (.done (.ok info))⟩)
    (k := secretKey "db") (v := record') (x := .done (.ok info')) rfl
  have hrun := (((hready.snoc hreads).snoc hreads').snoc hwrites).snoc hwrites'
  have hnoneLost := hclaim calls s _ _ hcalls henrolled hrun (by simp [loads])
  have hsame := hnoneLost.distinct true false info info' rfl rfl (hinfo.trans hinfo'.symm)
  cases hsame

end CeIam.Vault
