import CeIam.Verification.Catalog.Encoding
import CeIam.Verification.Catalog.Invariants

/-! # The catalog, its log and its file

Whatever calls succeed or fail, the live catalog is the replay of the log in memory, and
the file, once there is one, holds that log. -/

namespace CeIam

/-! ## Replaying -/

namespace CatalogLog

theorem replay_eq (log : CatalogLog) : log.replay = log.entries.foldl applyEntry .new := by
  rw [replay, replayThrough, len, List.take_length]

/-- An author survives being rendered and parsed. -/
theorem applyEntry_record (c : Catalog) (op : CatalogOp) (actor : Option Principal) :
    applyEntry c (op, actor.map Principal.hex) = c.apply op actor := by
  cases actor <;> simp [applyEntry, Except.toOption]

theorem replay_record (log : CatalogLog) (op : CatalogOp) (actor : Option Principal) :
    (log.record op actor).replay = log.replay.apply op actor := by
  rw [replay_eq, replay_eq, record, List.foldl_append]
  exact applyEntry_record _ op actor

end CatalogLog

namespace CatalogStore

/-! ## Calls of the store -/

/-- A store with the file it is kept in. -/
abbrev Stored := CatalogStore × Disk

/-- A mutating call, with what becomes of the write it makes. -/
inductive Call where
  | apply (op : CatalogOp) (actor : Option Principal) (outcome : Except String Unit)
  | compact (outcome : Except String Unit)

def call (s : Stored) : Call → Except IamError Unit × Stored
  | .apply op actor outcome => s.1.apply outcome op actor s.2
  | .compact outcome => s.1.compact outcome s.2

/-- One call, successful or not. -/
def called (s : Stored) (c : Call) (t : Stored) : Prop := (call s c).2 = t

/-- One call that returns `Ok`. -/
def succeeds (s : Stored) (c : Call) (t : Stored) : Prop := call s c = (.ok (), t)

theorem validate_eq_ok {s : CatalogStore} {op : CatalogOp} :
    s.validate op = .ok () ↔ s.catalog.Valid op := by
  cases op with
  | putRole r => by_cases h : Text.trim r.name = "" <;> simp [validate, Catalog.Valid, h]
  | putPolicy name policy => by_cases h : Text.trim name = "" <;> simp [validate, Catalog.Valid, h]
  | attachRole p role =>
      cases h : s.catalog.roles[role]? <;> simp [validate, Catalog.Valid, Catalog.getRole, h]
  | removeRole name => simp [validate, Catalog.Valid]
  | removePolicy name => simp [validate, Catalog.Valid]
  | detachRole p role => simp [validate, Catalog.Valid]

/-- The state after a successful `apply`. -/
def applied (op : CatalogOp) (actor : Option Principal) (s : CatalogStore) : Stored :=
  ({ s with log := s.log.record op actor, catalog := s.catalog.apply op actor },
    some (s.log.record op actor).toJson.pretty)

/-- The state after a successful `compact`. -/
def compacted (s : CatalogStore) : Stored :=
  ({ s with log := compactedLog s.catalog, catalog := (compactedLog s.catalog).replay },
    some (compactedLog s.catalog).toJson.pretty)

/-- A call either fails and changes nothing, or passes every check and does its work. -/
theorem call_cases (s : Stored) (c : Call) :
    (∃ e, call s c = (.error e, s)) ∨
    (∃ op actor, c = .apply op actor (.ok ()) ∧ s.1.log.len < maxCatalogOps ∧
      s.1.catalog.Valid op ∧ call s c = (.ok (), applied op actor s.1)) ∨
    (c = .compact (.ok ()) ∧ call s c = (.ok (), compacted s.1)) := by
  obtain ⟨store, disk⟩ := s
  cases c with
  | apply op actor outcome =>
      simp only [call, CatalogStore.apply]
      split
      · exact .inl ⟨_, rfl⟩
      · next hlen =>
          cases hvalid : store.validate op with
          | error e => exact .inl ⟨e, rfl⟩
          | ok u =>
              cases outcome with
              | error e => exact .inl ⟨_, rfl⟩
              | ok u =>
                  exact .inr (.inl ⟨op, actor, rfl, not_le.mp hlen, validate_eq_ok.mp hvalid, rfl⟩)
  | compact outcome =>
      cases outcome with
      | error e => exact .inl ⟨_, rfl⟩
      | ok u => exact .inr (.inr ⟨rfl, rfl⟩)

/-- A call that returns an error leaves the store and its file alone. -/
theorem call_error {s : Stored} {c : Call} {e : IamError} (h : (call s c).1 = .error e) :
    (call s c).2 = s := by
  rcases call_cases s c with ⟨e', he⟩ | ⟨op, actor, -, -, -, hok⟩ | ⟨-, hok⟩
  · rw [he]
  · rw [hok] at h
    cases h
  · rw [hok] at h
    cases h

/-! ## Coherence -/

/-- The catalog is the replay of the log, and the file holds the log once it exists. -/
structure Coherent (s : Stored) : Prop where
  live : s.1.catalog = s.1.log.replay
  stored : (s.2 = none ∧ s.1.log = .new) ∨ s.2 = some s.1.log.toJson.pretty

theorem Coherent.call {s t : Stored} {c : Call} (h : Coherent s) (hstep : called s c t) :
    Coherent t := by
  subst hstep
  rcases call_cases s c with ⟨e, he⟩ | ⟨op, actor, -, -, -, hok⟩ | ⟨-, hok⟩
  · rw [he]
    exact h
  · rw [hok]
    refine ⟨?_, .inr rfl⟩
    simp only [applied, CatalogLog.replay_record, h.live]
  · rw [hok]
    exact ⟨rfl, .inr rfl⟩

theorem openStore_missing {parse : String → Except String CatalogLog} {path : String}
    {s : CatalogStore} (h : openStore parse path none = .ok s) :
    s = ⟨path, .new, .new⟩ := by
  obtain ⟨log, hlog, h⟩ := Outcome.bind_eq_ok.mp h
  obtain ⟨-, -, h⟩ := Outcome.bind_eq_ok.mp h
  cases hlog
  exact (Except.ok.inj h).symm

theorem openStore_of_load {parse : String → Except String CatalogLog} {path : String}
    {disk : Disk} {log : CatalogLog} (hload : loadJsonOrDefault .new parse path disk = .ok log)
    (hfits : log.len ≤ maxCatalogOps) :
    openStore parse path disk = .ok ⟨path, log, log.replay⟩ := by
  rw [openStore, hload]
  exact Outcome.bind_eq_ok.mpr ⟨log, rfl, Outcome.bind_eq_ok.mpr ⟨⟨⟩, by simpa using hfits, rfl⟩⟩

theorem coherent_new (path : String) : Coherent (⟨path, .new, .new⟩, none) :=
  ⟨rfl, .inl ⟨rfl, rfl⟩⟩

/-- After any calls on a store opened over a missing file, the catalog is the replay of the
log, the file reads back as the log once anything was written, and a call that fails
changes neither. -/
theorem coherent_after_calls {parse : String → Except String CatalogLog}
    (reads : ∀ log : CatalogLog, parse log.toJson.pretty = .ok log) {path : String}
    {store : CatalogStore} (hopen : openStore parse path none = .ok store) {calls : List Call}
    {s : Stored} (hrun : Run called (store, none) calls s) :
    s.1.catalog = s.1.log.replay ∧
      ((s.2 = none ∧ s.1.log = .new) ∨ ∃ text, s.2 = some text ∧ parse text = .ok s.1.log) ∧
      ∀ c e, (call s c).1 = .error e → (call s c).2 = s := by
  rw [openStore_missing hopen] at hrun
  have h := hrun.invariant (fun _ _ _ => Coherent.call) (coherent_new path)
  refine ⟨h.live, ?_, fun _ _ => call_error⟩
  rcases h.stored with hnone | hsome
  · exact .inl hnone
  · exact .inr ⟨_, hsome, reads _⟩

/-- Reads back exactly the logs that were printed. -/
noncomputable def readLog : String → Except String CatalogLog :=
  Outcome.readBack fun log => log.toJson.pretty

theorem readLog_pretty (log : CatalogLog) : readLog log.toJson.pretty = .ok log :=
  Outcome.readBack_print (f := fun log : CatalogLog => log.toJson.pretty)
    (fun _ _ h => CatalogLog.toJson_injective (Json.pretty_injective h)) log

/-- A rejected operation, a failed write and a successful one. -/
def mixedCalls : List Call :=
  [.apply (.putRole ⟨" ", none, .allow [] .any .default⟩) none (.ok ()),
    .apply (.removeRole "ops") none (.error "no space"),
    .apply (.removeRole "ops") none (.ok ())]

theorem coherent_after_mixed_calls :
    ∃ s : Stored, Run called (⟨"catalog.json", .new, .new⟩, none) mixedCalls s ∧
      s.1.log.len = 1 ∧ s.1.catalog = s.1.log.replay := by
  have hcall : ∀ s c, called s c (call s c).2 := fun _ _ => rfl
  have hrun := Run.foldl hcall (⟨"catalog.json", .new, .new⟩, none) mixedCalls
  exact ⟨_, hrun, rfl, (coherent_after_calls readLog_pretty rfl hrun).1⟩

end CatalogStore

end CeIam
