import CeIam.Model.Catalog

/-! # The durable catalog

The log is kept on disk, replaced as a whole by an atomic write, and replayed when the
store is opened. -/

namespace CeIam

def maxStoreBytes : ℕ := 64 * 1024 * 1024

def maxCatalogOps : ℕ := 100000

/-- The text of a file, if there is one. -/
abbrev Disk := Option String

/-- An atomic write; a failed one leaves the file as it was. -/
def atomicWriteJson (value : Json) (outcome : Except String Unit) (disk : Disk) :
    Except IamError Unit × Disk :=
  match outcome with
  | .ok () => (.ok (), some value.pretty)
  | .error e => (.error (.node e), disk)

/-- Reads a file; a missing one is the default, an oversized one is refused. -/
def loadJsonOrDefault {α : Type} (default : α) (parse : String → Except String α)
    (path : String) (disk : Disk) : Except IamError α :=
  match disk with
  | none => .ok default
  | some text =>
      if text.utf8ByteSize > maxStoreBytes then
        .error (.node ("store " ++ path ++ " is " ++ toString text.utf8ByteSize ++
          " bytes, exceeding the " ++ toString maxStoreBytes ++ "-byte limit"))
      else (parse text).mapError fun e => .node ("parsing " ++ path ++ ": " ++ e)

structure CatalogStore where
  path : String
  log : CatalogLog
  catalog : Catalog

namespace CatalogStore

/-- Opens the store over a file; `parse` reads a log back from its text. -/
def openStore (parse : String → Except String CatalogLog) (path : String) (disk : Disk) :
    Except IamError CatalogStore := do
  let log ← loadJsonOrDefault .new parse path disk
  Outcome.ensure (log.len ≤ maxCatalogOps)
    (.node ("catalog op-log at " ++ path ++ " has " ++ toString log.len ++
      " ops, exceeding the " ++ toString maxCatalogOps ++ " limit"))
  return ⟨path, log, log.replay⟩

def opCount (s : CatalogStore) : ℕ := s.log.len

def validate (s : CatalogStore) : CatalogOp → Except IamError Unit
  | .putRole r =>
      if Text.trim r.name = "" then .error (.badPolicy "role name must not be empty") else .ok ()
  | .putPolicy name _ =>
      if Text.trim name = "" then .error (.badPolicy "policy name must not be empty") else .ok ()
  | .attachRole _ role =>
      if s.catalog.getRole role = none then
        .error (.badPolicy ("no such role '" ++ role ++ "' to attach"))
      else .ok ()
  | _ => .ok ()

/-- Writes the log first; memory follows only when the write succeeds. -/
def apply (outcome : Except String Unit) (op : CatalogOp) (actor : Option Principal)
    (s : CatalogStore) (disk : Disk) : Except IamError Unit × CatalogStore × Disk :=
  if s.log.len ≥ maxCatalogOps then
    (.error (.node ("catalog op-log is full (" ++ toString maxCatalogOps ++
      " ops); compact before writing more")), s, disk)
  else
    match s.validate op with
    | .error e => (.error e, s, disk)
    | .ok () =>
        let next := s.log.record op actor
        match atomicWriteJson next.toJson outcome disk with
        | (.error e, disk) => (.error e, s, disk)
        | (.ok (), disk) =>
            (.ok (), { s with log := next, catalog := s.catalog.apply op actor }, disk)

/-- One operation for each surviving role and policy, then one for each attachment. -/
def compactedOps (c : Catalog) : List CatalogOp :=
  c.listRoles.filterMap (fun name => (c.getRole name).map .putRole) ++
    c.listPolicies.filterMap (fun name => (c.getPolicy name).map (.putPolicy name)) ++
    c.allAttachments.map (fun (p, role) => .attachRole p role)

def compactedLog (c : Catalog) : CatalogLog :=
  (compactedOps c).foldl (fun log op => log.record op none) .new

def compact (outcome : Except String Unit) (s : CatalogStore) (disk : Disk) :
    Except IamError Unit × CatalogStore × Disk :=
  let log := compactedLog s.catalog
  match atomicWriteJson log.toJson outcome disk with
  | (.error e, disk) => (.error e, s, disk)
  | (.ok (), disk) => (.ok (), { s with log := log, catalog := log.replay }, disk)

end CatalogStore

end CeIam
