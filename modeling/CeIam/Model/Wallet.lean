import CeIam.Model.Store

/-! # The wallet of held grants -/

namespace CeIam

def maxWalletEntries : ℕ := 10000

def maxTokenBytes : ℕ := 256 * 1024

def maxLabelLen : ℕ := 256

structure WalletEntry where
  label : String
  token : String
  addedAt : UInt64
  note : Option String
deriving DecidableEq

def WalletEntry.toJson (e : WalletEntry) : Json :=
  .obj ([("label", .str e.label), ("token", .str e.token), ("added_at", .int e.addedAt.toNat)] ++
    optionalField "note" .str e.note)

structure WalletStore where
  entries : OrdMap String WalletEntry
  path : Option String

namespace WalletStore

/-- The file holds the entries; the path is not stored. -/
def entriesJson (entries : OrdMap String WalletEntry) : Json :=
  .obj [("entries", .obj (entries.toList.map fun e => (e.1, e.2.toJson)))]

/-- Opens the wallet over a file; `parse` reads the entries back from its text. -/
def openWallet (parse : String → Except String (OrdMap String WalletEntry)) (path : String)
    (disk : Disk) : Except IamError WalletStore := do
  let entries ← loadJsonOrDefault ∅ parse path disk
  return ⟨entries, some path⟩

def inMemory : WalletStore := ⟨∅, none⟩

/-- Writes the wallet, unless it has no file. -/
def save (outcome : Except String Unit) (w : WalletStore) (disk : Disk) :
    Except IamError Unit × Disk :=
  match w.path with
  | some _ => atomicWriteJson (entriesJson w.entries) outcome disk
  | none => (.ok (), disk)

/-- The checks a new entry has to pass. -/
def check (cc : CeCap) (iam : Iam) (label token : String) (w : WalletStore) :
    Except IamError Unit := do
  Outcome.ensure (Text.trim label ≠ "") (.badPolicy "wallet label must not be empty")
  Outcome.ensure (label.utf8ByteSize ≤ maxLabelLen)
    (.badPolicy ("wallet label exceeds " ++ toString maxLabelLen ++ " bytes"))
  Outcome.ensure (token.utf8ByteSize ≤ maxTokenBytes)
    (.badPolicy ("token exceeds the " ++ toString maxTokenBytes ++ "-byte wallet limit"))
  Outcome.ensure (w.entries[label]? = none)
    (.badPolicy ("wallet already has a grant labeled '" ++ label ++
      "' (remove it first to replace)"))
  Outcome.ensure (w.entries.size < maxWalletEntries)
    (.badPolicy ("wallet is full (" ++ toString maxWalletEntries ++ " entries)"))
  let _ ← iam.decode cc token

/-- Adds an entry and then saves; a failed save does not take the entry back. -/
def add (cc : CeCap) (iam : Iam) (label token : String) (note : Option String) (now : UInt64)
    (outcome : Except String Unit) (w : WalletStore) (disk : Disk) :
    Except IamError Unit × WalletStore × Disk :=
  match w.check cc iam label token with
  | .error e => (.error e, w, disk)
  | .ok () =>
      let next := { w with entries := w.entries.insert label ⟨label, token, now, note⟩ }
      let (result, disk) := next.save outcome disk
      (result, next, disk)

def get (w : WalletStore) (label : String) : Option WalletEntry := w.entries[label]?

def token (w : WalletStore) (label : String) : Option String := (w.get label).map (·.token)

/-- Removes an entry; the file is only written when there was one. -/
def remove (label : String) (outcome : Except String Unit) (w : WalletStore) (disk : Disk) :
    Except IamError Bool × WalletStore × Disk :=
  let next := { w with entries := w.entries.erase label }
  if (w.get label).isSome then
    let (result, disk) := next.save outcome disk
    (result.map fun _ => true, next, disk)
  else (.ok false, next, disk)

end WalletStore

end CeIam
