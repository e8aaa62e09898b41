import CeIam.Library.StoreProg
import CeIam.Model.AuthKv

/-! # The vault store behind the mesh

A store whose calls are requests to the server of its namespace, sent as JSON and answered as
JSON. -/

namespace CeIam

/-- The store, with the chain that it attaches to every request. -/
structure MeshKvStore where
  caps : Option String

/-- Carries the bytes of a request to the serving node, and the bytes of the reply back. A
failed exchange has its own message. -/
abbrev Mesh (σ : Type) := ByteArray → σ → Except String ByteArray × σ

namespace MeshKvStore

def withCaps (store : MeshKvStore) (caps : String) : MeshKvStore :=
  { store with caps := if Text.trim caps = "" then none else some caps }

def attach (store : MeshKvStore) (request : List (String × Json)) : Json :=
  Json.ofFields (request ++ (store.caps.map fun caps => ("caps", .str caps)).toList)

/-! ## Requests -/

variable {σ : Type} (parse : ByteArray → Except String Json) (mesh : Mesh σ)
  (store : MeshKvStore)

/-- Sends one request and reads the reply; `parse` reads a JSON value from its text. -/
def call (request : List (String × Json)) (s : σ) : Except String Json × σ :=
  let request := store.attach request
  let op := ((request.field "op").bind Json.asStr).getD "?"
  let (reply, s) := mesh request.compact.toUTF8 s
  (do
    let out ← (parse (← reply)).mapError fun _ => "parse kv reply"
    match (out.field "error").bind Json.asStr with
    | some e => .error ("mesh kv " ++ op ++ ": " ++ e)
    | none => .ok out, s)

def readValue (out : Json) : Option Json :=
  match out.field "value" with
  | some .null => none
  | none => none
  | some v => some v

def readItems (out : Json) : List (String × Json) :=
  (((out.field "items").bind Json.asArray).getD []).filterMap fun e => do
    let key ← (← e.field "key").asStr
    return (key, (e.field "value").getD .null)

def get (key : String) (s : σ) : Except String (Option Json) × σ :=
  let (r, s) := store.call parse mesh [("op", .str "get"), ("key", .str key)] s
  (r.map readValue, s)

def put (key : String) (value : Json) (s : σ) : Except String Unit × σ :=
  let (r, s) :=
    store.call parse mesh [("op", .str "put"), ("key", .str key), ("value", value)] s
  (r.map fun _ => (), s)

def del (key : String) (s : σ) : Except String Unit × σ :=
  let (r, s) := store.call parse mesh [("op", .str "del"), ("key", .str key)] s
  (r.map fun _ => (), s)

def list (pfx : String) (s : σ) : Except String (List (String × Json)) × σ :=
  let (r, s) :=
    store.call parse mesh [("op", .str "list"), ("prefix", .str pfx), ("limit", .int 1000)] s
  (r.map readItems, s)

/-- The store as the vault uses it. -/
def backend : StoreProg.FallibleBackend σ String Json String where
  get := store.get parse mesh
  put := store.put parse mesh
  del := store.del parse mesh
  list := store.list parse mesh

end MeshKvStore

end CeIam
