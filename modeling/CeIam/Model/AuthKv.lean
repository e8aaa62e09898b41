import CeIam.Model.Audit
import CeIam.Model.Iam

/-! # The authenticated key-value server

One map of JSON records, served to the local node and to remote peers. Records whose
key marks them as sensitive are gated by capabilities. -/

namespace CeIam

def abilityKvWrite : String := "kv:write"

def abilityKvRead : String := "kv:read"

/-- Secrets, device records, grants and the vault's own record. -/
def isSensitiveKey (key : String) : Bool :=
  key = "meta" || Text.startsWith key "s." || Text.startsWith key "d." || Text.startsWith key "g."

inductive KvOp where
  | put (key : String) (value : Json)
  | del (key : String)
deriving DecidableEq

def KvOp.apply (op : KvOp) (m : OrdMap String Json) : OrdMap String Json :=
  match op with
  | .put key value => m.insert key value
  | .del key => m.erase key

inductive KvReq where
  | get (key caps : String)
  | put (key : String) (value : Json) (caps : String)
  | del (key caps : String)
  | list (pfx : String) (limit : ℕ) (caps : String)
deriving DecidableEq

def KvReq.caps : KvReq → String
  | .get _ caps => caps
  | .put _ _ caps => caps
  | .del _ caps => caps
  | .list _ _ caps => caps

/-- What became of an operation handed to the replicated log. A failed call may still have
reached the log. -/
inductive Proposal where
  | applied
  | failed (error : String) (reached : Bool)
deriving DecidableEq

/-- What a request meets outside the server: the two readings of the clock, and the
replicated log. -/
structure Ambient where
  now : UInt64
  recordedAt : UInt64
  propose : KvOp → Proposal

def parseNodeId (text : String) : Option NodeId := do
  let bytes ← Hex.decode (Text.trim text)
  if h : bytes.length = 32 then some ⟨bytes, h⟩ else none

/-- The configuration of a server. -/
structure AuthKv where
  ns : String
  selfIdHex : String
  selfId : NodeId
  iam : Iam
  enforceWrite : Bool
  enforceRead : Bool
  isRevoked : NodeId → UInt64 → Bool
  selfParsed : parseNodeId selfIdHex = some selfId

/-- The replicated map and the audit. -/
structure KvState where
  m : OrdMap String Json
  audit : Audit

namespace AuthKv

variable (cc : CeCap) (kv : AuthKv) (env : Ambient)

/-! ## Decisions -/

def authorize (sender caps ability : String) : Except String Unit :=
  match Principal.parse sender with
  | .error _ => .error ("sender " ++ sender ++ " is not a verifiable node id")
  | .ok requester =>
      (kv.iam.verify cc kv.selfId [] env.now requester ability caps kv.isRevoked).mapError
        IamError.display

/-- The writer node is always allowed, and everyone is while the gate is not enforced. -/
def gate (enforced : Bool) (ability sender caps : String) : Except String Unit :=
  if sender = kv.selfIdHex then .ok ()
  else if !enforced then .ok ()
  else kv.authorize cc env sender caps ability

def writeAllowed (sender caps : String) : Except String Unit :=
  kv.gate cc env kv.enforceWrite abilityKvWrite sender caps

def readAllowed (sender caps : String) : Except String Unit :=
  kv.gate cc env kv.enforceRead abilityKvRead sender caps

/-! ## Requests -/

def record (sender : String) (action : Action) (target : String) (allowed : Bool)
    (s : KvState) : KvState :=
  { s with audit := s.audit.record env.recordedAt sender action target allowed }

def errorReply (message : String) : Json := .obj [("error", .str message)]

def propose (op : KvOp) (failure : String) (s : KvState) : Json × KvState :=
  match env.propose op with
  | .applied => (.obj [("ok", .bool true)], { s with m := op.apply s.m })
  | .failed e reached =>
      (errorReply (failure ++ e), if reached then { s with m := op.apply s.m } else s)

/-- A put or a delete: the gate is asked for every key, the audit only told of sensitive
ones when it opens. -/
def mutate (op : KvOp) (key : String) (action : Action) (denial failure : String)
    (sender caps : String) (s : KvState) : Json × KvState :=
  match kv.writeAllowed cc env sender caps with
  | .error reason => (errorReply (denial ++ reason), record env sender action key false s)
  | .ok () =>
      propose env op failure
        (if isSensitiveKey key then record env sender action key true s else s)

def handlePut (sender key : String) (value : Json) (caps : String) (s : KvState) :
    Json × KvState :=
  kv.mutate cc env (.put key value) key .kvWrite "kv write denied: " "put failed: " sender caps s

def handleDel (sender key caps : String) (s : KvState) : Json × KvState :=
  kv.mutate cc env (.del key) key .kvDelete "kv delete denied: " "del failed: " sender caps s

def valueReply (m : OrdMap String Json) (key : String) : Json :=
  .obj [("value", (m[key]?).getD .null)]

def handleGet (sender key caps : String) (s : KvState) : Json × KvState :=
  if isSensitiveKey key then
    match kv.readAllowed cc env sender caps with
    | .error reason =>
        (errorReply ("kv read denied: " ++ reason), record env sender .kvRead key false s)
    | .ok () => (valueReply s.m key, record env sender .kvRead key true s)
  else (valueReply s.m key, s)

/-- Whether a list is gated like a read of a sensitive record. -/
def touchesSensitive (pfx : String) : Bool := pfx = "" || isSensitiveKey pfx

def itemsReply (m : OrdMap String Json) (pfx : String) (limit : ℕ) : Json :=
  let cap := if limit = 0 then 1000 else limit
  let items := (m.toList.filter (fun e => Text.startsWith e.1 pfx)).take cap
  .obj [("items", .arr (items.map fun e => .obj [("key", .str e.1), ("value", e.2)]))]

def handleList (sender pfx : String) (limit : ℕ) (caps : String) (s : KvState) :
    Json × KvState :=
  if touchesSensitive pfx then
    match kv.readAllowed cc env sender caps with
    | .error reason =>
        (errorReply ("kv list denied: " ++ reason),
          record env sender .kvRead (pfx ++ "*") false s)
    | .ok () => (itemsReply s.m pfx limit, s)
  else (itemsReply s.m pfx limit, s)

def enc (reply : Json) : ByteArray := reply.compact.toUTF8

/-- One request: the reply bytes and the state it leaves. `decode` reads the payload. -/
def handleRequest (decode : ByteArray → Except String KvReq) (sender : String)
    (payload : ByteArray) (s : KvState) : ByteArray × KvState :=
  let (reply, s') :=
    match decode payload with
    | .error e => (errorReply ("bad kv request: " ++ e), s)
    | .ok (.get key caps) => kv.handleGet cc env sender key caps s
    | .ok (.put key value caps) => kv.handlePut cc env sender key value caps s
    | .ok (.del key caps) => kv.handleDel cc env sender key caps s
    | .ok (.list pfx limit caps) => kv.handleList cc env sender pfx limit caps s
  (enc reply, s')

end AuthKv

end CeIam
