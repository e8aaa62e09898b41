import CeIam.Model.Iam

/-! # The catalog of roles and policies

Named roles and policies, the roles attached to each principal, and an audit trail,
all evolved by a log of operations. -/

namespace CeIam

def maxAuditEntries : ℕ := 10000

inductive CatalogOp where
  | putRole (role : Role)
  | removeRole (name : String)
  | putPolicy (name : String) (policy : Policy)
  | removePolicy (name : String)
  | attachRole (principal : Principal) (role : String)
  | detachRole (principal : Principal) (role : String)
deriving DecidableEq

namespace CatalogOp

def auditAction : CatalogOp → String
  | .putRole _ => "put_role"
  | .removeRole _ => "remove_role"
  | .putPolicy _ _ => "put_policy"
  | .removePolicy _ => "remove_policy"
  | .attachRole _ _ => "attach_role"
  | .detachRole _ _ => "detach_role"

def auditTarget : CatalogOp → String
  | .putRole r => r.name
  | .removeRole name => name
  | .putPolicy name _ => name
  | .removePolicy name => name
  | .attachRole principal role => role ++ "@" ++ principal.hex
  | .detachRole principal role => role ++ "@" ++ principal.hex

def toJson : CatalogOp → Json
  | .putRole r => .obj [("PutRole", r.toJson)]
  | .removeRole name => .obj [("RemoveRole", .str name)]
  | .putPolicy name policy =>
      .obj [("PutPolicy", .obj [("name", .str name), ("policy", policy.toJson)])]
  | .removePolicy name => .obj [("RemovePolicy", .str name)]
  | .attachRole principal role =>
      .obj [("AttachRole", .obj [("principal", .str principal.hex), ("role", .str role)])]
  | .detachRole principal role =>
      .obj [("DetachRole", .obj [("principal", .str principal.hex), ("role", .str role)])]

end CatalogOp

structure AuditEntry where
  -- A version counts operations: a word of 64 bits in the source, which fewer than 2 ^ 64 of them
  -- do not fill.
  version : ℕ
  action : String
  target : String
  actor : Option String
deriving DecidableEq

/-- The abilities a principal would receive for one scope, and the roles they come from. -/
structure EffectiveGrant where
  abilities : List String
  resource : ResourceMatch
  conditions : Conditions
  fromRoles : List String
deriving DecidableEq

structure Catalog where
  roles : OrdMap String Role
  policies : OrdMap String Policy
  attachments : OrdMap String (List String)
  -- As in an audit entry, for fewer than 2 ^ 64 operations.
  version : ℕ
  audit : List AuditEntry

namespace Catalog

def new : Catalog := ⟨∅, ∅, ∅, 0, []⟩

/-! ## Applying an operation -/

/-- Removes a name from every attachment, and the attachments that are left empty. -/
def detachEverywhere (name : String) (attachments : OrdMap String (List String)) :
    OrdMap String (List String) :=
  (attachments.map (fun _ roles => roles.filter (· ≠ name))).filter (fun _ roles => roles ≠ [])

def attach (key role : String) (attachments : OrdMap String (List String)) :
    OrdMap String (List String) :=
  let entry := (attachments[key]?).getD []
  attachments.insert key
    (if role ∈ entry then entry else (entry ++ [role]).insertionSort (· ≤ ·))

def detach (key role : String) (attachments : OrdMap String (List String)) :
    OrdMap String (List String) :=
  match attachments[key]? with
  | none => attachments
  | some entry =>
      let entry := entry.filter (· ≠ role)
      if entry = [] then attachments.erase key else attachments.insert key entry

/-- The effect of an operation on roles, policies and attachments. -/
def update (c : Catalog) : CatalogOp → Catalog
  | .putRole r => { c with roles := c.roles.insert r.name r }
  | .removeRole name =>
      { c with
        roles := c.roles.erase name
        attachments := detachEverywhere name c.attachments }
  | .putPolicy name policy => { c with policies := c.policies.insert name policy }
  | .removePolicy name => { c with policies := c.policies.erase name }
  | .attachRole principal role =>
      { c with attachments := attach principal.hex role c.attachments }
  | .detachRole principal role =>
      { c with attachments := detach principal.hex role c.attachments }

/-- The next version, with one more audit line; the oldest lines past the bound are dropped. -/
def advance (c : Catalog) (op : CatalogOp) (actor : Option Principal) : Catalog :=
  let entry : AuditEntry :=
    ⟨c.version + 1, op.auditAction, op.auditTarget, actor.map Principal.hex⟩
  let audit := c.audit ++ [entry]
  { c with
    version := c.version + 1
    audit := audit.drop (audit.length - maxAuditEntries) }

def apply (c : Catalog) (op : CatalogOp) (actor : Option Principal) : Catalog :=
  (c.update op).advance op actor

/-! ## Reading -/

def getRole (c : Catalog) (name : String) : Option Role := c.roles[name]?

def getPolicy (c : Catalog) (name : String) : Option Policy := c.policies[name]?

def listRoles (c : Catalog) : List String := c.roles.keys

def listPolicies (c : Catalog) : List String := c.policies.keys

def rolesFor (c : Catalog) (principal : Principal) : List String :=
  (c.attachments[principal.hex]?).getD []

/-- Every attached role with its principal; a key that is no principal is skipped. -/
def allAttachments (c : Catalog) : List (Principal × String) :=
  c.attachments.toList.flatMap fun (hex, roles) =>
    match Principal.parse hex with
    | .ok p => roles.map (fun r => (p, r))
    | .error _ => []

/-- The scopes of a principal's roles while they are being collected. -/
structure ScopeRoles where
  resource : ResourceMatch
  conditions : Conditions
  actions : List String
  roles : List String

/-- Adds one statement of a role to the group of its scope. -/
def addStatement (roleName : String) (groups : OrdMap String ScopeRoles) (stmt : Statement) :
    Except IamError (OrdMap String ScopeRoles) :=
  if stmt.effect ≠ .allow then .ok groups
  else if stmt.actions = [] then
    .error (.badPolicy ("role '" ++ roleName ++ "' has an Allow statement with no actions"))
  else
    let key := Iam.scopeKey stmt
    let group := (groups[key]?).getD ⟨stmt.resource, stmt.conditions, [], []⟩
    .ok (groups.insert key
      { group with
        actions := group.actions ++ stmt.actions
        roles := if roleName ∈ group.roles then group.roles else group.roles ++ [roleName] })

def addRole (c : Catalog) (groups : OrdMap String ScopeRoles) (roleName : String) :
    Except IamError (OrdMap String ScopeRoles) :=
  match c.roles[roleName]? with
  | none =>
      .error (.badPolicy ("attached role '" ++ roleName ++ "' is missing from the catalog"))
  | some role => role.policy.statements.foldlM (addStatement roleName) groups

/-- The capabilities minting from the attached roles would issue, one for each scope. -/
def effectiveGrants (c : Catalog) (principal : Principal) :
    Except IamError (List EffectiveGrant) := do
  let groups ← (c.rolesFor principal).foldlM c.addRole ∅
  return groups.toList.map fun (_, g) =>
    ⟨sortDedup g.actions, g.resource, g.conditions, sortDedup g.roles⟩

def auditSince (c : Catalog) (after : ℕ) : List AuditEntry :=
  c.audit.filter (fun e => after < e.version)

end Catalog

/-! ## The log -/

/-- The operations in order, each with the rendered identity of its author. -/
structure CatalogLog where
  entries : List (CatalogOp × Option String)
deriving DecidableEq

namespace CatalogLog

def new : CatalogLog := ⟨[]⟩

def record (log : CatalogLog) (op : CatalogOp) (actor : Option Principal) : CatalogLog :=
  ⟨log.entries ++ [(op, actor.map Principal.hex)]⟩

def len (log : CatalogLog) : ℕ := log.entries.length

/-- Applies one entry; an author that does not parse is dropped. -/
def applyEntry (c : Catalog) (entry : CatalogOp × Option String) : Catalog :=
  c.apply entry.1 (entry.2.bind fun hex => (Principal.parse hex).toOption)

def replayThrough (log : CatalogLog) (upto : ℕ) : Catalog :=
  (log.entries.take upto).foldl applyEntry .new

def replay (log : CatalogLog) : Catalog := log.replayThrough log.len

def toJson (log : CatalogLog) : Json :=
  .obj [("entries", .arr (log.entries.map fun (op, actor) =>
    .arr [op.toJson, (actor.map Json.str).getD .null]))]

end CatalogLog

end CeIam
