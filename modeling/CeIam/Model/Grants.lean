import CeIam.Model.Commands

/-! # The commands that issue grants and author policies

A grant is minted from the flags of the command or from a role of the catalog, or it narrows a
grant that the identity of the machine holds. -/

namespace CeIam

/-- The abilities that the published products understand. -/
def ceCloudActions : List String :=
  ["storage:read", "storage:write", "storage:list", "storage:delete", "db:read", "db:write",
    "db:admin", "run:deploy", "run:invoke", "run:kill", "drive:read", "drive:write", "drive:share",
    "exec", "sync", "tunnel"]

def simplePolicy (actions : List String) (resource : ResourceMatch) (conditions : Conditions) :
    Policy :=
  .allow actions resource conditions

/-- A root grant from a role that the catalog holds. -/
def Iam.mintRole (cc : CeCap) (iam : Iam) (issuer : cc.Identity) (audience : Principal)
    (catalog : Catalog) (role : String) (nonce : UInt64) : Except IamError Grant := do
  let r ← Outcome.require (.badPolicy ("no such role '" ++ role ++ "' in catalog"))
    (catalog.getRole role)
  iam.mint cc issuer audience r.policy nonce

namespace Cli

/-- The service that every command starts from. -/
def iamService : Iam := Iam.default.withActionUniverse ceCloudActions

/-! ## Grants -/

/-- The flags that make the conditions of a grant; times are in seconds from now, and 0 is none. -/
structure ConditionArgs where
  expiresIn : UInt64
  activatesIn : UInt64
  maxCpu : Option UInt32
  maxMemMb : Option UInt32
  maxCredits : Option UInt64
  allowedPorts : List UInt16
  pathPrefix : Option String

def buildConditions (now : UInt64) (c : ConditionArgs) : Conditions where
  notAfter := if c.expiresIn = 0 then none else some (saturatingAdd now c.expiresIn)
  notBefore := if c.activatesIn = 0 then none else some (saturatingAdd now c.activatesIn)
  maxCpu := c.maxCpu
  maxMemMb := c.maxMemMb
  maxCredits := c.maxCredits
  allowedPorts := if c.allowedPorts = [] then none else some c.allowedPorts
  pathPrefix := c.pathPrefix

structure GrantArgs where
  audience : String
  actions : List String
  resource : String
  conditions : ConditionArgs
  nonce : UInt64
  parent : Option String
  role : Option String
  json : Bool

/-- The token, with the scope it shows when the output is JSON. -/
structure GrantReply where
  token : String
  scope : Option Iam.InspectedScope

section Grant

variable (cc : CeCap) (service : Iam) (parse : String → Except String CatalogLog)
  (env : CommandEnv cc.Identity) (a : GrantArgs)

/-- The grant that the flags ask for: of a role, under a parent, or of its own. -/
def grantFromArgs (identity : cc.Identity) (audience : Principal) (disk : Disk) :
    Except String Grant :=
  match a.role with
  | some role => do
      Outcome.ensure (a.parent = none)
        "--role mints a root grant and cannot be combined with --parent"
      let store ← openCatalogStore parse env.iamDir disk
      (service.mintRole cc identity audience store.catalog role a.nonce).mapError IamError.display
  | none => do
      Outcome.ensure (a.actions ≠ []) "provide --action (one or more) or --role"
      let resource ← (ResourceMatch.parse a.resource).mapError IamError.display
      let policy := simplePolicy a.actions resource (buildConditions env.now a.conditions)
      match a.parent with
      | none => (service.mint cc identity audience policy a.nonce).mapError IamError.display
      | some token =>
          let parent ← (service.decode cc token).mapError
            fun e => "decoding --parent: " ++ e.display
          (service.attenuate cc identity parent audience policy a.nonce).mapError IamError.display

/-- The catalog file is only read. -/
def cmdGrant (disk : Disk) : Except String GrantReply := do
  let identity ← env.identity
  let audience ← parsePrincipal "parsing --to" a.audience
  let grant ← grantFromArgs cc service parse env a identity audience disk
  if a.json then
    let scope ← (Iam.inspect cc service grant.token).mapError IamError.display
    return ⟨grant.token, some scope⟩
  else return ⟨grant.token, none⟩

end Grant

/-! ## Policies -/

inductive PolicyCmd where
  | new (actions : List String) (resource : String) (conditions : ConditionArgs)
  | validate
  | inspect (token : String)

inductive PolicyReply where
  | document (text : String)
  | valid (statements grants : ℕ)
  | scope (scope : Iam.InspectedScope)

/-- Authors a policy, checks one by minting it under an identity of its own from the nonce 0, or
shows what a token says. -/
def cmdPolicy (cc : CeCap) (service : Iam) (parse : String → Except String Policy)
    (scratch : cc.Identity) (env : CommandEnv cc.Identity) : PolicyCmd → Except String PolicyReply
  | .new actions resource conditions => do
      let resource ← (ResourceMatch.parse resource).mapError IamError.display
      let policy := simplePolicy actions resource (buildConditions env.now conditions)
      return .document policy.toJson.pretty
  | .validate => do
      let text ← env.input
      let policy ← (Policy.fromJson parse text).mapError IamError.display
      let grants ← (service.mintPolicy cc scratch ⟨cc.nodeId scratch⟩ policy 0).mapError
        fun e => "policy does not compile to a grant: " ++ e.display
      return .valid policy.statements.length grants.length
  | .inspect token => do
      let scope ← (Iam.inspect cc service token).mapError IamError.display
      return .scope scope

end Cli

end CeIam
