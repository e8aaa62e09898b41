import CeIam.Library.Json
import CeIam.Model.Capability
import CeIam.Model.Error

/-! # Policies and roles

A policy is a list of statements over actions, a resource and conditions. Its JSON
form lists the fields of each record in the order they are declared. -/

namespace CeIam

inductive Effect where
  | allow
  | deny
deriving DecidableEq

inductive ResourceMatch where
  | any
  | node (hex : String)
  | tag (t : String)
  | allOf (ts : List String)
deriving DecidableEq

structure Conditions where
  notBefore : Option UInt64
  notAfter : Option UInt64
  maxCpu : Option UInt32
  maxMemMb : Option UInt32
  maxCredits : Option UInt64
  allowedPorts : Option (List UInt16)
  pathPrefix : Option String
deriving DecidableEq

structure Statement where
  sid : Option String
  effect : Effect
  actions : List String
  resource : ResourceMatch
  conditions : Conditions
deriving DecidableEq

structure Policy where
  version : String
  statements : List Statement
deriving DecidableEq

structure Role where
  name : String
  description : Option String
  policy : Policy
deriving DecidableEq

/-! ## Lowering to capabilities -/

def ResourceMatch.toCapResource : ResourceMatch → Except IamError Resource
  | .any => .ok .any
  | .node h =>
      match Hex.decode (Text.trim h) with
      | none => .error (.badResource ("node '" ++ h ++ "' is not hex"))
      | some bytes =>
          if hsize : bytes.length = 32 then .ok (.node ⟨bytes, hsize⟩)
          else .error (.badResource ("node '" ++ h ++ "' is not 32 bytes"))
  | .tag t => if t = "" then .error (.badResource "empty tag") else .ok (.tag t)
  | .allOf ts =>
      if ts = [] then .error (.badResource "all_of with no tags") else .ok (.allOf ts)

/-- The spelling of the command line: `*` or `any`, `tag:` and a tag, `all-of:` and tags with
commas between them, or a node identity. -/
def ResourceMatch.parse (s : String) : Except IamError ResourceMatch :=
  let s := Text.trim s
  if s = "*" ∨ Text.eqIgnoreAsciiCase s "any" then .ok .any
  else
    match Text.stripPrefix s "tag:" with
    | some t => .ok (.tag (Text.trim t))
    | none =>
        match Text.stripPrefix s "all-of:" with
        | some rest =>
            let tags := ((Text.split rest ',').map Text.trim).filter (· ≠ "")
            if tags = [] then .error (.badResource "all-of: with no tags") else .ok (.allOf tags)
        | none =>
            match Hex.decode s with
            | none => .error (.badResource ("resource '" ++ s ++ "' is not a known form"))
            | some bytes =>
                -- Hexadecimal digits are ASCII, and so is their lower case.
                if bytes.length = 32 then .ok (.node (Text.toAsciiLowercase s))
                else .error (.badResource ("resource '" ++ s ++ "' is not a 32-byte node id"))

namespace Conditions

def default : Conditions := ⟨none, none, none, none, none, none, none⟩

/-- An absent bound becomes the caveat that bounds nothing. -/
def toCaveats (c : Conditions) : Caveats where
  notBefore := c.notBefore.getD 0
  notAfter := c.notAfter.getD 0
  maxCpu := c.maxCpu
  maxMemMb := c.maxMemMb
  maxCredits := c.maxCredits
  allowedPorts := c.allowedPorts
  pathPrefix := c.pathPrefix

def isEmpty (c : Conditions) : Bool := c = default

end Conditions

/-! ## JSON forms -/

/-- A field that is left out when it has no value. -/
def optionalField {α : Type} (name : String) (toJson : α → Json) : Option α → List (String × Json)
  | none => []
  | some a => [(name, toJson a)]

def strings (ss : List String) : Json := .arr (ss.map .str)

def Effect.toJson : Effect → Json
  | .allow => .str "Allow"
  | .deny => .str "Deny"

def ResourceMatch.toJson : ResourceMatch → Json
  | .any => .str "any"
  | .node h => .obj [("node", .str h)]
  | .tag t => .obj [("tag", .str t)]
  | .allOf ts => .obj [("all_of", strings ts)]

def Conditions.toJson (c : Conditions) : Json :=
  .obj (optionalField "not_before" (fun n => .int n.toNat) c.notBefore ++
    optionalField "not_after" (fun n => .int n.toNat) c.notAfter ++
    optionalField "max_cpu" (fun n => .int n.toNat) c.maxCpu ++
    optionalField "max_mem_mb" (fun n => .int n.toNat) c.maxMemMb ++
    optionalField "max_credits" (fun n => .int n.toNat) c.maxCredits ++
    optionalField "allowed_ports" (fun ps => .arr (ps.map (fun p => .int p.toNat))) c.allowedPorts ++
    optionalField "path_prefix" .str c.pathPrefix)

def Statement.toJson (s : Statement) : Json :=
  .obj (optionalField "sid" .str s.sid ++
    [("effect", s.effect.toJson), ("actions", strings s.actions),
      ("resource", s.resource.toJson)] ++
    optionalField "conditions" Conditions.toJson
      (if s.conditions.isEmpty then none else some s.conditions))

namespace Policy

def versionTag : String := "ce-iam-policy-v1"

/-- The policy of a single statement that allows. -/
def allow (actions : List String) (resource : ResourceMatch) (conditions : Conditions) : Policy where
  version := versionTag
  statements := [⟨none, .allow, actions, resource, conditions⟩]

def toJson (p : Policy) : Json :=
  .obj [("version", .str p.version), ("statements", .arr (p.statements.map Statement.toJson))]

end Policy

def Role.toJson (r : Role) : Json :=
  .obj ([("name", .str r.name)] ++ optionalField "description" .str r.description ++
    [("policy", r.policy.toJson)])

end CeIam
