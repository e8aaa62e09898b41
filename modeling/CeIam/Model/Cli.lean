import CeIam.Model.Revocation
import CeIam.Model.Roots
import CeIam.Model.Wallet

/-! # The verify command

The command finds the token, resolves the revoked pairs and asks whether the token authorizes
the action. -/

namespace CeIam

/-- The arguments of the command, other than the form of its output. -/
structure VerifyArgs where
  token : Option String
  walletLabel : Option String
  requester : String
  action : String
  onNode : Option String
  tags : List String
  noRevocationCheck : Bool
  failClosed : Bool
  revocationTtl : UInt64
  useRoots : Bool

/-- What one run of the command meets: the clock, the stores of its data directory, what the node
answers and whether the answer can be saved. -/
structure VerifyEnv where
  now : UInt64
  identity : Except String NodeId
  roots : Except String Roots
  wallet : Except String WalletStore
  iamDir : Except IamError String
  node : String
  fetched : Except String (List (String × UInt64))
  written : Except String Unit

namespace Cli

variable (parse : String → Except String CachedRevocationSet) (cc : CeCap) (service : Iam)
  (a : VerifyArgs) (env : VerifyEnv)

/-! ## The revoked pairs -/

def policy : RevocationPolicy := if a.failClosed then .failClosed else .failOpen

def cachePath : Except String String :=
  (env.iamDir.map fun dir => dir ++ "/revocation-cache.json").mapError IamError.display

/-- The file and what it holds. -/
def loadCache (disk : Disk) : Except String (String × CachedRevocationSet) := do
  let path ← cachePath env
  let cached ← (CachedRevocationSet.load parse path a.revocationTtl disk).mapError IamError.display
  return (path, cached)

/-- The set after a refresh that succeeded or failed. -/
def usable (result : Except IamError Unit) (cached : CachedRevocationSet) :
    Except String RevocationSet :=
  match result with
  | .ok () => .ok cached.set
  | .error e =>
      match policy a with
      | .failOpen => .ok cached.set
      | .failClosed =>
          if cached.isFresh env.now then .ok cached.set
          else .error ("could not fetch revocation set from " ++ env.node ++
            " and the cached snapshot is stale; failing closed (deny). Error: " ++ e.display)

def resolveRevocation (disk : Disk) : Except String RevocationSet × Disk :=
  if a.noRevocationCheck then (.ok .empty, disk)
  else
    match loadCache parse a env disk with
    | .error e => (.error e, disk)
    | .ok (path, cached) =>
        let (result, cached, disk) :=
          cached.refresh env.fetched env.now (some path) env.written disk
        (usable a env result cached, disk)

/-! ## The command -/

/-- The subject of the check. -/
structure Subject where
  iam : Iam
  onNode : NodeId
  requester : Principal
  token : String

/-- The token itself, or the one that the wallet holds under a label. -/
def token : Except String String :=
  match a.token, a.walletLabel with
  | some t, none => .ok t
  | none, some label => do
      let wallet ← env.wallet
      Outcome.require ("no grant labeled '" ++ label ++ "' in the wallet") (wallet.token label)
  | some _, some _ => .error "pass exactly one of --token or --wallet-label"
  | none, none => .error "pass --token or --wallet-label"

/-- Reads the arguments before any revocation is resolved. -/
def subject : Except String Subject := do
  let identity ← env.identity
  let iam ←
    if a.useRoots then
      env.roots.map fun roots => service.withAcceptedRoots (roots.acceptedAt env.now)
    else .ok service
  let requester ← (Principal.parse a.requester).mapError fun _ => "parsing --requester"
  let onNode ←
    match a.onNode with
    | some h => ((Principal.parse h).mapError fun _ => "parsing --on-node").map (·.nodeId)
    | none => .ok identity
  return ⟨iam, onNode, requester, ← token a env⟩

/-- The subject and the revoked pairs with which a run reaches its check. -/
def beforeCheck (disk : Disk) : Except String (Subject × RevocationSet) × Disk :=
  match subject service a env with
  | .error e => (.error e, disk)
  | .ok s =>
      let (revset, disk) := resolveRevocation parse a env disk
      (revset.map (s, ·), disk)

def check (s : Subject) (revset : RevocationSet) : Except IamError Unit :=
  s.iam.verify cc s.onNode a.tags env.now s.requester a.action s.token revset.isRevoked

/-- A run ends before its check, or with the decision of the check. -/
def cmdVerify (disk : Disk) : Except String (Except IamError Unit) × Disk :=
  let (reached, disk) := beforeCheck parse service a env disk
  (reached.map fun r => check cc a env r.1 r.2, disk)

end Cli

end CeIam
