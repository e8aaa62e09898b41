import CeIam.Library.Processes
import CeIam.Model.Device
import CeIam.Model.Roots
import CeIam.Model.Wallet

/-! # The commands that manage the stores

Each run of a command is a process of its own: it reads its arguments, opens the store it
manages, makes one call and ends. -/

namespace CeIam

def saturatingAdd (a b : UInt64) : UInt64 :=
  if a.toNat + b.toNat < 2 ^ 64 then a + b else UInt64.ofNat (2 ^ 64 - 1)

/-- What one run of a command meets: the clock, the identity of the machine, its data directory,
the text of its file or standard input, and whether its write succeeds. -/
structure CommandEnv (ι : Type) where
  now : UInt64
  identity : Except String ι
  iamDir : Except IamError String
  input : Except String String
  written : Except String Unit

/-- A policy document has the version of this schema and at least one statement. -/
def Policy.fromJson (parse : String → Except String Policy) (text : String) :
    Except IamError Policy := do
  let p ← (parse text).mapError fun e => .badPolicy ("policy JSON did not parse: " ++ e)
  Outcome.ensure (p.version = versionTag)
    (.badPolicy ("unsupported policy version '" ++ p.version ++ "' (expected '" ++ versionTag ++
      "')"))
  Outcome.ensure (p.statements ≠ []) (.badPolicy "policy has no statements")
  return p

namespace Cli

/-- A directory that is found, with a file in it that is opened. -/
def openIn {α : Type} (what : String) (iamDir : Except IamError String)
    (opened : String → Except IamError α) : Except String α := do
  let dir ← iamDir.mapError IamError.display
  (opened dir).mapError fun e => "opening " ++ what ++ ": " ++ e.display

def parsePrincipal (context s : String) : Except String Principal :=
  (Principal.parse s).mapError fun _ => context

/-! ## The catalog -/

/-- The arguments of a role command, other than the file of a policy and the form of the output. -/
inductive RoleCmd where
  | put (name : String) (description : Option String)
  | get (name : String)
  | list
  | rm (name : String)
  | attach (principal role : String)
  | detach (principal role : String)
  | effectiveGrants (principal : String)
  | audit (since : UInt64)
  | compact

/-- What a role command prints. -/
inductive RoleReply where
  | put (name : String) (version : ℕ)
  | role (role : Role)
  | names (roles policies : List String)
  | removed (name : String)
  | attached (role : String) (principal : Principal)
  | detached (role : String) (principal : Principal)
  | grants (grants : List EffectiveGrant)
  | audit (entries : List AuditEntry)
  | compacted (ops : ℕ)

/-- What a role command does to the catalog once it is open. -/
inductive RoleJob where
  | change (op : CatalogOp) (actor : Option Principal) (written : Except String Unit)
      (reply : CatalogStore → RoleReply)
  | read (view : Catalog → Except String RoleReply)
  | compact (written : Except String Unit)

def RoleJob.run (job : RoleJob) (store : CatalogStore) (disk : Disk) :
    Except String RoleReply × CatalogStore × Disk :=
  match job with
  | .change op actor written reply =>
      let (result, store, disk) := store.apply written op actor disk
      (match result with
        | .ok () => .ok (reply store)
        | .error e => .error e.display, store, disk)
  | .read view => (view store.catalog, store, disk)
  | .compact written =>
      let (result, store, disk) := store.compact written disk
      (match result with
        | .ok () => .ok (.compacted store.opCount)
        | .error e => .error e.display, store, disk)

def openCatalogStore (parse : String → Except String CatalogLog) (iamDir : Except IamError String)
    (disk : Disk) : Except String CatalogStore :=
  openIn "catalog" iamDir fun dir => CatalogStore.openStore parse (dir ++ "/catalog.json") disk

variable {ι : Type}

/-- Reads the arguments of a role command, before the catalog is opened. -/
def roleJob (parse : String → Except String Policy) (nodeId : ι → NodeId) (env : CommandEnv ι) :
    RoleCmd → Except String RoleJob :=
  let actor := (env.identity.toOption.map nodeId).map Principal.mk
  fun
  | .put name description => do
      let text ← env.input
      let policy ← (Policy.fromJson parse text).mapError IamError.display
      return .change (.putRole ⟨name, description, policy⟩) actor env.written
        fun store => .put name store.opCount
  | .get name =>
      .ok (.read fun cat =>
        (Outcome.require ("no such role '" ++ name ++ "'") (cat.getRole name)).map .role)
  | .list => .ok (.read fun cat => .ok (.names cat.listRoles cat.listPolicies))
  | .rm name => .ok (.change (.removeRole name) actor env.written fun _ => .removed name)
  | .attach principal role => do
      let principal ← parsePrincipal "parsing principal" principal
      return .change (.attachRole principal role) actor env.written
        fun _ => .attached role principal
  | .detach principal role => do
      let principal ← parsePrincipal "parsing principal" principal
      return .change (.detachRole principal role) actor env.written
        fun _ => .detached role principal
  | .effectiveGrants principal => do
      let principal ← parsePrincipal "parsing principal" principal
      return .read fun cat => ((cat.effectiveGrants principal).mapError IamError.display).map .grants
  | .audit since => .ok (.read fun cat => .ok (.audit (cat.auditSince since.toNat)))
  | .compact => .ok (.compact env.written)

def cmdRole (parsePolicy : String → Except String Policy)
    (parseLog : String → Except String CatalogLog) (nodeId : ι → NodeId) (env : CommandEnv ι)
    (cmd : RoleCmd) (disk : Disk) : Except String RoleReply × Disk :=
  match roleJob parsePolicy nodeId env cmd with
  | .error e => (.error e, disk)
  | .ok job =>
      match openCatalogStore parseLog env.iamDir disk with
      | .error e => (.error e, disk)
      | .ok store =>
          let (reply, _, disk) := job.run store disk
          (reply, disk)

/-! ## The wallet -/

/-- The arguments of a wallet command; a token that is not given is read from standard input. -/
inductive WalletCmd where
  | add (label : String) (token note : Option String)
  | list
  | show (label : String)
  | rm (label : String)

inductive WalletReply where
  | stored (label : String)
  | entries (entries : List WalletEntry)
  | shown (entry : WalletEntry) (scope : Iam.InspectedScope)
  | removed (label : String) (found : Bool)

inductive WalletJob where
  | add (label token : String) (note : Option String) (now : UInt64) (written : Except String Unit)
  | list
  | show (label : String)
  | rm (label : String) (written : Except String Unit)

def WalletJob.run (cc : CeCap) (service : Iam) (job : WalletJob) (w : WalletStore) (disk : Disk) :
    Except String WalletReply × WalletStore × Disk :=
  match job with
  | .add label token note now written =>
      let (result, w, disk) := w.add cc service label token note now written disk
      ((result.mapError IamError.display).map fun _ => .stored label, w, disk)
  | .list => (.ok (.entries (w.entries.toList.map Prod.snd)), w, disk)
  | .show label =>
      let shown : Except String WalletReply := do
        let entry ← Outcome.require ("no grant labeled '" ++ label ++ "'") (w.get label)
        let scope ← (Iam.inspect cc service entry.token).mapError IamError.display
        return .shown entry scope
      (shown, w, disk)
  | .rm label written =>
      let (result, w, disk) := w.remove label written disk
      ((result.mapError IamError.display).map fun found => .removed label found, w, disk)

def openWallet (parse : String → Except String (OrdMap String WalletEntry))
    (iamDir : Except IamError String) (disk : Disk) : Except String WalletStore :=
  openIn "wallet" iamDir fun dir => WalletStore.openWallet parse (dir ++ "/wallet.json") disk

def readArgOrStdin (env : CommandEnv ι) : Option String → Except String String
  | some s => .ok s
  | none => env.input.map Text.trim

def walletJob (env : CommandEnv ι) : WalletCmd → Except String WalletJob
  | .add label token note => do
      let token ← readArgOrStdin env token
      return .add label token note env.now env.written
  | .list => .ok .list
  | .show label => .ok (.show label)
  | .rm label => .ok (.rm label env.written)

def cmdWallet (cc : CeCap) (service : Iam)
    (parse : String → Except String (OrdMap String WalletEntry)) (env : CommandEnv ι)
    (cmd : WalletCmd) (disk : Disk) : Except String WalletReply × Disk :=
  match walletJob env cmd with
  | .error e => (.error e, disk)
  | .ok job =>
      match openWallet parse env.iamDir disk with
      | .error e => (.error e, disk)
      | .ok w =>
          let (reply, _, disk) := job.run cc service w disk
          (reply, disk)

/-! ## The roots -/

inductive RootCmd where
  | add (key : String) (label : Option String) (validIn validFor : UInt64)
  | list
  | retire (key : String) (inSecs : UInt64)
  | rm (key : String)
  | reissue (token : String) (nonce : UInt64)

inductive RootReply where
  | added (key : Principal) (notBefore notAfter : UInt64)
  | roots (roots : List RootEntry)
  | retiring (key : Principal) (time : UInt64) (found : Bool)
  | removed (key : Principal) (found : Bool)
  | reissued (grant : Grant)

/-- What a root command does to the roots once they are open; a grant is reissued without them. -/
inductive RootJob where
  | add (key : Principal) (label : Option String) (notBefore notAfter : UInt64)
      (written : Except String Unit)
  | list
  | retire (key : Principal) (time : UInt64) (written : Except String Unit)
  | rm (key : Principal) (written : Except String Unit)

def RootJob.run (job : RootJob) (r : Roots) (disk : Disk) :
    Except String RootReply × Roots × Disk :=
  match job with
  | .add key label notBefore notAfter written =>
      let (result, r, disk) := r.add key label notBefore notAfter written disk
      ((result.mapError IamError.display).map fun _ => .added key notBefore notAfter, r, disk)
  | .list => (.ok (.roots (r.roots.toList.map Prod.snd)), r, disk)
  | .retire key time written =>
      let (result, r, disk) := r.retire key time written disk
      ((result.mapError IamError.display).map fun found => .retiring key time found, r, disk)
  | .rm key written =>
      let (result, r, disk) := r.remove key written disk
      ((result.mapError IamError.display).map fun found => .removed key found, r, disk)

def openRoots (parse : String → Except String (OrdMap String RootEntry))
    (iamDir : Except IamError String) (disk : Disk) : Except String Roots :=
  openIn "roots" iamDir fun dir => Roots.openRoots parse (dir ++ "/roots.json") disk

/-- The window of a root that is accepted after some seconds and for some seconds; 0 is no bound. -/
def rootWindow (now validIn validFor : UInt64) : UInt64 × UInt64 :=
  let notBefore := if validIn = 0 then 0 else saturatingAdd now validIn
  let start := if notBefore = 0 then now else notBefore
  (notBefore, if validFor = 0 then 0 else saturatingAdd start validFor)

/-- A root command either has a job with the roots, or reissues a grant under the identity of the
machine. -/
def rootJob (cc : CeCap) (service : Iam) (env : CommandEnv cc.Identity) :
    RootCmd → Except String (RootJob ⊕ Grant)
  | .add key label validIn validFor => do
      let key ← parsePrincipal "parsing root key" key
      let (notBefore, notAfter) := rootWindow env.now validIn validFor
      return .inl (.add key label notBefore notAfter env.written)
  | .list => .ok (.inl .list)
  | .retire key inSecs => do
      let key ← parsePrincipal "parsing root key" key
      return .inl (.retire key (saturatingAdd env.now inSecs) env.written)
  | .rm key => do
      let key ← parsePrincipal "parsing root key" key
      return .inl (.rm key env.written)
  | .reissue token nonce => do
      let identity ← env.identity
      let grant ← (service.decode cc token).mapError fun e => "decoding token: " ++ e.display
      let reissued ← (Iam.reissueUnder cc identity grant nonce).mapError IamError.display
      return .inr reissued

def cmdRoot (cc : CeCap) (service : Iam)
    (parse : String → Except String (OrdMap String RootEntry)) (env : CommandEnv cc.Identity)
    (cmd : RootCmd) (disk : Disk) : Except String RootReply × Disk :=
  match rootJob cc service env cmd with
  | .error e => (.error e, disk)
  | .ok (.inr grant) => (.ok (.reissued grant), disk)
  | .ok (.inl job) =>
      match openRoots parse env.iamDir disk with
      | .error e => (.error e, disk)
      | .ok r =>
          let (reply, _, disk) := job.run r disk
          (reply, disk)

/-! ## The devices -/

inductive DeviceCmd where
  | claim (deviceId pubB64 : String) (nodeId : Option String)
  | request (deviceId pubB64 : String) (nodeId : Option String) (label : String)
  | list
  | approve (deviceId : String)
  | revoke (deviceId : String)

inductive DeviceReply where
  | claimed (deviceId nodeId : String)
  | requested (deviceId role nodeId : String)
  | devices (devices : List (String × Device))
  | approved (deviceId : String)
  | revoked (deviceId : String)

/-- What one run of a device command meets; the registry has a way of its own to be opened and
written. -/
structure DeviceEnv where
  now : UInt64
  identity : Except String NodeId
  iamDir : Except IamError String
  created : Bool
  readable : Bool
  written : Except PersistFault Unit

/-- What a device command does to the registry once it is open. -/
inductive DeviceJob where
  | claim (deviceId pubB64 nodeId : String) (now : UInt64)
  | request (deviceId pubB64 nodeId label : String) (now : UInt64)
  | list
  | approve (deviceId : String)
  | revoke (deviceId : String)

def DeviceJob.run (written : Except PersistFault Unit) (job : DeviceJob) (s : DeviceStore)
    (disk : Disk) : Except String DeviceReply × DeviceStore × Disk :=
  match job with
  | .claim deviceId pubB64 nodeId now =>
      let (result, s, disk) := s.claim written deviceId pubB64 nodeId now disk
      (result.bind fun claimed =>
        if claimed then .ok (.claimed deviceId nodeId)
        else .error "an admin device already exists — use `device request` then `device approve`",
        s, disk)
  | .request deviceId pubB64 nodeId label now =>
      let (result, s, disk) := s.request written deviceId pubB64 nodeId label now disk
      (result.map fun role => .requested deviceId role nodeId, s, disk)
  | .list => (.ok (.devices s.inner.toList), s, disk)
  | .approve deviceId =>
      let (result, s, disk) := s.approve written deviceId disk
      (result.bind fun approved =>
        if approved then .ok (.approved deviceId)
        else .error ("no pending device '" ++ deviceId ++ "' to approve"), s, disk)
  | .revoke deviceId =>
      let (result, s, disk) := s.revoke written deviceId disk
      (result.bind fun outcome =>
        match outcome with
        | .removed => .ok (.revoked deviceId)
        | .notFound => .error ("no such device '" ++ deviceId ++ "'")
        | .lastAdmin =>
            .error "refusing to revoke the last admin device (would lock the operator out)",
        s, disk)

/-- Opens the registry of the data directory, and seeds no device. -/
def openDeviceStore (parse : String → Except String Devices) (env : DeviceEnv) (disk : Disk) :
    Except String DeviceStore := do
  let dir ← env.iamDir.mapError IamError.display
  ((DeviceStore.openStore parse dir []
    ⟨env.created, env.readable, fun _ => env.now, env.written⟩ disk).1).mapError
      fun _ => "opening device store"

/-- An explicit node identity as it is spelled, or the one of the machine. -/
def resolveNodeId (env : DeviceEnv) : Option String → Except String String
  | some s => (parsePrincipal "parsing --node-id" s).map fun _ => s
  | none => env.identity.map fun n => Hex.encode n.bytes

def deviceJob (env : DeviceEnv) : DeviceCmd → Except String DeviceJob
  | .claim deviceId pubB64 nodeId => do
      let nodeId ← resolveNodeId env nodeId
      return .claim deviceId pubB64 nodeId env.now
  | .request deviceId pubB64 nodeId label => do
      let nodeId ← resolveNodeId env nodeId
      return .request deviceId pubB64 nodeId label env.now
  | .list => .ok .list
  | .approve deviceId => .ok (.approve deviceId)
  | .revoke deviceId => .ok (.revoke deviceId)

def cmdDevice (parse : String → Except String Devices) (env : DeviceEnv) (cmd : DeviceCmd)
    (disk : Disk) : Except String DeviceReply × Disk :=
  match deviceJob env cmd with
  | .error e => (.error e, disk)
  | .ok job =>
      match openDeviceStore parse env disk with
      | .error e => (.error e, disk)
      | .ok s =>
          let (reply, _, disk) := job.run env.written s disk
          (reply, disk)

end Cli

end CeIam
