import CeIam.Model.Grants
import CeIam.Verification.Catalog.Commuting
import CeIam.Verification.Catalog.Effective
import CeIam.Verification.Commands.Grants
import CeIam.Verification.Commands.Roles
import CeIam.Verification.Grant.Canonical
import CeIam.Verification.Policy.Encoding

/-! # From a policy to a grant

A policy is authored by one command, checked by another, published under a name by a third and
minted by a fourth. They agree on what the policy grants. -/

namespace CeIam

namespace Cli

open CatalogStore Iam

/-! ## What is published stays -/

section Published

variable {parse : String → Except String CatalogLog} {dir name : String} {s t : CatalogStore}
  {disk file : Disk} {ι : Type} {parsePolicy : String → Except String Policy}
  {nodeId : ι → NodeId} {env : CommandEnv ι} {cmd : RoleCmd}

/-- A command that does not write the role of the name. -/
def RoleCmd.Spares (name : String) : RoleCmd → Prop
  | .put n _ => n ≠ name
  | .rm n => n ≠ name
  | _ => True

theorem roleName_of_roleJob {job : RoleJob} {op : CatalogOp} {actor : Option Principal}
    {written : Except String Unit} (hjob : roleJob parsePolicy nodeId env cmd = .ok job)
    (hcall : job.call = some (.apply op actor written)) (h : cmd.Spares name) :
    op.roleName ≠ some name := by
  cases cmd with
  | put n description =>
      obtain ⟨text, -, hrest⟩ := Outcome.bind_eq_ok.mp hjob
      obtain ⟨policy, -, hlast⟩ := Outcome.bind_eq_ok.mp hrest
      cases hlast
      cases hcall
      exact fun heq => h (Option.some.inj heq)
  | rm n =>
      cases hjob
      cases hcall
      exact fun heq => h (Option.some.inj heq)
  | attach principal role =>
      obtain ⟨p, -, hlast⟩ := Outcome.bind_eq_ok.mp hjob
      cases hlast
      cases hcall
      exact (fun heq => nomatch heq)
  | detach principal role =>
      obtain ⟨p, -, hlast⟩ := Outcome.bind_eq_ok.mp hjob
      cases hlast
      cases hcall
      exact fun heq => nomatch heq
  | effectiveGrants principal =>
      obtain ⟨p, -, hlast⟩ := Outcome.bind_eq_ok.mp hjob
      cases hlast
      cases hcall
  | _ =>
      cases hjob
      cases hcall

/-- A call that writes no role of the name keeps the role; a compaction writes none. -/
theorem Kept.getRole_call {c : Call} (h : Kept dir s disk)
    (hcall : CatalogStore.call (s, disk) c = (.ok (), t, file))
    (hop : ∀ op actor written, c = .apply op actor written → op.roleName ≠ some name) :
    t.catalog.getRole name = s.catalog.getRole name := by
  rcases call_cases (s, disk) c with ⟨e, he⟩ | ⟨op, actor, hc, -, -, hok⟩ | ⟨hc, hok⟩
  · rw [he] at hcall
    cases hcall
  · rw [hok] at hcall
    cases hcall
    have hroles := Catalog.get_roles_update s.catalog op name
    rw [CatalogOp.writesRole_eq_none (hop op actor _ hc)] at hroles
    exact hroles
  · rw [hok] at hcall
    cases hcall
    have hsame := (sameContent_compactedLog h.reached.wellFormed).roles
    exact congrArg (fun roles : OrdMap String Role => roles[name]?) hsame

variable (parsePolicy nodeId env cmd) in
/-- A command keeps the roles of the names that it does not write. -/
theorem cmdRole_spares (reads : ∀ log : CatalogLog, parse log.toJson.pretty = .ok log)
    (hdir : env.iamDir = .ok dir) (h : Kept dir s disk) :
    ∃ t, Kept dir t (cmdRole parsePolicy parse nodeId env cmd disk).2 ∧
      ∀ name, cmd.Spares name → t.catalog.getRole name = s.catalog.getRole name := by
  rw [cmdRole, hdir]
  cases hjob : roleJob parsePolicy nodeId env cmd with
  | error e => exact ⟨s, h, fun _ _ => rfl⟩
  | ok job =>
      rcases h.load reads with hopen | ⟨-, e, hopen⟩
      · simp only [hopen]
        refine ⟨_, h.run job, fun name hname => ?_⟩
        rcases run_uniform job s with ⟨e, he⟩ | ⟨-, r, hr⟩ | ⟨r, c, t, hcall, hc, hr⟩
        · rw [he]
        · rw [hr]
        · rw [hr]
          refine h.getRole_call (hc disk) fun op actor written heq => ?_
          rw [heq] at hcall
          exact roleName_of_roleJob hjob hcall hname
      · simp only [hopen]
        exact ⟨s, h, fun _ _ => rfl⟩

/-- The catalog file after some role commands. -/
def roleRun (parsePolicy : String → Except String Policy)
    (parse : String → Except String CatalogLog) (nodeId : ι → NodeId)
    (ls : List (CommandEnv ι × RoleCmd)) (disk : Disk) : Disk :=
  Machine.after (fun l => cmdRole parsePolicy parse nodeId l.1 l.2) ls disk

variable (parsePolicy nodeId) in
/-- Role commands keep the roles of the names that none of them writes. -/
theorem roleRun_spares (reads : ∀ log : CatalogLog, parse log.toJson.pretty = .ok log)
    {ls : List (CommandEnv ι × RoleCmd)} (hdir : ∀ l ∈ ls, l.1.iamDir = .ok dir)
    (h : Kept dir s disk) :
    ∃ t, Kept dir t (roleRun parsePolicy parse nodeId ls disk) ∧
      ∀ name, (∀ l ∈ ls, l.2.Spares name) → t.catalog.getRole name = s.catalog.getRole name := by
  induction ls generalizing s disk with
  | nil => exact ⟨s, h, fun _ _ => rfl⟩
  | cons l ls ih =>
      obtain ⟨t, ht, hsame⟩ := cmdRole_spares parsePolicy nodeId l.1 l.2 reads
        (hdir l List.mem_cons_self) h
      obtain ⟨u, hu, hrest⟩ := ih (fun l hl => hdir l (List.mem_cons_of_mem _ hl)) ht
      refine ⟨u, hu, fun name hname => ?_⟩
      rw [hrest name fun l hl => hname l (List.mem_cons_of_mem _ hl),
        hsame name (hname l List.mem_cons_self)]

variable (name nodeId env) in
theorem roleJob_put (description : Option String) {text : String} {policy : Policy}
    (hinput : env.input = .ok text) (hpolicy : Policy.fromJson parsePolicy text = .ok policy) :
    roleJob parsePolicy nodeId env (.put name description) =
      .ok (.change (.putRole ⟨name, description, policy⟩)
        ((env.identity.toOption.map nodeId).map Principal.mk) env.written
        fun store => .put name store.opCount) :=
  Outcome.bind_eq_ok.mpr ⟨text, hinput,
    Outcome.bind_eq_ok.mpr ⟨policy, Outcome.mapError_eq_ok.mpr hpolicy, rfl⟩⟩

/-- A publication that is answered has put the policy of the document under the name. -/
theorem cmdRole_put (reads : ∀ log : CatalogLog, parse log.toJson.pretty = .ok log)
    (hdir : env.iamDir = .ok dir) {description : Option String} {text : String} {policy : Policy}
    (hinput : env.input = .ok text) (hpolicy : Policy.fromJson parsePolicy text = .ok policy)
    (h : Kept dir s disk) {r : RoleReply}
    (hput : (cmdRole parsePolicy parse nodeId env (.put name description) disk).1 = .ok r) :
    ∃ t, Kept dir t (cmdRole parsePolicy parse nodeId env (.put name description) disk).2 ∧
      t.catalog.getRole name = some ⟨name, description, policy⟩ := by
  have hjob := roleJob_put name nodeId env description hinput hpolicy
  generalize (env.identity.toOption.map nodeId).map Principal.mk = actor at hjob
  generalize (fun store : CatalogStore => RoleReply.put name store.opCount) = reply at hjob
  rw [cmdRole, hdir, hjob] at hput ⊢
  rcases h.load reads with hopen | ⟨-, e, hopen⟩
  · simp only [hopen] at hput ⊢
    refine ⟨_, h.run (.change (.putRole ⟨name, description, policy⟩) actor env.written reply), ?_⟩
    rcases run_uniform (.change (.putRole ⟨name, description, policy⟩) actor env.written reply) s
      with ⟨e, he⟩ | ⟨hnone, -⟩ | ⟨r', c, t, hcall, hc, hr⟩
    · rw [he] at hput
      cases hput
    · cases hnone
    · rw [hr]
      cases hcall
      rcases call_cases (s, disk) (.apply (.putRole ⟨name, description, policy⟩) actor env.written)
        with ⟨e, he⟩ | ⟨op, actor', heq, -, -, hok⟩ | ⟨heq, -⟩
      · rw [hc disk] at he
        cases he
      · injection heq with hop hactor
        subst hop
        rw [hc disk] at hok
        cases hok
        change (s.catalog.roles.insert name _)[name]? = _
        rw [OrdMap.get_insert, if_pos rfl]
      · cases heq
  · simp only [hopen] at hput
    cases hput

end Published

/-! ## What is authored is granted -/

section Granted

variable {cc : CeCap} {service : Iam} {parsePolicy : String → Except String Policy}
  {parse : String → Except String CatalogLog} {dir : String} {scratch : cc.Identity}
  {author : CommandEnv cc.Identity} {actions : List String} {resource : String}
  {conditions : ConditionArgs} {text : String}

/-- A document that is printed is that of the policy which the flags stand for. -/
theorem cmdPolicy_new_eq_ok
    (h : cmdPolicy cc service parsePolicy scratch author (.new actions resource conditions) =
      .ok (.document text)) :
    ∃ r, ResourceMatch.parse resource = .ok r ∧
      text = (simplePolicy actions r (buildConditions author.now conditions)).toJson.pretty := by
  obtain ⟨r, hr, hlast⟩ := Outcome.bind_eq_ok.mp h
  exact ⟨r, Outcome.mapError_eq_ok.mp hr, (PolicyReply.document.inj (Except.ok.inj hlast)).symm⟩

variable (actions) in
/-- A document that is read back is a policy of this version with a statement. -/
theorem fromJson_simplePolicy (reads : ∀ p : Policy, parsePolicy p.toJson.pretty = .ok p)
    (r : ResourceMatch) (c : Conditions) :
    Policy.fromJson parsePolicy (simplePolicy actions r c).toJson.pretty =
      .ok (simplePolicy actions r c) :=
  Outcome.bind_eq_ok.mpr ⟨_, Outcome.mapError_eq_ok.mpr (reads _), rfl⟩

variable (service) in
/-- Minting from a role that the catalog holds is minting its policy from flags. -/
theorem grantFromArgs_role {issuer : CommandEnv cc.Identity} {a : GrantArgs} {name : String}
    {store : CatalogStore} {disk : Disk} {r : ResourceMatch} {description : Option String}
    (hdir : issuer.iamDir = .ok dir) (hrole : a.role = some name) (hparent : a.parent = none)
    (hopen : openCatalogStore parse (.ok dir) disk = .ok store)
    (hget : store.catalog.getRole name = some ⟨name, description,
      simplePolicy actions r (buildConditions author.now conditions)⟩)
    (hresource : ResourceMatch.parse resource = .ok r) (hactions : actions ≠ [])
    (identity : cc.Identity) (audience : Principal) (other : Disk) :
    grantFromArgs cc service parse issuer a identity audience disk =
      grantFromArgs cc service parse { issuer with now := author.now }
        { a with role := none, actions := actions, resource := resource, conditions := conditions }
        identity audience other := by
  have hmatch : (ResourceMatch.parse resource).mapError IamError.display = .ok r := by
    rw [hresource]
    rfl
  have hmint : service.mintRole cc identity audience store.catalog name a.nonce =
      service.mint cc identity audience
        (simplePolicy actions r (buildConditions author.now conditions)) a.nonce := by
    rw [Iam.mintRole, hget]
    rfl
  simp only [grantFromArgs, hrole, hparent, hdir, hopen, hmatch, Outcome.ensure, if_pos,
    Outcome.ok_bind, hmint, if_pos hactions]

/-- A command that can issue no grant prints none. -/
theorem cmdGrant_error {env : CommandEnv cc.Identity} {a : GrantArgs} {disk : Disk}
    (h : ∀ identity audience, ∃ e,
      grantFromArgs cc service parse env a identity audience disk = .error e) :
    ∃ e, cmdGrant cc service parse env a disk = .error e := by
  cases hreply : cmdGrant cc service parse env a disk with
  | error e => exact ⟨e, rfl⟩
  | ok reply =>
      obtain ⟨identity, audience, g, -, hgrant, -⟩ := cmdGrant_eq_ok hreply
      obtain ⟨e, he⟩ := h identity audience
      rw [he] at hgrant
      cases hgrant

/-- A policy that was authored from flags and published as a role is what a grant from the role
conveys, whatever other role commands came before and after: the command answers as it would if it
had been given the flags at the time the policy was authored, or the catalog file has become too
long to be opened and the command fails. -/
theorem published_role_grants {ι : Type} {nodeId : ι → NodeId}
    (before later : List (CommandEnv ι × RoleCmd))
    (reads : ∀ log : CatalogLog, parse log.toJson.pretty = .ok log)
    (readsPolicy : ∀ p : Policy, parsePolicy p.toJson.pretty = .ok p) (hactions : actions ≠ [])
    (hnew : cmdPolicy cc service parsePolicy scratch author (.new actions resource conditions) =
      .ok (.document text))
    {publisher : CommandEnv ι} {name : String} {description : Option String} {r : RoleReply}
    (hdir : ∀ l ∈ before ++ (publisher, .put name description) :: later, l.1.iamDir = .ok dir)
    (hinput : publisher.input = .ok text)
    (hput : (cmdRole parsePolicy parse nodeId publisher (.put name description)
      (roleRun parsePolicy parse nodeId before none)).1 = .ok r)
    (hlater : ∀ l ∈ later, l.2.Spares name)
    {issuer : CommandEnv cc.Identity} (hissuer : issuer.iamDir = .ok dir) {a : GrantArgs}
    (hrole : a.role = some name) (hparent : a.parent = none) (other : Disk) :
    cmdGrant cc service parse issuer a (roleRun parsePolicy parse nodeId
        (before ++ (publisher, .put name description) :: later) none) =
      cmdGrant cc service parse { issuer with now := author.now }
        { a with role := none, actions := actions, resource := resource, conditions := conditions }
        other ∨
    (∃ file, roleRun parsePolicy parse nodeId
        (before ++ (publisher, .put name description) :: later) none = some file ∧
      maxStoreBytes < file.utf8ByteSize) ∧
    ∃ e, cmdGrant cc service parse issuer a (roleRun parsePolicy parse nodeId
        (before ++ (publisher, .put name description) :: later) none) = .error e := by
  obtain ⟨match_, hresource, htext⟩ := cmdPolicy_new_eq_ok hnew
  have hrun : roleRun parsePolicy parse nodeId
      (before ++ (publisher, .put name description) :: later) none =
        roleRun parsePolicy parse nodeId later (cmdRole parsePolicy parse nodeId publisher
          (.put name description) (roleRun parsePolicy parse nodeId before none)).2 := by
    rw [roleRun, Machine.after_append, Machine.after_cons]
    rfl
  have hbefore : ∀ l ∈ before, l.1.iamDir = .ok dir := fun l hl => hdir l (by simp [hl])
  have hafter : ∀ l ∈ later, l.1.iamDir = .ok dir := fun l hl => hdir l (by simp [hl])
  obtain ⟨s, hs, -⟩ := roleRun_spares parsePolicy nodeId reads hbefore (kept_new dir)
  have hpolicy := fromJson_simplePolicy actions readsPolicy match_
    (buildConditions author.now conditions)
  rw [← htext] at hpolicy
  obtain ⟨t, ht, hpublished⟩ := cmdRole_put reads
    (hdir (publisher, .put name description) (by simp)) hinput hpolicy hs hput
  obtain ⟨u, hu, hkept⟩ := roleRun_spares parsePolicy nodeId reads hafter ht
  rw [← hrun] at hu
  have hget := (hkept name hlater).trans hpublished
  rcases hu.load reads with hopen | ⟨hlong, e, herror⟩
  · have hgrant := grantFromArgs_role service hissuer hrole hparent hopen hget hresource
      hactions
    left
    simp only [cmdGrant, hgrant _ _ other]
  · refine .inr ⟨hlong, cmdGrant_error fun identity audience => ⟨e, ?_⟩⟩
    simp only [grantFromArgs, hrole, hparent, hissuer, herror, Outcome.ensure, if_pos]
    rfl

end Granted

/-! ## What is validated is minted -/

section Validated

variable {cc : CeCap} {service : Iam} {parsePolicy : String → Except String Policy}
  {scratch : cc.Identity} {env : CommandEnv cc.Identity} {text : String} {policy : Policy}
  {issuer : cc.Identity} {audience : Principal} {base : UInt64} {scopes : List Scope}

theorem length_mintPolicy {grants : List Grant} (hscopes : service.compileScopes policy = .ok scopes)
    (h : service.mintPolicy cc issuer audience policy base = .ok grants) :
    grants.length = scopes.length := by
  obtain ⟨scopes', hcompiled, hissued⟩ := Outcome.bind_eq_ok.mp h
  cases Except.ok.inj (hscopes.symm.trans hcompiled)
  rw [← (Outcome.mapM_eq_ok.mp hissued).length_eq, List.length_zipIdx]

variable (issuer audience base) in
/-- The scopes of a policy are minted where their nonces, counted from the base, are nonces. -/
theorem mintPolicy_fits_iff (hscopes : service.compileScopes policy = .ok scopes)
    (hsize : scopes.length ≤ UInt64.size) :
    (∃ grants, service.mintPolicy cc issuer audience policy base = .ok grants) ↔
      base.toNat + scopes.length ≤ UInt64.size := by
  have hword : ∀ i < scopes.length, (UInt64.ofNat i).toNat = i :=
    fun i hi => UInt64.toNat_ofNat_of_lt' (hi.trans_le hsize)
  rw [mintPolicy_exists]
  constructor
  · intro h
    obtain ⟨scopes', hcompiled, hnonces⟩ := h
    cases Except.ok.inj (hscopes.symm.trans hcompiled)
    by_cases hnil : scopes.length = 0
    · rw [hnil]
      exact base.toNat_lt.le
    · obtain ⟨nonce, hnonce⟩ := hnonces (scopes.length - 1) (by omega)
      have hlast := checkedAdd_eq_some.mp hnonce
      rw [hword _ (by omega)] at hlast
      have hlt := nonce.toNat_lt
      rw [UInt64.size]
      omega
  · intro hfits
    refine ⟨scopes, hscopes, fun i hi => ⟨base + UInt64.ofNat i, ?_⟩⟩
    rw [checkedAdd, if_pos]
    rw [hword i hi]
    rw [UInt64.size] at hfits
    omega

/-- A validation says whether a policy can be minted, and into how many grants: what it reports
under an identity of its own holds for every issuer and audience, and from each nonce that leaves
room for that many. A vector holds no more than `UInt64.size` statements. -/
theorem validation_exact (hinput : env.input = .ok text)
    (hpolicy : Policy.fromJson parsePolicy text = .ok policy)
    (hsize : policy.statements.length ≤ UInt64.size) (issuer : cc.Identity) (audience : Principal)
    (base : UInt64) :
    (∀ k n, cmdPolicy cc service parsePolicy scratch env .validate = .ok (.valid k n) →
      k = policy.statements.length ∧ 0 < n ∧ n ≤ k ∧
      ((∃ grants, service.mintPolicy cc issuer audience policy base = .ok grants) ↔
        base.toNat + n ≤ UInt64.size) ∧
      ∀ grants, service.mintPolicy cc issuer audience policy base = .ok grants →
        grants.length = n) ∧
    ∀ e, cmdPolicy cc service parsePolicy scratch env .validate = .error e →
      ∃ cause, service.mintPolicy cc issuer audience policy base = .error cause := by
  have hvalidate : cmdPolicy cc service parsePolicy scratch env .validate =
      ((service.mintPolicy cc scratch ⟨cc.nodeId scratch⟩ policy 0).mapError
        fun e => "policy does not compile to a grant: " ++ e.display) >>= fun grants =>
          .ok (.valid policy.statements.length grants.length) := by
    have hread : (Policy.fromJson parsePolicy text).mapError IamError.display = .ok policy :=
      Outcome.mapError_eq_ok.mpr hpolicy
    simp only [cmdPolicy, hinput, Outcome.ok_bind, hread]
    rfl
  rw [hvalidate]
  constructor
  · intro k n hvalid
    obtain ⟨grants, hminted, heq⟩ := Outcome.bind_eq_ok.mp hvalid
    obtain ⟨scopes, hscopes, -⟩ := Outcome.bind_eq_ok.mp (Outcome.mapError_eq_ok.mp hminted)
    have hlength := length_mintPolicy hscopes (Outcome.mapError_eq_ok.mp hminted)
    cases heq
    have hle := length_scopes_le hscopes
    obtain ⟨-, hgroups, hcompiled⟩ := compileScopes_eq_ok.mp hscopes
    have hpos := List.length_pos_of_ne_nil hgroups
    rw [(Outcome.mapM_eq_ok.mp hcompiled).length_eq] at hpos
    rw [hlength]
    exact ⟨rfl, hpos, hle, mintPolicy_fits_iff issuer audience base hscopes (hle.trans hsize),
      fun grants h => length_mintPolicy hscopes h⟩
  · intro e herror
    cases hmint : service.mintPolicy cc issuer audience policy base with
    | error cause => exact ⟨cause, rfl⟩
    | ok grants =>
        obtain ⟨scopes, hscopes, -⟩ := Outcome.bind_eq_ok.mp hmint
        have hroom : scopes.length ≤ UInt64.size := (length_scopes_le hscopes).trans hsize
        obtain ⟨trial, htrial⟩ := (mintPolicy_fits_iff scratch ⟨cc.nodeId scratch⟩ 0 hscopes
          hroom).mpr (by simpa using hroom)
        rw [htrial] at herror
        cases herror

end Validated

/-! ## One role -/

section Reader

/-- Reads back exactly the policies that were printed. -/
noncomputable def readPolicy : String → Except String Policy :=
  Outcome.readBack fun p => p.toJson.pretty

theorem readPolicy_pretty (p : Policy) : readPolicy p.toJson.pretty = .ok p :=
  Outcome.readBack_print (f := fun p : Policy => p.toJson.pretty)
    (fun _ _ h => Policy.toJson_injective (Json.pretty_injective h)) p

def unconditional : ConditionArgs := ⟨0, 0, none, none, none, [], none⟩

def readerPolicy : Policy := simplePolicy ["read"] .any (buildConditions 1000 unconditional)

def readerText : String := readerPolicy.toJson.pretty

/-- A machine without a key, on which the document is at hand. -/
def readerEnv : CommandEnv NodeId := ⟨1000, .error "no key", .ok "iam", .ok readerText, .ok ()⟩

/-- The catalog after the removal of a role, after the publication of another one, and after its
compaction. -/
def removedStore : CatalogStore :=
  (CatalogStore.apply (.ok ()) (.removeRole "ops") none
    ⟨"iam" ++ "/catalog.json", .new, .new⟩ none).2.1

def readerStore : CatalogStore :=
  (CatalogStore.apply (.ok ()) (.putRole ⟨"reader", none, readerPolicy⟩) none
    removedStore none).2.1

def compactedStore : CatalogStore := (CatalogStore.compact (.ok ()) readerStore none).2.1

theorem removed_size : removedStore.log.toJson.pretty.utf8ByteSize ≤ maxStoreBytes := by
  rw [Json.utf8ByteSize_pretty]
  decide +kernel

theorem reader_size : readerStore.log.toJson.pretty.utf8ByteSize ≤ maxStoreBytes := by
  rw [Json.utf8ByteSize_pretty]
  decide +kernel

theorem compacted_size : compactedStore.log.toJson.pretty.utf8ByteSize ≤ maxStoreBytes := by
  rw [Json.utf8ByteSize_pretty]
  decide +kernel

theorem opened_of_size {s : CatalogStore} (h : Kept "iam" s (some s.log.toJson.pretty))
    (hsize : s.log.toJson.pretty.utf8ByteSize ≤ maxStoreBytes) :
    openCatalogStore readLog (.ok "iam") (some s.log.toJson.pretty) = .ok s := by
  rcases h.load readLog_pretty with hok | ⟨⟨text, htext, hlarge⟩, -⟩
  · exact hok
  · rw [← Option.some.inj htext] at hlarge
    exact absurd hsize (Nat.not_le.mpr hlarge)

theorem kept_removed : Kept "iam" removedStore (some removedStore.log.toJson.pretty) :=
  (kept_new "iam").run (.change (.removeRole "ops") none (.ok ())
    fun _ => .removed "ops")

theorem kept_reader : Kept "iam" readerStore (some readerStore.log.toJson.pretty) :=
  kept_removed.run (.change (.putRole ⟨"reader", none, readerPolicy⟩) none
    (.ok ()) fun _ => .removed "")

theorem ops_removed : cmdRole readPolicy readLog id readerEnv (.rm "ops") none =
    (.ok (.removed "ops"), some removedStore.log.toJson.pretty) := rfl

theorem reader_published : cmdRole readPolicy readLog id readerEnv (.put "reader" none)
      (some removedStore.log.toJson.pretty) =
    (.ok (.put "reader" 2), some readerStore.log.toJson.pretty) := by
  have hpolicy : Policy.fromJson readPolicy readerText = .ok readerPolicy :=
    fromJson_simplePolicy ["read"] readPolicy_pretty .any _
  have hjob := roleJob_put "reader" id readerEnv none rfl hpolicy
  have hopen := opened_of_size kept_removed removed_size
  have hdir : readerEnv.iamDir = .ok "iam" := rfl
  simp only [cmdRole, hjob, hdir, hopen]
  rfl

theorem reader_compacted : cmdRole readPolicy readLog id readerEnv .compact
      (some readerStore.log.toJson.pretty) =
    (.ok (.compacted 1), some compactedStore.log.toJson.pretty) := by
  have hopen := opened_of_size kept_reader reader_size
  have hdir : readerEnv.iamDir = .ok "iam" := rfl
  simp only [cmdRole, roleJob, hdir, hopen]
  rfl

/-- The flags of a grant to a principal, and those of a grant from the role. -/
def readerFlags : GrantArgs :=
  ⟨Principal.hex ⟨.filled 2⟩, ["read"], "*", unconditional, 7, none, none, false⟩

noncomputable def issuerEnv (now : UInt64) : CommandEnv symbolic.Identity :=
  ⟨now, .ok (.filled 1), .ok "iam", .ok "", .ok ()⟩

/-- A role is published after another one was removed, and the catalog is compacted. A grant from
the role is what its flags ask for. -/
theorem published_role_grants_reader :
    roleRun readPolicy readLog id
        [(readerEnv, .rm "ops"), (readerEnv, .put "reader" none), (readerEnv, .compact)] none =
      some compactedStore.log.toJson.pretty ∧
    cmdGrant symbolic .default readLog (issuerEnv 2000)
        { readerFlags with role := some "reader", actions := [], resource := "" }
        (some compactedStore.log.toJson.pretty) =
      cmdGrant symbolic .default readLog (issuerEnv 1000) readerFlags none ∧
    ∃ reply, cmdGrant symbolic .default readLog (issuerEnv 1000) readerFlags none = .ok reply := by
  have hnew : cmdPolicy symbolic .default readPolicy (NodeId.filled 0) (issuerEnv 1000)
      (.new ["read"] "*" unconditional) = .ok (.document readerText) := rfl
  have hbefore : roleRun readPolicy readLog id [(readerEnv, .rm "ops")] none =
      some removedStore.log.toJson.pretty := congrArg Prod.snd ops_removed
  have hput := reader_published
  rw [← hbefore] at hput
  have hrun : roleRun readPolicy readLog id ([(readerEnv, .rm "ops")] ++
      (readerEnv, .put "reader" none) :: [(readerEnv, .compact)]) none =
        some compactedStore.log.toJson.pretty := by
    rw [roleRun, Machine.after_append, Machine.after_cons, Machine.after_cons, Machine.after_nil,
      ← roleRun, hput]
    exact congrArg Prod.snd reader_compacted
  have hissuer : (issuerEnv 2000).iamDir = .ok "iam" := rfl
  have hgrants := published_role_grants
    (a := { readerFlags with role := some "reader", actions := [], resource := "" })
    [(readerEnv, .rm "ops")] [(readerEnv, .compact)] readLog_pretty readPolicy_pretty
    (List.cons_ne_nil _ _) hnew (by simp [readerEnv]) rfl (congrArg Prod.fst hput)
    (by simp [RoleCmd.Spares]) hissuer rfl rfl none
  rw [hrun] at hgrants
  refine ⟨hrun, ?_, ?_⟩
  · rcases hgrants with hsame | ⟨⟨file, hfile, hlong⟩, -⟩
    · exact hsame
    · rw [← Option.some.inj hfile] at hlong
      exact absurd compacted_size (Nat.not_le.mpr hlong)
  · simp only [cmdGrant, issuerEnv, readerFlags, parsePrincipal, Principal.parse_hex]
    exact ⟨_, rfl⟩

/-- The policy of two scopes is issued from the nonce 7, and not from the last one. -/
theorem validation_exact_twoScopes :
    (∃ grants, Iam.default.mintPolicy symbolic (NodeId.filled 1) ⟨.filled 2⟩ twoScopes 7 =
      .ok grants) ∧
    ¬ ∃ grants, Iam.default.mintPolicy symbolic (NodeId.filled 1) ⟨.filled 2⟩ twoScopes
      (UInt64.ofNat (UInt64.size - 1)) = .ok grants := by
  have hpolicy : Policy.fromJson readPolicy twoScopes.toJson.pretty = .ok twoScopes :=
    Outcome.bind_eq_ok.mpr ⟨_, Outcome.mapError_eq_ok.mpr (readPolicy_pretty _), rfl⟩
  have hcount : (Iam.default.mintPolicy symbolic (NodeId.filled 0) ⟨.filled 0⟩ twoScopes 0).map
      List.length = .ok 2 := by
    decide +kernel
  obtain ⟨grants, hminted, hlength⟩ := Outcome.map_eq_ok.mp hcount
  have hvalid : cmdPolicy symbolic .default readPolicy (NodeId.filled 0)
      { issuerEnv 0 with input := .ok twoScopes.toJson.pretty } .validate = .ok (.valid 2 2) := by
    refine Outcome.bind_eq_ok.mpr ⟨_, rfl, Outcome.bind_eq_ok.mpr
      ⟨_, Outcome.mapError_eq_ok.mpr hpolicy, Outcome.bind_eq_ok.mpr
        ⟨grants, Outcome.mapError_eq_ok.mpr hminted, ?_⟩⟩⟩
    rw [hlength]
    rfl
  have hfits : ∀ base, _ := fun base =>
    ((validation_exact rfl hpolicy (by decide) (NodeId.filled 1) ⟨.filled 2⟩ base).1 2 2
      hvalid).2.2.2.1
  exact ⟨(hfits 7).mpr (by decide), fun h => absurd ((hfits _).mp h) (by decide)⟩

end Reader

end Cli

end CeIam
