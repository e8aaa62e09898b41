import CeIam.Verification.Vault.Invariants
import Mathlib.Logic.Function.Basic

/-! # The vault is a versioned map

Seen from outside, an enrolled device uses a map from names to the puts made since the name
was last deleted. Enrollment, tokens and the master are behind it: they decide who can look,
not what there is. -/

namespace CeIam.Vault

open StoreProg

/-! ## The versioned map -/

/-- One successful put: what was put, and the clock readings of the call. -/
structure Put where
  bytes : Bytes
  kind : String
  createdAt : String
  rotatedAt : String

/-- The puts under each name since it was last deleted. -/
abbrev Versions := String → List Put

variable {cs : CeSecrets}

/-- The public data of a name: the last put, the time of the first, and their number. -/
def describe (cs : CeSecrets) (name : String) (puts : List Put) : Option SecretMeta :=
  match puts.head?, puts.getLast? with
  | some first, some last =>
      some
        { name := name
          kind := last.kind
          version := puts.length
          fp := cs.fingerprint last.bytes
          pub := none
          createdAt := first.createdAt
          rotatedAt := if puts.length = 1 then none else some last.rotatedAt }
  | _, _ => none

/-- A successful put is one more version, and a deletion forgets them all. -/
def Call.act (a : Versions) (c : Call cs) : Versions :=
  match c.op, c.result with
  | .putSecret name bytes kind, .ok _ =>
      Function.update a name (a name ++ [⟨bytes, kind, c.env.now 0, c.env.now 1⟩])
  | .deleteSecret name, .ok _ => Function.update a name []
  | _, _ => a

/-! ## Records of secrets -/

variable {v : Vault cs} {env : Moment cs} {s t : OrdMap String Json} {name : String}
  {puts : List Put} {master : Bytes}

@[simp] theorem asStr_optionalStr (o : Option String) : (optionalStr o).asStr = o := by
  cases o <;> rfl

/-- What readers find in the record of a secret. -/
theorem fields_secretRecord {info : SecretMeta} {box : cs.SealedSecret} {record : Json}
    (h : v.secretRecord env info box = .ok record) (hversion : info.version < UInt64.size) :
    secretMeta record = info ∧ strField record "type" = some info.kind ∧
      strField record "public" = info.pub ∧ strField record "fp" = some info.fp ∧
      strField record "createdAt" = some info.createdAt ∧
      (record.field "version").bind Json.asU64 = some info.version ∧
      record.field "sealed" = some (cs.sealedToJson box) := by
  obtain ⟨sig, -, hret⟩ := Outcome.bind_eq_ok.mp h
  cases hret
  generalize hrecord : Json.ofFields _ = record
  have hname : strField record "name" = some info.name := by
    simp [← hrecord, strField, Json.field_ofFields]
  have hkind : strField record "type" = some info.kind := by
    simp [← hrecord, strField, Json.field_ofFields]
  have hpub : strField record "public" = info.pub := by
    simp [← hrecord, strField, Json.field_ofFields]
  have hfp : strField record "fp" = some info.fp := by
    simp [← hrecord, strField, Json.field_ofFields]
  have hcreated : strField record "createdAt" = some info.createdAt := by
    simp [← hrecord, strField, Json.field_ofFields]
  have hrotated : strField record "rotatedAt" = info.rotatedAt := by
    simp [← hrecord, strField, Json.field_ofFields]
  have hnumber : (record.field "version").bind Json.asU64 = some info.version := by
    have hfield : record.field "version" = some (.int info.version) := by
      simp [← hrecord, Json.field_ofFields]
    rw [hfield, Option.bind_some, Json.asU64_int hversion]
  have hsealed : record.field "sealed" = some (cs.sealedToJson box) := by
    simp [← hrecord, Json.field_ofFields]
  refine ⟨?_, hkind, hpub, hfp, hcreated, hnumber, hsealed⟩
  simp only [secretMeta, hname, hkind, hpub, hfp, hcreated, hrotated, hnumber, Option.getD_some]
/-- The record of a name with these puts, under the master. -/
def Represents (cs : CeSecrets) (master : Bytes) (name : String) (puts : List Put)
    (o : Option Json) : Prop :=
  (puts = [] ∧ o = none) ∨
    ∃ (v : Vault cs) (env : Moment cs) (info : SecretMeta) (last : Put) (box : cs.SealedSecret)
      (seed : cs.Seed) (record : Json), o = some record ∧ puts.length < UInt64.size ∧
      describe cs name puts = some info ∧ puts.getLast? = some last ∧
      v.secretRecord env info box = .ok record ∧ cs.sealSecret master last.bytes seed = .ok box

/-- A put after others keeps the time of the first one. -/
theorem describe_concat (first : Put) (rest : List Put) (p : Put) :
    describe cs name (first :: rest ++ [p]) =
      some
        { name := name
          kind := p.kind
          version := (first :: rest).length + 1
          fp := cs.fingerprint p.bytes
          pub := none
          createdAt := first.createdAt
          rotatedAt := some p.rotatedAt } := by
  have hlast : (first :: rest ++ [p]).getLast? = some p := List.getLast?_concat
  simp only [describe, hlast]
  simp

/-- The next version of a secret describes the puts with the new one. -/
theorem describe_nextMeta {o : Option Json} {bytes : Bytes} {kind : String} {info : SecretMeta}
    (h : Represents cs master name puts o)
    (hinfo : nextMeta env name bytes kind none false o = .ok info) :
    let all := puts ++ [⟨bytes, kind, env.now 0, env.now 1⟩]
    describe cs name all = some info ∧ all.length < UInt64.size := by
  rw [nextMeta] at hinfo
  split at hinfo
  · next hfits =>
      cases hinfo
      rcases h with ⟨rfl, rfl⟩ | ⟨v, env', info, last, box, seed, record, rfl, hlen, hinfo, hlast,
        hrecord, -⟩
      · simp [describe]
      · cases puts with
        | nil => cases hlast
        | cons first rest =>
            simp only [describe, List.head?_cons, hlast, Option.some.injEq] at hinfo
            subst hinfo
            obtain ⟨-, -, hpub, -, hcreated, hnumber, -⟩ := fields_secretRecord hrecord hlen
            simp only [Option.bind_some, hnumber, Option.getD_some] at hfits ⊢
            refine ⟨?_, by rwa [List.length_append]⟩
            simp only [describe_concat, hpub, hcreated, Option.getD_some, Option.isSome_some,
              Bool.or_true, if_true]
            rfl
  · cases hinfo

/-! ## Secrets along a call -/

/-- Every name is represented by its record. -/
def Tracks (cs : CeSecrets) (master : Bytes) (a : Versions) (s : OrdMap String Json) : Prop :=
  ∀ name, Represents cs master name (a name) (look s (.secret name))

variable {op : Op} {reply : Reply} {a : Versions}

/-- Only a put or a deletion of the name changes its record. -/
theorem Effect.look_secret (h : Effect v env s op reply t)
    (hput : ∀ bytes kind, op ≠ .putSecret name bytes kind) (hdelete : op ≠ .deleteSecret name) :
    look t (.secret name) = look s (.secret name) := by
  cases h with
  | init label t hmeta h =>
      obtain ⟨record, -, rfl⟩ := h
      simp
  | recover label t h =>
      obtain ⟨record, -, rfl⟩ := h
      simp
  | putSecret name' bytes kind =>
      have hne : name' ≠ name := fun heq => hput bytes kind (heq ▸ rfl)
      simp [hne]
  | deleteSecret name' =>
      have hne : name' ≠ name := fun heq => hdelete (heq ▸ rfl)
      simp [hne]
  | _ => simp

/-- Only a put or a deletion of the name changes its versions. -/
theorem act_eq {c : Call cs} (hput : ∀ bytes kind, c.op ≠ .putSecret name bytes kind)
    (hdelete : c.op ≠ .deleteSecret name) : c.act a name = a name := by
  obtain ⟨device, env, op, result⟩ := c
  cases op with
  | putSecret name' bytes kind =>
      have hne : name ≠ name' := fun heq => hput bytes kind (heq ▸ rfl)
      cases result with
      | error e => rfl
      | ok reply => simp [Call.act, hne]
  | deleteSecret name' =>
      have hne : name ≠ name' := fun heq => hdelete (heq ▸ rfl)
      cases result with
      | error e => rfl
      | ok reply => simp [Call.act, hne]
  | _ => rfl

/-- A call that succeeds changes record and versions alike. -/
theorem Tracks.call {c : Call cs} {ns : String} (ha : Tracks cs master a s)
    (hresult : c.result = .ok reply) (h : Effect ⟨c.device, ns⟩ c.env s c.op reply t)
    (hmaster : ∀ m, (⟨c.device, ns⟩ : Vault cs).Holds s m → m = master) :
    Tracks cs master (c.act a) t := by
  intro name
  by_cases hput : ∀ bytes kind, c.op ≠ .putSecret name bytes kind
  · by_cases hdelete : c.op ≠ .deleteSecret name
    · rw [act_eq hput hdelete, h.look_secret hput hdelete]
      exact ha name
    · obtain ⟨device, env, op, result⟩ := c
      cases not_not.mp hdelete
      cases hresult
      cases h
      exact .inl ⟨by simp [Call.act], by simp⟩
  · simp only [not_forall, not_not] at hput
    obtain ⟨bytes, kind, hop⟩ := hput
    obtain ⟨device, env, op, result⟩ := c
    cases hop
    cases hresult
    cases h with
    | putSecret _ _ _ m box info record hholds hsealed hinfo hrecord =>
        cases hmaster m hholds
        obtain ⟨hdescribe, hlength⟩ := describe_nextMeta (ha name) hinfo
        refine .inr ⟨_, _, info, ⟨bytes, kind, env.now 0, env.now 1⟩, box, _, record, by simp,
          ?_, ?_, ?_, hrecord, hsealed⟩
        · simpa [Call.act] using hlength
        · simpa [Call.act] using hdescribe
        · simp [Call.act]

/-! ## The simulation -/

variable {devices : Set (DeviceKey cs.toKeyPairs)} {ns : String} {owner : DeviceKey cs.toKeyPairs}

/-- A successful call that makes its device the owner. -/
def Call.Establishes (c : Call cs) : Prop :=
  ∃ reply, c.result = .ok reply ∧ Claims c.op reply

/-- Without an owner there are no versions; with one, records and versions agree. -/
def Simulates (devices : Set (DeviceKey cs.toKeyPairs)) (ns : String)
    (owner : DeviceKey cs.toKeyPairs) (s : OrdMap String Json) (a : Versions) : Prop :=
  (Every (Unclaimed devices) s ∧ ∀ master, Tracks cs master a s) ∨
    ∃ master, Owned devices ns owner master s ∧ Tracks cs master a s

theorem Simulates.empty : Simulates devices ns owner ∅ (fun _ => []) :=
  .inl ⟨every_empty, fun _ _ => .inl ⟨rfl, look_empty⟩⟩

/-- An operation that fails changes nothing. -/
theorem act_error {c : Call cs} {e : String} (h : c.result = .error e) : c.act a = a := by
  obtain ⟨device, env, op, result⟩ := c
  cases h
  cases op <;> rfl

theorem Simulates.call (laws : cs.VaultLaws) (hids : Set.InjOn DeviceKey.id devices)
    {c : Call cs} (hs : Simulates devices ns owner s a) (hcall : called devices ns s c t)
    (howner : c.Establishes → c.device = owner) :
    Simulates devices ns owner t (c.act a) := by
  rcases called_cases hcall with ⟨e, hresult, rfl⟩ | ⟨reply, hresult, heffect⟩
  · rwa [act_error hresult]
  rcases hs with ⟨hs, ha⟩ | ⟨master, hs, ha⟩
  · have hfree : ∀ master, Tracks cs master (c.act a) t := fun master =>
      (ha master).call hresult heffect fun m hholds => absurd hholds (not_holds_unclaimed hs)
    rcases heffect.unclaimed laws hcall.1 hs with ht | ⟨hclaims, master, ht⟩
    · exact .inl ⟨ht, hfree⟩
    · rw [howner ⟨reply, hresult, hclaims⟩] at ht
      exact .inr ⟨master, ht, hfree master⟩
  · have hrecover : ∀ label, c.op = .recover label → c.device = owner := fun label hop =>
      howner ⟨reply, hresult, label, .inr hop⟩
    refine .inr ⟨master, heffect.owned laws hids hcall.1 hrecover hs, ?_⟩
    exact ha.call hresult heffect fun m hholds => hs.holds_eq hids hcall.1 hholds

/-! ## What devices see -/

/-- The operations that read secrets answer from the versions. -/
structure Implements (devices : Set (DeviceKey cs.toKeyPairs)) (ns : String)
    (s : OrdMap String Json) (a : Versions) : Prop where
  reads : ∀ device ∈ devices, s[deviceKey device.id]? ≠ none → ∀ name,
    ((getSecret ⟨device, ns⟩ name).run memStore s).1.toOption =
      (a name).getLast?.map fun p => ⟨p.bytes, p.kind, none⟩
  locked : ∀ device : DeviceKey cs.toKeyPairs, s[deviceKey device.id]? = none → ∀ name,
    ((getSecret ⟨device, ns⟩ name).run memStore s).1.toOption = none
  fingerprints : ∀ name, ((fingerprint name).run memStore s).1 =
    .ok ((a name).getLast?.map fun p => cs.fingerprint p.bytes)
  listing : ∃ infos, (listSecrets.run memStore s).1 = .ok infos ∧
    (infos.map SecretMeta.name).Pairwise (· < ·) ∧
    ∀ info, info ∈ infos ↔ describe cs info.name (a info.name) = some info

/-- A read that fails finds nothing. -/
theorem toOption_eq_none {α : Type} {x : Prog α}
    (h : ∀ r t, x.run memStore s ≠ (.ok r, t)) : (x.run memStore s).1.toOption = none := by
  cases hrun : x.run memStore s with
  | mk result t =>
      cases result with
      | error e => rfl
      | ok r => exact absurd hrun (h r t)

/-- What is read from the record of a name. -/
theorem Represents.found (laws : cs.VaultLaws) {record : Json}
    (h : Represents cs master name puts (some record)) :
    ∃ last, puts.getLast? = some last ∧ describe cs name puts = some (secretMeta record) ∧
      (secretMeta record).name = name ∧
      strField record "fp" = some (cs.fingerprint last.bytes) ∧
      openSecret cs master record = .ok ⟨last.bytes, last.kind, none⟩ := by
  rcases h with ⟨-, hnone⟩ | ⟨v, env, info, last, box, seed, r, hr, hlen, hinfo, hlast, hrecord,
    hsealed⟩
  · cases hnone
  · cases hr
    cases puts with
    | nil => cases hlast
    | cons first rest =>
        have hdescribe := hinfo
        simp only [describe, List.head?_cons, hlast, Option.some.injEq] at hinfo
        subst hinfo
        obtain ⟨hmeta, hkind, hpub, hfp, -, -, hbox⟩ := fields_secretRecord hrecord hlen
        refine ⟨last, hlast, hmeta ▸ hdescribe, by rw [hmeta], hfp, ?_⟩
        simp only [openSecret, Outcome.bind_eq_ok, Outcome.require_eq_ok, context_eq_ok]
        refine ⟨_, hbox, box, laws.read_sealed box, _, laws.decrypt_seal hsealed, ?_⟩
        rw [hkind, hpub]
        rfl

theorem getLast?_of_look_none (h : Represents cs master name puts none) : puts = [] := by
  rcases h with ⟨hnil, -⟩ | ⟨_, _, _, _, _, _, _, hr, -⟩
  · exact hnil
  · cases hr

/-- An enrolled device reads the last put of a name. -/
theorem Owned.reads (laws : cs.VaultLaws) (hids : Set.InjOn DeviceKey.id devices)
    (hs : Owned devices ns owner master s) (ha : Tracks cs master a s)
    {device : DeviceKey cs.toKeyPairs} (hdevice : device ∈ devices)
    (henrolled : s[deviceKey device.id]? ≠ none) (name : String) :
    ((getSecret ⟨device, ns⟩ name).run memStore s).1.toOption =
      (a name).getLast?.map fun p => ⟨p.bytes, p.kind, none⟩ := by
  have hrep := ha name
  cases hlook : look s (.secret name) with
  | none =>
      rw [hlook] at hrep
      rw [getLast?_of_look_none hrep]
      apply toOption_eq_none
      intro r t hrun
      obtain ⟨record, m, hrecord, -⟩ := getSecret_ok.mp hrun
      rw [hlook] at hrecord
      cases hrecord
  | some record =>
      rw [hlook] at hrep
      obtain ⟨last, hlast, -, -, -, hopen⟩ := hrep.found laws
      obtain ⟨enrolled, henrolled⟩ := Option.ne_none_iff_exists'.mp henrolled
      obtain ⟨d, hd, hid, hmaster⟩ := hs.under (.device device.id) enrolled henrolled
      cases hids hd hdevice hid
      have hholds : (⟨device, ns⟩ : Vault cs).Holds s master := ⟨enrolled, henrolled, hmaster⟩
      rw [getSecret_ok.mpr ⟨record, master, hlook, hholds, hopen, rfl⟩, hlast]
      rfl

/-- A device that is not enrolled reads nothing. -/
theorem getSecret_locked {device : DeviceKey cs.toKeyPairs}
    (h : s[deviceKey device.id]? = none) (name : String) :
    ((getSecret ⟨device, ns⟩ name).run memStore s).1.toOption = none := by
  apply toOption_eq_none
  intro r t hrun
  obtain ⟨_, m, -, ⟨enrolled, henrolled, -⟩, -⟩ := getSecret_ok.mp hrun
  have hget : s[deviceKey device.id]? = some enrolled := henrolled
  rw [h] at hget
  cases hget

theorem Tracks.fingerprint (laws : cs.VaultLaws) (ha : Tracks cs master a s) (name : String) :
    ((fingerprint name).run memStore s).1 =
      .ok ((a name).getLast?.map fun p => cs.fingerprint p.bytes) := by
  have hrep := ha name
  change Except.ok ((look s (.secret name)).bind (strField · "fp")) = _
  cases hlook : look s (.secret name) with
  | none =>
      rw [hlook] at hrep
      rw [getLast?_of_look_none hrep]
      rfl
  | some record =>
      rw [hlook] at hrep
      obtain ⟨last, hlast, -, -, hfp, -⟩ := hrep.found laws
      rw [hlast, Option.bind_some, hfp]
      rfl

/-- The records under the prefix of secrets are those of the names. -/
theorem mem_scan_secrets {e : String × Json} :
    e ∈ s.scanPrefix "s." ↔ ∃ name, e.1 = secretKey name ∧ look s (.secret name) = some e.2 := by
  rw [OrdMap.mem_scanPrefix, Text.startsWith_iff]
  constructor
  · rintro ⟨hget, name, hkey⟩
    refine ⟨name, hkey, ?_⟩
    rw [hkey] at hget
    exact hget
  · rintro ⟨name, hkey, hlook⟩
    rw [hkey]
    exact ⟨hlook, name, rfl⟩

theorem Tracks.entry (laws : cs.VaultLaws) (ha : Tracks cs master a s) {e : String × Json}
    (h : e ∈ s.scanPrefix "s.") : e.1 = secretKey (secretMeta e.2).name ∧
      describe cs (secretMeta e.2).name (a (secretMeta e.2).name) = some (secretMeta e.2) := by
  obtain ⟨name, hkey, hlook⟩ := mem_scan_secrets.mp h
  have hrep := ha name
  rw [hlook] at hrep
  obtain ⟨_, -, hdescribe, hname, -, -⟩ := hrep.found laws
  rw [hname]
  exact ⟨hkey, hdescribe⟩

/-- The scan lists the names in increasing order. -/
theorem Tracks.sorted (laws : cs.VaultLaws) (ha : Tracks cs master a s) :
    ((s.scanPrefix "s.").map fun e => secretMeta e.2).Pairwise (fun x y => x.name < y.name) := by
  rw [List.pairwise_map]
  have hkeys : (s.scanPrefix "s.").Pairwise (fun x y => x.1 < y.1) := by
    rw [OrdMap.scanPrefix_eq_filter]
    exact s.sorted_toList.filter _
  refine hkeys.imp_of_mem ?_
  intro x y hx hy hlt
  rw [(ha.entry laws hx).1, (ha.entry laws hy).1, secretKey, secretKey,
    Text.append_lt_append_iff] at hlt
  exact hlt

/-- The list of secrets has every live name once, in increasing order. -/
theorem Tracks.listing (laws : cs.VaultLaws) (ha : Tracks cs master a s) :
    ∃ infos, (listSecrets.run memStore s).1 = .ok infos ∧
      (infos.map SecretMeta.name).Pairwise (· < ·) ∧
      ∀ info, info ∈ infos ↔ describe cs info.name (a info.name) = some info := by
  have hsorted := ha.sorted laws
  refine ⟨(s.scanPrefix "s.").map fun e => secretMeta e.2, ?_, List.pairwise_map.mpr hsorted, ?_⟩
  · have hle : ((s.scanPrefix "s.").map fun e => secretMeta e.2).Pairwise
        (fun x y => decide (x.name ≤ y.name)) := hsorted.imp fun h => decide_eq_true h.le
    exact congrArg Except.ok (List.mergeSort_of_pairwise hle)
  · intro info
    rw [List.mem_map]
    constructor
    · rintro ⟨e, he, rfl⟩
      exact (ha.entry laws he).2
    · intro hdescribe
      have hrep := ha info.name
      cases hlook : look s (.secret info.name) with
      | none =>
          rw [hlook] at hrep
          rw [getLast?_of_look_none hrep] at hdescribe
          cases hdescribe
      | some record =>
          rw [hlook] at hrep
          obtain ⟨_, -, hfound, -, -, -⟩ := hrep.found laws
          have hmem : (secretKey info.name, record) ∈ s.scanPrefix "s." :=
            mem_scan_secrets.mpr ⟨info.name, rfl, hlook⟩
          exact ⟨_, hmem, Option.some.inj (hfound.symm.trans hdescribe)⟩

/-- When one device only establishes the vault, then along every run the enrolled devices use
a versioned map, and nobody else reads it. -/
theorem vault_implements (laws : cs.VaultLaws) (hids : Set.InjOn DeviceKey.id devices)
    {calls : List (Call cs)} (hrun : Run (called devices ns) ∅ calls s)
    (owner : DeviceKey cs.toKeyPairs) (howner : ∀ c ∈ calls, c.Establishes → c.device = owner) :
    Implements devices ns s (calls.foldl Call.act fun _ => []) := by
  have hsim : Simulates devices ns owner s (calls.foldl Call.act fun _ => []) :=
    (hrun.restrict howner).abstraction
      (fun s c t a ha hstep => ha.call laws hids hstep.1 hstep.2) .empty
  rcases hsim with ⟨hs, ha⟩ | ⟨master, hs, ha⟩
  · refine ⟨?_, fun device h name => getSecret_locked h name, (ha []).fingerprint laws,
      (ha []).listing laws⟩
    intro device hdevice henrolled
    obtain ⟨record, hrecord⟩ := Option.ne_none_iff_exists'.mp henrolled
    exact (hs (.device device.id) record hrecord).elim
  · exact ⟨fun device hdevice henrolled => hs.reads laws hids ha hdevice henrolled,
      fun device h name => getSecret_locked h name, ha.fingerprint laws, ha.listing laws⟩

/-! ## A vault with one owner -/

/-- The call that a device makes at noon, with what it returns. -/
noncomputable def noonCall (device : DeviceKey CeSecrets.symbolic.toKeyPairs) (op : Op)
    (s : OrdMap String Json) : Call .symbolic :=
  ⟨device, noon, op, ((exec ⟨device, "home"⟩ noon op).run memStore s).1⟩

theorem called_noon {devices : Set (DeviceKey CeSecrets.symbolic.toKeyPairs)}
    {device : DeviceKey CeSecrets.symbolic.toKeyPairs} (h : device ∈ devices) (op : Op)
    (s : OrdMap String Json) : called devices "home" s (noonCall device op s)
      ((exec ⟨device, "home"⟩ noon op).run memStore s).2 :=
  ⟨h, rfl⟩

theorem vault_implements_laptop :
    ∃ calls s, Run (called {laptop, phone} "home") ∅ calls s ∧
      calls.map Call.op = [.init "laptop", .putSecret "api-key" [1, 2, 3] "opaque"] ∧
      Implements {laptop, phone} "home" s (calls.foldl Call.act fun _ => []) := by
  have hinit := called_noon (Set.mem_insert laptop {phone}) (.init "laptop") ∅
  have hput := called_noon (Set.mem_insert laptop {phone})
    (.putSecret "api-key" [1, 2, 3] "opaque")
    ((exec ⟨laptop, "home"⟩ noon (.init "laptop")).run memStore ∅).2
  have hrun := (Run.single hinit).snoc hput
  refine ⟨_, _, hrun, rfl, vault_implements CeSecrets.symbolic_vaultLaws injOn_laptop_phone hrun
    laptop ?_⟩
  rintro c hc -
  rcases List.mem_append.mp hc with hc | hc
  · rw [List.mem_singleton.mp hc]
    rfl
  · rw [List.mem_singleton.mp hc]
    rfl

end CeIam.Vault
