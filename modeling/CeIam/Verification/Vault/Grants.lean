import CeIam.Verification.Vault.Impersonation
import CeIam.Verification.Vault.Records

/-! # How long a grant lasts

A grant ends when its issuer is no longer enrolled under the key that signed it, when it is
revoked, and when it expires. An expiry that no one understands is no expiry to the verifier. -/

namespace CeIam.Vault

open StoreProg

variable {cs : CeSecrets} {v : Vault cs} {env : Moment cs} {s t : OrdMap String Json}

/-! ## Reading tokens -/

/-- Texts and records survive their encoding. -/
structure TokenLaws (cs : CeSecrets) (printed : FloatText → Prop) : Prop
    extends cs.EncodingLaws printed where
  decode_encode : ∀ raw, cs.b64urlDecode (cs.b64urlEncode raw) = .ok raw
  read_record : ∀ record : Json, record.Canonical printed Json.maxNesting →
    cs.fromSlice record.compact.toUTF8.toList = .ok record

/-- What is signed is the record before the key and the signature are added. -/
theorem signedBody_ofFields {body : List (String × Json)} {pub sig : Json}
    (hbody : ∀ e ∈ body, e.1 ≠ "issuerEcdsaPub" ∧ e.1 ≠ "sig") :
    signedBody (.ofFields (body ++ [("issuerEcdsaPub", pub), ("sig", sig)])) =
      .ofFields body := by
  have hfields : ∀ e ∈ body.foldl (fun acc e => Json.insertField e.1 e.2 acc) [],
      e.1 ≠ "issuerEcdsaPub" ∧ e.1 ≠ "sig" := by
    intro e he
    cases Json.mem_foldl_insertField he with
    | inl hmem => exact hbody e hmem
    | inr hnil => cases hnil
  simp only [Json.ofFields, List.foldl_append, List.foldl_cons, List.foldl_nil, signedBody]
  rw [Json.removeField_insertField, Json.removeField_insertField fun e he => (hfields e he).1]
  intro e he
  cases Json.mem_insertField he with
  | inl hpub => simp [hpub]
  | inr hmem => exact (hfields e hmem).2

/-- The record of a grant, as its issuer made it. -/
structure IssuedBy (device : DeviceKey cs.toKeyPairs) (seed : cs.Seed) (audience : String)
    (read : List String) (expires : Option String) (g : IssuedGrant) : Prop where
  token : g.token = cs.b64urlEncode g.record.compact.toUTF8.toList
  object : isObject g.record = true
  signature : ∃ sig, strField g.record "sig" = some sig ∧
    cs.signRecord device (signedBody g.record) seed = .ok sig
  key : g.record.field "issuerEcdsaPub" = some (cs.jwkToJson device.ecdsaPub)
  issuer : strField g.record "issuer" = some device.id
  id : strField g.record "id" = some g.id
  audience : strField g.record "audience" = some audience
  abilities : g.record.field "abilities" = some (.arr (read.map fun n => .str ("read:" ++ n)))
  expires : strField g.record "expires" = expires
  canonical : ∀ printed, cs.EncodingLaws printed → g.record.Canonical printed 9

variable {printed : FloatText → Prop}
  {device : DeviceKey cs.toKeyPairs} {seed : cs.Seed} {audience : String}
  {read : List String} {expires : Option String} {g : IssuedGrant}

theorem issueGrant_issued
    (h : (v.issueGrant env audience read expires).run memStore s = (.ok g, t)) :
    IssuedBy v.device (env.seed 0) audience read expires g := by
  simp only [issueGrant, isEnrolled, run_bind_ok, run_fetch, run_check_ok, run_lift, run_store,
    run_pure, memStore_get, memStore_put, Prod.mk.injEq, Except.ok.injEq] at h
  obtain ⟨enrolled, _, ⟨_, _, ⟨rfl, rfl⟩, rfl, rfl⟩, henrolled, sig, _, ⟨hsig, rfl⟩,
    _, _, ⟨-, rfl⟩, rfl, rfl⟩ := h
  refine ⟨rfl, rfl, ⟨sig, ?_, ?_⟩, ?_, ?_, ?_, ?_, ?_, ?_, fun printed laws => ?_⟩
  · simp [strField, Json.field_ofFields]
  · rw [signedBody_ofFields (by simp), hsig]
  · simp [Json.field_ofFields]
  · simp [strField, Json.field_ofFields]
  · simp [strField, Json.field_ofFields]
  · simp [strField, Json.field_ofFields]
  · simp [Json.field_ofFields]
  · cases expires <;> simp [strField, Json.field_ofFields, optionalStr]
  · exact canonical_grantRecord laws

/-- The token of a grant holds its record. -/
theorem IssuedBy.fromSlice (laws : TokenLaws cs printed)
    (h : IssuedBy device seed audience read expires g) :
    cs.fromSlice g.record.compact.toUTF8.toList = .ok g.record :=
  laws.read_record _ ((h.canonical _ laws.toEncodingLaws).mono (by decide))

/-- The token of a grant reads back as its record and the key of its issuer. -/
theorem readGrant_issued (laws : TokenLaws cs printed)
    (h : IssuedBy device seed audience read expires g) {grant pub : Json}
    (hread : readGrant cs g.token = .ok (grant, pub)) :
    grant = g.record ∧ pub = cs.jwkToJson device.ecdsaPub := by
  obtain ⟨raw, sig, jwk, hraw, hgrant, -, -, hpub, -⟩ := readGrant_ok.mp hread
  rw [h.token, laws.decode_encode] at hraw
  cases hraw
  rw [h.fromSlice laws] at hgrant
  cases hgrant
  rw [h.key] at hpub
  cases hpub
  exact ⟨rfl, rfl⟩

/-- A grant that permits a read has not reached the instant of its expiry. -/
theorem permitsRead_expires {record : Json} {audience action name e : String} {nowMs ms : Int}
    (h : permitsRead cs record audience action name nowMs = .ok ())
    (he : strField record "expires" = some e) (hms : cs.parseIsoMs e = some ms) : nowMs ≤ ms := by
  simp only [permitsRead, Outcome.bind_eq_ok, Outcome.ensure_eq_ok] at h
  obtain ⟨_, hexpired, -⟩ := h
  rw [he, Option.bind_some, hms] at hexpired
  simpa using hexpired

/-! ## Grants that are accepted -/

variable (v env audience read expires) in
/-- An enrolled device that can sign issues a grant. -/
theorem issueGrant_succeeds (henrolled : look s (.device v.device.id) ≠ none)
    (hsign : ∀ body, ∃ sig, cs.signRecord v.device body (env.seed 0) = .ok sig) :
    ∃ g, (v.issueGrant env audience read expires).run memStore s =
      (.ok g, place s (.grant g.id) g.record) := by
  have hthere : ¬ (!s[deviceKey v.device.id]?.isSome) = true := by
    simpa [look, Key.text, Option.isSome_iff_ne_none] using henrolled
  obtain ⟨sig, hsig⟩ := hsign (.ofFields [("id", .str (grantId (env.fillRandom 8))),
    ("audience", .str audience), ("abilities", .arr (read.map fun n => .str ("read:" ++ n))),
    ("issuer", .str v.device.id), ("issued", .str (env.now 0)), ("expires", optionalStr expires)])
  have hsucceeds : ∃ g t, (v.issueGrant env audience read expires).run memStore s = (.ok g, t) := by
    simp only [issueGrant, isEnrolled, run_bind_ok, run_fetch, run_check_ok, run_lift, run_store,
      run_pure, memStore_get, memStore_put, Prod.mk.injEq, Except.ok.injEq]
    exact ⟨_, _, _, s, ⟨_, s, ⟨rfl, rfl⟩, rfl, rfl⟩, hthere, sig, s, ⟨hsig, rfl⟩, (), _,
      ⟨trivial, rfl⟩, rfl, rfl⟩
  obtain ⟨g, t, hrun⟩ := hsucceeds
  cases issueGrant_ok hrun
  exact ⟨g, hrun⟩

/-- The checks of a grant pass for its audience and the names it was issued for, until its
expiry, if that is understood, has passed. -/
theorem permitsRead_issued (h : IssuedBy device seed audience read expires g) {name : String}
    {nowMs : Int} (hname : name ∈ read)
    (hexpires : ∀ e ms, expires = some e → cs.parseIsoMs e = some ms → nowMs ≤ ms) :
    permitsRead cs g.record audience "read" name nowMs = .ok () := by
  have hunexpired : (!(expires.bind cs.parseIsoMs).any (· < nowMs)) = true := by
    cases hms : expires.bind cs.parseIsoMs with
    | none => rfl
    | some ms =>
        obtain ⟨e, he, hparse⟩ := Option.bind_eq_some_iff.mp hms
        simpa using hexpires e ms he hparse
  simp only [permitsRead, Outcome.bind_eq_ok, Outcome.ensure_eq_ok, Outcome.require_eq_ok,
    h.expires, h.audience, h.abilities]
  refine ⟨(), hunexpired, (), trivial, _, rfl, ?_⟩
  rw [List.any_map, List.any_eq_true]
  exact ⟨name, hname, by simp [Json.asStr]⟩

/-- While its issuer is enrolled under its key and it is in the store, an issued grant is accepted
exactly when it permits what is asked. -/
theorem verifyGrant_issued_iff (laws : TokenLaws cs printed)
    (h : IssuedBy device seed audience read expires g) {record : Json}
    {reader action name : String} {nowMs : Int}
    (hjwk : cs.jwkFromJson (cs.jwkToJson device.ecdsaPub) = .ok device.ecdsaPub)
    (hvalid : ∀ body sig, cs.signRecord device body seed = .ok sig →
      cs.verifyRecord device.ecdsaPub body sig = .ok true)
    (hrecord : look t (.device device.id) = some record)
    (hkey : record.field "ecdsaPub" = some (cs.jwkToJson device.ecdsaPub))
    (hstored : look t (.grant g.id) ≠ none) :
    (verifyGrant cs g.token reader action name nowMs).run memStore t = (.ok (), t) ↔
      permitsRead cs g.record reader action name nowMs = .ok () := by
  constructor
  · intro hverify
    obtain ⟨-, grant, pub, -, -, -, hread, -, -, -, -, -, hpermits⟩ := verifyGrant_iff.mp hverify
    rw [(readGrant_issued laws h hread).1] at hpermits
    exact hpermits
  · intro hpermits
    obtain ⟨sig, hsig, hsigned⟩ := h.signature
    have hraw : cs.b64urlDecode g.token = .ok g.record.compact.toUTF8.toList := by
      rw [h.token, laws.decode_encode]
    have hread : readGrant cs g.token = .ok (g.record, cs.jwkToJson device.ecdsaPub) :=
      readGrant_ok.mpr ⟨_, sig, device.ecdsaPub, hraw, h.fromSlice laws, h.object, hsig, h.key,
        hjwk, hvalid _ _ hsigned⟩
    exact verifyGrant_iff.mpr ⟨rfl, g.record, _, device.id, record, g.id, hread, h.issuer, hrecord,
      hkey, h.id, hstored, hpermits⟩

/-! ## Runs after the issue -/

/-- The call revokes the grant. -/
def Call.RevokesGrant (id : String) (c : Call cs) : Prop :=
  c.op = .revokeGrant id ∧ ∃ reply, c.result = .ok reply

/-- The call issues a grant under the id. -/
def Call.IssuesGrant (id : String) (c : Call cs) : Prop :=
  ∃ g, c.result = .ok (.grant g) ∧ g.id = id

/-- No grant is issued under the id after its revocation. -/
def NotReissued (id : String) (calls : List (Call cs)) : Prop :=
  ∀ before c after, calls = before ++ c :: after → c.RevokesGrant id →
    ∀ c' ∈ after, ¬ c'.IssuesGrant id

/-- The issuer is enrolled under its key, nobody has revoked the grant, and its expiry, if it
was given one, is an instant that has not passed. -/
structure Lasts (cs : CeSecrets) (issuer : DeviceKey cs.toKeyPairs) (id : String)
    (expires : Option String) (calls : List (Call cs)) (t : OrdMap String Json) (nowMs : Int) :
    Prop where
  enrolled : ∃ record, look t (.device issuer.id) = some record ∧
    record.field "ecdsaPub" = some (cs.jwkToJson issuer.ecdsaPub)
  unrevoked : ∀ c ∈ calls, ¬ c.RevokesGrant id
  unexpired : ∀ e, expires = some e → ∃ ms, cs.parseIsoMs e = some ms ∧ nowMs ≤ ms

variable {op : Op} {reply : Reply} {id : String} {devices : Set (DeviceKey cs.toKeyPairs)}
  {ns : String} {c : Call cs} {calls : List (Call cs)}

/-- A grant that is there was there before, or has been issued. -/
theorem Effect.look_grant (h : Effect v env s op reply t) (ht : look t (.grant id) ≠ none) :
    look s (.grant id) ≠ none ∨ ∃ g, reply = .grant g ∧ g.id = id := by
  cases h with
  | query => exact .inl ht
  | found => exact .inl ht
  | init label _ hmeta hestablished =>
      obtain ⟨record, -, rfl⟩ := hestablished
      exact .inl (by simpa using ht)
  | recover label _ hestablished =>
      obtain ⟨record, -, rfl⟩ := hestablished
      exact .inl (by simpa using ht)
  | issueGrant audience read expires g henrolled =>
      rw [look_place] at ht
      split_ifs at ht with hid
      · cases hid
        exact .inr ⟨g, rfl, rfl⟩
      · exact .inl ht
  | revokeGrant id' =>
      rw [look_drop] at ht
      split_ifs at ht
      · exact absurd rfl ht
      · exact .inl ht
  | _ => exact .inl (by simpa using ht)

theorem NotReissued.init (h : NotReissued id (calls ++ [c])) : NotReissued id calls := by
  intro before b after hcalls hrevokes b' hb'
  have hsplit : calls ++ [c] = before ++ b :: (after ++ [c]) := by simp [hcalls]
  exact h before b (after ++ [c]) hsplit hrevokes b' (List.mem_append_left _ hb')

theorem NotReissued.last (h : NotReissued id (calls ++ [c]))
    (hrevoked : ∃ b ∈ calls, b.RevokesGrant id) : ¬ c.IssuesGrant id := by
  obtain ⟨b, hb, hrevokes⟩ := hrevoked
  obtain ⟨before, after, hcalls⟩ := List.append_of_mem hb
  have hsplit : calls ++ [c] = before ++ b :: (after ++ [c]) := by simp [hcalls]
  exact h before b (after ++ [c]) hsplit hrevokes c (by simp)

/-- A successful revocation takes the grant away. -/
theorem look_of_revokesGrant (h : called devices ns s c t) (hc : c.RevokesGrant id) :
    look t (.grant id) = none := by
  obtain ⟨hop, reply, hresult⟩ := hc
  cases called_cases h with
  | inl hfailed =>
      rw [hresult] at hfailed
      obtain ⟨e, he, -⟩ := hfailed
      cases he
  | inr hdone =>
      obtain ⟨reply', -, heffect⟩ := hdone
      rw [hop] at heffect
      cases heffect
      simp

/-- A missing grant stays missing unless one is issued under its id. -/
theorem look_of_not_issuesGrant (h : called devices ns s c t) (hs : look s (.grant id) = none)
    (hc : ¬ c.IssuesGrant id) : look t (.grant id) = none := by
  cases called_cases h with
  | inl hfailed =>
      obtain ⟨e, -, rfl⟩ := hfailed
      exact hs
  | inr hdone =>
      obtain ⟨reply, hresult, heffect⟩ := hdone
      by_contra hthere
      cases heffect.look_grant hthere with
      | inl hbefore => exact hbefore hs
      | inr hissued =>
          obtain ⟨g, rfl, hid⟩ := hissued
          exact hc ⟨g, hresult, hid⟩

/-- A revoked grant is missing as long as no other one gets its id. -/
theorem look_grant_revoked (h : Run (called devices ns) s calls t) (hfresh : NotReissued id calls)
    (hrevoked : ∃ c ∈ calls, c.RevokesGrant id) : look t (.grant id) = none := by
  refine h.history (I := fun calls t => NotReissued id calls →
    (∃ c ∈ calls, c.RevokesGrant id) → look t (.grant id) = none) ?_ (by simp) hfresh hrevoked
  intro calls s c t ih hstep hfresh hrevoked
  by_cases hc : c.RevokesGrant id
  · exact look_of_revokesGrant hstep hc
  · have hearlier : ∃ b ∈ calls, b.RevokesGrant id := by
      obtain ⟨b, hb, hrevokes⟩ := hrevoked
      cases List.mem_append.mp hb with
      | inl hmem => exact ⟨b, hmem, hrevokes⟩
      | inr hlast =>
          rw [List.mem_singleton.mp hlast] at hrevokes
          exact absurd hrevokes hc
    exact look_of_not_issuesGrant hstep (ih hfresh.init hearlier) (hfresh.last hearlier)

/-- A grant that is accepted lasts, when its expiry is understood and no other grant gets its
id after a revocation. -/
theorem grant_lasts (laws : TokenLaws cs printed) {s' u : OrdMap String Json}
    {reader action name : String} {nowMs : Int}
    (hissue : called devices ns s c s') (hop : c.op = .issueGrant audience read expires)
    (hresult : c.result = .ok (.grant g)) (hrun : Run (called devices ns) s' calls t)
    (hunderstood : ∀ e, expires = some e → cs.parseIsoMs e ≠ none)
    (hfresh : NotReissued g.id calls)
    (hverify : (verifyGrant cs g.token reader action name nowMs).run memStore t = (.ok (), u)) :
    Lasts cs c.device g.id expires calls t nowMs := by
  have hissued : IssuedBy c.device (c.env.seed 0) audience read expires g := by
    obtain ⟨-, hexec⟩ := hissue
    rw [hop, hresult] at hexec
    obtain ⟨g', hrun', hg⟩ := (run_map_ok memStore).mp hexec
    cases hg
    exact issueGrant_issued hrun'
  obtain ⟨-, grant, pub, issuer, record, id, hread, hissuer, hrecord, hkey, hid, hstored,
    hpermits⟩ := verifyGrant_iff.mp hverify
  obtain ⟨rfl, rfl⟩ := readGrant_issued laws hissued hread
  rw [hissued.issuer] at hissuer
  cases hissuer
  rw [hissued.id] at hid
  cases hid
  refine ⟨⟨record, hrecord, hkey⟩, ?_, ?_⟩
  · intro b hb hrevokes
    exact hstored (look_grant_revoked hrun hfresh ⟨b, hb, hrevokes⟩)
  · intro e he
    obtain ⟨ms, hms⟩ := Option.ne_none_iff_exists'.mp (hunderstood e he)
    exact ⟨ms, hms, permitsRead_expires hpermits (hissued.expires.trans he) hms⟩

/-! ## Two expiries -/

/-- The symbolic instance, with one timestamp that is understood. -/
noncomputable def timed : CeSecrets :=
  { CeSecrets.symbolic with
    parseIsoMs := fun text =>
      if text = "2026-06-26T13:00:00.000Z" then some 1782478800000 else none }

theorem timed_tokenLaws : TokenLaws timed fun _ => True where
  jwk := (CeSecrets.symbolic_encodingLaws _).jwk
  wrap := (CeSecrets.symbolic_encodingLaws _).wrap
  box := (CeSecrets.symbolic_encodingLaws _).box
  decode_encode raw := by
    change (Hex.decode (Hex.encode raw)).elim _ _ = _
    rw [Hex.decode_encode]
    rfl
  read_record record _ :=
    Outcome.readBack_print (Text.bytes_injective.comp Json.compact_injective) record

theorem timed_read_jwk : ∀ jwk, timed.jwkFromJson (timed.jwkToJson jwk) = .ok jwk :=
  CeSecrets.SymbolicJwk.ofJson_toJson

def clerk : DeviceKey timed.toKeyPairs := ⟨"clerk", Hex.filled 3, "clerk signing key"⟩

def shift : Moment timed where
  now := fun _ => "2026-06-26T12:00:00.000Z"
  nowSecs := fun _ => 0
  random := fun _ => 7
  seed := fun _ => ()

/-- The clerk becomes the owner of an empty store. -/
theorem clerk_established : ∃ s record, Vault.Established ⟨clerk, "home"⟩ shift "" ∅ s ∧
    look s (.device clerk.id) = some record ∧
    record.field "ecdsaPub" = some (timed.jwkToJson clerk.ecdsaPub) := by
  let v : Vault timed := ⟨clerk, "home"⟩
  have hwrap : ∃ blob, timed.wrapMaster clerk.ecdhPriv.1 clerk.ecdhPub () = .ok blob := ⟨_, rfl⟩
  obtain ⟨record, hrecord⟩ := v.enrolRecord_succeeds shift "this device (owner)" clerk.id
    (timed_read_jwk clerk.ecdhPub) hwrap fun _ => ⟨_, rfl⟩
  have howner : v.ownerRecord shift "" = .ok record := Outcome.bind_eq_ok.mpr ⟨_, rfl, hrecord⟩
  exact ⟨_, record, ⟨record, howner, rfl⟩, by simp, (enrolRecord_opens hrecord).1⟩

theorem timed_verifies (body : Json) (sig : String)
    (h : timed.signRecord clerk body () = .ok sig) :
    timed.verifyRecord clerk.ecdsaPub body sig = .ok true := by
  rw [← Except.ok.inj h]
  simp [timed, CeSecrets.symbolic, CeSecrets.symbolicVerify, DeviceKey.ecdsaPub]

/-- The clerk becomes the owner of an empty store, issues a grant and cleans up; the grant is
accepted as long as its expiry, when that is understood, has not passed. -/
theorem clerk_issues (expires : Option String) :
    ∃ s s' t g, Run (called {clerk} "home") ∅ [⟨clerk, shift, .recover "", .ok .unit⟩] s ∧
      called {clerk} "home" s
        ⟨clerk, shift, .issueGrant "vm" ["db"] expires, .ok (.grant g)⟩ s' ∧
      Run (called {clerk} "home") s' [⟨clerk, shift, .deleteSecret "old", .ok .unit⟩] t ∧
      ∀ nowMs, (∀ e ms, expires = some e → timed.parseIsoMs e = some ms → nowMs ≤ ms) →
        (verifyGrant timed g.token "vm" "read" "db" nowMs).run memStore t = (.ok (), t) := by
  let v : Vault timed := ⟨clerk, "home"⟩
  obtain ⟨s, record, hs, henrolled, hkey⟩ := clerk_established
  obtain ⟨g, hissue⟩ := v.issueGrant_succeeds shift "vm" ["db"] expires (s := s)
    (by rw [henrolled]; simp) fun _ => ⟨_, rfl⟩
  let s' := place s (.grant g.id) g.record
  refine ⟨s, s', drop s' (.secret "old"), g, .single ⟨rfl, exec_recover hs⟩,
    ⟨rfl, (run_map_ok memStore).mpr ⟨g, hissue, rfl⟩⟩, .single ⟨rfl, rfl⟩, ?_⟩
  intro nowMs hexpires
  have hissued := issueGrant_issued hissue
  have hstill : look (drop s' (.secret "old")) (.device clerk.id) = some record := by
    simpa [s'] using henrolled
  refine (verifyGrant_issued_iff timed_tokenLaws hissued (timed_read_jwk _) timed_verifies hstill
    hkey (by simp [s'])).mpr ?_
  exact permitsRead_issued hissued (by simp) hexpires

theorem grant_lasts_one_hour :
    ∃ s s' t g, called {clerk} "home" s ⟨clerk, shift,
        .issueGrant "vm" ["db"] (some "2026-06-26T13:00:00.000Z"), .ok (.grant g)⟩ s' ∧
      Run (called {clerk} "home") s' [⟨clerk, shift, .deleteSecret "old", .ok .unit⟩] t ∧
      Lasts timed clerk g.id (some "2026-06-26T13:00:00.000Z")
        [⟨clerk, shift, .deleteSecret "old", .ok .unit⟩] t 1782478800000 := by
  obtain ⟨s, s', t, g, -, hissue, hrun, hverify⟩ := clerk_issues (some "2026-06-26T13:00:00.000Z")
  have hparse : timed.parseIsoMs "2026-06-26T13:00:00.000Z" = some 1782478800000 := by
    simp [timed]
  have haccept := hverify 1782478800000 (by
    intro e ms he hms
    cases he
    rw [hparse] at hms
    cases hms
    rfl)
  refine ⟨s, s', t, g, hissue, hrun, grant_lasts timed_tokenLaws hissue rfl rfl hrun ?_ ?_ haccept⟩
  · intro e he
    cases he
    simp [hparse]
  · intro before c after hcalls hrevokes
    have hmem : c ∈ [(⟨clerk, shift, .deleteSecret "old", .ok .unit⟩ : Call timed)] := by
      rw [hcalls]
      simp
    rw [List.mem_singleton.mp hmem] at hrevokes
    cases hrevokes.1

/-- A grant that expires "tomorrow" is still accepted when that is long over. -/
theorem tomorrow_never_comes :
    ¬ ∀ (s s' t : OrdMap String Json) (g : IssuedGrant) (nowMs : Int),
      Run (called {clerk} "home") ∅ [⟨clerk, shift, .recover "", .ok .unit⟩] s →
      called {clerk} "home" s
        ⟨clerk, shift, .issueGrant "vm" ["db"] (some "tomorrow"), .ok (.grant g)⟩ s' →
      Run (called {clerk} "home") s' [⟨clerk, shift, .deleteSecret "old", .ok .unit⟩] t →
      (verifyGrant timed g.token "vm" "read" "db" nowMs).run memStore t = (.ok (), t) →
      Lasts timed clerk g.id (some "tomorrow")
        [⟨clerk, shift, .deleteSecret "old", .ok .unit⟩] t nowMs := by
  intro hclaim
  obtain ⟨s, s', t, g, hrecover, hissue, hrun, hverify⟩ := clerk_issues (some "tomorrow")
  have hparse : timed.parseIsoMs "tomorrow" = none := by
    simp [timed]
  have haccept := hverify 4102444800000 (by
    intro e ms he hms
    cases he
    rw [hparse] at hms
    cases hms)
  obtain ⟨ms, hms, -⟩ := (hclaim s s' t g _ hrecover hissue hrun haccept).unexpired _ rfl
  rw [hparse] at hms
  cases hms

end CeIam.Vault
