import CeIam.Library.Words
import CeIam.Verification.Grant.Bindings
import CeIam.Verification.Vault.Tokens

/-! # Ends of grants and tokens

An operator grant ends at the sum of the clock and the lifetime in unsigned words. A token ends
at a sum in signed ones, after the lifetime is cast. Neither sum saturates. -/

namespace CeIam

/-! ## Operator grants -/

/-- The caveats of the last link of a token. -/
def tokenCaveats (cc : CeCap) (token : String) : Option Caveats :=
  match cc.decodeChain token with
  | .ok chain => chain.getLast?.map (·.cap.caveats)
  | .error _ => none

variable {cc : CeCap}

/-- A token has the caveats of its policy. -/
theorem tokenCaveats_mint (laws : IssueLaws cc) {iam : Iam} {issuer : cc.Identity}
    {audience : Principal} {actions : List String} {resource : ResourceMatch}
    {conditions : Conditions} {nonce : UInt64} {g : Grant}
    (h : iam.mint cc issuer audience (.allow actions resource conditions) nonce = .ok g) :
    tokenCaveats cc g.token = some conditions.toCaveats := by
  obtain ⟨scope, hscope, rfl⟩ := Iam.mint_eq_ok.mp h
  have hcaveats := (Iam.compileGroup_eq_ok (Iam.compile_allow.mp hscope)).2.2
  simp [tokenCaveats, Iam.issueRoot, Grant.fromChain, laws.decode_encode, laws.issue_cap, hcaveats]

namespace Iam

/-- Whether a policy compiles does not depend on its conditions. -/
theorem compile_under {iam : Iam} {actions : List String} {resource : ResourceMatch}
    {c d : Conditions} {scope : Scope} (h : iam.compile (.allow actions resource c) = .ok scope) :
    iam.compile (.allow actions resource d) = .ok { scope with caveats := d.toCaveats } := by
  rw [compile_allow] at h ⊢
  simp only [compileGroup, Outcome.bind_eq_ok] at h ⊢
  obtain ⟨abilities, habilities, u, hne, capResource, hresource, hscope⟩ := h
  cases hscope
  exact ⟨abilities, habilities, u, hne, capResource, hresource, rfl⟩

end Iam

namespace CapBridge

/-- The bridge has a grant for the device and the app, whatever the time is. -/
def Serves (b : CapBridge cc) (device aud : String) : Prop :=
  ∃ audience scope, Principal.parse device = .ok audience ∧
    b.iam.compile (.allow [abilityOperator, abilityForAud aud] b.resource .default) = .ok scope

/-- The bridge mints a grant that ends at the sum, or at the last instant there is: neither in
the past, nor never. -/
def MintsSaturated (b : CapBridge cc) (device aud : String) (now : UInt64) : Prop :=
  ∃ token b' caveats, b.mintOperatorGrant device aud now = (.ok token, b') ∧
    tokenCaveats cc token = some caveats ∧
    caveats.notAfter.toNat = min (now.toNat + b.ttlSecs.toNat) (2 ^ 64 - 1) ∧
    now ≤ caveats.notAfter ∧ caveats.notAfter ≠ 0

variable {b b' : CapBridge cc} {device aud token : String} {now : UInt64}

/-- A grant that is minted ends at the sum. -/
theorem notAfter_of_minted (laws : IssueLaws cc)
    (h : b.mintOperatorGrant device aud now = (.ok token, b')) :
    ∃ caveats, tokenCaveats cc token = some caveats ∧
      caveats.notAfter.toNat = now.toNat + b.ttlSecs.toNat := by
  obtain ⟨audience, notAfter, g, -, hadd, hmint, rfl, -⟩ := mintOperatorGrant_eq_ok.mp h
  exact ⟨_, tokenCaveats_mint laws hmint, Iam.checkedAdd_eq_some.mp hadd⟩

/-- A grant is saturated exactly when there is nothing to saturate. -/
theorem mintsSaturated_iff (laws : IssueLaws cc) (hserves : b.Serves device aud) :
    b.MintsSaturated device aud now ↔
      0 < now.toNat + b.ttlSecs.toNat ∧ now.toNat + b.ttlSecs.toNat < 2 ^ 64 := by
  constructor
  · rintro ⟨token, b', caveats, hminted, hcaveats, -, -, hne⟩
    obtain ⟨_, hcaveats', hend⟩ := notAfter_of_minted laws hminted
    cases hcaveats.symm.trans hcaveats'
    have hlt := caveats.notAfter.toNat_lt
    have hpos : caveats.notAfter.toNat ≠ 0 := fun h => hne (UInt64.toNat_inj.mp h)
    omega
  · rintro ⟨hpos, hfits⟩
    obtain ⟨audience, scope, hparse, hscope⟩ := hserves
    have hadd : Iam.checkedAdd now b.ttlSecs = some (now + b.ttlSecs) := if_pos hfits
    obtain ⟨token, b', hminted⟩ :=
      mintOperatorGrant_succeeds hparse hadd (Iam.compile_under hscope)
    obtain ⟨caveats, hcaveats, hend⟩ := notAfter_of_minted laws hminted
    refine ⟨token, b', caveats, hminted, hcaveats, by omega, ?_, ?_⟩
    · rw [UInt64.le_iff_toNat_le]
      omega
    · intro hzero
      rw [hzero, UInt64.toNat_zero] at hend
      exact hpos.ne hend

end CapBridge

/-! ## Enrol tokens -/

namespace Vault

open StoreProg

variable {cs : CeSecrets}

/-- The end of a token is not in the past when neither the cast nor the sum leaves the range. -/
theorem expiry_iff {now : Int64} {ttlSecs : UInt64} {e : Int} :
    expiry now ttlSecs = .ok e ∧ now.toInt ≤ e ↔
      e = now.toInt + ttlSecs.toNat ∧ ttlSecs.toNat < 2 ^ 63 ∧ e < 2 ^ 63 := by
  have hlow := now.le_toInt
  have hlt := ttlSecs.toNat_lt
  simp only [expiry, Words.toInt_toInt64]
  by_cases hcast : ttlSecs.toNat < 2 ^ 63
  · simp only [hcast, if_true, true_and]
    split_ifs with hrange
    · simp only [Except.ok.injEq]
      omega
    · simp only [false_and, false_iff]
      omega
  · simp only [hcast, if_false, false_and, and_false, iff_false]
    split_ifs with hrange
    · simp only [Except.ok.injEq]
      omega
    · simp

/-- What it takes to issue a token, whenever it ends: the vault is enrolled, the master can be
sealed, and the id has no dot. -/
structure Issues (v : Vault cs) (env : Moment cs) (s : OrdMap String Json) (master : Bytes) :
    Prop where
  holds : v.Holds s master
  sealed : ∃ box, cs.sealSecret (env.fillRandom 32) master (env.seed 0) = .ok box
  dotless : '.' ∉ (cs.fingerprint (env.fillRandom 32)).toList

/-- From the present on, devices that can be enrolled get in by the token up to its end. -/
def RedeemableUntil (cs : CeSecrets) (master : Bytes) (token : String) (record : Json)
    (now e : Int) : Prop :=
  ∀ (w : Vault cs) (env : Moment cs) (label : String) (u : OrdMap String Json),
    look u (.enrol (tokenId token)) = some record → now ≤ (env.nowSecs 0).toInt →
    (∃ enrolled, w.enrolRecord env (publicValue w.device) master
      (if label = "" then "vm device" else label) w.device.id = .ok enrolled) →
    ((∃ u', (w.redeemEnrolToken env token label).run memStore u = (.ok (), u')) ↔
      (env.nowSecs 0).toInt ≤ e)

/-- The vault issues a token that ends at the sum, or at the last instant there is, which is not
in the past, and can be redeemed until then. -/
def IssuesSaturated (v : Vault cs) (env : Moment cs) (s : OrdMap String Json) (master : Bytes)
    (label : String) (ttlSecs : UInt64) : Prop :=
  ∃ token t record e, (v.issueEnrolToken env label ttlSecs).run memStore s = (.ok token, t) ∧
    look t (.enrol (tokenId token)) = some record ∧ record.field "expires" = some (.int e) ∧
    e = min ((env.nowSecs 0).toInt + ttlSecs.toNat) (2 ^ 63 - 1) ∧ (env.nowSecs 0).toInt ≤ e ∧
    RedeemableUntil cs master token record (env.nowSecs 0).toInt e

variable {v : Vault cs} {env : Moment cs} {s t u : OrdMap String Json} {master : Bytes}
  {label token : String}

@[simp] theorem expires_offerRecord {box : cs.SealedSecret} {e : Int} :
    (offerRecord env label box e).field "expires" = some (.int e) := by
  simp [offerRecord, Json.field_ofFields]

@[simp] theorem sealed_offerRecord {box : cs.SealedSecret} {e : Int} :
    (offerRecord env label box e).field "sealed" = some (cs.sealedToJson box) := by
  simp [offerRecord, Json.field_ofFields]

/-- A redemption reads the token, makes the enrollment record and takes the token away. -/
theorem redeemEnrolToken_run {id : String} {secret : Bytes}
    (hread : readToken token = .ok (id, secret)) :
    (∃ t, (v.redeemEnrolToken env token label).run memStore s = (.ok (), t)) ↔
      ∃ record, v.admission env secret label (look s (.enrol id)) = .ok record := by
  rw [redeemEnrolToken_eq, hread]
  change (∃ t, (enterWith id v.device.id
    (v.admission env secret label (look s (.enrol id)))).run memStore s = (.ok (), t)) ↔ _
  cases v.admission env secret label (look s (.enrol id)) with
  | error e => simp [enterWith, run]
  | ok record => simp [enterWith, enter, burn, run]

/-- What was sealed in a token is found until the token ends. -/
theorem openToken_offerRecord (laws : cs.VaultLaws) {w : Moment cs} {secret : Bytes}
    {box : cs.SealedSecret} {e : Int} (he : -2 ^ 63 ≤ e ∧ e < 2 ^ 63)
    {seed : cs.Seed} (hsealed : cs.sealSecret secret master seed = .ok box) {m : Bytes} :
    openToken w secret (offerRecord env label box e) = .ok m ↔
      (w.nowSecs 0).toInt ≤ e ∧ m = master := by
  have hexpires : ((offerRecord env label box e).field "expires").bind Json.asI64 = some e := by
    rw [expires_offerRecord]
    exact if_pos he
  simp only [openToken_eq_ok, hexpires, sealed_offerRecord, Option.getD_some, not_lt]
  constructor
  · rintro ⟨hle, _, box', ⟨⟩, hbox, hopen⟩
    cases (laws.read_sealed box).symm.trans hbox
    cases (laws.decrypt_seal hsealed).symm.trans hopen
    exact ⟨hle, rfl⟩
  · rintro ⟨hle, rfl⟩
    exact ⟨hle, _, box, rfl, laws.read_sealed box, laws.decrypt_seal hsealed⟩

/-- A token can be redeemed from the present until its end. -/
theorem redeemableUntil_offerRecord (laws : cs.VaultLaws) {box : cs.SealedSecret} {e : Int}
    {id : String} {secret : Bytes} {seed : cs.Seed} (he : -2 ^ 63 ≤ e ∧ e < 2 ^ 63)
    (hsealed : cs.sealSecret secret master seed = .ok box)
    (hread : readToken token = .ok (id, secret)) (now : Int) :
    RedeemableUntil cs master token (offerRecord env label box e) now e := by
  rintro w env' label' u hlook - ⟨enrolled, henrolled⟩
  have hid : tokenId token = id := by
    rw [tokenId, hread]
  rw [redeemEnrolToken_run hread, ← hid, hlook]
  simp only [admission, Outcome.require, Outcome.ok_bind, Outcome.bind_eq_ok,
    openToken_offerRecord laws he hsealed]
  constructor
  · rintro ⟨_, m, ⟨hle, -⟩, -⟩
    exact hle
  · intro hle
    exact ⟨enrolled, master, ⟨hle, rfl⟩, henrolled⟩

/-- A token is saturated exactly when there is nothing to saturate. -/
theorem issuesSaturated_iff (laws : cs.VaultLaws) (h : Issues v env s master) {ttlSecs : UInt64} :
    IssuesSaturated v env s master label ttlSecs ↔
      ttlSecs.toNat < 2 ^ 63 ∧ (env.nowSecs 0).toInt + ttlSecs.toNat < 2 ^ 63 := by
  have hread := readToken_text (env.fillRandom 32) h.dotless
  have hid : tokenId (cs.fingerprint (env.fillRandom 32) ++ "." ++
      Hex.encode (env.fillRandom 32)) = cs.fingerprint (env.fillRandom 32) := by
    rw [tokenId, hread]
  constructor
  · rintro ⟨token, t, record, e, hissue, hlook, hexpires, -, hle, -⟩
    obtain ⟨_, box, e', -, -, hexpiry, rfl, rfl⟩ := issueEnrolToken_run.mp hissue
    rw [hid, look_place, if_pos rfl] at hlook
    cases hlook
    rw [expires_offerRecord] at hexpires
    cases hexpires
    obtain ⟨rfl, hcast, hsum⟩ := expiry_iff.mp ⟨hexpiry, hle⟩
    exact ⟨hcast, hsum⟩
  · rintro ⟨hcast, hsum⟩
    obtain ⟨box, hsealed⟩ := h.sealed
    obtain ⟨hexpiry, hle⟩ := expiry_iff.mpr ⟨rfl, hcast, hsum⟩
    have hlow := (env.nowSecs 0).le_toInt
    refine ⟨_, _, offerRecord env label box _, _, issueEnrolToken_run.mpr
      ⟨master, box, _, h.holds, hsealed, hexpiry, rfl, rfl⟩, ?_, expires_offerRecord, ?_, hle,
      redeemableUntil_offerRecord laws ⟨by omega, hsum⟩ hsealed hread _⟩
    · rw [hid, look_place, if_pos rfl]
    · omega

end Vault

/-! ## Both ends -/

/-- Operator grants end at the saturated sum, and not never, exactly when the sum is a word that
is not zero. Tokens do, and can be redeemed until then, exactly when lifetime and sum are signed
words. -/
theorem ends_saturated_iff {cc : CeCap} {cs : CeSecrets} (laws : IssueLaws cc)
    (vaultLaws : cs.VaultLaws) :
    (∀ (b : CapBridge cc) (device aud : String) (now : UInt64), b.Serves device aud →
      (b.MintsSaturated device aud now ↔
        0 < now.toNat + b.ttlSecs.toNat ∧ now.toNat + b.ttlSecs.toNat < 2 ^ 64)) ∧
    ∀ (v : Vault cs) (env : Moment cs) (s : OrdMap String Json) (master : Bytes) (label : String)
      (ttlSecs : UInt64), v.Issues env s master →
      (v.IssuesSaturated env s master label ttlSecs ↔
        ttlSecs.toNat < 2 ^ 63 ∧ (env.nowSecs 0).toInt + ttlSecs.toNat < 2 ^ 63) :=
  ⟨fun _ _ _ _ hserves => CapBridge.mintsSaturated_iff laws hserves,
    fun _ _ _ _ _ _ h => Vault.issuesSaturated_iff vaultLaws h⟩

/-- The bridge of the first identity, with any lifetime. -/
noncomputable def bridgeFor (ttlSecs : UInt64) : CapBridge Iam.symbolic :=
  .new (NodeId.filled 1) .any ttlSecs 100000000000

theorem bridgeFor_serves (ttlSecs : UInt64) :
    (bridgeFor ttlSecs).Serves (Principal.mk (.filled 2)).hex "cast" := by
  have hcompiled : ((Iam.default.withActionUniverse [abilityOperator]).compile
      (.allow [abilityOperator, abilityForAud "cast"] .any .default)).isOk = true := by
    decide +kernel
  obtain ⟨scope, hscope⟩ := Outcome.isOk_iff.mp hcompiled
  exact ⟨_, scope, Principal.parse_hex _, hscope⟩

/-- The laptop is enrolled and can issue tokens. -/
theorem laptop_can_issue : ∃ s, Vault.Issues ⟨Vault.laptop, "home"⟩ Vault.noon s
    Vault.laptop.ecdhPriv.1 := by
  obtain ⟨record, hopen, -, -⟩ := Vault.symbolic_recovers ⟨Vault.laptop, "home"⟩ Vault.noon "" ∅
  exact ⟨Vault.place ∅ (.device Vault.laptop.id) record, ⟨record, by simp, hopen⟩, ⟨_, rfl⟩,
    Hex.notMem_encode rfl _⟩

/-- A grant and a token for ten minutes. -/
theorem ends_saturated_ten_minutes :
    (bridgeFor 600).MintsSaturated (Principal.mk (.filled 2)).hex "cast" 100 ∧
      ∃ s, Vault.IssuesSaturated ⟨Vault.laptop, "home"⟩ Vault.noon s Vault.laptop.ecdhPriv.1
        "ci" 600 := by
  obtain ⟨hgrants, htokens⟩ :=
    ends_saturated_iff symbolic_issueLaws CeSecrets.symbolic_vaultLaws
  obtain ⟨s, hissues⟩ := laptop_can_issue
  exact ⟨(hgrants _ _ _ _ (bridgeFor_serves 600)).mpr (by decide),
    s, (htokens _ _ _ _ _ _ hissues).mpr (by decide +kernel)⟩

/-- A grant for the longest lifetime is not minted, and a token for half of it has ended. -/
theorem ends_not_saturated :
    (¬ ∀ ttlSecs, (bridgeFor ttlSecs).MintsSaturated (Principal.mk (.filled 2)).hex "cast" 100) ∧
      ¬ ∀ s, Vault.Issues ⟨Vault.laptop, "home"⟩ Vault.noon s Vault.laptop.ecdhPriv.1 →
        ∀ ttlSecs, Vault.IssuesSaturated ⟨Vault.laptop, "home"⟩ Vault.noon s
          Vault.laptop.ecdhPriv.1 "ci" ttlSecs := by
  constructor
  · intro hclaim
    have hfits := (CapBridge.mintsSaturated_iff symbolic_issueLaws (bridgeFor_serves _)).mp
      (hclaim 18446744073709551615)
    exact absurd hfits.2 (by decide)
  · intro hclaim
    obtain ⟨s, hissues⟩ := laptop_can_issue
    have hfits := (Vault.issuesSaturated_iff CeSecrets.symbolic_vaultLaws hissues).mp
      (hclaim s hissues 9223372036854775808)
    exact absurd hfits.1 (by decide)

end CeIam
