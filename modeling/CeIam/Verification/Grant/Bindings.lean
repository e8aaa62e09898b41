import CeIam.Verification.Grant.Compilers
import CeIam.Verification.Grant.Exactness
import CeIam.Verification.Grant.Nonces

/-! # What a token binds

Vouches and operator grants carry a peer, a name or an app as the end of an ability. Minting
reads the ability as any entry of a policy: it is trimmed, and a final star makes it a pattern.
A binding holds exactly when this makes no difference to the ability. -/

namespace CeIam

namespace Iam

variable {iam : Iam}

/-! ## What an entry stands for -/

/-- A property of everything that an entry stands for: of the trimmed entry, or of the known
actions that its pattern matches. -/
def StandsFor (iam : Iam) (entry : String) (P : String → Prop) : Prop :=
  match Text.stripSuffix (Text.trim entry) '*' with
  | none => P (Text.trim entry)
  | some stem => ∀ action ∈ iam.actionUniverse, Text.startsWith action stem = true → P action

/-- The entry stands for nothing but itself. -/
def Exact (iam : Iam) (entry : String) : Prop := iam.StandsFor entry (· = entry)

theorem standsFor_iff {entry : String} {P : String → Prop} :
    iam.StandsFor entry P ↔ ∀ action, iam.covers entry action → P action := by
  simp only [covers_iff, StandsFor]
  cases Text.stripSuffix (Text.trim entry) '*' with
  | none => simp only [forall_eq]
  | some stem => simp only [and_imp]

theorem standsFor_plain {entry : String} {P : String → Prop}
    (h : Text.stripSuffix (Text.trim entry) '*' = none) :
    iam.StandsFor entry P ↔ P (Text.trim entry) := by
  rw [StandsFor, h]

attribute [irreducible] StandsFor

theorem exact_plain {entry : String} (htrim : Text.trim entry = entry)
    (h : Text.stripSuffix entry '*' = none) : iam.Exact entry := by
  rw [Exact, standsFor_plain (htrim.symm ▸ h)]
  exact htrim

/-! ## Labels -/

/-- The front of an ability, which neither trimming nor a pattern reaches. -/
structure Label (p : String) : Prop where
  nonempty : p ≠ ""
  visible : ∀ c ∈ p.toList, Text.isWhiteSpace c = false
  literal : '*' ∉ p.toList

theorem Label.of_all {p : String} (hne : p ≠ "")
    (hall : p.toList.all (fun c => !Text.isWhiteSpace c && c != '*') = true) : Label p := by
  simp only [List.all_eq_true, Bool.and_eq_true, Bool.not_eq_true', bne_iff_ne] at hall
  exact ⟨hne, fun c hc => (hall c hc).1, fun hstar => (hall _ hstar).2 rfl⟩

/-- Whatever a labelled entry stands for has its label. -/
theorem Label.of_covers {p x action : String} (hp : Label p) (h : iam.covers (p ++ x) action) :
    ∃ y, action = p ++ y := by
  rw [covers_iff, Text.trim_append hp.nonempty hp.visible] at h
  cases hstem : Text.stripSuffix (p ++ Text.trimEnd x) '*' with
  | none =>
      rw [hstem] at h
      exact ⟨Text.trimEnd x, h⟩
  | some stem =>
      rw [hstem] at h
      obtain ⟨z, rfl⟩ := Text.stripSuffix_append hp.literal hstem
      obtain ⟨w, hw⟩ := Text.startsWith_iff.mp h.2
      exact ⟨z ++ w, by rw [hw, String.append_assoc]⟩

/-- Two labels of which neither begins with the other share no ability. -/
theorem Label.not_covers {p q y z : String} (hq : Label q) (hpq : Text.startsWith p q = false)
    (hqp : Text.startsWith q p = false) : ¬ iam.covers (q ++ z) (p ++ y) := by
  intro h
  obtain ⟨w, hw⟩ := hq.of_covers h
  exact Text.append_ne_append hpq hqp hw

/-- A labelled entry is exact when it stands for no other entry of its label. -/
theorem Label.exact_iff {p x : String} (hp : Label p) :
    iam.Exact (p ++ x) ↔ ∀ y, y ≠ x → ¬ iam.covers (p ++ x) (p ++ y) := by
  rw [Exact, standsFor_iff]
  constructor
  · intro h y hne hcovers
    exact hne ((Text.append_right_inj p y x).mp (h _ hcovers))
  · intro h action hcovers
    obtain ⟨y, rfl⟩ := hp.of_covers hcovers
    by_contra hne
    exact h y (fun heq => hne (heq ▸ rfl)) hcovers

end Iam

/-! ## The abilities of a token -/

/-- The abilities of the last link of a token. -/
def tokenAbilities (cc : CeCap) (token : String) : List String :=
  match cc.decodeChain token with
  | .ok chain => (chain.getLast?.map (·.cap.abilities)).getD []
  | .error _ => []

variable {cc : CeCap}

/-- A token grants what the entries of its policy stand for. -/
theorem mem_tokenAbilities (laws : IssueLaws cc) {iam : Iam} {issuer : cc.Identity}
    {audience : Principal} {actions : List String} {resource : ResourceMatch}
    {conditions : Conditions} {nonce : UInt64} {g : Grant}
    (h : iam.mint cc issuer audience (.allow actions resource conditions) nonce = .ok g)
    (ability : String) :
    ability ∈ tokenAbilities cc g.token ↔ ∃ entry ∈ actions, iam.covers entry ability := by
  obtain ⟨scope, hscope, rfl⟩ := Iam.mint_eq_ok.mp h
  have habilities := (Iam.compileGroup_eq_ok (Iam.compile_allow.mp hscope)).1 ability
  rw [← habilities]
  simp [tokenAbilities, Iam.issueRoot, Grant.fromChain, laws.decode_encode, laws.issue_cap]

/-! ## One bound text -/

namespace Iam

theorem label_peer : Label "account:peer:" := .of_all (by decide) (by decide)

theorem label_name : Label "account:name:" := .of_all (by decide) (by decide)

theorem label_login : Label "account:login" := .of_all (by decide) (by decide)

theorem label_aud : Label "aud:" := .of_all (by decide) (by decide)

theorem label_operator : Label "auth:operator" := .of_all (by decide) (by decide)

end Iam

/-- A bound text is the only one of its label exactly when its entry is exact, provided that no
other entry of the policy reaches the label. -/
theorem binding_iff (laws : IssueLaws cc) {iam : Iam} {issuer : cc.Identity}
    {audience : Principal} {actions : List String} {resource : ResourceMatch}
    {conditions : Conditions} {nonce : UInt64} {g : Grant} {p x : String} (hp : Iam.Label p)
    (h : iam.mint cc issuer audience (.allow actions resource conditions) nonce = .ok g)
    (hmem : p ++ x ∈ actions)
    (hothers : ∀ entry ∈ actions, entry = p ++ x ∨ ∀ y, ¬ iam.covers entry (p ++ y)) :
    (∀ other, other ≠ x → p ++ other ∉ tokenAbilities cc g.token) ↔ iam.Exact (p ++ x) := by
  rw [hp.exact_iff]
  refine forall_congr' fun other => forall_congr' fun _ => not_congr ?_
  rw [mem_tokenAbilities laws h]
  constructor
  · rintro ⟨entry, hentry, hcovers⟩
    rcases hothers entry hentry with rfl | hnot
    · exact hcovers
    · exact absurd hcovers (hnot other)
  · intro hcovers
    exact ⟨p ++ x, hmem, hcovers⟩

/-! ## Operator grants and vouches -/

/-- A grant is minted for a device that has an identity, unless the clock runs over. -/
theorem mintOperatorGrant_eq_ok {b b' : CapBridge cc} {device aud token : String} {now : UInt64} :
    b.mintOperatorGrant device aud now = (.ok token, b') ↔
      ∃ audience notAfter g, Principal.parse device = .ok audience ∧
        Iam.checkedAdd now b.ttlSecs = some notAfter ∧
        b.iam.mint cc b.root audience (.allow [abilityOperator, abilityForAud aud] b.resource
          { Conditions.default with notAfter := some notAfter }) b.nonce = .ok g ∧
        g.token = token ∧ b' = { b with nonce := b.nonce + 1 } := by
  rw [CapBridge.mintOperatorGrant]
  cases hparse : Principal.parse device with
  | error e => simp
  | ok audience =>
      cases hadd : Iam.checkedAdd now b.ttlSecs with
      | none => simp
      | some notAfter =>
          simp only [Prod.mk.injEq, Outcome.map_mapError_eq_ok]
          constructor
          · rintro ⟨⟨g, hmint, hg⟩, hb⟩
            exact ⟨audience, notAfter, g, rfl, rfl, hmint, hg, hb.symm⟩
          · rintro ⟨_, _, g, ⟨⟩, ⟨⟩, hmint, hg, hb⟩
            exact ⟨⟨g, hmint, hg⟩, hb.symm⟩

theorem mintOperatorGrant_succeeds {b : CapBridge cc} {device aud : String}
    {audience : Principal} {now notAfter : UInt64} {scope : Iam.Scope}
    (hparse : Principal.parse device = .ok audience)
    (hadd : Iam.checkedAdd now b.ttlSecs = some notAfter)
    (h : b.iam.compile (.allow [abilityOperator, abilityForAud aud] b.resource
      { Conditions.default with notAfter := some notAfter }) = .ok scope) :
    ∃ token b', b.mintOperatorGrant device aud now = (.ok token, b') :=
  ⟨_, _, mintOperatorGrant_eq_ok.mpr ⟨audience, notAfter, _, hparse, hadd,
    Iam.mint_eq_ok.mpr ⟨scope, h, rfl⟩, rfl, rfl⟩⟩

theorem vouchToken_ok {r r' : NodeAuthResponder cc} {peerId name token : String}
    {app abilities : List String}
    (h : r.vouchToken peerId name app = (.ok (token, abilities), r')) :
    ∃ g, r.iam.mint cc r.identity ⟨cc.nodeId r.identity⟩
      (.allow ([abilityLogin, abilityPeer peerId, abilityName name] ++ app) .any .default)
      r.nonce = .ok g ∧ token = g.token := by
  obtain ⟨g, hmint, hg⟩ := Outcome.map_mapError_eq_ok.mp (Prod.mk.inj h).1
  exact ⟨g, hmint, (Prod.mk.inj hg).1.symm⟩

/-- What a fixed ability stands for has no other label. -/
theorem fixed_not_covers {iam : Iam} {ability p : String} (h : Iam.Label ability)
    (hp : Text.startsWith p ability = false) (hability : Text.startsWith ability p = false)
    (y : String) : ¬ iam.covers ability (p ++ y) := by
  intro hcovers
  have hempty : iam.covers (ability ++ "") (p ++ y) := by rwa [String.append_empty]
  exact h.not_covers hp hability hempty

theorem vouchToken_succeeds {r : NodeAuthResponder cc} {peerId name : String} {app : List String}
    {scope : Iam.Scope}
    (h : r.iam.compile (.allow ([abilityLogin, abilityPeer peerId, abilityName name] ++ app) .any
      .default) = .ok scope) :
    ∃ token abilities r', r.vouchToken peerId name app = (.ok (token, abilities), r') := by
  have hmint : ∀ nonce, r.iam.mint cc r.identity ⟨cc.nodeId r.identity⟩
      (.allow ([abilityLogin, abilityPeer peerId, abilityName name] ++ app) .any .default) nonce =
        .ok (Iam.issueRoot cc r.identity ⟨cc.nodeId r.identity⟩ scope nonce) :=
    fun _ => Iam.mint_eq_ok.mpr ⟨scope, h, rfl⟩
  simp only [NodeAuthResponder.vouchToken, hmint]
  exact ⟨_, _, _, rfl⟩

/-- The bindings of an operator grant and of a vouch name no other app, name or peer exactly when
the bound text is the end of an entry that stands for nothing but itself. -/
theorem bindings_injective_iff (laws : IssueLaws cc) :
    (∀ (b b' : CapBridge cc) (device aud token : String) (now : UInt64),
      b.mintOperatorGrant device aud now = (.ok token, b') →
      ((∀ other, other ≠ aud → abilityForAud other ∉ tokenAbilities cc token) ↔
        b.iam.Exact (abilityForAud aud))) ∧
    ∀ (r r' : NodeAuthResponder cc) (peerId name token : String) (abilities : List String),
      r.vouchToken peerId name [] = (.ok (token, abilities), r') →
      ((∀ other, other ≠ name → abilityName other ∉ tokenAbilities cc token) ↔
        r.iam.Exact (abilityName name)) ∧
      ((∀ other, other ≠ peerId → abilityPeer other ∉ tokenAbilities cc token) ↔
        r.iam.Exact (abilityPeer peerId)) := by
  constructor
  · intro b b' device aud token now h
    obtain ⟨audience, notAfter, g, -, -, hmint, rfl, rfl⟩ := mintOperatorGrant_eq_ok.mp h
    have hmem : abilityForAud aud ∈ [abilityOperator, abilityForAud aud] := by simp
    refine binding_iff laws Iam.label_aud hmint hmem ?_
    intro entry hentry
    simp only [List.mem_cons, List.not_mem_nil, or_false] at hentry
    rcases hentry with rfl | rfl
    · exact .inr (fixed_not_covers Iam.label_operator (by decide) (by decide))
    · exact .inl rfl
  · intro r r' peerId name token abilities h
    obtain ⟨g, hmint, rfl⟩ := vouchToken_ok h
    rw [List.append_nil] at hmint
    constructor
    · have hmem : abilityName name ∈ [abilityLogin, abilityPeer peerId, abilityName name] := by
        simp
      refine binding_iff laws Iam.label_name hmint hmem ?_
      intro entry hentry
      simp only [List.mem_cons, List.not_mem_nil, or_false] at hentry
      rcases hentry with rfl | rfl | rfl
      · exact .inr (fixed_not_covers Iam.label_login (by decide) (by decide))
      · exact .inr fun y => Iam.label_peer.not_covers (by decide) (by decide)
      · exact .inl rfl
    · have hmem : abilityPeer peerId ∈ [abilityLogin, abilityPeer peerId, abilityName name] := by
        simp
      refine binding_iff laws Iam.label_peer hmint hmem ?_
      intro entry hentry
      simp only [List.mem_cons, List.not_mem_nil, or_false] at hentry
      rcases hentry with rfl | rfl | rfl
      · exact .inr (fixed_not_covers Iam.label_login (by decide) (by decide))
      · exact .inl rfl
      · exact .inr fun y => Iam.label_name.not_covers (by decide) (by decide)

/-! ## A name with a space -/

/-- A responder of the first identity that grants every ability that is asked for. -/
noncomputable def openResponder : NodeAuthResponder Iam.symbolic :=
  .new (NodeId.filled 1) .default true 100000000000

/-- A bridge of the first identity. -/
noncomputable def homeBridge : CapBridge Iam.symbolic :=
  .new (NodeId.filled 1) .any 600 100000000000

/-- The actions of an operator grant at a fixed time. -/
def operatorPolicy (aud : String) : Policy :=
  .allow [abilityOperator, abilityForAud aud] .any { Conditions.default with notAfter := some 700 }

theorem homeBridge_grants (aud : String)
    (h : ((Iam.default.withActionUniverse [abilityOperator]).compile (operatorPolicy aud)).isOk =
      true) :
    ∃ token b', homeBridge.mintOperatorGrant (Principal.mk (.filled 2)).hex aud 100 =
      (.ok token, b') := by
  obtain ⟨scope, hscope⟩ := Outcome.isOk_iff.mp h
  have hadd : Iam.checkedAdd 100 homeBridge.ttlSecs = some 700 := by decide
  exact mintOperatorGrant_succeeds (Principal.parse_hex _) hadd hscope

/-- The grant for one app is for no other, and Ada's vouch names no one else. -/
theorem bindings_injective_cast :
    (∃ token b',
      homeBridge.mintOperatorGrant (Principal.mk (.filled 2)).hex "cast" 100 = (.ok token, b') ∧
        ∀ other, other ≠ "cast" → abilityForAud other ∉ tokenAbilities Iam.symbolic token) ∧
    ∃ token abilities r',
      openResponder.vouchToken "12D3Koo" "Ada" [] = (.ok (token, abilities), r') ∧
        ∀ other, other ≠ "Ada" → abilityName other ∉ tokenAbilities Iam.symbolic token := by
  obtain ⟨hgrants, hvouches⟩ := bindings_injective_iff symbolic_issueLaws
  constructor
  · obtain ⟨token, b', hgrant⟩ := homeBridge_grants "cast" (by decide +kernel)
    have hexact : homeBridge.iam.Exact (abilityForAud "cast") :=
      Iam.exact_plain (by decide) (by decide)
    exact ⟨token, b', hgrant, (hgrants _ _ _ _ _ _ hgrant).mpr hexact⟩
  · obtain ⟨scope, hscope⟩ := Outcome.isOk_iff.mp ada_compiled
    obtain ⟨token, abilities, r', hvouch⟩ := vouchToken_succeeds (r := openResponder) hscope
    have hexact : openResponder.iam.Exact (abilityName "Ada") :=
      Iam.exact_plain (by decide) (by decide)
    exact ⟨token, abilities, r', hvouch, (hvouches _ _ _ _ _ _ hvouch).1.mpr hexact⟩

/-- A space behind the name of an app is lost, and the grant is for the app without it. -/
theorem grant_of_spaced_aud : ¬ ∀ aud other token b', other ≠ aud →
    homeBridge.mintOperatorGrant (Principal.mk (.filled 2)).hex aud 100 = (.ok token, b') →
    abilityForAud other ∉ tokenAbilities Iam.symbolic token := by
  intro hclaim
  obtain ⟨token, b', hgrant⟩ := homeBridge_grants "cast " (by decide +kernel)
  obtain ⟨audience, notAfter, g, -, -, hmint, rfl, rfl⟩ := mintOperatorGrant_eq_ok.mp hgrant
  refine hclaim "cast " "cast" _ _ (by decide) hgrant
    ((mem_tokenAbilities symbolic_issueLaws hmint _).mpr ⟨abilityForAud "cast ", by simp, ?_⟩)
  rw [Iam.covers_iff]
  have hstem : Text.stripSuffix (Text.trim (abilityForAud "cast ")) '*' = none := by decide
  rw [hstem]
  decide

end CeIam
