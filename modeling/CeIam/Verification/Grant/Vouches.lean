import CeIam.Verification.Grant.Bindings

/-! # The vouch for a browser

A browser chooses its peer, its name and the abilities of its apps, and is vouched for under all
of them. The capability binds one identity exactly when these texts are taken literally. -/

namespace CeIam

variable {cc : CeCap}

/-! ## The request and the capability -/

/-- The name that a request is vouched for under. -/
def AuthReq.shownName (req : AuthReq) : String := if req.name = "" then "pilot" else req.name

/-- The identity that a request asks for. -/
def AuthReq.Identity (req : AuthReq) (ability : String) : Prop :=
  ability = abilityLogin ∨ ability = abilityPeer req.peerId ∨ ability = abilityName req.shownName

namespace NodeAuthResponder

variable (r : NodeAuthResponder cc) (req : AuthReq)

/-- A capability that binds the identity of a request and grants what it asks for and may have. -/
structure BindsOne (abilities : List String) : Prop where
  account : ∀ a ∈ abilities, Text.startsWith a "account:" = true → req.Identity a
  requested : ∀ a ∈ abilities, ¬ req.Identity a → a ∈ req.abilities
  allowed : ∀ a ∈ abilities, ¬ req.Identity a → r.allowedPrefixes ≠ [] →
    ∃ p ∈ r.allowedPrefixes, Text.startsWith a p = true

/-- What a request may be granted: its identity, and outside of `account:` what it asks for. -/
def Proper (a : String) : Prop :=
  req.Identity a ∨ Text.startsWith a "account:" = false ∧ a ∈ r.grantable req.abilities

/-- The texts of a request mean what they say: the peer and the name are exact, and what is
granted stands for nothing but what the request may be granted. -/
structure TakenLiterally : Prop where
  peer : r.iam.Exact (abilityPeer req.peerId)
  name : r.iam.Exact (abilityName req.shownName)
  granted : ∀ entry ∈ r.grantable req.abilities, r.iam.StandsFor entry (r.Proper req)

variable {r req}

theorem mem_grantable {requested : List String} {a : String} :
    a ∈ r.grantable requested ↔ a ∈ requested ∧
      (r.allowedPrefixes ≠ [] → ∃ p ∈ r.allowedPrefixes, Text.startsWith a p = true) := by
  simp only [grantable, List.mem_filter, Bool.or_eq_true, List.isEmpty_iff, List.any_eq_true,
    imp_iff_not_or, not_ne_iff]

theorem bindsOne_iff {abilities : List String} :
    r.BindsOne req abilities ↔ ∀ a ∈ abilities, r.Proper req a := by
  constructor
  · intro h a ha
    by_cases hidentity : req.Identity a
    · exact .inl hidentity
    · refine .inr ⟨?_, mem_grantable.mpr ⟨h.requested a ha hidentity, h.allowed a ha hidentity⟩⟩
      rw [← Bool.not_eq_true]
      exact fun haccount => hidentity (h.account a ha haccount)
  · intro h
    have hgranted : ∀ a ∈ abilities, ¬ req.Identity a →
        Text.startsWith a "account:" = false ∧ a ∈ r.grantable req.abilities :=
      fun a ha hnot => (h a ha).resolve_left hnot
    constructor
    · intro a ha haccount
      by_contra hnot
      rw [(hgranted a ha hnot).1] at haccount
      cases haccount
    · exact fun a ha hnot => (mem_grantable.mp (hgranted a ha hnot).2).1
    · exact fun a ha hnot => (mem_grantable.mp (hgranted a ha hnot).2).2

/-- The capability in a response. -/
def capOf (resp : Json) : Option String := (resp.field "cap").bind Json.asStr

theorem respond_ok {r' : NodeAuthResponder cc} {resp : Json}
    (h : r.respond req = (.ok (some resp), r')) :
    ∃ token abilities, r.vouchToken req.peerId req.shownName (r.grantable req.abilities) =
      (.ok (token, abilities), r') ∧ capOf resp = some token := by
  simp only [respond] at h
  rw [← AuthReq.shownName] at h
  cases hauto : r.autoApprove with
  | false =>
      rw [hauto] at h
      cases h
  | true =>
      rw [hauto] at h
      generalize r.vouchToken req.peerId req.shownName (r.grantable req.abilities) = vouched at h
      obtain ⟨result, next⟩ := vouched
      cases result with
      | error e => cases h
      | ok vouch =>
          cases h
          refine ⟨vouch.1, vouch.2, rfl, ?_⟩
          simp [capOf, Json.field_ofFields, Json.asStr]

/-- A request is answered when the policy of its vouch compiles. -/
theorem respond_succeeds (req : AuthReq) {scope : Iam.Scope} (hauto : r.autoApprove = true)
    (h : r.iam.compile (.allow ([abilityLogin, abilityPeer req.peerId,
      abilityName req.shownName] ++ r.grantable req.abilities) .any .default) = .ok scope) :
    ∃ resp token r', r.respond req = (.ok (some resp), r') ∧ capOf resp = some token := by
  obtain ⟨token, abilities, r', hvouch⟩ := vouchToken_succeeds (r := r) h
  simp only [respond]
  rw [← AuthReq.shownName, hauto, hvouch]
  exact ⟨_, token, r', rfl, by simp [capOf, Json.field_ofFields, Json.asStr]⟩

/-- The abilities of a vouch are what its entries stand for. -/
theorem properVouch_iff (laws : IssueLaws cc) {r' : NodeAuthResponder cc} {token : String}
    {abilities : List String}
    (h : r.vouchToken req.peerId req.shownName (r.grantable req.abilities) =
      (.ok (token, abilities), r')) :
    (∀ a ∈ tokenAbilities cc token, r.Proper req a) ↔
      r.iam.StandsFor (abilityPeer req.peerId) (r.Proper req) ∧
        r.iam.StandsFor (abilityName req.shownName) (r.Proper req) ∧
        ∀ entry ∈ r.grantable req.abilities, r.iam.StandsFor entry (r.Proper req) := by
  obtain ⟨g, hmint, rfl⟩ := vouchToken_ok h
  have hlogin : r.iam.StandsFor abilityLogin (r.Proper req) :=
    (Iam.standsFor_plain (by decide)).mpr (.inl (.inl (by decide)))
  simp only [mem_tokenAbilities laws hmint, Iam.standsFor_iff] at hlogin ⊢
  constructor
  · intro hall
    have hentry : ∀ entry ∈ [abilityLogin, abilityPeer req.peerId, abilityName req.shownName] ++
        r.grantable req.abilities, ∀ a, r.iam.covers entry a → r.Proper req a :=
      fun entry hentry a hcovers => hall a ⟨entry, hentry, hcovers⟩
    refine ⟨hentry _ (by simp), hentry _ (by simp), ?_⟩
    exact fun entry hgranted => hentry entry (List.mem_append_right _ hgranted)
  · rintro ⟨hpeer, hname, hgranted⟩ a ⟨entry, hentry, hcovers⟩
    simp only [List.mem_append, List.mem_cons, List.not_mem_nil, or_false] at hentry
    rcases hentry with (rfl | rfl | rfl) | hentry
    · exact hlogin a hcovers
    · exact hpeer a hcovers
    · exact hname a hcovers
    · exact hgranted entry hentry a hcovers

/-- An entry of the identity is proper exactly when it is exact. -/
theorem standsFor_identity {p x : String} (hp : Iam.Label p)
    (haccount : Text.startsWith p "account:" = true)
    (hidentity : ∀ y, req.Identity (p ++ y) ↔ p ++ y = p ++ x) :
    r.iam.StandsFor (p ++ x) (r.Proper req) ↔ r.iam.Exact (p ++ x) := by
  rw [Iam.Exact, Iam.standsFor_iff, Iam.standsFor_iff]
  refine forall_congr' fun a => imp_congr_right fun hcovers => ?_
  obtain ⟨y, rfl⟩ := hp.of_covers hcovers
  rw [Proper, Text.startsWith_append haccount, hidentity]
  exact or_iff_left fun h => Bool.noConfusion h.1

theorem identity_peer (y : String) :
    req.Identity ("account:peer:" ++ y) ↔ "account:peer:" ++ y = abilityPeer req.peerId := by
  have hlogin : "account:peer:" ++ y ≠ abilityLogin ++ "" :=
    Text.append_ne_append (by decide) (by decide)
  have hname : "account:peer:" ++ y ≠ abilityName req.shownName :=
    Text.append_ne_append (by decide) (by decide)
  rw [String.append_empty] at hlogin
  simp only [AuthReq.Identity, hlogin, hname, false_or, or_false]

theorem identity_name (y : String) :
    req.Identity ("account:name:" ++ y) ↔ "account:name:" ++ y = abilityName req.shownName := by
  have hlogin : "account:name:" ++ y ≠ abilityLogin ++ "" :=
    Text.append_ne_append (by decide) (by decide)
  have hpeer : "account:name:" ++ y ≠ abilityPeer req.peerId :=
    Text.append_ne_append (by decide) (by decide)
  rw [String.append_empty] at hlogin
  simp only [AuthReq.Identity, hlogin, hpeer, false_or]

/-- The capability of a response binds one identity and grants only what was asked for and is
allowed exactly when the texts of the request are taken literally. -/
theorem response_bindsOne_iff (laws : IssueLaws cc) {decode : ByteArray → Except String AuthReq}
    {payload : ByteArray} (hdecode : decode payload = .ok req) {r' : NodeAuthResponder cc}
    {resp : Json} {token : String} (hcap : capOf resp = some token)
    (h : r.handleReq decode payload = (.ok (some resp), r') ∨
      r.handleDirect decode payload = (.ok (some resp), r')) :
    r.BindsOne req (tokenAbilities cc token) ↔ r.TakenLiterally req := by
  have hrespond : r.respond req = (.ok (some resp), r') := by
    rcases h with h | h
    · rwa [handleReq, hdecode] at h
    · rwa [handleDirect, hdecode] at h
  obtain ⟨token', abilities, hvouch, hcap'⟩ := respond_ok hrespond
  cases hcap'.symm.trans hcap
  have hpeer : r.iam.StandsFor (abilityPeer req.peerId) (r.Proper req) ↔
      r.iam.Exact (abilityPeer req.peerId) :=
    standsFor_identity Iam.label_peer (by decide) identity_peer
  have hname : r.iam.StandsFor (abilityName req.shownName) (r.Proper req) ↔
      r.iam.Exact (abilityName req.shownName) :=
    standsFor_identity Iam.label_name (by decide) identity_name
  rw [bindsOne_iff, properVouch_iff laws hvouch, hpeer, hname]
  constructor
  · rintro ⟨hpeer, hname, hgranted⟩
    exact ⟨hpeer, hname, hgranted⟩
  · rintro ⟨hpeer, hname, hgranted⟩
    exact ⟨hpeer, hname, hgranted⟩

end NodeAuthResponder

/-! ## Texts that are not taken literally -/

/-- Ada asks for some abilities of her apps. -/
def adaAsks (abilities : List String) : AuthReq := ⟨"12D3Koo", "Ada", "n1", abilities⟩

/-- Whatever the payload is, it is a request of Ada. -/
def decodeAda (abilities : List String) (_ : ByteArray) : Except String AuthReq :=
  .ok (adaAsks abilities)

theorem grantable_open (requested : List String) :
    openResponder.grantable requested = requested :=
  List.filter_eq_self.mpr fun _ _ => rfl

theorem shownName_ada (abilities : List String) : (adaAsks abilities).shownName = "Ada" := by
  have hname : ¬ "Ada" = "" := by decide
  rw [AuthReq.shownName, adaAsks, if_neg hname]

theorem handleReq_decodeAda (abilities : List String) (payload : ByteArray) :
    openResponder.handleReq (decodeAda abilities) payload =
      openResponder.respond (adaAsks abilities) := by
  rw [NodeAuthResponder.handleReq, decodeAda]

/-- A request of Ada is answered if its abilities compile. -/
theorem ada_answered (abilities : List String)
    (h : (Iam.default.compile (.allow (adaActions ++ abilities) .any .default)).isOk = true) :
    ∃ resp token r', openResponder.handleReq (decodeAda abilities) ⟨#[]⟩ = (.ok (some resp), r') ∧
      NodeAuthResponder.capOf resp = some token := by
  obtain ⟨scope, hscope⟩ := Outcome.isOk_iff.mp h
  have hcompiled : openResponder.iam.compile (.allow ([abilityLogin,
      abilityPeer (adaAsks abilities).peerId, abilityName (adaAsks abilities).shownName] ++
        openResponder.grantable (adaAsks abilities).abilities) .any .default) = .ok scope := by
    rw [shownName_ada, grantable_open]
    exact hscope
  rw [handleReq_decodeAda]
  exact NodeAuthResponder.respond_succeeds (adaAsks abilities) rfl hcompiled

/-- Ada's vouch for an app binds her alone. -/
theorem response_bindsOne_ada : ∃ resp token r',
    openResponder.handleReq (decodeAda ["cast:publish"]) ⟨#[]⟩ = (.ok (some resp), r') ∧
      NodeAuthResponder.capOf resp = some token ∧
      openResponder.BindsOne (adaAsks ["cast:publish"]) (tokenAbilities Iam.symbolic token) := by
  obtain ⟨resp, token, r', hresp, hcap⟩ := ada_answered ["cast:publish"]
    (by decide +kernel)
  refine ⟨resp, token, r', hresp, hcap,
    (NodeAuthResponder.response_bindsOne_iff symbolic_issueLaws rfl hcap (.inl hresp)).mpr ?_⟩
  constructor
  · exact Iam.exact_plain (by decide) (by decide)
  · rw [shownName_ada]
    exact Iam.exact_plain (by decide) (by decide)
  · rw [grantable_open]
    refine List.forall_mem_singleton.mpr ((Iam.standsFor_plain (by decide)).mpr (.inr ⟨?_, ?_⟩))
    · decide
    · rw [grantable_open]
      decide

/-- Who asks for the name of another as the ability of an app gets it. -/
theorem ada_named_eve : ¬ ∀ abilities resp token r',
    openResponder.handleReq (decodeAda abilities) ⟨#[]⟩ = (.ok (some resp), r') →
    NodeAuthResponder.capOf resp = some token →
    openResponder.BindsOne (adaAsks abilities) (tokenAbilities Iam.symbolic token) := by
  intro hclaim
  obtain ⟨resp, token, r', hresp, hcap⟩ := ada_answered [abilityName "Eve"]
    (by decide +kernel)
  have hbinds := NodeAuthResponder.bindsOne_iff.mp (hclaim _ resp token r' hresp hcap)
  rw [handleReq_decodeAda] at hresp
  obtain ⟨_, _, hvouch, hcap'⟩ := NodeAuthResponder.respond_ok hresp
  cases hcap'.symm.trans hcap
  obtain ⟨-, -, hgranted⟩ := (NodeAuthResponder.properVouch_iff symbolic_issueLaws hvouch).mp hbinds
  rw [grantable_open] at hgranted
  have heve := (Iam.standsFor_plain (by decide)).mp (hgranted _ List.mem_cons_self)
  rcases heve with hidentity | ⟨houtside, -⟩
  · exact absurd hidentity (by unfold AuthReq.Identity; decide)
  · exact absurd houtside (by decide)

end CeIam
