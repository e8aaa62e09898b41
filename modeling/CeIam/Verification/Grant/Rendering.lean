import CeIam.Verification.Grant.Nonces
import CeIam.Verification.Grant.Rules

/-! # Rendered resources

Inspection shows a resource in the spelling of the command line. Parsing trims tags, splits them
at commas and drops empty ones, so that some tags do not read back. -/

namespace CeIam

/-! ## Tags -/

/-- A tag in a list that parsing neither drops, trims nor splits. -/
structure PlainTag (t : String) : Prop where
  nonempty : t ≠ ""
  trimmed : Text.trim t = t
  whole : ',' ∉ t.toList

/-- The tags that parsing finds in the text of a list. -/
def readTags (text : String) : List String :=
  ((Text.split text ',').map Text.trim).filter (· ≠ "")

theorem plainTag_of_mem_readTags {text t : String} (h : t ∈ readTags text) : PlainTag t := by
  obtain ⟨hmem, hne⟩ := List.mem_filter.mp h
  obtain ⟨part, hpart, rfl⟩ := List.mem_map.mp hmem
  exact ⟨by simpa using hne, Text.trim_trim part,
    fun hcomma => Text.notMem_of_mem_split hpart (Text.mem_of_mem_trim hcomma)⟩

/-- Plain tags read back. -/
theorem readTags_intercalate {ts : List String} (hne : ts ≠ []) (h : ∀ t ∈ ts, PlainTag t) :
    readTags (Text.trimEnd (",".intercalate ts)) = ts := by
  have htrim : ts.map Text.trim = ts :=
    (List.map_congr_left fun t ht => (h t ht).trimmed).trans (List.map_id _)
  rw [readTags, Text.trimEnd_intercalate hne fun t ht => ⟨(h t ht).nonempty, (h t ht).trimmed⟩,
    Text.split_intercalate rfl hne fun t ht => (h t ht).whole, htrim]
  exact List.filter_eq_self.mpr fun t ht => decide_eq_true (h t ht).nonempty

namespace ResourceMatch

/-! ## Parsing each form -/

theorem not_star_of_long {s : String} (h : 3 < s.toList.length) :
    ¬ (s = "*" ∨ Text.eqIgnoreAsciiCase s "any" = true) := by
  rintro (rfl | hany)
  · exact absurd h (by decide)
  · have hlower := congrArg String.toList (of_decide_eq_true hany)
    have hlength := congrArg List.length hlower
    simp [Text.toAsciiLowercase] at hlength
    omega

theorem not_star_append {p : String} (h : 3 < p.toList.length) (x : String) :
    ¬ (p ++ x = "*" ∨ Text.eqIgnoreAsciiCase (p ++ x) "any" = true) := by
  refine not_star_of_long ?_
  rw [String.toList_append, List.length_append]
  exact Nat.lt_add_right _ h

@[simp] theorem parse_star : parse "*" = .ok .any := by
  decide

theorem parse_tag (t : String) : parse ("tag:" ++ t) = .ok (.tag (Text.trim t)) := by
  have htrim : Text.trim ("tag:" ++ t) = "tag:" ++ Text.trimEnd t :=
    Text.trim_append (by decide) (Text.not_white_of_all (by decide)) t
  have hstar := not_star_append (p := "tag:") (by decide) (Text.trimEnd t)
  simp only [parse, htrim, if_neg hstar, Text.stripPrefix_append, Text.trim_trimEnd]

/-- A list of tags is read from its text, if it has any. -/
theorem parse_allOf {text : String} {m : ResourceMatch} :
    parse ("all-of:" ++ text) = .ok m ↔
      readTags (Text.trimEnd text) ≠ [] ∧ m = .allOf (readTags (Text.trimEnd text)) := by
  have htrim : Text.trim ("all-of:" ++ text) = "all-of:" ++ Text.trimEnd text :=
    Text.trim_append (by decide) (Text.not_white_of_all (by decide)) text
  have hstar := not_star_append (p := "all-of:") (by decide) (Text.trimEnd text)
  have htag : Text.stripPrefix ("all-of:" ++ Text.trimEnd text) "tag:" = none :=
    Text.stripPrefix_eq_none (Text.startsWith_append_of_not (by decide) (by decide) _)
  have hparse : parse ("all-of:" ++ text) =
      if readTags (Text.trimEnd text) = [] then .error (.badResource "all-of: with no tags")
      else .ok (.allOf (readTags (Text.trimEnd text))) := by
    simp only [parse, htrim, if_neg hstar, htag, Text.stripPrefix_append]
    rfl
  rw [hparse]
  generalize readTags (Text.trimEnd text) = tags
  split_ifs with hempty <;> simp [hempty, eq_comm]

theorem parse_node (n : NodeId) :
    parse (Hex.encode n.bytes) = .ok (.node (Hex.encode n.bytes)) := by
  have hlong : 3 < (Hex.encode n.bytes).toList.length := by
    rw [Hex.length_encode, n.size]
    decide
  have htag : Text.stripPrefix (Hex.encode n.bytes) "tag:" = none :=
    Text.stripPrefix_eq_none (Hex.startsWith_encode (c := ':') (by decide) rfl _)
  have hall : Text.stripPrefix (Hex.encode n.bytes) "all-of:" = none :=
    Text.stripPrefix_eq_none (Hex.startsWith_encode (c := ':') (by decide) rfl _)
  simp only [parse, Hex.trim_encode, if_neg (not_star_of_long hlong), htag, hall,
    Hex.decode_encode, n.size, if_true, Hex.toAsciiLowercase_encode]

end ResourceMatch

namespace Resource

open Iam

/-! ## Reading back -/

/-- The rendered resource parses, and compiles to itself. -/
def ReadsBack (r : Resource) : Prop :=
  ∃ m, ResourceMatch.parse (renderResource r) = .ok m ∧ m.toCapResource = .ok r

/-- A resource whose tags survive parsing. -/
def Plain : Resource → Prop
  | .any => True
  | .node _ => True
  | .tag t => Text.trim t = t
  | .allOf ts => ∀ t ∈ ts, PlainTag t

/-- A resource whose tags can be told apart in a list. -/
def CommaFree : Resource → Prop
  | .allOf ts => ∀ t ∈ ts, ',' ∉ t.toList
  | _ => True

/-- A resource that compiles has a tag that is not empty, or a list with a tag. -/
def Filled : Resource → Prop
  | .any => True
  | .node _ => True
  | .tag t => t ≠ ""
  | .allOf ts => ts ≠ []

theorem filled_of_toCapResource {m : ResourceMatch} {r : Resource}
    (h : m.toCapResource = .ok r) : Filled r := by
  cases m with
  | any =>
      cases h
      trivial
  | node hex =>
      simp only [ResourceMatch.toCapResource] at h
      split at h
      · cases h
      · split_ifs at h with hsize
        cases h
        trivial
  | tag t =>
      simp only [ResourceMatch.toCapResource] at h
      split_ifs at h with hempty
      cases h
      exact hempty
  | allOf ts =>
      simp only [ResourceMatch.toCapResource] at h
      split_ifs at h with hempty
      cases h
      exact hempty

theorem toCapResource_tag {t : String} {r : Resource} :
    (ResourceMatch.tag t).toCapResource = .ok r ↔ t ≠ "" ∧ r = .tag t := by
  simp only [ResourceMatch.toCapResource]
  split_ifs with hempty <;> simp [hempty, eq_comm]

theorem toCapResource_allOf {ts : List String} {r : Resource} :
    (ResourceMatch.allOf ts).toCapResource = .ok r ↔ ts ≠ [] ∧ r = .allOf ts := by
  simp only [ResourceMatch.toCapResource]
  split_ifs with hempty <;> simp [hempty, eq_comm]

theorem toCapResource_node (n : NodeId) :
    (ResourceMatch.node (Hex.encode n.bytes)).toCapResource = .ok (.node n) := by
  simp [ResourceMatch.toCapResource, Hex.decode_encode, n.size]

/-- Parsing gives a resource back exactly when its tags survive. -/
theorem readsBack_iff {r : Resource} (hr : Filled r) : ReadsBack r ↔ Plain r := by
  cases r with
  | any => exact iff_of_true ⟨.any, ResourceMatch.parse_star, rfl⟩ trivial
  | node n => exact iff_of_true ⟨_, ResourceMatch.parse_node n, toCapResource_node n⟩ trivial
  | tag t =>
      simp only [ReadsBack, renderResource, ResourceMatch.parse_tag, Except.ok.injEq,
        exists_eq_left', toCapResource_tag, tag.injEq, Plain]
      constructor
      · rintro ⟨-, htrim⟩
        exact htrim.symm
      · intro htrim
        exact ⟨htrim.symm ▸ hr, htrim.symm⟩
  | allOf ts =>
      simp only [ReadsBack, renderResource, ResourceMatch.parse_allOf, Plain]
      constructor
      · rintro ⟨_, ⟨-, rfl⟩, hcompiled⟩ t ht
        rw [toCapResource_allOf, allOf.injEq] at hcompiled
        rw [hcompiled.2] at ht
        exact plainTag_of_mem_readTags ht
      · intro hplain
        rw [readTags_intercalate hr hplain]
        exact ⟨_, ⟨hr, rfl⟩, toCapResource_allOf.mpr ⟨hr, rfl⟩⟩

/-! ## Displayed alike -/

/-- The forms that a text begins like: the star, a tag and a list of tags. -/
def form (s : String) : Bool × Bool × Bool :=
  (Text.startsWith s "*", Text.startsWith s "tag:", Text.startsWith s "all-of:")

/-- Every kind of resource is displayed in a form of its own. -/
theorem form_render (r : Resource) :
    form (renderResource r) =
      match r with
      | .any => (true, false, false)
      | .node _ => (false, false, false)
      | .tag _ => (false, true, false)
      | .allOf _ => (false, false, true) := by
  cases r with
  | any => decide
  | node n =>
      have hstar := Hex.startsWith_encode (p := "*") (c := '*') (by decide) rfl n.bytes
      have htag := Hex.startsWith_encode (p := "tag:") (c := ':') (by decide) rfl n.bytes
      have hall := Hex.startsWith_encode (p := "all-of:") (c := ':') (by decide) rfl n.bytes
      rw [form, renderResource, hstar, htag, hall]
  | tag t =>
      rw [form, renderResource, Text.startsWith_append_of_not (by decide) (by decide),
        Text.startsWith_iff.mpr ⟨t, rfl⟩, Text.startsWith_append_of_not (by decide) (by decide)]
  | allOf ts =>
      rw [form, renderResource, Text.startsWith_append_of_not (by decide) (by decide),
        Text.startsWith_append_of_not (by decide) (by decide),
        Text.startsWith_iff.mpr ⟨",".intercalate ts, rfl⟩]

/-- Resources of different kinds are displayed differently, and so are different lists of tags
without commas. -/
theorem render_injective {r r' : Resource} (hr : Filled r) (hr' : Filled r') (hc : CommaFree r)
    (hc' : CommaFree r') (h : renderResource r = renderResource r') : r = r' := by
  have hform := congrArg form h
  rw [form_render, form_render] at hform
  cases r with
  | any =>
      cases r' with
      | any => rfl
      | _ => cases hform
  | node n =>
      cases r' with
      | node n' =>
          obtain ⟨bytes, size⟩ := n
          obtain ⟨bytes', size'⟩ := n'
          cases Hex.encode_injective h
          rfl
      | _ => cases hform
  | tag t =>
      cases r' with
      | tag t' => rw [(Text.append_right_inj "tag:" t t').mp h]
      | _ => cases hform
  | allOf ts =>
      cases r' with
      | allOf ts' =>
          have hsep : ",".toList = [','] := rfl
          have htext := (Text.append_right_inj "all-of:" _ _).mp h
          have hsplit := Text.split_intercalate hsep hr hc
          rw [htext, Text.split_intercalate hsep hr' hc'] at hsplit
          rw [hsplit]
      | _ => cases hform

/-- A list of tags is displayed like the list of the parts of its tags. -/
theorem commaFree_iff {r : Resource} (hr : Filled r) :
    CommaFree r ↔ ∀ (m : ResourceMatch) (r' : Resource), m.toCapResource = .ok r' →
      CommaFree r' → renderResource r' = renderResource r → r' = r := by
  constructor
  · intro hc m r' hcompiled hc' hrender
    exact render_injective (filled_of_toCapResource hcompiled) hr hc' hc hrender
  · intro hunique
    cases r with
    | allOf ts =>
        let parts := Text.split (",".intercalate ts) ','
        have hparts : CommaFree (.allOf parts) := fun t ht => Text.notMem_of_mem_split ht
        have hrender : renderResource (.allOf parts) = renderResource (.allOf ts) := by
          exact congrArg ("all-of:" ++ ·) (Text.intercalate_split rfl _)
        rw [← hunique (.allOf parts) (.allOf parts)
          (toCapResource_allOf.mpr ⟨Text.split_ne_nil _ _, rfl⟩) hparts hrender]
        exact hparts
    | _ => trivial

end Resource

/-! ## Inspection -/

namespace Iam

variable {cc : CeCap} {iam : Iam} {token text : String} {r : Resource}

/-- Inspection shows the resource of a link, or that of the last link as the one of the token,
as a text. -/
def Displays (cc : CeCap) (iam : Iam) (token : String) (r : Resource) (text : String) : Prop :=
  ∃ (info : InspectedScope) (chain : List SignedCapability),
    inspect cc iam token = .ok info ∧ cc.decodeChain token = .ok chain ∧
    ((chain.getLast?.map (·.cap.resource) = some r ∧ info.resource = text) ∨
      ∃ k : ℕ, chain[k]?.map (·.cap.resource) = some r ∧
        info.links[k]?.map (·.resource) = some text)

theorem inspectChain_eq_ok {chain : List SignedCapability} {info : InspectedScope}
    (h : inspectChain chain = .ok info) :
    info.links = chain.map linkInfo ∧
      chain.getLast?.map (fun link => renderResource link.cap.resource) = some info.resource := by
  cases chain with
  | nil => cases h
  | cons root rest =>
      cases h
      exact ⟨rfl, by rw [List.getLast?_eq_getLast_of_ne_nil (List.cons_ne_nil _ _)]; rfl⟩

/-- Inspection renders resources. -/
theorem eq_render_of_displays (h : Displays cc iam token r text) : text = renderResource r := by
  obtain ⟨info, chain, hinspect, hdecode, hshown⟩ := h
  obtain ⟨⟨chain', hne⟩, hguarded, hchain⟩ := Outcome.bind_eq_ok.mp hinspect
  obtain ⟨-, hdecode', -⟩ := guardedDecode_eq_ok.mp hguarded
  cases hdecode.symm.trans hdecode'
  obtain ⟨hlinks, hleaf⟩ := inspectChain_eq_ok hchain
  rcases hshown with ⟨hr, rfl⟩ | ⟨k, hr, htext⟩
  · obtain ⟨leaf, hlast, rfl⟩ := Option.map_eq_some_iff.mp hr
    rw [hlast] at hleaf
    exact (Option.some.inj hleaf).symm
  · obtain ⟨link, hlink, rfl⟩ := Option.map_eq_some_iff.mp hr
    rw [hlinks, List.getElem?_map, hlink] at htext
    exact (Option.some.inj htext).symm

/-- A token that can be read is displayed. -/
theorem displays_issueRoot (laws : IssueLaws cc) {issuer : cc.Identity} {audience : Principal}
    {scope : Scope} {nonce : UInt64} (hdepth : 1 ≤ iam.maxChainDepth)
    (hsize : (issueRoot cc issuer audience scope nonce).token.utf8ByteSize ≤ iam.maxTokenBytes) :
    Displays cc iam (issueRoot cc issuer audience scope nonce).token scope.resource
      (renderResource scope.resource) := by
  let link := cc.issue issuer audience.nodeId scope.abilities scope.resource scope.caveats nonce none
  have hresource : link.cap.resource = scope.resource := by
    simp [link, laws.issue_cap]
  have hdecode : cc.decodeChain (issueRoot cc issuer audience scope nonce).token = .ok [link] :=
    laws.decode_encode _
  have hguarded : iam.guardedDecode cc (issueRoot cc issuer audience scope nonce).token =
      .ok ⟨[link], List.cons_ne_nil _ _⟩ :=
    guardedDecode_eq_ok.mpr ⟨hsize, hdecode, hdepth⟩
  refine ⟨_, [link], Outcome.bind_eq_ok.mpr ⟨_, hguarded, rfl⟩, hdecode, .inl ⟨?_, ?_⟩⟩
  · exact congrArg some hresource
  · exact congrArg renderResource hresource

/-! ## Rendering and parsing -/

/-- A compiled resource reads back from its display exactly when no tag is changed by parsing,
and is told from the lists without commas exactly when it has no comma in a list. Inspection
displays it as it is rendered. -/
theorem rendering_iff {m : ResourceMatch} {r : Resource} (h : m.toCapResource = .ok r) :
    (r.ReadsBack ↔ r.Plain) ∧
      ((∀ (m' : ResourceMatch) (r' : Resource), m'.toCapResource = .ok r' → r'.CommaFree →
        renderResource r' = renderResource r → r' = r) ↔ r.CommaFree) ∧
      ∀ (cc : CeCap) (iam : Iam) (token text : String),
        Displays cc iam token r text → text = renderResource r := by
  have hr := Resource.filled_of_toCapResource h
  exact ⟨Resource.readsBack_iff hr, (Resource.commaFree_iff hr).symm,
    fun _ _ _ _ => eq_render_of_displays⟩

/-- A list of two tags reads back. -/
theorem rendering_two_tags :
    (ResourceMatch.allOf ["gpu", "linux"]).toCapResource = .ok (.allOf ["gpu", "linux"]) ∧
      (Resource.allOf ["gpu", "linux"]).ReadsBack := by
  have hcompiled :
      (ResourceMatch.allOf ["gpu", "linux"]).toCapResource = .ok (.allOf ["gpu", "linux"]) := rfl
  have hplain : (Resource.allOf ["gpu", "linux"]).Plain := by
    intro t ht
    simp only [List.mem_cons, List.not_mem_nil, or_false] at ht
    rcases ht with rfl | rfl
    · exact ⟨by decide, by decide, by decide⟩
    · exact ⟨by decide, by decide, by decide⟩
  exact ⟨hcompiled, (rendering_iff hcompiled).1.mpr hplain⟩

/-- A service that reads two tokens. -/
noncomputable def readerOf (g h : Grant) : Iam :=
  Iam.default.withMaxTokenBytes (max g.token.utf8ByteSize h.token.utf8ByteSize)

/-- A tag that begins with a space does not read back, and a tag with a comma is displayed like
two tags. -/
theorem rendering_inexact :
    (¬ ∀ (m : ResourceMatch) (r : Resource), m.toCapResource = .ok r → r.ReadsBack) ∧
      ¬ ∀ (iam : Iam) (m m' : ResourceMatch) (r r' : Resource) (token token' text : String),
        m.toCapResource = .ok r → m'.toCapResource = .ok r' → r ≠ r' →
        Displays symbolic iam token r text → ¬ Displays symbolic iam token' r' text := by
  constructor
  · intro hclaim
    have hfilled : Resource.Filled (.tag " gpu") := show " gpu" ≠ "" by decide
    have hplain := (Resource.readsBack_iff hfilled).mp (hclaim (.tag " gpu") _ rfl)
    exact absurd hplain (show Text.trim " gpu" ≠ " gpu" by decide)
  · intro hclaim
    let grant := fun ts => issueRoot symbolic (NodeId.filled 1) ⟨.filled 2⟩
      ⟨["storage:read"], .allOf ts, Conditions.default.toCaveats⟩ 7
    let iam := readerOf (grant ["a", "b"]) (grant ["a,b"])
    have hdepth : 1 ≤ iam.maxChainDepth := by decide
    exact hclaim iam (.allOf ["a", "b"]) (.allOf ["a,b"]) _ _ (grant ["a", "b"]).token
      (grant ["a,b"]).token "all-of:a,b" rfl rfl (by decide)
      (displays_issueRoot symbolic_issueLaws hdepth (le_max_left ..))
      (displays_issueRoot symbolic_issueLaws hdepth (le_max_right ..))

end Iam

end CeIam
