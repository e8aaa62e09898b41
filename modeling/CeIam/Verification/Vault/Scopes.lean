import CeIam.Verification.Vault.Grants

/-! # What a grant permits

A grant lists what may be read as an action and a name with a colon between them. A name with a
colon in it can be cut at another place, and then permits another action on another name. -/

namespace CeIam.Vault

open StoreProg

variable {cs : CeSecrets} {audience : String} {read : List String} {g : IssuedGrant}
  {device : DeviceKey cs.toKeyPairs} {seed : cs.Seed}

/-- What is asked is listed in an ability, or everything is. -/
def Listed (read : List String) (action name : String) : Prop :=
  ∃ n ∈ read, action ++ ":" ++ name = "read:" ++ n ∨ action ++ ":" ++ "*" = "read:" ++ n

/-- A grant without an expiry permits its audience what it lists. -/
theorem permitsRead_issued_iff (h : IssuedBy device seed audience read none g)
    {reader action name : String} {nowMs : Int} :
    permitsRead cs g.record reader action name nowMs = .ok () ↔
      reader = audience ∧ Listed read action name := by
  have hwant : ∀ n, (Json.str ("read:" ++ n)).asStr = some (action ++ ":" ++ name) ∨
      (Json.str ("read:" ++ n)).asStr = some (action ++ ":*") ↔
      action ++ ":" ++ name = "read:" ++ n ∨ action ++ ":" ++ "*" = "read:" ++ n := by
    intro n
    have hstar : action ++ ":*" = action ++ ":" ++ "*" := by rw [String.append_assoc]; rfl
    simp only [Json.asStr, Option.some.injEq, hstar, eq_comm]
  simp only [permitsRead, Outcome.bind_eq_ok, Outcome.ensure_eq_ok, Outcome.require_eq_ok,
    h.expires, h.audience, h.abilities, Option.bind_some, Json.asArray, Option.some.injEq,
    Option.bind_none, Option.any_none, Bool.not_false]
  constructor
  · rintro ⟨_, -, _, haudience, abilities, rfl, hany⟩
    rw [List.any_map, List.any_eq_true] at hany
    obtain ⟨n, hn, hability⟩ := hany
    refine ⟨haudience.symm, n, hn, (hwant n).mp ?_⟩
    simpa using hability
  · rintro ⟨rfl, n, hn, hlisted⟩
    refine ⟨(), trivial, (), rfl, _, rfl, ?_⟩
    rw [List.any_map, List.any_eq_true]
    exact ⟨n, hn, by simpa using (hwant n).mpr hlisted⟩

/-- An ability is cut at the first colon, or at one inside the name. -/
theorem ability_eq_iff {action name n : String} :
    action ++ ":" ++ name = "read:" ++ n ↔
      (action = "read" ∧ name = n) ∨
        ∃ x, action = "read" ++ ":" ++ x ∧ n = x ++ ":" ++ name := by
  have hsep : (":" : String).toList = [':'] := rfl
  have hread : ':' ∉ "read".toList := by decide
  exact Text.append_sep_inj hsep hread

/-- Names without a colon permit reads of exactly these names. -/
theorem listed_iff (hstar : "*" ∉ read) (hcolon : ∀ n ∈ read, ':' ∉ n.toList)
    {action name : String} : Listed read action name ↔ action = "read" ∧ name ∈ read := by
  have hplain : ∀ n ∈ read, ∀ x y : String, n ≠ x ++ ":" ++ y := by
    rintro n hn x y rfl
    exact hcolon _ hn (by simp)
  simp only [Listed, ability_eq_iff]
  constructor
  · rintro ⟨n, hn, (⟨rfl, rfl⟩ | ⟨x, -, hcut⟩) | ⟨-, rfl⟩ | ⟨x, -, hcut⟩⟩
    · exact ⟨rfl, hn⟩
    · exact absurd hcut (hplain n hn x name)
    · exact absurd hn hstar
    · exact absurd hcut (hplain n hn x "*")
  · rintro ⟨rfl, hname⟩
    exact ⟨name, hname, .inl (.inl ⟨rfl, rfl⟩)⟩

/-- A name with a colon permits something else than to read it. -/
theorem listed_of_colon {n : String} (hn : n ∈ read) (hcolon : ':' ∈ n.toList) :
    ∃ action name, action ≠ "read" ∧ Listed read action name := by
  obtain ⟨front, rest, hsplit⟩ := List.append_of_mem hcolon
  have hcut : n = String.ofList front ++ ":" ++ String.ofList rest :=
    String.toList_inj.mp (by simp [hsplit])
  refine ⟨"read" ++ ":" ++ String.ofList front, String.ofList rest, ?_, n, hn,
    .inl (ability_eq_iff.mpr (.inr ⟨_, rfl, hcut⟩))⟩
  intro heq
  have hlength := congrArg (fun s : String => s.toList.length) heq
  simp at hlength

variable {v : Vault cs} {env : Moment cs} {s s' t : OrdMap String Json}
  {printed : FloatText → Prop}

/-- A grant that does not name "*" and is not revoked lets its audience read the names it was
issued for and nothing else exactly when none of them has a colon. -/
theorem grant_scope_iff (laws : TokenLaws cs printed) (hstar : "*" ∉ read)
    (hissue : (v.issueGrant env audience read none).run memStore s = (.ok g, s'))
    (hjwk : cs.jwkFromJson (cs.jwkToJson v.device.ecdsaPub) = .ok v.device.ecdsaPub)
    (hvalid : ∀ body sig, cs.signRecord v.device body (env.seed 0) = .ok sig →
      cs.verifyRecord v.device.ecdsaPub body sig = .ok true)
    {record : Json} (hrecord : look t (.device v.device.id) = some record)
    (hkey : record.field "ecdsaPub" = some (cs.jwkToJson v.device.ecdsaPub))
    (hstored : look t (.grant g.id) ≠ none) :
    (∀ reader action name nowMs,
      ((verifyGrant cs g.token reader action name nowMs).run memStore t).1 = .ok () ↔
        reader = audience ∧ action = "read" ∧ name ∈ read) ↔
      ∀ n ∈ read, ':' ∉ n.toList := by
  have hissued := issueGrant_issued hissue
  have haccepts : ∀ reader action name nowMs,
      ((verifyGrant cs g.token reader action name nowMs).run memStore t).1 = .ok () ↔
        reader = audience ∧ Listed read action name := by
    intro reader action name nowMs
    have hsame : ((verifyGrant cs g.token reader action name nowMs).run memStore t).2 = t :=
      verifyGrant_readOnly g.token reader action name nowMs t
    rw [← permitsRead_issued_iff hissued,
      ← verifyGrant_issued_iff laws hissued hjwk hvalid hrecord hkey hstored, Prod.ext_iff,
      and_iff_left hsame]
  simp only [haccepts]
  constructor
  · intro hexact n hn hcolon
    obtain ⟨action, name, hother, hlisted⟩ := listed_of_colon hn hcolon
    exact hother ((hexact audience action name 0).mp ⟨rfl, hlisted⟩).2.1
  · exact fun hcolon _ _ _ _ => and_congr_right fun _ => listed_iff hstar hcolon

/-- A grant of the clerk, and the store after it was issued. -/
theorem clerk_grants (read : List String) :
    ∃ s g record, (Vault.issueGrant ⟨clerk, "home"⟩ shift "vm" read none).run memStore s =
        (.ok g, place s (.grant g.id) g.record) ∧
      look (place s (.grant g.id) g.record) (.device clerk.id) = some record ∧
      record.field "ecdsaPub" = some (timed.jwkToJson clerk.ecdsaPub) ∧
      look (place s (.grant g.id) g.record) (.grant g.id) ≠ none := by
  obtain ⟨s, record, -, henrolled, hkey⟩ := clerk_established
  obtain ⟨g, hissue⟩ := Vault.issueGrant_succeeds ⟨clerk, "home"⟩ shift "vm" read none (s := s)
    (by rw [henrolled]; simp) fun _ => ⟨_, rfl⟩
  exact ⟨s, g, record, hissue, by simpa using henrolled, hkey, by simp⟩

/-- A grant to read "db" permits exactly that. -/
theorem grant_scope_db : ∃ (g : IssuedGrant) (t : OrdMap String Json),
    ∀ reader action name nowMs,
    ((verifyGrant timed g.token reader action name nowMs).run memStore t).1 = .ok () ↔
      reader = "vm" ∧ action = "read" ∧ name ∈ ["db"] := by
  obtain ⟨s, g, record, hissue, hrecord, hkey, hstored⟩ := clerk_grants ["db"]
  refine ⟨g, _, (grant_scope_iff timed_tokenLaws (by simp) hissue (timed_read_jwk _) timed_verifies
    hrecord hkey hstored).mpr ?_⟩
  intro n hn
  rw [List.mem_singleton.mp hn]
  decide

/-- A grant to read "db:admin" also permits the action "read:db" on "admin". -/
theorem grant_scope_colon : ¬ ∀ (v : Vault timed) (env : Moment timed) (audience : String)
    (read : List String) (s s' : OrdMap String Json) (g : IssuedGrant),
    (∀ n ∈ read, '*' ∉ n.toList) →
    (v.issueGrant env audience read none).run memStore s = (.ok g, s') →
    ∀ reader action name nowMs,
      ((verifyGrant timed g.token reader action name nowMs).run memStore s').1 = .ok () ↔
        reader = audience ∧ action = "read" ∧ name ∈ read := by
  intro hclaim
  obtain ⟨s, g, record, hissue, hrecord, hkey, hstored⟩ := clerk_grants ["db:admin"]
  have hlisted : Listed ["db:admin"] "read:db" "admin" := ⟨"db:admin", by simp, .inl (by decide)⟩
  have hpermits : permitsRead timed g.record "vm" "read:db" "admin" 0 = .ok () :=
    (permitsRead_issued_iff (issueGrant_issued hissue)).mpr ⟨rfl, hlisted⟩
  have haccepted := (verifyGrant_issued_iff timed_tokenLaws (issueGrant_issued hissue)
    (timed_read_jwk _) timed_verifies hrecord hkey hstored).mpr hpermits
  have hread := (hclaim _ _ _ _ _ _ _ (by simp) hissue "vm" "read:db" "admin" 0).mp
    (congrArg Prod.fst haccepted)
  exact absurd hread.2.1 (by decide)

end CeIam.Vault
