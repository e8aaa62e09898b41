import CeIam.Model.Cli
import CeIam.Verification.Grant.Symbolic

/-! # Failing closed

The list of revoked pairs that a run uses may come from this run or, through the cache file,
from an earlier one. The file always holds what the node returned in some run, under the time
of that run, so a run that fails closed never uses a list older than its window. -/

namespace CeIam

/-! ## Lists of pairs -/

namespace RevocationSet

theorem fromHexPair_eq_some {row : String × UInt64} {issuer : NodeId} {nonce : UInt64} :
    fromHexPair row = some (issuer, nonce) ↔
      Hex.decode (Text.trim row.1) = some issuer.bytes ∧ row.2 = nonce := by
  obtain ⟨bytes, hsize⟩ := issuer
  cases hdecode : Hex.decode (Text.trim row.1) with
  | none => simp [fromHexPair, hdecode]
  | some found =>
      simp only [fromHexPair, hdecode, Option.bind_eq_bind, Option.bind_some, Option.some.injEq]
      split_ifs with h
      · simp
      · simp only [false_iff, not_and]
        rintro rfl
        exact absurd hsize h

/-- The set has exactly the well-formed rows of the list. -/
theorem isRevoked_fromHexPairs (pairs : List (String × UInt64)) (issuer : NodeId)
    (nonce : UInt64) :
    (fromHexPairs pairs).isRevoked issuer nonce = true ↔
      ∃ text, (text, nonce) ∈ pairs ∧ Hex.decode (Text.trim text) = some issuer.bytes := by
  simp only [isRevoked, fromHexPairs, decide_eq_true_eq, List.mem_toFinset, List.mem_filterMap,
    fromHexPair_eq_some]
  constructor
  · rintro ⟨⟨text, _⟩, hmem, hdecode, rfl⟩
    exact ⟨text, hmem, hdecode⟩
  · rintro ⟨text, hmem, hdecode⟩
    exact ⟨(text, nonce), hmem, hdecode, rfl⟩

end RevocationSet

theorem saturatingSub_le_iff {a b n : UInt64} :
    saturatingSub a b ≤ n ↔ a.toNat ≤ b.toNat + n.toNat := by
  rw [saturatingSub, UInt64.le_iff_toNat_le]
  split_ifs with h
  · rw [UInt64.toNat_sub_of_le _ _ h]
    omega
  · have hlt : a.toNat < b.toNat := UInt64.lt_iff_toNat_lt.mp (UInt64.not_le.mp h)
    simp only [UInt64.toNat_zero]
    omega

/-- With a window, a list is fresh when it was fetched at most that long ago. -/
theorem CachedRevocationSet.isFresh_iff {c : CachedRevocationSet} {now : UInt64}
    (httl : c.ttlSecs ≠ 0) :
    c.isFresh now = true ↔ c.fetchedAt ≠ 0 ∧ now.toNat ≤ c.fetchedAt.toNat + c.ttlSecs.toNat := by
  rw [isFresh]
  split_ifs with hnever
  · simp [hnever]
  · rw [decide_eq_true_eq, saturatingSub_le_iff]
    exact (and_iff_right hnever).symm

namespace Cli

variable (parse : String → Except String CachedRevocationSet) (cc : CeCap) (service : Iam)

/-! ## Histories -/

/-- What the node returned in a run, and when, if the run asked it. -/
def answered (l : VerifyArgs × VerifyEnv) (disk : Disk) :
    Option (UInt64 × List (String × UInt64)) :=
  match subject service l.1 l.2, loadCache parse l.1 l.2 disk with
  | .ok _, .ok _ =>
      if l.1.noRevocationCheck then none else l.2.fetched.toOption.map fun pairs => (l.2.now, pairs)
  | _, _ => none

/-- The cache file, and what the node returned so far. -/
structure Observed where
  disk : Disk
  returned : List (UInt64 × List (String × UInt64))

def observe (s : Observed) (l : VerifyArgs × VerifyEnv) : Observed where
  disk := (cmdVerify parse cc service l.1 l.2 s.disk).2
  returned := s.returned ++ (answered parse service l s.disk).toList

/-- A history of runs in one data directory, without a cache file at first. -/
def observed (ls : List (VerifyArgs × VerifyEnv)) : Observed :=
  ls.foldl (observe parse cc service) ⟨none, []⟩

/-- The file holds what the node returned in some run, under the time of that run. -/
def Observed.Known (s : Observed) : Prop :=
  ∀ text, s.disk = some text →
    ∃ c : CachedRevocationSet, text = c.toJson.pretty ∧ (c.fetchedAt, c.pairs) ∈ s.returned

variable {parse cc service} {a : VerifyArgs} {env : VerifyEnv} {s : Observed} {disk : Disk}
  {path : String} {c : CachedRevocationSet} {subj : Subject}

/-! ## One run -/

/-- A list that was loaded has the window of this run, and was fetched by an earlier run or
never. -/
theorem loadCache_eq_ok (hparse : ∀ c : CachedRevocationSet, parse c.toJson.pretty = .ok c)
    (hs : s.Known) (h : loadCache parse a env s.disk = .ok (path, c)) :
    c.ttlSecs = a.revocationTtl ∧ (c.fetchedAt = 0 ∨ (c.fetchedAt, c.pairs) ∈ s.returned) := by
  obtain ⟨path', -, hrest⟩ := Outcome.bind_eq_ok.mp h
  obtain ⟨cached, hcached, hret⟩ := Outcome.bind_eq_ok.mp hrest
  cases hret
  obtain ⟨loaded, hloaded, hset⟩ := Outcome.bind_eq_ok.mp (Outcome.mapError_eq_ok.mp hcached)
  cases hset
  refine ⟨rfl, ?_⟩
  cases hdisk : s.disk with
  | none =>
      rw [hdisk] at hloaded
      cases hloaded
      exact .inl rfl
  | some text =>
      obtain ⟨kept, rfl, hkept⟩ := hs text hdisk
      simp only [hdisk, loadJsonOrDefault, hparse] at hloaded
      split_ifs at hloaded
      cases hloaded
      exact .inr hkept

/-- A refresh takes over what the node returned, and saves it or leaves the file. -/
theorem refresh_cases {fetched : Except String (List (String × UInt64))} {now : UInt64}
    {outcome : Except String Unit} {result : Except IamError Unit} {cached : CachedRevocationSet}
    {disk' : Disk} (h : c.refresh fetched now (some path) outcome disk = (result, cached, disk')) :
    (∃ e e', fetched = .error e ∧ result = .error e' ∧ cached = c ∧ disk' = disk) ∨
    ∃ pairs, fetched = .ok pairs ∧ cached = ⟨pairs, now, c.ttlSecs⟩ ∧
      (disk' = disk ∨ disk' = some cached.toJson.pretty) := by
  cases fetched with
  | error e =>
      cases h
      exact .inl ⟨e, _, rfl, rfl, rfl, rfl⟩
  | ok pairs =>
      cases outcome with
      | error e =>
          cases h
          exact .inr ⟨pairs, rfl, rfl, .inl rfl⟩
      | ok u =>
          cases h
          exact .inr ⟨pairs, rfl, rfl, .inr rfl⟩

variable (parse service a env disk) in
/-- A run that checks revocation loads the cache, or ends before its check and leaves the file. -/
theorem beforeCheck_cases :
    ((beforeCheck parse service a env disk).2 = disk ∧
      (a.noRevocationCheck = false → ∃ e, (beforeCheck parse service a env disk).1 = .error e)) ∨
    ∃ subj path c, a.noRevocationCheck = false ∧ subject service a env = .ok subj ∧
      loadCache parse a env disk = .ok (path, c) := by
  cases hsubject : subject service a env with
  | error e => exact .inl (by simp [beforeCheck, hsubject])
  | ok subj =>
      cases hcheck : a.noRevocationCheck with
      | true => exact .inl (by simp [beforeCheck, hsubject, resolveRevocation, hcheck])
      | false =>
          cases hload : loadCache parse a env disk with
          | error e =>
              left
              simp [beforeCheck, hsubject, resolveRevocation, hcheck, hload, Except.map]
          | ok loaded => exact .inr ⟨subj, loaded.1, loaded.2, rfl, rfl, rfl⟩

/-- What a run reaches its check with once it has loaded the cache. -/
theorem beforeCheck_of_load {result : Except IamError Unit} {cached : CachedRevocationSet}
    {disk' : Disk} (hcheck : a.noRevocationCheck = false)
    (hsubject : subject service a env = .ok subj)
    (hload : loadCache parse a env disk = .ok (path, c))
    (hrefresh : c.refresh env.fetched env.now (some path) env.written disk =
      (result, cached, disk')) :
    beforeCheck parse service a env disk =
      ((usable a env result cached).map (subj, ·), disk') := by
  simp [beforeCheck, hsubject, resolveRevocation, hcheck, hload, hrefresh]

theorem answered_of_load (hcheck : a.noRevocationCheck = false)
    (hsubject : subject service a env = .ok subj)
    (hload : loadCache parse a env disk = .ok (path, c)) :
    answered parse service (a, env) disk =
      env.fetched.toOption.map fun pairs => (env.now, pairs) := by
  simp [answered, hsubject, hload, hcheck]

theorem answered_unchecked (hcheck : a.noRevocationCheck = true) :
    answered parse service (a, env) disk = none := by
  rw [answered]
  split
  · rw [if_pos hcheck]
  · rfl

/-- A run that fails closed uses the list that it has when it was saved or is fresh. -/
theorem usable_eq_ok {result : Except IamError Unit} {cached : CachedRevocationSet}
    {set : RevocationSet} (hclosed : a.failClosed = true)
    (h : usable a env result cached = .ok set) :
    set = cached.set ∧ (result = .ok () ∨ cached.isFresh env.now = true) := by
  cases result with
  | ok u =>
      cases h
      exact ⟨rfl, .inl rfl⟩
  | error e =>
      simp only [usable, policy, hclosed, if_true] at h
      split_ifs at h with hfresh
      cases h
      exact ⟨rfl, .inr hfresh⟩

/-! ## Every run -/

/-- Every run keeps the file known. -/
theorem known_observe (hs : s.Known) : (observe parse cc service s (a, env)).Known := by
  have hkept : ∀ text, s.disk = some text → ∃ c : CachedRevocationSet, text = c.toJson.pretty ∧
      (c.fetchedAt, c.pairs) ∈ (observe parse cc service s (a, env)).returned := by
    intro text htext
    obtain ⟨c, hc, hmem⟩ := hs text htext
    exact ⟨c, hc, List.mem_append_left _ hmem⟩
  intro text htext
  change (beforeCheck parse service a env s.disk).2 = some text at htext
  rcases beforeCheck_cases parse service a env s.disk with ⟨hdisk, -⟩ | hloaded
  · exact hkept text (hdisk ▸ htext)
  · obtain ⟨subj, path, c, hcheck, hsubject, hload⟩ := hloaded
    generalize hrefresh : c.refresh env.fetched env.now (some path) env.written s.disk = r
    obtain ⟨result, cached, disk'⟩ := r
    rw [beforeCheck_of_load hcheck hsubject hload hrefresh] at htext
    rcases refresh_cases hrefresh with ⟨e, e', -, -, -, rfl⟩ | ⟨pairs, hfetched, hcached, hdisk⟩
    · exact hkept text htext
    · rcases hdisk with rfl | rfl
      · exact hkept text htext
      · refine ⟨cached, (Option.some.inj htext).symm, List.mem_append_right _ ?_⟩
        simp [answered_of_load hcheck hsubject hload, hfetched, hcached, Except.toOption]

theorem known_observed (ls : List (VerifyArgs × VerifyEnv)) :
    (observed parse cc service ls).Known := by
  apply List.foldlRecOn (motive := Observed.Known)
  · exact fun text h => nomatch h
  · exact fun s hs l _ => known_observe hs

/-- What a run uses that fails closed was returned in this run or an earlier one, within the
window of this run. -/
theorem fresh_of_known (hparse : ∀ c : CachedRevocationSet, parse c.toJson.pretty = .ok c)
    (hs : s.Known) {set : RevocationSet}
    (hreach : (beforeCheck parse service a env s.disk).1 = .ok (subj, set))
    (hclosed : a.failClosed = true) (httl : 0 < a.revocationTtl)
    (hcheck : a.noRevocationCheck = false) :
    ∃ e ∈ (observe parse cc service s (a, env)).returned,
      set = .fromHexPairs e.2 ∧ env.now.toNat ≤ e.1.toNat + a.revocationTtl.toNat := by
  rcases beforeCheck_cases parse service a env s.disk with ⟨-, hfails⟩ | hloaded
  · obtain ⟨e, herror⟩ := hfails hcheck
    rw [herror] at hreach
    cases hreach
  · obtain ⟨subj', path, c, -, hsubject, hload⟩ := hloaded
    obtain ⟨hwindow, horigin⟩ := loadCache_eq_ok hparse hs hload
    generalize hrefresh : c.refresh env.fetched env.now (some path) env.written s.disk = r
    obtain ⟨result, cached, disk'⟩ := r
    rw [beforeCheck_of_load hcheck hsubject hload hrefresh] at hreach
    obtain ⟨set', husable, hpair⟩ := Outcome.map_eq_ok.mp hreach
    cases hpair
    obtain ⟨rfl, hfresh⟩ := usable_eq_ok hclosed husable
    rcases refresh_cases hrefresh with ⟨e, e', -, rfl, rfl, -⟩ | ⟨pairs, hfetched, rfl, -⟩
    · rcases hfresh with hfresh | hfresh
      · cases hfresh
      · have hne : cached.ttlSecs ≠ 0 := hwindow ▸ (UInt64.ne_of_lt httl).symm
        rw [CachedRevocationSet.isFresh_iff hne, hwindow] at hfresh
        have hmem := horigin.resolve_left hfresh.1
        exact ⟨(cached.fetchedAt, cached.pairs), List.mem_append_left _ hmem, rfl, hfresh.2⟩
    · refine ⟨(env.now, pairs), List.mem_append_right _ ?_, rfl, Nat.le_add_right ..⟩
      simp [answered_of_load hcheck hsubject hload, hfetched, Except.toOption]

/-- In every history, a run that fails closed reaches its check only with a list that the node
returned to it or to an earlier run, no longer ago than its window. -/
theorem failClosed_fresh (hparse : ∀ c : CachedRevocationSet, parse c.toJson.pretty = .ok c)
    (ls : List (VerifyArgs × VerifyEnv)) {set : RevocationSet}
    (hreach : (beforeCheck parse service a env (observed parse cc service ls).disk).1 =
      .ok (subj, set))
    (hclosed : a.failClosed = true) (httl : 0 < a.revocationTtl)
    (hcheck : a.noRevocationCheck = false) :
    ∃ e ∈ (observed parse cc service (ls ++ [(a, env)])).returned,
      set = .fromHexPairs e.2 ∧ env.now.toNat ≤ e.1.toNat + a.revocationTtl.toNat := by
  rw [observed, List.foldl_append]
  exact fresh_of_known hparse (known_observed ls) hreach hclosed httl hcheck

/-! ## A node that goes down -/

theorem cache_toJson_injective : Function.Injective CachedRevocationSet.toJson := by
  rintro ⟨pairs, fetchedAt, ttlSecs⟩ ⟨pairs', fetchedAt', ttlSecs'⟩ h
  have hrow : Function.Injective
      fun row : String × UInt64 => Json.arr [.str row.1, .int row.2.toNat] := by
    rintro ⟨text, nonce⟩ ⟨text', nonce'⟩ hrow
    simpa [UInt64.toNat_inj] using hrow
  simp only [CachedRevocationSet.toJson, Json.obj.injEq, List.cons.injEq, Prod.mk.injEq, true_and,
    and_true, Json.arr.injEq, Json.int.injEq, Int.natCast_inj, UInt64.toNat_inj] at h
  obtain ⟨hpairs, rfl, rfl⟩ := h
  rw [List.map_injective_iff.mpr hrow hpairs]

/-- Reads back exactly the list that was printed. -/
noncomputable def readCache : String → Except String CachedRevocationSet :=
  Outcome.readBack fun c => c.toJson.pretty

theorem readCache_pretty (c : CachedRevocationSet) : readCache c.toJson.pretty = .ok c :=
  Outcome.readBack_print (f := fun c : CachedRevocationSet => c.toJson.pretty)
    (fun _ _ h => cache_toJson_injective (Json.pretty_injective h)) c

/-- Checks a token for the node itself, and fails closed after five minutes. -/
def strictArgs (noRevocationCheck : Bool) : VerifyArgs where
  token := some "00"
  walletLabel := none
  requester := (Principal.mk (.filled 2)).hex
  action := "storage:read"
  onNode := none
  tags := []
  noRevocationCheck := noRevocationCheck
  failClosed := true
  revocationTtl := 300
  useRoots := false

/-- A run at this time that gets this answer of the node, and can save it. -/
def answering (now : UInt64) (fetched : Except String (List (String × UInt64))) : VerifyEnv where
  now := now
  identity := .ok (.filled 1)
  roots := .ok .inMemory
  wallet := .ok .inMemory
  iamDir := .ok "iam"
  node := "http://127.0.0.1:8844"
  fetched := fetched
  written := .ok ()

def strictSubject : Subject := ⟨.default, .filled 1, ⟨.filled 2⟩, "00"⟩

/-- The node lists one pair, and is down 200 seconds later. -/
def listedPairs : List (String × UInt64) := [((Principal.mk (.filled 1)).hex, 7)]

def listedCache : CachedRevocationSet := ⟨listedPairs, 1000, 300⟩

theorem strict_subject (skip : Bool) (now : UInt64)
    (fetched : Except String (List (String × UInt64))) :
    subject .default (strictArgs skip) (answering now fetched) = .ok strictSubject := by
  simp only [subject, strictArgs, answering, Principal.parse_hex]
  rfl

theorem observed_listed :
    observed readCache Iam.symbolic .default
        [(strictArgs false, answering 1000 (.ok listedPairs))] =
      ⟨some listedCache.toJson.pretty, [(1000, listedPairs)]⟩ := by
  have hload : loadCache readCache (strictArgs false) (answering 1000 (.ok listedPairs)) none =
      .ok ("iam/revocation-cache.json", ⟨[], 0, 300⟩) := rfl
  have hrefresh : CachedRevocationSet.refresh (.ok listedPairs) 1000
      (some "iam/revocation-cache.json") (.ok ()) ⟨[], 0, 300⟩ none =
      (.ok (), listedCache, some listedCache.toJson.pretty) := rfl
  have hsubject := strict_subject false 1000 (.ok listedPairs)
  have hreached := beforeCheck_of_load rfl hsubject hload hrefresh
  have hanswered := answered_of_load rfl hsubject hload
  simp only [observed, List.foldl_cons, List.foldl_nil, observe, cmdVerify, hreached, hanswered]
  rfl

theorem loadCache_listed :
    loadCache readCache (strictArgs false) (answering 1200 (.error "connection refused"))
      (some listedCache.toJson.pretty) = .ok ("iam/revocation-cache.json", listedCache) := by
  have hsmall : ¬ listedCache.toJson.pretty.utf8ByteSize > maxStoreBytes := by decide +kernel
  have hload : CachedRevocationSet.load readCache "iam/revocation-cache.json" 300
      (some listedCache.toJson.pretty) = .ok listedCache := by
    simp only [CachedRevocationSet.load, loadJsonOrDefault, if_neg hsmall, readCache_pretty]
    rfl
  have hpath : cachePath (answering 1200 (.error "connection refused")) =
      .ok "iam/revocation-cache.json" := rfl
  have hwindow : (strictArgs false).revocationTtl = 300 := rfl
  rw [loadCache, hpath, Outcome.ok_bind, hwindow, hload]
  rfl

/-- The pair of the first run is used in the second, within its window. -/
theorem failClosed_fresh_down :
    (beforeCheck readCache .default (strictArgs false)
      (answering 1200 (.error "connection refused"))
      (observed readCache Iam.symbolic .default
        [(strictArgs false, answering 1000 (.ok listedPairs))]).disk).1 =
      .ok (strictSubject, .fromHexPairs listedPairs) ∧
    ∃ e ∈ (observed readCache Iam.symbolic .default
        ([(strictArgs false, answering 1000 (.ok listedPairs))] ++
          [(strictArgs false, answering 1200 (.error "connection refused"))])).returned,
      RevocationSet.fromHexPairs listedPairs = .fromHexPairs e.2 ∧
        (1200 : UInt64).toNat ≤ e.1.toNat + (300 : UInt64).toNat := by
  have hreach : (beforeCheck readCache .default (strictArgs false)
      (answering 1200 (.error "connection refused"))
      (observed readCache Iam.symbolic .default
        [(strictArgs false, answering 1000 (.ok listedPairs))]).disk).1 =
      .ok (strictSubject, .fromHexPairs listedPairs) := by
    rw [observed_listed, beforeCheck_of_load rfl (strict_subject _ _ _) loadCache_listed rfl]
    rfl
  exact ⟨hreach, failClosed_fresh readCache_pretty _ hreach rfl (by decide) rfl⟩

/-- Without a revocation check, the empty set is used that no node returned. -/
theorem failClosed_unchecked : ¬ ∀ (ls : List (VerifyArgs × VerifyEnv)) (a : VerifyArgs)
    (env : VerifyEnv) (subj : Subject) (set : RevocationSet),
    (ls ++ [(a, env)]).Pairwise (fun l m => l.2.now ≤ m.2.now) →
    (∀ l ∈ ls ++ [(a, env)], 1 ≤ l.2.now) →
    (beforeCheck readCache .default a env (observed readCache Iam.symbolic .default ls).disk).1 =
      .ok (subj, set) →
    a.failClosed = true → 0 < a.revocationTtl →
    ∃ e ∈ (observed readCache Iam.symbolic .default (ls ++ [(a, env)])).returned,
      set = .fromHexPairs e.2 ∧ env.now.toNat ≤ e.1.toNat + a.revocationTtl.toNat := by
  intro hclaim
  have hreach : (beforeCheck readCache .default (strictArgs true)
      (answering 1000 (.error "connection refused"))
      (observed readCache Iam.symbolic .default []).disk).1 = .ok (strictSubject, .empty) := by
    simp only [beforeCheck, strict_subject, resolveRevocation]
    rfl
  obtain ⟨e, hreturned, -⟩ := hclaim [] _ _ _ _ (List.pairwise_singleton ..)
    (by simp only [List.nil_append, List.forall_mem_singleton]; decide) hreach rfl (by decide)
  have hskipped : (strictArgs true).noRevocationCheck = true := rfl
  simp only [observed, List.nil_append, List.foldl_cons, List.foldl_nil, observe,
    answered_unchecked hskipped] at hreturned
  cases hreturned

end Cli

end CeIam
