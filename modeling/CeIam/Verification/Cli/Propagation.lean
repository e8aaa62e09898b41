import CeIam.Verification.Cli.Freshness
import CeIam.Verification.Commands.Grants

/-! # How a revocation reaches a verifier

Grants are issued and revoked anywhere, and machines check tokens against the list of revoked pairs
that the node returned last. What a machine decides that fails closed is what the grants were at
one of its fetches, no longer ago than its window. -/

namespace CeIam

/-- A command prints or revokes a grant, or a machine runs the verify command. -/
inductive DeploymentEvent (cc : CeCap) (ι : Type*) where
  | grant (e : GrantEvent cc)
  | verify (i : ι) (a : VerifyArgs) (env : VerifyEnv)

/-- The grants in circulation, and the data directory of each machine. -/
structure Deployment (ι : Type*) where
  grants : Circulation
  machines : ι → Cli.Observed

namespace Deployment

open Circulation Iam

variable {ι : Type*} [DecidableEq ι] (cc : CeCap) (service : Iam)
  (parse : String → Except String CachedRevocationSet)
  (parseLog : String → Except String CatalogLog)
  (parseRoots : String → Except String (OrdMap String RootEntry))

/-- Nothing was issued, and no machine has a cache file. -/
def start : Deployment ι := ⟨.empty, fun _ => ⟨none, []⟩⟩

/-- One event; a node that answers lists the pairs that have been revoked. -/
def Step (s : Deployment ι) (e : DeploymentEvent cc ι) (t : Deployment ι) : Prop :=
  match e with
  | .grant e => Circulation.Step cc service parseLog parseRoots s.grants e t.grants ∧
      t.machines = s.machines
  | .verify i a env =>
      (∀ pairs, env.fetched = .ok pairs → .fromHexPairs pairs = s.grants.revoked) ∧
        t = ⟨s.grants, Function.update s.machines i
          (Cli.observe parse cc service (s.machines i) (a, env))⟩

/-- What a run of the verify command asks. -/
def request (a : VerifyArgs) (env : VerifyEnv) (subj : Cli.Subject) : Request :=
  ⟨subj.onNode, a.tags, env.now, subj.requester, a.action⟩

variable {cc service parse parseLog parseRoots} {signatureValid : SignedCapability → Bool}
  {s t : Deployment ι} {e : DeploymentEvent cc ι} {events : List (DeploymentEvent cc ι)} {g : Grant}
  {a : VerifyArgs} {env : VerifyEnv} {subj : Cli.Subject} {i : ι}

/-- Every answer that a machine has came to a run of it that asked the node, and lists what was
revoked before. -/
def Recorded (events : List (DeploymentEvent cc ι)) (s : Deployment ι) : Prop :=
  ∀ i, ∀ answer ∈ (s.machines i).returned, ∃ past a env,
    past ++ [.verify i a env] <+: events ∧ a.noRevocationCheck = false ∧ env.now = answer.1 ∧
      env.fetched = .ok answer.2 ∧ ∀ issuer nonce,
        (RevocationSet.fromHexPairs answer.2).isRevoked issuer nonce = true ↔
        .grant (.revoke issuer nonce) ∈ past

/-- What a run of the deployment keeps: the tokens are sound, the revoked pairs are those of the
events, and the files and the answers of the machines are known. -/
structure Kept (signatureValid : SignedCapability → Bool) (events : List (DeploymentEvent cc ι))
    (s : Deployment ι) : Prop where
  sound : Sound cc signatureValid s.grants
  revoked : ∀ issuer nonce, s.grants.revoked.isRevoked issuer nonce = true ↔
    .grant (.revoke issuer nonce) ∈ events
  known : ∀ i, (s.machines i).Known
  recorded : Recorded events s

/-! ## Steps -/

theorem returned_of_answered {disk : Disk} {answer : UInt64 × List (String × UInt64)}
    (h : Cli.answered parse service (a, env) disk = some answer) :
    a.noRevocationCheck = false ∧ env.now = answer.1 ∧ env.fetched = .ok answer.2 := by
  rw [Cli.answered] at h
  split at h
  · split_ifs at h with hcheck
    obtain ⟨pairs, hpairs, rfl⟩ := Option.map_eq_some_iff.mp h
    cases hfetched : env.fetched with
    | error reason => simp [hfetched, Except.toOption] at hpairs
    | ok fetched =>
        rw [hfetched] at hpairs
        cases hpairs
        exact ⟨Bool.eq_false_iff.mpr hcheck, rfl, rfl⟩
  · cases h

omit [DecidableEq ι] in
theorem Recorded.snoc (h : Recorded events s) (e : DeploymentEvent cc ι) :
    Recorded (events ++ [e]) s := by
  intro i answer hanswer
  obtain ⟨past, a, env, hpast, hrest⟩ := h i answer hanswer
  exact ⟨past, a, env, hpast.trans (List.prefix_append ..), hrest⟩

/-- A verification records the answer of the node, if there is one. -/
theorem Kept.recorded_verify (h : Kept signatureValid events s)
    (hlists : ∀ pairs, env.fetched = .ok pairs → .fromHexPairs pairs = s.grants.revoked)
    (i : ι) : Recorded (events ++ [.verify i a env])
      ⟨s.grants, Function.update s.machines i
        (Cli.observe parse cc service (s.machines i) (a, env))⟩ := by
  intro j answer hanswer
  by_cases hj : j = i
  · subst hj
    simp only [Function.update_self] at hanswer
    cases List.mem_append.mp hanswer with
    | inl hold => exact h.recorded.snoc _ j answer hold
    | inr hnew =>
        obtain ⟨hcheck, htime, hfetched⟩ := returned_of_answered (Option.mem_toList.mp hnew)
        refine ⟨events, a, env, List.prefix_refl _, hcheck, htime, hfetched, ?_⟩
        intro issuer nonce
        rw [hlists _ hfetched]
        exact h.revoked issuer nonce
  · simp only [Function.update_of_ne hj] at hanswer
    exact h.recorded.snoc _ j answer hanswer

theorem Kept.step (dlaws : DelegationLaws cc) (laws : VerifierLaws cc signatureValid)
    (h : Kept signatureValid events s) (hstep : Step cc service parse parseLog parseRoots s e t) :
    Kept signatureValid (events ++ [e]) t := by
  cases e with
  | grant e =>
      obtain ⟨hgrant, hmachines⟩ := hstep
      refine ⟨h.sound.step dlaws laws hgrant, ?_, hmachines ▸ h.known, ?_⟩
      · intro issuer nonce
        rw [List.mem_append, ← h.revoked, List.mem_singleton, DeploymentEvent.grant.injEq]
        exact revoked_step hgrant issuer nonce
      · intro i answer hanswer
        rw [hmachines] at hanswer
        exact h.recorded.snoc _ i answer hanswer
  | verify i a env =>
      obtain ⟨hlists, rfl⟩ := hstep
      refine ⟨h.sound, ?_, ?_, h.recorded_verify hlists i⟩
      · intro issuer nonce
        simp [h.revoked]
      · intro j
        by_cases hj : j = i
        · subst hj
          simp only [Function.update_self]
          exact Cli.known_observe (h.known j)
        · simp only [Function.update_of_ne hj]
          exact h.known j

omit [DecidableEq ι] in
theorem kept_start : Kept signatureValid ([] : List (DeploymentEvent cc ι)) start where
  sound := sound_empty
  revoked := fun issuer nonce => by simp [start, Circulation.empty, RevocationSet.isRevoked,
    RevocationSet.empty]
  known := fun _ _ h => by cases h
  recorded := fun _ _ h => by cases h

theorem kept_of_run (dlaws : DelegationLaws cc) (laws : VerifierLaws cc signatureValid)
    (h : Run (Step cc service parse parseLog parseRoots) start events s) :
    Kept signatureValid events s :=
  h.history (I := Kept signatureValid) (fun _ _ _ _ hs hstep => hs.step dlaws laws hstep)
    kept_start

/-! ## Decisions -/

/-- A run that decides has found its subject and the revoked pairs, and decides by them. -/
theorem cmdVerify_eq_ok {disk : Disk} {verdict : Except IamError Unit}
    (hsubject : Cli.subject service a env = .ok subj)
    (h : (Cli.cmdVerify parse cc service a env disk).1 = .ok verdict) :
    ∃ set, (Cli.beforeCheck parse service a env disk).1 = .ok (subj, set) ∧
      Cli.check cc a env subj set = verdict := by
  obtain ⟨⟨subj', set⟩, hreach, hcheck⟩ := Outcome.map_eq_ok.mp h
  have hfound : (Cli.beforeCheck parse service a env disk).1 = .ok (subj', set) := hreach
  have hsame := hfound
  rw [Cli.beforeCheck, hsubject] at hsame
  obtain ⟨set', -, hpair⟩ := Outcome.map_eq_ok.mp hsame
  cases hpair
  exact ⟨set, hfound, hcheck⟩

/-- A list that is a beginning of another one ends before an entry of it, or has that entry. -/
theorem prefix_cases {α : Type*} {past before after : List α} {x y : α} (hne : x ≠ y)
    (h : past ++ [x] <+: before ++ y :: after) : past ++ [x] <+: before ∨ y ∈ past := by
  cases List.prefix_or_prefix_of_prefix h (List.prefix_append before _) with
  | inl hbegins => exact .inl hbegins
  | inr hends =>
      obtain ⟨rest, hrest⟩ := hends
      cases rest with
      | nil =>
          rw [List.append_nil] at hrest
          exact .inl (hrest ▸ List.prefix_refl _)
      | cons z rest =>
          have hz := h
          rw [← hrest, List.prefix_append_right_inj, List.cons_prefix_cons] at hz
          obtain ⟨rfl, -⟩ := hz
          right
          have hmem : z ∈ past ++ [x] := by
            rw [← hrest]
            exact List.mem_append_right _ List.mem_cons_self
          exact (List.mem_append.mp hmem).resolve_right fun hlast =>
            hne (List.mem_singleton.mp hlast).symm

/-- In every run of a deployment, a machine that fails closed decides about a grant in circulation
as it was at one of its fetches within its window: it accepts for what the last link of the grant
says, unless a grant that it comes from had been revoked by then. -/
theorem verdict_within_window (dlaws : DelegationLaws cc) (laws : VerifierLaws cc signatureValid)
    (sound : NarrowingLaws cc)
    (reads : ∀ c : CachedRevocationSet, parse c.toJson.pretty = .ok c)
    (h : Run (Step cc service parse parseLog parseRoots) start events s)
    (hstep : Step cc service parse parseLog parseRoots s (.verify i a env) t)
    (hclosed : a.failClosed = true) (httl : 0 < a.revocationTtl)
    (hcheck : a.noRevocationCheck = false) (hsubject : Cli.subject service a env = .ok subj)
    (hg : Holds cc s.grants g) (htoken : subj.token = g.token) {verdict : Except IamError Unit}
    (hverdict : (Cli.cmdVerify parse cc service a env (s.machines i).disk).1 = .ok verdict) :
    ∃ past b fetching, past ++ [.verify i b fetching] <+: events ++ [.verify i a env] ∧
      b.noRevocationCheck = false ∧ (∃ pairs, fetching.fetched = .ok pairs) ∧
      env.now.toNat ≤ fetching.now.toNat + a.revocationTtl.toNat ∧
      (verdict = .ok () ↔ Says subj.iam (request a env subj) g ∧
        ∀ above, Holds cc s.grants above → Under g above →
          .grant (.revoke (name above).1 (name above).2) ∉ past) := by
  have hkept := kept_of_run dlaws laws h
  obtain ⟨set, hreach, rfl⟩ := cmdVerify_eq_ok hsubject hverdict
  have hfresh : ∃ answer ∈ (Cli.observe parse cc service (s.machines i) (a, env)).returned,
      set = .fromHexPairs answer.2 ∧ env.now.toNat ≤ answer.1.toNat + a.revocationTtl.toNat :=
    Cli.fresh_of_known reads (hkept.known i) hreach hclosed httl hcheck
  obtain ⟨answer, hanswer, rfl, hwindow⟩ := hfresh
  obtain ⟨past, b, fetching, hpast, hasked, htime, hfetched, hlists⟩ :=
    hkept.recorded_verify hstep.1 i i answer (by simpa only [Function.update_self] using hanswer)
  refine ⟨past, b, fetching, hpast, hasked, ⟨_, hfetched⟩, htime ▸ hwindow, ?_⟩
  have haccepts : Cli.check cc a env subj (.fromHexPairs answer.2) = .ok () ↔
      Accepts cc subj.iam (.fromHexPairs answer.2) (request a env subj) g.token := by
    rw [Cli.check, htoken]
    rfl
  rw [haccepts, hkept.sound.accepts_iff dlaws laws sound hg, hkept.sound.live_iff hg]
  refine and_congr_right fun _ => forall_congr' fun above => imp_congr_right fun _ =>
    imp_congr_right fun _ => ?_
  rw [← hlists, Bool.not_eq_true]

/-- The reader shows the loan to a machine that fails closed after five minutes. -/
noncomputable def loanCheck : VerifyArgs where
  token := some loan.token
  walletLabel := none
  requester := Principal.hex ⟨storageReader⟩
  action := "storage:read"
  onNode := none
  tags := []
  noRevocationCheck := false
  failClosed := true
  revocationTtl := 300
  useRoots := false

/-- The node lists the pair of the loan. -/
def lentPairs : List (String × UInt64) := [(Principal.hex ⟨storageOwner⟩, 7)]

theorem lentPairs_listed : .fromHexPairs lentPairs = lent.revoked.revoke storageOwner 7 := by
  decide +kernel

noncomputable def loanSubject : Cli.Subject :=
  ⟨storageService, .filled 1, ⟨storageReader⟩, loan.token⟩

theorem loan_subject :
    Cli.subject storageService loanCheck (Cli.answering 1000 (.ok lentPairs)) = .ok loanSubject := by
  simp only [Cli.subject, loanCheck, Cli.answering, Principal.parse_hex]
  rfl

/-- The loan, revoked. -/
noncomputable def lentAndRevoked : Deployment Unit :=
  ⟨⟨lent.tokens, lent.revoked.revoke storageOwner 7⟩, fun _ => ⟨none, []⟩⟩

theorem lentAndRevoked_run : Run (Step symbolic storageService Cli.readCache unread unread) start
    ([.grant (.grant ownerEnv loanArgs none)] ++ [.grant (.revoke storageOwner 7)])
    lentAndRevoked := by
  have hissued : Step symbolic storageService Cli.readCache unread unread (start : Deployment Unit)
      (.grant (.grant ownerEnv loanArgs none)) ⟨lent, fun _ => ⟨none, []⟩⟩ := ⟨loan_issued, rfl⟩
  exact (Run.single hissued).snoc ⟨rfl, rfl⟩

theorem loan_verdict :
    (Cli.cmdVerify Cli.readCache symbolic storageService loanCheck
      (Cli.answering 1000 (.ok lentPairs)) none).1 =
      .ok (Cli.check symbolic loanCheck (Cli.answering 1000 (.ok lentPairs)) loanSubject
        (.fromHexPairs lentPairs)) := by
  have hload : Cli.loadCache Cli.readCache loanCheck (Cli.answering 1000 (.ok lentPairs)) none =
      .ok ("iam/revocation-cache.json", ⟨[], 0, 300⟩) := rfl
  have hrefresh : CachedRevocationSet.refresh (.ok lentPairs) 1000
      (some "iam/revocation-cache.json") (.ok ()) ⟨[], 0, 300⟩ none =
      (.ok (), ⟨lentPairs, 1000, 300⟩,
        some (CachedRevocationSet.toJson ⟨lentPairs, 1000, 300⟩).pretty) := rfl
  rw [Cli.cmdVerify, Cli.beforeCheck_of_load rfl loan_subject hload hrefresh]
  rfl

/-- The machine asks the node after the revocation, and refuses the loan. -/
theorem verdict_within_window_loan :
    Cli.check symbolic loanCheck (Cli.answering 1000 (.ok lentPairs)) loanSubject
      (.fromHexPairs lentPairs) ≠ .ok () := by
  intro haccepted
  have hheld : Holds symbolic lentAndRevoked.grants loan := ⟨loan_held.1, loan_held.2⟩
  have hlists : ∀ pairs, (Cli.answering 1000 (.ok lentPairs)).fetched = .ok pairs →
      .fromHexPairs pairs = lentAndRevoked.grants.revoked := by
    intro pairs hpairs
    cases hpairs
    exact lentPairs_listed
  obtain ⟨past, b, fetching, hpast, -, -, -, hverdict⟩ := verdict_within_window (i := ())
    symbolic_delegationLaws symbolic_verifierLaws symbolic_narrowingLaws Cli.readCache_pretty
    lentAndRevoked_run ⟨hlists, rfl⟩ rfl (by decide) rfl loan_subject hheld rfl loan_verdict
  rw [List.append_assoc] at hpast
  cases prefix_cases (by simp) hpast with
  | inl hbefore =>
      have hmem := hbefore.subset (List.mem_append_right past List.mem_cons_self)
      simp at hmem
  | inr hrevoked =>
      exact (hverdict.mp haccepted).2 loan hheld (List.prefix_refl _) hrevoked

/-- A revoked grant, and what was delegated from it, is refused by every machine that fails closed,
as soon as its last fetch before the revocation is out of its window, whether or not the node
answers since. -/
theorem revoked_refused (dlaws : DelegationLaws cc) (laws : VerifierLaws cc signatureValid)
    (sound : NarrowingLaws cc)
    (reads : ∀ c : CachedRevocationSet, parse c.toJson.pretty = .ok c)
    {before after : List (DeploymentEvent cc ι)} {above : Grant}
    (h : Run (Step cc service parse parseLog parseRoots) start
      (before ++ .grant (.revoke (name above).1 (name above).2) :: after) s)
    (hstep : Step cc service parse parseLog parseRoots s (.verify i a env) t)
    (hclosed : a.failClosed = true) (httl : 0 < a.revocationTtl)
    (hcheck : a.noRevocationCheck = false) (hsubject : Cli.subject service a env = .ok subj)
    (hg : Holds cc s.grants g) (htoken : subj.token = g.token) (habove : Holds cc s.grants above)
    (hunder : Under g above)
    (hlapsed : ∀ b fetching, .verify i b fetching ∈ before → b.noRevocationCheck = false →
      fetching.now.toNat + a.revocationTtl.toNat < env.now.toNat) :
    (Cli.cmdVerify parse cc service a env (s.machines i).disk).1 ≠ .ok (.ok ()) := by
  intro haccepted
  obtain ⟨past, b, fetching, hpast, hasked, -, hwindow, hverdict⟩ := verdict_within_window dlaws
    laws sound reads h hstep hclosed httl hcheck hsubject hg htoken haccepted
  rw [List.append_assoc, List.cons_append] at hpast
  cases prefix_cases (by simp) hpast with
  | inl hbefore =>
      have hmem := hbefore.subset (List.mem_append_right past List.mem_cons_self)
      exact absurd hwindow (Nat.not_le.mpr (hlapsed b fetching hmem hasked))
  | inr hrevoked => exact (hverdict.mp rfl).2 above habove hunder hrevoked

end Deployment

end CeIam
