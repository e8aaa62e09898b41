import CeIam.Verification.Commands.Grants
import CeIam.Verification.Commands.Roots

/-! # Rotating a root

A new root is added to the file of a verifier, grants are reissued under it, and the old root is
retired. While the windows of the two roots meet, a holder always has a token that is accepted, and
after its window the old root is of no use. -/

namespace CeIam

namespace Cli

open Roots Iam

/-! ## The two entries -/

/-- The key that a command names. -/
def RootCmd.key? : RootCmd → Option String
  | .add text _ _ _ => some text
  | .list => none
  | .retire text _ => some text
  | .rm text => some text
  | .reissue _ _ => none

/-- A command that does not name the key. -/
def RootCmd.Spares (key : Principal) (cmd : RootCmd) : Prop :=
  ∀ text ∈ cmd.key?, Principal.parse text ≠ .ok key

def RootJob.key? : RootJob → Option Principal
  | .add key _ _ _ _ => some key
  | .list => none
  | .retire key _ _ => some key
  | .rm key _ => some key

variable {cc : CeCap} {service : Iam} {parse : String → Except String (OrdMap String RootEntry)}
  {dir : String} {m n : OrdMap String RootEntry} {disk : Disk} {env : CommandEnv cc.Identity}
  {cmd : RootCmd} {key : Principal}

/-- The job of a command is about the key that the command names. -/
theorem key_of_storeJob {job : RootJob} (h : storeJob cc service env cmd = .ok job) :
    ∀ key ∈ job.key?, ∃ text ∈ cmd.key?, Principal.parse text = .ok key := by
  have hjob := storeJob_eq_ok.mp h
  cases cmd with
  | add text label validIn validFor =>
      obtain ⟨key, hkey, hlast⟩ := Outcome.bind_eq_ok.mp hjob
      cases hlast
      rintro _ ⟨⟩
      exact ⟨text, rfl, Outcome.mapError_eq_ok.mp hkey⟩
  | list =>
      cases hjob
      exact fun key hkey => nomatch hkey
  | retire text inSecs =>
      obtain ⟨key, hkey, hlast⟩ := Outcome.bind_eq_ok.mp hjob
      cases hlast
      rintro _ ⟨⟩
      exact ⟨text, rfl, Outcome.mapError_eq_ok.mp hkey⟩
  | rm text =>
      obtain ⟨key, hkey, hlast⟩ := Outcome.bind_eq_ok.mp hjob
      cases hlast
      rintro _ ⟨⟩
      exact ⟨text, rfl, Outcome.mapError_eq_ok.mp hkey⟩
  | reissue token nonce =>
      obtain ⟨identity, -, hrest⟩ := Outcome.bind_eq_ok.mp hjob
      obtain ⟨grant, -, hmore⟩ := Outcome.bind_eq_ok.mp hrest
      obtain ⟨reissued, -, hlast⟩ := Outcome.bind_eq_ok.mp hmore
      cases hlast

theorem RootStep.spares {job : RootJob} (hstep : RootStep job m n)
    (h : ∀ k ∈ job.key?, k ≠ key) : n[key.hex]? = m[key.hex]? := by
  cases hstep with
  | @add k label notBefore notAfter written r hcheck =>
      rw [OrdMap.get_insert, if_neg fun heq => h k rfl (Principal.hex_injective heq)]
  | @retire k time written _ e he =>
      rw [OrdMap.get_insert, if_neg fun heq => h k rfl (Principal.hex_injective heq)]
  | @rm k written =>
      rw [OrdMap.get_erase, if_neg fun heq => h k rfl (Principal.hex_injective heq)]

variable (cc service env cmd) in
/-- A command keeps the roots sound, and the entries of the keys that it does not name. -/
theorem cmdRoot_spares (reads : ∀ roots, parse (rootsJson roots).pretty = .ok roots)
    (hdir : env.iamDir = .ok dir) (hm : Keeps ∅ rootsJson m disk) (hsound : RootsSound m) :
    ∃ n, Keeps ∅ rootsJson n (cmdRoot cc service parse env cmd disk).2 ∧ RootsSound n ∧
      ∀ key : Principal, cmd.Spares key → n[key.hex]? = m[key.hex]? := by
  by_cases hcmd : ∀ token nonce, cmd ≠ .reissue token nonce
  · rw [cmdRoot_eq hdir hcmd]
    have hcases : ((rootFiled parse dir).exec (storeJob cc service env cmd) disk).2 = disk ∨ _ :=
      rootFiled_step reads (storeJob cc service env cmd) hm
    cases hcases with
    | inl hsame =>
        rw [hsame]
        exact ⟨m, hm, hsound, fun _ _ => rfl⟩
    | inr hchange =>
        obtain ⟨job, n, hjob, hstep, hfile⟩ := hchange
        refine ⟨n, .inr hfile, hsound.step hstep, ?_⟩
        intro key hspares
        refine hstep.spares ?_
        rintro k hk rfl
        obtain ⟨text, htext, hparse⟩ := key_of_storeJob hjob k hk
        exact hspares text htext hparse
  · simp only [not_forall, not_not] at hcmd
    obtain ⟨token, nonce, rfl⟩ := hcmd
    have hsame : (cmdRoot cc service parse env (.reissue token nonce) disk).2 = disk := by
      rw [cmdRoot]
      cases hjob : rootJob cc service env (.reissue token nonce) with
      | error e => rfl
      | ok job =>
          cases job with
          | inl job =>
              have hstore := key_of_storeJob (storeJob_eq_ok.mpr hjob)
              obtain ⟨identity, -, hrest⟩ := Outcome.bind_eq_ok.mp hjob
              obtain ⟨grant, -, hmore⟩ := Outcome.bind_eq_ok.mp hrest
              obtain ⟨reissued, -, hlast⟩ := Outcome.bind_eq_ok.mp hmore
              cases hlast
          | inr grant => rfl
    rw [hsame]
    exact ⟨m, hm, hsound, fun _ _ => rfl⟩

/-- An addition that is answered has put the root into the file. -/
theorem cmdRoot_added (reads : ∀ roots, parse (rootsJson roots).pretty = .ok roots)
    (hdir : env.iamDir = .ok dir) (hm : Keeps ∅ rootsJson m disk) (hsound : RootsSound m)
    {text : String} {label : Option String} {validIn validFor : UInt64} {a : RootReply}
    (hkey : Principal.parse text = .ok key)
    (h : (cmdRoot cc service parse env (.add text label validIn validFor) disk).1 = .ok a) :
    ∃ n, Keeps ∅ rootsJson n
        (cmdRoot cc service parse env (.add text label validIn validFor) disk).2 ∧
      RootsSound n ∧ n[key.hex]? = some ⟨key, label, (rootWindow env.now validIn validFor).1,
        (rootWindow env.now validIn validFor).2⟩ ∧ ∀ k, k ≠ key.hex → n[k]? = m[k]? := by
  have hjob : rootJob cc service env (.add text label validIn validFor) =
      .ok (.inl (.add key label (rootWindow env.now validIn validFor).1
        (rootWindow env.now validIn validFor).2 env.written)) := by
    simp only [rootJob, parsePrincipal, hkey]
    rfl
  rw [cmdRoot, hdir, hjob] at h ⊢
  cases hopen : openRoots parse (.ok dir) disk with
  | error e =>
      rw [hopen] at h
      cases h
  | ok r =>
      have hr := openRoots_eq reads hm hopen
      subst hr
      simp only [hopen, RootJob.run, Roots.add] at h ⊢
      generalize rootWindow env.now validIn validFor = window at h ⊢
      cases hcheck : Roots.check key window.1 window.2 ⟨m, some (dir ++ "/roots.json")⟩ with
      | error e =>
          rw [hcheck] at h
          cases h
      | ok u =>
          simp only [hcheck, Roots.save] at h ⊢
          cases hwritten : env.written with
          | error e =>
              rw [hwritten] at h
              cases h
          | ok u =>
              exact ⟨_, .inr rfl,
                hsound.step (@RootStep.add key label _ _ env.written _ hcheck),
                by rw [OrdMap.get_insert, if_pos rfl],
                fun k hk => by rw [OrdMap.get_insert, if_neg (Ne.symm hk)]⟩

/-- A retirement that is answered with a root has given the root its end in the file. -/
theorem cmdRoot_retired (reads : ∀ roots, parse (rootsJson roots).pretty = .ok roots)
    (hdir : env.iamDir = .ok dir) (hm : Keeps ∅ rootsJson m disk) (hsound : RootsSound m)
    {text : String} {inSecs time : UInt64} (hkey : Principal.parse text = .ok key)
    (h : (cmdRoot cc service parse env (.retire text inSecs) disk).1 =
      .ok (.retiring key time true)) :
    ∃ n e, Keeps ∅ rootsJson n (cmdRoot cc service parse env (.retire text inSecs) disk).2 ∧
      RootsSound n ∧ m[key.hex]? = some e ∧
      n[key.hex]? = some { e with notAfter := saturatingAdd env.now inSecs } ∧
      ∀ k, k ≠ key.hex → n[k]? = m[k]? := by
  have hjob : rootJob cc service env (.retire text inSecs) =
      .ok (.inl (.retire key (saturatingAdd env.now inSecs) env.written)) := by
    simp only [rootJob, parsePrincipal, hkey]
    rfl
  rw [cmdRoot, hdir, hjob] at h ⊢
  cases hopen : openRoots parse (.ok dir) disk with
  | error e =>
      rw [hopen] at h
      cases h
  | ok r =>
      have hr := openRoots_eq reads hm hopen
      subst hr
      simp only [hopen, RootJob.run, Roots.retire] at h ⊢
      cases hget : m[key.hex]? with
      | none =>
          rw [hget] at h
          cases h
      | some e =>
          simp only [hget, Roots.save] at h ⊢
          cases hwritten : env.written with
          | error e =>
              rw [hwritten] at h
              cases h
          | ok u =>
              exact ⟨_, e, .inr rfl, hsound.step (@RootStep.retire key _ env.written _ e hget), rfl,
                by rw [OrdMap.get_insert, if_pos rfl],
                fun k hk => by rw [OrdMap.get_insert, if_neg (Ne.symm hk)]⟩

/-! ## A rotation -/

/-- The commands of a rotation: one root is added, another one is retired, and any commands come
between and after. -/
structure Rotation (cc : CeCap) where
  added : CommandEnv cc.Identity
  newText : String
  label : Option String
  validIn : UInt64
  validFor : UInt64
  between : List (CommandEnv cc.Identity × RootCmd)
  retired : CommandEnv cc.Identity
  oldText : String
  inSecs : UInt64
  later : List (CommandEnv cc.Identity × RootCmd)

namespace Rotation

variable (cc service parse) in
/-- The file after some root commands. -/
def run (ls : List (CommandEnv cc.Identity × RootCmd)) (disk : Disk) : Disk :=
  Machine.after (fun l => cmdRoot cc service parse l.1 l.2) ls disk

def beginning (ro : Rotation cc) : List (CommandEnv cc.Identity × RootCmd) :=
  (ro.added, .add ro.newText ro.label ro.validIn ro.validFor) :: ro.between

def commands (ro : Rotation cc) : List (CommandEnv cc.Identity × RootCmd) :=
  ro.beginning ++ (ro.retired, .retire ro.oldText ro.inSecs) :: ro.later

/-- The window of the new root, and the end of the old one. -/
def window (ro : Rotation cc) : UInt64 × UInt64 := rootWindow ro.added.now ro.validIn ro.validFor

def oldEnd (ro : Rotation cc) : UInt64 := saturatingAdd ro.retired.now ro.inSecs

variable (service parse) in
/-- The addition and the retirement are answered, and the other commands name neither root. -/
structure Succeeds (ro : Rotation cc) (dir : String) (old new : Principal) (disk : Disk) :
    Prop where
  dir : ∀ l ∈ ro.commands, l.1.iamDir = .ok dir
  newText : Principal.parse ro.newText = .ok new
  oldText : Principal.parse ro.oldText = .ok old
  spares : ∀ l ∈ ro.between ++ ro.later, l.2.Spares old ∧ l.2.Spares new
  added : ∃ a, (cmdRoot cc service parse ro.added
    (.add ro.newText ro.label ro.validIn ro.validFor) disk).1 = .ok a
  retired : ∃ time, (cmdRoot cc service parse ro.retired (.retire ro.oldText ro.inSecs)
    (run cc service parse ro.beginning disk)).1 = .ok (.retiring old time true)

variable (service) in
/-- Commands that do not name some keys keep their entries. -/
theorem run_spares (keys : Principal → Prop)
    (reads : ∀ roots, parse (rootsJson roots).pretty = .ok roots)
    {ls : List (CommandEnv cc.Identity × RootCmd)}
    (hdir : ∀ l ∈ ls, l.1.iamDir = .ok dir)
    (hspares : ∀ l ∈ ls, ∀ key, keys key → l.2.Spares key)
    (hm : Keeps ∅ rootsJson m disk) (hsound : RootsSound m) :
    ∃ n, Keeps ∅ rootsJson n (run cc service parse ls disk) ∧ RootsSound n ∧
      ∀ key : Principal, keys key → n[key.hex]? = m[key.hex]? := by
  induction ls generalizing m disk with
  | nil => exact ⟨m, hm, hsound, fun _ _ => rfl⟩
  | cons l ls ih =>
      obtain ⟨k, hk, hksound, hsame⟩ :=
        cmdRoot_spares cc service l.1 l.2 reads (hdir l List.mem_cons_self) hm hsound
      obtain ⟨n, hn, hnsound, hrest⟩ := ih (fun l hl => hdir l (List.mem_cons_of_mem _ hl))
        (fun l hl => hspares l (List.mem_cons_of_mem _ hl)) hk hksound
      refine ⟨n, hn, hnsound, fun key hkey => ?_⟩
      rw [hrest key hkey, hsame key (hspares l List.mem_cons_self key hkey)]

variable (service parse) in
theorem run_beginning (ro : Rotation cc) (disk : Disk) :
    run cc service parse ro.beginning disk = run cc service parse ro.between
      (cmdRoot cc service parse ro.added (.add ro.newText ro.label ro.validIn ro.validFor) disk).2 :=
  Machine.after_cons ..

variable (service parse) in
theorem run_commands (ro : Rotation cc) (disk : Disk) :
    run cc service parse ro.commands disk = run cc service parse ro.later
      (cmdRoot cc service parse ro.retired (.retire ro.oldText ro.inSecs)
        (run cc service parse ro.beginning disk)).2 := by
  rw [run, commands, Machine.after_append, Machine.after_cons]
  rfl

/-- After a rotation the old root has its end, and the new one its window. -/
theorem Succeeds.entries (reads : ∀ roots, parse (rootsJson roots).pretty = .ok roots)
    {ro : Rotation cc} {old new : Principal} (h : ro.Succeeds service parse dir old new disk)
    (hne : old ≠ new) (hm : Keeps ∅ rootsJson m disk) (hsound : RootsSound m) {e : RootEntry}
    (he : m[old.hex]? = some e) :
    ∃ n, Keeps ∅ rootsJson n (run cc service parse ro.commands disk) ∧ RootsSound n ∧
      n[old.hex]? = some { e with notAfter := ro.oldEnd } ∧
      n[new.hex]? = some ⟨new, ro.label, ro.window.1, ro.window.2⟩ := by
  have hhex : new.hex ≠ old.hex := fun heq => hne (Principal.hex_injective heq).symm
  have hboth : ∀ l ∈ ro.between ++ ro.later, ∀ key, key = old ∨ key = new → l.2.Spares key := by
    rintro l hl key (rfl | rfl)
    · exact (h.spares l hl).1
    · exact (h.spares l hl).2
  have hdir : ∀ ls : List (CommandEnv cc.Identity × RootCmd), (∀ l ∈ ls, l ∈ ro.commands) →
      ∀ l ∈ ls, l.1.iamDir = .ok dir := fun ls hls l hl => h.dir l (hls l hl)
  obtain ⟨a, hadded⟩ := h.added
  obtain ⟨time, hretired⟩ := h.retired
  obtain ⟨m₁, hm₁, hsound₁, hnew₁, hother₁⟩ := cmdRoot_added reads
    (h.dir (ro.added, .add ro.newText ro.label ro.validIn ro.validFor)
      (by simp [commands, beginning])) hm hsound h.newText hadded
  obtain ⟨m₂, hm₂, hsound₂, hsame₂⟩ := run_spares service (fun key => key = old ∨ key = new) reads
    (hdir ro.between fun l hl => by simp [commands, beginning, hl])
    (fun l hl => hboth l (List.mem_append_left _ hl)) hm₁ hsound₁
  rw [← run_beginning] at hm₂
  obtain ⟨m₃, f, hm₃, hsound₃, hf, hold₃, hother₃⟩ := cmdRoot_retired reads
    (h.dir (ro.retired, .retire ro.oldText ro.inSecs) (by simp [commands])) hm₂ hsound₂ h.oldText
    hretired
  obtain ⟨n, hn, hnsound, hsame⟩ := run_spares service (fun key => key = old ∨ key = new) reads
    (hdir ro.later fun l hl => by simp [commands, hl])
    (fun l hl => hboth l (List.mem_append_right _ hl)) hm₃ hsound₃
  have hfe : f = e := by
    rw [hsame₂ old (.inl rfl), hother₁ _ (Ne.symm hhex), he] at hf
    exact (Option.some.inj hf).symm
  rw [← run_commands] at hn
  refine ⟨n, hn, hnsound, ?_, ?_⟩
  · rw [hsame old (.inl rfl), hold₃, hfe, oldEnd]
  · rw [hsame new (.inr rfl), hother₃ _ hhex, hsame₂ new (.inr rfl), hnew₁, window]

end Rotation

/-! ## No outage -/

theorem mem_acceptedAt {r : Roots} {now : UInt64} {id : NodeId} :
    id ∈ r.acceptedAt now ↔ r.isAccepted id now = true := by
  simp only [acceptedAt, isAccepted, List.mem_map, List.mem_filter, List.any_eq_true,
    Bool.and_eq_true, decide_eq_true_eq]
  constructor
  · rintro ⟨e, ⟨he, hnow⟩, rfl⟩
    exact ⟨e, he, rfl, hnow⟩
  · rintro ⟨e, he, rfl, hnow⟩
    exact ⟨e, ⟨he, hnow⟩, rfl⟩

theorem mem_withAcceptedRoots {iam : Iam} {roots : List NodeId} {id : NodeId} :
    id ∈ (iam.withAcceptedRoots roots).acceptedRoots ↔ id ∈ iam.acceptedRoots ∨ id ∈ roots := by
  rw [withAcceptedRoots, mem_sortDedup, List.mem_append]

/-- Roots that were opened on a file with this entry accept its key in its window. -/
theorem accepts_of_entry (reads : ∀ roots, parse (rootsJson roots).pretty = .ok roots)
    (hm : Keeps ∅ rootsJson m disk) (hsound : RootsSound m) {r : Roots}
    (hopen : openRoots parse (.ok dir) disk = .ok r) {e : RootEntry}
    (he : m[key.hex]? = some e) {base : Iam} (hbase : key.nodeId ∉ base.acceptedRoots)
    (now : UInt64) :
    key.nodeId ∈ (base.withAcceptedRoots (r.acceptedAt now)).acceptedRoots ↔
      e.notBefore ≤ now ∧ now ≤ RootEntry.lastMoment e.notAfter := by
  have hr := openRoots_eq reads hm hopen
  subst hr
  rw [mem_withAcceptedRoots, or_iff_right hbase, mem_acceptedAt,
    isAccepted_of_keyed (r := ⟨m, some (dir ++ "/roots.json")⟩) hsound.keyed he,
    RootEntry.acceptedAt_iff]

/-- Reissuing a root grant gives the same grant under the identity of the machine. -/
theorem reissue_issueRoot {signatureValid : SignedCapability → Bool}
    (laws : VerifierLaws cc signatureValid) {issuer newRoot : cc.Identity} {audience : Principal}
    {scope : Scope} {nonce nonce' : UInt64} {g : Grant} (hid : env.identity = .ok newRoot)
    (h : (cmdRoot cc service parse env
      (.reissue (issueRoot cc issuer audience scope nonce).token nonce') disk).1 =
        .ok (.reissued g)) :
    g = issueRoot cc newRoot audience scope nonce' := by
  obtain ⟨identity, grant, link, hidentity, hdecode, hlink, rfl⟩ := cmdRoot_reissue_eq_ok h
  obtain ⟨chain, hchain, hgrant⟩ := Outcome.bind_eq_ok.mp hdecode
  obtain ⟨-, hread, -⟩ := guardedDecode_eq_ok.mp hchain
  rw [issueRoot, Grant.fromChain, laws.decode_encode, Except.ok.injEq] at hread
  cases hgrant
  have hsingle : chain.val = [link] := hlink
  rw [← hread] at hsingle
  cases hsingle
  rw [hid] at hidentity
  cases hidentity
  simp only [laws.issue_cap]

/-- Through a rotation, and whatever other root commands come in between and after, the old grant is
accepted in the old window and the reissued grant in the new one. If the new window opens by the
second after the old one closes, the holder always has a token that is accepted. -/
theorem rotation_without_outage {signatureValid : SignedCapability → Bool}
    (laws : VerifierLaws cc signatureValid)
    (reads : ∀ roots, parse (rootsJson roots).pretty = .ok roots)
    {ro : Rotation cc} {oldRoot newRoot : cc.Identity}
    (h : ro.Succeeds service parse dir ⟨cc.nodeId oldRoot⟩ ⟨cc.nodeId newRoot⟩ disk)
    (hne : cc.nodeId oldRoot ≠ cc.nodeId newRoot) (hm : Keeps ∅ rootsJson m disk)
    (hsound : RootsSound m) {e : RootEntry} (he : m[Principal.hex ⟨cc.nodeId oldRoot⟩]? = some e)
    {r : Roots}
    (hopen : openRoots parse (.ok dir) (Rotation.run cc service parse ro.commands disk) = .ok r)
    {audience : Principal} {scope : Scope} {nonce nonce' : UInt64} {old new : Grant}
    (hold : old = issueRoot cc oldRoot audience scope nonce)
    (hid : env.identity = .ok newRoot) {file : Disk}
    (hnew : (cmdRoot cc service parse env (.reissue old.token nonce') file).1 =
      .ok (.reissued new))
    {base : Iam} (hbase : ∀ root ∈ [oldRoot, newRoot], cc.nodeId root ∉ base.acceptedRoots)
    (hreads : ∀ g ∈ [old, new], Reads base g) {revoked : RevocationSet}
    (hlive : revoked.isRevoked (cc.nodeId oldRoot) nonce = false)
    (hlive' : revoked.isRevoked (cc.nodeId newRoot) nonce' = false) (q : Circulation.Request)
    (hself : ∀ root ∈ [oldRoot, newRoot], cc.nodeId root ≠ q.selfId) :
    (Circulation.Accepts cc (base.withAcceptedRoots (r.acceptedAt q.now)) revoked q old.token ↔
      audience = q.requester ∧ scope.Permits q.selfId q.selfTags q.now q.action ∧
        e.notBefore ≤ q.now ∧ q.now ≤ RootEntry.lastMoment ro.oldEnd) ∧
    (Circulation.Accepts cc (base.withAcceptedRoots (r.acceptedAt q.now)) revoked q new.token ↔
      audience = q.requester ∧ scope.Permits q.selfId q.selfTags q.now q.action ∧
        ro.window.1 ≤ q.now ∧ q.now ≤ RootEntry.lastMoment ro.window.2) ∧
    (ro.window.1.toNat ≤ (RootEntry.lastMoment ro.oldEnd).toNat + 1 →
      audience = q.requester → scope.Permits q.selfId q.selfTags q.now q.action →
      e.notBefore ≤ q.now → q.now ≤ RootEntry.lastMoment ro.window.2 →
      ∃ g ∈ [old, new],
        Circulation.Accepts cc (base.withAcceptedRoots (r.acceptedAt q.now)) revoked q g.token) := by
  subst hold
  have hissued := reissue_issueRoot laws hid hnew
  subst hissued
  have hprincipal : (⟨cc.nodeId oldRoot⟩ : Principal) ≠ ⟨cc.nodeId newRoot⟩ :=
    fun heq => hne (congrArg Principal.nodeId heq)
  obtain ⟨n, hn, hnsound, holdEntry, hnewEntry⟩ := h.entries reads hprincipal hm hsound he
  have haccepts : ∀ (root : cc.Identity) (f : RootEntry) (nonce : UInt64),
      root ∈ [oldRoot, newRoot] → n[Principal.hex ⟨cc.nodeId root⟩]? = some f →
      Reads base (issueRoot cc root audience scope nonce) →
      revoked.isRevoked (cc.nodeId root) nonce = false →
      (Circulation.Accepts cc (base.withAcceptedRoots (r.acceptedAt q.now)) revoked q
          (issueRoot cc root audience scope nonce).token ↔
        audience = q.requester ∧ scope.Permits q.selfId q.selfTags q.now q.action ∧
          f.notBefore ≤ q.now ∧ q.now ≤ RootEntry.lastMoment f.notAfter) := by
    intro root f nonce hroot hf hread hnotrevoked
    have hkey := accepts_of_entry reads hn hnsound hopen hf
      (hbase root hroot) q.now
    have hdepth : 1 ≤ (base.withAcceptedRoots (r.acceptedAt q.now)).maxChainDepth := hread.depth
    have hsize : (issueRoot cc root audience scope nonce).token.utf8ByteSize ≤
        (base.withAcceptedRoots (r.acceptedAt q.now)).maxTokenBytes := hread.size
    rw [Circulation.Accepts, verify_issueRoot laws hdepth hsize, hkey,
      or_iff_right (hself root hroot)]
    constructor
    · rintro ⟨hwindow, htime, -, hresource, haudience, haction⟩
      exact ⟨haudience, ⟨haction, hresource, htime⟩, hwindow⟩
    · rintro ⟨haudience, hpermits, hwindow⟩
      exact ⟨hwindow, hpermits.time, hnotrevoked, hpermits.resource, haudience, hpermits.ability⟩
  have hold := haccepts oldRoot _ nonce (by simp) holdEntry (hreads _ (by simp)) hlive
  have hnew := haccepts newRoot _ nonce' (by simp) hnewEntry (hreads _ (by simp)) hlive'
  refine ⟨hold, hnew, ?_⟩
  intro hmeet haudience hpermits hbegun hlast
  by_cases hended : q.now ≤ RootEntry.lastMoment ro.oldEnd
  · exact ⟨_, List.mem_cons_self, hold.mpr ⟨haudience, hpermits, hbegun, hended⟩⟩
  · have hopened : ro.window.1 ≤ q.now := by
      rw [UInt64.le_iff_toNat_le] at hended ⊢
      omega
    exact ⟨_, List.mem_cons_of_mem _ List.mem_cons_self,
      hnew.mpr ⟨haudience, hpermits, hopened, hlast⟩⟩

/-! ### The rotation of one root -/

variable {now : UInt64} {identity : Except String cc.Identity} {input : Except String String}

theorem cmdRoot_adds (hopen : openRoots parse (.ok dir) disk = .ok ⟨m, some (dir ++ "/roots.json")⟩)
    (hcheck : Roots.check key 0 0 ⟨m, some (dir ++ "/roots.json")⟩ = .ok ()) :
    cmdRoot cc service parse ⟨now, identity, .ok dir, input, .ok ()⟩ (.add key.hex none 0 0) disk =
      (.ok (.added key 0 0), some (rootsJson (m.insert key.hex ⟨key, none, 0, 0⟩)).pretty) := by
  have hwindow : rootWindow now 0 0 = (0, 0) := rfl
  simp only [cmdRoot, rootJob, parsePrincipal, Principal.parse_hex, Except.mapError, bind,
    Except.bind, pure, Except.pure, hwindow, hopen, RootJob.run, Roots.add, hcheck]
  rfl

theorem cmdRoot_retires
    (hopen : openRoots parse (.ok dir) disk = .ok ⟨m, some (dir ++ "/roots.json")⟩) {e : RootEntry}
    (hget : m[key.hex]? = some e) {inSecs time : UInt64} (htime : saturatingAdd now inSecs = time) :
    cmdRoot cc service parse ⟨now, identity, .ok dir, input, .ok ()⟩ (.retire key.hex inSecs) disk =
      (.ok (.retiring key time true),
        some (rootsJson (m.insert key.hex { e with notAfter := time })).pretty) := by
  rw [← htime]
  simp only [cmdRoot, rootJob, parsePrincipal, Principal.parse_hex, Except.mapError, bind,
    Except.bind, pure, Except.pure, hopen, RootJob.run, Roots.retire, hget]
  rfl

def oldKey : Principal := ⟨.filled 1⟩

def newKey : Principal := ⟨.filled 4⟩

/-- The old root alone, both roots, and the old root with its end. -/
def orgRoots : OrdMap String RootEntry :=
  (∅ : OrdMap String RootEntry).insert oldKey.hex ⟨oldKey, none, 0, 0⟩

def bothRoots : OrdMap String RootEntry := orgRoots.insert newKey.hex ⟨newKey, none, 0, 0⟩

def rotatedRoots : OrdMap String RootEntry :=
  bothRoots.insert oldKey.hex ⟨oldKey, none, 0, 2060⟩

theorem orgRoots_size : ∀ m ∈ [orgRoots, bothRoots, rotatedRoots],
    (rootsJson m).pretty.utf8ByteSize ≤ maxStoreBytes := by
  have hsize : ∀ m ∈ [orgRoots, bothRoots, rotatedRoots],
      String.utf8Len (Json.render Json.indented 0 (rootsJson m)) ≤ maxStoreBytes := by
    decide +kernel
  exact fun m hm => (Json.utf8ByteSize_pretty _).trans_le (hsize m hm)

noncomputable def orgEnv (now : UInt64) : CommandEnv symbolic.Identity :=
  ⟨now, .ok (.filled 4), .ok "iam", .ok "", .ok ()⟩

/-- The new root is added at the time 1000, and the old one ends a minute after 2000. -/
noncomputable def orgRotation : Rotation symbolic where
  added := orgEnv 1000
  newText := newKey.hex
  label := none
  validIn := 0
  validFor := 0
  between := []
  retired := orgEnv 2000
  oldText := oldKey.hex
  inSecs := 60
  later := []

noncomputable def orgGrant (root : NodeId) (nonce : UInt64) : Grant :=
  issueRoot symbolic root ⟨.filled 3⟩ ⟨["exec"], .any, Conditions.default.toCaveats⟩ nonce

noncomputable def orgService : Iam :=
  Iam.default.withMaxTokenBytes
    (max (orgGrant (.filled 1) 1).token.utf8ByteSize (orgGrant (.filled 4) 2).token.utf8ByteSize)

theorem orgRotation_added :
    cmdRoot symbolic orgService readRoots (orgEnv 1000) (.add newKey.hex none 0 0)
        (some (rootsJson orgRoots).pretty) =
      (.ok (.added newKey 0 0), some (rootsJson bothRoots).pretty) :=
  cmdRoot_adds (openRoots_of_size readRoots_pretty "iam" (orgRoots_size orgRoots (by simp)))
    (by decide +kernel)

theorem orgRotation_retired :
    cmdRoot symbolic orgService readRoots (orgEnv 2000) (.retire oldKey.hex 60)
        (some (rootsJson bothRoots).pretty) =
      (.ok (.retiring oldKey 2060 true), some (rootsJson rotatedRoots).pretty) := by
  have hget : bothRoots[oldKey.hex]? = some ⟨oldKey, none, 0, 0⟩ := by
    have hne : newKey.hex ≠ oldKey.hex := by decide
    rw [bothRoots, OrdMap.get_insert, if_neg hne, orgRoots, OrdMap.get_insert, if_pos rfl]
  exact cmdRoot_retires
    (openRoots_of_size readRoots_pretty "iam" (orgRoots_size bothRoots (by simp))) hget (by decide)

theorem orgRotation_begun :
    Rotation.run symbolic orgService readRoots orgRotation.beginning
      (some (rootsJson orgRoots).pretty) = some (rootsJson bothRoots).pretty := by
  have hadded : cmdRoot symbolic orgService readRoots orgRotation.added
      (.add orgRotation.newText orgRotation.label orgRotation.validIn orgRotation.validFor)
      (some (rootsJson orgRoots).pretty) = _ := orgRotation_added
  rw [Rotation.run_beginning, hadded]
  rfl

theorem orgRotation_file :
    Rotation.run symbolic orgService readRoots orgRotation.commands
      (some (rootsJson orgRoots).pretty) = some (rootsJson rotatedRoots).pretty := by
  have hretired : cmdRoot symbolic orgService readRoots orgRotation.retired
      (.retire orgRotation.oldText orgRotation.inSecs) (some (rootsJson bothRoots).pretty) = _ :=
    orgRotation_retired
  rw [Rotation.run_commands, orgRotation_begun, hretired]
  rfl

theorem orgRotation_succeeds :
    orgRotation.Succeeds orgService readRoots "iam" oldKey newKey
      (some (rootsJson orgRoots).pretty) where
  dir := by
    intro l hl
    rcases List.mem_pair.mp hl with rfl | rfl <;> rfl
  newText := Principal.parse_hex newKey
  oldText := Principal.parse_hex oldKey
  spares := fun l hl => nomatch hl
  added := ⟨_, congrArg Prod.fst orgRotation_added⟩
  retired := by
    rw [orgRotation_begun]
    exact ⟨2060, congrArg Prod.fst orgRotation_retired⟩

theorem orgGrant_read : ∀ g ∈ [orgGrant (.filled 1) 1, orgGrant (.filled 4) 2],
    Reads orgService g := by
  intro g hg
  have hsize : g.token.utf8ByteSize ≤ orgService.maxTokenBytes := by
    rw [orgService, withMaxTokenBytes]
    rcases List.mem_pair.mp hg with rfl | rfl
    · exact le_max_left _ _
    · exact le_max_right _ _
  have hlength : g.chain.length = 1 := by
    rcases List.mem_pair.mp hg with rfl | rfl <;> rfl
  exact ⟨hsize, by rw [hlength]; decide⟩

theorem orgGrant_reissued :
    (cmdRoot symbolic orgService readRoots (orgEnv 1500)
      (.reissue (orgGrant (.filled 1) 1).token 2) none).1 =
        .ok (.reissued (orgGrant (.filled 4) 2)) := by
  have hread := orgGrant_read (orgGrant (.filled 1) 1) List.mem_cons_self
  have hdecode : orgService.decode symbolic (orgGrant (.filled 1) 1).token =
      .ok (orgGrant (.filled 1) 1) :=
    Outcome.bind_eq_ok.mpr ⟨⟨_, (orgGrant (.filled 1) 1).nonempty⟩,
      guardedDecode_eq_ok.mpr ⟨hread.size, symbolic_verifierLaws.decode_encode _, hread.depth⟩, rfl⟩
  have hreissue : reissueUnder symbolic (NodeId.filled 4) (orgGrant (.filled 1) 1) 2 =
      .ok (orgGrant (.filled 4) 2) := reissueUnder_eq_ok.mpr ⟨_, rfl, rfl, rfl⟩
  have hjob : rootJob symbolic orgService (orgEnv 1500)
      (.reissue (orgGrant (.filled 1) 1).token 2) = .ok (.inr (orgGrant (.filled 4) 2)) :=
    Outcome.bind_eq_ok.mpr ⟨_, rfl, Outcome.bind_eq_ok.mpr ⟨_, Outcome.mapError_eq_ok.mpr hdecode,
      Outcome.bind_eq_ok.mpr ⟨_, Outcome.mapError_eq_ok.mpr hreissue, rfl⟩⟩⟩
  rw [cmdRoot, hjob]

/-- A minute after the retirement the holder has a token that is accepted. -/
theorem rotation_without_outage_org :
    ∃ r, openRoots readRoots (.ok "iam") (some (rootsJson rotatedRoots).pretty) = .ok r ∧
      ∃ g ∈ [orgGrant (.filled 1) 1, orgGrant (.filled 4) 2],
        Circulation.Accepts symbolic (orgService.withAcceptedRoots (r.acceptedAt 2060)) .empty
          ⟨.filled 9, [], 2060, ⟨.filled 3⟩, "exec"⟩ g.token := by
  have hopen := openRoots_of_size readRoots_pretty "iam" (orgRoots_size rotatedRoots (by simp))
  have hsound : RootsSound orgRoots := by
    refine ⟨by decide +kernel, fun k e he => ?_⟩
    rw [orgRoots, OrdMap.get_insert] at he
    split at he
    · next hk =>
        cases he
        exact hk.symm
    · cases he
  have hbase : ∀ root ∈ [NodeId.filled 1, NodeId.filled 4], root ∉ orgService.acceptedRoots :=
    fun root _ hmem => nomatch hmem
  have hself : ∀ root ∈ [NodeId.filled 1, NodeId.filled 4], root ≠ NodeId.filled 9 := by decide
  have hpermits : Scope.Permits (.filled 9) [] 2060 "exec"
      ⟨["exec"], .any, Conditions.default.toCaveats⟩ :=
    ⟨List.mem_cons_self, trivial, by decide, .inl rfl⟩
  have hentry : orgRoots[oldKey.hex]? = some ⟨oldKey, none, 0, 0⟩ := by
    rw [orgRoots, OrdMap.get_insert, if_pos rfl]
  have hfile : openRoots readRoots (.ok "iam") (Rotation.run symbolic orgService readRoots
      orgRotation.commands (some (rootsJson orgRoots).pretty)) =
        .ok ⟨rotatedRoots, some ("iam" ++ "/roots.json")⟩ := by
    rw [orgRotation_file]
    exact hopen
  have hlive : ∀ (issuer : NodeId) (nonce : UInt64),
      RevocationSet.empty.isRevoked issuer nonce = false := fun _ _ => rfl
  have hrotation := rotation_without_outage symbolic_verifierLaws readRoots_pretty
    orgRotation_succeeds (by decide) (.inr rfl) hsound hentry hfile rfl rfl orgGrant_reissued hbase
    orgGrant_read (hlive _ _) (hlive _ _) ⟨.filled 9, [], 2060, ⟨.filled 3⟩, "exec"⟩ hself
  exact ⟨_, hopen, hrotation.2.2 (by decide) rfl hpermits (by decide) (by decide)⟩

end Cli

end CeIam
