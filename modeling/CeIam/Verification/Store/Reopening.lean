import CeIam.Model.Wallet
import CeIam.Verification.Grant.Correctness
import CeIam.Verification.Catalog.Compaction

/-! # What was written can be read back

The writers bound single entries and their number, the reader bounds the file. A store
that was written successfully reopens unchanged exactly when its text is within the
reader's bound. -/

namespace CeIam

/-- A file that holds a value, or no file for the default value. -/
def Keeps {α : Type} (default : α) (toJson : α → Json) (a : α) (disk : Disk) : Prop :=
  (disk = none ∧ a = default) ∨ disk = some (toJson a).pretty

/-- A kept value is loaded exactly when its text is within the bound. -/
theorem load_keeps_iff {α : Type} {default a : α} {toJson : α → Json}
    {parse : String → Except String α} (reads : ∀ b, parse (toJson b).pretty = .ok b)
    (hdefault : (toJson default).pretty.utf8ByteSize ≤ maxStoreBytes) (path : String)
    {disk : Disk} (h : Keeps default toJson a disk) :
    loadJsonOrDefault default parse path disk = .ok a ↔
      (toJson a).pretty.utf8ByteSize ≤ maxStoreBytes := by
  rcases h with ⟨rfl, rfl⟩ | rfl
  · exact ⟨fun _ => hdefault, fun _ => rfl⟩
  · simp only [loadJsonOrDefault, reads, gt_iff_lt]
    split
    · next hlarge =>
        constructor
        · intro h
          cases h
        · exact fun hfits => absurd hfits (not_le.mpr hlarge)
    · next hfits => exact ⟨fun _ => not_lt.mp hfits, fun _ => rfl⟩

/-- What is loaded from a kept value is that value. -/
theorem eq_of_load_keeps {α : Type} {default a b : α} {toJson : α → Json}
    {parse : String → Except String α} (reads : ∀ b, parse (toJson b).pretty = .ok b)
    {path : String} {disk : Disk} (h : Keeps default toJson a disk)
    (hload : loadJsonOrDefault default parse path disk = .ok b) : b = a := by
  rcases h with ⟨rfl, rfl⟩ | rfl
  · exact (Except.ok.inj hload).symm
  · simp only [loadJsonOrDefault, reads] at hload
    split at hload
    · cases hload
    · exact (Except.ok.inj hload).symm

/-! ## The wallet -/

namespace WalletStore

/-- A wallet with the file it is kept in. -/
abbrev Kept := WalletStore × Disk

/-- A mutating call, with what becomes of the write it makes. -/
inductive Call where
  | add (iam : Iam) (label token : String) (note : Option String) (now : UInt64)
      (outcome : Except String Unit)
  | remove (label : String) (outcome : Except String Unit)

/-- One call that returns `Ok`. -/
def succeeds (cc : CeCap) (s : Kept) : Call → Kept → Prop
  | .add iam label token note now outcome, t =>
      s.1.add cc iam label token note now outcome s.2 = (.ok (), t)
  | .remove label outcome, t => ∃ removed, s.1.remove label outcome s.2 = (.ok removed, t)

theorem check_eq_ok {cc : CeCap} {w : WalletStore} {iam : Iam} {label token : String} :
    w.check cc iam label token = .ok () ↔
      Text.trim label ≠ "" ∧ label.utf8ByteSize ≤ maxLabelLen ∧
        token.utf8ByteSize ≤ maxTokenBytes ∧ w.entries[label]? = none ∧
        w.entries.size < maxWalletEntries ∧ ∃ c, iam.decode cc token = .ok c := by
  simp only [check, Outcome.bind_eq_ok, Outcome.ensure_eq_ok]
  constructor
  · rintro ⟨_, hlabel, _, hlong, _, htoken, _, hfresh, _, hroom, c, hdecode, -⟩
    exact ⟨hlabel, hlong, htoken, hfresh, hroom, c, hdecode⟩
  · rintro ⟨hlabel, hlong, htoken, hfresh, hroom, c, hdecode⟩
    exact ⟨(), hlabel, (), hlong, (), htoken, (), hfresh, (), hroom, c, hdecode, rfl⟩

/-- The wallet has a file, which holds its entries. -/
structure KeptAt (path : String) (s : Kept) : Prop where
  path : s.1.path = some path
  keeps : Keeps ∅ entriesJson s.1.entries s.2

/-- A save that succeeds puts the entries into the file. -/
theorem keptAt_save {w : WalletStore} {path : String} (hpath : w.path = some path)
    {outcome : Except String Unit} {disk : Disk} (h : (w.save outcome disk).1 = .ok ()) :
    KeptAt path (w, (w.save outcome disk).2) := by
  refine ⟨hpath, .inr ?_⟩
  rw [save, hpath] at h ⊢
  cases outcome with
  | ok u => rfl
  | error e => cases h

theorem KeptAt.call {cc : CeCap} {path : String} {s t : Kept} {c : Call} (h : KeptAt path s)
    (hstep : succeeds cc s c t) : KeptAt path t := by
  obtain ⟨w, disk⟩ := s
  obtain ⟨w', disk'⟩ := t
  cases c with
  | add iam label token note now outcome =>
      simp only [succeeds, add] at hstep
      cases hcheck : w.check cc iam label token with
      | error e => simp [hcheck] at hstep
      | ok u =>
          simp only [hcheck, Prod.mk.injEq] at hstep
          obtain ⟨hsave, rfl, rfl⟩ := hstep
          exact keptAt_save (by exact h.path) hsave
  | remove label outcome =>
      obtain ⟨removed, hstep⟩ := hstep
      simp only [remove] at hstep
      split at hstep
      · simp only [Prod.mk.injEq] at hstep
        obtain ⟨hsave, rfl, rfl⟩ := hstep
        refine keptAt_save (by exact h.path) ?_
        cases hresult : (({ w with entries := w.entries.erase label } : WalletStore).save
            outcome disk).1 with
        | ok u => rfl
        | error e =>
            rw [hresult] at hsave
            cases hsave
      · next habsent =>
          simp only [Prod.mk.injEq] at hstep
          obtain ⟨-, rfl, rfl⟩ := hstep
          have hnone : w.entries[label]? = none := by simpa [get] using habsent
          refine ⟨h.path, ?_⟩
          simpa only [OrdMap.erase_eq_self hnone] using h.keeps

theorem openWallet_missing {parse : String → Except String (OrdMap String WalletEntry)}
    {path : String} {w : WalletStore} (h : openWallet parse path none = .ok w) :
    w = ⟨∅, some path⟩ :=
  (Except.ok.inj h).symm

theorem openWallet_iff {parse : String → Except String (OrdMap String WalletEntry)}
    {path : String} {disk : Disk} {w : WalletStore} (hpath : w.path = some path) :
    openWallet parse path disk = .ok w ↔
      loadJsonOrDefault ∅ parse path disk = .ok w.entries := by
  rw [openWallet, Outcome.bind_eq_ok]
  constructor
  · rintro ⟨entries, hload, hw⟩
    cases hw
    exact hload
  · intro hload
    refine ⟨w.entries, hload, ?_⟩
    rw [← hpath]
    rfl

/-- After successful calls the wallet reopens unchanged exactly when its text fits. -/
theorem reopen_iff {cc : CeCap} {parse : String → Except String (OrdMap String WalletEntry)}
    (reads : ∀ entries, parse (entriesJson entries).pretty = .ok entries) {path : String}
    {w : WalletStore} (hopen : openWallet parse path none = .ok w) {calls : List Call} {s : Kept}
    (hrun : Run (succeeds cc) (w, none) calls s) :
    openWallet parse path s.2 = .ok s.1 ↔
      (entriesJson s.1.entries).pretty.utf8ByteSize ≤ maxStoreBytes := by
  rw [openWallet_missing hopen] at hrun
  have h : KeptAt path s :=
    hrun.invariant (fun _ _ _ => KeptAt.call) ⟨rfl, .inl ⟨rfl, rfl⟩⟩
  rw [openWallet_iff h.path]
  exact load_keeps_iff reads (by decide) path h.keeps

end WalletStore

/-! ## The catalog -/

namespace CatalogStore

theorem called_of_succeeds {s t : Stored} {c : Call} (h : succeeds s c t) : called s c t :=
  congrArg Prod.snd h

theorem run_called {s t : Stored} {calls : List Call} (h : Run succeeds s calls t) :
    Run called s calls t := by
  induction h with
  | nil => exact .nil _
  | snoc _ hstep ih => exact .snoc ih (called_of_succeeds hstep)

theorem path_call {s t : Stored} {c : Call} (h : called s c t) : t.1.path = s.1.path := by
  subst h
  rcases call_cases s c with ⟨e, he⟩ | ⟨op, actor, -, -, -, hok⟩ | ⟨-, hok⟩
  · rw [he]
  · rw [hok]
    rfl
  · rw [hok]
    rfl

/-- After successful calls the catalog reopens unchanged exactly when its log's text fits. -/
theorem reopen_iff {parse : String → Except String CatalogLog}
    (reads : ∀ log : CatalogLog, parse log.toJson.pretty = .ok log) {path : String}
    {store : CatalogStore} (hopen : openStore parse path none = .ok store) {calls : List Call}
    {s : Stored} (hrun : Run succeeds (store, none) calls s) :
    openStore parse path s.2 = .ok s.1 ↔ s.1.log.toJson.pretty.utf8ByteSize ≤ maxStoreBytes := by
  have h := reached_of_run hopen (run_called hrun)
  have hpath : s.1.path = path := by
    have hsame := (run_called hrun).invariant (I := fun t => t.1.path = store.path)
      (fun _ _ _ ht hstep => (path_call hstep).trans ht) rfl
    rw [hsame, openStore_missing hopen]
  rw [← load_keeps_iff reads (by decide) path h.coherent.stored]
  constructor
  · intro hok
    obtain ⟨log, hload, hrest⟩ := Outcome.bind_eq_ok.mp hok
    obtain ⟨-, -, hstore⟩ := Outcome.bind_eq_ok.mp hrest
    have hlog : log = s.1.log := by
      have heq := Except.ok.inj hstore
      exact congrArg CatalogStore.log heq
    rw [hload, hlog]
  · intro hload
    rw [openStore_of_load hload h.bounded]
    obtain ⟨⟨p, log, catalog⟩, disk⟩ := s
    simp only at hpath
    subst hpath
    have hlive := h.coherent.live
    simp only at hlive
    rw [hlive]

end CatalogStore

/-! ## Both stores -/

/-- A wallet and a catalog that were changed by successful calls only reopen unchanged
exactly when their text is within the bound of the reader. -/
theorem stores_reopen_iff {c : CeCap}
    {readEntries : String → Except String (OrdMap String WalletEntry)}
    {readLog : String → Except String CatalogLog}
    (hentries : ∀ entries, readEntries (WalletStore.entriesJson entries).pretty = .ok entries)
    (hlog : ∀ log : CatalogLog, readLog log.toJson.pretty = .ok log) (path : String) :
    (∀ wallet calls s, WalletStore.openWallet readEntries path none = .ok wallet →
      Run (WalletStore.succeeds c) (wallet, none) calls s →
        (WalletStore.openWallet readEntries path s.2 = .ok s.1 ↔
          (WalletStore.entriesJson s.1.entries).pretty.utf8ByteSize ≤ maxStoreBytes)) ∧
      ∀ store calls s, CatalogStore.openStore readLog path none = .ok store →
        Run CatalogStore.succeeds (store, none) calls s →
          (CatalogStore.openStore readLog path s.2 = .ok s.1 ↔
            s.1.log.toJson.pretty.utf8ByteSize ≤ maxStoreBytes) :=
  ⟨fun _ _ _ hopen hrun => WalletStore.reopen_iff hentries hopen hrun,
    fun _ _ _ hopen hrun => CatalogStore.reopen_iff hlog hopen hrun⟩

/-! ## A description that is too long -/

theorem WalletEntry.toJson_injective : Function.Injective WalletEntry.toJson := by
  intro a b h
  have field : ∀ k, a.toJson.field k = b.toJson.field k := fun k => by rw [h]
  simp only [toJson, Json.field_obj, List.lookup_append, lookup_optionalField,
    Json.lookup_cons] at field
  have h1 : a.label = b.label := by simpa using field "label"
  have h2 : a.token = b.token := by simpa using field "token"
  have h3 : a.addedAt = b.addedAt := by simpa [UInt64.toNat_inj] using field "added_at"
  have h4 := Option.map_injective (fun _ _ => Json.str.inj) (by simpa using field "note")
  cases a
  cases b
  simp_all

theorem WalletStore.entriesJson_injective : Function.Injective WalletStore.entriesJson := by
  intro m n h
  simp only [entriesJson, Json.obj.injEq, List.cons.injEq, Prod.mk.injEq, true_and, and_true] at h
  exact OrdMap.map_toList_injective WalletEntry.toJson_injective h

/-- Reads back exactly the entries that were printed. -/
noncomputable def readEntries : String → Except String (OrdMap String WalletEntry) :=
  Outcome.readBack fun entries => (WalletStore.entriesJson entries).pretty

theorem readEntries_pretty (entries : OrdMap String WalletEntry) :
    readEntries (WalletStore.entriesJson entries).pretty = .ok entries :=
  Outcome.readBack_print
    (f := fun entries : OrdMap String WalletEntry => (WalletStore.entriesJson entries).pretty)
    (fun _ _ h => WalletStore.entriesJson_injective (Json.pretty_injective h)) entries

/-- The owner's grant in a wallet. -/
noncomputable def ownerEntry (label : String) : WalletEntry :=
  ⟨label, Iam.ownerGrant.token, 1000, none⟩

theorem check_ownerGrant {w : WalletStore} {label : String} (hlabel : Text.trim label ≠ "")
    (hlong : label.utf8ByteSize ≤ maxLabelLen) (hfresh : w.entries[label]? = none)
    (hroom : w.entries.size < maxWalletEntries) :
    w.check Iam.symbolic .default label Iam.ownerGrant.token = .ok () := by
  have htoken : Iam.ownerGrant.token.utf8ByteSize ≤ maxTokenBytes := by
    refine (Json.utf8ByteSize_compact _).trans_le ?_
    decide +kernel
  exact WalletStore.check_eq_ok.mpr
    ⟨hlabel, hlong, htoken, hfresh, hroom, _, Iam.ownerGrant_decoded⟩

noncomputable def ownerHeld (label : String) : OrdMap String WalletEntry :=
  (∅ : OrdMap String WalletEntry).insert label (ownerEntry label)

theorem ownerHeld_size :
    (WalletStore.entriesJson (ownerHeld "disk")).pretty.utf8ByteSize ≤ maxStoreBytes := by
  have htoken : WalletStore.entriesJson (ownerHeld "disk") = .obj [("entries", .obj [("disk",
      .obj [("label", .str "disk"), ("token", .str (Iam.symbolicToken Iam.ownerGrant.chain)),
        ("added_at", .int 1000)])])] := rfl
  rw [htoken, Json.utf8ByteSize_pretty]
  simp only [Iam.symbolicToken, Json.compact, Json.render, Json.renderFields, Json.quote_ofList]
  decide +kernel

theorem add_ownerGrant (w : WalletStore) (label : String) {path : String}
    (hpath : w.path = some path)
    (hcheck : w.check Iam.symbolic .default label Iam.ownerGrant.token = .ok ()) (disk : Disk) :
    WalletStore.succeeds Iam.symbolic (w, disk)
      (.add .default label Iam.ownerGrant.token none 1000 (.ok ()))
      ({ w with entries := w.entries.insert label (ownerEntry label) },
        some (WalletStore.entriesJson (w.entries.insert label (ownerEntry label))).pretty) := by
  simp only [WalletStore.succeeds, WalletStore.add, hcheck, WalletStore.save, hpath]
  rfl

/-- The owner's grant is put into a new wallet under two labels and taken out under one of them, and
one role is put into a new catalog. -/
theorem stores_reopen_iff_small :
    ∃ (wallet : WalletStore.Kept) (catalog : CatalogStore.Stored),
      Run (WalletStore.succeeds Iam.symbolic) (⟨∅, some "store"⟩, none)
        [.add .default "gpu" Iam.ownerGrant.token none 1000 (.ok ()),
          .add .default "disk" Iam.ownerGrant.token none 1000 (.ok ()), .remove "gpu" (.ok ())]
        wallet ∧
      Run CatalogStore.succeeds (⟨"store", .new, .new⟩, none)
        [.apply (.putRole ⟨"ops", none, .allow ["run:deploy"] .any .default⟩) none (.ok ())]
        catalog ∧
      wallet.1.entries = ownerHeld "disk" ∧
      WalletStore.openWallet readEntries "store" wallet.2 = .ok wallet.1 ∧
      CatalogStore.openStore CatalogStore.readLog "store" catalog.2 = .ok catalog.1 := by
  have hboth := stores_reopen_iff (c := Iam.symbolic) readEntries_pretty
    CatalogStore.readLog_pretty "store"
  have hgpu := add_ownerGrant ⟨∅, some "store"⟩ "gpu" rfl
    (check_ownerGrant (by decide) (by decide) rfl (by decide)) none
  have hdisk := add_ownerGrant ⟨ownerHeld "gpu", some "store"⟩ "disk" rfl
    (check_ownerGrant (by decide) (by decide) rfl (by decide))
    (some (WalletStore.entriesJson (ownerHeld "gpu")).pretty)
  have hwallet := ((Run.single hgpu).snoc hdisk).snoc
    (show WalletStore.succeeds Iam.symbolic _ (.remove "gpu" (.ok ())) _ from ⟨true, rfl⟩)
  have hkept : ((ownerHeld "gpu").insert "disk" (ownerEntry "disk")).erase "gpu" =
      ownerHeld "disk" := by
    refine OrdMap.ext fun k => ?_
    simp only [ownerHeld, OrdMap.get_erase, OrdMap.get_insert]
    split
    · next h => simp [← h]
    · rfl
  rw [hkept] at hwallet
  have hput : CatalogStore.succeeds (⟨"store", .new, .new⟩, none)
      (.apply (.putRole ⟨"ops", none, .allow ["run:deploy"] .any .default⟩) none (.ok ())) _ := rfl
  refine ⟨_, _, hwallet, .single hput, rfl, ?_, ?_⟩
  · exact (hboth.1 _ _ _ rfl hwallet).mpr ownerHeld_size
  · refine (hboth.2 _ _ _ rfl (.single hput)).mpr ?_
    rw [Json.utf8ByteSize_pretty]
    decide +kernel

/-- The catalog accepts the verbose role and cannot be opened afterwards. -/
theorem verbose_catalog_not_reopened :
    ¬ ∀ calls s, Run CatalogStore.succeeds (⟨"catalog.json", .new, .new⟩, none) calls s →
      CatalogStore.openStore CatalogStore.readLog "catalog.json" s.2 = .ok s.1 := by
  intro hclaim
  have hvalid : Catalog.new.ValidRun [.putRole CatalogStore.verboseRole] :=
    ⟨show Text.trim CatalogStore.verboseRole.name ≠ "" by decide, trivial⟩
  obtain ⟨s, hrun, hentries⟩ :=
    CatalogStore.run_valid (s := (⟨"catalog.json", .new, .new⟩, none)) hvalid (by decide)
  have hfits := (CatalogStore.reopen_iff CatalogStore.readLog_pretty rfl hrun).mp (hclaim _ s hrun)
  have hlogged : (CatalogOp.putRole CatalogStore.verboseRole, none) ∈ s.1.log.entries := by
    rw [hentries]
    simp
  have hlong := CatalogStore.description_le_log hlogged rfl
  rw [String.toList_ofList, List.length_replicate] at hlong
  omega

end CeIam
