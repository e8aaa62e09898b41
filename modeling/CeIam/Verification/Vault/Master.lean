import CeIam.Verification.Vault.Rotation

/-! # One master for all devices

Every way to enroll hands on the master of the owner, except that a recovery derives it
from the key of whoever calls. While only the owner recovers, all records stay under one
master. -/

namespace CeIam.Vault

open StoreProg

variable {cs : CeSecrets} {s t : OrdMap String Json}
  {devices : Set (DeviceKey cs.toKeyPairs)} {ns : String}

/-- A recovery is called by the recorded owner, if there is one. -/
def OwnerRecovers (s : OrdMap String Json) (c : Call cs) : Prop :=
  ∀ label r, c.op = .recover label → s["meta"]? = some r →
    strField r "owner" = some c.device.id

/-- Either nobody owns the vault, or all records are under the owner's master. -/
def Claimed (devices : Set (DeviceKey cs.toKeyPairs)) (ns : String) (s : OrdMap String Json) :
    Prop :=
  Every (Unclaimed devices) s ∨ ∃ owner master, Owned devices ns owner master s

theorem Claimed.call (laws : cs.VaultLaws) (hids : Set.InjOn DeviceKey.id devices) {c : Call cs}
    (hs : Claimed devices ns s) (hcall : called devices ns s c t) (hrecover : OwnerRecovers s c) :
    Claimed devices ns t := by
  rcases called_cases hcall with ⟨_, -, rfl⟩ | ⟨reply, -, heffect⟩
  · exact hs
  rcases hs with hs | ⟨owner, master, hs⟩
  · rcases heffect.unclaimed laws hcall.1 hs with ht | ⟨-, master, ht⟩
    · exact .inl ht
    · exact .inr ⟨_, master, ht⟩
  · refine .inr ⟨owner, master, heffect.owned laws hids hcall.1 ?_ hs⟩
    intro label hop
    obtain ⟨r, hr⟩ := Option.ne_none_iff_exists'.mp hs.settled
    have howner : strField r "owner" = some owner.id := hs.under _ _ hr
    have hcaller := hrecover label r hop hr
    exact hids hcall.1 hs.member (Option.some.inj (hcaller.symm.trans howner))

/-- A secret sealed under the master opens. -/
theorem openSecret_of_under (laws : cs.VaultLaws) {owner : DeviceKey cs.toKeyPairs}
    {master : Bytes} {name : String} {record : Json}
    (h : Under devices owner master (.secret name) record) :
    ∃ secret, openSecret cs master record = .ok secret := by
  obtain ⟨box, bytes, seed, hfield, hsealed⟩ := h
  simp only [openSecret, Outcome.bind_eq_ok, Outcome.require_eq_ok, context_eq_ok]
  exact ⟨_, _, hfield, box, laws.read_sealed box, bytes, laws.decrypt_seal hsealed, rfl⟩

/-- As long as only the owner recovers, all enrollment records open to the same master of 32
bytes, and it opens every secret. -/
theorem one_master (laws : cs.VaultLaws) (hids : Set.InjOn DeviceKey.id devices)
    {calls : List (Call cs)}
    (hrun : Run (fun s c t => called devices ns s c t ∧ OwnerRecovers s c) ∅ calls s) :
    ∃ master : Bytes, master.length = 32 ∧
      (∀ id record, s[deviceKey id]? = some record →
        ∃ device ∈ devices, device.id = id ∧ openMaster device record = .ok master) ∧
      ∀ name record, s[secretKey name]? = some record →
        ∃ secret, openSecret cs master record = .ok secret := by
  have hclaimed : Claimed devices ns s :=
    hrun.invariant (fun s c t hs hstep => hs.call laws hids hstep.1 hstep.2) (.inl every_empty)
  rcases hclaimed with hs | ⟨owner, master, hs⟩
  · refine ⟨List.replicate 32 0, rfl, ?_, ?_⟩
    · exact fun id record hrecord => (hs (.device id) record hrecord).elim
    · exact fun name record hrecord => (hs (.secret name) record hrecord).elim
  · refine ⟨master, laws.derive_length hs.derived, ?_, ?_⟩
    · exact fun id record hrecord => hs.under (.device id) record hrecord
    · exact fun name record hrecord => openSecret_of_under laws (hs.under (.secret name) _ hrecord)

/-- A writer stores a secret under a name that has none. -/
theorem writer_puts {i : Bool} {master : Bytes} (h : (writer i).Holds s master)
    (hnone : look s (.secret "db") = none) : ∃ info record, called {laptop, phone} "home" s
      ⟨(writer i).device, noon, .putSecret "db" (draft i) "opaque", .ok (.secret info)⟩
      (place s (.secret "db") record) := by
  obtain ⟨f, hput, hf⟩ := symbolic_putSecret h "db" (draft i) "opaque"
  obtain ⟨info, record, hrevision, -⟩ := symbolic_revision (writer i) "db" (draft i) "opaque"
    (master, draft i) none (by decide)
  have hwriter : (writer i).device ∈ ({laptop, phone} : Set _) := by cases i <;> simp [writer]
  have hns : (⟨(writer i).device, "home"⟩ : Vault .symbolic) = writer i := by cases i <;> rfl
  refine ⟨info, record, hwriter, (run_map_ok memStore).mpr ⟨info, ?_, rfl⟩⟩
  rw [hns, hput, StoreProg.run, memStore_get]
  change (f (look s (.device (writer i).device.id))).run memStore s = _
  rw [hf, StoreProg.run]
  change (publish "db" ((writer i).revision noon "db" (draft i) "opaque" (master, draft i)
    (look s (.secret "db")))).run memStore s = _
  rw [hnone, hrevision]
  rfl

theorem one_master_writers : ∃ (token : String) (info : SecretMeta) (s : OrdMap String Json),
    Run (fun s c t => called {laptop, phone} "home" s c t ∧ OwnerRecovers s c) ∅
      [⟨laptop, noon, .recover "", .ok .unit⟩,
        ⟨laptop, noon, .issueEnrolToken "ci" 600, .ok (.text token)⟩,
        ⟨phone, noon, .redeemEnrolToken token "", .ok .unit⟩,
        ⟨phone, noon, .putSecret "db" (draft false) "opaque", .ok (.secret info)⟩] s ∧
    ∃ master : Bytes, master.length = 32 ∧
      (∀ i, ∃ record, s[deviceKey (writer i).device.id]? = some record ∧
        openMaster (writer i).device record = .ok master) ∧
      ∃ record secret, s[secretKey "db"]? = some record ∧
        openSecret .symbolic master record = .ok secret := by
  obtain ⟨s, t, u, token, hrecover, hissue, hredeem, hholds, hnone⟩ := writers_enrolled
  obtain ⟨info, record, hput⟩ := writer_puts (hholds false) hnone
  have hfirst : OwnerRecovers ∅ (⟨laptop, noon, .recover "", .ok .unit⟩ : Call .symbolic) := by
    intro label r _ hr
    rw [OrdMap.get_empty] at hr
    cases hr
  have hother {s : OrdMap String Json} {c : Call .symbolic}
      (h : ∀ label, c.op ≠ .recover label) : OwnerRecovers s c :=
    fun label _ hop => absurd hop (h label)
  have hrun : Run (fun s c t => called {laptop, phone} "home" s c t ∧ OwnerRecovers s c) ∅ _
      (place u (.secret "db") record) :=
    (((Run.single ⟨hrecover, hfirst⟩).snoc ⟨hissue, hother (by simp)⟩).snoc
      ⟨hredeem, hother (by simp)⟩).snoc ⟨hput, hother (by simp)⟩
  obtain ⟨master, hlength, hdevices, hsecrets⟩ :=
    one_master CeSecrets.symbolic_vaultLaws injOn_laptop_phone hrun
  refine ⟨token, info, _, hrun, master, hlength, fun i => ?_, record, ?_⟩
  · obtain ⟨r, hr, -⟩ := hholds i
    have henrolled : look (place u (.secret "db") record) (.device (writer i).device.id) =
        some r := by
      simpa using hr
    obtain ⟨device, hdevice, hid, hmaster⟩ := hdevices _ r henrolled
    have hwriter : (writer i).device ∈ ({laptop, phone} : Set _) := by cases i <;> simp [writer]
    cases injOn_laptop_phone hdevice hwriter hid
    exact ⟨r, henrolled, hmaster⟩
  · have hstored : look (place u (.secret "db") record) (.secret "db") = some record := by simp
    obtain ⟨secret, hopen⟩ := hsecrets "db" record hstored
    exact ⟨secret, hstored, hopen⟩

/-! ## A device that is not the owner recovers -/

/-- The recovery of a device that is not the owner splits the vault. -/
theorem master_splits :
    ¬ ∀ calls s, Run (called {laptop, phone} "home") ∅ calls s →
      (∀ c ∈ calls, ∃ reply, c.result = .ok reply) →
      ∃ master : Bytes, ∀ id record, s[deviceKey id]? = some record →
        ∃ device ∈ ({laptop, phone} : Set (DeviceKey CeSecrets.symbolic.toKeyPairs)),
          device.id = id ∧ openMaster device record = .ok master := by
  intro hclaim
  obtain ⟨first, s, hfirst, hlaptop, -, -, hcall⟩ :=
    laptop_recovers (Set.mem_insert laptop {phone})
  obtain ⟨second, hsecond, -, hrun⟩ := symbolic_recovers ⟨phone, "home"⟩ noon "" s
  have hphone : called {laptop, phone} "home" s ⟨phone, noon, .recover "", .ok .unit⟩ _ :=
    ⟨.inr rfl, hrun⟩
  have hsuccess : ∀ c ∈ [(⟨laptop, noon, .recover "", .ok .unit⟩ : Call .symbolic)] ++
      [⟨phone, noon, .recover "", .ok .unit⟩], ∃ reply, c.result = .ok reply := by simp
  obtain ⟨master, hall⟩ := hclaim _ _ ((Run.single hcall).snoc hphone) hsuccess
  have opened : ∀ device ∈ ({laptop, phone} : Set _), ∀ record,
      look (place (place s (.device phone.id) second) .vault (metaRecord ⟨phone, "home"⟩ noon))
        (.device device.id) = some record → openMaster device record = .ok master := by
    intro device hdevice record hrecord
    obtain ⟨d, hd, hid, hopen⟩ := hall device.id record hrecord
    cases injOn_laptop_phone hd hdevice hid
    exact hopen
  have hne : phone.id ≠ laptop.id := by decide
  have hleft := opened laptop (.inl rfl) first (by simp [hne, hlaptop])
  have hright := opened phone (.inr rfl) second (by simp)
  have hsame : laptop.ecdhPriv.1 = phone.ecdhPriv.1 := by
    rw [← Except.ok.injEq (ε := String), ← hfirst, hleft, ← hright]
    exact hsecond
  exact absurd hsame (by decide)

end CeIam.Vault
