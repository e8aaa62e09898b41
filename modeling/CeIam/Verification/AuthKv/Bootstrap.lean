import CeIam.Verification.AuthKv.Integrity
import CeIam.Verification.Vault.Records

/-! # The pairing bootstrap

A device that is not enrolled has no chain yet, and asks to pair by a record that is not
sensitive. The server asks for a chain to write any record once it enforces writes, so the
request is published exactly when it does not. -/

namespace CeIam

def KvOp.failure : KvOp → String
  | .put _ _ => "put failed: "
  | .del _ => "del failed: "

namespace AuthKv

/-- The request is answered, and the state left, as the replicated log takes the operation. -/
def Performs (cc : CeCap) (kv : AuthKv) (decode : ByteArray → Except String KvReq)
    (d : Delivery) (op : KvOp) (s : KvState) : Prop :=
  kv.serve cc decode d s =
    (enc (propose d.env op op.failure s).1, (propose d.env op op.failure s).2)

/-- The delivery asks for an operation on a record that is not sensitive, without a chain. -/
structure PublicBare (decode : ByteArray → Except String KvReq) (d : Delivery) (op : KvOp) :
    Prop where
  asked : ∃ req, decode d.payload = .ok req ∧ req.op = some op ∧ req.caps = ""
  isPublic : isSensitiveKey op.key = false

/-- The device learns the code of its pairing request, and the request is in the map. -/
def Publishes (cc : CeCap) (kv : AuthKv) (env : Ambient)
    (decode : ByteArray → Except String KvReq) (parse : ByteArray → Except String Json)
    (sender : String) {cs : CeSecrets} (v : Vault cs) (moment : Moment cs) (label : String)
    (s : KvState) : Prop :=
  ∃ code t, (v.requestPairing moment label).runOn
      (MeshKvStore.backend parse (kv.deliver cc env decode sender) ⟨none⟩) s = (.ok code, t) ∧
    t.m[Vault.pairKey code]? = some (v.pairRecord moment code label)

variable {cc : CeCap} {kv : AuthKv} {decode : ByteArray → Except String KvReq}
  {parse : ByteArray → Except String Json} {env : Ambient} {sender : String} {d : Delivery}
  {op : KvOp} {s : KvState} {printed : FloatText → Prop}

/-! ## The gate -/

/-- Without a chain, a remote peer passes the write gate exactly while it is not enforced. -/
theorem writeAllowed_bare_iff (hempty : ∀ chain, cc.decodeChain "" ≠ .ok chain)
    (hremote : sender ≠ kv.selfIdHex) :
    kv.writeAllowed cc env sender "" = .ok () ↔ kv.enforceWrite = false := by
  cases henforce : kv.enforceWrite with
  | false => simp [writeAllowed, gate, henforce]
  | true =>
      obtain ⟨reason, hreason⟩ : ∃ reason, kv.writeAllowed cc env sender "" = .error reason :=
        writeAllowed_error henforce hremote fun requester _ => Iam.verify_empty hempty
      simp [hreason]

/-- A denied request is not answered as the log would. -/
theorem propose_reply_ne (op : KvOp) {denial : String} (reason : String)
    (hdenial : denial = "kv write denied: " ∨ denial = "kv delete denied: ") :
    errorReply (denial ++ reason) ≠ (propose env op op.failure s).1 := by
  rw [propose]
  cases env.propose op with
  | applied => simp [errorReply]
  | failed e reached =>
      intro h
      have htext : denial ++ reason = op.failure ++ e := by simpa [errorReply] using h
      have hhead := congrArg (fun text => text.toList.head?) htext
      rcases hdenial with rfl | rfl <;> cases op <;> simp [KvOp.failure] at hhead

/-- A put or delete of a record that is not sensitive is performed exactly when the gate
opens. -/
theorem mutate_performs_iff {key denial caps : String} {action : Action}
    (hkey : isSensitiveKey key = false)
    (hdenial : denial = "kv write denied: " ∨ denial = "kv delete denied: ") :
    kv.mutate cc env op key action denial op.failure sender caps s =
        propose env op op.failure s ↔ kv.writeAllowed cc env sender caps = .ok () := by
  rw [mutate]
  cases kv.writeAllowed cc env sender caps with
  | ok u => simp [hkey]
  | error reason =>
      refine iff_of_false (fun h => ?_) (by simp)
      exact propose_reply_ne op reason hdenial (congrArg Prod.fst h)

theorem performs_iff {req : KvReq} (hreq : decode d.payload = .ok req) (hop : req.op = some op)
    (hkey : isSensitiveKey op.key = false) :
    kv.Performs cc decode d op s ↔ kv.writeAllowed cc d.env d.sender req.caps = .ok () := by
  rw [Performs, serve, handleRequest, hreq]
  cases req with
  | get key caps => cases hop
  | put key value caps =>
      cases hop
      rw [← mutate_performs_iff hkey (.inl rfl)]
      simp only [handlePut, enc_injective.eq_iff, Prod.ext_iff]
      rfl
  | del key caps =>
      cases hop
      rw [← mutate_performs_iff hkey (.inr rfl)]
      simp only [handleDel, enc_injective.eq_iff, Prod.ext_iff]
      rfl
  | list pfx limit caps => cases hop

/-! ## Asking to pair -/

theorem pairKey_isPublic (code : String) : isSensitiveKey (Vault.pairKey code) = false := by
  have hmeta : "p." ++ code ≠ "meta" := by
    intro h
    have hhead := congrArg (fun text => text.toList.head?) h
    simp at hhead
  simp [isSensitiveKey, Vault.pairKey, hmeta, Text.startsWith, List.isPrefixOf]

variable (cc kv env sender s) in
/-- A put over the mesh comes to the server without a chain. -/
theorem handleRequest_put (wire : Wire printed decode parse ⟨none⟩) (key : String) {value : Json}
    (hvalue : Storable printed value) :
    kv.handleRequest cc env decode sender (MeshKvStore.attach ⟨none⟩
        [("op", .str "put"), ("key", .str key), ("value", value)]).compact.toUTF8 s =
      (enc (kv.handlePut cc env sender key value "" s).1,
        (kv.handlePut cc env sender key value "" s).2) := by
  simp only [handleRequest, wire.put key value (hvalue.mono (by decide))]
  rfl

theorem put_deliver_ok (wire : Wire printed decode parse ⟨none⟩)
    (applies : ∀ op, env.propose op = .applied) {key : String} (hkey : isSensitiveKey key = false)
    (hallowed : kv.writeAllowed cc env sender "" = .ok ()) {value : Json}
    (hvalue : Storable printed value) :
    MeshKvStore.put parse (kv.deliver cc env decode sender) ⟨none⟩ key value s =
      (.ok (), { s with m := s.m.insert key value }) := by
  have hput : kv.handlePut cc env sender key value "" s =
      (.obj [("ok", .bool true)], { s with m := s.m.insert key value }) := by
    simp [handlePut, mutate, hallowed, hkey, propose, applies, KvOp.apply]
  have hhandle := handleRequest_put cc kv env sender s wire key hvalue
  rw [hput] at hhandle
  rw [MeshKvStore.put, call_deliver wire (by decide) canonical_ok hhandle]
  rfl

theorem put_deliver_error (wire : Wire printed decode parse ⟨none⟩) {reason : String}
    (hdenied : kv.writeAllowed cc env sender "" = .error reason) (key : String) {value : Json}
    (hvalue : Storable printed value) :
    ∃ e t, MeshKvStore.put parse (kv.deliver cc env decode sender) ⟨none⟩ key value s =
      (.error e, t) := by
  have hput : kv.handlePut cc env sender key value "" s =
      (errorReply ("kv write denied: " ++ reason), record env sender .kvWrite key false s) := by
    rw [handlePut, mutate, hdenied]
  have hhandle := handleRequest_put cc kv env sender s wire key hvalue
  rw [hput] at hhandle
  obtain ⟨e, hcall⟩ := call_deliver_error wire hhandle
  exact ⟨e, _, by rw [MeshKvStore.put, hcall]; rfl⟩

theorem storable_pairRecord {cs : CeSecrets} (laws : cs.EncodingLaws printed) (v : Vault cs)
    (moment : Moment cs) (code label : String) :
    Storable printed (v.pairRecord moment code label) :=
  (Vault.canonical_pairRecord laws code label).mono (by decide)

/-- A pairing request is published exactly when the gate opens without a chain. -/
theorem publishes_iff (wire : Wire printed decode parse ⟨none⟩)
    (applies : ∀ op, env.propose op = .applied) {cs : CeSecrets} (laws : cs.EncodingLaws printed)
    (v : Vault cs) (moment : Moment cs) (label : String) :
    kv.Publishes cc env decode parse sender v moment label s ↔
      kv.writeAllowed cc env sender "" = .ok () := by
  cases hallowed : kv.writeAllowed cc env sender "" with
  | ok u =>
      refine iff_of_true ?_ rfl
      let code := Vault.pairingCode (moment.fillRandom 8)
      have hput := put_deliver_ok (s := s) wire applies (pairKey_isPublic code) hallowed
        (storable_pairRecord laws v moment code label)
      refine ⟨code, _, StoreProg.runOn_store_ok hput _, ?_⟩
      simp
  | error reason =>
      refine iff_of_false ?_ (by simp)
      rintro ⟨code, t, hrun, -⟩
      obtain ⟨e, u, hput⟩ := put_deliver_error (s := s) wire hallowed
        (Vault.pairKey (Vault.pairingCode (moment.fillRandom 8)))
        (storable_pairRecord laws v moment (Vault.pairingCode (moment.fillRandom 8)) label)
      have herror := StoreProg.runOn_store_error (b := MeshKvStore.backend parse
        (kv.deliver cc env decode sender) ⟨none⟩) hput
        fun _ => (return Vault.pairingCode (moment.fillRandom 8) : Vault.Prog String)
      have hsame := hrun.symm.trans herror
      cases hsame

/-- What a remote peer asks without a chain, of records that are not sensitive, is performed
exactly when the server does not enforce writes. So is the publication of a pairing request. -/
theorem bootstrap_open_iff (hempty : ∀ chain, cc.decodeChain "" ≠ .ok chain)
    (hremote : sender ≠ kv.selfIdHex) (wire : Wire printed decode parse ⟨none⟩) :
    (∀ d op s, d.sender = sender → PublicBare decode d op →
      (kv.Performs cc decode d op s ↔ kv.enforceWrite = false)) ∧
    ∀ env s, (∀ op, env.propose op = .applied) →
      ∀ (cs : CeSecrets), cs.EncodingLaws printed →
        ∀ (v : Vault cs) (moment : Moment cs) (label : String),
          kv.Publishes cc env decode parse sender v moment label s ↔ kv.enforceWrite = false := by
  constructor
  · rintro d op s rfl hbare
    obtain ⟨req, hreq, hop, hcaps⟩ := hbare.asked
    rw [performs_iff hreq hop hbare.isPublic, hcaps, writeAllowed_bare_iff hempty hremote]
  · intro env s applies cs laws v moment label
    rw [publishes_iff wire applies laws, writeAllowed_bare_iff hempty hremote]

/-- A new device asks to pair, without a chain. -/
def pairingDelivery : Delivery where
  env := quietAmbient
  sender := remotePeer.hex
  payload := (MeshKvStore.attach ⟨none⟩ [("op", .str "put"), ("key", .str "p.2345-6789"),
    ("value", .obj [("code", .str "2345-6789")])]).compact.toUTF8

def pairingOp : KvOp := .put "p.2345-6789" (.obj [("code", .str "2345-6789")])

theorem pairingDelivery_bare : PublicBare readRequest pairingDelivery pairingOp where
  asked := ⟨_, (wire_json ⟨none⟩).put _ _ (Json.canonical_single (n := 125) _ (.str _ _)), rfl, rfl⟩
  isPublic := by decide

/-- While writes are only audited, the device's request is performed. -/
theorem bootstrap_open_auditing :
    AuthKv.Performs Iam.symbolic { enforcingServer with enforceWrite := false } readRequest
      pairingDelivery pairingOp ⟨∅, Audit.new "vault-1"⟩ := by
  have hremote : remotePeer.hex ≠
      ({ enforcingServer with enforceWrite := false } : AuthKv).selfIdHex := by decide
  have hopen := bootstrap_open_iff Iam.symbolic_empty hremote (wire_json ⟨none⟩)
  exact (hopen.1 pairingDelivery pairingOp _ rfl pairingDelivery_bare).mpr rfl

/-- A server that enforces writes denies the pairing request. -/
theorem bootstrap_closed :
    ¬ ∀ (kv : AuthKv) (d : Delivery) (op : KvOp) (s : KvState), d.sender ≠ kv.selfIdHex →
      PublicBare readRequest d op → kv.Performs Iam.symbolic readRequest d op s := by
  intro hclaim
  have hremote : pairingDelivery.sender ≠ enforcingServer.selfIdHex := by decide
  have hperforms := hclaim enforcingServer pairingDelivery pairingOp ⟨∅, Audit.new "vault-1"⟩
    hremote pairingDelivery_bare
  obtain ⟨req, hreq, hop, hcaps⟩ := pairingDelivery_bare.asked
  rw [performs_iff hreq hop pairingDelivery_bare.isPublic, hcaps,
    writeAllowed_bare_iff Iam.symbolic_empty hremote] at hperforms
  cases hperforms

end AuthKv

end CeIam
