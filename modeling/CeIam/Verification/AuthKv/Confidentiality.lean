import CeIam.Model.AuthKv
import CeIam.Verification.Grant.Symbolic

/-! # What an unauthorized peer can read

A reply to a peer without the read ability depends on the records under keys that are
not sensitive, except for lists under six short prefixes that the gate overlooks. -/

namespace CeIam

/-! ## Prefixes that reach sensitive keys -/

/-- The proper prefixes of sensitive keys that the list gate lets through. -/
def overlookedPrefixes : List String := ["s", "d", "g", "m", "me", "met"]

private theorem overlooked_of_marker {p k marker : String}
    (hmarker : ∀ q ∈ Text.prefixes marker,
      AuthKv.touchesSensitive q = false → q ∈ overlookedPrefixes)
    (hsensitive : ∀ q, Text.startsWith q marker = true → isSensitiveKey q = true)
    (hp : AuthKv.touchesSensitive p = false) (hkp : Text.startsWith k p = true)
    (hk : Text.startsWith k marker = true) : p ∈ overlookedPrefixes := by
  rcases Text.startsWith_or_startsWith hkp hk with h | h
  · have htouch : AuthKv.touchesSensitive p = true := by
      simp [AuthKv.touchesSensitive, hsensitive p h]
    rw [htouch] at hp
    cases hp
  · exact hmarker p (Text.mem_prefixes.mpr h) hp

/-- A list prefix is overlooked when it is not gated and some sensitive key extends it. -/
theorem mem_overlookedPrefixes {p : String} :
    p ∈ overlookedPrefixes ↔
      AuthKv.touchesSensitive p = false ∧
        ∃ k, isSensitiveKey k = true ∧ Text.startsWith k p = true := by
  constructor
  · have hall : ∀ q ∈ overlookedPrefixes, AuthKv.touchesSensitive q = false ∧
        ∃ k ∈ ["s.", "d.", "g.", "meta"], isSensitiveKey k = true ∧ Text.startsWith k q = true := by
      decide
    intro h
    obtain ⟨htouch, k, -, hk⟩ := hall p h
    exact ⟨htouch, k, hk⟩
  · rintro ⟨hp, k, hk, hkp⟩
    simp only [isSensitiveKey, Bool.or_eq_true, decide_eq_true_eq] at hk
    rcases hk with ((rfl | hs) | hd) | hg
    · have hmeta : ∀ q ∈ Text.prefixes "meta",
          AuthKv.touchesSensitive q = false → q ∈ overlookedPrefixes := by decide
      exact hmeta p (Text.mem_prefixes.mpr hkp) hp
    · exact overlooked_of_marker (by decide) (by simp +contextual [isSensitiveKey]) hp hkp hs
    · exact overlooked_of_marker (by decide) (by simp +contextual [isSensitiveKey]) hp hkp hd
    · exact overlooked_of_marker (by decide) (by simp +contextual [isSensitiveKey]) hp hkp hg

/-! ## Replies -/

/-- Maps that agree on every record that is not sensitive. -/
def AgreeOnPublic (m n : OrdMap String Json) : Prop :=
  ∀ k, isSensitiveKey k = false → m[k]? = n[k]?

namespace AuthKv

variable {cc : CeCap} {kv : AuthKv} {env : Ambient}
  {decode : ByteArray → Except String KvReq} {sender : String} {payload : ByteArray}

theorem enc_injective : Function.Injective enc := by
  intro a b h
  exact Json.compact_injective (String.toByteArray_inj.mp h)

/-- No capability chain of the request is accepted for reading with this sender. -/
def ReadDenied (cc : CeCap) (kv : AuthKv) (env : Ambient)
    (decode : ByteArray → Except String KvReq) (sender : String) (payload : ByteArray) : Prop :=
  ∀ req requester, decode payload = .ok req → Principal.parse sender = .ok requester →
    kv.iam.verify cc kv.selfId [] env.now requester abilityKvRead req.caps kv.isRevoked ≠ .ok ()

/-- An enforced gate is closed to a remote sender whose chain is not accepted. -/
theorem gate_error {ability caps : String} (hremote : sender ≠ kv.selfIdHex)
    (hdenied : ∀ requester, Principal.parse sender = .ok requester →
      kv.iam.verify cc kv.selfId [] env.now requester ability caps kv.isRevoked ≠ .ok ()) :
    ∃ reason, kv.gate cc env true ability sender caps = .error reason := by
  rw [gate, if_neg hremote]
  simp only [Bool.not_true, Bool.false_eq_true, if_false, authorize]
  cases hparse : Principal.parse sender with
  | error e => exact ⟨_, rfl⟩
  | ok requester =>
      cases hverify : kv.iam.verify cc kv.selfId [] env.now requester ability caps
          kv.isRevoked with
      | error e => exact ⟨e.display, by simp [hverify, Except.mapError]⟩
      | ok u => exact absurd hverify (hdenied requester hparse)

theorem readAllowed_error {caps : String} (henforce : kv.enforceRead = true)
    (hremote : sender ≠ kv.selfIdHex)
    (hdenied : ∀ requester, Principal.parse sender = .ok requester →
      kv.iam.verify cc kv.selfId [] env.now requester abilityKvRead caps kv.isRevoked ≠ .ok ()) :
    ∃ reason, kv.readAllowed cc env sender caps = .error reason := by
  rw [readAllowed, henforce]
  exact gate_error hremote hdenied

/-- The reply to a put or a delete tells nothing of the map. -/
theorem mutate_reply {op : KvOp} {key : String} {action : Action}
    {denial failure caps : String} (s t : KvState) :
    (kv.mutate cc env op key action denial failure sender caps s).1 =
      (kv.mutate cc env op key action denial failure sender caps t).1 := by
  unfold mutate
  cases kv.writeAllowed cc env sender caps with
  | error reason => rfl
  | ok u =>
      simp only [propose]
      cases env.propose op <;> rfl

theorem itemsReply_congr {m n : OrdMap String Json} {p : String} (limit : ℕ)
    (h : ∀ k, Text.startsWith k p = true → m[k]? = n[k]?) :
    itemsReply m p limit = itemsReply n p limit := by
  simp only [itemsReply, OrdMap.filter_toList_congr (fun k => Text.startsWith k p) h]

/-- A request other than a list under an overlooked prefix has the same reply on maps that
agree on public records. -/
theorem reply_eq_of_agree (henforce : kv.enforceRead = true) (hremote : sender ≠ kv.selfIdHex)
    (hdenied : ReadDenied cc kv env decode sender payload)
    (hpayload : ∀ p limit caps, decode payload = .ok (.list p limit caps) →
      p ∉ overlookedPrefixes)
    {s t : KvState} (hagree : AgreeOnPublic s.m t.m) :
    (kv.handleRequest cc env decode sender payload s).1 =
      (kv.handleRequest cc env decode sender payload t).1 := by
  simp only [handleRequest]
  congr 1
  cases hreq : decode payload with
  | error e => rfl
  | ok req =>
      have hclosed := fun requester => hdenied req requester hreq
      obtain ⟨reason, hreason⟩ := readAllowed_error henforce hremote hclosed
      cases req with
      | get key caps =>
          simp only [handleGet, KvReq.caps] at hreason ⊢
          cases hkey : isSensitiveKey key with
          | true => simp [hreason]
          | false => simp [valueReply, hagree key hkey]
      | put key value caps => exact mutate_reply s t
      | del key caps => exact mutate_reply s t
      | list p limit caps =>
          simp only [handleList, KvReq.caps] at hreason ⊢
          cases htouch : touchesSensitive p with
          | true => simp [hreason]
          | false =>
              have hpublic : ∀ k, Text.startsWith k p = true → s.m[k]? = t.m[k]? := by
                intro k hk
                apply hagree
                rw [Bool.eq_false_iff]
                intro hsensitive
                exact hpayload p limit caps hreq
                  (mem_overlookedPrefixes.mpr ⟨htouch, k, hsensitive, hk⟩)
              simpa using itemsReply_congr limit hpublic

/-- A list names no record only when no key has the prefix. -/
theorem itemsReply_eq_empty {m : OrdMap String Json} {p : String} {limit : ℕ}
    (h : itemsReply m p limit = itemsReply ∅ p limit) {k : String} {v : Json}
    (hk : Text.startsWith k p = true) : m[k]? ≠ some v := by
  intro hget
  have hmem : (k, v) ∈ m.toList.filter (fun e => Text.startsWith e.1 p) :=
    List.mem_filter.mpr ⟨OrdMap.mem_toList.mpr hget, hk⟩
  simp only [itemsReply, Json.obj.injEq, List.cons.injEq, Prod.mk.injEq, Json.arr.injEq, true_and,
    and_true, OrdMap.toList_empty, List.filter_nil, List.take_nil, List.map_nil,
    List.map_eq_nil_iff, List.take_eq_nil_iff] at h
  rcases h with hcap | hnil
  · split at hcap <;> omega
  · rw [hnil] at hmem
    cases hmem

variable (cc kv env sender) in
/-- A list under an overlooked prefix tells a sensitive record from no record. -/
theorem list_reveals {p caps : String} {limit : ℕ}
    (hreq : decode payload = .ok (.list p limit caps)) (hp : p ∈ overlookedPrefixes)
    (audit : Audit) :
    ∃ m n : OrdMap String Json, AgreeOnPublic m n ∧
      (kv.handleRequest cc env decode sender payload ⟨m, audit⟩).1 ≠
        (kv.handleRequest cc env decode sender payload ⟨n, audit⟩).1 := by
  obtain ⟨htouch, k, hsensitive, hk⟩ := mem_overlookedPrefixes.mp hp
  refine ⟨(∅ : OrdMap String Json).insert k .null, ∅, ?_, ?_⟩
  · intro a ha
    have hne : k ≠ a := fun h => by rw [h, ha] at hsensitive; cases hsensitive
    rw [OrdMap.get_insert, if_neg hne]
  · intro heq
    simp only [handleRequest, hreq, handleList, htouch, Bool.false_eq_true, if_false] at heq
    exact itemsReply_eq_empty (enc_injective heq) hk (v := .null) (by simp)

/-- With reads enforced, the replies to a remote sender without an accepted chain are
independent of sensitive records exactly when the request is no list under an overlooked
prefix. -/
theorem reads_confined_iff (henforce : kv.enforceRead = true) (hremote : sender ≠ kv.selfIdHex)
    (hdenied : ReadDenied cc kv env decode sender payload) :
    (∀ s t : KvState, AgreeOnPublic s.m t.m →
      (kv.handleRequest cc env decode sender payload s).1 =
        (kv.handleRequest cc env decode sender payload t).1) ↔
      ∀ p limit caps, decode payload = .ok (.list p limit caps) → p ∉ overlookedPrefixes := by
  constructor
  · intro hsame p limit caps hreq hp
    obtain ⟨m, n, hagree, hne⟩ := list_reveals cc kv env sender hreq hp (Audit.new kv.ns)
    exact hne (hsame ⟨m, _⟩ ⟨n, _⟩ hagree)
  · intro hpayload s t hagree
    exact reply_eq_of_agree henforce hremote hdenied hpayload hagree

/-! ## A remote list under the prefix s -/

theorem parseNodeId_hex (p : Principal) : parseNodeId p.hex = some p.nodeId := by
  obtain ⟨⟨bytes, hsize⟩⟩ := p
  simp [parseNodeId, Principal.hex, Hex.trim_encode, Hex.decode_encode, hsize]

/-- A server that enforces both gates and trusts its own key only. -/
def enforcingServer : AuthKv where
  ns := "vault-1"
  selfIdHex := (Principal.mk (.filled 1)).hex
  selfId := .filled 1
  iam := .default
  enforceWrite := true
  enforceRead := true
  isRevoked := fun _ _ => false
  selfParsed := parseNodeId_hex _

def remotePeer : Principal := ⟨.filled 2⟩

def quietAmbient : Ambient := ⟨100, 100, fun _ => .applied⟩

def listPayload : ByteArray := "\x7b\"op\":\"list\",\"prefix\":\"s\"\x7d".toUTF8

/-- Reads the one payload that lists under the prefix s. -/
def decodeList (payload : ByteArray) : Except String KvReq :=
  if payload.data = listPayload.data then .ok (.list "s" 0 "") else .error "expected value"

theorem listPayload_denied :
    ReadDenied Iam.symbolic enforcingServer quietAmbient decodeList remotePeer.hex listPayload := by
  intro req requester hreq _
  have hlist : req = .list "s" 0 "" := by simpa [decodeList, eq_comm] using hreq
  subst hlist
  exact Iam.verify_empty Iam.symbolic_empty

/-- A secret is told from no secret by a peer whose every chain is refused. -/
theorem reads_not_confined :
    ¬ ∀ (sender : String) (payload : ByteArray), sender ≠ enforcingServer.selfIdHex →
      ReadDenied Iam.symbolic enforcingServer quietAmbient decodeList sender payload →
      ∀ s t : KvState, AgreeOnPublic s.m t.m →
        (enforcingServer.handleRequest Iam.symbolic quietAmbient decodeList sender payload s).1 =
          (enforcingServer.handleRequest Iam.symbolic quietAmbient decodeList sender payload
            t).1 := by
  intro hclaim
  have hremote : remotePeer.hex ≠ enforcingServer.selfIdHex := by decide
  have hreq : decodeList listPayload = .ok (.list "s" 0 "") := by simp [decodeList]
  obtain ⟨m, n, hagree, hne⟩ := list_reveals Iam.symbolic enforcingServer quietAmbient
    remotePeer.hex hreq (by decide) (Audit.new "vault-1")
  exact hne (hclaim _ _ hremote listPayload_denied ⟨m, _⟩ ⟨n, _⟩ hagree)

theorem reads_confined_iff_list :
    (∀ s t : KvState, AgreeOnPublic s.m t.m →
      (enforcingServer.handleRequest Iam.symbolic quietAmbient decodeList remotePeer.hex
          listPayload s).1 =
        (enforcingServer.handleRequest Iam.symbolic quietAmbient decodeList remotePeer.hex
          listPayload t).1) ↔
      ∀ p limit caps, decodeList listPayload = .ok (.list p limit caps) → p ∉ overlookedPrefixes :=
  reads_confined_iff rfl (by decide) listPayload_denied

end AuthKv

end CeIam
