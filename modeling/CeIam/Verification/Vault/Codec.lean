import CeIam.Verification.Vault.Invariants

/-! # The secret in a token

The secret is written in hexadecimal. The decoder cuts its text every two bytes, whatever
characters are there, and leaves each piece to a parser of integers: it panics where a cut is
inside a character, and takes a plus sign for a digit. -/

namespace CeIam.Vault

open Outcome (Abort)
open StoreProg

/-! ## Pairs of characters -/

/-- The value of a first digit, or of the plus sign in its place. -/
def leadingValue (c : Char) : Option ℕ := if c = '+' then some 0 else Hex.digitValue c

/-- The byte of two characters that are read as one. -/
def hexPair (a b : Char) : Option UInt8 := do
  let high ← leadingValue a
  let low ← Hex.digitValue b
  return UInt8.ofNat (16 * high + low)

/-- What is left behind the pairs at the front that have a byte. -/
def unread : List Char → List Char
  | a :: b :: rest => if (hexPair a b).isSome then unread rest else a :: b :: rest
  | cs => cs

/-- How decoding ends at characters that are no pair. -/
def stop (cs : List Char) : Abort :=
  match Text.cut 2 cs with
  | none => .panic "byte index is not a char boundary"
  | some _ => .error "bad hex: invalid digit found in string"

/-- The bytes of the pairs of a text, one after the other. -/
def decodeChars : List Char → Except Abort Bytes
  | [] => .ok []
  | [c] => .error (stop [c])
  | a :: b :: rest =>
      match hexPair a b with
      | none => .error (stop (a :: b :: rest))
      | some byte => (decodeChars rest).map (byte :: ·)

/-! ## One pair -/

theorem leadingValue_eq_some {c : Char} {n : ℕ} (h : leadingValue c = some n) :
    n < 16 ∧ c.utf8Size = 1 := by
  rw [leadingValue] at h
  split_ifs at h with hplus
  · rw [← Option.some.inj h, hplus]
    exact ⟨by decide, rfl⟩
  · exact ⟨(Hex.digitValue_eq_some h).1, Hex.utf8Size_of_digitValue h⟩

theorem hexPair_eq_some {a b : Char} {byte : UInt8} :
    hexPair a b = some byte ↔ ∃ high low, leadingValue a = some high ∧
      Hex.digitValue b = some low ∧ UInt8.ofNat (16 * high + low) = byte := by
  cases ha : leadingValue a with
  | none => simp [hexPair, ha]
  | some high => simp [hexPair, ha, Option.bind_eq_some_iff]

theorem utf8Size_of_hexPair {a b : Char} {byte : UInt8} (h : hexPair a b = some byte) :
    a.utf8Size = 1 ∧ b.utf8Size = 1 := by
  obtain ⟨high, low, ha, hb, -⟩ := hexPair_eq_some.mp h
  exact ⟨(leadingValue_eq_some ha).2, Hex.utf8Size_of_digitValue hb⟩

theorem addDigits_cons {value : ℕ} (hvalue : value < 16) (c : Char) (rest : List Char) :
    addDigits value (c :: rest) =
      match Hex.digitValue c with
      | none => .error "invalid digit found in string"
      | some digit => addDigits (16 * value + digit) rest := by
  rw [addDigits]
  cases hc : Hex.digitValue c with
  | none => rfl
  | some digit =>
      have hdigit := (Hex.digitValue_eq_some hc).1
      exact if_pos (by omega)

/-- The integer parser takes a sign for a first digit. -/
theorem fromStrRadix_cons {a b : Char} (rest : List Char) :
    fromStrRadix (String.ofList (a :: b :: rest)) =
      match leadingValue a with
      | none => .error "invalid digit found in string"
      | some high => addDigits high (b :: rest) := by
  rw [fromStrRadix, String.toList_ofList, leadingValue]
  split_ifs with hplus
  · subst hplus
    rfl
  · have hunsigned := addDigits_cons (show 0 < 16 by decide) a (b :: rest)
    rw [Nat.mul_zero] at hunsigned
    simp only [Nat.zero_add] at hunsigned
    rw [← hunsigned]
    split
    · next h => cases h
    · next h => cases h
    · next h => exact absurd (List.cons.inj h).1 hplus
    · rfl

theorem fromStrRadix_pair (a b : Char) :
    fromStrRadix (String.ofList [a, b]) =
      Outcome.require "invalid digit found in string" (hexPair a b) := by
  rw [fromStrRadix_cons, hexPair]
  cases ha : leadingValue a with
  | none => rfl
  | some high =>
      simp only [addDigits_cons (leadingValue_eq_some ha).1, Option.bind_eq_bind, Option.bind_some]
      cases Hex.digitValue b <;> rfl

theorem fromStrRadix_single {c : Char} (h : leadingValue c = none) :
    fromStrRadix (String.ofList [c]) = .error "invalid digit found in string" := by
  rw [leadingValue] at h
  split_ifs at h with hplus
  rw [fromStrRadix, String.toList_ofList]
  split
  · next h => cases h
  · rfl
  · next h => exact absurd (List.cons.inj h).1 hplus
  · rw [addDigits, h]

/-! ## The loop over the text -/

/-- A piece of two bytes is two ASCII characters or one character of two bytes. -/
theorem cut_two {cs front rest : List Char} (h : Text.cut 2 cs = some (front, rest)) :
    (∃ a b, front = [a, b] ∧ cs = a :: b :: rest) ∨
      ∃ c, front = [c] ∧ cs = c :: rest ∧ c.utf8Size = 2 := by
  cases cs with
  | nil => cases h
  | cons c cs =>
      rw [Text.cut] at h
      split_ifs at h with hsize
      obtain ⟨⟨front', rest'⟩, hcut, heq⟩ := Option.map_eq_some_iff.mp h
      cases heq
      rcases Nat.le_iff_lt_or_eq.mp hsize with hone | htwo
      · have hpos := c.utf8Size_pos
        have hleft : 1 + 1 - c.utf8Size = 1 := by omega
        rw [hleft] at hcut
        cases cs with
        | nil => cases hcut
        | cons d cs =>
            rw [Text.cut] at hcut
            split_ifs at hcut with hsize'
            have hpos' := d.utf8Size_pos
            have hnone : 0 + 1 - d.utf8Size = 0 := by omega
            rw [hnone, Text.cut] at hcut
            cases hcut
            exact .inl ⟨c, d, rfl, rfl⟩
      · rw [htwo, Nat.sub_self, Text.cut] at hcut
        cases hcut
        exact .inr ⟨c, rfl, rfl, htwo⟩

/-- The text has no pair at its front. -/
def NoPair (cs : List Char) : Prop := ∀ a b rest, cs = a :: b :: rest → hexPair a b = none

/-- A piece that is no pair is no number. -/
theorem fromStrRadix_noPair {cs front rest : List Char} (h : Text.cut 2 cs = some (front, rest))
    (hcs : NoPair cs) :
    fromStrRadix (String.ofList front) = .error "invalid digit found in string" := by
  rcases cut_two h with ⟨a, b, rfl, heq⟩ | ⟨c, rfl, -, hsize⟩
  · rw [fromStrRadix_pair, hcs a b rest heq]
    rfl
  · refine fromStrRadix_single (Option.eq_none_iff_forall_ne_some.mpr fun n hn => ?_)
    have hone := (leadingValue_eq_some hn).2
    omega

variable {s : String} {front cs : List Char}

theorem decodePair_noPair (hs : s.toList = front ++ cs) (hcs : NoPair cs) :
    decodePair s (String.utf8Len front) = .error (stop cs) := by
  rw [decodePair, Text.slice_append hs, stop]
  cases hcut : Text.cut 2 cs with
  | none => rfl
  | some parts =>
      rw [Option.map_some, Outcome.require, Outcome.ok_bind, fromStrRadix_noPair hcut hcs]
      rfl

theorem decodePair_pair {a b : Char} {rest : List Char} {byte : UInt8}
    (hs : s.toList = front ++ a :: b :: rest) (h : hexPair a b = some byte) :
    decodePair s (String.utf8Len front) = .ok byte := by
  obtain ⟨ha, hb⟩ := utf8Size_of_hexPair h
  have hcut : Text.cut 2 (a :: b :: rest) = some ([a, b], rest) := by
    simp [Text.cut, ha, hb]
  rw [decodePair, Text.slice_append hs, hcut, Option.map_some, Outcome.require, Outcome.ok_bind,
    fromStrRadix_pair, h]
  rfl

theorem decode_noPair (hs : s.toList = front ++ cs) (hcs : NoPair cs) {n : ℕ} (hn : n ≠ 0) :
    (List.range' (String.utf8Len front) n 2).mapM (decodePair s) = .error (stop cs) := by
  obtain ⟨m, rfl⟩ := Nat.exists_eq_succ_of_ne_zero hn
  rw [List.range'_succ, Outcome.mapM_cons, decodePair_noPair hs hcs]
  rfl

/-- Behind a front that ends at an offset the decoder reads pairs of characters. -/
theorem decode_rest (hs : s.toList = front ++ cs) {n : ℕ} (hn : String.utf8Len cs = 2 * n) :
    (List.range' (String.utf8Len front) n 2).mapM (decodePair s) = decodeChars cs := by
  induction cs using decodeChars.induct generalizing front n with
  | case1 =>
      obtain rfl : n = 0 := by simpa using hn.symm
      rfl
  | case2 c =>
      have hpos := c.utf8Size_pos
      rw [String.utf8Len_cons] at hn
      exact decode_noPair hs (fun _ _ _ h => nomatch h) (by omega)
  | case3 a b rest hnone =>
      have hpos := a.utf8Size_pos
      rw [String.utf8Len_cons] at hn
      rw [decodeChars, hnone]
      refine decode_noPair hs (fun a' b' rest' h => ?_) (by omega)
      cases h
      exact hnone
  | case4 a b rest byte hbyte ih =>
      obtain ⟨ha, hb⟩ := utf8Size_of_hexPair hbyte
      obtain ⟨m, rfl⟩ : ∃ m, n = m + 1 := by
        rw [String.utf8Len_cons, String.utf8Len_cons] at hn
        exact ⟨n - 1, by omega⟩
      have hlen : String.utf8Len (front ++ [a, b]) = String.utf8Len front + 2 := by
        simp [ha, hb]
      have hs' : s.toList = (front ++ [a, b]) ++ rest := by simpa using hs
      have hn' : String.utf8Len rest = 2 * m := by
        rw [String.utf8Len_cons, String.utf8Len_cons] at hn
        omega
      have hrest := ih hs' hn'
      rw [hlen] at hrest
      rw [List.range'_succ, Outcome.mapM_cons, decodePair_pair hs hbyte, Outcome.ok_bind, hrest,
        decodeChars, hbyte]
      cases decodeChars rest <;> rfl

theorem utf8Len_toList (s : String) : String.utf8Len s.toList = s.utf8ByteSize := by
  rw [← String.utf8ByteSize_ofList, String.ofList_toList]

theorem b64Decode_even {s : String} (h : s.utf8ByteSize % 2 = 0) :
    b64Decode s = decodeChars s.toList := by
  have hlen : String.utf8Len s.toList = 2 * (s.utf8ByteSize / 2) := by
    rw [utf8Len_toList]
    omega
  rw [b64Decode, if_neg (not_not.mpr h)]
  have hfront : s.toList = [] ++ s.toList := rfl
  exact decode_rest hfront hlen

/-! ## What is read, and what is not -/

theorem decodeChars_unread (cs : List Char) :
    (unread cs = [] ∧ ∃ bytes, decodeChars cs = .ok bytes) ∨
      unread cs ≠ [] ∧ decodeChars cs = .error (stop (unread cs)) := by
  induction cs using decodeChars.induct with
  | case1 => exact .inl ⟨rfl, [], rfl⟩
  | case2 c => exact .inr ⟨List.cons_ne_nil c [], rfl⟩
  | case3 a b rest hnone =>
      have hstop : unread (a :: b :: rest) = a :: b :: rest := by simp [unread, hnone]
      rw [hstop, decodeChars, hnone]
      exact .inr ⟨List.cons_ne_nil a _, rfl⟩
  | case4 a b rest byte hbyte ih =>
      have hskip : unread (a :: b :: rest) = unread rest := by simp [unread, hbyte]
      rw [hskip, decodeChars, hbyte]
      rcases ih with ⟨hnil, bytes, hbytes⟩ | ⟨hne, herror⟩
      · exact .inl ⟨hnil, byte :: bytes, by rw [hbytes]; rfl⟩
      · exact .inr ⟨hne, by rw [herror]; rfl⟩

/-- An even number of hexadecimal digits. -/
def HexText (s : String) : Prop :=
  s.toList.length % 2 = 0 ∧ ∀ c ∈ s.toList, (Hex.digitValue c).isSome

/-- Two bytes can be cut off where pairs of characters end, if they do. -/
def Cuttable (s : String) : Prop :=
  s.utf8ByteSize % 2 = 1 ∨ unread s.toList = [] ∨ (Text.cut 2 (unread s.toList)).isSome

instance (s : String) : Decidable (Cuttable s) :=
  inferInstanceAs (Decidable (_ ∨ _ ∨ _))

/-- A text of pairs alone has no plus sign. -/
def Unsigned (s : String) : Prop := unread s.toList = [] → '+' ∉ s.toList

theorem leadingValue_digit {c : Char} (h : c ≠ '+') : leadingValue c = Hex.digitValue c :=
  if_neg h

theorem hexPair_isSome {a b : Char} (h : a ≠ '+') :
    (hexPair a b).isSome ↔ (Hex.digitValue a).isSome ∧ (Hex.digitValue b).isSome := by
  rw [hexPair, leadingValue_digit h]
  cases Hex.digitValue a <;> cases Hex.digitValue b <;> simp

/-- Everything is read without a sign exactly when the text is hexadecimal. -/
theorem unread_eq_nil_iff (cs : List Char) :
    unread cs = [] ∧ '+' ∉ cs ↔
      cs.length % 2 = 0 ∧ ∀ c ∈ cs, (Hex.digitValue c).isSome := by
  have hsign : ∀ c : Char, (Hex.digitValue c).isSome → c ≠ '+' := by
    rintro c hc rfl
    revert hc
    decide
  induction cs using decodeChars.induct with
  | case1 => simp [unread]
  | case2 c => simp [unread]
  | case3 a b rest hnone =>
      refine iff_of_false (fun h => ?_) fun h => ?_
      · simp [unread, hnone] at h
      · obtain ⟨ha, hb, -⟩ := by simpa only [List.forall_mem_cons] using h.2
        have hpair := (hexPair_isSome (hsign a ha)).mpr ⟨ha, hb⟩
        rw [hnone] at hpair
        cases hpair
  | case4 a b rest byte hbyte ih =>
      have hskip : unread (a :: b :: rest) = unread rest := by simp [unread, hbyte]
      have hlength : (a :: b :: rest).length % 2 = 0 ↔ rest.length % 2 = 0 := by
        simp only [List.length_cons]
        omega
      have hdigit : (Hex.digitValue b).isSome := by
        obtain ⟨high, low, -, hb, -⟩ := hexPair_eq_some.mp hbyte
        rw [hb]
        rfl
      have hfirst : a ≠ '+' ↔ (Hex.digitValue a).isSome := by
        refine ⟨fun ha => ?_, hsign a⟩
        exact ((hexPair_isSome ha).mp (by rw [hbyte]; rfl)).1
      rw [hskip, hlength]
      simp only [List.forall_mem_cons]
      simp only [List.mem_cons, not_or]
      constructor
      · rintro ⟨hnil, ha, -, hrest⟩
        obtain ⟨heven, hall⟩ := ih.mp ⟨hnil, hrest⟩
        exact ⟨heven, hfirst.mp (Ne.symm ha), hdigit, hall⟩
      · rintro ⟨heven, ha, -, hall⟩
        obtain ⟨hnil, hrest⟩ := ih.mpr ⟨heven, hall⟩
        exact ⟨hnil, Ne.symm (hfirst.mpr ha), Ne.symm (hsign b hdigit), hrest⟩

/-- Digits that were read are written back in lower case. -/
theorem encode_decodeChars {cs : List Char} {bytes : Bytes} (h : decodeChars cs = .ok bytes)
    (hplus : '+' ∉ cs) : bytes.flatMap Hex.encodeByte = cs.map Char.toLower := by
  induction cs using decodeChars.induct generalizing bytes with
  | case1 =>
      cases h
      rfl
  | case2 c => cases h
  | case3 a b rest hnone =>
      rw [decodeChars, hnone] at h
      cases h
  | case4 a b rest byte hbyte ih =>
      rw [decodeChars, hbyte] at h
      obtain ⟨bytes', hrest, rfl⟩ := Outcome.map_eq_ok.mp h
      obtain ⟨ha, hb⟩ : a ≠ '+' ∧ '+' ∉ rest := by
        simp only [List.mem_cons, not_or] at hplus
        exact ⟨Ne.symm hplus.1, hplus.2.2⟩
      obtain ⟨high, low, hhigh, hlow, rfl⟩ := hexPair_eq_some.mp hbyte
      rw [leadingValue_digit ha] at hhigh
      obtain ⟨hhigh16, hhighChar⟩ := Hex.digitValue_eq_some hhigh
      obtain ⟨hlow16, hlowChar⟩ := Hex.digitValue_eq_some hlow
      have hvalue : (UInt8.ofNat (16 * high + low)).toNat = 16 * high + low := by
        rw [UInt8.toNat_ofNat']
        omega
      have hdiv : (16 * high + low) / 16 = high := by omega
      have hmod : (16 * high + low) % 16 = low := by omega
      rw [List.flatMap_cons, ih hrest hb, Hex.encodeByte, hvalue, hdiv, hmod, hhighChar, hlowChar]
      rfl

/-! ## The whole text -/

theorem hexText_iff {s : String} : HexText s ↔ unread s.toList = [] ∧ '+' ∉ s.toList :=
  (unread_eq_nil_iff s.toList).symm

/-- What is decoded is an even number of bytes, and all of it is read. -/
theorem b64Decode_ok {s : String} {bytes : Bytes} (h : b64Decode s = .ok bytes) :
    s.utf8ByteSize % 2 = 0 ∧ unread s.toList = [] ∧ decodeChars s.toList = .ok bytes := by
  have heven : s.utf8ByteSize % 2 = 0 := by
    by_contra hodd
    rw [b64Decode, if_pos hodd] at h
    cases h
  rw [b64Decode_even heven] at h
  rcases decodeChars_unread s.toList with ⟨hnil, -⟩ | ⟨-, herror⟩
  · exact ⟨heven, hnil, h⟩
  · rw [herror] at h
    cases h

theorem even_of_unread {cs : List Char} (h : unread cs = []) : String.utf8Len cs % 2 = 0 := by
  induction cs using decodeChars.induct with
  | case1 => rfl
  | case2 c => cases h
  | case3 a b rest hnone => simp [unread, hnone] at h
  | case4 a b rest byte hbyte ih =>
      obtain ⟨ha, hb⟩ := utf8Size_of_hexPair hbyte
      have hrest := ih (by simpa [unread, hbyte] using h)
      rw [String.utf8Len_cons, String.utf8Len_cons, ha, hb]
      omega

theorem b64Decode_of_unread {s : String} (h : unread s.toList = []) :
    ∃ bytes, b64Decode s = .ok bytes := by
  rw [b64Decode_even (utf8Len_toList s ▸ even_of_unread h)]
  rcases decodeChars_unread s.toList with ⟨-, hbytes⟩ | ⟨hne, -⟩
  · exact hbytes
  · exact absurd h hne

/-- The decoder panics where it meets, at a place for a pair, a cut inside a character. -/
theorem b64Decode_panics {s : String} :
    (∃ message, b64Decode s = .error (.panic message)) ↔ ¬ Cuttable s := by
  rw [Cuttable]
  by_cases hodd : s.utf8ByteSize % 2 = 1
  · have hsize : s.utf8ByteSize % 2 ≠ 0 := by omega
    rw [b64Decode, if_pos hsize]
    simp [hodd]
  · rw [b64Decode_even (by omega)]
    rcases decodeChars_unread s.toList with ⟨hnil, bytes, hbytes⟩ | ⟨hne, herror⟩
    · simp [hnil, hbytes]
    · rw [herror, stop]
      cases hcut : Text.cut 2 (unread s.toList) <;> simp [hodd, hne]

/-- The decoder returns on the text, decodes it if it is hexadecimal, and then to the bytes that
are written as the text in lower case. -/
structure ExactOn (s : String) : Prop where
  total : ∀ message, b64Decode s ≠ .error (.panic message)
  accepts : (∃ bytes, b64Decode s = .ok bytes) ↔ HexText s
  writes : ∀ bytes, b64Decode s = .ok bytes → b64Encode bytes = Text.toAsciiLowercase s

theorem exactOn_iff (s : String) : ExactOn s ↔ Cuttable s ∧ Unsigned s := by
  constructor
  · intro h
    refine ⟨?_, fun hnil => ?_⟩
    · by_contra hcut
      obtain ⟨message, hpanic⟩ := b64Decode_panics.mpr hcut
      exact h.total message hpanic
    · exact (hexText_iff.mp (h.accepts.mp (b64Decode_of_unread hnil))).2
  · rintro ⟨hcut, hunsigned⟩
    refine ⟨fun message hpanic => ?_, ⟨?_, fun hhex => ?_⟩, fun bytes hbytes => ?_⟩
    · exact b64Decode_panics.mp ⟨message, hpanic⟩ hcut
    · rintro ⟨bytes, hbytes⟩
      obtain ⟨-, hnil, -⟩ := b64Decode_ok hbytes
      exact hexText_iff.mpr ⟨hnil, hunsigned hnil⟩
    · exact b64Decode_of_unread (hexText_iff.mp hhex).1
    · obtain ⟨-, hnil, hchars⟩ := b64Decode_ok hbytes
      exact congrArg String.ofList (encode_decodeChars hchars (hunsigned hnil))

theorem decodeChars_encode (bs : Bytes) : decodeChars (bs.flatMap Hex.encodeByte) = .ok bs := by
  induction bs with
  | nil => rfl
  | cons b bs ih =>
      have hb : b.toNat < 256 := b.toNat_lt
      have hhigh := Hex.digitValue_digitChar (b.toNat / 16) (by omega)
      have hlow := Hex.digitValue_digitChar (b.toNat % 16) (by omega)
      have hsign : Nat.digitChar (b.toNat / 16) ≠ '+' := by
        intro heq
        rw [heq] at hhigh
        cases hhigh
      have hbyte : 16 * (b.toNat / 16) + b.toNat % 16 = b.toNat := by omega
      have hpair : hexPair (Nat.digitChar (b.toNat / 16)) (Nat.digitChar (b.toNat % 16)) =
          some b := by
        refine hexPair_eq_some.mpr ⟨_, _, (leadingValue_digit hsign).trans hhigh, hlow, ?_⟩
        rw [hbyte, UInt8.ofNat_toNat]
      rw [List.flatMap_cons, Hex.encodeByte, List.cons_append, List.cons_append, List.nil_append,
        decodeChars, hpair, ih]
      rfl

/-- Written bytes read back. -/
theorem b64Decode_encode (bs : Bytes) : b64Decode (b64Encode bs) = .ok bs := by
  have heven : (b64Encode bs).utf8ByteSize % 2 = 0 := by
    rw [Hex.utf8ByteSize_encode]
    omega
  rw [b64Decode_even heven, b64Encode, Hex.encode, String.toList_ofList]
  exact decodeChars_encode bs

/-! ## Redemptions -/

variable {crypto : CeSecrets} (v : Vault crypto) (env : Moment crypto)

theorem readToken_panics {token message : String} :
    readToken token = .error (.panic message) ↔ ∃ id secretText,
      Text.splitOnce token '.' = some (id, secretText) ∧
        b64Decode secretText = .error (.panic message) := by
  simp only [readToken, Outcome.bind_eq_error, Outcome.require_eq_error,
    Outcome.require_eq_ok, Abort.context_eq_panic]
  constructor
  · rintro (⟨-, h⟩ | ⟨⟨id, secretText⟩, htoken, hpanic | ⟨secret, -, h⟩⟩)
    · cases h
    · exact ⟨id, secretText, htoken, hpanic⟩
    · cases h
  · rintro ⟨id, secretText, htoken, hpanic⟩
    exact .inr ⟨(id, secretText), htoken, .inl hpanic⟩

/-- Behind the reading of its token a redemption has errors only. -/
theorem redeemEnrolTokenCall_panics {token label message : String} {s : OrdMap String Json} :
    ((v.redeemEnrolTokenCall env token label).run memStore s).1 = .error (.panic message) ↔
      readToken token = .error (.panic message) := by
  cases hread : readToken token with
  | error e => simp [redeemEnrolTokenCall, hread, run_bind]
  | ok parts =>
      have hsteps : ErrorsSatisfy memStore Abort.IsError
          (v.redeemEnrolTokenCall env token label) := by
        rw [redeemEnrolTokenCall, hread]
        refine .bind (errorsSatisfy_done fun e (h : Except.ok parts = .error e) => by cases h)
          fun _ => ?_
        refine .bind (errorsSatisfy_fetch _) fun _ => ?_
        refine .bind (errorsSatisfy_require ⟨_, rfl⟩ _) fun _ => ?_
        refine .bind (errorsSatisfy_mapError (fun _ => ⟨_, rfl⟩) (.done _)) fun _ => ?_
        refine .bind (errorsSatisfy_mapError (fun _ => ⟨_, rfl⟩) _) fun _ => ?_
        exact errorsSatisfy_remove _
      constructor
      · intro h
        obtain ⟨_, herror⟩ := hsteps s _ h
        cases herror
      · intro h
        cases h

/-- A redemption never panics on a token exactly when its secret can be cut into pairs as far as
these go, a text is decoded exactly when also no plus sign stands for a digit, and what is written
is read back. -/
theorem codec_exact_iff :
    (∀ token, (∀ label s message,
        ((v.redeemEnrolTokenCall env token label).run memStore s).1 ≠ .error (.panic message)) ↔
      ∀ id secretText, Text.splitOnce token '.' = some (id, secretText) → Cuttable secretText) ∧
    (∀ s, ExactOn s ↔ Cuttable s ∧ Unsigned s) ∧
    ∀ bs, b64Decode (b64Encode bs) = .ok bs := by
  refine ⟨fun token => ?_, exactOn_iff, b64Decode_encode⟩
  simp only [ne_eq, redeemEnrolTokenCall_panics]
  constructor
  · intro h id secretText htoken
    by_contra hcut
    obtain ⟨message, hpanic⟩ := b64Decode_panics.mpr hcut
    exact h "" ∅ message (readToken_panics.mpr ⟨id, secretText, htoken, hpanic⟩)
  · intro h label s message hpanic
    obtain ⟨id, secretText, htoken, hsecret⟩ := readToken_panics.mp hpanic
    exact b64Decode_panics.mp ⟨message, hsecret⟩ (h id secretText htoken)

/-- A euro sign after the dot makes a redemption panic, and a plus sign is decoded. -/
theorem codec_inexact :
    (¬ ∀ (crypto : CeSecrets) (v : Vault crypto) (env : Moment crypto) (token label : String)
        (s : OrdMap String Json) (message : String),
      ((v.redeemEnrolTokenCall env token label).run memStore s).1 ≠ .error (.panic message)) ∧
    ¬ ∀ s, (∃ bytes, b64Decode s = .ok bytes) ↔ HexText s := by
  constructor
  · intro hclaim
    have hcut : ¬ Cuttable "€a" := by decide +kernel
    obtain ⟨message, hpanic⟩ := b64Decode_panics.mpr hcut
    have htoken : Text.splitOnce "0.€a" '.' = some ("0", "€a") := by decide +kernel
    refine hclaim .symbolic ⟨laptop, "home"⟩ noon "0.€a" "" ∅ message ?_
    exact (redeemEnrolTokenCall_panics _ _).mpr (readToken_panics.mpr ⟨_, _, htoken, hpanic⟩)
  · intro hclaim
    have hread : b64Decode "+f" = .ok [15] := by decide +kernel
    have hhex : ¬ HexText "+f" := by
      rw [hexText_iff]
      decide +kernel
    exact hhex ((hclaim "+f").mp ⟨_, hread⟩)

end CeIam.Vault
