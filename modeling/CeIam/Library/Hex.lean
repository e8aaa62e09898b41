import CeIam.Library.Text
import Mathlib.Tactic.IntervalCases

/-! # Hexadecimal text

Bytes are written as two lower-case digits each; reading accepts either case. -/

namespace CeIam.Hex

/-- The value of one hexadecimal digit of either case. -/
def digitValue (c : Char) : Option ℕ :=
  if '0' ≤ c ∧ c ≤ '9' then some (c.toNat - 48)
  else if 'a' ≤ c ∧ c ≤ 'f' then some (c.toNat - 87)
  else if 'A' ≤ c ∧ c ≤ 'F' then some (c.toNat - 55)
  else none

def encodeByte (b : UInt8) : List Char :=
  [Nat.digitChar (b.toNat / 16), Nat.digitChar (b.toNat % 16)]

def encode (bs : List UInt8) : String := String.ofList (bs.flatMap encodeByte)

/-- Reads digits in pairs; an odd length or any other character is refused. -/
def decodeChars : List Char → Option (List UInt8)
  | [] => some []
  | [_] => none
  | a :: b :: rest => do
      let high ← digitValue a
      let low ← digitValue b
      let bytes ← decodeChars rest
      return UInt8.ofNat (16 * high + low) :: bytes

def decode (s : String) : Option (List UInt8) := decodeChars s.toList

theorem digitValue_digitChar : ∀ n < 16, digitValue (Nat.digitChar n) = some n := by
  intro n hn
  interval_cases n <;> rfl

private theorem toNat_le_of_digitValue {c : Char} {n : ℕ} (h : digitValue c = some n) :
    c.toNat ≤ 'f'.toNat := by
  have hbounds : ∀ a b : Char, a ≤ b ↔ a.toNat ≤ b.toNat := fun a b => Iff.rfl
  simp only [digitValue, hbounds] at h
  split_ifs at h with hdigit hlower hupper
  · exact hdigit.2.trans (by decide)
  · exact hlower.2
  · exact hupper.2.trans (by decide)

private theorem digitValue_ascii : ∀ m ≤ 'f'.toNat, ∀ n ∈ digitValue (Char.ofNat m),
    n < 16 ∧ Nat.digitChar n = (Char.ofNat m).toLower := by decide

/-- A digit is the lower-case one of its value, in one case or the other. -/
theorem digitValue_eq_some {c : Char} {n : ℕ} (h : digitValue c = some n) :
    n < 16 ∧ Nat.digitChar n = c.toLower := by
  have hread := digitValue_ascii c.toNat (toNat_le_of_digitValue h) n
  rw [Char.ofNat_toNat] at hread
  exact hread h

theorem utf8Size_of_digitValue {c : Char} {n : ℕ} (h : digitValue c = some n) :
    c.utf8Size = 1 := by
  have hle := toNat_le_of_digitValue h
  exact Char.utf8Size_eq_one_iff.mpr (UInt32.le_iff_toNat_le.mpr (hle.trans (by decide)))

private theorem decodeChars_encodeByte (b : UInt8) (rest : List Char) :
    decodeChars (encodeByte b ++ rest) = (decodeChars rest).map (b :: ·) := by
  have hb : b.toNat < 256 := b.toNat_lt
  have hhigh := digitValue_digitChar (b.toNat / 16) (by omega)
  have hlow := digitValue_digitChar (b.toNat % 16) (by omega)
  have hbyte : 16 * (b.toNat / 16) + b.toNat % 16 = b.toNat := by omega
  simp only [encodeByte, List.cons_append, List.nil_append, decodeChars, hhigh, hlow,
    Option.bind_eq_bind, Option.bind_some, hbyte, UInt8.ofNat_toNat]
  cases decodeChars rest <;> rfl

/-- Written bytes read back. -/
theorem decode_encode (bs : List UInt8) : decode (encode bs) = some bs := by
  rw [decode, encode, String.toList_ofList]
  induction bs with
  | nil => rfl
  | cons b bs ih => rw [List.flatMap_cons, decodeChars_encodeByte, ih, Option.map_some]

theorem encode_injective : Function.Injective encode := by
  intro a b h
  have hread := congrArg decode h
  simpa [decode_encode] using hread

theorem length_encode (bs : List UInt8) : (encode bs).toList.length = 2 * bs.length := by
  rw [encode, String.toList_ofList]
  induction bs with
  | nil => rfl
  | cons b bs ih =>
      rw [List.flatMap_cons, List.length_append, ih, List.length_cons]
      simp only [encodeByte, List.length_cons, List.length_nil]
      omega

theorem mem_encode {bs : List UInt8} {c : Char} (h : c ∈ (encode bs).toList) :
    ∃ n < 16, c = Nat.digitChar n := by
  rw [encode, String.toList_ofList, List.mem_flatMap] at h
  obtain ⟨b, -, hc⟩ := h
  have hb : b.toNat < 256 := b.toNat_lt
  simp only [encodeByte, List.mem_cons, List.not_mem_nil, or_false] at hc
  rcases hc with rfl | rfl
  · exact ⟨_, by omega, rfl⟩
  · exact ⟨_, by omega, rfl⟩

/-- Only digits are written. -/
theorem notMem_encode {c : Char} (h : digitValue c = none) (bs : List UInt8) :
    c ∉ (encode bs).toList := by
  intro hc
  obtain ⟨n, hn, rfl⟩ := mem_encode hc
  rw [digitValue_digitChar n hn] at h
  cases h

theorem startsWith_encode {p : String} {c : Char} (hc : c ∈ p.toList)
    (h : digitValue c = none) (bs : List UInt8) : Text.startsWith (encode bs) p = false := by
  refine Bool.eq_false_iff.mpr fun hstarts => ?_
  obtain ⟨rest, hrest⟩ := Text.startsWith_iff.mp hstarts
  refine notMem_encode h bs ?_
  rw [hrest, String.toList_append]
  exact List.mem_append_left _ hc

private theorem toLower_digitChar : ∀ n < 16, (Nat.digitChar n).toLower = Nat.digitChar n := by
  intro n hn
  interval_cases n <;> rfl

@[simp] theorem toAsciiLowercase_encode (bs : List UInt8) :
    Text.toAsciiLowercase (encode bs) = encode bs := by
  rw [Text.toAsciiLowercase, List.map_congr_left, List.map_id, String.ofList_toList]
  intro c hc
  obtain ⟨n, hn, rfl⟩ := mem_encode hc
  exact toLower_digitChar n hn

private theorem digitChar_not_white : ∀ n < 16, Text.isWhiteSpace (Nat.digitChar n) = false := by
  intro n hn
  interval_cases n <;> rfl

private theorem encode_not_white (bs : List UInt8) :
    ∀ c ∈ (encode bs).toList, Text.isWhiteSpace c = false := by
  intro c hc
  obtain ⟨n, hn, rfl⟩ := mem_encode hc
  exact digitChar_not_white n hn

/-- Hexadecimal text has no white space to trim. -/
@[simp] theorem trim_encode (bs : List UInt8) : Text.trim (encode bs) = encode bs :=
  Text.trim_eq_self (encode_not_white bs)

private theorem utf8Size_digitChar : ∀ n < 16, (Nat.digitChar n).utf8Size = 1 := by
  intro n hn
  interval_cases n <;> rfl

theorem utf8ByteSize_encode (bs : List UInt8) : (encode bs).utf8ByteSize = 2 * bs.length := by
  induction bs with
  | nil => rfl
  | cons b bs ih =>
      have hb : b.toNat < 256 := b.toNat_lt
      have hsplit : encode (b :: bs) = String.singleton (Nat.digitChar (b.toNat / 16)) ++
          String.singleton (Nat.digitChar (b.toNat % 16)) ++ encode bs := by
        apply String.toList_injective
        simp [encode, encodeByte]
      rw [hsplit, String.utf8ByteSize_append, String.utf8ByteSize_append,
        String.utf8ByteSize_singleton, String.utf8ByteSize_singleton,
        utf8Size_digitChar _ (by omega), utf8Size_digitChar _ (by omega), ih, List.length_cons]
      omega

/-- A key of 32 equal bytes. -/
def filled (b : UInt8) : {bytes : List UInt8 // bytes.length = 32} :=
  ⟨List.replicate 32 b, List.length_replicate⟩

end CeIam.Hex
