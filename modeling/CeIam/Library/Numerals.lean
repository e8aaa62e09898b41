import CeIam.Library.Text

/-! # Padded decimal numerals

Numerals with leading zeros. Those of one width are ordered like the numbers they stand for. -/

namespace CeIam.Numerals

/-- The digits of a number, with zeros in front up to a width. -/
def digits (width n : ℕ) : List Char :=
  List.replicate (width - (Nat.toDigits 10 n).length) '0' ++ Nat.toDigits 10 n

def padded (width n : ℕ) : String := String.ofList (digits width n)

/-- The numeral of an integer, whose sign takes one place of the width. -/
def paddedInt (width : ℕ) : ℤ → String
  | .ofNat n => padded width n
  | .negSucc n => "-" ++ padded (width - 1) (n + 1)

@[simp] theorem toList_padded (width n : ℕ) : (padded width n).toList = digits width n :=
  String.toList_ofList

theorem paddedInt_of_nonneg {n : ℤ} (width : ℕ) (h : 0 ≤ n) :
    paddedInt width n = padded width n.toNat := by
  obtain ⟨k, rfl⟩ := Int.eq_ofNat_of_zero_le h
  rfl

/-! ## Values -/

theorem isDigit_of_mem_digits {width n : ℕ} {c : Char} (h : c ∈ digits width n) :
    c.isDigit = true := by
  rcases List.mem_append.mp h with hzero | hdigit
  · rw [List.eq_of_mem_replicate hzero]
    rfl
  · exact Nat.isDigit_of_mem_toDigits (by decide) le_rfl hdigit

theorem ofDigitChars_digits (width n : ℕ) : Nat.ofDigitChars 10 (digits width n) 0 = n := by
  rw [digits, Nat.ofDigitChars_append, Nat.ofDigitChars_replicate_zero, Nat.mul_zero,
    Nat.ofDigitChars_ten_toDigits]

theorem digits_injective (width : ℕ) : Function.Injective (digits width) := by
  intro m n h
  have hvalue := congrArg (Nat.ofDigitChars 10 · 0) h
  simpa only [ofDigitChars_digits] using hvalue

theorem length_digits {width n : ℕ} (hwidth : 0 < width) (hn : n < 10 ^ width) :
    (digits width n).length = width := by
  have hle := (Nat.length_toDigits_le_iff (by decide) hwidth).mpr hn
  rw [digits, List.length_append, List.length_replicate]
  omega

/-! ## Order -/

private theorem ofDigitChars_cons_zero (c : Char) (cs : List Char) :
    Nat.ofDigitChars 10 (c :: cs) 0 =
      10 ^ cs.length * (c.toNat - '0'.toNat) + Nat.ofDigitChars 10 cs 0 := by
  rw [Nat.ofDigitChars_cons, Nat.ofDigitChars_eq_ofDigitChars_zero, Nat.mul_zero, Nat.zero_add]

/-- A numeral stands for a number that its length allows. -/
theorem ofDigitChars_lt {cs : List Char} (h : ∀ c ∈ cs, c.isDigit = true) :
    Nat.ofDigitChars 10 cs 0 < 10 ^ cs.length := by
  induction cs with
  | nil => decide
  | cons c cs ih =>
      obtain ⟨hc, hcs⟩ := List.forall_mem_cons.mp h
      have hdigit : c.toNat - '0'.toNat + 1 ≤ 10 := by
        have hbounds : c.toNat ≤ 57 := (Char.isDigit_iff_toNat.mp hc).2
        change c.toNat - 48 + 1 ≤ 10
        omega
      calc
        Nat.ofDigitChars 10 (c :: cs) 0
            < 10 ^ cs.length * (c.toNat - '0'.toNat) + 10 ^ cs.length := by
          rw [ofDigitChars_cons_zero]
          exact Nat.add_lt_add_left (ih hcs) _
        _ = 10 ^ cs.length * (c.toNat - '0'.toNat + 1) := rfl
        _ ≤ 10 ^ cs.length * 10 := Nat.mul_le_mul_left _ hdigit

private theorem ofDigitChars_lt_of_head {c d : Char} {cs ds : List Char}
    (hlength : cs.length = ds.length) (hcs : ∀ c ∈ cs, c.isDigit = true)
    (hc : 48 ≤ c.toNat) (h : c < d) :
    Nat.ofDigitChars 10 (c :: cs) 0 < Nat.ofDigitChars 10 (d :: ds) 0 := by
  have hdigit : c.toNat - '0'.toNat + 1 ≤ d.toNat - '0'.toNat := by
    have hlt : c.toNat < d.toNat := h
    change c.toNat - 48 + 1 ≤ d.toNat - 48
    omega
  calc
    Nat.ofDigitChars 10 (c :: cs) 0
        < 10 ^ ds.length * (c.toNat - '0'.toNat) + 10 ^ ds.length := by
      rw [ofDigitChars_cons_zero, hlength]
      exact Nat.add_lt_add_left (hlength ▸ ofDigitChars_lt hcs) _
    _ = 10 ^ ds.length * (c.toNat - '0'.toNat + 1) := rfl
    _ ≤ 10 ^ ds.length * (d.toNat - '0'.toNat) := Nat.mul_le_mul_left _ hdigit
    _ ≤ Nat.ofDigitChars 10 (d :: ds) 0 := by
      rw [ofDigitChars_cons_zero]
      exact Nat.le_add_right _ _

/-- Numerals of one length are ordered like their values. -/
theorem ofDigitChars_lt_iff {cs ds : List Char} (hlength : cs.length = ds.length)
    (hcs : ∀ c ∈ cs, c.isDigit = true) (hds : ∀ d ∈ ds, d.isDigit = true) :
    Nat.ofDigitChars 10 cs 0 < Nat.ofDigitChars 10 ds 0 ↔ cs < ds := by
  induction cs generalizing ds with
  | nil =>
      cases ds with
      | nil => simp
      | cons d ds => cases hlength
  | cons c cs ih =>
      cases ds with
      | nil => cases hlength
      | cons d ds =>
          have htails : cs.length = ds.length := Nat.succ.inj hlength
          obtain ⟨hc, hcs'⟩ := List.forall_mem_cons.mp hcs
          obtain ⟨hd, hds'⟩ := List.forall_mem_cons.mp hds
          have hc' := (Char.isDigit_iff_toNat.mp hc).1
          have hd' := (Char.isDigit_iff_toNat.mp hd).1
          rw [List.cons_lt_cons_iff]
          rcases lt_trichotomy c d with hlt | rfl | hgt
          · exact iff_of_true (ofDigitChars_lt_of_head htails hcs' hc' hlt) (.inl hlt)
          · rw [ofDigitChars_cons_zero, ofDigitChars_cons_zero, htails,
              Nat.add_lt_add_iff_left, ih htails hcs' hds']
            simp
          · refine iff_of_false (ofDigitChars_lt_of_head htails.symm hds' hd' hgt).asymm ?_
            rintro (hlt | ⟨heq, -⟩)
            · exact hlt.asymm hgt
            · exact hgt.ne heq.symm

theorem digits_lt_iff {width m n : ℕ} (hwidth : 0 < width) (hm : m < 10 ^ width)
    (hn : n < 10 ^ width) : digits width m < digits width n ↔ m < n := by
  have hlength := (length_digits hwidth hm).trans (length_digits hwidth hn).symm
  rw [← ofDigitChars_lt_iff hlength (fun _ => isDigit_of_mem_digits)
    (fun _ => isDigit_of_mem_digits), ofDigitChars_digits, ofDigitChars_digits]

/-! ## Fields -/

/-- Numerals of some widths, each with a separator behind it. -/
def fields : List (ℕ × Char) → List ℕ → List Char
  | (width, sep) :: layout, n :: ns => digits width n ++ sep :: fields layout ns
  | _, _ => []

/-- Each number fits into the width of its field. -/
def Fits (layout : List (ℕ × Char)) (ns : List ℕ) : Prop :=
  List.Forall₂ (fun field n => 0 < field.1 ∧ n < 10 ^ field.1) layout ns

theorem append_lt_append_iff {as bs xs ys : List Char} (hlength : as.length = bs.length) :
    as ++ xs < bs ++ ys ↔ as < bs ∨ as = bs ∧ xs < ys := by
  induction as generalizing bs with
  | nil =>
      cases bs with
      | nil => simp
      | cons b bs => cases hlength
  | cons a as ih =>
      cases bs with
      | nil => cases hlength
      | cons b bs =>
          simp only [List.cons_append, List.cons_lt_cons_iff, ih (Nat.succ.inj hlength),
            List.cons.injEq]
          tauto

/-- Texts of one layout are ordered like the numbers in them. -/
theorem fields_lt_iff {layout : List (ℕ × Char)} {ms ns : List ℕ} (hms : Fits layout ms)
    (hns : Fits layout ns) : fields layout ms < fields layout ns ↔ ms < ns := by
  induction hms generalizing ns with
  | nil =>
      cases hns
      simp [fields]
  | cons hm hms ih =>
      cases hns with
      | cons hn hns =>
          have hlength := (length_digits hm.1 hm.2).trans (length_digits hn.1 hn.2).symm
          rw [fields, fields, append_lt_append_iff hlength, digits_lt_iff hm.1 hm.2 hn.2,
            (digits_injective _).eq_iff, List.cons_lt_cons_iff, List.cons_lt_cons_iff, ih hns]
          simp only [lt_irrefl, false_or, true_and]

/-- Texts of one layout have the same numbers, whether these fit or not. -/
theorem fields_inj {layout : List (ℕ × Char)} {ms ns : List ℕ}
    (hseps : ∀ field ∈ layout, field.2.isDigit = false) (hms : ms.length = layout.length)
    (hns : ns.length = layout.length) (h : fields layout ms = fields layout ns) : ms = ns := by
  induction layout generalizing ms ns with
  | nil => rw [List.length_eq_zero_iff.mp hms, List.length_eq_zero_iff.mp hns]
  | cons field layout ih =>
      obtain ⟨width, sep⟩ := field
      obtain ⟨hsep, hseps⟩ := List.forall_mem_cons.mp hseps
      obtain ⟨m, ms, rfl⟩ := List.exists_cons_of_length_eq_add_one hms
      obtain ⟨n, ns, rfl⟩ := List.exists_cons_of_length_eq_add_one hns
      have hfront : ∀ (k : ℕ) (rest : List Char),
          (digits width k ++ sep :: rest).takeWhile Char.isDigit = digits width k := by
        intro k rest
        rw [List.takeWhile_append_of_pos fun c => isDigit_of_mem_digits,
          List.takeWhile_cons_of_neg (by simpa using hsep), List.append_nil]
      have hdigits := congrArg (List.takeWhile Char.isDigit) h
      rw [fields, fields, hfront, hfront] at hdigits
      cases digits_injective width hdigits
      have hrest := (List.cons.inj (List.append_cancel_left h)).2
      rw [ih hseps (Nat.succ.inj hms) (Nat.succ.inj hns) hrest]

end CeIam.Numerals
