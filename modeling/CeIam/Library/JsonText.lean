import CeIam.Library.Json
import Mathlib.Data.List.Basic
import Mathlib.Tactic.IntervalCases

/-! # JSON text

Values are printed on one line or indented, after the same grammar. Printing is
injective in both layouts: the text that follows a value is recovered with it. -/

namespace CeIam.Json

/-- What is put before an element at a nesting depth, and between a key and its value. -/
structure Layout where
  newline : ℕ → List Char
  colon : List Char
  blank : ∀ depth, ∀ c ∈ newline depth, c = ' ' ∨ c = '\n'

/-- No white space at all. -/
def oneLine : Layout where
  newline _ := []
  colon := [':']
  blank := by simp

/-- Two spaces for each level. -/
def indented : Layout where
  newline depth := '\n' :: List.replicate (2 * depth) ' '
  colon := [':', ' ']
  blank := by
    intro depth c hc
    rcases List.mem_cons.mp hc with rfl | hc
    · exact .inr rfl
    · exact .inl (List.eq_of_mem_replicate hc)

/-- The two low hexadecimal digits of a control character's number. -/
def hexDigits (n : ℕ) : List Char := [Nat.digitChar (n / 16), Nat.digitChar (n % 16)]

def escapeChar (c : Char) : List Char :=
  if c = '"' then ['\\', '"']
  else if c = '\\' then ['\\', '\\']
  else if c.toNat = 8 then ['\\', 'b']
  else if c.toNat = 9 then ['\\', 't']
  else if c.toNat = 10 then ['\\', 'n']
  else if c.toNat = 12 then ['\\', 'f']
  else if c.toNat = 13 then ['\\', 'r']
  else if c.toNat < 32 then '\\' :: 'u' :: '0' :: '0' :: hexDigits c.toNat
  else [c]

def quote (s : String) : List Char :=
  '"' :: s.toList.flatMap escapeChar ++ ['"']

theorem quote_ofList (cs : List Char) :
    quote (String.ofList cs) = '"' :: cs.flatMap escapeChar ++ ['"'] := by
  rw [quote, String.toList_ofList]

mutual

/-- The text of a value at a nesting depth. -/
def render (l : Layout) (depth : ℕ) : Json → List Char
  | .null => ['n', 'u', 'l', 'l']
  | .bool true => ['t', 'r', 'u', 'e']
  | .bool false => ['f', 'a', 'l', 's', 'e']
  | .int n => n.repr.toList
  | .float x => x.text
  | .str s => quote s
  | .arr [] => ['[', ']']
  | .arr (x :: xs) =>
      '[' :: l.newline (depth + 1) ++ render l (depth + 1) x ++
        renderItems l (depth + 1) xs ++ l.newline depth ++ [']']
  | .obj [] => ['{', '}']
  | .obj ((k, v) :: fields) =>
      '{' :: l.newline (depth + 1) ++ quote k ++ l.colon ++ render l (depth + 1) v ++
        renderFields l (depth + 1) fields ++ l.newline depth ++ ['}']

def renderItems (l : Layout) (depth : ℕ) : List Json → List Char
  | [] => []
  | x :: xs => ',' :: l.newline depth ++ render l depth x ++ renderItems l depth xs

def renderFields (l : Layout) (depth : ℕ) : List (String × Json) → List Char
  | [] => []
  | (k, v) :: fields =>
      ',' :: l.newline depth ++ quote k ++ l.colon ++ render l depth v ++
        renderFields l depth fields

end

/-- One-line text. -/
def compact (j : Json) : String := String.ofList (render oneLine 0 j)

/-- Indented text. -/
def pretty (j : Json) : String := String.ofList (render indented 0 j)

example : compact (.obj [("a", .arr [.int (-3), .null]), ("b", .str "x\"y")]) =
    "\x7b\"a\":[-3,null],\"b\":\"x\\\"y\"\x7d" := by decide

example : pretty (.obj [("a", .arr [.int 1]), ("b", .obj [])]) =
    "\x7b\n  \"a\": [\n    1\n  ],\n  \"b\": \x7b\x7d\n\x7d" := by decide

/-- The text of an object has a brace. -/
theorem brace_mem_pretty_obj (fields : List (String × Json)) :
    '{' ∈ (pretty (.obj fields)).toList := by
  rw [pretty, String.toList_ofList]
  cases fields with
  | nil => simp [render]
  | cons e fields => simp [render]

/-! ## Strings -/

/-- Reads back the character behind the text `escapeChar` wrote for it. -/
private def unescape : List Char → Option (Char × List Char)
  | '\\' :: '"' :: t => some ('"', t)
  | '\\' :: '\\' :: t => some ('\\', t)
  | '\\' :: 'b' :: t => some (Char.ofNat 8, t)
  | '\\' :: 't' :: t => some (Char.ofNat 9, t)
  | '\\' :: 'n' :: t => some (Char.ofNat 10, t)
  | '\\' :: 'f' :: t => some (Char.ofNat 12, t)
  | '\\' :: 'r' :: t => some (Char.ofNat 13, t)
  | '\\' :: 'u' :: '0' :: '0' :: a :: b :: t =>
      let value (d : Char) : ℕ := if d.isDigit then d.toNat - 48 else d.toNat - 87
      some (Char.ofNat (16 * value a + value b), t)
  | c :: t => some (c, t)
  | [] => none

private theorem unescape_control : ∀ n < 32, ∀ t : List Char,
    unescape ('\\' :: 'u' :: '0' :: '0' :: hexDigits n ++ t) = some (Char.ofNat n, t) := by
  intro n hn t
  interval_cases n <;> rfl

private theorem unescape_escapeChar (c : Char) (t : List Char) :
    unescape (escapeChar c ++ t) = some (c, t) := by
  have hback : ∀ n, c.toNat = n → Char.ofNat n = c := by
    rintro n rfl
    exact Char.ofNat_toNat c
  unfold escapeChar
  split
  · next h => subst h; rfl
  split
  · next h => subst h; rfl
  split
  · next h => simpa [unescape] using hback 8 h
  split
  · next h => simpa [unescape] using hback 9 h
  split
  · next h => simpa [unescape] using hback 10 h
  split
  · next h => simpa [unescape] using hback 12 h
  split
  · next h => simpa [unescape] using hback 13 h
  split
  · next h =>
      have hcontrol := unescape_control c.toNat h t
      rw [hback c.toNat rfl] at hcontrol
      exact hcontrol
  · next hq hs _ _ _ _ _ _ => simp [unescape, hs]

private theorem escapeChar_append_inj {c d : Char} {s t : List Char}
    (h : escapeChar c ++ s = escapeChar d ++ t) : c = d ∧ s = t := by
  have hread := congrArg unescape h
  simpa [unescape_escapeChar] using hread

private theorem escapeChar_append_ne_quote (c : Char) (s t : List Char) :
    escapeChar c ++ s ≠ '"' :: t := by
  intro h
  have hread := congrArg unescape h
  rw [unescape_escapeChar] at hread
  obtain ⟨rfl, rfl⟩ : c = '"' ∧ s = t := by simpa [unescape] using hread
  simp [escapeChar] at h

private theorem quoted_append_inj (cs ds s t : List Char)
    (h : cs.flatMap escapeChar ++ '"' :: s = ds.flatMap escapeChar ++ '"' :: t) :
    cs = ds ∧ s = t := by
  induction cs generalizing ds with
  | nil =>
      cases ds with
      | nil => simpa using h
      | cons d ds =>
          simp only [List.flatMap_nil, List.nil_append, List.flatMap_cons,
            List.append_assoc] at h
          exact (escapeChar_append_ne_quote _ _ _ h.symm).elim
  | cons c cs ih =>
      cases ds with
      | nil =>
          simp only [List.flatMap_nil, List.nil_append, List.flatMap_cons,
            List.append_assoc] at h
          exact (escapeChar_append_ne_quote _ _ _ h).elim
      | cons d ds =>
          simp only [List.flatMap_cons, List.append_assoc] at h
          obtain ⟨rfl, hrest⟩ := escapeChar_append_inj h
          obtain ⟨rfl, rfl⟩ := ih ds hrest
          exact ⟨rfl, rfl⟩

theorem quote_append_inj {a b : String} {s t : List Char}
    (h : quote a ++ s = quote b ++ t) : a = b ∧ s = t := by
  simp only [quote, List.cons_append, List.append_assoc, List.cons.injEq, true_and,
    List.nil_append] at h
  obtain ⟨hlist, rfl⟩ := quoted_append_inj _ _ _ _ h
  exact ⟨String.toList_inj.mp hlist, rfl⟩

/-! ## Numbers -/

/-- A character of a numeral. -/
def isNumeral (c : Char) : Bool := c.isDigit || c ∈ ['-', '+', '.', 'e', 'E']

/-- A text that cannot continue a numeral. -/
def Stops (s : List Char) : Prop := ∀ c ∈ s.head?, isNumeral c = false

private theorem token_append_inj {u v s t : List Char} (hu : ∀ c ∈ u, isNumeral c = true)
    (hv : ∀ c ∈ v, isNumeral c = true) (hs : Stops s) (ht : Stops t)
    (h : u ++ s = v ++ t) : u = v ∧ s = t := by
  induction u generalizing v with
  | nil =>
      cases v with
      | nil => exact ⟨rfl, h⟩
      | cons d v =>
          have hd := hs d (by simp only [List.nil_append] at h; simp [h])
          simp [hv d List.mem_cons_self] at hd
  | cons c u ih =>
      cases v with
      | nil =>
          have hc := ht c (by simp only [List.nil_append] at h; simp [← h])
          simp [hu c List.mem_cons_self] at hc
      | cons d v =>
          simp only [List.cons_append, List.cons.injEq] at h
          obtain ⟨rfl, rfl⟩ := ih (fun x hx => hu x (List.mem_cons_of_mem c hx))
            (fun x hx => hv x (List.mem_cons_of_mem d hx)) h.2
          exact ⟨by rw [h.1], rfl⟩

private theorem repr_chars (n : ℤ) : ∀ c ∈ n.repr.toList, c.isDigit = true ∨ c = '-' := by
  intro c hc
  rw [Int.repr_eq_if] at hc
  split at hc
  · rw [Nat.toList_repr] at hc
    exact .inl (Nat.isDigit_of_mem_toDigits (by decide) le_rfl hc)
  · rw [String.toList_append, Nat.toList_repr, List.mem_append] at hc
    rcases hc with hc | hc
    · exact .inr (by simpa using hc)
    · exact .inl (Nat.isDigit_of_mem_toDigits (by decide) le_rfl hc)

private theorem repr_ne_nil (n : ℤ) : n.repr.toList ≠ [] := by
  rw [Int.repr_eq_if]
  split
  · rw [Nat.toList_repr]
    exact Nat.toDigits_ne_nil
  · simp

private theorem natRepr_inj {m n : ℕ} (h : m.repr = n.repr) : m = n := by
  have hdigits : Nat.toDigits 10 m = Nat.toDigits 10 n := by
    rw [← Nat.toList_repr, ← Nat.toList_repr, h]
  have hvalue := congrArg (fun ds => Nat.ofDigitChars 10 ds 0) hdigits
  simpa [Nat.ofDigitChars_toDigits] using hvalue

private theorem natRepr_ne_neg (m : ℕ) (s : String) : m.repr ≠ "-" ++ s := by
  intro h
  have hmem : '-' ∈ m.repr.toList := by rw [h]; simp
  rw [Nat.toList_repr] at hmem
  have hdigit := Nat.isDigit_of_mem_toDigits (by decide) le_rfl hmem
  simp at hdigit

theorem intRepr_inj {m n : ℤ} (h : m.repr = n.repr) : m = n := by
  rw [Int.repr_eq_if, Int.repr_eq_if] at h
  split at h <;> split at h
  · have hnat := natRepr_inj h
    omega
  · exact (natRepr_ne_neg _ _ h).elim
  · exact (natRepr_ne_neg _ _ h.symm).elim
  · have hnat := natRepr_inj ((Text.append_right_inj _ _ _).mp h)
    omega

/-! ## Values -/

/-- What kind of value a first character announces; the closing brackets and the comma
announce none. -/
private def announces (c : Char) : ℕ :=
  if c = 'n' then 0 else if c = 't' then 1 else if c = 'f' then 2
  else if c = '"' then 3 else if c = '[' then 4 else if c = '{' then 5
  else if isNumeral c then 6 else 7

private def kind : Json → ℕ
  | .null => 0
  | .bool true => 1
  | .bool false => 2
  | .str _ => 3
  | .arr _ => 4
  | .obj _ => 5
  | .int _ => 6
  | .float _ => 6

private theorem announces_numeral {c : Char} (h : isNumeral c = true) : announces c = 6 := by
  unfold announces
  split_ifs with h1 h2 h3 h4 h5 h6
  all_goals first | rfl | (subst_vars; simp [isNumeral] at h)

private theorem int_numeral (n : ℤ) : ∀ c ∈ n.repr.toList, isNumeral c = true := by
  intro c hc
  rcases repr_chars n c hc with h | rfl <;> simp [isNumeral, *]

private theorem float_numeral (x : FloatText) : ∀ c ∈ x.text, isNumeral c = true := by
  intro c hc
  simpa [isNumeral] using x.numeral c hc

private theorem int_ne_float (n : ℤ) (x : FloatText) : n.repr.toList ≠ x.text := by
  intro h
  have hno : ∀ c ∈ ['.', 'e', 'E'], c ∉ n.repr.toList := by
    intro c hc hmem
    simp only [List.mem_cons, List.not_mem_nil, or_false] at hc
    have hd := repr_chars n c hmem
    rcases hc with rfl | rfl | rfl <;> simp at hd
  rcases x.marked with hm | hm | hm
  · exact hno '.' (by simp) (h ▸ hm)
  · exact hno 'e' (by simp) (h ▸ hm)
  · exact hno 'E' (by simp) (h ▸ hm)

/-- A printed value begins with a character that announces its kind. -/
private theorem render_head (l : Layout) (depth : ℕ) (j : Json) :
    ∃ c rest, render l depth j = c :: rest ∧ announces c = kind j := by
  cases j with
  | null => exact ⟨_, _, rfl, rfl⟩
  | bool b => cases b <;> exact ⟨_, _, rfl, rfl⟩
  | int n =>
      obtain ⟨c, rest, hc⟩ := List.exists_cons_of_ne_nil (repr_ne_nil n)
      exact ⟨c, rest, by rw [render, hc],
        announces_numeral (int_numeral n c (hc ▸ List.mem_cons_self))⟩
  | float x =>
      have hne : x.text ≠ [] := by
        rcases x.marked with h | h | h <;> exact List.ne_nil_of_mem h
      obtain ⟨c, rest, hc⟩ := List.exists_cons_of_ne_nil hne
      exact ⟨c, rest, by rw [render, hc],
        announces_numeral (float_numeral x c (hc ▸ List.mem_cons_self))⟩
  | str s => exact ⟨_, _, rfl, rfl⟩
  | arr xs => cases xs <;> exact ⟨_, _, rfl, rfl⟩
  | obj fields =>
      cases fields with
      | nil => exact ⟨_, _, rfl, rfl⟩
      | cons e fields => exact ⟨_, _, rfl, rfl⟩

private theorem kind_eq {l : Layout} {depth : ℕ} {a b : Json} {s t : List Char}
    (h : render l depth a ++ s = render l depth b ++ t) : kind a = kind b := by
  obtain ⟨c, u, hc, hca⟩ := render_head l depth a
  obtain ⟨d, v, hd, hdb⟩ := render_head l depth b
  rw [hc, hd, List.cons_append, List.cons_append, List.cons.injEq] at h
  rw [← hca, ← hdb, h.1]

private theorem stops_of_head {c : Char} {s : List Char} (h : isNumeral c = false) :
    Stops (c :: s) := by
  intro d hd
  obtain rfl : c = d := by simpa using hd
  exact h

/-- After an element there is white space or a closing bracket. -/
private theorem stops_close (l : Layout) (depth : ℕ) {c : Char} (s : List Char)
    (h : isNumeral c = false) : Stops (l.newline depth ++ c :: s) := by
  cases hn : l.newline depth with
  | nil => exact stops_of_head h
  | cons b rest =>
      apply stops_of_head
      rcases l.blank depth b (hn ▸ List.mem_cons_self) with rfl | rfl <;> rfl

private theorem stops_items (l : Layout) (depth outer : ℕ) (xs : List Json) (s : List Char) :
    Stops (renderItems l depth xs ++ (l.newline outer ++ ']' :: s)) := by
  cases xs with
  | nil => exact stops_close l outer s rfl
  | cons x xs => exact stops_of_head rfl

private theorem stops_fields (l : Layout) (depth outer : ℕ)
    (fields : List (String × Json)) (s : List Char) :
    Stops (renderFields l depth fields ++ (l.newline outer ++ '}' :: s)) := by
  cases fields with
  | nil => exact stops_close l outer s rfl
  | cons e fields => exact stops_of_head rfl

/-- White space and a closing bracket are not read as a comma. -/
private theorem close_ne_comma (l : Layout) (depth : ℕ) {c : Char} (s t : List Char)
    (h : c ≠ ',') : l.newline depth ++ c :: s ≠ ',' :: t := by
  intro heq
  cases hn : l.newline depth with
  | nil => simp [hn, h] at heq
  | cons b rest =>
      have hb := l.blank depth b (hn ▸ List.mem_cons_self)
      rw [hn] at heq
      obtain rfl : b = ',' := by simpa using congrArg List.head? heq
      simp at hb

/-- The first element of an array is not read as its closing bracket. -/
private theorem open_ne_close (l : Layout) (depth : ℕ) (j : Json) (s t : List Char) :
    l.newline depth ++ (render l depth j ++ s) ≠ ']' :: t := by
  intro heq
  cases hn : l.newline depth with
  | nil =>
      obtain ⟨c, rest, hc, hk⟩ := render_head l depth j
      rw [hn, hc] at heq
      obtain rfl : c = ']' := by simpa using congrArg List.head? heq
      have hseven : announces ']' = 7 := by decide
      rw [hseven] at hk
      cases j with
      | bool b => cases b <;> simp [kind] at hk
      | _ => simp [kind] at hk
  | cons b rest =>
      have hb := l.blank depth b (hn ▸ List.mem_cons_self)
      rw [hn] at heq
      obtain rfl : b = ']' := by simpa using congrArg List.head? heq
      simp at hb

private theorem key_ne_close (l : Layout) (depth : ℕ) (k : String) (s t : List Char) :
    l.newline depth ++ (quote k ++ s) ≠ '}' :: t := by
  intro heq
  cases hn : l.newline depth with
  | nil => simp [hn, quote] at heq
  | cons b rest =>
      have hb := l.blank depth b (hn ▸ List.mem_cons_self)
      rw [hn] at heq
      obtain rfl : b = '}' := by simpa using congrArg List.head? heq
      simp at hb

private theorem number_append_inj {a b : Json} {l : Layout} {depth : ℕ} {s t : List Char}
    (ha : kind a = 6) (hb : kind b = 6) (hs : Stops s) (ht : Stops t)
    (h : render l depth a ++ s = render l depth b ++ t) : a = b ∧ s = t := by
  cases a with
  | int m =>
      cases b with
      | int n =>
          obtain ⟨hrepr, rfl⟩ :=
            token_append_inj (int_numeral m) (int_numeral n) hs ht (by simpa [render] using h)
          exact ⟨by rw [intRepr_inj (String.toList_inj.mp hrepr)], rfl⟩
      | float y =>
          obtain ⟨hrepr, -⟩ :=
            token_append_inj (int_numeral m) (float_numeral y) hs ht (by simpa [render] using h)
          exact (int_ne_float m y hrepr).elim
      | bool b => cases b <;> simp [kind] at hb
      | _ => simp [kind] at hb
  | float x =>
      cases b with
      | int n =>
          obtain ⟨hrepr, -⟩ :=
            token_append_inj (float_numeral x) (int_numeral n) hs ht (by simpa [render] using h)
          exact (int_ne_float n x hrepr.symm).elim
      | float y =>
          obtain ⟨htext, rfl⟩ :=
            token_append_inj (float_numeral x) (float_numeral y) hs ht
              (by simpa [render] using h)
          obtain ⟨_, _, _⟩ := x
          obtain ⟨_, _, _⟩ := y
          cases htext
          exact ⟨rfl, rfl⟩
      | bool b => cases b <;> simp [kind] at hb
      | _ => simp [kind] at hb
  | bool b => cases b <;> simp [kind] at ha
  | _ => simp [kind] at ha

mutual

/-- A value and the text after it are both determined by their text together, when what
follows cannot continue a numeral. -/
theorem render_append_inj (l : Layout) : ∀ (a b : Json) (depth : ℕ) (s t : List Char),
    Stops s → Stops t → render l depth a ++ s = render l depth b ++ t → a = b ∧ s = t
  | .null, b, depth, s, t, hs, ht, h => by
      have hkind := kind_eq h
      cases b with
      | null => simpa [render] using h
      | bool b => cases b <;> simp [kind] at hkind
      | _ => simp [kind] at hkind
  | .bool a, b, depth, s, t, hs, ht, h => by
      have hkind := kind_eq h
      cases b with
      | bool b => cases a <;> cases b <;> simp_all [kind, render]
      | _ => cases a <;> simp [kind] at hkind
  | .int n, b, depth, s, t, hs, ht, h => number_append_inj rfl (kind_eq h).symm hs ht h
  | .float x, b, depth, s, t, hs, ht, h => number_append_inj rfl (kind_eq h).symm hs ht h
  | .str a, b, depth, s, t, hs, ht, h => by
      have hkind := kind_eq h
      cases b with
      | str b =>
          obtain ⟨rfl, rfl⟩ := quote_append_inj (by simpa [render] using h)
          exact ⟨rfl, rfl⟩
      | bool b => cases b <;> simp [kind] at hkind
      | _ => simp [kind] at hkind
  | .arr xs, b, depth, s, t, hs, ht, h => by
      have hkind := kind_eq h
      cases b with
      | arr ys =>
          cases xs with
          | nil =>
              cases ys with
              | nil => simpa [render] using h
              | cons y ys =>
                  simp only [render, List.cons_append, List.append_assoc, List.cons.injEq,
                    true_and, List.nil_append] at h
                  exact (open_ne_close l _ y _ _ h.symm).elim
          | cons x xs =>
              cases ys with
              | nil =>
                  simp only [render, List.cons_append, List.append_assoc, List.cons.injEq,
                    true_and, List.nil_append] at h
                  exact (open_ne_close l _ x _ _ h).elim
              | cons y ys =>
                  simp only [render, List.cons_append, List.append_assoc, List.cons.injEq,
                    true_and, List.nil_append, List.append_cancel_left_eq] at h
                  obtain ⟨rfl, hrest⟩ := render_append_inj l x y (depth + 1) _ _
                    (stops_items l _ _ _ _) (stops_items l _ _ _ _) h
                  obtain ⟨rfl, rfl⟩ := renderItems_append_inj l xs ys (depth + 1) depth s t hrest
                  exact ⟨rfl, rfl⟩
      | bool b => cases b <;> simp [kind] at hkind
      | _ => simp [kind] at hkind
  | .obj xs, b, depth, s, t, hs, ht, h => by
      have hkind := kind_eq h
      cases b with
      | obj ys =>
          cases xs with
          | nil =>
              cases ys with
              | nil => simpa [render] using h
              | cons y ys =>
                  obtain ⟨k, y⟩ := y
                  simp only [render, List.cons_append, List.append_assoc, List.cons.injEq,
                    true_and, List.nil_append] at h
                  exact (key_ne_close l _ k _ _ h.symm).elim
          | cons x xs =>
              obtain ⟨k, x⟩ := x
              cases ys with
              | nil =>
                  simp only [render, List.cons_append, List.append_assoc, List.cons.injEq,
                    true_and, List.nil_append] at h
                  exact (key_ne_close l _ k _ _ h).elim
              | cons y ys =>
                  obtain ⟨k', y⟩ := y
                  simp only [render, List.cons_append, List.append_assoc, List.cons.injEq,
                    true_and, List.nil_append, List.append_cancel_left_eq] at h
                  obtain ⟨rfl, hvalue⟩ := quote_append_inj h
                  obtain ⟨rfl, hrest⟩ := render_append_inj l x y (depth + 1) _ _
                    (stops_fields l _ _ _ _) (stops_fields l _ _ _ _)
                    (List.append_cancel_left hvalue)
                  obtain ⟨rfl, rfl⟩ := renderFields_append_inj l xs ys (depth + 1) depth s t hrest
                  exact ⟨rfl, rfl⟩
      | bool b => cases b <;> simp [kind] at hkind
      | _ => simp [kind] at hkind

theorem renderItems_append_inj (l : Layout) : ∀ (xs ys : List Json) (depth outer : ℕ)
    (s t : List Char),
    renderItems l depth xs ++ (l.newline outer ++ ']' :: s) =
      renderItems l depth ys ++ (l.newline outer ++ ']' :: t) → xs = ys ∧ s = t
  | [], [], depth, outer, s, t, h => by simpa [renderItems] using h
  | [], y :: ys, depth, outer, s, t, h => by
      exact (close_ne_comma l outer _ _ (by decide) h).elim
  | x :: xs, [], depth, outer, s, t, h => by
      exact (close_ne_comma l outer _ _ (by decide) h.symm).elim
  | x :: xs, y :: ys, depth, outer, s, t, h => by
      simp only [renderItems, List.cons_append, List.append_assoc, List.cons.injEq, true_and,
        List.append_cancel_left_eq] at h
      obtain ⟨rfl, hrest⟩ := render_append_inj l x y depth _ _
        (stops_items l _ _ _ _) (stops_items l _ _ _ _) h
      obtain ⟨rfl, rfl⟩ := renderItems_append_inj l xs ys depth outer s t hrest
      exact ⟨rfl, rfl⟩

theorem renderFields_append_inj (l : Layout) : ∀ (xs ys : List (String × Json))
    (depth outer : ℕ) (s t : List Char),
    renderFields l depth xs ++ (l.newline outer ++ '}' :: s) =
      renderFields l depth ys ++ (l.newline outer ++ '}' :: t) → xs = ys ∧ s = t
  | [], [], depth, outer, s, t, h => by simpa [renderFields] using h
  | [], (_, _) :: ys, depth, outer, s, t, h => by
      exact (close_ne_comma l outer _ _ (by decide) h).elim
  | (_, _) :: xs, [], depth, outer, s, t, h => by
      exact (close_ne_comma l outer _ _ (by decide) h.symm).elim
  | (k, x) :: xs, (k', y) :: ys, depth, outer, s, t, h => by
      simp only [renderFields, List.cons_append, List.append_assoc, List.cons.injEq, true_and,
        List.append_cancel_left_eq] at h
      obtain ⟨rfl, hvalue⟩ := quote_append_inj h
      obtain ⟨rfl, hrest⟩ := render_append_inj l x y depth _ _
        (stops_fields l _ _ _ _) (stops_fields l _ _ _ _) (List.append_cancel_left hvalue)
      obtain ⟨rfl, rfl⟩ := renderFields_append_inj l xs ys depth outer s t hrest
      exact ⟨rfl, rfl⟩

end

private theorem render_inj (l : Layout) (depth : ℕ) {a b : Json}
    (h : render l depth a = render l depth b) : a = b := by
  have hstop : Stops [] := by intro c hc; simp at hc
  exact (render_append_inj l a b depth [] [] hstop hstop (by simpa using h)).1

theorem compact_injective : Function.Injective compact := by
  intro a b h
  exact render_inj oneLine 0 (String.ofList_injective h)

theorem pretty_injective : Function.Injective pretty := by
  intro a b h
  exact render_inj indented 0 (String.ofList_injective h)

/-! ## How long the text is -/

theorem length_le_renderItems {l : Layout} {depth : ℕ} {x : Json} {xs : List Json}
    (h : x ∈ xs) : (render l depth x).length ≤ (renderItems l depth xs).length := by
  induction xs with
  | nil => cases h
  | cons y ys ih =>
      simp only [renderItems, List.cons_append, List.length_cons, List.length_append]
      rcases List.mem_cons.mp h with rfl | h
      · omega
      · have hy := ih h
        omega

theorem length_le_renderFields {l : Layout} {depth : ℕ} {k : String} {v : Json}
    {fields : List (String × Json)} (h : (k, v) ∈ fields) :
    (render l depth v).length ≤ (renderFields l depth fields).length := by
  induction fields with
  | nil => cases h
  | cons e rest ih =>
      simp only [renderFields, List.cons_append, List.length_cons, List.length_append]
      rcases List.mem_cons.mp h with rfl | h
      · simp only
        omega
      · have he := ih h
        omega

/-- An array is at least as long as each of its elements. -/
theorem length_le_render_arr {l : Layout} {depth : ℕ} {x : Json} {xs : List Json}
    (h : x ∈ xs) : (render l (depth + 1) x).length ≤ (render l depth (.arr xs)).length := by
  cases xs with
  | nil => cases h
  | cons y ys =>
      simp only [render, List.cons_append, List.length_cons, List.length_append]
      rcases List.mem_cons.mp h with rfl | h
      · omega
      · have hy : (render l (depth + 1) x).length ≤ (renderItems l (depth + 1) ys).length :=
          length_le_renderItems h
        omega

/-- An object is at least as long as each of its values. -/
theorem length_le_render_obj {l : Layout} {depth : ℕ} {k : String} {v : Json}
    {fields : List (String × Json)} (h : (k, v) ∈ fields) :
    (render l (depth + 1) v).length ≤ (render l depth (.obj fields)).length := by
  cases fields with
  | nil => cases h
  | cons e rest =>
      simp only [render, List.cons_append, List.length_cons, List.length_append]
      rcases List.mem_cons.mp h with rfl | h
      · simp only
        omega
      · have he : (render l (depth + 1) v).length ≤ (renderFields l (depth + 1) rest).length :=
          length_le_renderFields h
        omega

theorem length_le_render_str (l : Layout) (depth : ℕ) (s : String) :
    s.toList.length ≤ (render l depth (.str s)).length := by
  have hescape : ∀ c, 1 ≤ (escapeChar c).length := by
    intro c
    unfold escapeChar
    split_ifs <;> simp
  have hbody : ∀ cs : List Char, cs.length ≤ (cs.flatMap escapeChar).length := by
    intro cs
    induction cs with
    | nil => simp
    | cons c cs ih =>
        have hc := hescape c
        simp only [List.flatMap_cons, List.length_cons, List.length_append]
        omega
  have hs := hbody s.toList
  simp only [render, quote, List.cons_append, List.length_cons, List.length_append]
  omega

theorem utf8ByteSize_compact (j : Json) :
    (compact j).utf8ByteSize = String.utf8Len (render oneLine 0 j) :=
  String.utf8ByteSize_ofList _

theorem utf8ByteSize_pretty (j : Json) :
    (pretty j).utf8ByteSize = String.utf8Len (render indented 0 j) :=
  String.utf8ByteSize_ofList _

/-- A text has at least one byte for each character. -/
theorem length_le_utf8ByteSize_pretty (j : Json) :
    (render indented 0 j).length ≤ (pretty j).utf8ByteSize := by
  rw [utf8ByteSize_pretty]
  induction render indented 0 j with
  | nil => simp
  | cons c cs ih =>
      have hc := c.utf8Size_pos
      simp only [List.length_cons, String.utf8Len_cons]
      omega

end CeIam.Json
