import Mathlib.Data.List.DropRight
import Mathlib.Data.List.Infix
import Mathlib.Data.String.Basic
import Mathlib.Data.List.TakeDrop
import Mathlib.Data.List.TakeWhile

/-! # Strings as sequences of characters

Prefixes, trimming and splitting, with the order facts that make the strings
sharing a prefix an interval of the sorted order. -/

namespace CeIam.Text

/-- The Unicode `White_Space` property. -/
def isWhiteSpace (c : Char) : Bool :=
  let n := c.toNat
  (0x09 ≤ n && n ≤ 0x0D) || n == 0x20 || n == 0x85 || n == 0xA0 || n == 0x1680 ||
    (0x2000 ≤ n && n ≤ 0x200A) || n == 0x2028 || n == 0x2029 || n == 0x202F ||
    n == 0x205F || n == 0x3000

/-- Removal of leading and trailing white space. -/
def trim (s : String) : String :=
  String.ofList (((s.toList.dropWhile isWhiteSpace).reverse.dropWhile isWhiteSpace).reverse)

/-- Removal of trailing white space. -/
def trimEnd (s : String) : String := String.ofList (s.toList.rdropWhile isWhiteSpace)

def startsWith (s p : String) : Bool :=
  p.toList.isPrefixOf s.toList

/-- ASCII letters in lower case. -/
def toAsciiLowercase (s : String) : String := String.ofList (s.toList.map Char.toLower)

/-- The text before a final `c`, when there is one. -/
def stripSuffix (s : String) (c : Char) : Option String :=
  if s.toList.getLast? = some c then some (String.ofList s.toList.dropLast) else none

/-- The text after a prefix, when there is one. -/
def stripPrefix (s p : String) : Option String :=
  if startsWith s p then some (String.ofList (s.toList.drop p.toList.length)) else none

def eqIgnoreAsciiCase (s t : String) : Bool := toAsciiLowercase s = toAsciiLowercase t

/-- The texts between the occurrences of `c`. -/
def split (s : String) (c : Char) : List String := (s.toList.splitOn c).map String.ofList

/-- The texts before and after the first `c`, when there is one. -/
def splitOnce (s : String) (c : Char) : Option (String × String) :=
  match s.toList.span (· ≠ c) with
  | (_, []) => none
  | (front, _ :: rest) => some (String.ofList front, String.ofList rest)

/-! ## White space -/

theorem not_white_of_all {s : String} (h : s.toList.all (fun c => !isWhiteSpace c) = true) :
    ∀ c ∈ s.toList, isWhiteSpace c = false := by
  simpa using h

theorem dropWhile_eq_self {cs : List Char} (h : ∀ c ∈ cs, isWhiteSpace c = false) :
    cs.dropWhile isWhiteSpace = cs := by
  cases cs with
  | nil => rfl
  | cons c cs => simp [h c List.mem_cons_self]

theorem trim_eq_self {s : String} (h : ∀ c ∈ s.toList, isWhiteSpace c = false) : trim s = s := by
  rw [trim, dropWhile_eq_self h, dropWhile_eq_self (by simpa using h), List.reverse_reverse,
    String.ofList_toList]

theorem toList_trim (s : String) :
    (trim s).toList = (s.toList.dropWhile isWhiteSpace).rdropWhile isWhiteSpace := by
  rw [trim, String.toList_ofList, List.rdropWhile]

theorem toList_trimEnd (s : String) : (trimEnd s).toList = s.toList.rdropWhile isWhiteSpace := by
  rw [trimEnd, String.toList_ofList]

private theorem rdropWhile_append (xs ys : List Char) :
    (xs ++ ys).rdropWhile isWhiteSpace =
      if ys.rdropWhile isWhiteSpace = [] then xs.rdropWhile isWhiteSpace
      else xs ++ ys.rdropWhile isWhiteSpace := by
  simp only [List.rdropWhile, List.reverse_append, List.dropWhile_append, List.isEmpty_iff,
    List.reverse_eq_nil_iff]
  split_ifs <;> simp

private theorem rdropWhile_cons (c : Char) (cs : List Char) :
    (c :: cs).rdropWhile isWhiteSpace =
      if cs.rdropWhile isWhiteSpace = [] then if isWhiteSpace c then [] else [c]
      else c :: cs.rdropWhile isWhiteSpace := by
  rw [← List.singleton_append, rdropWhile_append, List.rdropWhile_singleton]
  rfl

/-- The two ends can be trimmed in either order. -/
private theorem dropWhile_rdropWhile (cs : List Char) :
    (cs.rdropWhile isWhiteSpace).dropWhile isWhiteSpace =
      (cs.dropWhile isWhiteSpace).rdropWhile isWhiteSpace := by
  induction cs with
  | nil => rfl
  | cons c cs ih =>
      by_cases hc : isWhiteSpace c = true
      · rw [rdropWhile_cons, if_pos hc, List.dropWhile_cons_of_pos hc, ← ih]
        split_ifs with hnil
        · rw [hnil]
        · rw [List.dropWhile_cons_of_pos hc]
      · rw [List.dropWhile_cons_of_neg hc, rdropWhile_cons, if_neg hc]
        split_ifs
        · exact List.dropWhile_cons_of_neg hc
        · exact List.dropWhile_cons_of_neg hc

@[simp] theorem trim_trim (s : String) : trim (trim s) = trim s := by
  apply String.toList_inj.mp
  rw [toList_trim, toList_trim, dropWhile_rdropWhile, List.dropWhile_idempotent,
    List.rdropWhile_idempotent]

theorem trim_trimEnd (s : String) : trim (trimEnd s) = trim s := by
  apply String.toList_inj.mp
  rw [toList_trim, toList_trim, toList_trimEnd, dropWhile_rdropWhile, List.rdropWhile_idempotent]

theorem trimEnd_trim (s : String) : trimEnd (trim s) = trim s := by
  apply String.toList_inj.mp
  rw [toList_trimEnd, toList_trim, List.rdropWhile_idempotent]

theorem mem_of_mem_trim {s : String} {c : Char} (h : c ∈ (trim s).toList) : c ∈ s.toList := by
  rw [toList_trim] at h
  exact (List.dropWhile_suffix _).subset ((List.rdropWhile_prefix _ _).subset h)

/-- Before a text that is not blank nothing is trimmed at the end. -/
theorem trimEnd_append {t : String} (h : trimEnd t ≠ "") (s : String) :
    trimEnd (s ++ t) = s ++ trimEnd t := by
  rw [ne_eq, ← String.toList_eq_nil_iff, toList_trimEnd] at h
  apply String.toList_inj.mp
  rw [toList_trimEnd, String.toList_append, rdropWhile_append, if_neg h, String.toList_append,
    toList_trimEnd]

/-- Behind a text without white space only the end is trimmed. -/
theorem trim_append {p : String} (hne : p ≠ "") (hp : ∀ c ∈ p.toList, isWhiteSpace c = false)
    (x : String) : trim (p ++ x) = p ++ trimEnd x := by
  have hback : p.toList.rdropWhile isWhiteSpace = p.toList := by
    rw [List.rdropWhile_eq_self_iff]
    intro hl
    simpa using hp _ (List.getLast_mem hl)
  have hfront : (p.toList ++ x.toList).dropWhile isWhiteSpace = p.toList ++ x.toList := by
    cases hcs : p.toList with
    | nil => exact absurd (String.toList_eq_nil_iff.mp hcs) hne
    | cons c cs =>
        rw [hcs] at hp
        rw [List.cons_append, List.dropWhile_cons_of_neg]
        simp [hp c List.mem_cons_self]
  apply String.toList_inj.mp
  rw [toList_trim, String.toList_append, hfront, rdropWhile_append, String.toList_append,
    toList_trimEnd]
  split_ifs with hnil
  · rw [hback, hnil, List.append_nil]
  · rfl

/-- A final character is found exactly behind the text before it. -/
theorem stripSuffix_eq_some {s p sep : String} {c : Char} (hsep : sep.toList = [c]) :
    stripSuffix s c = some p ↔ s = p ++ sep := by
  rw [stripSuffix, ← String.toList_inj, String.toList_append, hsep]
  constructor
  · intro h
    split_ifs at h with hlast
    rw [← Option.some.inj h, String.toList_ofList]
    exact (List.dropLast_append_getLast? c hlast).symm
  · intro h
    rw [h, List.getLast?_concat, if_pos rfl, List.dropLast_concat, String.ofList_toList]

/-- A final character that a text does not have is behind it. -/
theorem stripSuffix_append {p x z : String} {c : Char} (hc : c ∉ p.toList)
    (h : stripSuffix (p ++ x) c = some z) : ∃ y, z = p ++ y := by
  rw [stripSuffix, String.toList_append] at h
  split_ifs at h with hlast
  have hx : x.toList ≠ [] := by
    intro hnil
    rw [hnil, List.append_nil] at hlast
    exact hc (List.mem_of_getLast? hlast)
  refine ⟨String.ofList x.toList.dropLast, ?_⟩
  rw [← Option.some.inj h, List.dropLast_append_of_ne_nil hx, String.ofList_append,
    String.ofList_toList]

/-- A string with a visible character is not blank. -/
theorem trim_ne_empty {s : String} {c : Char} (hc : c ∈ s.toList)
    (hvisible : isWhiteSpace c = false) : trim s ≠ "" := by
  intro h
  have hnil := congrArg String.toList h
  simp only [trim, String.toList_ofList, String.toList_empty, List.reverse_eq_nil_iff,
    List.dropWhile_eq_nil_iff, List.mem_reverse] at hnil
  cases hkept : s.toList.dropWhile isWhiteSpace with
  | nil =>
      have hwhite := List.dropWhile_eq_nil_iff.mp hkept c hc
      rw [hvisible] at hwhite
      cases hwhite
  | cons d rest =>
      -- What the first pass keeps starts with a visible character.
      have hhead := List.head_dropWhile_not isWhiteSpace (l := s.toList) (by simp [hkept])
      have hwhite := hnil d (by rw [hkept]; exact List.mem_cons_self)
      simp only [hkept, List.head_cons] at hhead
      rw [hwhite] at hhead
      cases hhead

/-! ## Prefixes -/

theorem startsWith_iff {s p : String} : startsWith s p = true ↔ ∃ t, s = p ++ t := by
  rw [startsWith, List.isPrefixOf_iff_prefix]
  constructor
  · rintro ⟨t, ht⟩
    exact ⟨String.ofList t, String.toList_inj.mp (by simp [ht])⟩
  · rintro ⟨t, rfl⟩
    exact ⟨t.toList, by simp⟩

@[simp] theorem stripPrefix_append (p t : String) : stripPrefix (p ++ t) p = some t := by
  have hstarts : startsWith (p ++ t) p = true := startsWith_iff.mpr ⟨t, rfl⟩
  rw [stripPrefix, if_pos hstarts, String.toList_append, List.drop_left, String.ofList_toList]

theorem stripPrefix_eq_none {s p : String} (h : startsWith s p = false) :
    stripPrefix s p = none := by
  simp [stripPrefix, h]

/-- Of two prefixes of a string one is a prefix of the other. -/
theorem startsWith_or_startsWith {s p q : String} (h : startsWith s p = true)
    (k : startsWith s q = true) : startsWith p q = true ∨ startsWith q p = true := by
  simp only [startsWith, List.isPrefixOf_iff_prefix] at h k ⊢
  exact List.prefix_or_prefix_of_prefix k h

/-- Texts with different beginnings differ. -/
theorem append_ne_append {p q y z : String} (hpq : startsWith p q = false)
    (hqp : startsWith q p = false) : p ++ y ≠ q ++ z := by
  intro h
  have hp : startsWith (p ++ y) p = true := startsWith_iff.mpr ⟨y, rfl⟩
  have hq : startsWith (p ++ y) q = true := startsWith_iff.mpr ⟨z, h⟩
  cases startsWith_or_startsWith hp hq with
  | inl h => exact Bool.false_ne_true (hpq.symm.trans h)
  | inr h => exact Bool.false_ne_true (hqp.symm.trans h)

theorem startsWith_append_of_not {p q : String} (hpq : startsWith p q = false)
    (hqp : startsWith q p = false) (y : String) : startsWith (p ++ y) q = false := by
  refine Bool.eq_false_iff.mpr fun h => ?_
  obtain ⟨z, hz⟩ := startsWith_iff.mp h
  exact append_ne_append hpq hqp hz

theorem startsWith_append {s p : String} (h : startsWith s p = true) (t : String) :
    startsWith (s ++ t) p = true := by
  obtain ⟨u, rfl⟩ := startsWith_iff.mp h
  exact startsWith_iff.mpr ⟨u ++ t, String.append_assoc⟩

/-- All prefixes of a string, shortest first. -/
def prefixes (s : String) : List String := s.toList.inits.map String.ofList

theorem mem_prefixes {s p : String} : p ∈ prefixes s ↔ startsWith s p = true := by
  simp only [prefixes, List.mem_map, List.mem_inits, startsWith, List.isPrefixOf_iff_prefix]
  constructor
  · rintro ⟨cs, hcs, rfl⟩
    simpa using hcs
  · exact fun h => ⟨p.toList, h, String.ofList_toList⟩

theorem append_right_injective (p : String) : Function.Injective (p ++ ·) := by
  intro s t h
  have hlist := congrArg String.toList h
  simpa [String.toList_inj] using hlist

@[simp] theorem append_right_inj (p s t : String) : p ++ s = p ++ t ↔ s = t :=
  (append_right_injective p).eq_iff

/-- A string is at most any of its extensions. -/
theorem le_append (p t : String) : p ≤ p ++ t := by
  apply not_lt.mp
  rw [String.lt_iff_toList_lt, String.toList_append]
  induction p.toList with
  | nil => simp
  | cons c cs ih => simpa [List.cons_lt_cons_iff] using ih

/-- Putting one prefix before two strings keeps their order. -/
theorem append_lt_append_iff (p s t : String) : p ++ s < p ++ t ↔ s < t := by
  simp only [String.lt_iff_toList_lt, String.toList_append]
  induction p.toList with
  | nil => simp
  | cons c cs ih => simp [ih]

private theorem prefix_of_between (p a b : List Char) (hpa : ¬ a < p) (hab : ¬ b < a)
    (hb : p <+: b) : p <+: a := by
  induction p generalizing a b with
  | nil => exact List.nil_prefix
  | cons c p ih =>
      obtain ⟨t, rfl⟩ := hb
      cases a with
      | nil => simp at hpa
      | cons x a =>
          simp only [List.cons_append, List.cons_lt_cons_iff, not_or, not_and, not_lt] at hpa hab
          -- The heads are squeezed between two copies of `c`.
          have hc : x = c := le_antisymm hab.1 hpa.1
          subst x
          exact List.cons_prefix_cons.mpr
            ⟨rfl, ih a (p ++ t) (not_lt.mpr (hpa.2 rfl)) (not_lt.mpr (hab.2 rfl)) ⟨t, rfl⟩⟩

/-- The strings with prefix `p` form an interval that starts at `p`. -/
theorem startsWith_of_between {p a b : String} (hpa : p ≤ a) (hab : a ≤ b)
    (hb : startsWith b p = true) : startsWith a p = true := by
  rw [startsWith, List.isPrefixOf_iff_prefix] at hb ⊢
  refine prefix_of_between _ _ _ ?_ ?_ hb
  · rw [← String.lt_iff_toList_lt]
    exact not_lt.mpr hpa
  · rw [← String.lt_iff_toList_lt]
    exact not_lt.mpr hab

theorem le_of_startsWith {s p : String} (h : startsWith s p = true) : p ≤ s := by
  obtain ⟨t, rfl⟩ := startsWith_iff.mp h
  exact le_append p t

/-! ## Splitting -/

/-- A text is split at the first separator. -/
theorem splitOnce_append {a b sep : String} {c : Char} (hsep : sep.toList = [c])
    (ha : c ∉ a.toList) : splitOnce (a ++ sep ++ b) c = some (a, b) := by
  have hspan : (a ++ sep ++ b).toList.span (· ≠ c) = (a.toList, c :: b.toList) := by
    have hfront : ∀ x ∈ a.toList, decide (x ≠ c) = true := by
      intro x hx
      exact decide_eq_true fun heq => ha (heq ▸ hx)
    rw [List.span_eq_takeWhile_dropWhile, String.toList_append, String.toList_append, hsep,
      List.append_assoc, List.takeWhile_append_of_pos hfront, List.dropWhile_append_of_pos hfront]
    simp
  rw [splitOnce, hspan]
  simp

private theorem notMem_of_mem_splitOn {c : Char} {cs part : List Char}
    (h : part ∈ cs.splitOn c) : c ∉ part := by
  induction cs generalizing part with
  | nil =>
      rw [List.splitOn_nil, List.mem_singleton] at h
      rw [h]
      exact List.not_mem_nil
  | cons x xs ih =>
      rw [List.splitOn_cons_eq_if_modifyHead] at h
      split_ifs at h with hx
      · rcases List.mem_cons.mp h with rfl | h
        · exact List.not_mem_nil
        · exact ih h
      · cases hsplit : xs.splitOn c with
        | nil => exact absurd hsplit (List.splitOn_ne_nil c xs)
        | cons first rest =>
            rw [hsplit] at h ih
            rcases List.mem_cons.mp h with rfl | h
            · have hne : c ≠ x := fun heq => hx (beq_iff_eq.mpr heq.symm)
              simpa [hne] using ih List.mem_cons_self
            · exact ih (List.mem_cons_of_mem _ h)

/-- The parts of a text have no separator. -/
theorem notMem_of_mem_split {s t : String} {c : Char} (h : t ∈ split s c) : c ∉ t.toList := by
  obtain ⟨part, hpart, rfl⟩ := List.mem_map.mp h
  rw [String.toList_ofList]
  exact notMem_of_mem_splitOn hpart

theorem split_ne_nil (s : String) (c : Char) : split s c ≠ [] := by
  simp [split]

theorem intercalate_split {sep : String} {c : Char} (hsep : sep.toList = [c]) (s : String) :
    sep.intercalate (split s c) = s := by
  apply String.toList_inj.mp
  have hparts : (split s c).map String.toList = s.toList.splitOn c := by
    simp [split, Function.comp_def]
  rw [String.toList_intercalate, hsep, hparts, List.intercalate_splitOn]

/-- Texts without a separator are split where they were joined. -/
theorem split_intercalate {sep : String} {c : Char} (hsep : sep.toList = [c]) {ts : List String}
    (hne : ts ≠ []) (h : ∀ t ∈ ts, c ∉ t.toList) : split (sep.intercalate ts) c = ts := by
  have hchars : ∀ cs ∈ ts.map String.toList, c ∉ cs := by
    simpa using h
  rw [split, String.toList_intercalate, hsep, List.splitOn_intercalate c hchars (by simpa using hne)]
  simp [Function.comp_def]

/-- Joined texts end like the last of them. -/
theorem trimEnd_intercalate {sep : String} {ts : List String} (hne : ts ≠ [])
    (h : ∀ t ∈ ts, t ≠ "" ∧ trim t = t) :
    trimEnd (sep.intercalate ts) = sep.intercalate ts := by
  have hends : trimEnd (sep.intercalate ts) = sep.intercalate ts ∧ sep.intercalate ts ≠ "" := by
    induction ts with
    | nil => exact absurd rfl hne
    | cons t ts ih =>
        obtain ⟨ht, htrim⟩ := h t List.mem_cons_self
        have hend : trimEnd t = t := by
          rw [← htrim, trimEnd_trim]
        cases ts with
        | nil =>
            rw [String.intercalate_singleton]
            exact ⟨hend, ht⟩
        | cons u us =>
            obtain ⟨hrest, hrest_ne⟩ :=
              ih (List.cons_ne_nil _ _) fun t ht => h t (List.mem_cons_of_mem _ ht)
            rw [String.intercalate_cons_cons, trimEnd_append (hrest.symm ▸ hrest_ne), hrest]
            refine ⟨rfl, fun hempty => hrest_ne ?_⟩
            simpa using (String.append_eq_empty_iff.mp hempty).2
  exact hends.1

/-- Two texts with a separator are equal when they are cut alike, or when the second part of one
has a cut of the other inside. -/
theorem append_sep_inj {a b c d sep : String} {ch : Char} (hsep : sep.toList = [ch])
    (hc : ch ∉ c.toList) :
    a ++ sep ++ b = c ++ sep ++ d ↔
      (a = c ∧ b = d) ∨ ∃ x, a = c ++ sep ++ x ∧ d = x ++ sep ++ b := by
  constructor
  · intro h
    have hchars := congrArg String.toList h
    simp only [String.toList_append, hsep, List.append_assoc, List.singleton_append] at hchars
    rcases List.append_eq_append_iff.mp hchars with ⟨rest, hleft, hright⟩ | ⟨rest, hleft, hright⟩
    · cases rest with
      | nil =>
          rw [List.append_nil] at hleft
          exact .inl ⟨String.toList_inj.mp hleft.symm,
            String.toList_inj.mp (List.cons.inj hright).2⟩
      | cons x rest =>
          rw [(List.cons.inj hright).1, hleft] at hc
          exact absurd (List.mem_append_right _ List.mem_cons_self) hc
    · cases rest with
      | nil =>
          rw [List.append_nil] at hleft
          exact .inl ⟨String.toList_inj.mp hleft,
            String.toList_inj.mp (List.cons.inj hright).2.symm⟩
      | cons x rest =>
          obtain ⟨rfl, hrest⟩ := List.cons.inj hright
          refine .inr ⟨String.ofList rest, String.toList_inj.mp ?_, String.toList_inj.mp ?_⟩
          · simp [hsep, hleft]
          · simp [hsep, hrest]
  · rintro (⟨rfl, rfl⟩ | ⟨x, rfl, rfl⟩)
    · rfl
    · simp only [String.append_assoc]

/-! ## Bytes -/

private theorem toList_loop (bytes : ByteArray) (i : ℕ) (acc : List UInt8) :
    ByteArray.toList.loop bytes i acc = acc.reverse ++ bytes.data.toList.drop i := by
  fun_induction ByteArray.toList.loop bytes i acc with
  | case1 i acc hlt ih =>
      have hbound : i < bytes.data.toList.length := by simpa using hlt
      rw [ih, List.drop_eq_getElem_cons hbound]
      simp [ByteArray.get!, hlt]
  | case2 i acc hge =>
      have hdone : bytes.data.toList.drop i = [] := by
        rw [List.drop_eq_nil_iff]
        simpa using hge
      simp [hdone]

/-- A text is determined by the bytes that encode it. -/
theorem bytes_injective : Function.Injective fun s : String => s.toUTF8.toList := by
  intro a b h
  have hbytes : a.toUTF8.data.toList = b.toUTF8.data.toList := by
    simpa [ByteArray.toList, toList_loop] using h
  exact String.toByteArray_inj.mp (ByteArray.ext (Array.toList_inj.mp hbytes))

end CeIam.Text
