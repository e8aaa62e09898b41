import CeIam.Library.Text
import Mathlib.Algebra.Group.Int.Defs
import Mathlib.Data.List.Basic

/-! # JSON values

Objects keep their fields as an association list. `insertField` keeps the list in
key order, so values built with it have one representation for each content. -/

namespace CeIam

/-- The text of a number that is no integer: a numeral with a fraction or an exponent. -/
structure FloatText where
  text : List Char
  numeral : ∀ c ∈ text, c.isDigit ∨ c ∈ ['-', '+', '.', 'e', 'E']
  marked : '.' ∈ text ∨ 'e' ∈ text ∨ 'E' ∈ text
deriving DecidableEq

inductive Json where
  | null
  | bool (b : Bool)
  | int (n : Int)
  | float (x : FloatText)
  | str (s : String)
  | arr (xs : List Json)
  | obj (fields : List (String × Json))

namespace Json

instance : Inhabited Json := ⟨.null⟩

mutual

def beq : Json → Json → Bool
  | .null, .null => true
  | .bool a, .bool b => a == b
  | .int a, .int b => a == b
  | .float a, .float b => a.text == b.text
  | .str a, .str b => a == b
  | .arr xs, .arr ys => beqItems xs ys
  | .obj xs, .obj ys => beqFields xs ys
  | _, _ => false

def beqItems : List Json → List Json → Bool
  | [], [] => true
  | x :: xs, y :: ys => beq x y && beqItems xs ys
  | _, _ => false

def beqFields : List (String × Json) → List (String × Json) → Bool
  | [], [] => true
  | (k, x) :: xs, (l, y) :: ys => k == l && beq x y && beqFields xs ys
  | _, _ => false

end

mutual

theorem beq_iff : ∀ a b : Json, beq a b = true ↔ a = b
  | .null, b => by cases b <;> simp [beq]
  | .bool _, b => by cases b <;> simp [beq]
  | .int _, b => by cases b <;> simp [beq]
  | .float x, b => by
      cases b with
      | float y => obtain ⟨s, hs, hm⟩ := x; obtain ⟨t, ht, hn⟩ := y; simp [beq]
      | _ => simp [beq]
  | .str _, b => by cases b <;> simp [beq]
  | .arr xs, b => by
      cases b with
      | arr ys => simp [beq, beqItems_iff xs ys]
      | _ => simp [beq]
  | .obj xs, b => by
      cases b with
      | obj ys => simp [beq, beqFields_iff xs ys]
      | _ => simp [beq]

theorem beqItems_iff : ∀ xs ys : List Json, beqItems xs ys = true ↔ xs = ys
  | [], ys => by cases ys <;> simp [beqItems]
  | x :: xs, ys => by
      cases ys with
      | nil => simp [beqItems]
      | cons y ys => simp [beqItems, beq_iff x y, beqItems_iff xs ys]

theorem beqFields_iff : ∀ xs ys : List (String × Json), beqFields xs ys = true ↔ xs = ys
  | [], ys => by cases ys <;> simp [beqFields]
  | (k, x) :: xs, ys => by
      cases ys with
      | nil => simp [beqFields]
      | cons y ys =>
          obtain ⟨l, y⟩ := y
          simp [beqFields, beq_iff x y, beqFields_iff xs ys]

end

instance : DecidableEq Json := fun a b => decidable_of_iff _ (beq_iff a b)

/-! ## Reading values -/

/-- The value of a field; values that are no object have no field. -/
def field : Json → String → Option Json
  | .obj fields, k => fields.lookup k
  | _, _ => none

def asStr : Json → Option String
  | .str s => some s
  | _ => none

/-- An integer in the range of an unsigned 64-bit word. -/
def asU64 : Json → Option Nat
  | .int n => if 0 ≤ n ∧ n < UInt64.size then some n.toNat else none
  | _ => none

/-- An integer in the range of a signed 64-bit word. -/
def asI64 : Json → Option Int
  | .int n => if -2 ^ 63 ≤ n ∧ n < 2 ^ 63 then some n else none
  | _ => none

def asArray : Json → Option (List Json)
  | .arr xs => some xs
  | _ => none

@[simp] theorem field_obj (fields : List (String × Json)) (k : String) :
    (obj fields).field k = fields.lookup k := rfl

@[simp] theorem asStr_str (s : String) : (str s).asStr = some s := rfl

@[simp] theorem asStr_null : null.asStr = none := rfl

@[simp] theorem asArray_arr (xs : List Json) : (arr xs).asArray = some xs := rfl

theorem asU64_int {n : ℕ} (h : n < UInt64.size) : (int n).asU64 = some n := by
  have hn : (0 : ℤ) ≤ n ∧ (n : ℤ) < UInt64.size := ⟨by omega, by exact_mod_cast h⟩
  rw [asU64, if_pos hn, Int.toNat_natCast]

/-! ## Objects in key order -/

/-- Sets field `k`, keeping fields in key order when they are. -/
def insertField (k : String) (v : Json) : List (String × Json) → List (String × Json)
  | [] => [(k, v)]
  | (l, w) :: rest =>
      if k < l then (k, v) :: (l, w) :: rest
      else if k = l then (k, v) :: rest
      else (l, w) :: insertField k v rest

def removeField (k : String) (fields : List (String × Json)) : List (String × Json) :=
  fields.filter (fun e => e.1 ≠ k)

/-- The object with these fields, of which a later one replaces an earlier one. -/
def ofFields (fields : List (String × Json)) : Json :=
  .obj (fields.foldl (fun acc e => insertField e.1 e.2 acc) [])

theorem lookup_cons (l : String) (w : Json) (rest : List (String × Json)) (a : String) :
    ((l, w) :: rest).lookup a = if a = l then some w else rest.lookup a := by
  by_cases h : a = l
  · simp [h]
  · simp [List.lookup_cons, beq_eq_false_iff_ne.mpr h, h]

theorem lookup_insertField (k : String) (v : Json) (fields : List (String × Json)) (a : String) :
    (insertField k v fields).lookup a = if a = k then some v else fields.lookup a := by
  induction fields with
  | nil => simp [insertField, lookup_cons]
  | cons e rest ih =>
      obtain ⟨l, w⟩ := e
      simp only [insertField]
      split
      · rw [lookup_cons]
      · split
        · next h => subst h; simp only [lookup_cons]; split <;> rfl
        · next h =>
            simp only [lookup_cons, ih]
            by_cases ha : a = l
            · subst ha
              simp [Ne.symm h]
            · simp [ha]

theorem mem_insertField {k : String} {v : Json} {fields : List (String × Json)}
    {e : String × Json} (h : e ∈ insertField k v fields) : e = (k, v) ∨ e ∈ fields := by
  induction fields with
  | nil => simpa [insertField] using h
  | cons f rest ih =>
      simp only [insertField] at h
      split_ifs at h
      · simpa using h
      · rcases List.mem_cons.mp h with h | h
        · exact .inl h
        · exact .inr (List.mem_cons_of_mem _ h)
      · rcases List.mem_cons.mp h with h | h
        · exact .inr (h ▸ List.mem_cons_self)
        · exact (ih h).imp id (List.mem_cons_of_mem _)

/-- Every field of `ofFields` is one of those given. -/
theorem mem_foldl_insertField {fields acc : List (String × Json)} {e : String × Json}
    (h : e ∈ fields.foldl (fun acc e => insertField e.1 e.2 acc) acc) : e ∈ fields ∨ e ∈ acc := by
  induction fields generalizing acc with
  | nil => exact .inr h
  | cons f rest ih =>
      cases ih h with
      | inl hrest => exact .inl (List.mem_cons_of_mem _ hrest)
      | inr hacc =>
          cases mem_insertField hacc with
          | inl hf => exact .inl (hf ▸ List.mem_cons_self)
          | inr hacc => exact .inr hacc

/-- Removing a field that was set anew undoes the setting. -/
theorem removeField_insertField {k : String} {v : Json} {fields : List (String × Json)}
    (h : ∀ e ∈ fields, e.1 ≠ k) : removeField k (insertField k v fields) = fields := by
  induction fields with
  | nil => simp [insertField, removeField]
  | cons f rest ih =>
      have hf := h f List.mem_cons_self
      have hrest := ih fun e he => h e (List.mem_cons_of_mem _ he)
      have hkept : removeField k (f :: rest) = f :: rest :=
        List.filter_eq_self.mpr fun e he => by simpa using h e he
      simp only [insertField]
      split_ifs with hlt heq
      · simpa [removeField] using hkept
      · exact absurd heq.symm hf
      · rw [removeField, List.filter_cons_of_pos (by simpa using hf)]
        exact congrArg _ hrest

/-- A field of `ofFields` is the last one given under its name. -/
theorem field_ofFields (fields : List (String × Json)) (k : String) :
    (ofFields fields).field k =
      fields.foldl (fun acc e => if k = e.1 then some e.2 else acc) none := by
  have general : ∀ (fields acc : List (String × Json)),
      (fields.foldl (fun acc e => insertField e.1 e.2 acc) acc).lookup k =
        fields.foldl (fun acc e => if k = e.1 then some e.2 else acc) (acc.lookup k) := by
    intro fields
    induction fields with
    | nil => simp
    | cons e fields ih =>
        intro acc
        simp only [List.foldl_cons]
        rw [ih, lookup_insertField]
  simpa [ofFields] using general fields []

end Json

end CeIam
