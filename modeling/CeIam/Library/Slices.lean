import CeIam.Library.Text

/-! # Cutting a text at byte offsets

An offset counts the bytes before it. There is no cut inside a character, nor behind the end. -/

namespace CeIam.Text

/-- The characters before and after an offset. -/
def cut : ℕ → List Char → Option (List Char × List Char)
  | 0, cs => some ([], cs)
  | _ + 1, [] => none
  | n + 1, c :: cs =>
      if c.utf8Size ≤ n + 1 then
        (cut (n + 1 - c.utf8Size) cs).map fun parts => (c :: parts.1, parts.2)
      else none

/-- The text between two offsets. -/
def slice (s : String) (i j : ℕ) : Option String :=
  if i ≤ j then do
    let (_, rest) ← cut i s.toList
    let (middle, _) ← cut (j - i) rest
    return String.ofList middle
  else none

/-- A cut behind a front is where the front ends. -/
theorem cut_append (front cs : List Char) (n : ℕ) :
    cut (String.utf8Len front + n) (front ++ cs) =
      (cut n cs).map fun parts => (front ++ parts.1, parts.2) := by
  induction front with
  | nil => simp
  | cons c front ih =>
      have hpos := c.utf8Size_pos
      obtain ⟨k, hk⟩ : ∃ k, String.utf8Len (c :: front) + n = k + 1 :=
        Nat.exists_eq_add_one.mpr (by rw [String.utf8Len_cons]; omega)
      have hle : c.utf8Size ≤ k + 1 := by
        rw [← hk, String.utf8Len_cons]
        omega
      have hrest : k + 1 - c.utf8Size = String.utf8Len front + n := by
        rw [← hk, String.utf8Len_cons]
        omega
      rw [hk, List.cons_append, cut, if_pos hle, hrest, ih, Option.map_map]
      rfl

/-- A slice that starts behind a front is cut from what follows. -/
theorem slice_append {s : String} {front cs : List Char} (hs : s.toList = front ++ cs) (n : ℕ) :
    slice s (String.utf8Len front) (String.utf8Len front + n) =
      (cut n cs).map fun parts => String.ofList parts.1 := by
  have hfront : cut (String.utf8Len front) s.toList = some (front, cs) := by
    simpa [hs, cut] using cut_append front cs 0
  rw [slice, if_pos (Nat.le_add_right _ _), hfront, Nat.add_sub_cancel_left]
  simp only [Option.bind_eq_bind, Option.bind_some]
  cases cut n cs <;> rfl

end CeIam.Text
