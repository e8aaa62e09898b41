import Mathlib.Logic.Basic

/-! # Changing a value and saving it

A value in memory is replaced by another one, which is saved to a file. Whether a failed save
leaves the old value behind is a matter of the order of the two. -/

namespace CeIam

/-- A way to save a value to a file; a save that fails leaves the file as it was. -/
structure Saver (ε σ φ : Type) where
  save : σ → φ → Except ε Unit × φ
  atomic : ∀ s f e, (save s f).1 = .error e → (save s f).2 = f

/-- A call that fails leaves what it works on as it was. -/
def Untouched {ε ρ κ : Type} (before : κ) (x : Except ε ρ × κ) : Prop :=
  ∀ e, x.1 = .error e → x.2 = before

theorem untouched_of_eq {ε ρ κ : Type} {before : κ} {x : Except ε ρ × κ} (h : x.2 = before) :
    Untouched before x :=
  fun _ _ => h

namespace Saver

variable {ε ρ σ φ : Type} (v : Saver ε σ φ)

/-- Replaces the value and then saves it. -/
def editThenSave (r : ρ) (next : σ) (f : φ) : Except ε ρ × σ × φ :=
  ((v.save next f).1.map fun _ => r, next, (v.save next f).2)

/-- Saves the new value and replaces the old one when it is saved. -/
def saveThenEdit (r : ρ) (s next : σ) (f : φ) : Except ε ρ × σ × φ :=
  match v.save next f with
  | (.error e, f) => (.error e, s, f)
  | (.ok (), f) => (.ok r, next, f)

/-- Saving first leaves nothing of a failed call. -/
theorem saveThenEdit_untouched (r : ρ) (s next : σ) (f : φ) :
    Untouched (s, f) (v.saveThenEdit r s next f) := by
  intro e h
  have hatomic := v.atomic next f
  rw [saveThenEdit] at h ⊢
  generalize v.save next f = saved at h hatomic ⊢
  obtain ⟨result | ⟨⟩, g⟩ := saved
  · exact Prod.ext rfl (hatomic result rfl)
  · exact nomatch h

/-- Saving last leaves nothing of a failed call exactly when the save succeeds or the new value is
the old one. -/
theorem editThenSave_untouched_iff (r : ρ) (s next : σ) (f : φ) :
    Untouched (s, f) (v.editThenSave r next f) ↔ (v.save next f).1 = .ok () ∨ next = s := by
  have hatomic := v.atomic next f
  rw [Untouched, editThenSave, Prod.mk.injEq]
  generalize v.save next f = saved at hatomic ⊢
  obtain ⟨e | ⟨⟩, g⟩ := saved
  · constructor
    · exact fun h => .inr (h e rfl).1
    · rintro (hok | hsame) e' h
      · exact nomatch hok
      · exact ⟨hsame, hatomic e rfl⟩
  · constructor
    · exact fun _ => .inl rfl
    · exact fun _ e h => nomatch h

end Saver

end CeIam
