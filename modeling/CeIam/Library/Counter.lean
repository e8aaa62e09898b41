import CeIam.Library.Machine
import Mathlib.Data.List.Nodup

/-! # Numbers from a counter

A machine that draws numbers from a wrapping counter never repeats one while the counter does
not wrap, and several machines do not repeat one another's while each starts where none of the
earlier ones has been. -/

namespace CeIam.Counter

variable {σ ℓ ρ : Type}

/-- An answer carries no number and leaves the counter, or carries the counter's number, if
any, and moves it on by one. -/
def Draws (f : ℓ → σ → ρ × σ) (counter : σ → UInt64) (number : ρ → Option UInt64) : Prop :=
  ∀ l s, (number (f l s).1 = none ∧ counter (f l s).2 = counter s) ∨
    ((number (f l s).1 = none ∨ number (f l s).1 = some (counter s)) ∧
      counter (f l s).2 = counter s + 1)

variable {f : ℓ → σ → ρ × σ} {counter : σ → UInt64} {number : ρ → Option UInt64}

/-- The numbers of a run increase, from the counter's start on and below its end. -/
structure Drawn (start count : ℕ) (ns : List UInt64) : Prop where
  increasing : ns.Pairwise fun a b => a.toNat < b.toNat
  bounds : ∀ n ∈ ns, start ≤ n.toNat ∧ n.toNat < start + count

theorem Drawn.mono {start start' count count' : ℕ} {ns : List UInt64} (h : Drawn start count ns)
    (hstart : start' ≤ start) (hcount : start + count ≤ start' + count') :
    Drawn start' count' ns := by
  refine ⟨h.increasing, ?_⟩
  intro n hn
  have hbounds := h.bounds n hn
  omega

theorem Drawn.cons {count : ℕ} {c : UInt64} {ns : List UInt64}
    (h : Drawn (c.toNat + 1) count ns) : Drawn c.toNat (count + 1) (c :: ns) := by
  constructor
  · rw [List.pairwise_cons]
    exact ⟨fun n hn => (h.bounds n hn).1, h.increasing⟩
  · intro n hn
    cases hn with
    | head => omega
    | tail _ hn =>
        have hbounds := h.bounds n hn
        omega

/-- The numbers of a run whose counter does not wrap. -/
theorem drawn (h : Draws f counter number) (ls : List ℓ) (s : σ)
    (hwrap : (counter s).toNat + ls.length ≤ UInt64.size) :
    Drawn (counter s).toNat ls.length ((Machine.answers f ls s).filterMap number) := by
  induction ls generalizing s with
  | nil => exact ⟨.nil, by simp [Machine.answers]⟩
  | cons l ls ih =>
      rw [List.length_cons] at hwrap ⊢
      rw [Machine.answers]
      cases h l s with
      | inl hkept =>
          have hrest := ih (f l s).2 (by rw [hkept.2]; omega)
          rw [hkept.2] at hrest
          rw [List.filterMap_cons_none hkept.1]
          exact hrest.mono (by omega) (by omega)
      | inr hmoved =>
          have hrest : Drawn ((counter s).toNat + 1) ls.length
              ((Machine.answers f ls (f l s).2).filterMap number) := by
            cases ls with
            | nil => exact ⟨.nil, by simp [Machine.answers]⟩
            | cons k ls =>
                have hnext : (counter (f l s).2).toNat = (counter s).toNat + 1 := by
                  have hlt : (counter s).toNat + 1 < 18446744073709551616 := by
                    simp only [List.length_cons, UInt64.size] at hwrap
                    omega
                  rw [hmoved.2, UInt64.toNat_add]
                  exact Nat.mod_eq_of_lt hlt
                rw [← hnext]
                apply ih
                rw [hnext]
                omega
          cases hmoved.1 with
          | inl hnone =>
              rw [List.filterMap_cons_none hnone]
              exact hrest.mono (by omega) (by omega)
          | inr hsome =>
              rw [List.filterMap_cons_some hsome]
              exact hrest.cons

/-- A run of a machine from its start. -/
structure Life (σ ℓ : Type) where
  start : σ
  inputs : List ℓ

/-- Runs that draw have not passed the starts of later runs that draw, and no counter wraps. -/
structure Ahead (counter : σ → UInt64) (lives : List (Life σ ℓ)) : Prop where
  passed : lives.Pairwise fun a b => a.inputs = [] ∨ b.inputs = [] ∨
    (counter a.start).toNat + a.inputs.length ≤ (counter b.start).toNat
  unwrapped : ∀ a ∈ lives, (counter a.start).toNat + a.inputs.length ≤ UInt64.size

/-- No number is drawn twice in several runs, each ahead of those before it. -/
theorem nodup_lives (h : Draws f counter number) {lives : List (Life σ ℓ)}
    (hahead : Ahead counter lives) :
    (lives.flatMap fun a => (Machine.answers f a.inputs a.start).filterMap number).Nodup := by
  have hdrawn := fun a ha => drawn h (Life.inputs a) (Life.start a) (hahead.unwrapped a ha)
  apply List.Pairwise.imp (R := fun a b => a.toNat < b.toNat)
  · rintro a b hlt rfl
    exact Nat.lt_irrefl _ hlt
  · rw [List.pairwise_flatMap]
    refine ⟨fun a ha => (hdrawn a ha).increasing, ?_⟩
    refine hahead.passed.imp_of_mem fun {a b} ha hb hpassed x hx y hy => ?_
    have hxa := (hdrawn a ha).bounds x hx
    have hyb := (hdrawn b hb).bounds y hy
    rcases hpassed with hempty | hempty | hle
    · rw [hempty, List.length_nil] at hxa
      omega
    · rw [hempty, List.length_nil] at hyb
      omega
    · omega

end CeIam.Counter
