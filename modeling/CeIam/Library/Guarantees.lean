import CeIam.Library.Interleave

/-! # What a computation relies on and guarantees

Each of the computations that share a store relies on what the records it reads satisfy, and
guarantees something of the records it writes. When what is guaranteed is what is relied on, it
holds of the store however the computations take turns. -/

namespace CeIam

namespace StoreProg

variable {κ ν ε α β σ τ ι : Type} {L : κ → Prop} {R G : κ → ν → Prop} {Q : α → Prop}
  {S : β → Prop}

/-- As long as the records that it reads satisfy `R`, the computation lists prefixes of `L` only,
the records that it writes satisfy `G`, and so does a result that it returns `Q`. -/
def Guarantees (L : κ → Prop) (R G : κ → ν → Prop) (Q : α → Prop) : StoreProg κ ν ε α → Prop
  | .done r => ∀ a, r = .ok a → Q a
  | .get k next => ∀ o, (∀ v, o = some v → R k v) → (next o).Guarantees L R G Q
  | .put k v next => G k v ∧ next.Guarantees L R G Q
  | .del _ next => next.Guarantees L R G Q
  | .list p next => L p ∧ ∀ es, (∀ e ∈ es, R e.1 e.2) → (next es).Guarantees L R G Q

/-! ## Composition -/

theorem guarantees_pure {a : α} (h : Q a) :
    (pure a : StoreProg κ ν ε α).Guarantees L R G Q := by
  intro c hc
  cases hc
  exact h

theorem guarantees_lift (r : Except ε α) :
    (liftM r : StoreProg κ ν ε α).Guarantees L R G (fun a => r = .ok a) :=
  fun _ h => h

theorem guarantees_fail (e : ε) : (fail e : StoreProg κ ν ε α).Guarantees L R G Q :=
  fun _ h => nomatch h

theorem guarantees_require (e : ε) (o : Option α) :
    (require e o : StoreProg κ ν ε α).Guarantees L R G (fun a => o = some a) := by
  cases o with
  | none => exact guarantees_fail e
  | some a => exact guarantees_pure rfl

theorem guarantees_fetch (k : κ) :
    (fetch k : StoreProg κ ν ε (Option ν)).Guarantees L R G (fun o => ∀ v, o = some v → R k v) :=
  fun _ ho => guarantees_pure ho

theorem guarantees_store {k : κ} {v : ν} (h : G k v) :
    (store k v : StoreProg κ ν ε Unit).Guarantees L R G (fun _ => True) :=
  ⟨h, guarantees_pure trivial⟩

theorem guarantees_remove (k : κ) :
    (remove k : StoreProg κ ν ε Unit).Guarantees L R G (fun _ => True) :=
  fun _ _ => trivial

theorem guarantees_scan {p : κ} (h : L p) :
    (scan p : StoreProg κ ν ε (List (κ × ν))).Guarantees L R G
      (fun es => ∀ e ∈ es, R e.1 e.2) :=
  ⟨h, fun _ hes => guarantees_pure hes⟩

theorem Guarantees.bind {x : StoreProg κ ν ε α} {f : α → StoreProg κ ν ε β}
    (hx : x.Guarantees L R G Q) (hf : ∀ a, Q a → (f a).Guarantees L R G S) :
    (x >>= f).Guarantees L R G S := by
  change (x.bind f).Guarantees L R G S
  induction x with
  | done r =>
      cases r with
      | ok a => exact hf a (hx a rfl)
      | error e => exact guarantees_fail e
  | get k next ih => exact fun o ho => ih o (hx o ho)
  | put k v next ih => exact ⟨hx.1, ih hx.2⟩
  | del k next ih => exact ih hx
  | list p next ih => exact ⟨hx.1, fun es hes => ih es (hx.2 es hes)⟩

/-- A computation of whose results nothing is to be said. -/
theorem Guarantees.andThen {x : StoreProg κ ν ε α} {f : α → StoreProg κ ν ε β}
    (hx : x.Guarantees L R G Q) (hf : ∀ a, (f a).Guarantees L R G (fun _ => True)) :
    (x >>= f).Guarantees L R G (fun _ => True) :=
  hx.bind fun a _ => hf a

theorem Guarantees.map {x : StoreProg κ ν ε α} {f : α → β} (hx : x.Guarantees L R G Q)
    (hf : ∀ a, Q a → S (f a)) : (f <$> x).Guarantees L R G S :=
  hx.bind fun a ha => guarantees_pure (hf a ha)

/-- The reply of a computation of whose results nothing is to be said. -/
theorem Guarantees.reply {x : StoreProg κ ν ε α} {f : α → β} (hx : x.Guarantees L R G Q) :
    (f <$> x).Guarantees L R G (fun _ => True) :=
  hx.map fun _ _ => trivial

theorem guarantees_fetched (k : κ) (f : Option ν → α) :
    (do let o ← fetch k; return f o : StoreProg κ ν ε α).Guarantees L R G (fun _ => True) :=
  (guarantees_fetch k).andThen fun _ => guarantees_pure trivial

theorem guarantees_scanned {p : κ} (h : L p) (f : List (κ × ν) → α) :
    (do let es ← scan p; return f es : StoreProg κ ν ε α).Guarantees L R G (fun _ => True) :=
  (guarantees_scan h).andThen fun _ => guarantees_pure trivial

/-- A check that ends the computation, and what follows it when it does not. -/
theorem Guarantees.check {p : Prop} [Decidable p] {e : ε} {rest : Unit → StoreProg κ ν ε α}
    (h : ¬ p → (rest ()).Guarantees L R G Q) :
    (if p then fail e >>= rest else rest ()).Guarantees L R G Q := by
  by_cases hp : p
  · rw [if_pos hp]
    exact guarantees_fail e
  · rw [if_neg hp]
    exact h hp

theorem Guarantees.mono {x : StoreProg κ ν ε α} {Q' : α → Prop} (hx : x.Guarantees L R G Q)
    (h : ∀ a, Q a → Q' a) : x.Guarantees L R G Q' := by
  induction x with
  | done r => exact fun a ha => h a (hx a ha)
  | get k next ih => exact fun o ho => ih o (hx o ho)
  | put k v next ih => exact ⟨hx.1, ih hx.2⟩
  | del k next ih => exact ih hx
  | list p next ih => exact ⟨hx.1, fun es hes => ih es (hx.2 es hes)⟩

theorem Guarantees.mapError {δ : Type} {f : ε → δ} {x : StoreProg κ ν ε α}
    (hx : x.Guarantees L R G Q) : (x.mapError f).Guarantees L R G Q := by
  induction x with
  | done r =>
      intro a ha
      cases r with
      | ok c => exact hx a (congrArg Except.ok (Except.ok.inj ha))
      | error e => cases ha
  | get k next ih => exact fun o ho => ih o (hx o ho)
  | put k v next ih => exact ⟨hx.1, ih hx.2⟩
  | del k next ih => exact ih hx
  | list p next ih => exact ⟨hx.1, fun es hes => ih es (hx.2 es hes)⟩

end StoreProg

/-! ## A computation by itself -/

variable {σ τ ι κ ν ε α : Type} {b : Backend σ κ ν}

/-- What is found in the store was put there. -/
structure Backend.Faithful (b : Backend σ κ ν) : Prop where
  get_put : ∀ {s k v l w}, b.get (b.put s k v) l = some w → (l = k ∧ w = v) ∨ b.get s l = some w
  get_del : ∀ {s k l w}, b.get (b.del s k) l = some w → b.get s l = some w
  mem_list : ∀ {s p e}, e ∈ b.list s p → b.get s e.1 = some e.2

/-- Every record satisfies the predicate. -/
def Backend.Holds (b : Backend σ κ ν) (R : κ → ν → Prop) (s : σ) : Prop :=
  ∀ k v, b.get s k = some v → R k v

section Alone

variable {L : κ → Prop} {R : κ → ν → Prop} {Q : α → Prop} {s : σ}

theorem Backend.Holds.put (hb : b.Faithful) (hs : b.Holds R s) {k : κ} {v : ν} (hv : R k v) :
    b.Holds R (b.put s k v) := by
  intro l w hl
  rcases hb.get_put hl with ⟨rfl, rfl⟩ | hold
  · exact hv
  · exact hs l w hold

theorem Backend.Holds.del (hb : b.Faithful) (hs : b.Holds R s) (k : κ) :
    b.Holds R (b.del s k) :=
  fun l w hl => hs l w (hb.get_del hl)

/-- A computation that guarantees what it relies on keeps it. -/
theorem StoreProg.Guarantees.run (hb : b.Faithful) {x : StoreProg κ ν ε α}
    (hx : x.Guarantees L R R Q) (hs : b.Holds R s) :
    b.Holds R (x.run b s).2 ∧ ∀ a, (x.run b s).1 = .ok a → Q a := by
  induction x generalizing s with
  | done r => exact ⟨hs, hx⟩
  | get k next ih => exact ih _ (hx _ fun v hv => hs k v hv) hs
  | put k v next ih => exact ih hx.2 (hs.put hb hx.1)
  | del k next ih => exact ih hx (hs.del hb k)
  | list p next ih => exact ih _ (hx.2 _ fun e he => hs e.1 e.2 (hb.mem_list he)) hs

/-- The calls of a store that may fail do what those of another store do, as long as the records
that are there or put satisfy `R`, and but for listing. -/
structure Mirrors (fb : StoreProg.FallibleBackend τ κ ν ε) (b : Backend σ κ ν) (R : κ → ν → Prop)
    (M : τ → σ → Prop) : Prop where
  get : ∀ {t s} k, M t s → b.Holds R s → ∃ u, fb.get k t = (.ok (b.get s k), u) ∧ M u s
  put : ∀ {t s} k v, R k v → M t s → ∃ u, fb.put k v t = (.ok (), u) ∧ M u (b.put s k v)
  del : ∀ {t s} k, M t s → ∃ u, fb.del k t = (.ok (), u) ∧ M u (b.del s k)

/-- A computation that lists nothing does on a store what it does on the one that it mirrors. -/
theorem StoreProg.Guarantees.runOn (hb : b.Faithful) {fb : FallibleBackend τ κ ν ε}
    {M : τ → σ → Prop} (hfb : Mirrors fb b R M) {x : StoreProg κ ν ε α} {t : τ}
    (hx : x.Guarantees (fun _ => False) R R Q) (hs : b.Holds R s) (hM : M t s) :
    ∃ u, x.runOn fb t = ((x.run b s).1, u) ∧ M u (x.run b s).2 := by
  induction x generalizing s t with
  | done r => exact ⟨t, rfl, hM⟩
  | get k next ih =>
      obtain ⟨u, hget, hu⟩ := hfb.get k hM hs
      rw [runOn, hget]
      exact ih _ (hx _ fun v hv => hs k v hv) hs hu
  | put k v next ih =>
      obtain ⟨u, hput, hu⟩ := hfb.put k v hx.1 hM
      rw [runOn, hput]
      exact ih hx.2 (hs.put hb hx.1) hu
  | del k next ih =>
      obtain ⟨u, hdel, hu⟩ := hfb.del k hM
      rw [runOn, hdel]
      exact ih hx (hs.del hb k) hu
  | list p next ih => exact hx.1.elim

end Alone

/-! ## Computations that take turns -/

section Together

variable {c d : Shared σ ι κ ν ε α} {e : StoreEvent ι κ ν ε}
  {events : List (StoreEvent ι κ ν ε)} {L : κ → Prop} {R : κ → ν → Prop}
  {G : ι → κ → ν → Prop} {Q : ι → α → Prop}

/-- The computation of one of the events wrote the record, as it guarantees. -/
def PutBy (G : ι → κ → ν → Prop) (events : List (StoreEvent ι κ ν ε)) (k : κ) (v : ν) : Prop :=
  ∃ e ∈ events, e.call = .put k v ∧ G e.who k v

theorem PutBy.mono {k : κ} {v : ν} {more : List (StoreEvent ι κ ν ε)} (h : PutBy G events k v) :
    PutBy G (events ++ more) k v := by
  obtain ⟨e, he, hput⟩ := h
  exact ⟨e, List.mem_append_left _ he, hput⟩

variable [DecidableEq ι]

/-- The computations keep their guarantees when their calls return what they rely on. -/
theorem prog_step (hb : b.Faithful) (hstore : b.Holds R c.store)
    (hprog : ∀ i, (c.prog i).Guarantees L R (G i) (Q i)) (hstep : interleaved b c e d) (i : ι) :
    (d.prog i).Guarantees L R (G i) (Q i) := by
  obtain ⟨rest, hnext, rfl⟩ := hstep
  by_cases hi : i = e.who
  · subst hi
    have hrest : rest.Guarantees L R (G e.who) (Q e.who) := by
      have h := hprog e.who
      generalize c.prog e.who = x at hnext h
      cases x with
      | done r => cases hnext
      | get k next =>
          obtain ⟨-, rfl⟩ := Prod.mk.inj (Option.some.inj hnext)
          exact h _ fun v hv => hstore k v hv
      | put k v next =>
          obtain ⟨-, rfl⟩ := Prod.mk.inj (Option.some.inj hnext)
          exact h.2
      | del k next =>
          obtain ⟨-, rfl⟩ := Prod.mk.inj (Option.some.inj hnext)
          exact h
      | list p next =>
          obtain ⟨-, rfl⟩ := Prod.mk.inj (Option.some.inj hnext)
          exact h.2 _ fun e he => hstore e.1 e.2 (hb.mem_list he)
    simp only [Function.update_self]
    cases e.fate with
    | answered => exact hrest
    | refused x => exact StoreProg.guarantees_fail x
    | lost x => exact StoreProg.guarantees_fail x
  · simp only [Function.update_of_ne hi]
    exact hprog i

/-- What is found after a call was there before, or the call put it as its computation
guarantees. -/
theorem store_step (hb : b.Faithful) (hprog : (c.prog e.who).Guarantees L R (G e.who) (Q e.who))
    (hstep : interleaved b c e d) {k : κ} {v : ν} (h : b.get d.store k = some v) :
    b.get c.store k = some v ∨ PutBy G [e] k v := by
  obtain ⟨rest, hnext, rfl⟩ := hstep
  have heffect : b.get (e.call.effect b c.store) k = some v →
      b.get c.store k = some v ∨ PutBy G [e] k v := by
    intro hget
    generalize c.prog e.who = x at hnext hprog
    cases x with
    | done r => cases hnext
    | get l next =>
        obtain ⟨hcall, -⟩ := Prod.mk.inj (Option.some.inj hnext)
        rw [← hcall] at hget
        exact .inl hget
    | put l w next =>
        obtain ⟨hcall, -⟩ := Prod.mk.inj (Option.some.inj hnext)
        rw [← hcall] at hget
        rcases hb.get_put hget with ⟨rfl, rfl⟩ | hold
        · exact .inr ⟨e, List.mem_cons_self, hcall.symm, hprog.1⟩
        · exact .inl hold
    | del l next =>
        obtain ⟨hcall, -⟩ := Prod.mk.inj (Option.some.inj hnext)
        rw [← hcall] at hget
        exact .inl (hb.get_del hget)
    | list p next =>
        obtain ⟨hcall, -⟩ := Prod.mk.inj (Option.some.inj hnext)
        rw [← hcall] at hget
        exact .inl hget
  cases hfate : e.fate with
  | answered =>
      rw [hfate] at h
      exact heffect h
  | refused x =>
      rw [hfate] at h
      exact .inl h
  | lost x =>
      rw [hfate] at h
      exact heffect h

/-- When what the computations guarantee of the records that they write is what they rely on, every
record that is found was written as guaranteed, and every result is one that is guaranteed. -/
theorem Run.guarantees (hb : b.Faithful) (hempty : ∀ k, b.get c.store k = none)
    (hrely : ∀ k v, PutBy G events k v → R k v)
    (hprog : ∀ i, (c.prog i).Guarantees L R (G i) (Q i))
    (hrun : Run (interleaved b) c events d) :
    b.Holds (PutBy G events) d.store ∧ ∀ i, (d.prog i).Guarantees L R (G i) (Q i) := by
  induction hrun with
  | nil => exact ⟨fun k v h => absurd h (by simp [hempty]), hprog⟩
  | @snoc d d' events e hbefore hstep ih =>
      obtain ⟨hstore, hprogs⟩ := ih fun k v h => hrely k v h.mono
      have hholds : b.Holds R d.store := fun k v h => hrely k v (hstore k v h).mono
      refine ⟨fun k v h => ?_, prog_step hb hholds hprogs hstep⟩
      rcases store_step hb (hprogs e.who) hstep h with hold | ⟨e', he', hput⟩
      · exact (hstore k v hold).mono
      · exact ⟨e', List.mem_append_right _ he', hput⟩

end Together

end CeIam
