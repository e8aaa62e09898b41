import CeIam.Library.Text
import Mathlib.Data.List.Induction
import Mathlib.Order.Compare
import Std.Data.ExtTreeMap

/-! # Finite maps in key order

Extensional balanced-tree maps over a linear order, read through `getElem?`.
Their entry list is strictly increasing, so two maps with the same lookups are
equal and list the same entries. -/

namespace CeIam

/-- A finite map that iterates in increasing key order. -/
abbrev OrdMap (κ : Type) [LinearOrder κ] (β : Type) : Type :=
  Std.ExtTreeMap κ β compare

namespace OrdMap

variable {κ : Type} [LinearOrder κ] {α β : Type}

theorem ext {m n : OrdMap κ β} (h : ∀ k : κ, m[k]? = n[k]?) : m = n :=
  Std.ExtTreeMap.ext_getElem? h

@[simp] theorem get_empty (a : κ) : (∅ : OrdMap κ β)[a]? = none := by
  simp

@[simp] theorem get_insert (m : OrdMap κ β) (k a : κ) (v : β) :
    (m.insert k v)[a]? = if k = a then some v else m[a]? := by
  simp [Std.ExtTreeMap.getElem?_insert]

@[simp] theorem get_erase (m : OrdMap κ β) (k a : κ) :
    (m.erase k)[a]? = if k = a then none else m[a]? := by
  simp [Std.ExtTreeMap.getElem?_erase]

theorem mem_toList {m : OrdMap κ β} {e : κ × β} : e ∈ m.toList ↔ m[e.1]? = some e.2 :=
  Std.ExtTreeMap.mem_toList_iff_getElem?_eq_some

@[simp] theorem toList_empty : (∅ : OrdMap κ β).toList = [] := by
  apply List.eq_nil_iff_forall_not_mem.mpr
  intro e he
  rw [mem_toList, get_empty] at he
  cases he

/-- The entries of a map are listed in strictly increasing key order. -/
theorem sorted_toList (m : OrdMap κ β) : m.toList.Pairwise (fun a b => a.1 < b.1) := by
  simpa only [compare_lt_iff_lt] using m.ordered_keys_toList

/-- The map of one entry. -/
theorem toList_eq_singleton {m : OrdMap κ β} {k : κ} {v : β} :
    m.toList = [(k, v)] ↔ ∀ a : κ, m[a]? = if k = a then some v else none := by
  constructor
  · intro h a
    split_ifs with ha
    · subst ha
      have hmem : (k, v) ∈ m.toList := h ▸ List.mem_cons_self
      exact mem_toList.mp hmem
    · rw [Option.eq_none_iff_forall_ne_some]
      intro w hw
      have hmem := mem_toList.mpr (show m[(a, w).1]? = some (a, w).2 from hw)
      rw [h, List.mem_singleton] at hmem
      exact ha (congrArg Prod.fst hmem).symm
  · intro h
    have hnodup : m.toList.Nodup := m.sorted_toList.imp fun hlt heq => hlt.ne (congrArg _ heq)
    refine List.perm_singleton.mp ((List.perm_ext_iff_of_nodup hnodup (by simp)).mpr ?_)
    rintro ⟨a, w⟩
    rw [mem_toList, h, List.mem_singleton, Prod.mk.injEq]
    split_ifs with ha
    · simp [ha, eq_comm]
    · simp [Ne.symm ha]

theorem erase_eq_self {m : OrdMap κ β} {k : κ} (h : m[k]? = none) : m.erase k = m := by
  apply ext
  intro a
  rw [get_erase]
  split
  · next hk => rw [← hk, h]
  · rfl

/-- Erasing changes nothing exactly where there is nothing to erase. -/
theorem erase_eq_iff {m : OrdMap κ β} {k : κ} : m.erase k = m ↔ m[k]? = none := by
  refine ⟨fun h => ?_, erase_eq_self⟩
  rw [← h, get_erase, if_pos rfl]

/-- Inserting changes nothing exactly when the value is there already. -/
theorem insert_eq_iff {m : OrdMap κ β} {k : κ} {v : β} : m.insert k v = m ↔ m[k]? = some v := by
  constructor
  · intro h
    rw [← h, get_insert, if_pos rfl]
  · intro h
    apply ext
    intro a
    rw [get_insert]
    split
    · next hk => rw [← hk, h]
    · rfl

theorem mem_iff_exists {m : OrdMap κ β} {k : κ} : k ∈ m ↔ ∃ v, m[k]? = some v := by
  rw [Std.ExtTreeMap.mem_iff_isSome_getElem?, Option.isSome_iff_exists]

theorem get_eq_none_iff {m : OrdMap κ β} {k : κ} : m[k]? = none ↔ k ∉ m := by
  rw [Std.ExtTreeMap.mem_iff_isSome_getElem?, Option.not_isSome_iff_eq_none]

/-- A key list read back through the map is the entry list. -/
theorem filterMap_keys (m : OrdMap κ β) (f : κ → β → α) :
    m.keys.filterMap (fun k => (m[k]?).map (f k)) = m.toList.map (fun e => f e.1 e.2) := by
  rw [← Std.ExtTreeMap.map_fst_toList_eq_keys, List.filterMap_map, ← List.filterMap_eq_map]
  apply List.filterMap_congr
  intro e he
  simp [mem_toList.mp he]

private theorem foldl_insert (es : List (κ × β)) (acc : OrdMap κ β)
    (hs : es.Pairwise (fun a b => a.1 < b.1)) (k : κ) :
    (∀ v, (k, v) ∈ es → (es.foldl (fun m e => m.insert e.1 e.2) acc)[k]? = some v) ∧
      ((∀ v, (k, v) ∉ es) → (es.foldl (fun m e => m.insert e.1 e.2) acc)[k]? = acc[k]?) := by
  induction es generalizing acc with
  | nil => simp
  | cons e es ih =>
      obtain ⟨he, hs⟩ := List.pairwise_cons.mp hs
      obtain ⟨hin, hout⟩ := ih (acc.insert e.1 e.2) hs
      constructor
      · rintro v (_ | ⟨_, hv⟩)
        · have hfresh : ∀ w, (k, w) ∉ es := fun w hw => (he (k, w) hw).false
          simpa using hout hfresh
        · exact hin v hv
      · intro hnone
        have hne : e.1 ≠ k := by
          rintro rfl
          exact hnone e.2 List.mem_cons_self
        rw [List.foldl_cons, hout (fun v hv => hnone v (List.mem_cons_of_mem _ hv)), get_insert,
          if_neg hne]

/-- Inserting the entries of a map one after another rebuilds the map. -/
theorem foldl_insert_toList (m : OrdMap κ β) :
    m.toList.foldl (fun acc e => acc.insert e.1 e.2) ∅ = m := by
  apply ext
  intro k
  obtain ⟨hin, hout⟩ := foldl_insert m.toList ∅ m.sorted_toList k
  cases hget : m[k]? with
  | some v => exact hin v (mem_toList.mpr hget)
  | none =>
      refine (hout ?_).trans (get_empty k)
      intro v hv
      rw [mem_toList, hget] at hv
      cases hv

/-- A map is known from the list of its entries with their values encoded. -/
theorem map_toList_injective {f : β → α} (hf : Function.Injective f) :
    Function.Injective fun m : OrdMap κ β => m.toList.map fun e => (e.1, f e.2) := by
  intro m n h
  have hpair : Function.Injective fun e : κ × β => (e.1, f e.2) := by
    rintro ⟨k, v⟩ ⟨l, w⟩ he
    simpa [hf.eq_iff] using he
  have hlist := List.map_injective_iff.mpr hpair h
  apply ext
  intro k
  apply Option.ext
  intro v
  rw [← mem_toList (e := (k, v)), ← mem_toList (e := (k, v)), hlist]

/-! ## Entries under a prefix -/

/-- The entries from `p` on, while their key starts with `p`. -/
def scanPrefix (m : OrdMap String β) (p : String) : List (String × β) :=
  (m.toList.dropWhile (fun e => e.1 < p)).takeWhile (fun e => Text.startsWith e.1 p)

private theorem takeWhile_startsWith (p : String) (xs : List (String × β))
    (hs : xs.Pairwise (fun a b => a.1 < b.1)) (hp : ∀ e ∈ xs, p ≤ e.1) :
    xs.takeWhile (fun e => Text.startsWith e.1 p) =
      xs.filter (fun e => Text.startsWith e.1 p) := by
  induction xs with
  | nil => rfl
  | cons e xs ih =>
      obtain ⟨he, hs⟩ := List.pairwise_cons.mp hs
      by_cases h : Text.startsWith e.1 p = true
      · simp [h, ih hs (fun a ha => hp a (List.mem_cons_of_mem e ha))]
      · -- A later key with the prefix would put `e` inside the interval.
        have hnone : xs.filter (fun a => Text.startsWith a.1 p) = [] := by
          apply List.filter_eq_nil_iff.mpr
          intro a ha hpa
          exact h (Text.startsWith_of_between (hp e List.mem_cons_self) (he a ha).le hpa)
        simp [h, hnone]

/-- A scan returns exactly the entries whose key has the prefix, in key order. -/
theorem scanPrefix_eq_filter (m : OrdMap String β) (p : String) :
    m.scanPrefix p = m.toList.filter (fun e => Text.startsWith e.1 p) := by
  rw [scanPrefix]
  have hs := m.sorted_toList
  generalize m.toList = entries at hs ⊢
  induction entries with
  | nil => rfl
  | cons e xs ih =>
      have hs' := (List.pairwise_cons.mp hs).2
      by_cases h : e.1 < p
      · have hn : Text.startsWith e.1 p = false := by
          rw [Bool.eq_false_iff]
          exact fun hsw => absurd (Text.le_of_startsWith hsw) (not_le.mpr h)
        simp only [List.dropWhile_cons, List.filter_cons, h, hn, decide_true, if_true, ih hs',
          Bool.false_eq_true, if_false]
      · simp only [List.dropWhile_cons, h, decide_false, Bool.false_eq_true, if_false]
        apply takeWhile_startsWith p _ hs
        intro a ha
        rcases List.mem_cons.mp ha with rfl | ha
        · exact not_lt.mp h
        · exact (not_lt.mp h).trans ((List.pairwise_cons.mp hs).1 a ha).le

theorem mem_scanPrefix {m : OrdMap String β} {p : String} {e : String × β} :
    e ∈ m.scanPrefix p ↔ m[e.1]? = some e.2 ∧ Text.startsWith e.1 p = true := by
  rw [scanPrefix_eq_filter, List.mem_filter, mem_toList]

/-- Maps that agree on the keys selected by `f` list the same selected entries. -/
theorem filter_toList_congr {m n : OrdMap κ β} (f : κ → Bool)
    (h : ∀ k : κ, f k = true → m[k]? = n[k]?) :
    m.toList.filter (fun e => f e.1) = n.toList.filter (fun e => f e.1) := by
  have hfilter : m.filter (fun k _ => f k) = n.filter (fun k _ => f k) := by
    apply ext
    intro k
    rw [Std.ExtTreeMap.getElem?_filter', Std.ExtTreeMap.getElem?_filter']
    cases hk : f k with
    | true => rw [h k hk]
    | false => cases m[k]? <;> cases n[k]? <;> simp [Option.filter]
  have hlist := congrArg Std.ExtTreeMap.toList hfilter
  simpa only [Std.ExtTreeMap.toList_filter] using hlist

/-! ## Grouping -/

/-- One accumulator for each key: `init` makes it from the first element with that
key, and `add` folds every element with the key into it. -/
def groupBy (key : α → κ) (init : α → β) (add : β → α → β) (xs : List α) : OrdMap κ β :=
  xs.foldl (fun m x => m.insert (key x) (add ((m[key x]?).getD (init x)) x)) ∅

/-- The elements with key `k`, folded into an accumulator made from the first. -/
def groupOf (key : α → κ) (init : α → β) (add : β → α → β) (xs : List α) (k : κ) :
    Option β :=
  match xs.filter (fun x => key x = k) with
  | [] => none
  | x :: rest => some ((x :: rest).foldl add (init x))

theorem get_groupBy (key : α → κ) (init : α → β) (add : β → α → β) (xs : List α) (k : κ) :
    (groupBy key init add xs)[k]? = groupOf key init add xs k := by
  induction xs using List.reverseRecOn with
  | nil => simp [groupBy, groupOf]
  | append_singleton xs x ih =>
      have hstep : groupBy key init add (xs ++ [x]) =
          (groupBy key init add xs).insert (key x)
            (add (((groupBy key init add xs)[key x]?).getD (init x)) x) := by
        simp [groupBy, List.foldl_append]
      rw [hstep, get_insert]
      by_cases h : key x = k
      · subst h
        rw [if_pos rfl, ih]
        simp only [groupOf, List.filter_append, List.filter_cons, decide_true, ite_true,
          List.filter_nil]
        cases xs.filter (fun y => key y = key x) with
        | nil => simp
        | cons y ys => simp [List.foldl_append]
      · simp [h, ih, groupOf, List.filter_append]

/-- There are at most as many groups as elements. -/
theorem length_groupBy_le (key : α → κ) (init : α → β) (add : β → α → β) (xs : List α) :
    (groupBy key init add xs).toList.length ≤ xs.length := by
  rw [Std.ExtTreeMap.length_toList]
  induction xs using List.reverseRecOn with
  | nil => simp [groupBy]
  | append_singleton xs x ih =>
      rw [groupBy, List.foldl_append, List.length_append]
      exact Std.ExtTreeMap.size_insert_le.trans (Nat.succ_le_succ ih)

end OrdMap

end CeIam
