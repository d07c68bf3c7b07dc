import Mathlib.Data.List.Sort
import Mathlib.Order.Defs.LinearOrder

/-!
# Stable sorting

Sorting by a key keeps the order of items with the same key. So it does not matter whether items are
taken out before the sort or after it (`filter_insertionSort`), and the first item is the one that a
search for the minimum finds (`head?_insertionSort`).
-/

namespace StableSort

variable {α β : Type*} [LinearOrder β] {f : α → β} {a : α} {l : List α}

theorem orderedInsert_of_forall_le (h : ∀ b ∈ l, f a ≤ f b) :
    l.orderedInsert (fun a b => f a ≤ f b) a = a :: l := by
  cases l with
  | nil => rfl
  | cons b l => exact List.orderedInsert_cons_of_le _ _ (h b List.mem_cons_self)

theorem filter_orderedInsert (p : α → Bool) (hl : l.Pairwise fun a b => f a ≤ f b) :
    (l.orderedInsert (fun a b => f a ≤ f b) a).filter p =
      if p a then (l.filter p).orderedInsert (fun a b => f a ≤ f b) a else l.filter p := by
  induction l with
  | nil =>
    rw [List.orderedInsert_nil, List.filter_nil, List.filter_singleton]
    cases p a <;> rfl
  | cons b l ih =>
    obtain ⟨hb, hl⟩ := List.pairwise_cons.mp hl
    by_cases h : f a ≤ f b
    · have hcons := List.orderedInsert_cons_of_le (fun a b => f a ≤ f b) l h
      have hall : ∀ c ∈ (b :: l).filter p, f a ≤ f c := fun c hc => by
        rcases List.mem_cons.mp (List.mem_of_mem_filter hc) with rfl | hc
        · exact h
        · exact h.trans (hb c hc)
      rw [hcons, List.filter_cons, orderedInsert_of_forall_le hall]
    · rw [List.orderedInsert_of_not_le (fun a b => f a ≤ f b) l h, List.filter_cons,
        List.filter_cons, ih hl]
      cases p a
      · rfl
      · cases p b
        · rfl
        · exact (List.orderedInsert_of_not_le (fun a b => f a ≤ f b) _ h).symm

theorem filter_insertionSort (p : α → Bool) (l : List α) :
    (l.insertionSort fun a b => f a ≤ f b).filter p =
      (l.filter p).insertionSort fun a b => f a ≤ f b := by
  induction l with
  | nil => rfl
  | cons a l ih =>
    rw [List.insertionSort_cons, filter_orderedInsert p (List.pairwise_insertionSort _ l), ih,
      List.filter_cons]
    cases p a <;> rfl

theorem head?_insertionSort (l : List α) :
    (l.insertionSort fun a b => f a ≤ f b).head? = l.minOn? f := by
  induction l with
  | nil => rfl
  | cons a l ih =>
    rw [List.insertionSort_cons, List.minOn?_cons, ← ih]
    rcases (l.insertionSort fun a b => f a ≤ f b) with _ | ⟨b, l'⟩
    · rfl
    · rw [List.orderedInsert_cons, List.head?_cons, Option.elim_some, minOn]
      split <;> rfl

/-- A list of items with different names, less those that are named like its first. -/
theorem filter_notMem_take {γ : Type*} [DecidableEq γ] {name : α → γ} (h : (l.map name).Nodup)
    (k : ℕ) : l.filter (fun a => name a ∉ (l.take k).map name) = l.drop k := by
  have hdisjoint := List.disjoint_take_drop h (le_refl k)
  rw [← List.map_take, ← List.map_drop] at hdisjoint
  have htake : (l.take k).filter (fun a => name a ∉ (l.take k).map name) = [] :=
    List.filter_eq_nil_iff.mpr fun a ha h => of_decide_eq_true h (List.mem_map_of_mem ha)
  have hdrop : (l.drop k).filter (fun a => name a ∉ (l.take k).map name) = l.drop k :=
    List.filter_eq_self.mpr fun a ha => decide_eq_true fun ha' =>
      hdisjoint ha' (List.mem_map_of_mem ha)
  conv_lhs => arg 2; rw [← List.take_append_drop k l]
  rw [List.filter_append, htake, hdrop, List.nil_append]

end StableSort
