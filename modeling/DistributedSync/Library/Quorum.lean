import Mathlib.Data.Finset.Card
import Mathlib.Data.List.GetD
import Mathlib.Data.List.Pairwise
import Mathlib.Data.List.Sort
import Mathlib.Order.Bounds.Basic

/-!
# Majorities

A majority of a finite set has more than half of its elements. Two majorities meet, so a fact known
of one member of each is known of a common one. How much two quorums of any size have in common
depends on the two sizes alone (`le_card_inter_iff`). A value that enough elements of a list reach
is reached by the element at the matching place of the sorted list.
-/

namespace Quorum

variable {α : Type*} [DecidableEq α] {U Q Q' : Finset α}

/-- `Q` is a majority of `U`. -/
def Majority (U Q : Finset α) : Prop := Q ⊆ U ∧ U.card / 2 + 1 ≤ Q.card

theorem Majority.exists_mem (h : Majority U Q) (h' : Majority U Q') : ∃ x, x ∈ Q ∧ x ∈ Q' := by
  have hlt : U.card < Q.card + Q'.card := by
    have := h.2
    have := h'.2
    omega
  obtain ⟨x, hx⟩ := Finset.inter_nonempty_of_card_lt_card_add_card h.1 h'.1 hlt
  exact ⟨x, Finset.mem_inter.mp hx⟩

/-- A list without repetitions that reaches the threshold is a majority. -/
theorem majority_of_list {l : List α} (hnd : l.Nodup) (hsub : ∀ x ∈ l, x ∈ U)
    (hlen : U.card / 2 + 1 ≤ l.length) : Majority U l.toFinset := by
  refine ⟨fun x hx => hsub x (List.mem_toFinset.mp hx), ?_⟩
  rwa [List.toFinset_card_of_nodup hnd]

/-! ## Quorums of a fixed size -/

/-- Two subsets of the size `q` with as few common elements as there can be. -/
theorem exists_card_inter {q : ℕ} (hq : q ≤ U.card) :
    ∃ A ⊆ U, ∃ B ⊆ U, A.card = q ∧ B.card = q ∧ (A ∩ B).card = 2 * q - U.card := by
  obtain ⟨A, hA, hcard⟩ := Finset.exists_subset_card_eq hq
  have hrest := Finset.card_sdiff_of_subset hA
  rcases Nat.le_total U.card (2 * q) with hle | hle
  · -- `B` holds all that `A` lacks
    obtain ⟨B, hAB, hB, hcard'⟩ := Finset.exists_subsuperset_card_eq
      (Finset.sdiff_subset (s := U) (t := A)) (by omega) hq
    refine ⟨A, hA, B, hB, hcard, hcard', ?_⟩
    have hunion : A ∪ B = U := by
      refine Finset.Subset.antisymm (Finset.union_subset hA hB) fun x hx => ?_
      by_cases hxA : x ∈ A
      · exact Finset.mem_union_left _ hxA
      · exact Finset.mem_union_right _ (hAB (Finset.mem_sdiff.mpr ⟨hx, hxA⟩))
    have := Finset.card_union_add_card_inter A B
    rw [hunion] at this
    omega
  · -- `B` lies outside of `A`
    obtain ⟨B, hB, hcard'⟩ := Finset.exists_subset_card_eq (s := U \ A) (n := q) (by omega)
    refine ⟨A, hA, B, hB.trans Finset.sdiff_subset, hcard, hcard', ?_⟩
    have hdisj : A ∩ B = ∅ := Finset.disjoint_iff_inter_eq_empty.mp
      (Finset.disjoint_of_subset_right hB Finset.disjoint_sdiff)
    rw [hdisj, Finset.card_empty]
    omega

/-- Any two quorums of the size `q` have `t` common members exactly if `2 * q` exceeds the number of
all members by `t`. -/
theorem le_card_inter_iff {q t : ℕ} (hq : q ≤ U.card) (ht : 0 < t) :
    (∀ A ⊆ U, ∀ B ⊆ U, A.card = q → B.card = q → t ≤ (A ∩ B).card) ↔ t + U.card ≤ 2 * q := by
  constructor
  · intro h
    obtain ⟨A, hA, B, hB, hcard, hcard', hinter⟩ := exists_card_inter hq
    have := h A hA B hB hcard hcard'
    omega
  · intro h A hA B hB hcard hcard'
    have hunion := Finset.card_le_card (Finset.union_subset hA hB)
    have := Finset.card_union_add_card_inter A B
    omega

/-! ## Ranks -/

section Ranks

variable {α : Type*} [LinearOrder α] {l : List α} {k : ℕ} {x : α}

/-- In an ascending list, more than `l.length - (k + 1)` elements from `x` on leave position `k` to
one of them. -/
theorem le_getElem_of_countP (hs : l.Pairwise (· ≤ ·)) (hk : k < l.length)
    (hx : l.length < k + 1 + l.countP (x ≤ ·)) : x ≤ l[k] := by
  by_contra hlt
  -- otherwise all positions up to `k` are below `x`
  have hzero : (l.take (k + 1)).countP (x ≤ ·) = 0 := by
    refine List.countP_eq_zero.mpr fun y hy => ?_
    obtain ⟨j, hj, rfl⟩ := List.mem_iff_getElem.mp hy
    rw [List.length_take] at hj
    rw [List.getElem_take, decide_eq_true_eq]
    have hle : l[j] ≤ l[k] := hs.rel_get_of_le (a := ⟨j, by omega⟩) (b := ⟨k, hk⟩) (by
      show j ≤ k
      omega)
    exact fun hxy => hlt (hxy.trans hle)
  have hsplit := congrArg (List.countP (x ≤ ·)) (List.take_append_drop (k + 1) l)
  rw [List.countP_append, hzero, Nat.zero_add] at hsplit
  have hdrop := List.countP_le_length (p := fun y => decide (x ≤ y)) (l := l.drop (k + 1))
  rw [hsplit, List.length_drop] at hdrop
  omega

theorem le_getD_insertionSort (hk : k < l.length) (d : α)
    (hx : l.length < k + 1 + l.countP (x ≤ ·)) : x ≤ (l.insertionSort (· ≤ ·)).getD k d := by
  have hlen := List.length_insertionSort (· ≤ ·) l
  have hcount := (List.perm_insertionSort (· ≤ ·) l).countP_eq (x ≤ ·)
  rw [List.getD_eq_getElem _ _ (by omega)]
  refine le_getElem_of_countP (List.pairwise_insertionSort (· ≤ ·) l) (by omega) ?_
  rw [hcount, hlen]
  exact hx

theorem length_le_countP_getElem (hs : l.Pairwise (· ≤ ·)) (hk : k < l.length) :
    l.length - k ≤ l.countP (l[k] ≤ ·) := by
  have hall : (l.drop k).countP (l[k] ≤ ·) = l.length - k := by
    rw [← List.length_drop]
    refine List.countP_eq_length.mpr fun y hy => ?_
    obtain ⟨j, hj, rfl⟩ := List.mem_iff_getElem.mp hy
    rw [List.length_drop] at hj
    rw [List.getElem_drop, decide_eq_true_eq]
    exact hs.rel_get_of_le (a := ⟨k, hk⟩) (b := ⟨k + j, by omega⟩) (by
      show k ≤ k + j
      omega)
  rw [← hall]
  exact (List.drop_sublist k l).countP_le

/-- Position `k` of the sorted list holds the greatest value that all but `k` elements reach. -/
theorem isGreatest_getD_insertionSort (hk : k < l.length) (d : α) :
    IsGreatest {x | l.length - k ≤ l.countP (x ≤ ·)} ((l.insertionSort (· ≤ ·)).getD k d) := by
  have hlen := List.length_insertionSort (· ≤ ·) l
  have hlt : k < (l.insertionSort (· ≤ ·)).length := by omega
  have hle := length_le_countP_getElem (List.pairwise_insertionSort (· ≤ ·) l) hlt
  rw [← List.getD_eq_getElem _ d hlt, (List.perm_insertionSort (· ≤ ·) l).countP_eq] at hle
  constructor
  · show l.length - k ≤ _
    omega
  · intro x hx
    have hx : l.length - k ≤ l.countP (x ≤ ·) := hx
    exact le_getD_insertionSort hk d (by omega)

end Ranks

end Quorum
