import Mathlib.Data.Finset.Sort
import Mathlib.Data.List.Dedup

/-!
# Rings of points

Points of a linear order, laid out on a ring: the walk that starts at a point `x` meets the points
from `x` upwards and then, round the end, those below `x` (`clockwise`). Every point has an owner,
and a key belongs to the owner of the first point met (`ownerOf`).

More points mean that some are met in between (`filter_clockwise`). So a key changes its owner only
if the first point met is a new one (`ownerOf_of_subset`).
-/

namespace HashRing

variable {α β : Type*}

/-! ## Distinct elements in the order of their first occurrence -/

section EraseDups

variable [BEq β] [LawfulBEq β]

theorem nodup_eraseDups (l : List β) : l.eraseDups.Nodup := by
  induction l using List.reverseRecOn with
  | nil => exact List.nodup_nil
  | append_singleton l b ih =>
    rw [List.eraseDups_append]
    refine ih.append ?_ ?_
    · by_cases hb : b ∈ l <;> simp [List.removeAll, hb, List.eraseDups_cons]
    · intro c hc hc'
      rw [List.mem_eraseDups] at hc hc'
      simp [List.removeAll] at hc'
      exact hc'.2 hc

theorem eraseDups_prefix (l l' : List β) : l.eraseDups <+: (l ++ l').eraseDups := by
  rw [List.eraseDups_append]
  exact List.prefix_append ..

theorem eraseDups_append_of_subset {l l' : List β} (h : ∀ b ∈ l', b ∈ l) :
    (l ++ l').eraseDups = l.eraseDups := by
  have hnil : l'.removeAll l = [] := List.filter_eq_nil_iff.mpr fun b hb => by simp [h b hb]
  rw [List.eraseDups_append, hnil, List.eraseDups_nil, List.append_nil]

theorem eraseDups_concat_of_mem {l : List β} {b : β} (h : b ∈ l) :
    (l ++ [b]).eraseDups = l.eraseDups :=
  eraseDups_append_of_subset fun c hc => by rwa [List.mem_singleton.mp hc]

theorem eraseDups_concat_of_notMem {l : List β} {b : β} (h : b ∉ l) :
    (l ++ [b]).eraseDups = l.eraseDups ++ [b] := by
  have hself : [b].removeAll l = [b] := List.filter_eq_self.mpr fun c hc => by
    rw [List.mem_singleton.mp hc]
    simpa using h
  rw [List.eraseDups_append, hself, List.eraseDups_cons, List.filter_nil, List.eraseDups_nil]

theorem eraseDups_filter (p : β → Bool) (l : List β) :
    (l.filter p).eraseDups = l.eraseDups.filter p := by
  induction l using List.reverseRecOn with
  | nil => rfl
  | append_singleton l b ih =>
    rw [List.filter_append, List.filter_singleton]
    by_cases hb : b ∈ l
    · rw [eraseDups_concat_of_mem hb, ← ih]
      cases hp : p b
      · rw [cond_false, List.append_nil]
      · exact eraseDups_concat_of_mem (List.mem_filter.mpr ⟨hb, hp⟩)
    · rw [eraseDups_concat_of_notMem hb, List.filter_append, List.filter_singleton, ← ih]
      cases hp : p b
      · rw [cond_false, List.append_nil, List.append_nil]
      · exact eraseDups_concat_of_notMem fun h => hb (List.mem_of_mem_filter h)

omit [LawfulBEq β] in
theorem head?_eraseDups (l : List β) : l.eraseDups.head? = l.head? := by
  cases l with
  | nil => rfl
  | cons b l => rw [List.eraseDups_cons, List.head?_cons, List.head?_cons]

theorem length_eraseDups [DecidableEq β] (l : List β) : l.eraseDups.length = l.toFinset.card := by
  have hset : l.eraseDups.toFinset = l.toFinset := by
    ext b
    rw [List.mem_toFinset, List.mem_toFinset, List.mem_eraseDups]
  rw [← hset, List.toFinset_card_of_nodup (nodup_eraseDups l)]

end EraseDups

/-! ## The walk -/

variable [LinearOrder α] {points points' : Finset α} {x y : α}

/-- The points in the order in which the walk that starts at `x` meets them. -/
def clockwise (points : Finset α) (x : α) : List α :=
  (points.filter (x ≤ ·)).sort ++ (points.filter (· < x)).sort

@[simp] theorem mem_clockwise : y ∈ clockwise points x ↔ y ∈ points := by
  simp only [clockwise, List.mem_append, Finset.mem_sort, Finset.mem_filter]
  rcases le_or_gt x y with h | h
  · simp [h]
  · simp [h]

theorem toFinset_clockwise : (clockwise points x).toFinset = points := by
  ext y
  rw [List.mem_toFinset, mem_clockwise]

theorem nodup_clockwise : (clockwise points x).Nodup := by
  refine (Finset.sort_nodup ..).append (Finset.sort_nodup ..) fun y hy hy' => ?_
  rw [Finset.mem_sort, Finset.mem_filter] at hy hy'
  exact absurd hy'.2 (not_lt.mpr hy.2)

theorem sort_eq_append (points : Finset α) (x : α) :
    points.sort = (points.filter (· < x)).sort ++ (points.filter (x ≤ ·)).sort := by
  have hperm : (points.sort).Perm (clockwise points x) :=
    (List.perm_ext_iff_of_nodup (Finset.sort_nodup ..) nodup_clockwise).mpr fun y => by
      rw [mem_clockwise, Finset.mem_sort]
  refine (hperm.trans List.perm_append_comm).eq_of_pairwise' (r := (· ≤ ·))
    (Finset.pairwise_sort ..) (List.pairwise_append.mpr
      ⟨Finset.pairwise_sort .., Finset.pairwise_sort .., fun y hy z hz => ?_⟩)
  rw [Finset.mem_sort, Finset.mem_filter] at hy hz
  exact hy.2.le.trans hz.2

theorem filter_sort (points : Finset α) (p : α → Prop) [DecidablePred p] :
    (points.sort).filter p = (points.filter p).sort := by
  have hset : ((points.sort).filter p).toFinset = points.filter p := by
    ext y
    rw [List.mem_toFinset, List.mem_filter, Finset.mem_sort, Finset.mem_filter, decide_eq_true_eq]
  rw [← hset, (List.toFinset_sort (r := (· ≤ ·)) ((Finset.sort_nodup ..).filter _)).mpr
    ((Finset.pairwise_sort ..).filter _)]

/-- With fewer points, the walk meets those that are left in the same order. -/
theorem filter_clockwise (h : points ⊆ points') :
    (clockwise points' x).filter (· ∈ points) = clockwise points x := by
  have hpart : ∀ p : α → Prop, [DecidablePred p] →
      ((points'.filter p).sort).filter (· ∈ points) = (points.filter p).sort := by
    intro p _
    rw [filter_sort]
    congr 1
    ext y
    simp only [Finset.mem_filter]
    exact ⟨fun hy => ⟨hy.2, hy.1.2⟩, fun hy => ⟨⟨h hy.1, hy.2⟩, hy.1⟩⟩
  rw [clockwise, List.filter_append, hpart, hpart, clockwise]

/-! ## Owners -/

variable {owner owner' : α → β}

/-- The owner of the first point met. -/
def ownerOf (points : Finset α) (owner : α → β) (x : α) : Option β :=
  (clockwise points x).head?.map owner

/-- The owners in the order in which the walk meets them, each once. -/
def owners [BEq β] (points : Finset α) (owner : α → β) (x : α) : List β :=
  ((clockwise points x).map owner).eraseDups

/-- Without the points of one owner, the walk meets the other owners in the same order. -/
theorem owners_erase [DecidableEq β] {b : β} (h : points ⊆ points')
    (howner : ∀ y ∈ points, owner' y = owner y)
    (hmem : ∀ y ∈ points', y ∈ points ↔ owner' y ≠ b) (x : α) :
    owners points owner x = (owners points' owner' x).erase b := by
  have hwalk : (clockwise points x).map owner =
      ((clockwise points' x).map owner').filter (· != b) := by
    rw [← filter_clockwise h, List.filter_map]
    have hfilter : (clockwise points' x).filter (· ∈ points) =
        (clockwise points' x).filter ((· != b) ∘ owner') := by
      refine List.filter_congr fun y hy => ?_
      rw [Bool.eq_iff_iff, decide_eq_true_eq, hmem y (mem_clockwise.mp hy), Function.comp_apply,
        bne_iff_ne]
    rw [← hfilter]
    refine List.map_congr_left fun y hy => (howner y ?_).symm
    exact of_decide_eq_true (List.mem_filter.mp hy).2
  rw [owners, owners, hwalk, eraseDups_filter, (nodup_eraseDups _).erase_eq_filter]

theorem erase_take_prefix [DecidableEq β] (l : List β) (b : β) (n : ℕ) :
    (l.take n).erase b <+: (l.erase b).take n := by
  induction l generalizing n with
  | nil => simp
  | cons c l ih =>
    cases n with
    | zero => exact List.nil_prefix
    | succ n =>
      rw [List.take_succ_cons, List.erase_cons, List.erase_cons]
      split
      · exact List.take_prefix_take_left (Nat.le_succ n)
      · rw [List.take_succ_cons]
        exact List.cons_prefix_cons.mpr ⟨rfl, ih n⟩

theorem take_erase_of_notMem [DecidableEq β] {l : List β} {b : β} {n : ℕ} (h : b ∉ l.take n) :
    (l.erase b).take n = l.take n := by
  have hpre := erase_take_prefix l b n
  rw [List.erase_of_not_mem h] at hpre
  refine (hpre.eq_of_length_le ?_).symm
  rw [List.length_take, List.length_take]
  exact min_le_min_left n List.erase_sublist.length_le

/-- Of the first elements, one more makes up for an element that goes. -/
theorem take_erase [DecidableEq β] (l : List β) (b : β) (n : ℕ) :
    (l.erase b).take n = ((l.take (n + 1)).erase b).take n := by
  induction l generalizing n with
  | nil => rfl
  | cons c l ih =>
    rw [List.take_succ_cons, List.erase_cons, List.erase_cons]
    split
    · rw [List.take_take, min_self]
    · cases n with
      | zero => rfl
      | succ n => rw [List.take_succ_cons, List.take_succ_cons, ← ih]

theorem length_owners [DecidableEq β] :
    (owners points owner x).length = (points.image owner).card := by
  have hset : ((clockwise points x).map owner).toFinset = points.image owner := by
    ext b
    simp
  rw [owners, length_eraseDups, hset]

theorem head?_owners [BEq β] : (owners points owner x).head? = ownerOf points owner x := by
  rw [owners, head?_eraseDups, List.head?_map, ownerOf]

theorem ownerOf_eq_none : ownerOf points owner x = none ↔ points = ∅ := by
  rw [ownerOf, Option.map_eq_none_iff, List.head?_eq_none_iff, ← List.toFinset_eq_empty_iff,
    toFinset_clockwise]

theorem ownerOf_congr (h : ∀ y ∈ points, owner' y = owner y) :
    ownerOf points owner' x = ownerOf points owner x := by
  refine Option.map_congr fun y hy => h y ?_
  rw [← mem_clockwise (x := x)]
  exact List.mem_of_mem_head? hy

/-- With more points, a key keeps its owner or goes to the owner of a new point. -/
theorem ownerOf_of_subset (h : points ⊆ points') (howner : ∀ y ∈ points, owner' y = owner y) :
    ownerOf points' owner' x = ownerOf points owner x ∨
      ∃ y ∈ points', y ∉ points ∧ ownerOf points' owner' x = some (owner' y) := by
  rcases hw : clockwise points' x with _ | ⟨y, walk⟩
  · have hnone : clockwise points x = [] := by rw [← filter_clockwise h, hw, List.filter_nil]
    left
    rw [ownerOf, hw, ownerOf, hnone]
    rfl
  · have hmem : y ∈ points' := by
      rw [← mem_clockwise (x := x), hw]
      exact List.mem_cons_self
    by_cases hy : y ∈ points
    · left
      rw [ownerOf, hw, ownerOf, ← filter_clockwise h, hw,
        List.filter_cons_of_pos (by simpa using hy), List.head?_cons, List.head?_cons,
        Option.map_some, Option.map_some, howner y hy]
    · exact Or.inr ⟨y, hmem, hy, by rw [ownerOf, hw, List.head?_cons, Option.map_some]⟩

end HashRing
