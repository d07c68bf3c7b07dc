import Mathlib.Data.List.Nodup
import Mathlib.Data.List.Perm.Subperm
import Mathlib.Order.Basic

/-!
# Least recently used

What a cache of a given capacity holds when it drops its least recently used key each time it gets
too many (`step`): a list of keys, the most recent first. A cache that stores the time of each use
holds the keys in the order of these times (`Ordered`), and the key with the least time is the one
to drop (`Ordered.take_eq_erase`).
-/

namespace Lru

variable {α τ : Type*} [DecidableEq α]

/-- A request to a cache. -/
inductive Request (α : Type*) where
  | get (key : α)
  | put (key : α)
  deriving DecidableEq

/-- The key becomes the most recent one. -/
def touch (keys : List α) (key : α) : List α := key :: keys.erase key

/-- The keys after a request: a `get` that finds its key and a `put` make it the most recent one. -/
def step (capacity : ℕ) (keys : List α) : Request α → List α
  | .get key => if key ∈ keys then touch keys key else keys
  | .put key => (touch keys key).take capacity

/-- The keys after a sequence of requests to an empty cache. -/
def run (capacity : ℕ) (requests : List (Request α)) : List α := requests.foldl (step capacity) []

variable {capacity : ℕ} {keys : List α} {key : α}

theorem perm_touch (h : key ∈ keys) : (touch keys key).Perm keys :=
  (List.perm_cons_erase h).symm

theorem touch_of_notMem (h : key ∉ keys) : touch keys key = key :: keys := by
  rw [touch, List.erase_of_not_mem h]

theorem touch_touch : touch (touch keys key) key = touch keys key := by
  rw [touch, touch, List.erase_cons_head]

theorem mem_of_mem_touch {k : α} (h : k ∈ touch keys key) : k = key ∨ k ∈ keys :=
  (List.mem_cons.mp h).imp_right List.mem_of_mem_erase

theorem length_touch_le : (touch keys key).length ≤ keys.length + 1 :=
  Nat.succ_le_succ (List.erase_sublist.length_le)

theorem mem_step_put (h : 1 ≤ capacity) : key ∈ step capacity keys (.put key) := by
  obtain ⟨n, rfl⟩ := Nat.exists_eq_add_of_le' h
  exact List.mem_cons_self

/-! ## Times -/

variable [Preorder τ] {time time' : α → τ}

/-- The times descend along the list. -/
def Ordered (time : α → τ) (keys : List α) : Prop := keys.Pairwise fun k k' => time k' < time k

omit [DecidableEq α] in
theorem Ordered.nodup (h : Ordered time keys) : keys.Nodup :=
  List.Pairwise.imp (S := (· ≠ ·)) (fun {k k'} hlt (heq : k = k') => lt_irrefl _ (heq ▸ hlt)) h

/-- A use at a later time than all others. -/
theorem Ordered.touch (h : Ordered time keys) (hold : ∀ k ∈ keys, k ≠ key → time' k = time k)
    (hnew : ∀ k ∈ keys, time k < time' key) : Ordered time' (touch keys key) := by
  have hmem : ∀ k ∈ keys.erase key, k ∈ keys ∧ time' k = time k := by
    intro k hk
    obtain ⟨hne, hk⟩ := h.nodup.mem_erase_iff.mp hk
    exact ⟨hk, hold k hk hne⟩
  refine List.pairwise_cons.mpr ⟨fun k hk => ?_, ?_⟩
  · rw [(hmem k hk).2]
    exact hnew k (hmem k hk).1
  · refine (List.Pairwise.sublist List.erase_sublist h).imp_of_mem fun {k k'} hk hk' hlt => ?_
    rwa [(hmem k hk).2, (hmem k' hk').2]

/-- Of one key too many, the key with the least time is the one to drop. -/
theorem Ordered.take_eq_erase (h : Ordered time keys) (hlen : keys.length = capacity + 1)
    (hkey : key ∈ keys) (hleast : ∀ k ∈ keys, ¬time k < time key) :
    keys.take capacity = keys.erase key := by
  obtain ⟨l, k, rfl⟩ : ∃ l k, keys = l ++ [k] := by
    rcases List.eq_nil_or_concat keys with rfl | ⟨l, k, rfl⟩
    · cases hlen
    · exact ⟨l, k, by simp⟩
  have hl : l.length = capacity := by simpa using hlen
  have hlt := (List.pairwise_append.mp h).2.2
  obtain rfl : key = k := by
    rcases List.mem_append.mp hkey with hmem | hmem
    · exact absurd (hlt key hmem k (List.mem_singleton.mpr rfl)) (hleast k (by simp))
    · exact List.mem_singleton.mp hmem
  have hnew : key ∉ l := fun hmem => lt_irrefl _ (hlt key hmem key (List.mem_singleton.mpr rfl))
  rw [← hl, List.take_left, List.erase_append_right _ hnew, List.erase_cons_head, List.append_nil]

end Lru
