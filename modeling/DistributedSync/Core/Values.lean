import DistributedSync.Core.Types
import Mathlib.Data.List.Sort

/-!
# Python values

How Python compares, hashes and tests the values that clients send, and dictionaries with such keys.
Values are equal when they read the same token by token, so `1 == 1.0 == True` and the order of a
dictionary's items does not matter. A dictionary is the list of its items, in insertion order.
-/

namespace DistributedSync

/-! ## Equality, hashing and truth -/

/-- What `==` looks at. -/
inductive Token where
  | none
  | num (x : ℚ)
  | str (s : String)
  | list (length : ℕ)
  | dict (length : ℕ)
  deriving DecidableEq

namespace Value

mutual

/-- The tokens of a value: numbers by what they are worth, dictionaries by ascending keys. -/
def tokens : Value → List Token
  | .null => [.none]
  | .bool b => [.num (if b then 1 else 0)]
  | .int n => [.num n]
  | .float x => [.num x]
  | .str s => [.str s]
  | .list l => .list l.length :: listTokens l
  | .dict fields => .dict fields.length ::
      ((fieldTokens fields).insertionSort fun p q => p.1 ≤ q.1).flatMap fun p => .str p.1 :: p.2

def listTokens : List Value → List Token
  | [] => []
  | v :: l => v.tokens ++ listTokens l

def fieldTokens : List (String × Value) → List (String × List Token)
  | [] => []
  | (k, v) :: fields => (k, v.tokens) :: fieldTokens fields

end

/-- `v == w`. -/
instance : BEq Value := ⟨fun v w => decide (v.tokens = w.tokens)⟩

theorem beq_iff {v w : Value} : (v == w) = true ↔ v.tokens = w.tokens := decide_eq_true_iff

instance : EquivBEq Value where
  rfl := beq_iff.mpr rfl
  symm h := beq_iff.mpr (beq_iff.mp h).symm
  trans h h' := beq_iff.mpr ((beq_iff.mp h).trans (beq_iff.mp h'))

theorem int_beq_int {m n : ℤ} : (int m == int n) = true ↔ m = n := by
  rw [beq_iff]
  simp [tokens]

theorem str_beq_str {s t : String} : (str s == str t) = true ↔ s = t := by
  rw [beq_iff]
  simp [tokens]

mutual

/-- Equality of values as Lean terms, which tells `1` from `1.0` and the orders of items apart. -/
def decEq : (v w : Value) → Decidable (v = w)
  | .null, w => match w with
    | .null => isTrue rfl
    | .bool _ | .int _ | .float _ | .str _ | .list _ | .dict _ => isFalse Value.noConfusion
  | .bool b, w => match w with
    | .bool c => decidable_of_iff (b = c) (by simp)
    | .null | .int _ | .float _ | .str _ | .list _ | .dict _ => isFalse Value.noConfusion
  | .int m, w => match w with
    | .int n => decidable_of_iff (m = n) (by simp)
    | .null | .bool _ | .float _ | .str _ | .list _ | .dict _ => isFalse Value.noConfusion
  | .float x, w => match w with
    | .float y => decidable_of_iff (x = y) (by simp)
    | .null | .bool _ | .int _ | .str _ | .list _ | .dict _ => isFalse Value.noConfusion
  | .str s, w => match w with
    | .str t => decidable_of_iff (s = t) (by simp)
    | .null | .bool _ | .int _ | .float _ | .list _ | .dict _ => isFalse Value.noConfusion
  | .list l, w => match w with
    | .list l' => @decidable_of_iff _ (l = l') (by simp) (decEqList l l')
    | .null | .bool _ | .int _ | .float _ | .str _ | .dict _ => isFalse Value.noConfusion
  | .dict f, w => match w with
    | .dict f' => @decidable_of_iff _ (f = f') (by simp) (decEqFields f f')
    | .null | .bool _ | .int _ | .float _ | .str _ | .list _ => isFalse Value.noConfusion

def decEqList : (l l' : List Value) → Decidable (l = l')
  | [], [] => isTrue rfl
  | [], _ :: _ | _ :: _, [] => isFalse (by simp)
  | v :: l, w :: l' =>
    @decidable_of_iff _ (v = w ∧ l = l') (by simp)
      (@instDecidableAnd _ _ (decEq v w) (decEqList l l'))

def decEqFields : (f f' : List (String × Value)) → Decidable (f = f')
  | [], [] => isTrue rfl
  | [], _ :: _ | _ :: _, [] => isFalse (by simp)
  | (k, v) :: f, (k', w) :: f' =>
    @decidable_of_iff _ (k = k' ∧ v = w ∧ f = f') (by simp [and_assoc])
      (@instDecidableAnd _ _ _ (@instDecidableAnd _ _ (decEq v w) (decEqFields f f')))

end

instance : DecidableEq Value := decEq

/-- A value that can be a key: `hash` raises on lists and dictionaries. -/
def hashable : Value → Bool
  | .list _ | .dict _ => false
  | _ => true

theorem hashable_congr {v w : Value} (h : (v == w) = true) : v.hashable = w.hashable := by
  rw [beq_iff] at h
  cases v <;> cases w <;> first | rfl | simp [tokens] at h

/-- `bool(v)`. -/
def truthy : Value → Bool
  | .null => false
  | .bool b => b
  | .int n => n ≠ 0
  | .float x => x ≠ 0
  | .str s => s ≠ ""
  | .list l => !l.isEmpty
  | .dict fields => !fields.isEmpty

/-- The number that a comparison with a number sees; `none` when the comparison raises. -/
def num? : Value → Option ℚ
  | .bool b => some (if b then 1 else 0)
  | .int n => some n
  | .float x => some x
  | _ => none

/-- `value if isinstance(value, (str, int, float, bool, list, dict)) else str(value)`. -/
def logged : Value → Value
  | .null => .str "None"
  | v => v

end Value

deriving instance DecidableEq for LogEntry

/-! ## Dictionaries and sets -/

section Containers

variable {α β : Type*} [BEq α]

/-- `d[k] = v`: an old item keeps its key and its place. -/
def setItem (d : List (α × β)) (k : α) (v : β) : List (α × β) :=
  if (d.lookup k).isSome then d.map fun p => if p.1 == k then (p.1, v) else p
  else d ++ [(k, v)]

/-- `del d[k]`, where `k` is a key. -/
def delItem (d : List (α × β)) (k : α) : List (α × β) := d.filter fun p => !(p.1 == k)

/-- `s.add(x)`. -/
def addElem (s : List α) (x : α) : List α := if s.contains x then s else s ++ [x]

theorem lookup_eq_none_iff [EquivBEq α] {d : List (α × β)} {k : α} :
    d.lookup k = none ↔ ∀ p ∈ d, (p.1 == k) = false := by
  rw [List.lookup_eq_none_iff]
  refine forall₂_congr fun p _ => ?_
  rw [bne, Bool.not_eq_true', BEq.comm]

theorem lookup_cons {d : List (α × β)} {p : α × β} {k : α} :
    (p :: d).lookup k = if k == p.1 then some p.2 else d.lookup k := by
  rw [List.lookup_cons]
  cases k == p.1 <;> rfl

theorem mem_of_lookup {d : List (α × β)} {k : α} {v : β} (h : d.lookup k = some v) :
    ∃ p ∈ d, (k == p.1) = true ∧ p.2 = v := by
  induction d with
  | nil => cases h
  | cons p d ih =>
    rw [lookup_cons] at h
    split at h
    · next hk => exact ⟨p, List.mem_cons_self, hk, Option.some.inj h⟩
    · obtain ⟨q, hq, h⟩ := ih h
      exact ⟨q, List.mem_cons_of_mem _ hq, h⟩

/-- Where the keys are distinct, an item is what its key finds. -/
theorem lookup_of_mem [EquivBEq α] {d : List (α × β)}
    (hd : d.Pairwise fun p q => (p.1 == q.1) = false) {p : α × β} (h : p ∈ d) :
    d.lookup p.1 = some p.2 := by
  induction d with
  | nil => cases h
  | cons q d ih =>
    rw [List.pairwise_cons] at hd
    rw [lookup_cons]
    rcases List.mem_cons.mp h with rfl | h
    · rw [if_pos BEq.rfl]
    · rw [if_neg fun heq => by simpa [hd.1 p h] using BEq.symm heq]
      exact ih hd.2 h

theorem lookup_map_snd {γ : Type*} {d : List (α × β)} {k : α} (f : β → γ) :
    (d.map fun p => (p.1, f p.2)).lookup k = (d.lookup k).map f := by
  induction d with
  | nil => rfl
  | cons p d ih =>
    rw [List.map_cons, lookup_cons, lookup_cons, ih]
    split <;> rfl

theorem lookup_congr [EquivBEq α] {d : List (α × β)} {k k' : α} (h : (k == k') = true) :
    d.lookup k = d.lookup k' := by
  induction d with
  | nil => rfl
  | cons p d ih => rw [lookup_cons, lookup_cons, BEq.congr_left h, ih]

theorem lookup_overwrite [EquivBEq α] {d : List (α × β)} {k k' : α} {v : β} :
    (d.map fun p => if p.1 == k then (p.1, v) else p).lookup k' =
      if k' == k then (d.lookup k).map fun _ => v else d.lookup k' := by
  induction d with
  | nil => simp
  | cons p d ih =>
    rw [List.map_cons, lookup_cons, lookup_cons, lookup_cons, ih]
    by_cases hp : (p.1 == k) = true
    · rw [if_pos hp, if_pos (BEq.symm hp), BEq.congr_right hp]
      split <;> rfl
    · rw [if_neg hp, if_neg fun h => hp (BEq.symm h)]
      by_cases hk : (k' == k) = true
      · rw [if_pos hk, if_pos hk, if_neg fun h => hp (BEq.trans (BEq.symm h) hk)]
      · rw [if_neg hk, if_neg hk]

theorem lookup_setItem [EquivBEq α] {d : List (α × β)} {k k' : α} {v : β} :
    (setItem d k v).lookup k' = if k' == k then some v else d.lookup k' := by
  unfold setItem
  split
  · next h =>
    obtain ⟨w, hw⟩ := Option.isSome_iff_exists.mp h
    rw [lookup_overwrite, hw]
    rfl
  · next h =>
    rw [Option.not_isSome_iff_eq_none] at h
    rw [List.lookup_append, lookup_cons, List.lookup_nil]
    split
    · next hk => rw [lookup_congr hk, h, Option.none_or]
    · rw [Option.or_none]

theorem lookup_delItem [EquivBEq α] {d : List (α × β)} {k k' : α} :
    (delItem d k).lookup k' = if k' == k then none else d.lookup k' := by
  unfold delItem
  induction d with
  | nil => simp
  | cons p d ih =>
    rw [List.filter_cons, lookup_cons]
    by_cases hp : (p.1 == k) = true
    · rw [if_neg (by rw [hp]; exact Bool.noConfusion), ih, BEq.congr_right hp]
      split <;> rfl
    · rw [if_pos (by rw [Bool.not_eq_true] at hp; rw [hp]; rfl), lookup_cons, ih]
      by_cases hk : (k' == p.1) = true
      · rw [if_pos hk, if_neg (fun h => hp (BEq.trans (BEq.symm hk) h)), if_pos hk]
      · rw [if_neg hk, if_neg hk]

theorem mem_setItem [EquivBEq α] {d : List (α × β)} {k : α} {v : β} {p : α × β}
    (h : p ∈ setItem d k v) : (p.1 == k) = false ∧ p ∈ d ∨ (p.1 == k) = true ∧ p.2 = v := by
  unfold setItem at h
  split at h
  · obtain ⟨q, hq, rfl⟩ := List.mem_map.mp h
    by_cases hk : (q.1 == k) = true
    · rw [if_pos hk]
      exact Or.inr ⟨hk, rfl⟩
    · rw [if_neg hk]
      exact Or.inl ⟨Bool.not_eq_true _ ▸ hk, hq⟩
  · next hk =>
    rw [Option.not_isSome_iff_eq_none, lookup_eq_none_iff] at hk
    rcases List.mem_append.mp h with h | h
    · exact Or.inl ⟨hk p h, h⟩
    · obtain rfl := List.mem_singleton.mp h
      exact Or.inr ⟨BEq.rfl, rfl⟩

theorem mem_delItem {d : List (α × β)} {k : α} {p : α × β} :
    p ∈ delItem d k ↔ (p.1 == k) = false ∧ p ∈ d := by
  rw [delItem, List.mem_filter, Bool.not_eq_true', and_comm]

/-- Distinct keys stay distinct, and a relation between the values is kept if it holds between the
new value and those that stay. -/
theorem pairwise_setItem [EquivBEq α] {R : β → β → Prop} {d : List (α × β)} {k : α} {v : β}
    (h : d.Pairwise fun p q => (p.1 == q.1) = false ∧ R p.2 q.2)
    (hv : ∀ p ∈ d, (p.1 == k) = false → R p.2 v ∧ R v p.2) :
    (setItem d k v).Pairwise fun p q => (p.1 == q.1) = false ∧ R p.2 q.2 := by
  unfold setItem
  split
  · refine List.pairwise_map.mpr (h.imp_of_mem fun {p q} hp hq hpq => ?_)
    by_cases hpk : (p.1 == k) = true
    · have hqk : (q.1 == k) = false := by
        rw [← BEq.congr_right hpk, BEq.comm]
        exact hpq.1
      rw [if_pos hpk, if_neg (by rw [hqk]; exact Bool.noConfusion)]
      exact ⟨hpq.1, (hv q hq hqk).2⟩
    · rw [if_neg hpk]
      rw [Bool.not_eq_true] at hpk
      split
      · exact ⟨hpq.1, (hv p hp hpk).1⟩
      · exact hpq
  · next hk =>
    rw [Option.not_isSome_iff_eq_none, lookup_eq_none_iff] at hk
    refine List.pairwise_append.mpr ⟨h, List.pairwise_singleton .., fun p hp q hq => ?_⟩
    obtain rfl := List.mem_singleton.mp hq
    exact ⟨hk p hp, (hv p hp (hk p hp)).1⟩

end Containers

end DistributedSync
