import Mathlib.Data.List.Induction

/-!
# Hash chains

A chain hashes each block together with the value so far, with nothing between the two. Where hash
values are of one length, do not collide, and no block is a hash value followed by a block of the
other chain, equal values of two chains mean equal blocks (`value_injective`), however long they
are.
-/

namespace HashChain

variable {α : Type*} {H : List α → List α} {bs cs : List (List α)}

/-- The value of a chain of blocks that starts at `prev`. -/
def value (H : List α → List α) (prev : List α) (bs : List (List α)) : List α :=
  bs.foldl (fun p b => H (p ++ b)) prev

/-- What is hashed on the way. -/
def hashed (H : List α → List α) : List α → List (List α) → List (List α)
  | _, [] => []
  | prev, b :: bs => (prev ++ b) :: hashed H (H (prev ++ b)) bs

theorem value_concat (H : List α → List α) (prev : List α) (bs : List (List α)) (b : List α) :
    value H prev (bs ++ [b]) = H (value H prev bs ++ b) := by
  unfold value
  rw [List.foldl_append]
  rfl

theorem hashed_concat (H : List α → List α) (prev : List α) (bs : List (List α)) (b : List α) :
    hashed H prev (bs ++ [b]) = hashed H prev bs ++ [value H prev bs ++ b] := by
  induction bs generalizing prev with
  | nil => rfl
  | cons c bs ih =>
    rw [List.cons_append, hashed, ih]
    rfl

/-- The value of a chain is a hash value, unless the chain is empty. -/
theorem value_cases (H : List α → List α) (bs : List (List α)) :
    bs = [] ∨ ∃ s, value H [] bs = H s := by
  induction bs using List.reverseRecOn with
  | nil => exact Or.inl rfl
  | append_singleton bs b _ => exact Or.inr ⟨_, value_concat H [] bs b⟩

/-- `H` has no collision among the strings `l`. -/
def NoCollision (H : List α → List α) (l : List (List α)) : Prop :=
  ∀ s ∈ l, ∀ t ∈ l, H s = H t → s = t

theorem NoCollision.of_subset {l l' : List (List α)} (h : NoCollision H l) (hsub : l' ⊆ l) :
    NoCollision H l' :=
  fun s hs t ht => h s (hsub hs) t (hsub ht)

theorem value_injective {n : ℕ} (hpos : 0 < n) (hlen : ∀ s, (H s).length = n)
    (hcoll : NoCollision H (hashed H [] bs ++ hashed H [] cs))
    (hsep : ∀ s, ∀ b ∈ bs, ∀ c ∈ cs, b ≠ H s ++ c ∧ c ≠ H s ++ b)
    (h : value H [] bs = value H [] cs) : bs = cs := by
  have hne : ∀ s, H s ≠ [] := by
    intro s hs
    have := hlen s
    rw [hs, List.length_nil] at this
    omega
  induction bs using List.reverseRecOn generalizing cs with
  | nil =>
    rcases value_cases H cs with rfl | ⟨s, hs⟩
    · rfl
    · exact absurd (h.trans hs).symm (hne s)
  | append_singleton bs b ih =>
    induction cs using List.reverseRecOn with
    | nil =>
      rw [value_concat] at h
      exact absurd h (hne _)
    | append_singleton cs c _ =>
      rw [hashed_concat, hashed_concat] at hcoll
      rw [value_concat, value_concat] at h
      have hlast : value H [] bs ++ b = value H [] cs ++ c := hcoll _ (by simp) _ (by simp) h
      obtain ⟨hbc, hcb⟩ : (∀ s, b ≠ H s ++ c) ∧ ∀ s, c ≠ H s ++ b :=
        ⟨fun s => (hsep s b (by simp) c (by simp)).1, fun s => (hsep s b (by simp) c (by simp)).2⟩
      rcases value_cases H bs with rfl | ⟨s, hs⟩ <;> rcases value_cases H cs with rfl | ⟨t, ht⟩
      · exact congrArg (fun b => [] ++ [b]) hlast
      · rw [ht] at hlast
        exact absurd hlast (hbc t)
      · rw [hs] at hlast
        exact absurd hlast.symm (hcb s)
      · -- two hash values of one length in front of the last blocks
        rw [hs, ht] at hlast
        obtain ⟨hhash, rfl⟩ := List.append_inj hlast (by rw [hlen, hlen])
        have hsub : hashed H [] bs ++ hashed H [] cs ⊆
            hashed H [] bs ++ [value H [] bs ++ b] ++ (hashed H [] cs ++ [value H [] cs ++ b]) := by
          intro x hx
          rcases List.mem_append.mp hx with hx | hx <;> simp [hx]
        rw [ih (hcoll.of_subset hsub) (fun s b hb c hc => hsep s b (by simp [hb]) c (by simp [hc]))
          (by rw [hs, ht, hhash])]

end HashChain
