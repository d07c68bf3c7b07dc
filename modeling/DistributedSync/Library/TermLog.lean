import Mathlib.Data.List.Basic
import Mathlib.Data.List.Infix
import Mathlib.Order.Lattice

/-!
# Logs of entries stamped with terms

Every term has one *book*: the log of the term's only author, which is append-only. A log is
*rooted* in the books when each of its entries stands where the book of the entry's term has it,
on the same prefix. Rooted logs with a common term at a common position agree up to there
(`Rooted.take_eq`); of two of them the one that is at least as up to date extends the other or ends
in a later term (`Rooted.upToDate_cases`).

`overlay` writes entries over a log from a position on, cutting it at the first entry with another
term. Over rooted logs it either changes nothing or yields the source of the entries
(`overlay_eq`), so it keeps every prefix both sides owe to one book (`prefix_overlay`). Writing the
same entries twice is writing them once (`overlay_overlay`). A log is
*numbered* when its entries carry their positions, and *ascending* when its terms do not decrease;
it stays so (`Numbered.overlay`, `Ascending.overlay`).
-/

namespace TermLog

variable {E τ : Type*} {term : E → τ} {book book' : τ → List E} {l l' s x b : List E}

/-- Each entry of `l` stands on a prefix of the book of its term. -/
def Rooted (term : E → τ) (book : τ → List E) (l : List E) : Prop :=
  ∀ k e, l[k]? = some e → l.take (k + 1) <+: book (term e)

/-! ## Prefixes -/

theorem prefix_take (h : l' <+: l) {k : ℕ} (hk : k ≤ l'.length) : l'.take k = l.take k := by
  obtain ⟨r, rfl⟩ := h
  rw [List.take_append_of_le_length hk]

theorem prefix_getElem? (h : l' <+: l) {k : ℕ} {e : E} (hk : l'[k]? = some e) :
    l[k]? = some e := by
  obtain ⟨r, rfl⟩ := h
  have hlt := (List.getElem?_eq_some_iff.mp hk).1
  rwa [List.getElem?_append_left hlt]

theorem length_take_succ {k : ℕ} {e : E} (hk : l[k]? = some e) :
    (l.take (k + 1)).length = k + 1 := by
  have := (List.getElem?_eq_some_iff.mp hk).1
  rw [List.length_take]
  omega

theorem take_succ_eq {k : ℕ} {e : E} (hk : l[k]? = some e) : l.take (k + 1) = l.take k ++ [e] := by
  rw [List.take_add_one, hk]
  rfl

theorem prefix_of_both (h : x <+: b) (h' : l <+: b) (hlen : x.length ≤ l.length) : x <+: l :=
  List.prefix_of_prefix_length_le h h' hlen

/-! ## Rooted logs -/

theorem rooted_nil : Rooted term book [] := by
  intro k e hk
  simp at hk

theorem Rooted.mono (h : Rooted term book l) (hb : ∀ t, book t <+: book' t) :
    Rooted term book' l :=
  fun k e hk => (h k e hk).trans (hb _)

theorem Rooted.concat {e : E} (h : Rooted term book l) (hb : l ++ [e] <+: book (term e)) :
    Rooted term book (l ++ [e]) := by
  intro k e' hk
  rcases Nat.lt_or_ge k l.length with hlt | hge
  · rw [List.getElem?_append_left hlt] at hk
    rw [List.take_append_of_le_length (by omega)]
    exact h k e' hk
  · have hk' := (List.getElem?_eq_some_iff.mp hk).1
    rw [List.length_append, List.length_singleton] at hk'
    obtain rfl : k = l.length := by omega
    rw [List.getElem?_append_right le_rfl, Nat.sub_self] at hk
    cases hk
    rwa [List.take_of_length_le (by simp)]

/-- A log that is not empty lies in the book of its last entry's term. -/
theorem Rooted.prefix_last (h : Rooted term book l) {e : E} (he : l.getLast? = some e) :
    l <+: book (term e) := by
  rw [List.getLast?_eq_getElem?] at he
  have hlt := (List.getElem?_eq_some_iff.mp he).1
  have := h _ e he
  rwa [List.take_of_length_le (by omega)] at this

/-- Rooted logs with one term at one position agree up to there. -/
theorem Rooted.take_eq (h : Rooted term book l) (h' : Rooted term book l') {k : ℕ} {e e' : E}
    (hk : l[k]? = some e) (hk' : l'[k]? = some e') (ht : term e = term e') :
    l.take (k + 1) = l'.take (k + 1) := by
  have hp := h k e hk
  have hp' := h' k e' hk'
  rw [ht] at hp
  have hlen := length_take_succ hk
  have hlen' := length_take_succ hk'
  exact (prefix_of_both hp hp' (by omega)).eq_of_length (by omega)

/-! ## Ordered terms -/

variable [LinearOrder τ]

/-- A book has no entries of later terms. -/
def Bounded (term : E → τ) (book : τ → List E) : Prop := ∀ t, ∀ e ∈ book t, term e ≤ t

theorem Rooted.term_le (h : Rooted term book l) (hb : Bounded term book) {i k : ℕ} {e e' : E}
    (hik : i ≤ k) (hi : l[i]? = some e) (hk : l[k]? = some e') : term e ≤ term e' := by
  apply hb
  apply (h k e' hk).subset
  rw [List.mem_iff_getElem?]
  exact ⟨i, by rw [List.getElem?_take_of_lt (by omega), hi]⟩

theorem Rooted.term_le_last (h : Rooted term book l) (hb : Bounded term book) {e e' : E}
    (he : e ∈ l) (hl : l.getLast? = some e') : term e ≤ term e' := by
  obtain ⟨i, hi⟩ := List.mem_iff_getElem?.mp he
  rw [List.getLast?_eq_getElem?] at hl
  have := (List.getElem?_eq_some_iff.mp hi).1
  exact h.term_le hb (by omega) hi hl

/-! ## Up-to-date logs -/

/-- `l'` is at least as up to date as `l`: its last term is larger, or equal with no fewer
entries. -/
def UpToDate (term : E → τ) (l' l : List E) : Prop :=
  ∀ e, l.getLast? = some e → ∃ e', l'.getLast? = some e' ∧
    (term e < term e' ∨ term e = term e' ∧ l.length ≤ l'.length)

theorem Rooted.upToDate_cases (h : Rooted term book l) (h' : Rooted term book l')
    (hb : Bounded term book) (hu : UpToDate term l' l) :
    l <+: l' ∨ ∃ e', l'.getLast? = some e' ∧ ∀ e ∈ l, term e < term e' := by
  rcases hl : l.getLast? with _ | e
  · rw [List.getLast?_eq_none_iff] at hl
    subst hl
    exact Or.inl List.nil_prefix
  · obtain ⟨e', he', hlt | ⟨heq, hlen⟩⟩ := hu e hl
    · exact Or.inr ⟨e', he', fun d hd => (h.term_le_last hb hd hl).trans_lt hlt⟩
    · have hp := h.prefix_last hl
      rw [heq] at hp
      exact Or.inl (prefix_of_both hp (h'.prefix_last he') hlen)

/-- A prefix of `l` that is also in every book `l'` can end in passes to an up-to-date `l'`. -/
theorem Rooted.prefix_of_upToDate (h : Rooted term book l) (h' : Rooted term book l')
    (hb : Bounded term book) (hu : UpToDate term l' l) (hx : x <+: l)
    (hbook : ∀ e', l'.getLast? = some e' → (∀ e ∈ l, term e < term e') → x <+: book (term e')) :
    x <+: l' := by
  rcases h.upToDate_cases h' hb hu with hp | ⟨e', he', hlt⟩
  · exact hx.trans hp
  · have hxb := hbook e' he' hlt
    have hlb := h'.prefix_last he'
    rcases Nat.le_total x.length l'.length with hle | hle
    · exact prefix_of_both hxb hlb hle
    · -- `l'` would lie inside `x`, so its last entry would be an entry of `l`
      have hsub := (prefix_of_both hlb hxb hle).trans hx
      exact absurd (hlt e' (hsub.subset (List.mem_of_getLast? he'))) (lt_irrefl _)

/-! ## Writing over a log -/

/-- Write `es` over `l` from position `p` on: an entry of the same term stays, another one is cut
off with all that follows. -/
def overlay (term : E → τ) : List E → ℕ → List E → List E
  | l, _, [] => l
  | l, p, e :: es =>
    match l[p]? with
    | some e' => overlay term (if term e' = term e then l else l.take p ++ [e]) (p + 1) es
    | none => overlay term (l ++ [e]) (p + 1) es

theorem overlay_take (term : E → τ) (s : List E) (p : ℕ) :
    overlay term (s.take p) p (s.drop p) = s := by
  obtain ⟨n, hn⟩ : ∃ n, n = s.length - p := ⟨_, rfl⟩
  induction n generalizing p with
  | zero =>
    rw [List.drop_of_length_le (by omega), overlay, List.take_of_length_le (by omega)]
  | succ n ih =>
    have hp : p < s.length := by omega
    have hlen : (s.take p).length ≤ p := List.length_take_le p s
    rw [List.drop_eq_getElem_cons hp, overlay, List.getElem?_eq_none hlen]
    show overlay term (s.take p ++ [s[p]]) (p + 1) (s.drop (p + 1)) = s
    rw [← take_succ_eq (List.getElem?_eq_getElem hp)]
    exact ih (p + 1) (by omega)

/-- Writing the rest of `s` over a log that agrees with `s` up to `p`, where equal terms mean equal
prefixes, leaves the log if it extends `s` and yields `s` otherwise. -/
theorem overlay_eq {p : ℕ} (hp : p ≤ s.length) (hagree : l.take p = s.take p)
    (hterm : ∀ k e e', l[k]? = some e → s[k]? = some e' → term e = term e' →
      l.take (k + 1) = s.take (k + 1)) :
    s <+: l ∧ overlay term l p (s.drop p) = l ∨
      ¬ s <+: l ∧ overlay term l p (s.drop p) = s := by
  obtain ⟨n, hn⟩ : ∃ n, n = s.length - p := ⟨_, rfl⟩
  induction n generalizing p with
  | zero =>
    obtain rfl : p = s.length := by omega
    rw [List.take_of_length_le le_rfl] at hagree
    refine Or.inl ⟨hagree ▸ List.take_prefix _ _, ?_⟩
    rw [List.drop_of_length_le le_rfl, overlay]
  | succ n ih =>
    have hlt : p < s.length := by omega
    have hsp : s[p]? = some s[p] := List.getElem?_eq_getElem hlt
    rw [List.drop_eq_getElem_cons hlt, overlay]
    rcases hlp : l[p]? with _ | e
    · -- the log ends at `p`, where `s` goes on
      have hlen : l.length ≤ p := List.getElem?_eq_none_iff.mp hlp
      rw [List.take_of_length_le hlen] at hagree
      refine Or.inr ⟨fun h => ?_, ?_⟩
      · have := h.length_le
        omega
      · show overlay term (l ++ [s[p]]) (p + 1) (s.drop (p + 1)) = s
        rw [hagree, ← take_succ_eq hsp]
        exact overlay_take term s (p + 1)
    · by_cases ht : term e = term s[p]
      · have := ih (p := p + 1) (by omega) (hterm p e _ hlp hsp ht) (by omega)
        simpa only [ht, if_true] using this
      · refine Or.inr ⟨fun h => ?_, ?_⟩
        · have := prefix_getElem? h hsp
          rw [hlp, Option.some.injEq] at this
          exact ht (by rw [this])
        · show overlay term (if term e = term s[p] then l else l.take p ++ [s[p]]) (p + 1)
            (s.drop (p + 1)) = s
          rw [if_neg ht, hagree, ← take_succ_eq hsp]
          exact overlay_take term s (p + 1)

omit [LinearOrder τ] in
/-- What `l` and the source `s` both owe to `b` survives the writing. -/
theorem prefix_overlay (hx : x <+: b) (hs : s <+: b) (hl : x <+: l)
    (h : s <+: l ∧ l' = l ∨ ¬ s <+: l ∧ l' = s) : x <+: l' := by
  rcases h with ⟨_, h⟩ | ⟨hn, h⟩
  · rwa [h]
  · rw [h]
    rcases Nat.le_total x.length s.length with hle | hle
    · exact prefix_of_both hx hs hle
    · exact absurd ((prefix_of_both hs hx hle).trans hl) hn

/-! ## Writing twice -/

section Twice

variable {p : ℕ} {e : E} {es : List E}

/-- From position `p` on, `l` holds entries of the terms of `es`. -/
def HoldsTerms (term : E → τ) (l : List E) (p : ℕ) (es : List E) : Prop :=
  ∀ (k : ℕ) (e : E), es[k]? = some e → ∃ e', l[p + k]? = some e' ∧ term e' = term e

omit [LinearOrder τ] in
theorem holdsTerms_cons :
    HoldsTerms term l p (e :: es) ↔
      (∃ e', l[p]? = some e' ∧ term e' = term e) ∧ HoldsTerms term l (p + 1) es := by
  constructor
  · intro h
    refine ⟨h 0 e rfl, fun k d hk => ?_⟩
    rw [Nat.add_right_comm]
    exact h (k + 1) d hk
  · rintro ⟨h0, h⟩ k d hk
    cases k with
    | zero =>
      cases hk
      exact h0
    | succ k =>
      rw [show p + (k + 1) = p + 1 + k by omega]
      exact h k d hk

/-- Writing one entry leaves what stands before it and puts its term at its position. -/
theorem overlay_cons (term : E → τ) (e : E) (es : List E) (hp : p ≤ l.length) :
    ∃ l', overlay term l p (e :: es) = overlay term l' (p + 1) es ∧ p + 1 ≤ l'.length ∧
      l'.take p = l.take p ∧ ∃ e', l'[p]? = some e' ∧ term e' = term e := by
  rw [overlay]
  rcases hget : l[p]? with _ | e'
  · have hlen : p = l.length := by
      have := List.getElem?_eq_none_iff.mp hget
      omega
    refine ⟨l ++ [e], rfl, by simp [hlen], by rw [List.take_append_of_le_length hp], e, ?_, rfl⟩
    rw [hlen, List.getElem?_concat_length]
  · have hlt := (List.getElem?_eq_some_iff.mp hget).1
    by_cases ht : term e' = term e
    · exact ⟨l, by simp only [ht, if_true], hlt, rfl, e', hget, ht⟩
    · have hlen : (l.take p).length = p := by
        rw [List.length_take]
        omega
      refine ⟨l.take p ++ [e], by simp only [ht, if_false], by simp [hlen], ?_, e, ?_, rfl⟩
      · rw [List.take_append_of_le_length hlen.ge, List.take_take, Nat.min_self]
      · rw [List.getElem?_append_right hlen.le, hlen, Nat.sub_self]
        rfl

theorem take_overlay (term : E → τ) (es : List E) (hp : p ≤ l.length) :
    (overlay term l p es).take p = l.take p := by
  induction es generalizing p l with
  | nil => rfl
  | cons e es ih =>
    obtain ⟨l', heq, hlen, htake, -⟩ := overlay_cons term e es hp
    have := congrArg (List.take p) (ih hlen)
    rwa [List.take_take, List.take_take, Nat.min_eq_left (Nat.le_succ p), ← heq, htake] at this

theorem holdsTerms_overlay (hp : p ≤ l.length) : HoldsTerms term (overlay term l p es) p es := by
  induction es generalizing p l with
  | nil =>
    intro k e hk
    simp at hk
  | cons e es ih =>
    obtain ⟨l', heq, hlen, -, e', hget, ht⟩ := overlay_cons term e es hp
    rw [heq]
    refine holdsTerms_cons.mpr ⟨⟨e', ?_, ht⟩, ih hlen⟩
    have := take_overlay term es hlen
    rw [← List.getElem?_take_of_lt (Nat.lt_succ_self p), this,
      List.getElem?_take_of_lt (Nat.lt_succ_self p), hget]

theorem HoldsTerms.overlay_eq (h : HoldsTerms term l p es) : overlay term l p es = l := by
  induction es generalizing p with
  | nil => rfl
  | cons e es ih =>
    obtain ⟨⟨e', hget, ht⟩, h⟩ := holdsTerms_cons.mp h
    rw [overlay, hget]
    simp only [ht, if_true]
    exact ih h

theorem overlay_overlay (hp : p ≤ l.length) :
    overlay term (overlay term l p es) p es = overlay term l p es :=
  (holdsTerms_overlay hp).overlay_eq

end Twice

/-! ## Numbered logs -/

/-- The entries of `l` carry the positions from `p` on. -/
def Numbered (index : E → ℤ) (p : ℕ) (l : List E) : Prop :=
  ∀ (k : ℕ) (e : E), l[k]? = some e → index e = p + k

section Numbered

variable {index : E → ℤ} {p : ℕ} {e : E}

theorem numbered_nil : Numbered index p [] := by
  intro k e hk
  simp at hk

theorem numbered_cons : Numbered index p (e :: l) ↔ index e = p ∧ Numbered index (p + 1) l := by
  refine ⟨fun h => ⟨by simpa using h 0 e rfl, fun k e' hk => ?_⟩, fun h k e' hk => ?_⟩
  · have := h (k + 1) e' hk
    push_cast at this ⊢
    omega
  · obtain ⟨he, hl⟩ := h
    cases k with
    | zero =>
      cases hk
      simpa using he
    | succ k =>
      have := hl k e' hk
      push_cast at this ⊢
      omega

theorem Numbered.of_prefix (h : Numbered index p l) (hp : l' <+: l) : Numbered index p l' :=
  fun k e hk => h k e (prefix_getElem? hp hk)

theorem Numbered.nodup (h : Numbered index p l) : l.Nodup := by
  refine List.pairwise_iff_getElem.mpr fun i j hi hj hij heq => ?_
  have hidx := h i _ (List.getElem?_eq_getElem hi)
  have hidx' := h j _ (List.getElem?_eq_getElem hj)
  rw [heq] at hidx
  omega

theorem Numbered.drop (h : Numbered index 0 l) (p : ℕ) : Numbered index p (l.drop p) := by
  intro k e hk
  rw [List.getElem?_drop] at hk
  have := h _ e hk
  push_cast at this ⊢
  omega

theorem Numbered.concat (h : Numbered index p l) (he : index e = p + l.length) :
    Numbered index p (l ++ [e]) := by
  intro k e' hk
  rcases Nat.lt_or_ge k l.length with hlt | hge
  · exact h k e' (by rwa [List.getElem?_append_left hlt] at hk)
  · rw [List.getElem?_append_right hge] at hk
    obtain ⟨hlt, rfl⟩ := List.getElem?_eq_some_iff.mp hk
    have hk0 : k - l.length = 0 := by simpa using hlt
    simp only [hk0, List.getElem_cons_zero, he]
    omega

/-- Writing numbered entries over a numbered log, at their positions, yields a numbered log. -/
theorem Numbered.overlay {term : E → τ} {es : List E} (h : Numbered index 0 l) (hp : p ≤ l.length)
    (hes : Numbered index p es) : Numbered index 0 (overlay term l p es) := by
  induction es generalizing p l with
  | nil => exact h
  | cons e es ih =>
    obtain ⟨he, hes⟩ := numbered_cons.mp hes
    rw [TermLog.overlay]
    split
    · next e' he' =>
      have hlt := (List.getElem?_eq_some_iff.mp he').1
      have hlen : (l.take p).length = p := by
        rw [List.length_take]
        omega
      split
      · exact ih h (by omega) hes
      · refine ih ((Numbered.of_prefix h (List.take_prefix p l)).concat ?_) ?_ hes
        · rw [hlen, he]
          simp
        · simp [hlen]
    · next hnone =>
      have hlen : p = l.length := by
        have := List.getElem?_eq_none_iff.mp hnone
        omega
      refine ih (h.concat ?_) ?_ hes
      · rw [he, hlen]
        simp
      · simp [hlen]

end Numbered

/-! ## Ascending logs -/

section Ascending

variable {p : ℕ} {e : E} {es : List E}

/-- The terms of `l` do not decrease. -/
def Ascending (term : E → τ) (l : List E) : Prop := l.Pairwise fun e e' => term e ≤ term e'

theorem Ascending.concat (h : Ascending term l) (he : ∀ d ∈ l, term d ≤ term e) :
    Ascending term (l ++ [e]) :=
  List.pairwise_append.mpr ⟨h, List.pairwise_singleton _ _,
    fun d hd _ hx => List.mem_singleton.mp hx ▸ he d hd⟩

theorem Ascending.take (h : Ascending term l) (k : ℕ) : Ascending term (l.take k) :=
  h.sublist (List.take_sublist k l)

theorem Ascending.drop (h : Ascending term l) (k : ℕ) : Ascending term (l.drop k) :=
  h.sublist (List.drop_sublist k l)

/-- What stands at or before a position is of the term there, or of an earlier one. -/
theorem Ascending.le_of_mem_take (h : Ascending term l) (hp : l[p]? = some e) :
    ∀ d ∈ l.take (p + 1), term d ≤ term e := by
  intro d hd
  rw [take_succ_eq hp] at hd
  rcases List.mem_append.mp hd with hd | hd
  · have htake := h.take (p + 1)
    rw [take_succ_eq hp] at htake
    exact (List.pairwise_append.mp htake).2.2 d hd e (List.mem_singleton_self e)
  · rw [List.mem_singleton.mp hd]

/-- Ascending entries written over an ascending log, after a position that they do not go back
behind, yield an ascending log. -/
theorem Ascending.overlay (h : Ascending term l) (hp : p ≤ l.length) (hes : Ascending term es)
    (hprev : ∀ d ∈ l.take p, ∀ e ∈ es, term d ≤ term e) :
    Ascending term (overlay term l p es) := by
  induction es generalizing p l with
  | nil => exact h
  | cons e es ih =>
    obtain ⟨hle, hes⟩ := List.pairwise_cons.mp hes
    have hprev' : ∀ d ∈ l.take p, term d ≤ term e := fun d hd => hprev d hd e List.mem_cons_self
    -- whether the entry at `p` stays or is written, it has the term of `e`
    have hrec : ∀ {l' : List E} {e' : E}, Ascending term l' → l'[p]? = some e' →
        term e' = term e → Ascending term (TermLog.overlay term l' (p + 1) es) := by
      intro l' e' hl' hget ht
      refine ih hl' (List.getElem?_eq_some_iff.mp hget).1 hes fun d hd x hx => ?_
      exact (hl'.le_of_mem_take hget d hd).trans (ht.le.trans (hle x hx))
    rw [TermLog.overlay]
    split
    · next e' he' =>
      by_cases ht : term e' = term e
      · rw [if_pos ht]
        exact hrec h he' ht
      · rw [if_neg ht]
        have hlen : (l.take p).length = p := List.length_take_of_le hp
        refine hrec ((h.take p).concat hprev') ?_ rfl
        rw [List.getElem?_append_right hlen.le, hlen, Nat.sub_self]
        rfl
    · next hnone =>
      have hlen : p = l.length := le_antisymm hp (List.getElem?_eq_none_iff.mp hnone)
      rw [hlen, List.take_length] at hprev'
      refine hrec (h.concat hprev') ?_ rfl
      rw [hlen, List.getElem?_concat_length]

end Ascending

end TermLog
