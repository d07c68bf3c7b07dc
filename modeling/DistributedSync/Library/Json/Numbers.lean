import DistributedSync.Library.Json.Strings
import Mathlib.Data.Int.Notation
import Mathlib.Data.List.TakeWhile
import Mathlib.Logic.Encodable.Basic

/-!
# JSON numbers

`numberToken` is the longest number at the head of a text: the integer part, and the fraction and
exponent together, which are empty exactly for an integer. Floats are of a type `F` of which only
the texts are known (`FloatFormat`): each has one, which reads back to it.
-/

namespace Json

/-! ## Tokens -/

/-- `[0-9]*`. -/
def takeDigits (s : Text) : Text × Text := (s.takeWhile Char.isDigit, s.dropWhile Char.isDigit)

/-- `0|[1-9][0-9]*`. -/
def naturalPart : Text → Option (Text × Text)
  | [] => none
  | c :: s =>
    if c = '0' then some (['0'], s)
    else if c.isDigit then some (c :: (takeDigits s).1, (takeDigits s).2)
    else none

/-- `-?(0|[1-9][0-9]*)`. -/
def integerPart : Text → Option (Text × Text)
  | [] => none
  | c :: s =>
    if c = '-' then (naturalPart s).map fun r => ('-' :: r.1, r.2) else naturalPart (c :: s)

/-- `(\.[0-9]+)?`. -/
def fractionPart : Text → Text × Text
  | [] => ([], [])
  | c :: s =>
    if c = '.' ∧ (takeDigits s).1 ≠ [] then ('.' :: (takeDigits s).1, (takeDigits s).2)
    else ([], c :: s)

/-- `[-+]?`. -/
def signPart : Text → Text × Text
  | [] => ([], [])
  | c :: s => if c = '-' ∨ c = '+' then ([c], s) else ([], c :: s)

/-- `([eE][-+]?[0-9]+)?`. -/
def exponentPart : Text → Text × Text
  | [] => ([], [])
  | c :: s =>
    let sign := signPart s
    let digits := takeDigits sign.2
    if (c = 'e' ∨ c = 'E') ∧ digits.1 ≠ [] then (c :: sign.1 ++ digits.1, digits.2)
    else ([], c :: s)

/-- The number at the head of a text: its integer part, its fraction and exponent, and the rest. -/
def numberToken (s : Text) : Option (Text × Text × Text) :=
  (integerPart s).map fun i =>
    let f := fractionPart i.2
    let e := exponentPart f.2
    (i.1, f.1 ++ e.1, e.2)

/-- `int` of an integer part. -/
def intOfToken : Text → ℤ
  | [] => 0
  | c :: s => if c = '-' then -Nat.ofDigitChars 10 s 0 else Nat.ofDigitChars 10 (c :: s) 0

/-- `int.__repr__`. -/
def intText (n : ℤ) : Text :=
  if n < 0 then '-' :: Nat.toDigits 10 n.natAbs else Nat.toDigits 10 n.natAbs

/-- The texts of the floats that are no numbers. -/
def floatConstants : List Text := ["NaN".toList, "Infinity".toList, "-Infinity".toList]

/-- A text that is read as a float: a number with a fraction or an exponent, or a constant. -/
def IsFloatText (t : Text) : Prop :=
  t ∈ floatConstants ∨ ∃ i f, numberToken t = some (i, f, []) ∧ f ≠ []

/-- The floats of a language, with their texts. -/
structure FloatFormat (F : Type) where
  repr : F → Text
  parse : Text → F
  isFloatText_repr : ∀ x, IsFloatText (repr x)
  parse_repr : ∀ x, parse (repr x) = x

/-! ## Where a token ends -/

/-- A text that does not go on with a number. -/
def Stops (r : Text) : Prop := ∀ c ∈ r.head?, ¬ c.isDigit ∧ c ∉ ['.', 'e', 'E', '-', '+']

variable {s r t : Text}

theorem stops_nil : Stops [] := by
  intro c hc
  cases hc

theorem stops_cons {c : Char} (h : ¬ c.isDigit ∧ c ∉ ['.', 'e', 'E', '-', '+']) (s : Text) :
    Stops (c :: s) := by
  intro d hd
  cases hd
  exact h

theorem takeDigits_append (hr : Stops r) (s : Text) :
    takeDigits (s ++ r) = ((takeDigits s).1, (takeDigits s).2 ++ r) := by
  unfold takeDigits
  induction s with
  | nil =>
    rcases r with _ | ⟨c, r⟩
    · rfl
    · have hc := (hr c rfl).1
      simp [hc]
  | cons c s ih =>
    rw [Prod.mk.injEq] at ih
    by_cases hc : c.isDigit
    · simp [hc, ih.1, ih.2]
    · simp [hc]

theorem takeDigits_of_stops (hr : Stops r) : takeDigits r = ([], r) := by
  simpa [takeDigits] using takeDigits_append hr []

theorem naturalPart_append (hr : Stops r) {i u : Text} (h : naturalPart s = some (i, u)) :
    naturalPart (s ++ r) = some (i, u ++ r) := by
  rcases s with _ | ⟨c, s⟩
  · cases h
  · rw [naturalPart] at h
    rw [List.cons_append, naturalPart]
    by_cases hc : c = '0'
    · rw [if_pos hc] at h ⊢
      cases h
      rfl
    · rw [if_neg hc] at h ⊢
      by_cases hd : c.isDigit
      · rw [if_pos hd] at h ⊢
        cases h
        rw [takeDigits_append hr]
      · rw [if_neg hd] at h
        cases h

theorem integerPart_append (hr : Stops r) {i u : Text} (h : integerPart s = some (i, u)) :
    integerPart (s ++ r) = some (i, u ++ r) := by
  rcases s with _ | ⟨c, s⟩
  · cases h
  · rw [integerPart] at h
    rw [List.cons_append, integerPart]
    by_cases hc : c = '-'
    · rw [if_pos hc] at h ⊢
      obtain ⟨⟨i', u'⟩, hp, heq⟩ := Option.map_eq_some_iff.mp h
      cases heq
      rw [naturalPart_append hr hp]
      rfl
    · rw [if_neg hc] at h ⊢
      rw [← List.cons_append, naturalPart_append hr h]

theorem fractionPart_append (hr : Stops r) (s : Text) :
    fractionPart (s ++ r) = ((fractionPart s).1, (fractionPart s).2 ++ r) := by
  rcases s with _ | ⟨c, s⟩
  · rcases r with _ | ⟨c, r⟩
    · rfl
    · have hc : c ≠ '.' := by
        rintro rfl
        exact (hr _ rfl).2 (by decide)
      show fractionPart (c :: r) = ([], c :: r)
      rw [fractionPart, if_neg fun h => hc h.1]
  · rw [List.cons_append, fractionPart, fractionPart, takeDigits_append hr]
    dsimp only
    split <;> rfl

theorem signPart_append (hr : Stops r) (s : Text) :
    signPart (s ++ r) = ((signPart s).1, (signPart s).2 ++ r) := by
  rcases s with _ | ⟨c, s⟩
  · rcases r with _ | ⟨c, r⟩
    · rfl
    · have hc : ¬ (c = '-' ∨ c = '+') := by
        rintro (rfl | rfl)
        · exact (hr _ rfl).2 (by decide)
        · exact (hr _ rfl).2 (by decide)
      show signPart (c :: r) = ([], c :: r)
      rw [signPart, if_neg hc]
  · rw [List.cons_append, signPart, signPart]
    split <;> rfl

theorem exponentPart_append (hr : Stops r) (s : Text) :
    exponentPart (s ++ r) = ((exponentPart s).1, (exponentPart s).2 ++ r) := by
  rcases s with _ | ⟨c, s⟩
  · rcases r with _ | ⟨c, r⟩
    · rfl
    · have hc : ¬ (c = 'e' ∨ c = 'E') := by
        rintro (rfl | rfl)
        · exact (hr _ rfl).2 (by decide)
        · exact (hr _ rfl).2 (by decide)
      show exponentPart (c :: r) = ([], c :: r)
      rw [exponentPart, if_neg fun h => hc h.1]
  · rw [List.cons_append, exponentPart, exponentPart, signPart_append hr]
    dsimp only
    rw [takeDigits_append hr]
    dsimp only
    split <;> rfl

/-- What follows a token does not change it. -/
theorem numberToken_append (hr : Stops r) {i f u : Text} (h : numberToken s = some (i, f, u)) :
    numberToken (s ++ r) = some (i, f, u ++ r) := by
  unfold numberToken at h ⊢
  obtain ⟨p, hp, heq⟩ := Option.map_eq_some_iff.mp h
  rw [integerPart_append hr (i := p.1) (u := p.2) hp, Option.map_some]
  dsimp only at heq ⊢
  rw [fractionPart_append hr]
  dsimp only
  rw [exponentPart_append hr]
  cases heq
  rfl

/-! ## What a token is made of -/

theorem takeDigits_eq (s : Text) : (takeDigits s).1 ++ (takeDigits s).2 = s :=
  List.takeWhile_append_dropWhile

theorem naturalPart_eq {i u : Text} (h : naturalPart s = some (i, u)) :
    i ++ u = s ∧ ∃ c, i.head? = some c ∧ c.isDigit := by
  rcases s with _ | ⟨c, s⟩
  · cases h
  · rw [naturalPart] at h
    by_cases hc : c = '0'
    · rw [if_pos hc] at h
      cases h
      exact ⟨by rw [hc]; rfl, '0', rfl, by decide⟩
    · rw [if_neg hc] at h
      by_cases hd : c.isDigit
      · rw [if_pos hd] at h
        cases h
        exact ⟨congrArg (c :: ·) (takeDigits_eq s), c, rfl, hd⟩
      · rw [if_neg hd] at h
        cases h

/-- An integer part is a digit with what follows, or a minus sign before that. -/
theorem integerPart_eq {i u : Text} (h : integerPart s = some (i, u)) :
    i ++ u = s ∧ ∃ c, c.isDigit ∧ (i.head? = some c ∨ ∃ j, i = '-' :: j ∧ j.head? = some c) := by
  rcases s with _ | ⟨c, s⟩
  · cases h
  · rw [integerPart] at h
    by_cases hc : c = '-'
    · rw [if_pos hc] at h
      obtain ⟨⟨j, u'⟩, hp, heq⟩ := Option.map_eq_some_iff.mp h
      cases heq
      obtain ⟨hj, d, hd, hdigit⟩ := naturalPart_eq hp
      exact ⟨by rw [hc, ← hj]; rfl, d, hdigit, Or.inr ⟨j, rfl, hd⟩⟩
    · rw [if_neg hc] at h
      obtain ⟨hj, d, hd, hdigit⟩ := naturalPart_eq h
      exact ⟨hj, d, hdigit, Or.inl hd⟩

theorem fractionPart_eq (s : Text) : (fractionPart s).1 ++ (fractionPart s).2 = s := by
  rcases s with _ | ⟨c, s⟩
  · rfl
  · rw [fractionPart]
    split
    · next h => rw [h.1, List.cons_append, takeDigits_eq]
    · rfl

theorem signPart_eq (s : Text) : (signPart s).1 ++ (signPart s).2 = s := by
  rcases s with _ | ⟨c, s⟩
  · rfl
  · rw [signPart]
    split <;> rfl

theorem exponentPart_eq (s : Text) : (exponentPart s).1 ++ (exponentPart s).2 = s := by
  rcases s with _ | ⟨c, s⟩
  · rfl
  · rw [exponentPart]
    split
    · show c :: ((signPart s).1 ++ (takeDigits (signPart s).2).1) ++
        (takeDigits (signPart s).2).2 = _
      rw [List.cons_append, List.append_assoc, takeDigits_eq, signPart_eq]
    · rfl

theorem numberToken_eq {i f u : Text} (h : numberToken s = some (i, f, u)) :
    i ++ f ++ u = s ∧
      ∃ c, c.isDigit ∧ (i.head? = some c ∨ ∃ j, i = '-' :: j ∧ j.head? = some c) := by
  unfold numberToken at h
  obtain ⟨p, hp, heq⟩ := Option.map_eq_some_iff.mp h
  obtain ⟨hi, hhead⟩ := integerPart_eq (i := p.1) (u := p.2) hp
  cases heq
  refine ⟨?_, hhead⟩
  rw [List.append_assoc, List.append_assoc, exponentPart_eq, fractionPart_eq, hi]

def NumberChar (c : Char) : Prop := c.isDigit ∨ c ∈ ['-', '+', '.', 'e', 'E']

theorem numberChar_takeDigits (s : Text) : ∀ c ∈ (takeDigits s).1, NumberChar c :=
  fun _ hc => Or.inl (List.mem_takeWhile_imp hc)

theorem numberChar_naturalPart {i u : Text} (h : naturalPart s = some (i, u)) :
    ∀ c ∈ i, NumberChar c := by
  rcases s with _ | ⟨c, s⟩
  · cases h
  · rw [naturalPart] at h
    split at h
    · cases h
      intro d hd
      exact Or.inl (by rw [List.mem_singleton.mp hd]; decide)
    · split at h
      · next hc =>
        cases h
        exact List.forall_mem_cons.mpr ⟨Or.inl hc, numberChar_takeDigits s⟩
      · cases h

theorem numberChar_integerPart {i u : Text} (h : integerPart s = some (i, u)) :
    ∀ c ∈ i, NumberChar c := by
  rcases s with _ | ⟨c, s⟩
  · cases h
  · rw [integerPart] at h
    split at h
    · obtain ⟨⟨j, u'⟩, hp, heq⟩ := Option.map_eq_some_iff.mp h
      cases heq
      exact List.forall_mem_cons.mpr ⟨Or.inr (by decide), numberChar_naturalPart hp⟩
    · exact numberChar_naturalPart h

theorem numberChar_fractionPart (s : Text) : ∀ c ∈ (fractionPart s).1, NumberChar c := by
  rcases s with _ | ⟨c, s⟩
  · simp [fractionPart]
  · rw [fractionPart]
    split
    · exact List.forall_mem_cons.mpr ⟨Or.inr (by decide), numberChar_takeDigits s⟩
    · simp

theorem numberChar_exponentPart (s : Text) : ∀ c ∈ (exponentPart s).1, NumberChar c := by
  have hsign : ∀ s, ∀ c ∈ (signPart s).1, NumberChar c := by
    intro s c hc
    rcases s with _ | ⟨d, s⟩
    · simp [signPart] at hc
    · rw [signPart] at hc
      split at hc
      · next h =>
        rw [List.mem_singleton.mp hc]
        rcases h with rfl | rfl <;> exact Or.inr (by decide)
      · simp at hc
  rcases s with _ | ⟨c, s⟩
  · simp [exponentPart]
  · rw [exponentPart]
    split
    · next h =>
      refine List.forall_mem_cons.mpr ⟨?_, List.forall_mem_append.mpr
        ⟨hsign s, numberChar_takeDigits _⟩⟩
      rcases h.1 with rfl | rfl <;> exact Or.inr (by decide)
    · simp

theorem numberChar_numberToken {i f u : Text} (h : numberToken s = some (i, f, u)) :
    ∀ c ∈ i ++ f, NumberChar c := by
  unfold numberToken at h
  obtain ⟨p, hp, heq⟩ := Option.map_eq_some_iff.mp h
  cases heq
  exact List.forall_mem_append.mpr ⟨numberChar_integerPart (i := p.1) (u := p.2) hp,
    List.forall_mem_append.mpr ⟨numberChar_fractionPart _, numberChar_exponentPart _⟩⟩

theorem IsFloatText.chars {t : Text} (h : IsFloatText t) :
    t ∈ floatConstants ∨ ∀ c ∈ t, NumberChar c := by
  refine h.imp_right fun ⟨i, f, ht, _⟩ => ?_
  have heq := (numberToken_eq ht).1
  rw [List.append_nil] at heq
  rw [← heq]
  exact numberChar_numberToken ht

/-! ## Integers -/

theorem isDigit_of_mem_toDigits {n : ℕ} {c : Char} (hc : c ∈ Nat.toDigits 10 n) : c.isDigit :=
  Nat.isDigit_of_mem_toDigits (by decide) (by decide) hc

theorem takeDigits_digits {d : Text} (hd : ∀ c ∈ d, c.isDigit) (hr : Stops r) :
    takeDigits (d ++ r) = (d, r) := by
  have htake : (d ++ r).takeWhile Char.isDigit = d ++ r.takeWhile Char.isDigit :=
    List.takeWhile_append_of_pos hd
  have hdrop : (d ++ r).dropWhile Char.isDigit = r.dropWhile Char.isDigit :=
    List.dropWhile_append_of_pos hd
  have hstop := takeDigits_of_stops hr
  unfold takeDigits at hstop ⊢
  rw [Prod.mk.injEq] at hstop
  rw [htake, hdrop, hstop.1, hstop.2, List.append_nil]

/-- The digits of a number start with 0 for 0 only. -/
theorem toDigits_cases (n : ℕ) :
    n = 0 ∧ Nat.toDigits 10 n = ['0'] ∨
      ∃ c s, Nat.toDigits 10 n = c :: s ∧ c ≠ '0' ∧ c.isDigit := by
  induction n using Nat.strongRecOn with
  | _ n ih =>
    rcases Nat.lt_or_ge n 10 with hlt | hge
    · rw [Nat.toDigits_of_lt_base hlt]
      rcases Nat.eq_zero_or_pos n with rfl | hpos
      · exact Or.inl ⟨rfl, rfl⟩
      · refine Or.inr ⟨_, [], rfl, ?_, ?_⟩
        · rw [Ne, Nat.digitChar_eq_zero]
          omega
        · exact isDigit_of_mem_toDigits (n := n) (by rw [Nat.toDigits_of_lt_base hlt]; simp)
    · right
      rw [Nat.toDigits_of_base_le (by decide) hge]
      rcases ih (n / 10) (by omega) with ⟨h0, -⟩ | ⟨c, s, hs, hc, hd⟩
      · omega
      · exact ⟨c, s ++ [(n % 10).digitChar], by rw [hs]; rfl, hc, hd⟩

theorem naturalPart_toDigits (n : ℕ) (hr : Stops r) :
    naturalPart (Nat.toDigits 10 n ++ r) = some (Nat.toDigits 10 n, r) := by
  rcases toDigits_cases n with ⟨rfl, h⟩ | ⟨c, s, h, hc, hd⟩
  · rw [h]
    rfl
  · have hs : ∀ d ∈ s, d.isDigit := fun d hd =>
      isDigit_of_mem_toDigits (n := n) (by rw [h]; exact List.mem_cons_of_mem c hd)
    rw [h, List.cons_append, naturalPart, if_neg hc, if_pos hd, takeDigits_digits hs hr]

/-- An integer is read as it was written, as a number without fraction and exponent. -/
theorem numberToken_intText (n : ℤ) (hr : Stops r) :
    numberToken (intText n ++ r) = some (intText n, [], r) := by
  have hfrac : fractionPart r = ([], r) := by simpa [fractionPart] using fractionPart_append hr []
  have hexp : exponentPart r = ([], r) := by simpa [exponentPart] using exponentPart_append hr []
  have hint : integerPart (intText n ++ r) = some (intText n, r) := by
    unfold intText
    split
    · rw [List.cons_append, integerPart, if_pos rfl, naturalPart_toDigits _ hr]
      rfl
    · rcases hd : Nat.toDigits 10 n.natAbs with _ | ⟨c, s⟩
      · exact absurd hd Nat.toDigits_ne_nil
      · have hc : c ≠ '-' := by
          rintro rfl
          have := isDigit_of_mem_toDigits (n := n.natAbs) (c := '-') (by rw [hd]; simp)
          exact absurd this (by decide)
        rw [List.cons_append, integerPart, if_neg hc, ← List.cons_append, ← hd,
          naturalPart_toDigits _ hr]
  unfold numberToken
  rw [hint, Option.map_some]
  dsimp only
  rw [hfrac]
  dsimp only
  rw [hexp]
  rfl

theorem intOfToken_intText (n : ℤ) : intOfToken (intText n) = n := by
  unfold intText
  split
  · rw [intOfToken, if_pos rfl, Nat.ofDigitChars_ten_toDigits]
    omega
  · rcases hd : Nat.toDigits 10 n.natAbs with _ | ⟨c, s⟩
    · exact absurd hd Nat.toDigits_ne_nil
    · have hc : c ≠ '-' := by
        rintro rfl
        have := isDigit_of_mem_toDigits (n := n.natAbs) (c := '-') (by rw [hd]; simp)
        exact absurd this (by decide)
      rw [intOfToken, if_neg hc, ← hd, Nat.ofDigitChars_ten_toDigits]
      omega

theorem numberChar_intText (n : ℤ) : ∀ c ∈ intText n, NumberChar c := by
  have h := numberToken_intText n stops_nil
  have := numberChar_numberToken h
  rwa [List.append_nil] at this

/-! ## A format for every countable type -/

theorem isFloatText_digits (n : ℕ) : IsFloatText ('0' :: '.' :: Nat.toDigits 10 n) := by
  have htake : takeDigits (Nat.toDigits 10 n) = (Nat.toDigits 10 n, []) := by
    have := takeDigits_digits (d := Nat.toDigits 10 n) (fun c hc => isDigit_of_mem_toDigits hc)
      stops_nil
    rwa [List.append_nil] at this
  refine Or.inr ⟨['0'], '.' :: Nat.toDigits 10 n, ?_, List.cons_ne_nil _ _⟩
  have hint : integerPart ('0' :: '.' :: Nat.toDigits 10 n) =
      some (['0'], '.' :: Nat.toDigits 10 n) := rfl
  have hfraction : fractionPart ('.' :: Nat.toDigits 10 n) = ('.' :: Nat.toDigits 10 n, []) := by
    rw [fractionPart, htake, if_pos ⟨rfl, Nat.toDigits_ne_nil⟩]
  unfold numberToken
  rw [hint, Option.map_some]
  dsimp only
  rw [hfraction]
  dsimp only [exponentPart]
  rw [List.append_nil]

/-- A float as `0.` and its index. -/
def FloatFormat.ofEncodable (F : Type) [Encodable F] [Inhabited F] : FloatFormat F where
  repr x := '0' :: '.' :: Nat.toDigits 10 (Encodable.encode x)
  parse t := (Encodable.decode (Nat.ofDigitChars 10 (t.drop 2) 0)).getD default
  isFloatText_repr x := isFloatText_digits (Encodable.encode x)
  parse_repr x := by
    show (Encodable.decode (Nat.ofDigitChars 10 (Nat.toDigits 10 (Encodable.encode x)) 0)).getD
      default = x
    rw [Nat.ofDigitChars_ten_toDigits, Encodable.encodek]
    rfl

end Json
