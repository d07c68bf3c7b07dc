import Mathlib.Data.List.Basic

/-!
# JSON strings

A string is the list of its code points, lone surrogates included. A JSON text spells it in ASCII,
one UTF-16 code unit at a time: `utf16` cuts a string into units and `merge` puts a high and a low
surrogate that stand side by side together again. What a reader gets back is `merge (utf16 s)`
(`scanString_quote`), and writing that once more gives the same text (`quote_merge`). The two are
the same for a *plain* string, in which no high surrogate stands before a low one.
-/

namespace Json

/-- A text. -/
abbrev Text := List Char

/-- A string, as the list of its code points. -/
abbrev Str := List ℕ

/-- The code points of a string. -/
def ofString (s : String) : Str := s.toList.map Char.toNat

/-- Decided along the list, not for every character there is. -/
instance (priority := high) decidableForallMem {p : Char → Prop} [DecidablePred p] (l : List Char) :
    Decidable (∀ c ∈ l, p c) :=
  List.decidableBAll p l

/-! ## Code units -/

/-- The UTF-16 code units of a code point. -/
def units (c : ℕ) : List ℕ :=
  if c < 0x10000 then [c]
  else [0xd800 + (c - 0x10000) / 0x400 % 0x400, 0xdc00 + (c - 0x10000) % 0x400]

/-- The UTF-16 code units of a string. -/
def utf16 (s : Str) : List ℕ := s.flatMap units

/-- A high surrogate. -/
def IsHigh (u : ℕ) : Prop := 0xd800 ≤ u ∧ u < 0xdc00

/-- A low surrogate. -/
def IsLow (u : ℕ) : Prop := 0xdc00 ≤ u ∧ u < 0xe000

instance (u : ℕ) : Decidable (IsHigh u) := inferInstanceAs (Decidable (_ ∧ _))

instance (u : ℕ) : Decidable (IsLow u) := inferInstanceAs (Decidable (_ ∧ _))

/-- Put surrogate pairs together. -/
def merge : List ℕ → Str
  | u :: v :: s =>
    if IsHigh u ∧ IsLow v then (0x10000 + (u - 0xd800) * 0x400 + (v - 0xdc00)) :: merge s
    else u :: merge (v :: s)
  | s => s

@[simp] theorem utf16_nil : utf16 [] = [] := rfl

@[simp] theorem utf16_cons (c : ℕ) (s : Str) : utf16 (c :: s) = units c ++ utf16 s := by
  simp [utf16]

theorem units_of_lt {c : ℕ} (h : c < 0x10000) : units c = [c] := if_pos h

theorem units_pair {u v : ℕ} (hu : IsHigh u) (hv : IsLow v) :
    units (0x10000 + (u - 0xd800) * 0x400 + (v - 0xdc00)) = [u, v] := by
  unfold IsHigh at hu
  unfold IsLow at hv
  obtain ⟨c, hc⟩ : ∃ c, c = (u - 0xd800) * 0x400 + (v - 0xdc00) := ⟨_, rfl⟩
  have hsub : 0x10000 + (u - 0xd800) * 0x400 + (v - 0xdc00) - 0x10000 = c := by omega
  have hhigh : 0xd800 + c / 0x400 % 0x400 = u := by omega
  have hlow : 0xdc00 + c % 0x400 = v := by omega
  unfold units
  rw [if_neg (by omega), hsub, hhigh, hlow]

theorem utf16_lt (s : Str) : ∀ u ∈ utf16 s, u < 0x10000 := by
  intro u hu
  obtain ⟨c, -, hc⟩ := List.mem_flatMap.mp hu
  unfold units at hc
  split at hc
  · next h =>
    rw [List.mem_singleton.mp hc]
    exact h
  · rcases List.mem_cons.mp hc with rfl | hc
    · omega
    · rw [List.mem_singleton.mp hc]
      omega

/-- Cutting into units undoes the merging. -/
theorem utf16_merge {l : List ℕ} (hl : ∀ u ∈ l, u < 0x10000) : utf16 (merge l) = l := by
  induction l using merge.induct with
  | case1 u v s h ih =>
    rw [merge, if_pos h, utf16_cons, units_pair h.1 h.2, ih fun w hw => hl w (by simp [hw])]
    rfl
  | case2 u v s h ih =>
    rw [merge, if_neg h, utf16_cons, units_of_lt (hl u (by simp)),
      ih fun w hw => hl w (List.mem_cons_of_mem u hw)]
    rfl
  | case3 s h =>
    rcases s with _ | ⟨u, _ | ⟨v, s⟩⟩
    · rfl
    · show units u ++ [] = [u]
      rw [units_of_lt (hl u (by simp))]
      rfl
    · exact absurd rfl (h u v s)

theorem length_merge_le (l : List ℕ) : (merge l).length ≤ l.length := by
  induction l using merge.induct with
  | case1 u v s h ih =>
    rw [merge, if_pos h]
    simp only [List.length_cons]
    omega
  | case2 u v s h ih =>
    rw [merge, if_neg h]
    simp only [List.length_cons] at ih ⊢
    omega
  | case3 s h =>
    rcases s with _ | ⟨u, _ | ⟨v, s⟩⟩
    · exact Nat.le_refl _
    · exact Nat.le_refl _
    · exact absurd rfl (h u v s)

/-- A string of which no two code points merge: what a JSON text can spell. -/
def Plain (s : Str) : Prop := merge (utf16 s) = s

instance (s : Str) : Decidable (Plain s) := inferInstanceAs (Decidable (_ = _))

theorem merge_cons {u : ℕ} (hu : ¬ IsHigh u) (l : List ℕ) : merge (u :: l) = u :: merge l := by
  rcases l with _ | ⟨v, l⟩
  · rfl
  · rw [merge, if_neg fun h => hu h.1]

theorem plain_ofString (s : String) : Plain (ofString s) := by
  unfold ofString
  induction s.toList with
  | nil => rfl
  | cons c l ih =>
    unfold Plain at ih ⊢
    rw [List.map_cons, utf16_cons]
    have hvalid : c.toNat < 0xd800 ∨ 0xdfff < c.toNat ∧ c.toNat < 0x110000 := c.valid
    obtain ⟨x, hx⟩ : ∃ x, c.toNat = x := ⟨_, rfl⟩
    rw [hx] at hvalid ⊢
    unfold units
    split
    · rw [List.singleton_append, merge_cons (by unfold IsHigh; omega), ih]
    · have hpair : IsHigh (0xd800 + (x - 0x10000) / 0x400 % 0x400) ∧
          IsLow (0xdc00 + (x - 0x10000) % 0x400) := by
        unfold IsHigh IsLow
        omega
      have hcode : 0x10000 + (0xd800 + (x - 0x10000) / 0x400 % 0x400 - 0xd800) * 0x400 +
          (0xdc00 + (x - 0x10000) % 0x400 - 0xdc00) = x := by omega
      rw [List.cons_append, List.singleton_append, merge, if_pos hpair, ih, hcode]

theorem ofString_injective : Function.Injective ofString :=
  fun _ _ h => String.toList_inj.mp (List.map_injective_iff.mpr (fun _ _ => Char.toNat_inj.mp) h)

/-! ## Writing -/

/-- `'{0:04x}'`. -/
def hex4 (u : ℕ) : Text :=
  [(u / 0x1000 % 16).digitChar, (u / 0x100 % 16).digitChar, (u / 0x10 % 16).digitChar,
    (u % 16).digitChar]

/-- The characters with a short escape, with their letters. -/
def shortEscapes : List (ℕ × Char) :=
  [(0x22, '"'), (0x5c, '\\'), (0x0a, 'n'), (0x0d, 'r'), (0x09, 't'), (0x0c, 'f'), (0x08, 'b')]

/-- A code unit inside a JSON string, with `ensure_ascii`. -/
def escapeUnit (u : ℕ) : Text :=
  match shortEscapes.lookup u with
  | some c => ['\\', c]
  | none => if 0x20 ≤ u ∧ u < 0x7f then [Char.ofNat u] else '\\' :: 'u' :: hex4 u

def quote (s : Str) : Text := '"' :: (utf16 s).flatMap escapeUnit ++ ['"']

theorem quote_merge (s : Str) : quote (merge (utf16 s)) = quote s := by
  unfold quote
  rw [utf16_merge (utf16_lt s)]

/-! ## Reading -/

def hexDigit? (c : Char) : Option ℕ :=
  if c.isDigit then some (c.toNat - 0x30)
  else if 0x61 ≤ c.toNat ∧ c.toNat ≤ 0x66 then some (c.toNat - 0x61 + 10)
  else if 0x41 ≤ c.toNat ∧ c.toNat ≤ 0x46 then some (c.toNat - 0x41 + 10)
  else none

/-- The value of four hexadecimal digits. -/
def hex4? (a b c d : Char) : Option ℕ :=
  (hexDigit? a).bind fun x => (hexDigit? b).bind fun y => (hexDigit? c).bind fun z =>
    (hexDigit? d).map fun w => ((x * 16 + y) * 16 + z) * 16 + w

/-- What a short escape stands for; `/` may be escaped too. -/
def shortEscape? (c : Char) : Option ℕ :=
  if c = '/' then some 0x2f else (shortEscapes.find? fun p => p.2 = c).map Prod.fst

/-- The code units up to the closing quote, and what comes after it. -/
def scanUnits : Text → Option (List ℕ × Text)
  | [] => none
  | c :: s =>
    if c = '"' then some ([], s)
    else if c = '\\' then
      match s with
      | [] => none
      | e :: s =>
        if e = 'u' then
          match s with
          | x :: y :: z :: w :: s =>
            (hex4? x y z w).bind fun u => (scanUnits s).map fun r => (u :: r.1, r.2)
          | _ => none
        else (shortEscape? e).bind fun u => (scanUnits s).map fun r => (u :: r.1, r.2)
    else if c.toNat < 0x20 then none
    else (scanUnits s).map fun r => (c.toNat :: r.1, r.2)

/-- `scanstring`, from after the opening quote on. -/
def scanString (s : Text) : Option (Str × Text) :=
  (scanUnits s).map fun r => (merge r.1, r.2)

/-! ## Reading what was written -/

theorem hexDigit?_digitChar : ∀ d < 16, hexDigit? d.digitChar = some d := by decide

theorem hex4?_hex4 {u : ℕ} (hu : u < 0x10000) :
    hex4? (u / 0x1000 % 16).digitChar (u / 0x100 % 16).digitChar (u / 0x10 % 16).digitChar
      (u % 16).digitChar = some u := by
  have hdigit : ∀ v, hexDigit? (v % 16).digitChar = some (v % 16) :=
    fun v => hexDigit?_digitChar _ (Nat.mod_lt _ (by decide))
  unfold hex4?
  simp only [hdigit, Option.bind_some, Option.map_some, Option.some.injEq]
  omega

theorem shortEscape?_snd : ∀ p ∈ shortEscapes,
    shortEscape? p.2 = some p.1 ∧ p.2 ≠ 'u' := by decide

theorem scanUnits_end (s : Text) : scanUnits ('"' :: s) = some ([], s) := by
  rw [scanUnits.eq_def]
  exact if_pos rfl

theorem scanUnits_escape {e : Char} (he : e ≠ 'u') (s : Text) :
    scanUnits ('\\' :: e :: s) =
      (shortEscape? e).bind fun u => (scanUnits s).map fun r => (u :: r.1, r.2) := by
  rw [scanUnits.eq_def]
  simp only [if_true, if_false, he, show ('\\' : Char) ≠ '"' by decide]

theorem scanUnits_unicode (x y z w : Char) (s : Text) :
    scanUnits ('\\' :: 'u' :: x :: y :: z :: w :: s) =
      (hex4? x y z w).bind fun u => (scanUnits s).map fun r => (u :: r.1, r.2) := by
  rw [scanUnits.eq_def]
  simp only [if_true, if_false, show ('\\' : Char) ≠ '"' by decide]

theorem scanUnits_char {c : Char} (hquote : c ≠ '"') (hslash : c ≠ '\\') (hc : ¬ c.toNat < 0x20)
    (s : Text) : scanUnits (c :: s) = (scanUnits s).map fun r => (c.toNat :: r.1, r.2) := by
  rw [scanUnits.eq_def]
  simp only [hquote, hslash, hc, if_false]

theorem scanUnits_short {p : ℕ × Char} (hp : p ∈ shortEscapes) (s : Text) :
    scanUnits ('\\' :: p.2 :: s) = (scanUnits s).map fun r => (p.1 :: r.1, r.2) := by
  obtain ⟨hread, hne⟩ := shortEscape?_snd p hp
  rw [scanUnits_escape hne, hread, Option.bind_some]

theorem scanUnits_hex {u : ℕ} (hu : u < 0x10000) (s : Text) :
    scanUnits ('\\' :: 'u' :: (hex4 u ++ s)) = (scanUnits s).map fun r => (u :: r.1, r.2) := by
  unfold hex4
  simp only [List.cons_append, List.nil_append]
  rw [scanUnits_unicode, hex4?_hex4 hu, Option.bind_some]

theorem toNat_ofNat_ascii : ∀ u < 0x7f, (Char.ofNat u).toNat = u := by decide

theorem scanUnits_plain {u : ℕ} (hu : 0x20 ≤ u ∧ u < 0x7f) (hquote : u ≠ 0x22)
    (hslash : u ≠ 0x5c) (s : Text) :
    scanUnits (Char.ofNat u :: s) = (scanUnits s).map fun r => (u :: r.1, r.2) := by
  have hnat := toNat_ofNat_ascii u hu.2
  have hne : ∀ c : Char, u ≠ c.toNat → Char.ofNat u ≠ c := by
    rintro c hc rfl
    exact hc hnat.symm
  rw [scanUnits_char (hne _ hquote) (hne _ hslash) (by omega), hnat]

/-- A code unit is read as it was written. -/
theorem scanUnits_escapeUnit {u : ℕ} (hu : u < 0x10000) (s : Text) :
    scanUnits (escapeUnit u ++ s) = (scanUnits s).map fun r => (u :: r.1, r.2) := by
  by_cases hshort : ∃ c, (u, c) ∈ shortEscapes
  · obtain ⟨c, hc⟩ := hshort
    have hesc : escapeUnit u = ['\\', c] := by
      have key : ∀ p ∈ shortEscapes, escapeUnit p.1 = ['\\', p.2] := by decide
      exact key _ hc
    rw [hesc]
    exact scanUnits_short hc s
  · have hlookup : shortEscapes.lookup u = none := by
      rw [List.lookup_eq_none_iff]
      rintro ⟨v, c⟩ hmem
      rw [bne_iff_ne]
      rintro rfl
      exact hshort ⟨c, hmem⟩
    unfold escapeUnit
    rw [hlookup]
    dsimp only
    split
    · next h =>
      refine scanUnits_plain h (fun heq => hshort ⟨'"', ?_⟩) (fun heq => hshort ⟨'\\', ?_⟩) s <;>
        rw [heq] <;> decide
    · exact scanUnits_hex hu s

theorem scanUnits_quote {l : List ℕ} (hl : ∀ u ∈ l, u < 0x10000) (s : Text) :
    scanUnits (l.flatMap escapeUnit ++ '"' :: s) = some (l, s) := by
  induction l with
  | nil =>
    exact scanUnits_end s
  | cons u l ih =>
    rw [List.flatMap_cons, List.append_assoc, scanUnits_escapeUnit (hl u List.mem_cons_self),
      ih fun v hv => hl v (List.mem_cons_of_mem u hv)]
    rfl

/-- Reading a string back gives its units, put together. -/
theorem scanString_quote (s : Str) (r : Text) :
    scanString ((utf16 s).flatMap escapeUnit ++ '"' :: r) = some (merge (utf16 s), r) := by
  unfold scanString
  rw [scanUnits_quote (utf16_lt s)]
  rfl

/-! ## Printable text -/

def Printable (c : Char) : Prop := 0x20 ≤ c.toNat ∧ c.toNat < 0x7f

instance (c : Char) : Decidable (Printable c) := inferInstanceAs (Decidable (_ ∧ _))

theorem printable_digitChar : ∀ d < 16, Printable d.digitChar := by decide

theorem printable_hex4 (u : ℕ) : ∀ c ∈ hex4 u, Printable c := by
  have hdigit : ∀ v, Printable (v % 16).digitChar :=
    fun v => printable_digitChar _ (Nat.mod_lt _ (by decide))
  unfold hex4
  simp only [List.mem_cons, List.not_mem_nil, or_false, forall_eq_or_imp, forall_eq, hdigit,
    and_self]

theorem printable_escapeUnit (u : ℕ) : ∀ c ∈ escapeUnit u, Printable c := by
  have hslash : Printable '\\' := by decide
  unfold escapeUnit
  split
  · next d hd =>
    have hmem : Printable d := by
      have key : ∀ p ∈ shortEscapes, Printable p.2 := by decide
      obtain ⟨l₁, l₂, heq, -⟩ := List.lookup_eq_some_iff.mp hd
      exact key (u, d) (by rw [heq]; simp)
    simp [hslash, hmem]
  · split
    · next h =>
      have hu := toNat_ofNat_ascii u h.2
      intro c hc
      rw [List.mem_singleton.mp hc]
      unfold Printable
      rw [hu]
      exact h
    · have hu : Printable 'u' := by decide
      have hhex := printable_hex4 u
      simpa [hslash, hu] using hhex

theorem printable_quote (s : Str) : ∀ c ∈ quote s, Printable c := by
  have hquote : Printable '"' := by decide
  intro c hc
  unfold quote at hc
  simp only [List.cons_append, List.mem_cons, List.mem_append, List.not_mem_nil, or_false] at hc
  rcases hc with rfl | hc | rfl
  · exact hquote
  · obtain ⟨u, -, hu⟩ := List.mem_flatMap.mp hc
    exact printable_escapeUnit u c hu
  · exact hquote

end Json
