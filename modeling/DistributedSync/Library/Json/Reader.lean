import DistributedSync.Library.Json.Values

/-!
# Reading JSON

`loads` reads a value as the reference decoder does: whitespace between tokens, the constants `NaN`
and `Infinity`, the last of equal keys. The recursion is bounded by the length of the text, which is
enough (`readValue_fuel`, `readSequence_fuel`): every reader leaves a shorter text than it got.
-/

namespace Json

variable {F α β : Type} {fmt : FloatFormat F}

/-! ## The decoder -/

def skipSpace (s : Text) : Text := s.dropWhile isSpace

/-- Items with commas between them, up to the closing character; `n` bounds their number. -/
def readSequence (item : Text → Option (α × Text)) (close : Char) :
    ℕ → Text → Option (List α × Text)
  | 0, _ => none
  | n + 1, s =>
    (item (skipSpace s)).bind fun r =>
      match skipSpace r.2 with
      | [] => none
      | c :: s =>
        if c = ',' then (readSequence item close n s).map fun q => (r.1 :: q.1, q.2)
        else if c = close then some ([r.1], s)
        else none

/-- What follows an opening bracket. -/
def readItems (item : Text → Option (α × Text)) (close : Char) (s : Text) :
    Option (List α × Text) :=
  match skipSpace s with
  | [] => none
  | c :: s' =>
    if c = close then some ([], s') else readSequence item close (s.length + 1) (c :: s')

/-- A key, a colon and a value. -/
def readField (value : Text → Option (α × Text)) : Text → Option ((Str × α) × Text)
  | [] => none
  | c :: s =>
    if c = '"' then
      (scanString s).bind fun k =>
        match skipSpace k.2 with
        | [] => none
        | d :: s =>
          if d = ':' then (value (skipSpace s)).map fun r => ((k.1, r.1), r.2) else none
    else none

/-- `d[key] = value`: a key that is there keeps its place. -/
def setField (fields : List (Str × α)) (k : Str) (v : α) : List (Str × α) :=
  if k ∈ fields.map Prod.fst then fields.map fun f => if f.1 = k then (k, v) else f
  else fields ++ [(k, v)]

/-- `dict(pairs)`. -/
def dictOf (pairs : List (Str × α)) : List (Str × α) :=
  pairs.foldl (fun fields f => setField fields f.1 f.2) []

/-- Read a word. -/
def readWord : Text → Text → Option Text
  | [], s => some s
  | c :: w, d :: s => if c = d then readWord w s else none
  | _ :: _, [] => none

/-- The words that are values. -/
def words (fmt : FloatFormat F) : List (Text × Json F) :=
  [(nullText, null), (boolText true, bool true), (boolText false, bool false)] ++
    floatConstants.map fun t => (t, float (fmt.parse t))

/-- A word or a number. -/
def readScalar (fmt : FloatFormat F) (s : Text) : Option (Json F × Text) :=
  match (words fmt).findSome? fun w => (readWord w.1 s).map fun r => (w.2, r) with
  | some r => some r
  | none =>
    (numberToken s).map fun t =>
      (if t.2.1 = [] then int (intOfToken t.1) else float (fmt.parse (t.1 ++ t.2.1)), t.2.2)

/-- `scan_once`; `n` bounds the depth. -/
def readValue (fmt : FloatFormat F) : ℕ → Text → Option (Json F × Text)
  | 0, _ => none
  | _ + 1, [] => none
  | n + 1, c :: s =>
    if c = '"' then (scanString s).map fun r => (str r.1, r.2)
    else if c = '[' then
      (readItems (readValue fmt n) ']' s).map fun r => (arr r.1, r.2)
    else if c = '{' then
      (readItems (readField (readValue fmt n)) '}' s).map fun r => (obj (dictOf r.1), r.2)
    else readScalar fmt (c :: s)

/-- `json.loads`; `none` when it raises. -/
def loads (fmt : FloatFormat F) (s : Text) : Option (Json F) :=
  match readValue fmt (s.length + 1) (skipSpace s) with
  | some (v, r) => if skipSpace r = [] then some v else none
  | none => none

/-! ## The bounds are enough -/

/-- What `p` leaves is shorter than what it was given. -/
def Shrinks (p : Text → Option (α × Text)) : Prop :=
  ∀ s a r, p s = some (a, r) → r.length < s.length

theorem length_skipSpace_le (s : Text) : (skipSpace s).length ≤ s.length :=
  (List.dropWhile_sublist _).length_le

theorem length_of_skipSpace {s s' : Text} {c : Char} (h : skipSpace s = c :: s') :
    s'.length < s.length := by
  have := length_skipSpace_le s
  rw [h, List.length_cons] at this
  exact this

/-- A string has no more code units than its text has characters. -/
theorem scanUnits_length (s : Text) : ∀ a r, scanUnits s = some (a, r) →
    a.length + r.length < s.length := by
  obtain ⟨n, hn⟩ : ∃ n, s.length ≤ n := ⟨_, le_rfl⟩
  induction n generalizing s with
  | zero =>
    rw [List.length_eq_zero_iff.mp (Nat.le_zero.mp hn)]
    intro a r h
    cases h
  | succ n ih =>
    have hmap : ∀ {u : Text} {v : ℕ} {a : List ℕ} {r : Text}, u.length < s.length →
        (scanUnits u).map (fun x => (v :: x.1, x.2)) = some (a, r) →
          a.length + r.length < s.length := by
      intro u v a r hlt h
      obtain ⟨⟨a', r'⟩, hx, heq⟩ := Option.map_eq_some_iff.mp h
      cases heq
      have := ih u (by omega) _ _ hx
      simp only [List.length_cons]
      omega
    intro a r h
    rcases s with _ | ⟨c, s⟩
    · cases h
    by_cases hquote : c = '"'
    · subst hquote
      rw [scanUnits_end] at h
      cases h
      simp
    by_cases hslash : c = '\\'
    · subst hslash
      rcases s with _ | ⟨e, s⟩
      · cases h
      by_cases hu : e = 'u'
      · subst hu
        rcases s with _ | ⟨x, _ | ⟨y, _ | ⟨z, _ | ⟨w, s⟩⟩⟩⟩
        · cases h
        · cases h
        · cases h
        · cases h
        · rw [scanUnits_unicode] at h
          obtain ⟨v, -, h⟩ := Option.bind_eq_some_iff.mp h
          exact hmap (by simp only [List.length_cons]; omega) h
      · rw [scanUnits_escape hu] at h
        obtain ⟨v, -, h⟩ := Option.bind_eq_some_iff.mp h
        exact hmap (by simp only [List.length_cons]; omega) h
    · by_cases hc : c.toNat < 0x20
      · rw [scanUnits.eq_def] at h
        simp only [hquote, hslash, hc, if_true, if_false] at h
        cases h
      · rw [scanUnits_char hquote hslash hc] at h
        exact hmap (by simp) h

theorem scanUnits_shrinks : Shrinks scanUnits := fun s a r h => by
  have := scanUnits_length s a r h
  omega

theorem scanString_shrinks : Shrinks scanString := by
  intro s a r h
  obtain ⟨⟨a', r'⟩, hx, heq⟩ := Option.map_eq_some_iff.mp h
  cases heq
  exact scanUnits_shrinks s _ _ hx

theorem readWord_length {w s r : Text} (h : readWord w s = some r) :
    r.length + w.length = s.length := by
  induction w generalizing s with
  | nil =>
    cases h
    rfl
  | cons c w ih =>
    rcases s with _ | ⟨d, s⟩
    · cases h
    · rw [readWord] at h
      split at h
      · have := ih h
        simp only [List.length_cons]
        omega
      · cases h

theorem readScalar_shrinks : Shrinks (readScalar fmt) := by
  intro s v r h
  unfold readScalar at h
  split at h
  · next x hx =>
    cases h
    obtain ⟨w, hw, hx⟩ := List.exists_of_findSome?_eq_some hx
    obtain ⟨r', hr, heq⟩ := Option.map_eq_some_iff.mp hx
    cases heq
    have hlen := readWord_length hr
    have hne : 0 < w.1.length := by
      have key : ∀ w ∈ words fmt, 0 < w.1.length := by
        simp [words, floatConstants, nullText, boolText]
      exact key w hw
    omega
  · obtain ⟨⟨i, f, u⟩, ht, heq⟩ := Option.map_eq_some_iff.mp h
    cases heq
    obtain ⟨rfl, c, -, hi⟩ := numberToken_eq ht
    have hne : 0 < i.length := by
      rcases hi with hi | ⟨j, rfl, -⟩
      · obtain ⟨i', rfl⟩ := List.head?_eq_some_iff.mp hi
        exact Nat.succ_pos _
      · exact Nat.succ_pos _
    simp only [List.length_append]
    omega

theorem readField_shrinks {value : Text → Option (α × Text)} (hv : Shrinks value) :
    Shrinks (readField value) := by
  intro s f r h
  rcases s with _ | ⟨c, s⟩
  · cases h
  rw [readField] at h
  split at h
  · obtain ⟨⟨k, u⟩, hk, h⟩ := Option.bind_eq_some_iff.mp h
    have hlen := scanString_shrinks s k u hk
    dsimp only at h
    rcases hu : skipSpace u with _ | ⟨d, u'⟩
    · rw [hu] at h
      cases h
    · have hlen' := length_of_skipSpace hu
      rw [hu] at h
      dsimp only at h
      split at h
      · obtain ⟨⟨a, r'⟩, hx, heq⟩ := Option.map_eq_some_iff.mp h
        cases heq
        have := hv _ _ _ hx
        have := length_skipSpace_le u'
        show r'.length < s.length + 1
        omega
      · cases h
  · cases h

theorem readSequence_shrinks {item : Text → Option (α × Text)} {close : Char}
    (hi : Shrinks item) (n : ℕ) : Shrinks (readSequence item close n) := by
  induction n with
  | zero =>
    intro s as r h
    cases h
  | succ n ih =>
    intro s as r h
    rw [readSequence] at h
    obtain ⟨⟨a, u⟩, ha, h⟩ := Option.bind_eq_some_iff.mp h
    have hlen := hi _ _ _ ha
    have hskip := length_skipSpace_le s
    dsimp only at h
    rcases hu : skipSpace u with _ | ⟨d, u'⟩
    · rw [hu] at h
      cases h
    · have hlen' := length_of_skipSpace hu
      rw [hu] at h
      dsimp only at h
      split at h
      · obtain ⟨⟨bs, r'⟩, hx, heq⟩ := Option.map_eq_some_iff.mp h
        cases heq
        have := ih _ _ _ hx
        show r'.length < s.length
        omega
      · split at h
        · cases h
          omega
        · cases h

theorem readItems_shrinks {item : Text → Option (α × Text)} {close : Char} (hi : Shrinks item) :
    Shrinks (readItems item close) := by
  intro s as r h
  unfold readItems at h
  rcases hs : skipSpace s with _ | ⟨c, s'⟩
  · rw [hs] at h
    cases h
  · have hlen := length_of_skipSpace hs
    rw [hs] at h
    dsimp only at h
    split at h
    · cases h
      exact hlen
    · have := readSequence_shrinks hi _ _ _ _ h
      rw [List.length_cons] at this
      omega

theorem readValue_shrinks (n : ℕ) : Shrinks (readValue fmt n) := by
  induction n with
  | zero =>
    intro s v r h
    cases h
  | succ n ih =>
    intro s v r h
    rcases s with _ | ⟨c, s⟩
    · cases h
    have hmap : ∀ {β : Type} {p : Text → Option (β × Text)} {g : β → Json F}, Shrinks p →
        (p s).map (fun x => (g x.1, x.2)) = some (v, r) → r.length < (c :: s).length := by
      intro β p g hp h
      obtain ⟨⟨a, r'⟩, hx, heq⟩ := Option.map_eq_some_iff.mp h
      cases heq
      exact (hp s _ _ hx).trans (Nat.lt_succ_self _)
    rw [readValue] at h
    split at h
    · exact hmap scanString_shrinks h
    split at h
    · exact hmap (readItems_shrinks ih) h
    split at h
    · exact hmap (g := fun l => obj (dictOf l)) (readItems_shrinks (readField_shrinks ih)) h
    · exact readScalar_shrinks _ _ _ h

/-! ### Strings that are read -/

theorem scanString_length {s r : Text} {u : Str} (h : scanString s = some (u, r)) :
    u.length < s.length := by
  obtain ⟨⟨a, r'⟩, hx, heq⟩ := Option.map_eq_some_iff.mp h
  cases heq
  have hlen := scanUnits_length s _ _ hx
  have hmerge := length_merge_le a
  dsimp only at hlen ⊢
  omega

theorem readScalar_ne_str {s r : Text} {u : Str} : readScalar fmt s ≠ some (str u, r) := by
  intro h
  unfold readScalar at h
  split at h
  · next x hx =>
    cases h
    obtain ⟨w, hw, hx⟩ := List.exists_of_findSome?_eq_some hx
    obtain ⟨r', -, heq⟩ := Option.map_eq_some_iff.mp hx
    have hwords : ∀ w ∈ words fmt, ∀ u, w.2 ≠ str u := by
      simp [words, floatConstants]
    exact hwords w hw u (Prod.mk.inj heq).1
  · obtain ⟨t, -, heq⟩ := Option.map_eq_some_iff.mp h
    split at heq <;> cases heq

theorem readValue_str_length {n : ℕ} {s r : Text} {u : Str}
    (h : readValue fmt n s = some (str u, r)) : u.length < s.length := by
  rcases n with _ | n
  · cases h
  rcases s with _ | ⟨c, s⟩
  · cases h
  rw [readValue] at h
  split at h
  · obtain ⟨x, hx, heq⟩ := Option.map_eq_some_iff.mp h
    cases heq
    exact (scanString_length hx).trans (Nat.lt_succ_self _)
  · split at h
    · obtain ⟨x, -, heq⟩ := Option.map_eq_some_iff.mp h
      cases heq
    · split at h
      · obtain ⟨x, -, heq⟩ := Option.map_eq_some_iff.mp h
        cases heq
      · exact absurd h readScalar_ne_str

/-- A string is shorter than a text it is read from. -/
theorem loads_str_length {s : Text} {u : Str} (h : loads fmt s = some (str u)) :
    u.length < s.length := by
  unfold loads at h
  split at h
  · next v r hv =>
    rw [Option.ite_none_right_eq_some] at h
    obtain ⟨-, h⟩ := h
    cases h
    exact (readValue_str_length hv).trans_le (length_skipSpace_le s)
  · cases h

/-! ### Readers that agree on short texts -/

theorem readSequence_congr {p q : Text → Option (α × Text)} {close : Char} (hp : Shrinks p)
    {n : ℕ} {s : Text} (h : ∀ t, t.length ≤ s.length → p t = q t) :
    readSequence p close n s = readSequence q close n s := by
  induction n generalizing s with
  | zero => rfl
  | succ n ih =>
    have hskip := length_skipSpace_le s
    rw [readSequence, readSequence, ← h _ hskip]
    refine Option.bind_congr fun r hr => ?_
    have hlen := hp _ r.1 r.2 hr
    rcases hu : skipSpace r.2 with _ | ⟨c, u⟩
    · rfl
    · have := length_of_skipSpace hu
      dsimp only
      rw [ih fun t ht => h t (by omega)]

theorem readItems_congr {p q : Text → Option (α × Text)} {close : Char} (hp : Shrinks p)
    {s : Text} (h : ∀ t, t.length ≤ s.length → p t = q t) :
    readItems p close s = readItems q close s := by
  have hskip := length_skipSpace_le s
  unfold readItems
  rcases hs : skipSpace s with _ | ⟨c, u⟩
  · rfl
  · rw [hs] at hskip
    dsimp only
    rw [readSequence_congr hp fun t ht => h t (by omega)]

theorem readField_congr {p q : Text → Option (α × Text)} {s : Text}
    (h : ∀ t, t.length < s.length → p t = q t) : readField p s = readField q s := by
  rcases s with _ | ⟨c, s⟩
  · rfl
  rw [readField, readField]
  split
  · refine Option.bind_congr fun k hk => ?_
    have hlen := scanString_shrinks s k.1 k.2 hk
    rcases hu : skipSpace k.2 with _ | ⟨d, u⟩
    · rfl
    · have := length_of_skipSpace hu
      have := length_skipSpace_le u
      dsimp only
      rw [h _ (by rw [List.length_cons]; omega)]
  · rfl

/-- A depth beyond the length of the text makes no difference. -/
theorem readValue_fuel {n m : ℕ} {s : Text} (hn : s.length < n) (hm : s.length < m) :
    readValue fmt n s = readValue fmt m s := by
  induction n generalizing m s with
  | zero => omega
  | succ n ih =>
    obtain ⟨m, rfl⟩ : ∃ k, m = k + 1 := ⟨m - 1, by omega⟩
    rcases s with _ | ⟨c, s⟩
    · rfl
    rw [List.length_cons] at hn hm
    have hvalue : ∀ t, t.length ≤ s.length → readValue fmt n t = readValue fmt m t :=
      fun t ht => ih (by omega) (by omega)
    rw [readValue, readValue, readItems_congr (readValue_shrinks n) hvalue,
      readItems_congr (readField_shrinks (readValue_shrinks n)) fun t ht =>
        readField_congr fun u hu => hvalue u (by omega)]

/-- The same for the number of items. -/
theorem readSequence_fuel {p : Text → Option (α × Text)} {close : Char} (hp : Shrinks p)
    {n m : ℕ} {s : Text} (hn : s.length < n) (hm : s.length < m) :
    readSequence p close n s = readSequence p close m s := by
  induction n generalizing m s with
  | zero => omega
  | succ n ih =>
    obtain ⟨m, rfl⟩ : ∃ k, m = k + 1 := ⟨m - 1, by omega⟩
    have hskip := length_skipSpace_le s
    rw [readSequence, readSequence]
    refine Option.bind_congr fun r hr => ?_
    have hlen := hp _ r.1 r.2 hr
    rcases hu : skipSpace r.2 with _ | ⟨c, u⟩
    · rfl
    · have := length_of_skipSpace hu
      dsimp only
      rw [ih (m := m) (by omega) (by omega)]

end Json
