import DistributedSync.Library.Json.Reader

/-!
# Reading undoes writing

The text of a well-formed value is read as the value, with its strings as a text spells them
(`loads_render`), whatever whitespace the separators carry; and written again with sorted keys it
is the same text (`dumps_loads_dumps`).
-/

namespace Json

variable {F α β : Type} {fmt : FloatFormat F}

/-! ## Whitespace -/

theorem skipSpace_cons {c : Char} (hc : isSpace c = false) (s : Text) :
    skipSpace (c :: s) = c :: s := by
  unfold skipSpace
  rw [List.dropWhile_cons_of_neg (by simp [hc])]

theorem skipSpace_append {w : Text} (hw : ∀ c ∈ w, isSpace c) (s : Text) :
    skipSpace (w ++ s) = skipSpace s :=
  List.dropWhile_append_of_pos hw

theorem readSequence_skip {item : Text → Option (α × Text)} {close : Char} {w : Text}
    (hw : ∀ c ∈ w, isSpace c) (n : ℕ) (s : Text) :
    readSequence item close n (w ++ s) = readSequence item close n s := by
  cases n with
  | zero => rfl
  | succ n => rw [readSequence, readSequence, skipSpace_append hw]

/-! ## Scalars -/

/-- The first character of a word or a number. -/
def ScalarHead (c : Char) : Prop := c ∈ ['n', 't', 'f', 'N', 'I', '-'] ∨ c.isDigit

/-- `p` reads `t` as `a` before any text that does not go on with a number. -/
structure Reads (p : Text → Option (α × Text)) (t : Text) (a : α) : Prop where
  read : ∀ r, Stops r → p (t ++ r) = some (a, r)
  head : ∃ c s, t = c :: s ∧ isSpace c = false ∧ c ≠ ']' ∧ c ≠ '}'

theorem not_isSpace_of_isDigit {c : Char} (hc : c.isDigit) : isSpace c = false := by
  by_contra h
  simp only [isSpace, Bool.or_eq_true, decide_eq_true_eq, Bool.not_eq_false] at h
  rcases h with ((rfl | rfl) | rfl) | rfl <;> exact absurd hc (by decide)

theorem ne_of_isDigit {c d : Char} (hc : c.isDigit) (hd : ¬ d.isDigit) : c ≠ d := by
  rintro rfl
  exact hd hc

theorem ScalarHead.spec {c : Char} (h : ScalarHead c) :
    isSpace c = false ∧ c ≠ ']' ∧ c ≠ '}' ∧ c ≠ '"' ∧ c ≠ '[' ∧ c ≠ '{' := by
  rcases h with h | h
  · have key : ∀ c ∈ ['n', 't', 'f', 'N', 'I', '-'],
        isSpace c = false ∧ c ≠ ']' ∧ c ≠ '}' ∧ c ≠ '"' ∧ c ≠ '[' ∧ c ≠ '{' := by decide
    exact key c h
  · exact ⟨not_isSpace_of_isDigit h, ne_of_isDigit h (by decide), ne_of_isDigit h (by decide),
      ne_of_isDigit h (by decide), ne_of_isDigit h (by decide), ne_of_isDigit h (by decide)⟩

/-- A text with such a head goes to the reader of words and numbers. -/
theorem Reads.of_scalar {t : Text} {v : Json F} (hhead : ∃ c s, t = c :: s ∧ ScalarHead c)
    (h : ∀ r, Stops r → readScalar fmt (t ++ r) = some (v, r)) (n : ℕ) :
    Reads (readValue fmt (n + 1)) t v := by
  obtain ⟨c, s, rfl, hc⟩ := hhead
  obtain ⟨hspace, h1, h2, h3, h4, h5⟩ := hc.spec
  refine ⟨fun r hr => ?_, c, s, rfl, hspace, h1, h2⟩
  rw [List.cons_append, readValue, if_neg h3, if_neg h4, if_neg h5]
  exact h r hr

/-- The words differ from each other in their first letter, but for the sign of `-Infinity`. -/
theorem readScalar_word {w : Text × Json F} (hw : w ∈ words fmt) (r : Text) :
    readScalar fmt (w.1 ++ r) = some (w.2, r) := by
  simp only [words, floatConstants, List.map_cons, List.map_nil, List.cons_append,
    List.nil_append, List.mem_cons, List.not_mem_nil, or_false] at hw
  rcases hw with rfl | rfl | rfl | rfl | rfl | rfl <;>
    simp [readScalar, words, floatConstants, nullText, boolText, readWord]

theorem readScalar_number {s i f u : Text} (h : numberToken s = some (i, f, u)) :
    readScalar fmt s =
      some (if f = [] then int (intOfToken i) else float (fmt.parse (i ++ f)), u) := by
  have hnone : ((words fmt).findSome? fun w => (readWord w.1 s).map fun r => (w.2, r)) = none := by
    obtain ⟨rfl, c, hc, hhead⟩ := numberToken_eq h
    have hne : ∀ d ∈ ['n', 't', 'f', 'N', 'I'], d ≠ c := by
      intro d hd
      have key : ∀ d ∈ ['n', 't', 'f', 'N', 'I'], ¬ d.isDigit := by decide
      exact (ne_of_isDigit hc (key d hd)).symm
    simp only [List.mem_cons, List.not_mem_nil, or_false, forall_eq_or_imp, forall_eq] at hne
    obtain ⟨h1, h2, h3, h4, h5⟩ := hne
    rcases hhead with hi | ⟨j, rfl, hj⟩
    · obtain ⟨i', rfl⟩ := List.head?_eq_some_iff.mp hi
      have h6 : '-' ≠ c := (ne_of_isDigit hc (by decide)).symm
      simp [words, floatConstants, nullText, boolText, readWord, h1, h2, h3, h4, h5, h6]
    · obtain ⟨j', rfl⟩ := List.head?_eq_some_iff.mp hj
      simp [words, floatConstants, nullText, boolText, readWord, h5]
  unfold readScalar
  rw [hnone, h]
  rfl

theorem reads_word {w : Text × Json F} (hw : w ∈ words fmt) (n : ℕ) :
    Reads (readValue fmt (n + 1)) w.1 w.2 := by
  refine Reads.of_scalar ?_ (fun r _ => readScalar_word hw r) n
  simp only [words, floatConstants, List.map_cons, List.map_nil, List.cons_append,
    List.nil_append, List.mem_cons, List.not_mem_nil, or_false] at hw
  rcases hw with rfl | rfl | rfl | rfl | rfl | rfl <;>
    exact ⟨_, _, rfl, Or.inl (by decide)⟩

theorem reads_number (fmt : FloatFormat F) {t i f : Text} (h : numberToken t = some (i, f, []))
    (n : ℕ) :
    Reads (readValue fmt (n + 1)) t
      (if f = [] then int (intOfToken i) else float (fmt.parse (i ++ f))) := by
  refine Reads.of_scalar ?_ (fun r hr => readScalar_number (numberToken_append hr h)) n
  obtain ⟨rfl, c, hc, hi | ⟨j, rfl, -⟩⟩ := numberToken_eq h
  · obtain ⟨i', rfl⟩ := List.head?_eq_some_iff.mp hi
    exact ⟨c, _, rfl, Or.inr hc⟩
  · exact ⟨'-', _, rfl, Or.inl (by decide)⟩

theorem reads_int (k : ℤ) (n : ℕ) : Reads (readValue fmt (n + 1)) (intText k) (int k) := by
  have h := numberToken_intText k stops_nil
  rw [List.append_nil] at h
  have := reads_number fmt h n
  rwa [if_pos rfl, intOfToken_intText] at this

theorem reads_float (x : F) (n : ℕ) : Reads (readValue fmt (n + 1)) (fmt.repr x) (float x) := by
  rcases fmt.isFloatText_repr x with hconst | ⟨i, f, h, hf⟩
  · have hw : (fmt.repr x, float x) ∈ words fmt := by
      refine List.mem_append_right _ (List.mem_map.mpr ⟨_, hconst, ?_⟩)
      rw [fmt.parse_repr]
    exact reads_word hw n
  · have := reads_number fmt h n
    have heq := (numberToken_eq h).1
    rw [List.append_nil] at heq
    rwa [if_neg hf, heq, fmt.parse_repr] at this

/-! ## Strings, arrays and objects -/

theorem stops_close {c : Char} (hc : c ∈ [',', ']', '}']) (s : Text) : Stops (c :: s) := by
  have key : ∀ c ∈ [',', ']', '}'], ¬ c.isDigit ∧ c ∉ ['.', 'e', 'E', '-', '+'] := by decide
  exact stops_cons (key c hc) s

/-- Items that are read one by one are read in sequence. -/
theorem readSequence_join {item : Text → Option (α × Text)} {close : Char} {w : Text}
    (hclose : close ∈ [']', '}']) (hw : ∀ c ∈ w, isSpace c) {ts : List Text} {as : List α}
    (h : List.Forall₂ (Reads item) ts as) (hne : ts ≠ []) {n : ℕ} (hn : ts.length ≤ n)
    (r : Text) :
    readSequence item close n (join (',' :: w) ts ++ close :: r) = some (as, r) := by
  have hend : close ≠ ',' ∧ isSpace close = false ∧ close ∈ [',', ']', '}'] := by
    have key : ∀ c ∈ [']', '}'], c ≠ ',' ∧ isSpace c = false ∧ c ∈ [',', ']', '}'] := by decide
    exact key close hclose
  induction h generalizing n with
  | nil => exact absurd rfl hne
  | @cons t a ts as ht hts ih =>
    obtain ⟨n, rfl⟩ := Nat.exists_eq_add_one_of_ne_zero
      (Nat.pos_iff_ne_zero.mp (lt_of_lt_of_le (Nat.succ_pos _) hn))
    obtain ⟨c, s, hcs, hspace, -, -⟩ := ht.head
    have hskip : ∀ u, skipSpace (t ++ u) = t ++ u := by
      intro u
      rw [hcs, List.cons_append, skipSpace_cons hspace]
    rw [readSequence]
    rcases ts with _ | ⟨t', ts⟩
    · cases hts
      rw [join, hskip, ht.read _ (stops_close hend.2.2 r), Option.bind_some]
      dsimp only
      rw [skipSpace_cons hend.2.1]
      dsimp only
      rw [if_neg hend.1, if_pos rfl]
    · rw [join_cons_cons, List.append_assoc, List.append_assoc, List.cons_append, hskip,
        ht.read _ (stops_close (by decide) _), Option.bind_some]
      dsimp only
      rw [skipSpace_cons (by decide)]
      dsimp only
      rw [if_pos rfl, readSequence_skip hw, ih (by simp) (by simpa using hn)]
      rfl

theorem length_le_join (sep : Text) {ts : List Text} {t : Text} (ht : t ∈ ts) :
    t.length ≤ (join sep ts).length := by
  induction ts with
  | nil => cases ht
  | cons u ts ih =>
    rcases ts with _ | ⟨u', ts⟩
    · rw [List.mem_singleton.mp ht]
      exact le_rfl
    · rw [join_cons_cons, List.length_append, List.length_append]
      rcases List.mem_cons.mp ht with rfl | ht
      · omega
      · have := ih ht
        omega

theorem length_le_length_join (sep : Text) (ts : List Text) (hts : ∀ t ∈ ts, t ≠ []) :
    ts.length ≤ (join sep ts).length := by
  induction ts with
  | nil => exact Nat.zero_le _
  | cons u ts ih =>
    have hu := List.length_pos_iff.mpr (hts u List.mem_cons_self)
    have := ih fun t ht => hts t (List.mem_cons_of_mem u ht)
    rcases ts with _ | ⟨u', ts⟩
    · rw [join]
      exact hu
    · rw [join_cons_cons, List.length_append, List.length_append, List.length_cons]
      omega

theorem exists_reads {item : Text → Option (α × Text)} {ts : List Text} {as : List α} {t : Text}
    (h : List.Forall₂ (Reads item) ts as) (ht : t ∈ ts) : ∃ a, Reads item t a := by
  induction h with
  | nil => cases ht
  | cons hr _ ih =>
    rcases List.mem_cons.mp ht with rfl | ht
    · exact ⟨_, hr⟩
    · exact ih ht

theorem readItems_join {item : Text → Option (α × Text)} {close : Char} {w : Text}
    (hclose : close ∈ [']', '}']) (hw : ∀ c ∈ w, isSpace c) {ts : List Text} {as : List α}
    (h : List.Forall₂ (Reads item) ts as) (r : Text) :
    readItems item close (join (',' :: w) ts ++ close :: r) = some (as, r) := by
  have hspace : isSpace close = false := by
    have key : ∀ c ∈ [']', '}'], isSpace c = false := by decide
    exact key close hclose
  have hts : ∀ t ∈ ts, ∃ c s, t = c :: s ∧ isSpace c = false ∧ c ≠ close := by
    intro t ht
    obtain ⟨a, ha⟩ := exists_reads h ht
    obtain ⟨c, s, hcs, hc, h1, h2⟩ := ha.head
    refine ⟨c, s, hcs, hc, ?_⟩
    rintro rfl
    rcases List.mem_cons.mp hclose with rfl | hmem
    · exact h1 rfl
    · exact h2 (List.mem_singleton.mp hmem)
  rcases ts with _ | ⟨t, ts⟩
  · cases h
    rw [join, List.nil_append, readItems, skipSpace_cons hspace]
    dsimp only
    rw [if_pos rfl]
  · have hlen := length_le_length_join (',' :: w) (t :: ts) fun t ht => by
      obtain ⟨c, s, rfl, -⟩ := hts t ht
      simp
    have hread := readSequence_join hclose hw h (by simp)
      (n := (join (',' :: w) (t :: ts) ++ close :: r).length + 1)
      (by rw [List.length_append]; omega) r
    obtain ⟨c, s, rfl, hc, hne⟩ := hts t List.mem_cons_self
    obtain ⟨u, hu⟩ : ∃ u, join (',' :: w) ((c :: s) :: ts) ++ close :: r = c :: u := by
      rcases ts with _ | ⟨t', ts⟩
      · exact ⟨_, rfl⟩
      · exact ⟨_, rfl⟩
    rw [hu] at hread ⊢
    rw [readItems, skipSpace_cons hc]
    dsimp only
    rw [if_neg hne]
    exact hread

theorem dictOf_eq {pairs : List (Str × α)} (h : (pairs.map Prod.fst).Nodup) :
    dictOf pairs = pairs := by
  have key : ∀ (l fields : List (Str × α)), ((fields ++ l).map Prod.fst).Nodup →
      l.foldl (fun fields f => setField fields f.1 f.2) fields = fields ++ l := by
    intro l
    induction l with
    | nil =>
      intro fields _
      rw [List.append_nil, List.foldl_nil]
    | cons f l ih =>
      intro fields hnd
      have hnew : f.1 ∉ fields.map Prod.fst := by
        rw [List.map_append, List.map_cons, List.nodup_append] at hnd
        exact fun hmem => hnd.2.2 _ hmem _ List.mem_cons_self rfl
      rw [List.foldl_cons, setField, if_neg hnew, ih _ (by rwa [List.append_assoc]),
        List.append_assoc]
      rfl
  exact key pairs [] h

theorem reads_string (s : Str) (n : ℕ) :
    Reads (readValue fmt (n + 1)) (quote s) (str (merge (utf16 s))) := by
  refine ⟨fun r _ => ?_, '"', _, rfl, by decide, by decide, by decide⟩
  unfold quote
  rw [List.cons_append, List.cons_append, List.append_assoc, readValue, if_pos rfl]
  show (scanString (_ ++ '"' :: r)).map _ = _
  rw [scanString_quote]
  rfl

theorem reads_field {value : Text → Option (α × Text)} {t : Text} {a : α} (h : Reads value t a)
    {w : Text} (hw : ∀ c ∈ w, isSpace c) (k : Str) :
    Reads (readField value) (quote k ++ ':' :: w ++ t) (merge (utf16 k), a) := by
  refine ⟨fun r hr => ?_, '"', _, rfl, by decide, by decide, by decide⟩
  obtain ⟨c, s, hcs, hspace, -, -⟩ := h.head
  have hskip : skipSpace (w ++ (t ++ r)) = t ++ r := by
    rw [skipSpace_append hw, hcs, List.cons_append, skipSpace_cons hspace]
  have hshape : quote k ++ ':' :: w ++ t ++ r =
      '"' :: ((utf16 k).flatMap escapeUnit ++ '"' :: ':' :: (w ++ (t ++ r))) := by
    simp [quote]
  rw [hshape, readField, if_pos rfl, scanString_quote, Option.bind_some]
  dsimp only
  rw [skipSpace_cons (by decide)]
  dsimp only
  rw [if_pos rfl, hskip, h.read r hr]
  rfl

/-! ## Reading undoes writing -/

/-- The text of a value is read as the value, in the spelling of the text. -/
theorem reads_render (sep : Separators) (v : Json F) : v.WellFormed → ∀ n,
    (v.render fmt sep).length ≤ n → Reads (readValue fmt n) (v.render fmt sep) v.spell := by
  have hpos : ∀ {c : Char} {s : Text} {n : ℕ}, (c :: s).length ≤ n →
      ∃ m, n = m + 1 ∧ s.length ≤ m := by
    intro c s n hn
    rw [List.length_cons] at hn
    exact ⟨n - 1, by omega, by omega⟩
  have hcases : ∀ {t : Text} {w : Json F}, (∀ n, Reads (readValue fmt (n + 1)) t w) →
      ∀ n, t.length ≤ n → Reads (readValue fmt n) t w := by
    intro t w h n hn
    obtain ⟨c, s, rfl, -⟩ := (h 0).head
    obtain ⟨m, rfl, -⟩ := hpos hn
    exact h m
  induction v using induction with
  | null => exact fun _ => hcases (reads_word (w := (nullText, null)) (by simp [words]))
  | bool b =>
    refine fun _ => hcases (reads_word (w := (boolText b, bool b)) ?_)
    cases b <;> simp [words]
  | int k => exact fun _ => hcases (reads_int k)
  | float x => exact fun _ => hcases (reads_float x)
  | str s => exact fun _ => hcases (reads_string s)
  | arr l ih =>
    intro hwf n hn
    rw [render, List.cons_append] at hn ⊢
    obtain ⟨n, rfl, hn⟩ := hpos hn
    rw [itemTexts_eq] at hn ⊢
    rw [spell, spellItems_eq]
    have hall : List.Forall₂ (Reads (readValue fmt n)) (l.map (render fmt sep)) (l.map spell) := by
      rw [List.forall₂_map_left_iff, List.forall₂_map_right_iff, List.forall₂_same]
      intro v hv
      refine ih v hv (wellFormed_arr.mp hwf v hv) n ?_
      have := length_le_join (',' :: sep.itemSpace) (List.mem_map_of_mem (f := render fmt sep) hv)
      simp only [List.length_cons, List.length_append] at hn
      omega
    refine ⟨fun r _ => ?_, '[', _, rfl, by decide, by decide, by decide⟩
    rw [List.cons_append, readValue, if_neg (by decide), if_pos rfl, List.append_assoc]
    show (readItems _ ']' (_ ++ ']' :: r)).map _ = _
    rw [readItems_join (by simp) sep.isSpace_item hall]
    rfl
  | obj fields ih =>
    intro hwf n hn
    obtain ⟨hnd, hfields⟩ := wellFormed_obj.mp hwf
    rw [render, List.cons_append] at hn ⊢
    obtain ⟨n, rfl, hn⟩ := hpos hn
    rw [fieldTexts_eq] at hn ⊢
    rw [spell, spellFields_eq]
    have hall : List.Forall₂ (Reads (readField (readValue fmt n)))
        (fields.map fun f => quote f.1 ++ ':' :: sep.keySpace ++ f.2.render fmt sep)
        (fields.map fun f => (merge (utf16 f.1), f.2.spell)) := by
      rw [List.forall₂_map_left_iff, List.forall₂_map_right_iff, List.forall₂_same]
      intro f hf
      refine reads_field (ih f hf (hfields f hf).2 n ?_) sep.isSpace_key f.1
      have := length_le_join (',' :: sep.itemSpace) (List.mem_map_of_mem
        (f := fun f => quote f.1 ++ ':' :: sep.keySpace ++ f.2.render fmt sep) hf)
      simp only [List.length_cons, List.length_append] at hn this
      omega
    have hkeys : (fields.map fun f => (merge (utf16 f.1), f.2.spell)).map Prod.fst =
        fields.map Prod.fst := by
      rw [List.map_map]
      exact List.map_congr_left fun f hf => (hfields f hf).1
    refine ⟨fun r _ => ?_, '{', _, rfl, by decide, by decide, by decide⟩
    rw [List.cons_append, readValue, if_neg (by decide), if_neg (by decide), if_pos rfl,
      List.append_assoc]
    show (readItems _ '}' (_ ++ '}' :: r)).map _ = _
    rw [readItems_join (by simp) sep.isSpace_item hall, Option.map_some]
    dsimp only
    rw [dictOf_eq (by rw [hkeys]; exact hnd)]

/-- `json.loads` of what `json.dumps` writes. -/
theorem loads_render (sep : Separators) {v : Json F} (hv : v.WellFormed) :
    loads fmt (v.render fmt sep) = some v.spell := by
  have hreads : Reads (readValue fmt ((v.render fmt sep).length + 1)) (v.render fmt sep) v.spell :=
    reads_render sep v hv _ (Nat.le_succ _)
  obtain ⟨c, s, hcs, hspace, -, -⟩ := hreads.head
  have hread := hreads.read [] stops_nil
  rw [List.append_nil] at hread
  unfold loads
  have hskip : skipSpace (v.render fmt sep) = v.render fmt sep := by
    rw [hcs, skipSpace_cons hspace]
  rw [hskip, hread]
  rfl

/-- `json.dumps(json.loads(text), sort_keys=True)` of a text written with sorted keys. -/
theorem dumps_loads_dumps (sep sep' : Separators) {v : Json F} (hv : v.WellFormed) :
    (loads fmt (dumps fmt sep v)).map (dumps fmt sep') = some (dumps fmt sep' v) := by
  unfold dumps
  rw [loads_render sep (wellFormed_sortKeys v hv), Option.map_some]
  exact congrArg some (dumps_spell_sortKeys hv)

end Json
