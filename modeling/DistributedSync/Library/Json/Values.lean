import DistributedSync.Library.Json.Numbers
import Mathlib.Data.List.Lex
import Mathlib.Data.List.Sort

/-!
# JSON values and their texts

`render` is the writer without, `dumps` the one with sorted keys. Both write ASCII only; the
separators may carry whitespace. A value is *well formed* when the keys of each of its objects are
plain and differ, which is what a text can spell.
-/

/-- JSON values over a type of floats. The fields of an object are in the order of insertion. -/
inductive Json (F : Type) where
  | null
  | bool (b : Bool)
  | int (n : ℤ)
  | float (x : F)
  | str (s : Json.Str)
  | arr (l : List (Json F))
  | obj (fields : List (Json.Str × Json F))

namespace Json

variable {F : Type}

/-! ## Induction -/

/-- Induction over values, through the items of an array and the fields of an object. -/
theorem induction {P : Json F → Prop} (null : P .null) (bool : ∀ b, P (.bool b))
    (int : ∀ n, P (.int n)) (float : ∀ x, P (.float x)) (str : ∀ s, P (.str s))
    (arr : ∀ l, (∀ v ∈ l, P v) → P (.arr l))
    (obj : ∀ l, (∀ f ∈ l, P f.2) → P (.obj l)) (v : Json F) : P v := by
  refine @Json.rec F P (fun l => ∀ v ∈ l, P v) (fun l => ∀ f ∈ l, P f.2) (fun f => P f.2)
    null bool int float str arr obj ?_ ?_ ?_ ?_ ?_ v
  · intro v hv
    cases hv
  · intro v l hv hl w hw
    rcases List.mem_cons.mp hw with rfl | hw
    · exact hv
    · exact hl w hw
  · intro f hf
    cases hf
  · intro f l hf hl g hg
    rcases List.mem_cons.mp hg with rfl | hg
    · exact hf
    · exact hl g hg
  · intro k v hv
    exact hv

/-! ## Writing -/

/-- JSON whitespace. -/
def isSpace (c : Char) : Bool := c = ' ' || c = '\t' || c = '\n' || c = '\r'

/-- The separators of items and of keys: a comma and a colon, with whitespace after them. -/
structure Separators where
  itemSpace : Text
  keySpace : Text
  isSpace_item : ∀ c ∈ itemSpace, isSpace c
  isSpace_key : ∀ c ∈ keySpace, isSpace c

/-- `(", ", ": ")`, the default. -/
def Separators.default : Separators := ⟨[' '], [' '], by decide, by decide⟩

/-- `(",", ":")`. -/
def Separators.compact : Separators := ⟨[], [], by simp, by simp⟩

/-- Texts with a separator between them. -/
def join (sep : Text) : List Text → Text
  | [] => []
  | [t] => t
  | t :: ts => t ++ sep ++ join sep ts

theorem join_cons_cons (sep t t' : Text) (ts : List Text) :
    join sep (t :: t' :: ts) = t ++ sep ++ join sep (t' :: ts) := rfl

/-- The words for the constants. -/
def nullText : Text := ['n', 'u', 'l', 'l']

def boolText (b : Bool) : Text :=
  if b then ['t', 'r', 'u', 'e'] else ['f', 'a', 'l', 's', 'e']

mutual

/-- `json.dumps` without `sort_keys`. -/
def render (fmt : FloatFormat F) (sep : Separators) : Json F → Text
  | .null => nullText
  | .bool b => boolText b
  | .int n => intText n
  | .float x => fmt.repr x
  | .str s => quote s
  | .arr l => '[' :: join (',' :: sep.itemSpace) (itemTexts fmt sep l) ++ [']']
  | .obj fields => '{' :: join (',' :: sep.itemSpace) (fieldTexts fmt sep fields) ++ ['}']

def itemTexts (fmt : FloatFormat F) (sep : Separators) : List (Json F) → List Text
  | [] => []
  | v :: l => v.render fmt sep :: itemTexts fmt sep l

def fieldTexts (fmt : FloatFormat F) (sep : Separators) : List (Str × Json F) → List Text
  | [] => []
  | (k, v) :: fields =>
    (quote k ++ ':' :: sep.keySpace ++ v.render fmt sep) :: fieldTexts fmt sep fields

end

/-! ## Sorted keys -/

/-- Fields by ascending keys. -/
def sortFields (fields : List (Str × Json F)) : List (Str × Json F) :=
  fields.insertionSort fun p q => p.1 ≤ q.1

mutual

/-- The value with the keys of all its objects in order. -/
def sortKeys : Json F → Json F
  | .arr l => .arr (sortItems l)
  | .obj fields => .obj (sortFields (sortValues fields))
  | v => v

def sortItems : List (Json F) → List (Json F)
  | [] => []
  | v :: l => v.sortKeys :: sortItems l

def sortValues : List (Str × Json F) → List (Str × Json F)
  | [] => []
  | (k, v) :: fields => (k, v.sortKeys) :: sortValues fields

end

/-- `json.dumps(v, sort_keys=True)`. -/
def dumps (fmt : FloatFormat F) (sep : Separators) (v : Json F) : Text := v.sortKeys.render fmt sep

/-! ## What a reader gets back -/

mutual

/-- The value with its strings as a text spells them. -/
def spell : Json F → Json F
  | .str s => .str (merge (utf16 s))
  | .arr l => .arr (spellItems l)
  | .obj fields => .obj (spellFields fields)
  | v => v

def spellItems : List (Json F) → List (Json F)
  | [] => []
  | v :: l => v.spell :: spellItems l

def spellFields : List (Str × Json F) → List (Str × Json F)
  | [] => []
  | (k, v) :: fields => (merge (utf16 k), v.spell) :: spellFields fields

end

mutual

/-- The keys of every object are plain and differ. -/
def WellFormed : Json F → Prop
  | .arr l => WellFormedItems l
  | .obj fields => (fields.map Prod.fst).Nodup ∧ WellFormedFields fields
  | _ => True

def WellFormedItems : List (Json F) → Prop
  | [] => True
  | v :: l => v.WellFormed ∧ WellFormedItems l

def WellFormedFields : List (Str × Json F) → Prop
  | [] => True
  | (k, v) :: fields => Plain k ∧ v.WellFormed ∧ WellFormedFields fields

end

/-! ## Item by item -/

variable {fmt : FloatFormat F} {sep : Separators} {v : Json F} {l : List (Json F)}
  {fields : List (Str × Json F)}

theorem itemTexts_eq (l : List (Json F)) : itemTexts fmt sep l = l.map (render fmt sep) := by
  induction l with
  | nil => rfl
  | cons v l ih => rw [itemTexts, ih, List.map_cons]

theorem fieldTexts_eq (fields : List (Str × Json F)) :
    fieldTexts fmt sep fields =
      fields.map fun f => quote f.1 ++ ':' :: sep.keySpace ++ f.2.render fmt sep := by
  induction fields with
  | nil => rfl
  | cons f fields ih => rw [fieldTexts, ih, List.map_cons]

theorem sortItems_eq (l : List (Json F)) : sortItems l = l.map sortKeys := by
  induction l with
  | nil => rfl
  | cons v l ih => rw [sortItems, ih, List.map_cons]

theorem sortValues_eq (fields : List (Str × Json F)) :
    sortValues fields = fields.map fun f => (f.1, f.2.sortKeys) := by
  induction fields with
  | nil => rfl
  | cons f fields ih => rw [sortValues, ih, List.map_cons]

theorem spellItems_eq (l : List (Json F)) : spellItems l = l.map spell := by
  induction l with
  | nil => rfl
  | cons v l ih => rw [spellItems, ih, List.map_cons]

theorem spellFields_eq (fields : List (Str × Json F)) :
    spellFields fields = fields.map fun f => (merge (utf16 f.1), f.2.spell) := by
  induction fields with
  | nil => rfl
  | cons f fields ih => rw [spellFields, ih, List.map_cons]

theorem wellFormed_arr : (arr l).WellFormed ↔ ∀ v ∈ l, v.WellFormed := by
  rw [WellFormed]
  induction l with
  | nil => simp [WellFormedItems]
  | cons v l ih => rw [WellFormedItems, ih, List.forall_mem_cons]

theorem wellFormed_obj : (obj fields).WellFormed ↔
    (fields.map Prod.fst).Nodup ∧ ∀ f ∈ fields, Plain f.1 ∧ f.2.WellFormed := by
  have key : WellFormedFields fields ↔ ∀ f ∈ fields, Plain f.1 ∧ f.2.WellFormed := by
    induction fields with
    | nil => simp [WellFormedFields]
    | cons f fields ih => rw [WellFormedFields, ih, List.forall_mem_cons, and_assoc]
  rw [WellFormed, key]

/-! ## Sorting and spelling -/

theorem mem_sortFields {f : Str × Json F} : f ∈ sortFields fields ↔ f ∈ fields :=
  List.mem_insertionSort _

theorem sortFields_perm (fields : List (Str × Json F)) : (sortFields fields).Perm fields :=
  List.perm_insertionSort _ _

theorem sortFields_sortFields (fields : List (Str × Json F)) :
    sortFields (sortFields fields) = sortFields fields :=
  (List.pairwise_insertionSort (fun p q : Str × Json F => p.1 ≤ q.1) fields).insertionSort_eq

/-- A map that keeps the keys commutes with the sorting. -/
theorem map_sortFields {g : Str × Json F → Str × Json F} (hg : ∀ f ∈ fields, (g f).1 = f.1) :
    (sortFields fields).map g = sortFields (fields.map g) := by
  refine List.map_insertionSort _ _ g fields fun a ha b hb => ?_
  rw [hg a ha, hg b hb]

theorem wellFormed_sortKeys (v : Json F) : v.WellFormed → v.sortKeys.WellFormed := by
  induction v using induction with
  | null | bool b | int n | float x | str s => exact id
  | arr l ih =>
    intro h
    rw [sortKeys, sortItems_eq, wellFormed_arr]
    intro w hw
    obtain ⟨v, hv, rfl⟩ := List.mem_map.mp hw
    exact ih v hv (wellFormed_arr.mp h v hv)
  | obj fields ih =>
    intro h
    obtain ⟨hnd, hall⟩ := wellFormed_obj.mp h
    rw [sortKeys, wellFormed_obj]
    constructor
    · rw [((sortFields_perm _).map Prod.fst).nodup_iff, sortValues_eq, List.map_map]
      exact hnd
    · intro f hf
      rw [mem_sortFields, sortValues_eq] at hf
      obtain ⟨g, hg, rfl⟩ := List.mem_map.mp hf
      exact ⟨(hall g hg).1, ih g hg (hall g hg).2⟩

theorem sortKeys_sortKeys (v : Json F) : v.sortKeys.sortKeys = v.sortKeys := by
  induction v using induction with
  | null | bool b | int n | float x | str s => rfl
  | arr l ih =>
    rw [sortKeys, sortKeys, sortItems_eq, sortItems_eq, List.map_map]
    exact congrArg arr (List.map_congr_left ih)
  | obj fields ih =>
    rw [sortKeys, sortKeys, sortValues_eq, sortValues_eq,
      map_sortFields (g := fun f => (f.1, f.2.sortKeys)) fun _ _ => rfl, sortFields_sortFields,
      List.map_map]
    refine congrArg (fun l => obj (sortFields l)) (List.map_congr_left fun f hf => ?_)
    exact congrArg (Prod.mk f.1) (ih f hf)

/-- Plain keys stay where the sorting puts them. -/
theorem sortKeys_spell (v : Json F) : v.WellFormed → v.spell.sortKeys = v.sortKeys.spell := by
  induction v using induction with
  | null | bool b | int n | float x | str s => exact fun _ => rfl
  | arr l ih =>
    intro h
    rw [spell, sortKeys, sortKeys, spell, spellItems_eq, sortItems_eq, sortItems_eq, spellItems_eq,
      List.map_map, List.map_map]
    exact congrArg arr (List.map_congr_left fun v hv => ih v hv (wellFormed_arr.mp h v hv))
  | obj fields ih =>
    intro h
    obtain ⟨-, hall⟩ := wellFormed_obj.mp h
    rw [spell, sortKeys, sortKeys, spell, spellFields_eq, sortValues_eq, sortValues_eq,
      spellFields_eq, map_sortFields ?_, List.map_map, List.map_map]
    · refine congrArg (fun l => obj (sortFields l)) (List.map_congr_left fun f hf => ?_)
      exact congrArg (Prod.mk _) (ih f hf (hall f hf).2)
    · intro f hf
      obtain ⟨g, hg, rfl⟩ := List.mem_map.mp hf
      exact (hall g hg).1

theorem render_spell (v : Json F) : v.spell.render fmt sep = v.render fmt sep := by
  induction v using induction with
  | null | bool b | int n | float x => rfl
  | str s => exact quote_merge s
  | arr l ih =>
    rw [spell, render, render, itemTexts_eq, itemTexts_eq, spellItems_eq, List.map_map]
    rw [show l.map (render fmt sep ∘ spell) = l.map (render fmt sep) from List.map_congr_left ih]
  | obj fields ih =>
    rw [spell, render, render, fieldTexts_eq, fieldTexts_eq, spellFields_eq, List.map_map]
    refine congrArg (fun ts => '{' :: join _ ts ++ ['}']) (List.map_congr_left fun f hf => ?_)
    show quote (merge (utf16 f.1)) ++ _ ++ f.2.spell.render fmt sep = _
    rw [quote_merge, ih f hf]

/-- What is read back from the text with sorted keys has the same text with sorted keys. -/
theorem dumps_spell_sortKeys (hv : v.WellFormed) :
    dumps fmt sep v.sortKeys.spell = dumps fmt sep v := by
  unfold dumps
  rw [sortKeys_spell _ (wellFormed_sortKeys v hv), render_spell, sortKeys_sortKeys]

/-! ## The characters of a text -/

/-- Separators of spaces. -/
def Separators.Spaces (sep : Separators) : Prop :=
  (∀ c ∈ sep.itemSpace, c = ' ') ∧ ∀ c ∈ sep.keySpace, c = ' '

theorem printable_join {sep : Text} {ts : List Text} (hsep : ∀ c ∈ sep, Printable c)
    (hts : ∀ t ∈ ts, ∀ c ∈ t, Printable c) : ∀ c ∈ join sep ts, Printable c := by
  induction ts with
  | nil => simp [join]
  | cons t ts ih =>
    obtain ⟨ht, hts⟩ := List.forall_mem_cons.mp hts
    rcases ts with _ | ⟨t', ts⟩
    · exact ht
    · rw [join_cons_cons]
      exact List.forall_mem_append.mpr ⟨List.forall_mem_append.mpr ⟨ht, hsep⟩, ih hts⟩

theorem NumberChar.printable {c : Char} (h : NumberChar c) : Printable c := by
  rcases h with h | h
  · simp only [Char.isDigit, Bool.and_eq_true, decide_eq_true_eq] at h
    have h1 : 48 ≤ c.toNat := h.1
    have h2 : c.toNat ≤ 57 := h.2
    unfold Printable
    omega
  · have key : ∀ c ∈ ['-', '+', '.', 'e', 'E'], Printable c := by decide
    exact key c h

theorem printable_render (hsep : sep.Spaces) (v : Json F) :
    ∀ c ∈ v.render fmt sep, Printable c := by
  have hspaces : ∀ {d : Char} {w : Text}, Printable d → (∀ c ∈ w, c = ' ') →
      ∀ c ∈ d :: w, Printable c := by
    intro d w hd hw
    refine List.forall_mem_cons.mpr ⟨hd, fun c hc => ?_⟩
    rw [hw c hc]
    decide
  have hends : ∀ {a b : Char} {t : Text}, Printable a → Printable b → (∀ c ∈ t, Printable c) →
      ∀ c ∈ a :: t ++ [b], Printable c := by
    intro a b t ha hb ht
    refine List.forall_mem_cons.mpr ⟨ha, List.forall_mem_append.mpr ⟨ht, ?_⟩⟩
    intro c hc
    rw [List.mem_singleton.mp hc]
    exact hb
  induction v using induction with
  | null => exact (by decide : ∀ c ∈ nullText, Printable c)
  | bool b =>
    have key : ∀ b, ∀ c ∈ boolText b, Printable c := by decide
    exact key b
  | int n => exact fun c hc => (numberChar_intText n c hc).printable
  | float x =>
    rcases (fmt.isFloatText_repr x).chars with h | h
    · have key : ∀ t ∈ floatConstants, ∀ c ∈ t, Printable c := by decide
      exact key _ h
    · exact fun c hc => (h c hc).printable
  | str s => exact printable_quote s
  | arr l ih =>
    rw [render, itemTexts_eq]
    refine hends (by decide) (by decide) (printable_join (hspaces (by decide) hsep.1) ?_)
    intro t ht
    obtain ⟨v, hv, rfl⟩ := List.mem_map.mp ht
    exact ih v hv
  | obj fields ih =>
    rw [render, fieldTexts_eq]
    refine hends (by decide) (by decide) (printable_join (hspaces (by decide) hsep.1) ?_)
    intro t ht
    obtain ⟨f, hf, rfl⟩ := List.mem_map.mp ht
    exact List.forall_mem_append.mpr ⟨List.forall_mem_append.mpr
      ⟨printable_quote f.1, hspaces (by decide) hsep.2⟩, ih f hf⟩

/-- A text that starts with no bracket and no quote is a word or a number, without braces. -/
theorem not_mem_brace_of_scalar {c : Char} {t : Text} (v : Json F)
    (h : v.render fmt sep = c :: t) (hc : c ∉ ['"', '[', '{']) : '{' ∉ c :: t := by
  have hnumber : ∀ {s : Text}, (∀ d ∈ s, NumberChar d) → '{' ∉ s := by
    intro s hs hmem
    rcases hs _ hmem with h | h
    · exact absurd h (by decide)
    · exact absurd h (by decide)
  cases v with
  | null => exact h ▸ (by decide : '{' ∉ nullText)
  | bool b =>
    have key : ∀ b, '{' ∉ boolText b := by decide
    exact h ▸ key b
  | int n => exact h ▸ hnumber (numberChar_intText n)
  | float x =>
    rw [← h]
    rcases (fmt.isFloatText_repr x).chars with hx | hx
    · have key : ∀ t ∈ floatConstants, '{' ∉ t := by decide
      exact key _ hx
    · exact hnumber hx
  | str s =>
    cases h
    exact absurd (by decide) hc
  | arr l =>
    rw [render] at h
    cases h
    exact absurd (by decide) hc
  | obj fields =>
    rw [render] at h
    cases h
    exact absurd (by decide) hc

end Json
