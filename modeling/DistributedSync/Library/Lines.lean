import Mathlib.Data.List.Basic
import Mathlib.Data.List.TakeWhile

/-!
# Lines of a text

`strip` and `splitlines` of strings, with all the characters that count as whitespace or end a
line. A text written line by line falls apart into these lines (`splitlines_flatMap`).
-/

namespace Lines

/-- The characters `str.isspace` is true of. -/
def isSpace (c : Char) : Bool :=
  (0x09 ≤ c.toNat && c.toNat ≤ 0x0d) || (0x1c ≤ c.toNat && c.toNat ≤ 0x20) ||
    [0x85, 0xa0, 0x1680, 0x2028, 0x2029, 0x202f, 0x205f, 0x3000].contains c.toNat ||
    (0x2000 ≤ c.toNat && c.toNat ≤ 0x200a)

/-- `str.strip()`. -/
def strip (s : List Char) : List Char :=
  ((s.dropWhile isSpace).reverse.dropWhile isSpace).reverse

/-- The characters `str.splitlines` splits at. -/
def isLineBreak (c : Char) : Bool :=
  [0x0a, 0x0b, 0x0c, 0x0d, 0x1c, 0x1d, 0x1e, 0x85, 0x2028, 0x2029].contains c.toNat

/-- The lines of a text, `line` being the one begun, in reverse. -/
def splitFrom : List Char → List Char → List (List Char)
  | line, [] => if line = [] then [] else [line.reverse]
  | line, c :: s =>
    if c.toNat = 0x0d then
      match s with
      | [] => [line.reverse]
      | d :: s => if d.toNat = 0x0a then line.reverse :: splitFrom [] s
        else line.reverse :: splitFrom [] (d :: s)
    else if isLineBreak c then line.reverse :: splitFrom [] s
    else splitFrom (c :: line) s

/-- `str.splitlines()`. -/
def splitlines (s : List Char) : List (List Char) := splitFrom [] s

theorem strip_eq_self {s : List Char} (h : ∀ c ∈ s, isSpace c = false) : strip s = s := by
  have hdrop : ∀ l : List Char, (∀ c ∈ l, isSpace c = false) → l.dropWhile isSpace = l := by
    intro l hl
    rcases l with _ | ⟨c, l⟩
    · rfl
    · exact List.dropWhile_cons_of_neg (by simp [hl c])
  unfold strip
  rw [hdrop s h, hdrop s.reverse fun c hc => h c (List.mem_reverse.mp hc), List.reverse_reverse]

theorem strip_ne_nil {c : Char} {s : List Char} (hc : isSpace c = false) : strip (c :: s) ≠ [] := by
  unfold strip
  rw [List.dropWhile_cons_of_neg (by simp [hc]), Ne, List.reverse_eq_nil_iff,
    List.dropWhile_eq_nil_iff]
  intro h
  have := h c (by simp)
  rw [hc] at this
  cases this

theorem splitFrom_newline (line s : List Char) :
    splitFrom line ('\n' :: s) = line.reverse :: splitFrom [] s := by
  rw [splitFrom.eq_def]
  dsimp only
  rw [if_neg (by decide), if_pos (by decide)]

theorem splitFrom_char {c : Char} (hc : isLineBreak c = false) (line s : List Char) :
    splitFrom line (c :: s) = splitFrom (c :: line) s := by
  have hcr : c.toNat ≠ 0x0d := by
    intro h
    unfold isLineBreak at hc
    rw [h] at hc
    exact absurd hc (by decide)
  rw [splitFrom.eq_def]
  dsimp only
  rw [if_neg hcr, if_neg (by simp [hc])]

theorem splitFrom_append {l : List Char} (hl : ∀ c ∈ l, isLineBreak c = false)
    (line s : List Char) : splitFrom line (l ++ s) = splitFrom (l.reverse ++ line) s := by
  induction l generalizing line with
  | nil => rfl
  | cons c l ih =>
    rw [List.cons_append, splitFrom_char (hl c List.mem_cons_self),
      ih fun d hd => hl d (List.mem_cons_of_mem c hd), List.reverse_cons, List.append_assoc]
    rfl

/-- Lines written one after the other, each with a newline. -/
theorem splitlines_flatMap {ls : List (List Char)}
    (hls : ∀ l ∈ ls, ∀ c ∈ l, isLineBreak c = false) :
    splitlines (ls.flatMap fun l => l ++ ['\n']) = ls := by
  unfold splitlines
  induction ls with
  | nil => rfl
  | cons l ls ih =>
    rw [List.flatMap_cons, List.append_assoc,
      splitFrom_append (hls l List.mem_cons_self), List.append_nil]
    rw [List.singleton_append, splitFrom_newline, List.reverse_reverse,
      ih fun l' hl' => hls l' (List.mem_cons_of_mem l hl')]

end Lines
