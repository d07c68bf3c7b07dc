import Mathlib.Algebra.Order.Ring.Rat
import Mathlib.Tactic.Ring

/-!
# Dates and times

The naive `datetime` of Python, as far as a message needs it: its fields, the text that `isoformat`
writes, what `fromisoformat` reads from such a text, and the point in time. A text gives its
`datetime` back (`fromisoformat_isoformat`).
-/

namespace DistributedSync

/-! ## The calendar -/

def isLeap (year : ℕ) : Bool := year % 4 = 0 && (year % 100 ≠ 0 || year % 400 = 0)

/-- The number of days before the month in a year. -/
def daysBeforeMonth (leap : Bool) (month : ℕ) : ℕ :=
  [0, 31, 59, 90, 120, 151, 181, 212, 243, 273, 304, 334, 365].getD (month - 1) 0 +
    if 2 < month ∧ leap then 1 else 0

def daysInMonth (leap : Bool) (month : ℕ) : ℕ :=
  daysBeforeMonth leap (month + 1) - daysBeforeMonth leap month

/-- The number of days before January 1st of the year. -/
def daysBeforeYear (year : ℕ) : ℕ :=
  (year - 1) * 365 + (year - 1) / 4 - (year - 1) / 100 + (year - 1) / 400

/-- A naive `datetime`. -/
structure DateTime where
  year : ℕ
  month : ℕ
  day : ℕ
  hour : ℕ
  minute : ℕ
  second : ℕ
  microsecond : ℕ
  year_mem : 1 ≤ year ∧ year ≤ 9999
  month_mem : 1 ≤ month ∧ month ≤ 12
  day_mem : 1 ≤ day ∧ day ≤ daysInMonth (isLeap year) month
  hour_lt : hour < 24
  minute_lt : minute < 60
  second_lt : second < 60
  microsecond_lt : microsecond < 1000000
  deriving DecidableEq

namespace DateTime

/-- `datetime(…)`; `none` for a `ValueError`. -/
def ofFields? (year month day hour minute second microsecond : ℕ) : Option DateTime :=
  if h : (1 ≤ year ∧ year ≤ 9999) ∧ (1 ≤ month ∧ month ≤ 12) ∧
      (1 ≤ day ∧ day ≤ daysInMonth (isLeap year) month) ∧ hour < 24 ∧ minute < 60 ∧ second < 60 ∧
      microsecond < 1000000 then
    some ⟨year, month, day, hour, minute, second, microsecond, h.1, h.2.1, h.2.2.1, h.2.2.2.1,
      h.2.2.2.2.1, h.2.2.2.2.2.1, h.2.2.2.2.2.2⟩
  else none

variable (d : DateTime)

theorem ofFields?_eq : ofFields? d.year d.month d.day d.hour d.minute d.second d.microsecond =
    some d :=
  dif_pos ⟨d.year_mem, d.month_mem, d.day_mem, d.hour_lt, d.minute_lt, d.second_lt,
    d.microsecond_lt⟩

/-! ## The text -/

/-- A number in a field of the given width. -/
def padded : ℕ → ℕ → List Char
  | 0, _ => []
  | w + 1, n => (n / 10 ^ w).digitChar :: padded w (n % 10 ^ w)

/-- `isoformat()`. -/
def isoformat : String :=
  String.ofList (padded 4 d.year ++ '-' :: padded 2 d.month ++ '-' :: padded 2 d.day ++
    'T' :: padded 2 d.hour ++ ':' :: padded 2 d.minute ++ ':' :: padded 2 d.second ++
      if d.microsecond = 0 then [] else '.' :: padded 6 d.microsecond)

/-- Read a field of the given width, behind the digits that make up `n`. -/
def readField : ℕ → ℕ → List Char → Option (ℕ × List Char)
  | 0, n, s => some (n, s)
  | w + 1, n, c :: s => if c.isDigit then readField w (10 * n + (c.toNat - 48)) s else none
  | _ + 1, _, [] => none

/-- Read a separator. -/
def skip (sep : Char) : List Char → Option (List Char)
  | c :: s => if c = sep then some s else none
  | [] => none

/-- The microseconds, up to the end of the text. -/
def readFraction : List Char → Option ℕ
  | [] => some 0
  | s => do
    let s ← skip '.' s
    let (n, s) ← readField 6 0 s
    if s.isEmpty then some n else none

/-- `datetime.fromisoformat`, for the forms of text that `isoformat` writes. -/
def fromisoformat (s : String) : Option DateTime := do
  let (year, s) ← readField 4 0 s.toList
  let (month, s) ← (skip '-' s).bind (readField 2 0)
  let (day, s) ← (skip '-' s).bind (readField 2 0)
  let (hour, s) ← (skip 'T' s).bind (readField 2 0)
  let (minute, s) ← (skip ':' s).bind (readField 2 0)
  let (second, s) ← (skip ':' s).bind (readField 2 0)
  let microsecond ← readFraction s
  ofFields? year month day hour minute second microsecond

theorem digit_spec : ∀ n < 10, n.digitChar.isDigit = true ∧ n.digitChar.toNat - 48 = n := by decide

theorem readField_padded {w m n : ℕ} (hn : n < 10 ^ w) (s : List Char) :
    readField w m (padded w n ++ s) = some (m * 10 ^ w + n, s) := by
  induction w generalizing m n with
  | zero =>
    obtain rfl : n = 0 := by omega
    simp [readField, padded]
  | succ w ih =>
    have hdigit : n / 10 ^ w < 10 := Nat.div_lt_of_lt_mul (by rwa [pow_succ] at hn)
    obtain ⟨hd, hval⟩ := digit_spec _ hdigit
    rw [padded, List.cons_append, readField, if_pos hd, hval,
      ih (Nat.mod_lt n (Nat.pow_pos (by omega)))]
    have hsum : (10 * m + n / 10 ^ w) * 10 ^ w + n % 10 ^ w = m * 10 ^ (w + 1) + n := by
      have := Nat.div_add_mod n (10 ^ w)
      rw [pow_succ, Nat.add_mul]
      calc 10 * m * 10 ^ w + n / 10 ^ w * 10 ^ w + n % 10 ^ w
          = 10 * m * 10 ^ w + (10 ^ w * (n / 10 ^ w) + n % 10 ^ w) := by ring
        _ = m * (10 ^ w * 10) + n := by rw [this]; ring
    rw [hsum]

theorem daysInMonth_le : ∀ leap, ∀ month < 13, daysInMonth leap month ≤ 31 := by decide

/-- The text gives the `datetime` back. -/
theorem fromisoformat_isoformat : fromisoformat d.isoformat = some d := by
  have hyear := d.year_mem.2
  have hmonth := d.month_mem.2
  have hday := d.day_mem.2.trans (daysInMonth_le _ _ (Nat.lt_succ_of_le hmonth))
  have hhour := d.hour_lt
  have hminute := d.minute_lt
  have hsecond := d.second_lt
  have hfraction : readFraction (if d.microsecond = 0 then [] else '.' :: padded 6 d.microsecond) =
      some d.microsecond := by
    split
    · next h => rw [h, readFraction]
    · have hread := readField_padded (m := 0) (show d.microsecond < 10 ^ 6 from d.microsecond_lt) []
      rw [List.append_nil, Nat.zero_mul, Nat.zero_add] at hread
      simp [readFraction, skip, hread]
  unfold fromisoformat isoformat
  rw [String.toList_ofList]
  simp only [List.append_assoc, List.cons_append]
  rw [readField_padded (by omega)]
  simp only [Option.bind_eq_bind, Option.bind_some, skip, if_true]
  repeat rw [readField_padded (by omega)]; simp only [Option.bind_some, if_true]
  simp only [Nat.zero_mul, Nat.zero_add, hfraction, Option.bind_some]
  exact d.ofFields?_eq

/-! ## The point in time -/

/-- `toordinal()`: the number of the day, from January 1st of year 1 on. -/
def toordinal : ℕ := daysBeforeYear d.year + daysBeforeMonth (isLeap d.year) d.month + d.day

/-- The microseconds since the day before January 1st of year 1. -/
def microseconds : ℕ :=
  (((d.toordinal * 24 + d.hour) * 60 + d.minute) * 60 + d.second) * 1000000 + d.microsecond

/-- The point in time, in seconds. -/
def seconds : ℚ := d.microseconds / 1000000

end DateTime

end DistributedSync
