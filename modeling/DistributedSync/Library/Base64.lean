import DistributedSync.Library.Bytes

/-!
# Base64

Three bytes are four digits of six bits, and padding fills the last four. `decode` reads as the
reference decoder does when it is not strict: it passes over bytes that are no digits, and stops at
enough padding. It reads back what `encode` writes (`decode_encode`), also with the alphabet for
URLs (`urlsafeDecode_urlsafeEncode`).
-/

namespace Base64

/-! ## Digits -/

/-- `A` to `Z`, `a` to `z`, `0` to `9`, `+` and `/`. -/
def alphabet : Bytes :=
  (List.range' 65 26 ++ List.range' 97 26 ++ List.range' 48 10 ++ [43, 47]).map UInt8.ofNat

/-- `=`. -/
def pad : UInt8 := 61

def digit (n : ℕ) : UInt8 := alphabet.getD n pad

/-- The value of a digit; `none` for another byte. -/
def value? (c : UInt8) : Option ℕ := alphabet.idxOf? c

theorem digit_spec : ∀ n < 64, value? (digit n) = some n ∧ digit n ≠ pad := by decide

theorem digit_mem (n : ℕ) : digit n ∈ pad :: alphabet := by
  unfold digit
  rw [List.getD_eq_getElem?_getD]
  rcases h : alphabet[n]? with _ | c
  · exact List.mem_cons_self
  · exact List.mem_cons_of_mem _ (List.mem_of_getElem? h)

/-! ## Encoding and decoding -/

/-- `binascii.b2a_base64`, without a newline. -/
def encode : Bytes → Bytes
  | [] => []
  | [a] => [digit (a.toNat / 4), digit (a.toNat % 4 * 16), pad, pad]
  | [a, b] =>
    [digit (a.toNat / 4), digit (a.toNat % 4 * 16 + b.toNat / 16), digit (b.toNat % 16 * 4), pad]
  | a :: b :: c :: s =>
    digit (a.toNat / 4) :: digit (a.toNat % 4 * 16 + b.toNat / 16) ::
      digit (b.toNat % 16 * 4 + c.toNat / 64) :: digit (c.toNat % 64) :: encode s

/-- The loop of `binascii.a2b_base64`: how many digits of a group of four are read, what is left of
the last one, and the padding that follows. -/
def decodeFrom (quadPos leftchar pads : ℕ) : Bytes → Option Bytes
  | [] => if quadPos = 0 then some [] else none
  | c :: s =>
    if c = pad then
      if 2 ≤ quadPos then
        if 4 ≤ quadPos + (pads + 1) then some [] else decodeFrom quadPos leftchar (pads + 1) s
      else decodeFrom quadPos leftchar pads s
    else
      match value? c with
      | none => decodeFrom quadPos leftchar pads s
      | some d =>
        if quadPos = 0 then decodeFrom 1 d 0 s
        else if quadPos = 1 then
          (decodeFrom 2 (d % 16) 0 s).map (UInt8.ofNat (leftchar * 4 + d / 16) :: ·)
        else if quadPos = 2 then
          (decodeFrom 3 (d % 4) 0 s).map (UInt8.ofNat (leftchar * 16 + d / 4) :: ·)
        else (decodeFrom 0 0 0 s).map (UInt8.ofNat (leftchar * 64 + d) :: ·)

/-- `binascii.a2b_base64`, not strict; `none` when it raises. -/
def decode (s : Bytes) : Option Bytes := decodeFrom 0 0 0 s

theorem mem_encode (s : Bytes) : ∀ c ∈ encode s, c ∈ pad :: alphabet := by
  have hpad : ∀ t : Bytes, (∀ c ∈ t, c ∈ pad :: alphabet) → ∀ c ∈ pad :: t, c ∈ pad :: alphabet :=
    fun t ht => List.forall_mem_cons.mpr ⟨List.mem_cons_self, ht⟩
  have hdigit : ∀ (n : ℕ) (t : Bytes), (∀ c ∈ t, c ∈ pad :: alphabet) →
      ∀ c ∈ digit n :: t, c ∈ pad :: alphabet :=
    fun n t ht => List.forall_mem_cons.mpr ⟨digit_mem n, ht⟩
  have hnil : ∀ c ∈ ([] : Bytes), c ∈ pad :: alphabet := List.forall_mem_nil _
  induction s using encode.induct with
  | case1 => exact hnil
  | case2 a => exact hdigit _ _ (hdigit _ _ (hpad _ (hpad _ hnil)))
  | case3 a b => exact hdigit _ _ (hdigit _ _ (hdigit _ _ (hpad _ hnil)))
  | case4 a b c s ih => exact hdigit _ _ (hdigit _ _ (hdigit _ _ (hdigit _ _ ih)))

section Digits

variable {d : ℕ} (hd : d < 64) (leftchar pads : ℕ) (s : Bytes)

include hd

/-- The first digit of a group, then the second, the third and the fourth. -/
theorem decodeFrom_first : decodeFrom 0 leftchar pads (digit d :: s) = decodeFrom 1 d 0 s := by
  obtain ⟨hvalue, hpad⟩ := digit_spec d hd
  simp [decodeFrom, hvalue, hpad]

theorem decodeFrom_second : decodeFrom 1 leftchar pads (digit d :: s) =
    (decodeFrom 2 (d % 16) 0 s).map (UInt8.ofNat (leftchar * 4 + d / 16) :: ·) := by
  obtain ⟨hvalue, hpad⟩ := digit_spec d hd
  simp [decodeFrom, hvalue, hpad]

theorem decodeFrom_third : decodeFrom 2 leftchar pads (digit d :: s) =
    (decodeFrom 3 (d % 4) 0 s).map (UInt8.ofNat (leftchar * 16 + d / 4) :: ·) := by
  obtain ⟨hvalue, hpad⟩ := digit_spec d hd
  simp [decodeFrom, hvalue, hpad]

theorem decodeFrom_fourth : decodeFrom 3 leftchar pads (digit d :: s) =
    (decodeFrom 0 0 0 s).map (UInt8.ofNat (leftchar * 64 + d) :: ·) := by
  obtain ⟨hvalue, hpad⟩ := digit_spec d hd
  simp [decodeFrom, hvalue, hpad]

end Digits

theorem ofNat_eq {n : ℕ} {a : UInt8} (h : n = a.toNat) : UInt8.ofNat n = a := by
  rw [h, UInt8.ofNat_toNat]

theorem decode_encode (s : Bytes) : decode (encode s) = some s := by
  unfold decode
  induction s using encode.induct with
  | case1 => rfl
  | case2 a =>
    have ha := a.toNat_lt
    have hpads : ∀ leftchar, decodeFrom 2 leftchar 0 [pad, pad] = some [] := fun _ => rfl
    rw [encode, decodeFrom_first (by omega), decodeFrom_second (by omega), hpads, Option.map_some,
      ofNat_eq (a := a) (by omega)]
  | case3 a b =>
    have ha := a.toNat_lt
    have hb := b.toNat_lt
    have hpads : ∀ leftchar, decodeFrom 3 leftchar 0 [pad] = some [] := fun _ => rfl
    rw [encode, decodeFrom_first (by omega), decodeFrom_second (by omega),
      decodeFrom_third (by omega), hpads, Option.map_some, Option.map_some,
      ofNat_eq (a := a) (by omega), ofNat_eq (a := b) (by omega)]
  | case4 a b c s ih =>
    have ha := a.toNat_lt
    have hb := b.toNat_lt
    have hc := c.toNat_lt
    rw [encode, decodeFrom_first (by omega), decodeFrom_second (by omega),
      decodeFrom_third (by omega), decodeFrom_fourth (by omega), ih, Option.map_some,
      Option.map_some, Option.map_some, ofNat_eq (a := a) (by omega), ofNat_eq (a := b) (by omega),
      ofNat_eq (a := c) (by omega)]

/-! ## The alphabet for URLs -/

/-- `+` and `/` as `-` and `_`. -/
def toUrlsafe (c : UInt8) : UInt8 := if c = 43 then 45 else if c = 47 then 95 else c

/-- `-` and `_` as `+` and `/`. -/
def ofUrlsafe (c : UInt8) : UInt8 := if c = 45 then 43 else if c = 95 then 47 else c

/-- `base64.urlsafe_b64encode`. -/
def urlsafeEncode (s : Bytes) : Bytes := (encode s).map toUrlsafe

/-- `base64.urlsafe_b64decode`; `none` when it raises. -/
def urlsafeDecode (s : Bytes) : Option Bytes := decode (s.map ofUrlsafe)

theorem urlsafe_spec : ∀ c ∈ pad :: alphabet,
    ofUrlsafe (toUrlsafe c) = c ∧ Bytes.IsAscii (toUrlsafe c) := by decide +kernel

theorem urlsafeDecode_urlsafeEncode (s : Bytes) : urlsafeDecode (urlsafeEncode s) = some s := by
  have hback : ((encode s).map toUrlsafe).map ofUrlsafe = encode s := by
    rw [List.map_map]
    refine (List.map_congr_left fun c hc => ?_).trans (List.map_id _)
    exact (urlsafe_spec c (mem_encode s c hc)).1
  rw [urlsafeDecode, urlsafeEncode, hback, decode_encode]

theorem isAscii_urlsafeEncode (s : Bytes) : ∀ c ∈ urlsafeEncode s, Bytes.IsAscii c := by
  unfold urlsafeEncode
  exact List.forall_mem_map.mpr fun c hc => (urlsafe_spec c (mem_encode s c hc)).2

end Base64
