import Mathlib.Data.List.Basic

/-!
# Bytes

The UTF-8 encoding of a text, and the exclusive or with a key that repeats. Decoding undoes encoding
(`ofUtf8?_utf8`) and is undone by it (`utf8_of_ofUtf8?`), and the exclusive or undoes itself
(`xorCycle_xorCycle`).
-/

abbrev Bytes := List UInt8

namespace Bytes

/-! ## UTF-8 -/

def utf8 (s : String) : Bytes := s.toUTF8.data.toList

/-- The text of the bytes; `none` when they are not UTF-8. -/
def ofUtf8? (b : Bytes) : Option String := String.fromUTF8? b.toByteArray

theorem toByteArray_utf8 (s : String) : (utf8 s).toByteArray = s.toByteArray := by
  refine ByteArray.ext (Array.toList_inj.mp ?_)
  rw [List.toList_data_toByteArray]
  rfl

theorem ofUtf8?_utf8 (s : String) : ofUtf8? (utf8 s) = some s := by
  rw [ofUtf8?, toByteArray_utf8, String.fromUTF8?, dif_pos s.isValidUTF8]
  rfl

theorem utf8_of_ofUtf8? {b : Bytes} {s : String} (h : ofUtf8? b = some s) : utf8 s = b := by
  unfold ofUtf8? String.fromUTF8? at h
  split at h
  · rw [← Option.some.inj h]
    exact List.toList_data_toByteArray
  · cases h

/-- A byte that is a character. -/
def IsAscii (b : UInt8) : Prop := b.toNat < 128

instance (b : UInt8) : Decidable (IsAscii b) := inferInstanceAs (Decidable (_ < _))

theorem utf8EncodeChar_of_ascii {x : UInt8} (hx : IsAscii x) :
    String.utf8EncodeChar (Char.ofNat x.toNat) = [x] := by
  unfold IsAscii at hx
  have hval : (Char.ofNat x.toNat).val.toNat = x.toNat := by
    rw [Char.ofNat, dif_pos (Or.inl (by omega))]
    rfl
  have hsize : (Char.ofNat x.toNat).utf8Size = 1 := by
    rw [Char.utf8Size_eq_one_iff, UInt32.le_iff_toNat_le, hval]
    exact Nat.le_of_lt_succ hx
  have hbyte : (Char.ofNat x.toNat).val.toUInt8 = x := by
    rw [← UInt8.toNat_inj, UInt32.toNat_toUInt8, hval]
    omega
  rw [String.utf8EncodeChar_eq_singleton hsize, hbyte]

theorem utf8Encode_of_ascii {b : Bytes} (h : ∀ x ∈ b, IsAscii x) :
    (b.map fun x => Char.ofNat x.toNat).utf8Encode = b.toByteArray := by
  rw [List.utf8Encode, List.flatMap_map,
    List.flatMap_congr fun x hx => utf8EncodeChar_of_ascii (h x hx), List.flatMap_singleton']

theorem exists_ofUtf8? {b : Bytes} (h : ∀ x ∈ b, IsAscii x) : ∃ s, ofUtf8? b = some s := by
  have hvalid : b.toByteArray.IsValidUTF8 := by
    rw [← utf8Encode_of_ascii h]
    exact ByteArray.isValidUTF8_utf8Encode
  exact ⟨_, dif_pos hvalid⟩

/-! ## A key that repeats -/

variable {n : ℕ} (hn : 0 < n)

/-- Byte `i` is combined with byte `i % n` of the key. -/
def xorCycle (key : Vector UInt8 n) (data : Bytes) : Bytes :=
  data.mapIdx fun i byte => byte ^^^ key.get ⟨i % n, Nat.mod_lt i hn⟩

theorem xorCycle_xorCycle (key : Vector UInt8 n) (data : Bytes) :
    xorCycle hn key (xorCycle hn key data) = data := by
  unfold xorCycle
  rw [List.mapIdx_mapIdx]
  refine List.ext_getElem (by simp) fun i h h' => ?_
  rw [List.getElem_mapIdx, Function.comp_apply, UInt8.xor_assoc, UInt8.xor_self, UInt8.xor_zero]

end Bytes
