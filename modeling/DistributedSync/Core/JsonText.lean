import DistributedSync.Core.Types
import DistributedSync.Library.Json.RoundTrip

/-!
# Values as JSON texts

`json.dumps` and `json.loads` on the values of the model. Its strings are Unicode texts, so that a
value with distinct keys comes back as it was (`jsonLoads_jsonDumps`).
-/

namespace DistributedSync

open Json (Text Str FloatFormat)

namespace Value

/-- Induction over values, through the items of a list and of a dictionary. -/
theorem induction {P : Value → Prop} (null : P .null) (bool : ∀ b, P (.bool b))
    (int : ∀ n, P (.int n)) (float : ∀ x, P (.float x)) (str : ∀ s, P (.str s))
    (list : ∀ l, (∀ v ∈ l, P v) → P (.list l))
    (dict : ∀ d, (∀ f ∈ d, P f.2) → P (.dict d)) (v : Value) : P v := by
  refine @Value.rec P (fun l => ∀ v ∈ l, P v) (fun d => ∀ f ∈ d, P f.2) (fun f => P f.2)
    null bool int float str list dict ?_ ?_ ?_ ?_ ?_ v
  · intro v hv
    cases hv
  · intro v l hv hl w hw
    rcases List.mem_cons.mp hw with rfl | hw
    · exact hv
    · exact hl w hw
  · intro f hf
    cases hf
  · intro f d hf hd g hg
    rcases List.mem_cons.mp hg with rfl | hg
    · exact hf
    · exact hd g hg
  · intro k v hv
    exact hv

mutual

/-- The value that the encoder writes. -/
def toJson : Value → Json ℚ
  | .null => .null
  | .bool b => .bool b
  | .int n => .int n
  | .float x => .float x
  | .str s => .str (Json.ofString s)
  | .list l => .arr (itemsToJson l)
  | .dict d => .obj (fieldsToJson d)

def itemsToJson : List Value → List (Json ℚ)
  | [] => []
  | v :: l => v.toJson :: itemsToJson l

def fieldsToJson : Dict → List (Str × Json ℚ)
  | [] => []
  | (k, v) :: d => (Json.ofString k, v.toJson) :: fieldsToJson d

end

/-- A string; `none` for one with surrogates, which the model does not have. -/
def stringOf (s : Str) : Option String :=
  if ∀ c ∈ s, c < 0xd800 ∨ 0xdfff < c ∧ c < 0x110000 then
    some (String.ofList (s.map Char.ofNat))
  else none

mutual

/-- The value that the decoder makes. -/
def ofJson : Json ℚ → Option Value
  | .null => some .null
  | .bool b => some (.bool b)
  | .int n => some (.int n)
  | .float x => some (.float x)
  | .str s => (stringOf s).map .str
  | .arr l => (itemsOfJson l).map .list
  | .obj fields => (fieldsOfJson fields).map .dict

def itemsOfJson : List (Json ℚ) → Option (List Value)
  | [] => some []
  | v :: l => (ofJson v).bind fun v => (itemsOfJson l).map (v :: ·)

def fieldsOfJson : List (Str × Json ℚ) → Option Dict
  | [] => some []
  | (k, v) :: fields => (stringOf k).bind fun k => (ofJson v).bind fun v =>
      (fieldsOfJson fields).map ((k, v) :: ·)

end

/-- `json.dumps`. -/
def jsonDumps (fmt : FloatFormat ℚ) (v : Value) : Text := v.toJson.render fmt .default

/-- `json.loads`; `none` when it raises. -/
def jsonLoads (fmt : FloatFormat ℚ) (t : Text) : Option Value := (Json.loads fmt t).bind ofJson

/-- The keys of each dictionary are distinct, as they are in Python. -/
def DistinctKeys (v : Value) : Prop := v.toJson.WellFormed

variable {l : List Value} {d : Dict}

theorem itemsToJson_eq (l : List Value) : itemsToJson l = l.map toJson := by
  induction l with
  | nil => rfl
  | cons v l ih => rw [itemsToJson, ih, List.map_cons]

theorem fieldsToJson_eq (d : Dict) :
    fieldsToJson d = d.map fun f => (Json.ofString f.1, f.2.toJson) := by
  induction d with
  | nil => rfl
  | cons f d ih => rw [fieldsToJson, ih, List.map_cons]

theorem distinctKeys_list : (list l).DistinctKeys ↔ ∀ v ∈ l, v.DistinctKeys := by
  unfold DistinctKeys
  rw [toJson, itemsToJson_eq, Json.wellFormed_arr, List.forall_mem_map]

theorem distinctKeys_dict : (dict d).DistinctKeys ↔
    (d.map Prod.fst).Nodup ∧ ∀ f ∈ d, f.2.DistinctKeys := by
  unfold DistinctKeys
  rw [toJson, fieldsToJson_eq, Json.wellFormed_obj, List.map_map]
  refine and_congr ?_ ?_
  · rw [← List.nodup_map_iff Json.ofString_injective, List.map_map]
    rfl
  · rw [List.forall_mem_map]
    exact forall₂_congr fun f _ => and_iff_right (Json.plain_ofString f.1)

theorem stringOf_ofString (s : String) : stringOf (Json.ofString s) = some s := by
  unfold stringOf Json.ofString
  rw [if_pos, List.map_map]
  · have hid : Char.ofNat ∘ Char.toNat = id := funext Char.ofNat_toNat
    rw [hid, List.map_id, String.ofList_toList]
  · intro n hn
    obtain ⟨c, -, rfl⟩ := List.mem_map.mp hn
    exact c.valid

theorem spell_toJson (v : Value) : v.toJson.spell = v.toJson := by
  induction v using induction with
  | null | bool b | int n | float x => rfl
  | str s => exact congrArg Json.str (Json.plain_ofString s)
  | list l ih =>
    rw [toJson, itemsToJson_eq, Json.spell, Json.spellItems_eq, List.map_map]
    exact congrArg Json.arr (List.map_congr_left ih)
  | dict d ih =>
    rw [toJson, fieldsToJson_eq, Json.spell, Json.spellFields_eq, List.map_map]
    refine congrArg Json.obj (List.map_congr_left fun f hf => ?_)
    exact Prod.ext (Json.plain_ofString f.1) (ih f hf)

theorem ofJson_toJson (v : Value) : ofJson v.toJson = some v := by
  induction v using induction with
  | null | bool b | int n | float x => rfl
  | str s =>
    rw [toJson, ofJson, stringOf_ofString]
    rfl
  | list l ih =>
    have hitems : itemsOfJson (itemsToJson l) = some l := by
      induction l with
      | nil => rfl
      | cons v l ihl =>
        rw [itemsToJson, itemsOfJson, ih v List.mem_cons_self,
          ihl fun w hw => ih w (List.mem_cons_of_mem v hw)]
        rfl
    rw [toJson, ofJson, hitems]
    rfl
  | dict d ih =>
    have hfields : fieldsOfJson (fieldsToJson d) = some d := by
      induction d with
      | nil => rfl
      | cons f d ihd =>
        rw [fieldsToJson, fieldsOfJson, stringOf_ofString, ih f List.mem_cons_self,
          ihd fun g hg => ih g (List.mem_cons_of_mem f hg)]
        rfl
    rw [toJson, ofJson, hfields]
    rfl

theorem jsonLoads_jsonDumps {fmt : FloatFormat ℚ} {v : Value} (hv : v.DistinctKeys) :
    jsonLoads fmt (jsonDumps fmt v) = some v := by
  unfold jsonLoads jsonDumps
  rw [Json.loads_render .default hv, Option.bind_some, spell_toJson, ofJson_toJson]

end Value

end DistributedSync
