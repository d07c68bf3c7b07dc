import DistributedSync.Library.HashChain
import DistributedSync.Library.Json.RoundTrip
import DistributedSync.Library.Lines
import Mathlib.Logic.Function.Basic

/-!
# The audit log

The audit part of `BonusSecurityService`: `record_audit` appends a record to the log file and puts
the hash of the previous value and the record's canonical JSON into the hash file;
`verify_audit_chain` computes the chain again from the log file. SHA-256 and the texts of floats
are parameters. A file is its decoded text; reading it in text mode turns `\r` and `\r\n` into `\n`,
which ends a line all the same.
-/

namespace DistributedSync

open Json (Text Str FloatFormat Separators)

variable {F : Type}

structure AuditRecord (F : Type) where
  timestamp : Str
  action : Str
  actor : Str
  resource : Str
  result : Str
  details : List (Str × Json F)

/-- `record.__dict__`. -/
def AuditRecord.toJson (record : AuditRecord F) : Json F :=
  .obj [(Json.ofString "timestamp", .str record.timestamp),
    (Json.ofString "action", .str record.action), (Json.ofString "actor", .str record.actor),
    (Json.ofString "resource", .str record.resource), (Json.ofString "result", .str record.result),
    (Json.ofString "details", .obj record.details)]

/-- The options of `BonusSecurityService` that the audit log depends on. -/
structure BonusSecurityService where
  enableAudit : Bool := true
  auditLogPath : Option String
  auditHashPath : Option String

abbrev Files := String → Option Text

namespace BonusSecurityService

/-- `json.dumps(v, sort_keys=True, separators=(",", ":"))`: what is hashed. -/
def canonical (fmt : FloatFormat F) (v : Json F) : Text := v.dumps fmt .compact

/-- `_record_hash`. -/
def recordHash (fmt : FloatFormat F) (sha256 : Text → Text) (service : BonusSecurityService)
    (record : AuditRecord F) (files : Files) : Files :=
  let previous :=
    match service.auditHashPath.bind files with
    | some text => Lines.strip text
    | none => []
  let digest := sha256 (previous ++ canonical fmt record.toJson)
  let files :=
    match service.auditLogPath with
    | some path => Function.update files path
        (some ((files path).getD [] ++ (record.toJson.dumps fmt .default ++ ['\n'])))
    | none => files
  match service.auditHashPath with
  | some path => Function.update files path (some digest)
  | none => files

/-- `record_audit` at the time `timestamp`. -/
def recordAudit (fmt : FloatFormat F) (sha256 : Text → Text) (service : BonusSecurityService)
    (timestamp action actor resource result : Str) (details : Option (List (Str × Json F)))
    (files : Files) : Files :=
  if service.enableAudit then
    service.recordHash fmt sha256
      { timestamp, action, actor, resource, result, details := details.getD [] } files
  else files

/-- The loop of `verify_audit_chain`: the last digest, unless a line is no JSON. -/
def chain (fmt : FloatFormat F) (sha256 : Text → Text) : Text → List Text → Option Text
  | previous, [] => some previous
  | previous, line :: lines =>
    if Lines.strip line = [] then chain fmt sha256 previous lines
    else (Json.loads fmt line).bind fun v =>
      chain fmt sha256 (sha256 (previous ++ canonical fmt v)) lines

/-- `verify_audit_chain`; `none` when it raises. -/
def verifyAuditChain (fmt : FloatFormat F) (sha256 : Text → Text)
    (service : BonusSecurityService) (files : Files) : Option Bool :=
  match service.auditLogPath, service.auditHashPath with
  | some logPath, some hashPath =>
    match files logPath, files hashPath with
    | some log, some hash =>
      (chain fmt sha256 [] (Lines.splitlines log)).map fun previous =>
        decide (previous = Lines.strip hash)
    | _, _ => some false
  | _, _ => some true

end BonusSecurityService

open BonusSecurityService

/-- A call of `record_audit`, on the service object of the time. -/
structure AuditCall (F : Type) where
  service : BonusSecurityService
  timestamp : Str
  action : Str
  actor : Str
  resource : Str
  result : Str
  details : Option (List (Str × Json F)) := none

namespace AuditCall

def run (fmt : FloatFormat F) (sha256 : Text → Text) (files : Files) (call : AuditCall F) : Files :=
  call.service.recordAudit fmt sha256 call.timestamp call.action call.actor call.resource
    call.result call.details files

/-- The record the call makes. -/
def record (call : AuditCall F) : AuditRecord F where
  timestamp := call.timestamp
  action := call.action
  actor := call.actor
  resource := call.resource
  result := call.result
  details := call.details.getD []

end AuditCall

def recorded (calls : List (AuditCall F)) : List (AuditRecord F) :=
  (calls.filter fun call => call.service.enableAudit).map AuditCall.record

/-! ## Digests and records -/

variable {fmt : FloatFormat F} {sha256 : Text → Text} {logPath hashPath : String}
  {service : BonusSecurityService} {files : Files}

/-- A SHA-256 digest in hexadecimal. -/
def IsDigest (t : Text) : Prop :=
  t.length = 64 ∧ ∀ c ∈ t, c ∈ ['0', '1', '2', '3', '4', '5', '6', '7', '8', '9', 'a', 'b', 'c',
    'd', 'e', 'f']

theorem IsDigest.strip {t : Text} (h : IsDigest t) : Lines.strip t = t := by
  refine Lines.strip_eq_self fun c hc => ?_
  have key : ∀ c ∈ ['0', '1', '2', '3', '4', '5', '6', '7', '8', '9', 'a', 'b', 'c', 'd', 'e',
      'f'], Lines.isSpace c = false := by decide
  exact key c (h.2 c hc)

theorem dumps_obj (sep : Separators) (fields : List (Str × Json F)) :
    ∃ t, (Json.obj fields).dumps fmt sep = '{' :: t := by
  unfold Json.dumps
  rw [Json.sortKeys, Json.render]
  exact ⟨_, rfl⟩

theorem record_wellFormed {record : AuditRecord F} (h : (Json.obj record.details).WellFormed) :
    record.toJson.WellFormed := by
  have hplain : ∀ k ∈ ["timestamp", "action", "actor", "resource", "result", "details"],
      Json.Plain (Json.ofString k) := by decide +kernel
  simp only [List.mem_cons, List.not_mem_nil, or_false, forall_eq_or_imp, forall_eq] at hplain
  obtain ⟨h1, h2, h3, h4, h5, h6⟩ := hplain
  have hnd : (["timestamp", "action", "actor", "resource", "result", "details"].map
      Json.ofString).Nodup := by decide +kernel
  refine Json.wellFormed_obj.mpr ⟨hnd, ?_⟩
  simp only [List.mem_cons, List.not_mem_nil, or_false, forall_eq_or_imp, forall_eq]
  exact ⟨⟨h1, trivial⟩, ⟨h2, trivial⟩, ⟨h3, trivial⟩, ⟨h4, trivial⟩, ⟨h5, trivial⟩, h6, h⟩

/-! ## Recording -/

/-- The service keeps its log in these files. -/
structure UsesPaths (logPath hashPath : String) (service : BonusSecurityService) : Prop where
  log : service.auditLogPath = some logPath
  hash : service.auditHashPath = some hashPath

/-- What is hashed for the records. -/
def payloads (fmt : FloatFormat F) (records : List (AuditRecord F)) : List Text :=
  records.map fun record => canonical fmt record.toJson

/-- The lines of the records in the log file. -/
def logLines (fmt : FloatFormat F) (records : List (AuditRecord F)) : List Text :=
  records.map fun record => record.toJson.dumps fmt .default

/-- The files hold these records. -/
structure HoldsRecords (fmt : FloatFormat F) (sha256 : Text → Text) (logPath hashPath : String)
    (records : List (AuditRecord F)) (files : Files) : Prop where
  log : (files logPath).getD [] = (logLines fmt records).flatMap fun line => line ++ ['\n']
  hash : (files hashPath).getD [] = HashChain.value sha256 [] (payloads fmt records)
  isSome : records ≠ [] → (files logPath).isSome ∧ (files hashPath).isSome

theorem HoldsRecords.recordHash (hdigest : ∀ s, IsDigest (sha256 s)) (hpath : logPath ≠ hashPath)
    (hs : UsesPaths logPath hashPath service) {records : List (AuditRecord F)}
    (h : HoldsRecords fmt sha256 logPath hashPath records files) (record : AuditRecord F) :
    HoldsRecords fmt sha256 logPath hashPath (records ++ [record])
      (service.recordHash fmt sha256 record files) := by
  have hprevious : (match service.auditHashPath.bind files with
      | some text => Lines.strip text
      | none => []) = HashChain.value sha256 [] (payloads fmt records) := by
    rw [hs.hash, ← h.hash]
    show (match files hashPath with
      | some text => Lines.strip text
      | none => []) = _
    rcases hf : files hashPath with _ | text
    · rfl
    · have htext := h.hash
      rw [hf, Option.getD_some] at htext
      show Lines.strip text = text
      rcases HashChain.value_cases sha256 (payloads fmt records) with hnil | ⟨s, hs⟩
      · rw [htext, hnil]
        rfl
      · rw [htext, hs]
        exact (hdigest s).strip
  unfold BonusSecurityService.recordHash
  rw [hprevious, hs.log, hs.hash]
  dsimp only
  constructor
  · rw [Function.update_of_ne hpath, Function.update_self, Option.getD_some, h.log, logLines,
      logLines, List.map_append, List.flatMap_append]
    simp
  · rw [Function.update_self, Option.getD_some, payloads, payloads, List.map_append,
      List.map_singleton, HashChain.value_concat]
  · intro _
    rw [Function.update_of_ne hpath, Function.update_self, Function.update_self]
    exact ⟨rfl, rfl⟩

theorem run_of_enabled {call : AuditCall F} (h : call.service.enableAudit) (files : Files) :
    call.run fmt sha256 files = call.service.recordHash fmt sha256 call.record files := if_pos h

theorem run_of_disabled {call : AuditCall F} (h : ¬ call.service.enableAudit) (files : Files) :
    call.run fmt sha256 files = files := if_neg h

theorem recorded_concat (calls : List (AuditCall F)) (call : AuditCall F) :
    recorded (calls ++ [call]) =
      recorded calls ++ if call.service.enableAudit then [call.record] else [] := by
  unfold recorded
  rw [List.filter_append, List.map_append]
  by_cases h : call.service.enableAudit <;> simp [h]

/-- The files after any sequence of calls. -/
theorem holdsRecords_run (hdigest : ∀ s, IsDigest (sha256 s)) (hpath : logPath ≠ hashPath)
    (hlog : files logPath = none) (hhash : files hashPath = none) {calls : List (AuditCall F)}
    (hcalls : ∀ call ∈ calls, UsesPaths logPath hashPath call.service) :
    HoldsRecords fmt sha256 logPath hashPath (recorded calls)
      (calls.foldl (AuditCall.run fmt sha256) files) := by
  induction calls using List.reverseRecOn with
  | nil =>
    refine ⟨?_, ?_, fun h => absurd rfl h⟩
    · show (files logPath).getD [] = _
      rw [hlog]
      rfl
    · show (files hashPath).getD [] = _
      rw [hhash]
      rfl
  | append_singleton calls call ih =>
    have h := ih fun c hc => hcalls c (List.mem_append_left _ hc)
    rw [List.foldl_append, List.foldl_cons, List.foldl_nil, recorded_concat]
    by_cases he : call.service.enableAudit
    · rw [run_of_enabled he, if_pos he]
      exact h.recordHash hdigest hpath (hcalls call (by simp)) call.record
    · rw [run_of_disabled he, if_neg he, List.append_nil]
      exact h

/-! ## Verifying -/

/-- The lines that are not blank. -/
def recordLines (text : Text) : List Text :=
  (Lines.splitlines text).filter fun line => Lines.strip line ≠ []

/-- The canonical text of what a line parses to. -/
def lineCanonical (fmt : FloatFormat F) (line : Text) : Option Text :=
  (Json.loads fmt line).map (canonical fmt)

/-- What is hashed for a text. -/
def textPayloads (fmt : FloatFormat F) (text : Text) : List Text :=
  (recordLines text).filterMap (lineCanonical fmt)

theorem chain_eq_some {prev d : Text} {lines : List Text} :
    chain fmt sha256 prev lines = some d ↔
      ∃ ps : List Text, (lines.filter fun line => Lines.strip line ≠ []).map (lineCanonical fmt) =
        ps.map some ∧ d = HashChain.value sha256 prev ps := by
  induction lines generalizing prev with
  | nil =>
    simp only [chain, List.filter_nil, List.map_nil, Option.some.injEq]
    constructor
    · rintro rfl
      exact ⟨[], rfl, rfl⟩
    · rintro ⟨ps, hps, rfl⟩
      rw [List.map_eq_nil_iff.mp hps.symm]
      rfl
  | cons line lines ih =>
    rw [chain]
    by_cases hblank : Lines.strip line = []
    · rw [if_pos hblank, List.filter_cons_of_neg (by simp [hblank]), ih]
    · rw [if_neg hblank, List.filter_cons_of_pos (by simp [hblank]), List.map_cons]
      rcases hv : Json.loads fmt line with _ | v
      · have hline : lineCanonical fmt line = none := by rw [lineCanonical, hv]; rfl
        rw [hline]
        constructor
        · intro h
          cases h
        · rintro ⟨_ | ⟨p, ps⟩, hps, -⟩ <;> cases hps
      · have hline : lineCanonical fmt line = some (canonical fmt v) := by
          rw [lineCanonical, hv]; rfl
        rw [hline, Option.bind_some, ih]
        constructor
        · rintro ⟨ps, hps, rfl⟩
          exact ⟨canonical fmt v :: ps, by rw [hps]; rfl, rfl⟩
        · rintro ⟨_ | ⟨p, ps⟩, hps, rfl⟩
          · cases hps
          · rw [List.map_cons, List.cons.injEq, Option.some.injEq] at hps
            rw [← hps.1]
            exact ⟨ps, hps.2, rfl⟩

theorem verifyAuditChain_eq_true (hs : UsesPaths logPath hashPath service) {log hash : Text}
    (hlog : files logPath = some log) (hhash : files hashPath = some hash) :
    service.verifyAuditChain fmt sha256 files = some true ↔
      ∃ ps : List Text, (recordLines log).map (lineCanonical fmt) = ps.map some ∧
        Lines.strip hash = HashChain.value sha256 [] ps := by
  unfold verifyAuditChain
  rw [hs.log, hs.hash]
  dsimp only
  rw [hlog, hhash]
  dsimp only
  rw [Option.map_eq_some_iff]
  simp only [chain_eq_some, decide_eq_true_eq]
  constructor
  · rintro ⟨d, ⟨ps, hps, hd⟩, rfl⟩
    exact ⟨ps, hps, hd⟩
  · rintro ⟨ps, hps, hd⟩
    exact ⟨_, ⟨ps, hps, hd⟩, rfl⟩

theorem not_isLineBreak_of_printable {c : Char} (h : Json.Printable c) :
    Lines.isLineBreak c = false := by
  obtain ⟨hlow, hhigh⟩ := h
  unfold Lines.isLineBreak
  simp only [List.contains_eq_mem, List.mem_cons, List.not_mem_nil, or_false,
    decide_eq_false_iff_not]
  omega

/-- The lines of the log are the records, however they were written. -/
theorem recordLines_log {fmt : FloatFormat F} (records : List (AuditRecord F)) :
    recordLines ((logLines fmt records).flatMap fun line => line ++ ['\n']) =
      logLines fmt records := by
  have hchars : ∀ l ∈ logLines fmt records, ∀ c ∈ l, Lines.isLineBreak c = false := by
    intro l hl c hc
    obtain ⟨record, -, rfl⟩ := List.mem_map.mp hl
    exact not_isLineBreak_of_printable
      (Json.printable_render ⟨by decide, by decide⟩ record.toJson.sortKeys c hc)
  unfold recordLines
  rw [Lines.splitlines_flatMap hchars, List.filter_eq_self]
  intro l hl
  obtain ⟨record, -, rfl⟩ := List.mem_map.mp hl
  obtain ⟨t, ht⟩ : ∃ t, record.toJson.dumps fmt .default = '{' :: t := dumps_obj .default _
  rw [decide_eq_true_eq, ht]
  exact Lines.strip_ne_nil (by decide)

theorem lineCanonical_logLines {records : List (AuditRecord F)}
    (hdetails : ∀ record ∈ records, (Json.obj record.details).WellFormed) :
    (logLines fmt records).map (lineCanonical fmt) = (payloads fmt records).map some := by
  unfold logLines payloads
  rw [List.map_map, List.map_map]
  refine List.map_congr_left fun record hrecord => ?_
  have hwf := record_wellFormed (hdetails record hrecord)
  generalize hv : record.toJson = v at hwf
  rw [Function.comp_apply, Function.comp_apply, hv]
  exact Json.dumps_loads_dumps .default .compact hwf

/-- The hash file holds the value of the chain. -/
theorem HoldsRecords.strip_hash (hdigest : ∀ s, IsDigest (sha256 s))
    {records : List (AuditRecord F)}
    (h : HoldsRecords fmt sha256 logPath hashPath records files) {hash : Text}
    (hhash : files hashPath = some hash) :
    Lines.strip hash = HashChain.value sha256 [] (payloads fmt records) := by
  have htext := h.hash
  rw [hhash, Option.getD_some] at htext
  rcases HashChain.value_cases sha256 (payloads fmt records) with hnil | ⟨s, hvalue⟩
  · rw [htext, hnil]
    rfl
  · rw [htext, hvalue, (hdigest s).strip]

theorem HoldsRecords.verifies (hdigest : ∀ s, IsDigest (sha256 s))
    (hs : UsesPaths logPath hashPath service) {records : List (AuditRecord F)}
    (h : HoldsRecords fmt sha256 logPath hashPath records files) (hne : records ≠ [])
    (hdetails : ∀ record ∈ records, (Json.obj record.details).WellFormed) :
    service.verifyAuditChain fmt sha256 files = some true := by
  obtain ⟨log, hlog⟩ := Option.isSome_iff_exists.mp (h.isSome hne).1
  obtain ⟨hash, hhash⟩ := Option.isSome_iff_exists.mp (h.isSome hne).2
  have htext := h.log
  rw [hlog, Option.getD_some] at htext
  rw [verifyAuditChain_eq_true hs hlog hhash, htext, recordLines_log]
  exact ⟨_, lineCanonical_logLines hdetails, h.strip_hash hdigest hhash⟩

/-! ## Tampering -/

/-- A digest in front of one canonical text is never another one where one of them is a record's:
the record's starts with a brace, which a text that starts with a digit does not contain. -/
theorem canonical_ne_digest_append {d : Text} (hd : IsDigest d) (record : AuditRecord F)
    (v : Json F) :
    canonical fmt record.toJson ≠ d ++ canonical fmt v ∧
      canonical fmt v ≠ d ++ canonical fmt record.toJson := by
  obtain ⟨t, ht⟩ : ∃ t, canonical fmt record.toJson = '{' :: t := dumps_obj .compact _
  rw [ht]
  obtain ⟨hlen, hhex⟩ := hd
  rcases d with _ | ⟨c, d⟩
  · cases hlen
  have hc := hhex c List.mem_cons_self
  constructor
  · intro h
    injection h with h
    rw [← h] at hc
    exact absurd hc (by decide)
  · intro h
    have hscalar : c ∉ ['"', '[', '{'] := by
      have key : ∀ c ∈ ['0', '1', '2', '3', '4', '5', '6', '7', '8', '9', 'a', 'b', 'c', 'd', 'e',
          'f'], c ∉ ['"', '[', '{'] := by decide
      exact key c hc
    exact Json.not_mem_brace_of_scalar v.sortKeys h hscalar (by simp)

theorem textPayloads_eq {text : Text} {ps : List Text}
    (h : (recordLines text).map (lineCanonical fmt) = ps.map some) :
    textPayloads fmt text = ps := by
  have hmap : textPayloads fmt text =
      ((recordLines text).map (lineCanonical fmt)).filterMap id := by
    rw [List.filterMap_map]
    rfl
  rw [hmap, h, List.filterMap_map]
  exact List.filterMap_some

theorem exists_of_mem_textPayloads {text p : Text} (h : p ∈ textPayloads fmt text) :
    ∃ v : Json F, p = canonical fmt v := by
  obtain ⟨line, -, hline⟩ := List.mem_filterMap.mp h
  obtain ⟨v, -, rfl⟩ := Option.map_eq_some_iff.mp hline
  exact ⟨v, rfl⟩

/-- The log of any sequence of calls verifies, and no other log in its place does. -/
theorem verifyAuditChain_iff_recorded (hdigest : ∀ s, IsDigest (sha256 s))
    (hpath : logPath ≠ hashPath) (hlog : files logPath = none) (hhash : files hashPath = none)
    {calls : List (AuditCall F)} (hcalls : ∀ call ∈ calls, UsesPaths logPath hashPath call.service)
    (hs : UsesPaths logPath hashPath service) :
    (recorded calls ≠ [] →
        (∀ record ∈ recorded calls, (Json.obj record.details).WellFormed) →
        service.verifyAuditChain fmt sha256 (calls.foldl (AuditCall.run fmt sha256) files) =
          some true) ∧
      ∀ text : Text,
        HashChain.NoCollision sha256 (HashChain.hashed sha256 [] (payloads fmt (recorded calls)) ++
          HashChain.hashed sha256 [] (textPayloads fmt text)) →
        service.verifyAuditChain fmt sha256 (Function.update
          (calls.foldl (AuditCall.run fmt sha256) files) logPath (some text)) = some true →
        (recordLines text).map (lineCanonical fmt) =
          (payloads fmt (recorded calls)).map some := by
  have hholds : HoldsRecords fmt sha256 logPath hashPath (recorded calls)
      (calls.foldl (AuditCall.run fmt sha256) files) :=
    holdsRecords_run hdigest hpath hlog hhash hcalls
  generalize calls.foldl (AuditCall.run fmt sha256) files = files' at hholds ⊢
  constructor
  · exact hholds.verifies hdigest hs
  · intro text hcoll hverify
    obtain ⟨hash, hhash'⟩ : ∃ hash, files' hashPath = some hash := by
      cases hhash' : files' hashPath with
      | some hash => exact ⟨hash, rfl⟩
      | none =>
        -- without a hash file nothing verifies
        have hupdate : Function.update files' logPath (some text) hashPath = none := by
          rw [Function.update_of_ne hpath.symm, hhash']
        simp [verifyAuditChain, hs.log, hs.hash, hupdate] at hverify
    have hstrip := hholds.strip_hash hdigest hhash'
    have hupdate : Function.update files' logPath (some text) hashPath = some hash := by
      rw [Function.update_of_ne hpath.symm, hhash']
    obtain ⟨ps, hps, hvalue⟩ :=
      (verifyAuditChain_eq_true hs (Function.update_self ..) hupdate).mp hverify
    have htext := textPayloads_eq hps
    rw [htext] at hcoll
    rw [hstrip] at hvalue
    rw [hps]
    refine congrArg _ (HashChain.value_injective (n := 64) (by decide) (fun s => (hdigest s).1)
      hcoll (fun s b hb c hc => ?_) hvalue).symm
    obtain ⟨record, -, rfl⟩ := List.mem_map.mp hb
    obtain ⟨v, rfl⟩ := exists_of_mem_textPayloads (htext ▸ hc)
    exact canonical_ne_digest_append (hdigest s) record v

/-! ## Runs on fixed records -/

def hexDigest (n : ℕ) : Text :=
  (List.range 64).map fun i => (n >>> (4 * (63 - i)) % 16).digitChar

/-- SHA-256 on what is hashed for the records below, which differ in length. -/
def sampleSha256 (t : Text) : Text :=
  hexDigest <| match t.length with
  | 92 => 0x662d1ba9d3a428d940101af8652b21f9fc9c27a5f348b915cd327b6e374159d6
  | 169 => 0x0c460e9f6f06dae05425ce068d661393d087acb7ae5b7c473ad1ac0a59fe2d0a
  | 122 => 0xc2f8b36155625d28f6ee26ca617c9b3bf932a3b08a93e398b17c318ccccf92ce
  | 105 => 0x5265eb5a0bfa42bfb278406f7415cc40f8ecb29297d2642fdccee1c13bb46420
  | _ => 0xe3b0c44298fc1c149afbf4c8996fb92427ae41e4649b934ca495991b7852b855

theorem isDigest_hexDigest (n : ℕ) : IsDigest (hexDigest n) := by
  have key : ∀ d < 16, d.digitChar ∈ ['0', '1', '2', '3', '4', '5', '6', '7', '8', '9', 'a', 'b',
      'c', 'd', 'e', 'f'] := by decide
  unfold hexDigest
  refine ⟨by rw [List.length_map, List.length_range], fun c hc => ?_⟩
  obtain ⟨i, -, rfl⟩ := List.mem_map.mp hc
  exact key _ (Nat.mod_lt _ (by decide))

theorem isDigest_sampleSha256 (t : Text) : IsDigest (sampleSha256 t) := isDigest_hexDigest _

/-- One float is enough here. -/
def sampleFormat : FloatFormat Unit where
  repr _ := ['1', '.', '0']
  parse _ := ()
  isFloatText_repr _ := Or.inr ⟨['1'], ['.', '0'], by decide +kernel, by decide⟩
  parse_repr _ := rfl

def sampleService : BonusSecurityService where
  auditLogPath := some "audit.log"
  auditHashPath := some "audit.hash"

def sampleCalls : List (AuditCall Unit) := [
  { service := sampleService, timestamp := Json.ofString "t1", action := Json.ofString "encrypt",
    actor := Json.ofString "n1", resource := Json.ofString "p", result := Json.ofString "ok" },
  { service := sampleService, timestamp := Json.ofString "t2", action := Json.ofString "read",
    actor := Json.ofString "viewer", resource := Json.ofString "q",
    result := Json.ofString "denied", details := some [(Json.ofString "size", .int 2)] }]

/-- The log of `sampleCalls`, with other spaces and an empty line. -/
def respacedLog : Text :=
  (" \x7b\"action\": \"encrypt\" ,\"actor\": \"n1\" ,\"details\": \x7b\x7d ,\"resource\": \"p\"" ++
    " ,\"result\": \"ok\" ,\"timestamp\": \"t1\"\x7d\n\n" ++
    "\x7b\"action\":\"read\",\"actor\":\"viewer\",\"details\":\x7b\"size\":2\x7d," ++
    "\"resource\":\"q\",\"result\":\"denied\",\"timestamp\":\"t2\"\x7d").toList

theorem respacedLog_verifies :
    sampleService.verifyAuditChain sampleFormat sampleSha256
        (sampleCalls.foldl (AuditCall.run sampleFormat sampleSha256) fun _ => none) = some true ∧
      (recordLines respacedLog).map (lineCanonical sampleFormat) =
        (payloads sampleFormat (recorded sampleCalls)).map some := by
  have hpaths : ∀ call ∈ sampleCalls, call.service.auditLogPath = some "audit.log" ∧
      call.service.auditHashPath = some "audit.hash" := by decide +kernel
  have hdetails : ∀ record ∈ recorded sampleCalls, (Json.obj record.details).WellFormed := by
    have hsize : Json.Plain (Json.ofString "size") := by decide +kernel
    intro record hrecord
    rcases List.mem_cons.mp hrecord with rfl | hrecord
    · exact Json.wellFormed_obj.mpr ⟨List.nodup_nil, fun f hf => nomatch hf⟩
    · rw [List.mem_singleton.mp hrecord]
      refine Json.wellFormed_obj.mpr ⟨List.nodup_singleton _, fun f hf => ?_⟩
      rw [List.mem_singleton.mp hf]
      exact ⟨hsize, trivial⟩
  obtain ⟨hhonest, htampered⟩ := @verifyAuditChain_iff_recorded Unit sampleFormat sampleSha256
    "audit.log" "audit.hash" sampleService (fun _ => none) isDigest_sampleSha256 (by decide) rfl rfl
    sampleCalls (fun call hcall => ⟨(hpaths call hcall).1, (hpaths call hcall).2⟩) ⟨rfl, rfl⟩
  refine ⟨hhonest (by decide +kernel) hdetails, htampered respacedLog ?_ ?_⟩
  · unfold HashChain.NoCollision
    decide +kernel
  · decide +kernel

/-- Nothing is recorded where auditing is off. A record with two keys that are one in JSON comes
back from the log with one of them. -/
theorem verifyAuditChain_rejects :
    BonusSecurityService.verifyAuditChain sampleFormat sampleSha256 sampleService
        ([{ service := { sampleService with enableAudit := false }, timestamp := Json.ofString "t1",
            action := Json.ofString "encrypt", actor := Json.ofString "n1",
            resource := Json.ofString "p", result := Json.ofString "ok" }].foldl
          (AuditCall.run sampleFormat sampleSha256) fun _ => none) = some false ∧
      BonusSecurityService.verifyAuditChain sampleFormat sampleSha256 sampleService
        ([{ service := sampleService, timestamp := Json.ofString "t3",
            action := Json.ofString "read", actor := Json.ofString "n1",
            resource := Json.ofString "p", result := Json.ofString "ok",
            details := some [([0xd83d, 0xde00], .int 1), ([0x1f600], .int 2)] }].foldl
          (AuditCall.run sampleFormat sampleSha256) fun _ => none) = some false := by
  decide +kernel

end DistributedSync
