import DistributedSync.Bonus.Audit

/-!
# Failed audit writes

`record_audit` adds its record to the list in memory, appends a line to the log file and replaces
the hash file, one after the other and with nothing that undoes a part of it. An exception after the
first leaves a record that is not in the log, and a stop between the two files leaves a line that no
hash covers, for good. If no call stops there the chain survives (`audit_survives`).
-/

namespace DistributedSync

open Json (Text FloatFormat)
open BonusSecurityService

variable {F : Type}

/-- `_record_hash` up to the write of the hash file. -/
def BonusSecurityService.appendLog (fmt : FloatFormat F) (service : BonusSecurityService)
    (record : AuditRecord F) (files : Files) : Files :=
  match service.auditLogPath with
  | some path => Function.update files path
      (some ((files path).getD [] ++ (record.toJson.dumps fmt .default ++ ['\n'])))
  | none => files

theorem recordHash_eq (fmt : FloatFormat F) (sha256 : Text → Text)
    {service : BonusSecurityService} {hashPath : String}
    (h : service.auditHashPath = some hashPath) (record : AuditRecord F) (files : Files) :
    service.recordHash fmt sha256 record files =
      Function.update (service.appendLog fmt record files) hashPath (some (sha256
        (((files hashPath).map Lines.strip).getD [] ++ canonical fmt record.toJson))) := by
  unfold recordHash
  rw [h]
  cases hf : files hashPath <;> simp only [Option.bind_some, hf] <;> rfl

/-- How far a call of `record_audit` gets: nothing done, the record added to `audit_log`, the line
appended to the log file, the hash file written. -/
inductive AuditPoint where
  | started
  | remembered
  | logged
  | recorded
  deriving DecidableEq

/-- A call of `record_audit` with the record it makes. It returns, or raises at a point, or the
process dies there. -/
inductive AuditEvent (F : Type) where
  | returns (record : AuditRecord F)
  | raises (record : AuditRecord F) (point : AuditPoint)
  | crashes (record : AuditRecord F) (point : AuditPoint)

/-- The files of a node and its service object: `audit_log`, and the records that calls on the
object have appended to the log file. -/
structure AuditSession (F : Type) where
  files : Files
  auditLog : List (AuditRecord F) := []
  appended : List (AuditRecord F) := []

namespace AuditSession

variable (fmt : FloatFormat F) (sha256 : Text → Text) (service : BonusSecurityService)

/-- `record_audit` up to a point. -/
def recordUntil (s : AuditSession F) (record : AuditRecord F) (point : AuditPoint) :
    AuditSession F :=
  if service.enableAudit then
    match point with
    | .started => s
    | .remembered => { s with auditLog := s.auditLog ++ [record] }
    | .logged => { files := service.appendLog fmt record s.files
                   auditLog := s.auditLog ++ [record], appended := s.appended ++ [record] }
    | .recorded => { files := service.recordHash fmt sha256 record s.files
                     auditLog := s.auditLog ++ [record], appended := s.appended ++ [record] }
  else s

def step (s : AuditSession F) : AuditEvent F → AuditSession F
  | .returns record => s.recordUntil fmt sha256 service record .recorded
  | .raises record point => s.recordUntil fmt sha256 service record point
  | .crashes record point => { files := (s.recordUntil fmt sha256 service record point).files }

def run (es : List (AuditEvent F)) : AuditSession F :=
  es.foldl (step fmt sha256 service) { files := fun _ => none }

/-- The log verifies, and holds what the service object remembers. -/
structure Survived (s : AuditSession F) : Prop where
  verifies : service.verifyAuditChain fmt sha256 s.files = some true
  remembered : s.auditLog = s.appended

/-- The call does not stop halfway: it raises before it has done anything or when all is done, and
does not die between the two files. Its details are as a text can spell them. -/
def Whole : AuditEvent F → Prop
  | .returns record => (Json.obj record.details).WellFormed
  | .raises record point =>
    point = .started ∨ point = .recorded ∧ (Json.obj record.details).WellFormed
  | .crashes record point =>
    point = .started ∨ point = .remembered ∨
      point = .recorded ∧ (Json.obj record.details).WellFormed

variable {fmt sha256 service} {logPath hashPath : String} {s : AuditSession F}

/-- The files hold records that can be read back, and the object remembers what it appended. -/
structure Holds (fmt : FloatFormat F) (sha256 : Text → Text) (logPath hashPath : String)
    (s : AuditSession F) (records : List (AuditRecord F)) : Prop where
  files : HoldsRecords fmt sha256 logPath hashPath records s.files
  details : ∀ record ∈ records, (Json.obj record.details).WellFormed
  remembered : s.auditLog = s.appended

theorem Holds.recorded {records : List (AuditRecord F)}
    (h : s.Holds fmt sha256 logPath hashPath records) (hdigest : ∀ t, IsDigest (sha256 t))
    (hpath : logPath ≠ hashPath) (hs : UsesPaths logPath hashPath service)
    (henabled : service.enableAudit = true) {record : AuditRecord F}
    (hdetails : (Json.obj record.details).WellFormed) :
    (s.recordUntil fmt sha256 service record .recorded).Holds fmt sha256 logPath hashPath
      (records ++ [record]) := by
  rw [recordUntil, if_pos henabled]
  refine ⟨h.files.recordHash hdigest hpath hs record, fun r hr => ?_, ?_⟩
  · rcases List.mem_append.mp hr with hr | hr
    · exact h.details r hr
    · rw [List.mem_singleton.mp hr]
      exact hdetails
  · show s.auditLog ++ [record] = s.appended ++ [record]
    rw [h.remembered]

theorem Holds.step {records : List (AuditRecord F)}
    (h : s.Holds fmt sha256 logPath hashPath records) (hdigest : ∀ t, IsDigest (sha256 t))
    (hpath : logPath ≠ hashPath) (hs : UsesPaths logPath hashPath service)
    (henabled : service.enableAudit = true) {ev : AuditEvent F} (hev : Whole ev) :
    ∃ records', (s.step fmt sha256 service ev).Holds fmt sha256 logPath hashPath records' := by
  cases ev with
  | returns record => exact ⟨_, h.recorded hdigest hpath hs henabled hev⟩
  | raises record point =>
    rcases hev with rfl | ⟨rfl, hdetails⟩
    · refine ⟨records, ?_⟩
      rw [AuditSession.step, recordUntil, if_pos henabled]
      exact h
    · exact ⟨_, h.recorded hdigest hpath hs henabled hdetails⟩
  | crashes record point =>
    -- the memory of the object is lost, whatever it was
    rcases hev with rfl | rfl | ⟨rfl, hdetails⟩
    · refine ⟨records, ?_, h.details, rfl⟩
      rw [AuditSession.step, recordUntil, if_pos henabled]
      exact h.files
    · refine ⟨records, ?_, h.details, rfl⟩
      rw [AuditSession.step, recordUntil, if_pos henabled]
      exact h.files
    · have hrecorded := h.recorded hdigest hpath hs henabled hdetails
      exact ⟨_, hrecorded.files, hrecorded.details, rfl⟩

theorem Holds.run (hdigest : ∀ t, IsDigest (sha256 t)) (hpath : logPath ≠ hashPath)
    (hs : UsesPaths logPath hashPath service) (henabled : service.enableAudit = true)
    {es : List (AuditEvent F)} (hes : ∀ ev ∈ es, Whole ev) :
    ∃ records, (run fmt sha256 service es).Holds fmt sha256 logPath hashPath records := by
  unfold AuditSession.run
  induction es using List.reverseRecOn with
  | nil =>
    refine ⟨[], ⟨rfl, rfl, fun h => absurd rfl h⟩, fun r hr => ?_, rfl⟩
    cases hr
  | append_singleton es ev ih =>
    obtain ⟨records, h⟩ := ih fun e he => hes e (List.mem_append_left _ he)
    rw [List.foldl_append]
    exact h.step hdigest hpath hs henabled (hes ev (by simp))

end AuditSession

open AuditSession

/-- After a sequence of calls of which none stops halfway, a call that returns leaves a log that
verifies and holds what its service object remembers. -/
theorem audit_survives (fmt : FloatFormat F) (sha256 : Text → Text)
    (service : BonusSecurityService) (logPath hashPath : String)
    (hdigest : ∀ t, IsDigest (sha256 t)) (hpath : logPath ≠ hashPath)
    (hs : UsesPaths logPath hashPath service) (henabled : service.enableAudit = true)
    (es : List (AuditEvent F)) (record : AuditRecord F)
    (hes : ∀ ev ∈ es ++ [.returns record], Whole ev) :
    (run fmt sha256 service (es ++ [.returns record])).Survived fmt sha256 service := by
  have hholds : ∃ records, (run fmt sha256 service es).Holds fmt sha256 logPath hashPath records :=
    Holds.run hdigest hpath hs henabled fun ev hev => hes ev (List.mem_append_left _ hev)
  obtain ⟨records, h⟩ := hholds
  have hlast := h.recorded hdigest hpath hs henabled (hes (.returns record) (by simp))
  have hrun : run fmt sha256 service (es ++ [.returns record]) =
      (run fmt sha256 service es).recordUntil fmt sha256 service record .recorded := by
    unfold AuditSession.run
    rw [List.foldl_append]
    rfl
  rw [hrun]
  exact ⟨hlast.files.verifies hdigest hs (by simp) hlast.details, hlast.remembered⟩

/-! ## Concrete runs -/

def sampleRecord (timestamp action : String) : AuditRecord Unit where
  timestamp := Json.ofString timestamp
  action := Json.ofString action
  actor := Json.ofString "n1"
  resource := Json.ofString "p"
  result := Json.ofString "ok"
  details := []

/-- SHA-256 on what is hashed for two such records, which differ in length. -/
def failureSha256 (t : Text) : Text :=
  hexDigest <| match t.length with
  | 92 => 0x662d1ba9d3a428d940101af8652b21f9fc9c27a5f348b915cd327b6e374159d6
  | 89 => 0xe7028d077648b61de89b80d2483a1c8aaf0de4de3f58cd2bc5f878309f018098
  | 153 => 0x1f4d646a99f0434783249b50abaa3042b1b7ebd0250315c571e3435bd124ed25
  | _ => 0xe3b0c44298fc1c149afbf4c8996fb92427ae41e4649b934ca495991b7852b855

theorem sampleRecord_details (timestamp action : String) :
    (Json.obj (sampleRecord timestamp action).details).WellFormed :=
  Json.wellFormed_obj.mpr ⟨List.nodup_nil, fun f hf => by cases hf⟩

/-- A call dies before it has written anything, and another one raises at once. -/
theorem audit_survives_two :
    (run sampleFormat failureSha256 sampleService
      ([.returns (sampleRecord "t1" "encrypt"), .raises (sampleRecord "t1" "decrypt") .started,
        .crashes (sampleRecord "t1" "decrypt") .remembered] ++
          [.returns (sampleRecord "t2" "read")])).Survived
      sampleFormat failureSha256 sampleService := by
  refine audit_survives sampleFormat failureSha256 sampleService "audit.log" "audit.hash"
    (fun _ => isDigest_hexDigest _) (by decide) ⟨rfl, rfl⟩ rfl _ _ fun ev hev => ?_
  simp only [List.cons_append, List.nil_append, List.mem_cons, List.not_mem_nil, or_false] at hev
  rcases hev with rfl | rfl | rfl | rfl
  · exact sampleRecord_details _ _
  · exact Or.inl rfl
  · exact Or.inr (Or.inl rfl)
  · exact sampleRecord_details _ _

/-- The disk is full when the first digest is to be written. -/
theorem audit_survives_fails : ¬∀ (es : List (AuditEvent Unit)) (record : AuditRecord Unit),
    (Json.obj record.details).WellFormed →
      (run sampleFormat failureSha256 sampleService (es ++ [.returns record])).Survived
        sampleFormat failureSha256 sampleService := by
  intro h
  have hs := h [.raises (sampleRecord "t1" "encrypt") .logged] (sampleRecord "t2" "read")
    (sampleRecord_details _ _)
  have := hs.verifies
  revert this
  decide +kernel

end DistributedSync
