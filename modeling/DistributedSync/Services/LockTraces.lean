import DistributedSync.Services.LockOrder

/-!
# What a failed request leaves behind

A call of `acquire_lock` that waits stands in `lock_queue`, and has an edge in the wait graph. None
of the exits of its polling loop takes them away again but the successful one. So a call that fails
leaves no trace if it fails without having waited (`failed_noTrace`).

A run is compared with the queues and the graph as they would be without the steps of the call.
-/

namespace DistributedSync

open DistributedLockManager

/-! ## Runs with and without a call -/

def LockRun.runs? (s : LockRun) : LockEvent → Option AcquireLock
  | .start _ (.acquireLock a) => some a
  | .start _ (.wake k) => s.manager.waiting[k]?.map Prod.fst
  | .start _ (.releaseLock _) => none
  | .resume _ k _ => s.calls[k]?.bind Frame.acquires
  | .commit _ | .detect _ => none

def LockRun.ofCall (s : LockRun) (lockId : String) (e : LockEvent) : Bool :=
  (s.runs? e).any fun a => a.lockId = lockId

/-- A run, and what a call has done so far: `lockQueue` and `waitGraph` are those of the run without
its steps. -/
structure CallRun where
  run : LockRun := {}
  lockQueue : List (Value × List (Value × LockType × Value)) := []
  waitGraph : LockWaitGraph := []
  begun : Bool := false
  failed : Bool := false

namespace CallRun

def without (s : CallRun) : LockRun :=
  { s.run with
    manager := { s.run.manager with lockQueue := s.lockQueue, waitGraph := s.waitGraph } }

end CallRun

def Mark.isFailed : Mark → Bool
  | .failed _ => true
  | _ => false

/-- A step of a run, seen from the call with the id. -/
def callStep (lockId : String) (s : CallRun) (e : LockEvent) : Option CallRun :=
  if s.run.ofCall lockId e then
    (lockStep s.run e).map fun r =>
      { s with run := r, begun := true, failed := s.failed || (s.run.marks e).any Mark.isFailed }
  else
    (lockStep s.run e).bind fun r => (lockStep s.without e).map fun w =>
      { s with run := r, lockQueue := w.manager.lockQueue, waitGraph := w.manager.waitGraph }

/-- No tuple of the call is in the queues, and queues and edges are as they would be without it. -/
structure NoTrace (lockId : String) (s : CallRun) : Prop where
  noTuple : ∀ r, ∀ t ∈ s.run.manager.queue r, (t.2.2 == .str lockId) = false
  queues : ∀ r, s.run.manager.queue r = s.without.manager.queue r
  edges : ∀ u v, s.run.manager.waitGraph.HasEdge u v ↔ s.without.manager.waitGraph.HasEdge u v

/-- `uuid4` draws the id of a call once. -/
def DrawnOnce (lockId : String) (s : CallRun) : LockEvent → Prop
  | .start _ (.acquireLock a) => a.lockId = lockId → s.begun = false
  | _ => True

/-- The polling loop of a call that cannot get its lock yet goes on. -/
def AcquireLock.patient (a : AcquireLock) (startTime now : ℚ) : Bool :=
  a.timeout.num?.any fun timeout => now - startTime ≤ timeout

/-- Where the polling loop of a call ends, and what it does then. -/
def DistributedLockManager.Frame.waits? : Frame → Option (AcquireLock × ℚ)
  | .acquireWaiting a startTime => some (a, startTime)
  | _ => none

/-- The call does not fail once it has joined a queue: the edge to the holder can be added, its
timeout is a number that has not passed when it finds the resource taken or its entry refused, its
`append_entry` call does not raise, and its edges can be removed. -/
def KeepsWaiting (lockId : String) (s : CallRun) : LockEvent → Prop
  | .start now (.acquireLock a) => a.lockId = lockId → s.run.manager.queues a = true →
      (∀ holder ∈ s.run.manager.getLockHolder a.resource, holder.truthy = true →
        a.clientId.hashable = true ∧ holder.hashable = true) ∧ a.patient now now = true
  | .start now (.wake k) => ∀ w ∈ s.run.manager.waiting[k]?, w.1.lockId = lockId →
      s.run.manager.tryAcquire w.1.resource w.1.lockType = true ∨ w.1.patient w.2 now = true
  | .resume now k r => ∀ w ∈ s.run.calls[k]?.bind Frame.waits?, w.1.lockId = lockId →
      r ≠ .raised ∧ (r = .returned false → w.1.patient w.2 now = true) ∧
        (r = .returned true → w.1.clientId.hashable = true)
  | _ => True

/-! ## Whose steps they are -/

variable {s t : LockRun} {e : LockEvent}

theorem mem_enqueue {m : DistributedLockManager} {a : AcquireLock} {r : Value}
    {x : Value × LockType × Value} (hx : x ∈ (m.enqueue a).queue r) :
    x ∈ m.queue r ∨ x = a.tuple := by
  rw [queue, enqueue, lookup_setItem] at hx
  split at hx
  · next hr =>
    rcases List.mem_append.mp hx with hx | hx
    · rw [queue, lookup_congr hr]
      exact Or.inl hx
    · exact Or.inr (List.mem_singleton.mp hx)
  · exact Or.inl hx

/-- What a step adds to the calls asleep, to those at `append_entry` and to the queues belongs to
the call that it runs. -/
structure Owned (s t : LockRun) (e : LockEvent) : Prop where
  waiting : ∀ w ∈ t.manager.waiting, w ∈ s.manager.waiting ∨ s.runs? e = some w.1
  calls : ∀ frame ∈ t.calls, frame ∈ s.calls ∨ ∀ a ∈ frame.acquires, s.runs? e = some a
  queues : ∀ r, ∀ x ∈ t.manager.queue r, x ∈ s.manager.queue r ∨
    ∃ a, s.runs? e = some a ∧ x = a.tuple

theorem Owned.ran {s' : LockRun} {r : DistributedLockManager × Outcome Frame Result}
    (hcalls : ∀ frame ∈ s'.calls, frame ∈ s.calls)
    (hwaiting : ∀ w ∈ r.1.waiting, w ∈ s.manager.waiting ∨ s.runs? e = some w.1)
    (hframe : ∀ frame ∈ r.2.frame?.toList, ∀ a ∈ frame.acquires, s.runs? e = some a)
    (hqueues : ∀ q, ∀ x ∈ r.1.queue q, x ∈ s.manager.queue q ∨
      ∃ a, s.runs? e = some a ∧ x = a.tuple) : Owned s (s'.ran r) e := by
  refine ⟨hwaiting, fun frame hf => ?_, hqueues⟩
  exact (List.mem_append.mp hf).imp (hcalls frame) (hframe frame)

theorem releaseLock_owned (lockId : Value) (victims : List (Value × DistributedLockManager)) :
    Owned s ({ s with victims }.ran (s.manager.releaseLock lockId)) e := by
  obtain ⟨hm, -, -⟩ := releaseLock_spec s.manager lockId
  refine .ran (fun _ hf => hf) (fun w hw => Or.inl (hm ▸ hw)) (fun frame hf a ha => ?_)
    fun q x hx => Or.inl (hm ▸ hx)
  unfold releaseLock at hf
  split at hf
  · split at hf
    · cases List.mem_singleton.mp hf
      cases ha
    · cases hf
  · cases hf

theorem acquireLock_owned (a : AcquireLock) (now : ℚ) :
    Owned s (s.ran (s.manager.acquireLock a now)) (.start now (.acquireLock a)) := by
  have hqueues : ∀ g, ∀ q, ∀ x ∈ queue { s.manager.enqueue a with waitGraph := g } q,
      x ∈ s.manager.queue q ∨ ∃ b, s.runs? (.start now (.acquireLock a)) = some b ∧ x = b.tuple :=
    fun g q x hx => (mem_enqueue hx).imp_right fun h => ⟨a, rfl, h⟩
  rcases acquireLock_cases s.manager a now with
    ⟨-, heq⟩ | ⟨-, -, heq⟩ | ⟨-, g, heq | heq⟩ <;> rw [heq]
  · refine .ran (fun _ hf => hf) (fun _ hw => Or.inl hw) (fun frame hf b hb => ?_)
      fun _ _ hx => Or.inl hx
    cases List.mem_singleton.mp hf
    cases hb
    rfl
  · exact .ran (fun _ hf => hf) (fun _ hw => Or.inl hw) (fun _ hf => nomatch hf)
      fun _ _ hx => Or.inl hx
  · exact .ran (fun _ hf => hf) (fun _ hw => Or.inl hw) (fun _ hf => nomatch hf) (hqueues g)
  · refine .ran (fun _ hf => hf) (fun w hw => ?_) (fun _ hf => nomatch hf) (hqueues g)
    refine (List.mem_append.mp hw).imp_right fun hw => ?_
    rw [List.mem_singleton.mp hw]
    rfl

theorem wake_owned {k : ℕ} {v : AcquireLock × ℚ} (hv : s.manager.waiting[k]? = some v) (now : ℚ) :
    Owned s (s.ran ({ s.manager with waiting := s.manager.waiting.eraseIdx k }.poll v.1 v.2 now))
      (.start now (.wake k)) := by
  have hruns : s.runs? (.start now (.wake k)) = some v.1 := by
    rw [LockRun.runs?, hv]
    rfl
  have hrest : ∀ w ∈ s.manager.waiting.eraseIdx k, w ∈ s.manager.waiting :=
    fun _ hw => List.mem_of_mem_eraseIdx hw
  rcases poll_cases { s.manager with waiting := s.manager.waiting.eraseIdx k } v.1 v.2 now with
    ⟨-, heq⟩ | heq | heq <;> rw [heq]
  · refine .ran (fun _ hf => hf) (fun w hw => Or.inl (hrest w hw)) (fun frame hf b hb => ?_)
      fun _ _ hx => Or.inl hx
    cases List.mem_singleton.mp hf
    cases hb
    exact hruns
  · exact .ran (fun _ hf => hf) (fun w hw => Or.inl (hrest w hw)) (fun _ hf => nomatch hf)
      fun _ _ hx => Or.inl hx
  · refine .ran (fun _ hf => hf) (fun w hw => ?_) (fun _ hf => nomatch hf) fun _ _ hx => Or.inl hx
    refine (List.mem_append.mp hw).imp (hrest w) fun hw => ?_
    rw [List.mem_singleton.mp hw, hruns]

theorem resume_owned {k : ℕ} {frame : Frame} (hframe : s.calls[k]? = some frame) (now : ℚ)
    (r : Appended) : Owned s ({ s with calls := s.calls.eraseIdx k }.ran
      (s.manager.resume now frame r)) (.resume now k r) := by
  have hrest : ∀ f ∈ s.calls.eraseIdx k, f ∈ s.calls := fun _ hf => List.mem_of_mem_eraseIdx hf
  rcases resume_cases s.manager now frame r with ⟨g, result, heq⟩ | ⟨a, startTime, rfl, heq⟩ <;>
    rw [heq]
  · exact .ran hrest (fun _ hw => Or.inl hw) (fun _ hf => nomatch hf) fun _ _ hx => Or.inl hx
  · refine .ran hrest (fun w hw => ?_) (fun _ hf => nomatch hf) fun _ _ hx => Or.inl hx
    refine (List.mem_append.mp hw).imp_right fun hw => ?_
    rw [List.mem_singleton.mp hw, LockRun.runs?, hframe]
    rfl

theorem lockStep_owned (hs : lockStep s e = some t) : Owned s t e := by
  cases e with
  | start now op =>
    cases op with
    | acquireLock a =>
      cases hs
      exact acquireLock_owned a now
    | wake k =>
      obtain ⟨r, hr, rfl⟩ := Option.map_eq_some_iff.mp hs
      obtain ⟨v, hv, rfl⟩ := Option.map_eq_some_iff.mp hr
      exact wake_owned hv now
    | releaseLock lockId =>
      cases hs
      exact releaseLock_owned lockId s.victims
  | resume now k r =>
    obtain ⟨frame, hframe, rfl⟩ := Option.map_eq_some_iff.mp hs
    exact resume_owned hframe now r
  | commit entry =>
    cases hs
    refine ⟨fun w hw => Or.inl (handleCommit_waiting .. ▸ hw), fun _ hf => Or.inl hf, ?_⟩
    intro q x hx
    obtain ⟨p, hq, -⟩ := handleCommit_queue s.manager entry q
    rw [hq] at hx
    exact Or.inl (List.mem_of_mem_filter hx)
  | detect sets =>
    unfold lockStep at hs
    dsimp only at hs
    split at hs
    · cases hs
      exact releaseLock_owned _ _
    · cases hs
      exact ⟨fun _ hw => Or.inl hw, fun _ hf => Or.inl hf, fun _ _ hx => Or.inl hx⟩

/-! ## A call that keeps waiting -/

section Patience

variable {m : DistributedLockManager} {a : AcquireLock} {now startTime : ℚ}

theorem checkTimeout_patient (h : a.patient startTime now = true) :
    m.checkTimeout a startTime now =
      ({ m with waiting := m.waiting ++ [(a, startTime)] }, .sleep) := by
  unfold AcquireLock.patient at h
  unfold checkTimeout
  rcases htimeout : a.timeout.num? with _ | timeout
  · rw [htimeout] at h
    cases h
  · rw [htimeout, Option.any_some, decide_eq_true_eq] at h
    dsimp only
    rw [if_neg (Rat.not_lt.mpr h)]

theorem acquireLock_patient (hq : m.queues a = true)
    (hedge : ∀ holder ∈ m.getLockHolder a.resource, holder.truthy = true →
      a.clientId.hashable = true ∧ holder.hashable = true) (h : a.patient now now = true) :
    (m.acquireLock a now).2 = .sleep := by
  rw [queues, Bool.and_eq_true, Bool.not_eq_true'] at hq
  obtain ⟨htry, hkey⟩ := hq
  have hgraph : ∃ g, (m.enqueue a).waitForHolder a =
      ({ m.enqueue a with waitGraph := g }, false) := by
    unfold waitForHolder
    split
    · next holder hholder =>
      split
      · next ht =>
        obtain ⟨hc, hh⟩ := hedge holder hholder ht
        refine ⟨((m.enqueue a).waitGraph.addEdge a.clientId holder).1, Prod.ext rfl ?_⟩
        dsimp only
        unfold LockWaitGraph.addEdge
        rw [if_pos hc]
        dsimp only
        rw [if_pos hh]
      · exact ⟨m.waitGraph, rfl⟩
    · exact ⟨m.waitGraph, rfl⟩
  obtain ⟨g, hg⟩ := hgraph
  have htry' : tryAcquire { m.enqueue a with waitGraph := g } a.resource a.lockType = false := htry
  rw [acquireLock, htry, if_neg Bool.false_ne_true, if_pos hkey, hg]
  dsimp only
  rw [if_neg Bool.false_ne_true, poll, htry', if_neg Bool.false_ne_true, checkTimeout_patient h]

theorem poll_patient
    (h : m.tryAcquire a.resource a.lockType = true ∨ a.patient startTime now = true) :
    (m.poll a startTime now).2 = .append (.acquireWaiting a startTime) ∨
      (m.poll a startTime now).2 = .sleep := by
  unfold poll
  cases htry : m.tryAcquire a.resource a.lockType
  · rw [htry] at h
    rw [if_neg Bool.false_ne_true, checkTimeout_patient (h.resolve_left Bool.false_ne_true)]
    exact Or.inr rfl
  · exact Or.inl rfl

theorem resume_patient {r : Appended} (hraised : r ≠ .raised)
    (hfalse : r = .returned false → a.patient startTime now = true)
    (htrue : r = .returned true → a.clientId.hashable = true) :
    (m.resume now (.acquireWaiting a startTime) r).2.marks = [] := by
  rcases r with ⟨_ | _⟩ | _
  · rw [resume, checkTimeout_patient (hfalse rfl)]
    rfl
  · have hok : (m.waitGraph.removeEdges a.clientId).2 = false := by
      rw [LockWaitGraph.removeEdges, if_pos (htrue rfl)]
    rw [resume]
    dsimp only
    rw [hok]
    rfl
  · exact absurd rfl hraised

end Patience

/-! ## Runs -/

/-- As long as the call has not joined a queue, it makes no difference. -/
structure Unqueued (lockId : String) (s : CallRun) : Prop where
  queue : s.lockQueue = s.run.manager.lockQueue
  graph : s.waitGraph = s.run.manager.waitGraph
  waiting : ∀ w ∈ s.run.manager.waiting, w.1.lockId ≠ lockId
  calls : ∀ w ∈ s.run.calls.filterMap Frame.waits?, w.1.lockId ≠ lockId
  idle : s.begun = false → s.failed = false ∧
    ∀ frame ∈ s.run.calls, ∀ a ∈ frame.acquires, a.lockId ≠ lockId

/-- Once it has joined a queue, it does not fail. -/
structure Queued (lockId : String) (s : CallRun) : Prop where
  begun : s.begun = true
  failed : s.failed = false
  calls : ∀ a, .acquire a ∈ s.run.calls → a.lockId ≠ lockId

variable {lockId : String} {c c' : CallRun}

theorem Unqueued.without_eq (h : Unqueued lockId c) : c.without = c.run := by
  rw [CallRun.without, h.queue, h.graph]

theorem callStep_own (hown : c.run.ofCall lockId e = true) (hs : callStep lockId c e = some c') :
    ∃ r, lockStep c.run e = some r ∧ c' = { c with
      run := r, begun := true, failed := c.failed || (c.run.marks e).any Mark.isFailed } := by
  rw [callStep, if_pos hown] at hs
  obtain ⟨r, hr, rfl⟩ := Option.map_eq_some_iff.mp hs
  exact ⟨r, hr, rfl⟩

theorem callStep_other (hown : c.run.ofCall lockId e = false)
    (hs : callStep lockId c e = some c') :
    ∃ r w, lockStep c.run e = some r ∧ lockStep c.without e = some w ∧ c' = { c with
      run := r, lockQueue := w.manager.lockQueue, waitGraph := w.manager.waitGraph } := by
  rw [callStep, hown, if_neg Bool.false_ne_true] at hs
  obtain ⟨r, hr, hs⟩ := Option.bind_eq_some_iff.mp hs
  obtain ⟨w, hw, rfl⟩ := Option.map_eq_some_iff.mp hs
  exact ⟨r, w, hr, hw, rfl⟩

theorem ofCall_iff : s.ofCall lockId e = true ↔ ∃ a, s.runs? e = some a ∧ a.lockId = lockId := by
  simp [LockRun.ofCall, Option.any_eq_true]

theorem ne_of_other {a : AcquireLock} (hown : s.ofCall lockId e = false)
    (ha : s.runs? e = some a) : a.lockId ≠ lockId := by
  intro heq
  rw [ofCall_iff.mpr ⟨a, ha, heq⟩] at hown
  cases hown

theorem Unqueued.other (h : Unqueued lockId c) (hown : c.run.ofCall lockId e = false)
    (hs : callStep lockId c e = some c') : Unqueued lockId c' := by
  obtain ⟨r, w, hr, hw, rfl⟩ := callStep_other hown hs
  rw [h.without_eq, hr] at hw
  cases hw
  obtain ⟨hwaiting, hcalls, -⟩ := lockStep_owned hr
  refine ⟨rfl, rfl, fun w hw => ?_, fun w hw => ?_, fun hb => ⟨(h.idle hb).1, ?_⟩⟩
  · exact (hwaiting w hw).elim (h.waiting w) (ne_of_other hown)
  · obtain ⟨frame, hf, hfw⟩ := List.mem_filterMap.mp hw
    rcases hcalls frame hf with hf | hf
    · exact h.calls w (List.mem_filterMap.mpr ⟨frame, hf, hfw⟩)
    · cases frame with
      | acquireWaiting a startTime =>
        cases hfw
        exact ne_of_other hown (hf a rfl)
      | acquire _ | release _ => cases hfw
  · intro frame hf a ha
    rcases hcalls frame hf with hf | hf
    · exact (h.idle hb).2 frame hf a ha
    · exact ne_of_other hown (hf a ha)

theorem Queued.other (h : Queued lockId c) (hown : c.run.ofCall lockId e = false)
    (hs : callStep lockId c e = some c') : Queued lockId c' := by
  obtain ⟨r, w, hr, -, rfl⟩ := callStep_other hown hs
  refine ⟨h.begun, h.failed, fun a ha => ?_⟩
  rcases (lockStep_owned hr).calls _ ha with hf | hf
  · exact h.calls a hf
  · exact ne_of_other hown (hf a rfl)

theorem Unqueued.begins {a : AcquireLock} {now : ℚ} (h : Unqueued lockId c)
    (ha : a.lockId = lockId) (hd : DrawnOnce lockId c (.start now (.acquireLock a)))
    (hk : KeepsWaiting lockId c (.start now (.acquireLock a)))
    (hs : callStep lockId c (.start now (.acquireLock a)) = some c') :
    Unqueued lockId c' ∨ Queued lockId c' := by
  obtain ⟨hfailed, hidle⟩ := h.idle (hd ha)
  obtain ⟨r, hr, rfl⟩ := callStep_own (ofCall_iff.mpr ⟨a, rfl, ha⟩) hs
  cases hr
  rcases acquireLock_cases c.run.manager a now with
    ⟨-, heq⟩ | ⟨-, -, heq⟩ | ⟨hq, g, heq | heq⟩
  · left
    rw [heq]
    refine ⟨h.queue, h.graph, h.waiting, fun w hw => h.calls w ?_, fun hb => by cases hb⟩
    have hw' : w ∈ (c.run.calls ++ [Frame.acquire a]).filterMap Frame.waits? := hw
    rw [List.filterMap_append] at hw'
    exact (List.append_nil _).subst hw'
  · left
    rw [heq]
    refine ⟨h.queue, h.graph, h.waiting, fun w hw => h.calls w ?_, fun hb => by cases hb⟩
    exact (List.append_nil c.run.calls).subst (motive := fun l => w ∈ l.filterMap Frame.waits?) hw
  · have hsleep := acquireLock_patient hq (hk ha hq).1 (hk ha hq).2
    rw [heq] at hsleep
    cases hsleep
  · right
    have hmarks : c.run.marks (.start now (.acquireLock a)) = [.began a, .queued a] := by
      show (_ :: if c.run.manager.queues a then _ else _) ++
        (c.run.manager.acquireLock a now).2.marks = _
      rw [heq, hq]
      rfl
    refine ⟨rfl, ?_, fun b hb => ?_⟩
    · rw [hmarks, hfailed]
      rfl
    · have hb' : .acquire b ∈ (c.run.ran (c.run.manager.acquireLock a now)).calls := hb
      rw [heq] at hb'
      exact hidle _ ((List.append_nil _).subst hb') b rfl

theorem Unqueued.resumes (h : Unqueued lockId c) (hown : c.run.ofCall lockId e = true)
    (hbegin : ∀ now a, e ≠ .start now (.acquireLock a)) (hs : callStep lockId c e = some c') :
    Unqueued lockId c' := by
  obtain ⟨r, hr, rfl⟩ := callStep_own hown hs
  obtain ⟨a, hruns, ha⟩ := ofCall_iff.mp hown
  cases e with
  | start now op =>
    cases op with
    | acquireLock a => exact absurd rfl (hbegin now a)
    | wake k =>
      obtain ⟨w, hw, rfl⟩ := Option.map_eq_some_iff.mp hruns
      exact absurd ha (h.waiting w (List.mem_of_getElem? hw))
    | releaseLock lockId => cases hruns
  | resume now k x =>
    obtain ⟨frame, hframe, hacq⟩ := Option.bind_eq_some_iff.mp hruns
    obtain ⟨frame', hframe', rfl⟩ := Option.map_eq_some_iff.mp hr
    cases hframe.symm.trans hframe'
    have hmem := List.mem_of_getElem? hframe
    cases frame with
    | acquire b =>
      refine ⟨h.queue, h.graph, h.waiting, fun w hw => h.calls w ?_, fun hb => by cases hb⟩
      have hw' : w ∈ (c.run.calls.eraseIdx k ++ []).filterMap Frame.waits? := hw
      rw [List.append_nil] at hw'
      exact ((List.eraseIdx_sublist _ k).filterMap _).mem hw'
    | acquireWaiting b startTime =>
      cases hacq
      exact absurd ha (h.calls (a, startTime) (List.mem_filterMap.mpr ⟨_, hmem, rfl⟩))
    | release lockId => cases hacq
  | commit entry => cases hruns
  | detect sets => cases hruns

theorem Queued.own (h : Queued lockId c) (hown : c.run.ofCall lockId e = true)
    (hd : DrawnOnce lockId c e) (hk : KeepsWaiting lockId c e)
    (hs : callStep lockId c e = some c') : Queued lockId c' := by
  obtain ⟨r, hr, rfl⟩ := callStep_own hown hs
  obtain ⟨a, hruns, ha⟩ := ofCall_iff.mp hown
  cases e with
  | start now op =>
    cases op with
    | acquireLock a =>
      cases hruns
      exact absurd (h.begun.symm.trans (hd ha)) Bool.noConfusion
    | wake k =>
      obtain ⟨w, hw, rfl⟩ := Option.map_eq_some_iff.mp hruns
      obtain ⟨u, hu, rfl⟩ := Option.map_eq_some_iff.mp hr
      obtain ⟨v, hv, rfl⟩ := Option.map_eq_some_iff.mp hu
      cases hw.symm.trans hv
      set m := { c.run.manager with waiting := c.run.manager.waiting.eraseIdx k } with hm
      have hmarks : c.run.marks (.start now (.wake k)) = (m.poll w.1 w.2 now).2.marks := by
        simp only [LockRun.marks, Op.acquires?, start, hw, Option.map_some, List.nil_append, hm]
      have hpoll := poll_patient (m := m) (hk w hw ha)
      refine ⟨rfl, ?_, fun b hb => ?_⟩
      · rw [hmarks, h.failed]
        rcases hpoll with heq | heq <;> rw [heq] <;> rfl
      · refine (List.mem_append.mp hb).elim (h.calls b) fun hb => ?_
        rcases hpoll with heq | heq <;> rw [heq] at hb
        · cases List.mem_singleton.mp hb
        · cases hb
    | releaseLock lockId => cases hruns
  | resume now k x =>
    obtain ⟨frame, hframe, hacq⟩ := Option.bind_eq_some_iff.mp hruns
    obtain ⟨frame', hframe', rfl⟩ := Option.map_eq_some_iff.mp hr
    cases hframe.symm.trans hframe'
    have hmem := List.mem_of_getElem? hframe
    cases frame with
    | acquire b =>
      cases hacq
      exact absurd ha (h.calls a hmem)
    | acquireWaiting b startTime =>
      cases hacq
      obtain ⟨hraised, hfalse, htrue⟩ := hk (a, startTime) (by rw [hframe]; rfl) ha
      have hmarks : c.run.marks (.resume now k x) =
          (c.run.manager.resume now (.acquireWaiting a startTime) x).2.marks := by
        simp only [LockRun.marks, hframe]
      refine ⟨rfl, ?_, fun b hb => ?_⟩
      · rw [hmarks, h.failed, resume_patient hraised hfalse htrue]
        rfl
      · rcases List.mem_append.mp hb with hb | hb
        · exact h.calls b (List.mem_of_mem_eraseIdx hb)
        · rcases resume_cases c.run.manager now (.acquireWaiting a startTime) x with
            ⟨_, _, heq⟩ | ⟨_, _, _, heq⟩ <;> rw [heq] at hb <;> cases hb
    | release lockId => cases hacq
  | commit entry => cases hruns
  | detect sets => cases hruns

/-- Without the call, no tuple carries its id. -/
theorem noTuple_step (hs : callStep lockId c e = some c')
    (h : ∀ r, ∀ t ∈ c.without.manager.queue r, (t.2.2 == .str lockId) = false) :
    ∀ r, ∀ t ∈ c'.without.manager.queue r, (t.2.2 == .str lockId) = false := by
  cases hown : c.run.ofCall lockId e
  · obtain ⟨r, w, -, hw, rfl⟩ := callStep_other hown hs
    intro q t ht
    rcases (lockStep_owned hw).queues q t ht with ht | ⟨a, ha, rfl⟩
    · exact h q t ht
    · have hne : a.lockId ≠ lockId := ne_of_other (s := c.without) hown ha
      exact Bool.eq_false_iff.mpr fun heq => hne (Value.str_beq_str.mp heq)
  · obtain ⟨r, -, rfl⟩ := callStep_own hown hs
    exact h

/-- A call that fails leaves no trace, in every run in which it does not fail after it has joined a
queue. -/
theorem failed_noTrace (lockId : String) {c : CallRun}
    (h : Runs.Reach (callStep lockId) (fun c e => DrawnOnce lockId c e ∧ KeepsWaiting lockId c e)
      {} c) (hfailed : c.failed = true) : NoTrace lockId c := by
  have hinv : (Unqueued lockId c ∨ Queued lockId c) ∧
      ∀ r, ∀ t ∈ c.without.manager.queue r, (t.2.2 == .str lockId) = false := by
    refine h.invariant (P := fun c => (Unqueued lockId c ∨ Queued lockId c) ∧
      ∀ r, ∀ t ∈ c.without.manager.queue r, (t.2.2 == .str lockId) = false)
      ⟨Or.inl ⟨rfl, rfl, by simp, by simp, fun _ => ⟨rfl, by simp⟩⟩,
        by simp [CallRun.without, queue]⟩ ?_
    rintro t e u ⟨hphase, hqueue⟩ ⟨hd, hk⟩ hs
    refine ⟨?_, noTuple_step hs hqueue⟩
    cases hown : t.run.ofCall lockId e
    · exact hphase.imp (·.other hown hs) (·.other hown hs)
    · rcases hphase with hphase | hphase
      · by_cases hbegin : ∃ now a, e = .start now (.acquireLock a)
        · obtain ⟨now, a, rfl⟩ := hbegin
          obtain ⟨b, hb, ha⟩ := ofCall_iff.mp hown
          cases hb
          exact hphase.begins ha hd hk hs
        · exact Or.inl (hphase.resumes hown (fun now a heq => hbegin ⟨now, a, heq⟩) hs)
      · exact Or.inr (hphase.own hown hd hk hs)
  obtain ⟨hun | hq, hqueue⟩ := hinv
  · have hsame := hun.without_eq
    exact ⟨fun r t ht => hqueue r t (hsame ▸ ht), fun r => by rw [hsame], fun u v => by rw [hsame]⟩
  · rw [hq.failed] at hfailed
    cases hfailed

/-! ### A call that times out, and one that is refused at once -/

instance (lockId : String) (c : CallRun) : ∀ e, Decidable (DrawnOnce lockId c e)
  | .start _ (.acquireLock a) => inferInstanceAs (Decidable (a.lockId = lockId → c.begun = false))
  | .start _ (.wake _) | .start _ (.releaseLock _) | .resume _ _ _ | .commit _ | .detect _ =>
    inferInstanceAs (Decidable True)

instance (lockId : String) (c : CallRun) : ∀ e, Decidable (KeepsWaiting lockId c e)
  | .start now (.acquireLock a) => inferInstanceAs (Decidable (a.lockId = lockId →
      c.run.manager.queues a = true →
        (∀ holder ∈ c.run.manager.getLockHolder a.resource, holder.truthy = true →
          a.clientId.hashable = true ∧ holder.hashable = true) ∧ a.patient now now = true))
  | .start now (.wake k) => inferInstanceAs (Decidable
      (∀ w ∈ c.run.manager.waiting[k]?, w.1.lockId = lockId →
        c.run.manager.tryAcquire w.1.resource w.1.lockType = true ∨ w.1.patient w.2 now = true))
  | .resume now k r => inferInstanceAs (Decidable
      (∀ w ∈ c.run.calls[k]?.bind Frame.waits?, w.1.lockId = lockId →
        r ≠ .raised ∧ (r = .returned false → w.1.patient w.2 now = true) ∧
          (r = .returned true → w.1.clientId.hashable = true)))
  | .start _ (.releaseLock _) | .commit _ | .detect _ => inferInstanceAs (Decidable True)

def timingOut : List LockEvent :=
  acquiring (lockCall "A" .exclusive "r" "l0") ++
    [.start 0 (.acquireLock (lockCall "B" .exclusive "r" "l1")), .start 31 (.wake 0)]

theorem failed_leavesTrace : ¬ ∀ (lockId : String) (c : CallRun),
    Runs.Reach (callStep lockId) (DrawnOnce lockId) {} c → c.failed = true → NoTrace lockId c := by
  intro h
  obtain ⟨c, hc, hfailed, x, hx, hid⟩ := Runs.exists_of_checked (callStep "l1") (DrawnOnce "l1")
    {} timingOut (fun c => c.failed = true ∧
      ∃ x ∈ c.run.manager.queue (.str "r"), (x.2.2 == .str "l1") = true) (by decide +kernel)
  rw [(h "l1" c hc hfailed).noTuple _ x hx] at hid
  cases hid

/-- While "C" waits for "A", a call of "B" for another resource is refused. -/
theorem failed_noTrace_refused : ∃ c : CallRun, c.failed = true ∧
    c.run.manager.waitGraph.HasEdge (.str "C") (.str "A") ∧ NoTrace "l1" c := by
  obtain ⟨c, hc, hfailed, hedge⟩ := Runs.exists_of_checked (callStep "l1")
    (fun c e => DrawnOnce "l1" c e ∧ KeepsWaiting "l1" c e) {}
    (acquiring (lockCall "A" .exclusive "r0" "l0") ++
      [.start 0 (.acquireLock (lockCall "C" .exclusive "r0" "l2")),
        .start 0 (.acquireLock (lockCall "B" .exclusive "r1" "l1")),
        .resume 0 0 (.returned false)])
    (fun c => c.failed = true ∧ c.run.manager.waitGraph.HasEdge (.str "C") (.str "A"))
    (by decide +kernel)
  exact ⟨c, hfailed, hedge, failed_noTrace "l1" hc hfailed⟩

end DistributedSync
