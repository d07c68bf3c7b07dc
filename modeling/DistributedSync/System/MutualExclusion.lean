import DistributedSync.Raft.StateMachineSafety
import DistributedSync.Services.LockTable
import DistributedSync.System.Acknowledgement

/-!
# Mutual exclusion of locks

With safe steps of Raft, the lock tables of all nodes come from one sequence of entries, and they
are exclusive if every LOCK_ACQUIRE entry fits the log it is appended to (`Compatible`). A lock of
that log either stands in the leader's table, which `_try_acquire` has tested, or is pending in the
entries that the leader has not applied yet (`admitted_append`). Nothing tests the latter: two calls
that overlap both find the resource free (`lockMutualExclusion_fails`).
-/

namespace DistributedSync

open Replication DistributedSystem LogEntry

/-- The lock of a LOCK_ACQUIRE entry conflicts with no lock that the log leaves in the table. -/
def Compatible (log : List LogEntry) (e : LogEntry) : Prop :=
  ∀ l, e.granted? = some l → ∀ p ∈ LockTable.ofLog log, ¬p.2.Conflict l

/-- All tables on the way through the log are exclusive. -/
def ExclusiveLog (log : List LogEntry) : Prop :=
  ∀ l, l <+: log → (LockTable.ofLog l).Exclusive

theorem ExclusiveLog.nil : ExclusiveLog [] := by
  intro l hl
  rw [List.prefix_nil.mp hl]
  exact List.Pairwise.nil

theorem ExclusiveLog.concat {log : List LogEntry} {e : LogEntry} (h : ExclusiveLog log)
    (he : Compatible log e) : ExclusiveLog (log ++ [e]) := by
  intro l hl
  rcases List.prefix_concat_iff.mp hl with rfl | hl
  · unfold LockTable.ofLog
    rw [List.foldl_concat]
    exact (h log (List.prefix_refl log)).apply fun l hl p hp _ => he l hl p hp
  · exact h l hl

/-! ## Lock managers over Raft -/

/-- The entries that the node has not applied. -/
def RaftNode.unapplied (n : RaftNode) : List LogEntry := n.log.drop (n.lastApplied + 1).toNat

namespace DistributedNode

/-- The `acquire_lock` call of a frame. -/
def Frame.acquires : Frame → Option AcquireLock
  | .lock frame => DistributedLockManager.Frame.acquires frame
  | _ => none

/-- The node's `_try_acquire` accepts the `acquire_lock` call of the frame. -/
def Tested (n : DistributedNode) (frame : Frame) : Prop :=
  ∀ a ∈ frame.acquires, n.lockManager.tryAcquire a.resource a.lockType = true

/-- Only `acquire_lock` appends entries that grant locks. -/
theorem granted?_request {n : RaftNode} {frame : Frame} {l : Lock}
    (h : (n.newEntry (request frame).1 (request frame).2).granted? = some l) :
    ∃ a ∈ frame.acquires, a.lock = l := by
  unfold granted? at h
  rw [Option.ite_none_right_eq_some] at h
  obtain ⟨hc, h⟩ := h
  cases frame with
  | lock frame =>
    cases frame with
    | acquire a | acquireWaiting a _ => exact ⟨a, rfl, Option.some.inj (a.lockOf_data.symm.trans h)⟩
    | release lockId => simp [RaftNode.newEntry, request, DistributedLockManager.request] at hc
  | queue frame =>
    cases frame <;> simp [RaftNode.newEntry, request, DistributedQueue.request] at hc
  | cache frame =>
    cases frame <;> simp [RaftNode.newEntry, request, MOESICache.request] at hc

variable (md5 : String → ℕ) (config : SystemConfig) (peers : String → List String)

/-- Committed entries change the lock table, and nothing else does. -/
theorem replicates_locks :
    (services md5 config peers).Replicates (fun n => n.lockManager.locks) LockTable.apply where
  start := by
    intro now op n r h
    cases op with
    | lock op =>
      obtain ⟨r', hr', rfl⟩ := Option.map_eq_some_iff.mp h
      exact (DistributedLockManager.start_keepsTable hr').1
    | queue op | cache op =>
      cases h
      rfl
  resume := by
    intro now frame a n
    cases frame with
    | lock frame => exact (DistributedLockManager.resume_keepsTable now frame a).1
    | queue frame | cache frame => rfl
  handleCommit := by
    intro now e n
    refine Eq.trans ?_ (LockTable.handleCommit_locks n.lockManager e)
    dsimp only [services, handleCommit]
    split
    · rfl
    · split <;> rfl

/-- The lock table is tested before an `append_entry` call, with no step of the node in between. -/
theorem tests_locks : (services md5 config peers).Tests Tested where
  start := by
    intro now op n r frame h hf
    cases op with
    | lock op =>
      obtain ⟨r', hr', rfl⟩ := Option.map_eq_some_iff.mp h
      obtain ⟨frame', hf', rfl⟩ := Outcome.map_append hf
      exact (DistributedLockManager.start_keepsTable hr').2 frame' hf'
    | queue op | cache op =>
      cases h
      obtain ⟨frame', -, rfl⟩ := Outcome.map_append hf
      exact fun a ha => by cases ha
  resume := by
    intro now frame a n frame' hf
    cases frame with
    | lock frame =>
      obtain ⟨frame'', hf', rfl⟩ := Outcome.map_append hf
      exact (DistributedLockManager.resume_keepsTable now frame a).2 frame'' hf'
    | queue frame | cache frame =>
      obtain ⟨frame'', -, rfl⟩ := Outcome.map_append hf
      exact fun a ha => by cases ha

/-! ## Mutual exclusion -/

variable {md5 config} {cfg : ClusterConfig}
  {s s' : DistributedSystem (services md5 config cfg.peers)}
  {ev : SystemEvent (services md5 config cfg.peers)}

/-- If a LEADER runs a coroutine that appends an entry for a lock, this lock conflicts with none
that is pending in the entries the leader has not applied. -/
def FitsLog (n : RaftNode) (running : Option Frame) : Prop :=
  n.state = .leader → ∀ a ∈ running.bind Frame.acquires, ∀ l ∈ pendingLocks n.unapplied,
    ¬l.Conflict a.lock

instance decidableFitsLog (n : RaftNode) (running : Option Frame) :
    Decidable (FitsLog n running) := by
  unfold FitsLog
  infer_instance

/-- The step appends no entry that grants a lock against a pending one. -/
def CompatibleAppend (s : DistributedSystem (services md5 config cfg.peers)) :
    SystemEvent (services md5 config cfg.peers) → Prop
  | .append i _ _ => FitsLog (s.cluster.proc i).raft (s.running i)
  | _ => True

instance (s : DistributedSystem (services md5 config cfg.peers))
    (ev : SystemEvent (services md5 config cfg.peers)) : Decidable (CompatibleAppend s ev) :=
  match ev with
  | .append i _ _ => decidableFitsLog (s.cluster.proc i).raft (s.running i)
  | .call _ _ _ | .raft _ _ => inferInstanceAs (Decidable True)

def lockManagerOf (s : DistributedSystem (services md5 config cfg.peers)) (i : String) :
    DistributedLockManager := DistributedNode.lockManager (s.state i)

/-- On every node, a resource with an exclusive lock has no other lock. -/
def LocksExclusive (s : DistributedSystem (services md5 config cfg.peers)) : Prop :=
  ∀ (i : String) (r : Value), ∀ l ∈ (lockManagerOf s i).getLocksForResource r,
    l.lockType = .exclusive → (lockManagerOf s i).getLocksForResource r = [l]

/-- The lock table of a node comes from the entries of its log that it has applied. -/
theorem locks_eq {admits : List LogEntry → LogEntry → Prop}
    (hr : Reach cfg (Lifted fun c ev => SafeStep c ev ∧ Admitted admits c ev) s) (i : String) :
    (lockManagerOf s i).locks = LockTable.ofLog
      ((s.cluster.proc i).raft.log.take ((s.cluster.proc i).raft.lastApplied + 1).toNat) := by
  obtain ⟨-, -, happ⟩ := Sim.of_safe (Reach.cluster hr)
  rw [← (happ i).delivered]
  exact (replicates_locks md5 config cfg.peers).reach hr i

theorem admitted_append
    (hr : Reach cfg (Lifted fun c ev => SafeStep c ev ∧ Admitted Compatible c ev) s)
    (hok : CompatibleAppend s ev) (hs : s.step cfg ev = some s') :
    Lifted (Admitted Compatible) s ev := by
  intro e he
  cases step_cases hs with
  | call i now op r hi hr => cases he
  | refused i now raises frame hf hl =>
    simp only [raftEvent, hf, Option.bind_some, if_neg hl] at he
    cases he
  | returns i now j call s₁ hi hc h₁ =>
    cases he
    trivial
  | raft i now e' s₁ hr hi he' hret h₁ =>
    cases he
    cases e with
    | appendEntry => cases he'
    | _ => trivial
  | appends i now raises frame s₁ hf hl hp h₁ | commits i now raises frame s₁ b hf hl hb h₁ =>
    simp only [raftEvent, hf, Option.bind_some, if_pos hl] at he
    cases he
    intro l hg p hp hconf
    obtain ⟨a, ha, rfl⟩ := granted?_request hg
    have hlog : LockTable.ofLog (s.cluster.proc i).raft.log =
        (s.cluster.proc i).raft.unapplied.foldl LockTable.apply (lockManagerOf s i).locks := by
      rw [locks_eq hr i, LockTable.ofLog, LockTable.ofLog, ← List.foldl_append, RaftNode.unapplied,
        List.take_append_drop]
    rw [hlog] at hp
    rcases LockTable.mem_foldl hp with ⟨hp, -⟩ | hp
    · -- the lock stands in the table that `_try_acquire` has tested
      have ht := (tests_locks md5 config cfg.peers).reach hr i frame hf a ha
      exact LockTable.not_conflict_of_tryAcquire (l := a.lock) ht hp hconf
    · refine hok hl a ?_ p.2 hp hconf
      rw [hf]
      exact ha

theorem Reach.admitted
    (hr : Reach cfg (fun s ev => Lifted SafeStep s ev ∧ CompatibleAppend s ev) s) :
    Reach cfg (Lifted fun c ev => SafeStep c ev ∧ Admitted Compatible c ev) s := by
  induction hr with
  | refl => exact .refl
  | tail ev hr hok hs ih =>
    exact ih.tail ev (fun e he => ⟨hok.1 e he, admitted_append ih hok.2 hs e he⟩) hs

theorem lockMutualExclusion
    (hr : Reach cfg (fun s ev => Lifted SafeStep s ev ∧ CompatibleAppend s ev) s) :
    LocksExclusive s := by
  have hadm := Reach.admitted hr
  obtain ⟨w, hsim, -⟩ := Sim.of_safe (Reach.cluster hadm)
  have hkept : Kept ExclusiveLog w :=
    Moves.kept cfg.start_start hsim.run .nil fun l e h he => h.concat he.2
  intro i r l hl hx
  refine LockTable.Exclusive.alone ?_ hl hx
  have := hkept.member i
  rw [hsim.member i] at this
  rw [locks_eq hadm i]
  exact this _ (List.take_prefix ..)

/-! ## Concrete runs -/

def askExclusive (client lockId : String) : SystemEvent threeServices :=
  .call "a" 0 (.lock (.acquireLock ⟨.str "r", .exclusive, .str client, .int 30, lockId⟩))

/-- Leader `a` grants the lock and, after it has applied the entry, lets the next client wait. -/
theorem lockMutualExclusion_granted : ∃ s : DistributedSystem threeServices,
    ((lockManagerOf s "a").locks.length = 1 ∧ s.results.length = 1) ∧ LocksExclusive s := by
  obtain ⟨s, hr, hl⟩ := Runs.exists_of_checked (step threeNodes)
    (fun s ev => Lifted SafeStep s ev ∧ CompatibleAppend s ev)
    (DistributedSystem.init threeServices threeNodes)
    (raftOnly electA ++ [askExclusive "x" "l", .append "a" 0 never] ++
      raftOnly (push "a" (.append 0) 0 2 ++ pushInVain "a" (.append 0) 1 ++
        [.returnAppend "a" 0]) ++ [askExclusive "y" "m"])
    (fun s => (lockManagerOf s "a").locks.length = 1 ∧ s.results.length = 1) (by decide +kernel)
  exact ⟨s, hl, lockMutualExclusion hr⟩

theorem lockMutualExclusion_fails : ¬ ∀ (cfg : ClusterConfig)
    (s : DistributedSystem (services String.length {} cfg.peers)), Reach cfg Runs.Any s →
    LocksExclusive s := by
  intro h
  -- the second client asks before the first entry is applied
  obtain ⟨s, hr, hlen, hx⟩ := Runs.exists_of_runList (step threeNodes)
    (DistributedSystem.init threeServices threeNodes)
    (raftOnly electA ++ [askExclusive "x" "l", .append "a" 0 never, askExclusive "y" "m",
      .append "a" 0 never] ++ raftOnly (push "a" (.append 1) 0 2 ++ push "a" (.append 1) 1 3))
    (fun s => ((lockManagerOf s "a").getLocksForResource (.str "r")).length = 2 ∧
      ∀ l ∈ (lockManagerOf s "a").getLocksForResource (.str "r"), l.lockType = .exclusive)
    (by decide +kernel)
  obtain ⟨l, hl⟩ := List.exists_mem_of_length_pos (hlen ▸ Nat.two_pos)
  have := h threeNodes s hr "a" (.str "r") l hl (hx l hl)
  rw [this] at hlen
  cases hlen

end DistributedNode

end DistributedSync
