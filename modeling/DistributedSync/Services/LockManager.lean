import DistributedSync.Services.Interface

/-!
# The lock manager

`LockWaitGraph` and `DistributedLockManager` of `src/src/services/lock_manager.py`, the periodic
deadlock detection apart, which acts on the locks through `release_lock` only.

The graph's own lock is never held across an await, so taking it does not suspend.
-/

namespace DistributedSync

/-! ## The wait-for graph -/

/-- Wait-for graph for deadlock detection: whom each client waits for. -/
abbrev LockWaitGraph := List (Value × List Value)

namespace LockWaitGraph

/-- `add_edge`, and whether it raises: a waiter or a holder may not be hashable. -/
def addEdge (g : LockWaitGraph) (waiter holder : Value) : LockWaitGraph × Bool :=
  if waiter.hashable then
    let g := if (g.lookup waiter).isSome then g else setItem g waiter []
    if holder.hashable then (setItem g waiter (addElem ((g.lookup waiter).getD []) holder), false)
    else (g, true)
  else (g, true)

/-- `remove_edges`, and whether it raises. -/
def removeEdges (g : LockWaitGraph) (waiter : Value) : LockWaitGraph × Bool :=
  if waiter.hashable then
    ((delItem g waiter).map fun p => (p.1, p.2.filter fun holder => !(holder == waiter)), false)
  else (g, true)

end LockWaitGraph

/-! ## Calls -/

/-- The arguments of an `acquire_lock` call, and the id drawn for the lock. -/
structure AcquireLock where
  resource : Value
  lockType : LockType
  clientId : Value
  timeout : Value
  lockId : String

/-- The `data` of the LOCK_ACQUIRE entry. -/
def AcquireLock.data (a : AcquireLock) : Dict :=
  [("lock_id", .str a.lockId), ("resource", a.resource), ("owner", a.clientId),
    ("lock_type", .str a.lockType.value), ("ttl", a.timeout)]

/-- Distributed lock manager with Raft consensus and deadlock detection. `waiting` are the
`acquire_lock` coroutines asleep in their polling loop, each with its start time. -/
structure DistributedLockManager where
  locks : List (Value × Lock) := []
  lockQueue : List (Value × List (Value × LockType × Value)) := []
  waitGraph : LockWaitGraph := []
  waiting : List (AcquireLock × ℚ) := []

namespace DistributedLockManager

/-- Coroutines that begin or wake up. -/
inductive Op where
  | acquireLock (a : AcquireLock)
  | wake (k : ℕ)
  | releaseLock (lockId : Value)

/-- Coroutines at an `append_entry` call. -/
inductive Frame where
  | acquire (a : AcquireLock)
  | acquireWaiting (a : AcquireLock) (startTime : ℚ)
  | release (lockId : Value)

/-- What the calls return, with their arguments. -/
inductive Result where
  | acquireLock (a : AcquireLock) (lockId : Option String)
  | releaseLock (lockId : Value) (success : Bool)
  | raised

/-- The `append_entry` call of a frame. -/
def request : Frame → String × Dict
  | .acquire a | .acquireWaiting a _ => ("LOCK_ACQUIRE", a.data)
  | .release lockId => ("LOCK_RELEASE", [("lock_id", lockId)])

variable (m : DistributedLockManager)

/-- Get all locks for resource. -/
def getLocksForResource (resource : Value) : List Lock :=
  (m.locks.map Prod.snd).filter fun l => l.resource == resource

/-- `_try_acquire`: try to acquire lock without waiting. -/
def tryAcquire (resource : Value) (lockType : LockType) : Bool :=
  let currentLocks := (m.locks.map Prod.snd).filter fun l => l.resource == resource
  if currentLocks.isEmpty then true
  else match lockType with
    | .exclusive => false
    | .shared => !currentLocks.any fun l => l.lockType = .exclusive

/-- `_get_lock_holder`: the owner of an exclusive lock on the resource. -/
def getLockHolder (resource : Value) : Option Value :=
  ((m.locks.map Prod.snd).find? fun l => l.resource == resource && l.lockType = .exclusive).map
    Lock.owner

/-- The end of a round of the polling loop: give up or sleep. Comparing with a `timeout` that is no
number raises, and `acquire_lock` catches it. -/
def checkTimeout (a : AcquireLock) (startTime now : ℚ) :
    DistributedLockManager × Outcome Frame Result :=
  match a.timeout.num? with
  | none => (m, .done (.acquireLock a none))
  | some timeout =>
    if timeout < now - startTime then (m, .done (.acquireLock a none))
    else ({ m with waiting := m.waiting ++ [(a, startTime)] }, .sleep)

/-- A round of the polling loop. -/
def poll (a : AcquireLock) (startTime now : ℚ) : DistributedLockManager × Outcome Frame Result :=
  if m.tryAcquire a.resource a.lockType then (m, .append (.acquireWaiting a startTime))
  else m.checkTimeout a startTime now

/-- The waiter's tuple goes to the queue of its resource. -/
def enqueue (a : AcquireLock) : DistributedLockManager :=
  { m with
    lockQueue := setItem m.lockQueue a.resource
      ((m.lockQueue.lookup a.resource).getD [] ++ [(a.clientId, a.lockType, .str a.lockId)]) }

/-- The waiter goes to the wait graph, if the resource has a holder. Says whether this raises. -/
def waitForHolder (a : AcquireLock) : DistributedLockManager × Bool :=
  match m.getLockHolder a.resource with
  | some holder =>
    if holder.truthy then
      let g := m.waitGraph.addEdge a.clientId holder
      ({ m with waitGraph := g.1 }, g.2)
    else (m, false)
  | none => (m, false)

/-- `acquire_lock` up to its first suspending await. An exception on the way ends the call with
None. -/
def acquireLock (a : AcquireLock) (now : ℚ) : DistributedLockManager × Outcome Frame Result :=
  if m.tryAcquire a.resource a.lockType then (m, .append (.acquire a))
  else if a.resource.hashable then
    let r := (m.enqueue a).waitForHolder a
    if r.2 then (r.1, .done (.acquireLock a none)) else r.1.poll a now now
  else (m, .done (.acquireLock a none))

/-- `release_lock` up to its `append_entry` call. -/
def releaseLock (lockId : Value) : DistributedLockManager × Outcome Frame Result :=
  if lockId.hashable then
    if (m.locks.lookup lockId).isSome then (m, .append (.release lockId))
    else (m, .done (.releaseLock lockId false))
  else (m, .done .raised)

/-- A coroutine begins or wakes up. -/
def start (now : ℚ) (op : Op) : Option (DistributedLockManager × Outcome Frame Result) :=
  match op with
  | .acquireLock a => some (m.acquireLock a now)
  | .wake k => m.waiting[k]?.map fun w =>
      { m with waiting := m.waiting.eraseIdx k }.poll w.1 w.2 now
  | .releaseLock lockId => some (m.releaseLock lockId)

/-- A coroutine comes back from `append_entry`. -/
def resume (now : ℚ) (frame : Frame) (r : Appended) :
    DistributedLockManager × Outcome Frame Result :=
  match frame with
  | .acquire a => (m, .done (.acquireLock a (if r = .returned true then some a.lockId else none)))
  | .acquireWaiting a startTime =>
    match r with
    | .returned true =>
      let g := m.waitGraph.removeEdges a.clientId
      ({ m with waitGraph := g.1 },
        .done (.acquireLock a (if g.2 then none else some a.lockId)))
    | .returned false => m.checkTimeout a startTime now
    | .raised => (m, .done (.acquireLock a none))
  | .release lockId =>
    match r with
    | .returned success => (m, .done (.releaseLock lockId success))
    | .raised => (m, .done .raised)

/-- The lock of a LOCK_ACQUIRE entry; `none` when a key is missing or the type is unknown. -/
def lockOf (data : Dict) : Option Lock := do
  let lockId ← data.lookup "lock_id"
  let resource ← data.lookup "resource"
  let owner ← data.lookup "owner"
  let lockType ← (data.lookup "lock_type").bind LockType.ofValue?
  let ttl ← data.lookup "ttl"
  return { lockId, resource, owner, lockType, ttl }

/-- Handle committed log entry, and whether this raises. -/
def handleCommit (entry : LogEntry) : DistributedLockManager × Bool :=
  if entry.command = "LOCK_ACQUIRE" then
    match lockOf entry.data with
    | none => (m, true)
    | some lock =>
      if lock.lockId.hashable then
        let m := { m with locks := setItem m.locks lock.lockId lock }
        if lock.resource.hashable then
          match m.lockQueue.lookup lock.resource with
          | none => (m, false)
          | some waiters =>
            ({ m with
              lockQueue := setItem m.lockQueue lock.resource
                (waiters.filter fun w => !(w.2.2 == lock.lockId)) }, false)
        else (m, true)
      else (m, true)
  else if entry.command = "LOCK_RELEASE" then
    match entry.data.lookup "lock_id" with
    | none => (m, true)
    | some lockId =>
      if lockId.hashable then ({ m with locks := delItem m.locks lockId }, false) else (m, true)
  else (m, false)

end DistributedLockManager

end DistributedSync
