import DistributedSync.Services.LockManager
import DistributedSync.Services.Queue
import DistributedSync.Services.Cache

/-!
# The services of a node

`DistributedNode` of `src/src/app.py`: a lock manager, a queue and a cache over one Raft node. Each
of them registers its callback when it is constructed, so a committed entry reaches them in this
order, and a callback that raises keeps it from the later ones.
-/

namespace DistributedSync

/-- The settings of `SystemConfig` that the services read. -/
structure SystemConfig where
  cacheMaxSize : ℤ := 1000
  cacheTtl : ℤ := 3600
  replicationFactor : ℤ := 3
  persistenceEnabled : Bool := true

/-- The services of `DistributedNode`. -/
structure DistributedNode where
  lockManager : DistributedLockManager
  queueService : DistributedQueue
  cacheService : MOESICache

namespace DistributedNode

/-- Coroutines that begin or wake up. -/
inductive Op where
  | lock (op : DistributedLockManager.Op)
  | queue (op : DistributedQueue.Op)
  | cache (op : MOESICache.Op)

/-- Coroutines at an `append_entry` call. -/
inductive Frame where
  | lock (frame : DistributedLockManager.Frame)
  | queue (frame : DistributedQueue.Frame)
  | cache (frame : MOESICache.Frame)

/-- What the calls return. -/
inductive Result where
  | lock (result : DistributedLockManager.Result)
  | queue (result : DistributedQueue.Result)
  | cache (result : MOESICache.Result)

variable (md5 : String → ℕ)

/-- `__init__`. -/
def init (config : SystemConfig) (nodeId : String) (peers : List String) : DistributedNode where
  lockManager := {}
  queueService := { hashRing := .init md5 (nodeId :: peers)
                    replicationFactor := config.replicationFactor
                    persistenceEnabled := config.persistenceEnabled }
  cacheService := { nodeId, maxSize := config.cacheMaxSize, defaultTtl := .int config.cacheTtl }

variable (n : DistributedNode)

def start (now : ℚ) : Op → Option (DistributedNode × Outcome Frame Result)
  | .lock op => (n.lockManager.start now op).map fun r =>
      ({ n with lockManager := r.1 }, r.2.map .lock .lock)
  | .queue op =>
    let r := n.queueService.start md5 op
    some ({ n with queueService := r.1 }, r.2.map .queue .queue)
  | .cache op =>
    let r := n.cacheService.start now op
    some ({ n with cacheService := r.1 }, r.2.map .cache .cache)

def request : Frame → String × Dict
  | .lock frame => DistributedLockManager.request frame
  | .queue frame => DistributedQueue.request frame
  | .cache frame => MOESICache.request frame

def resume (now : ℚ) (frame : Frame) (r : Appended) : DistributedNode × Outcome Frame Result :=
  match frame with
  | .lock frame =>
    let s := n.lockManager.resume now frame r
    ({ n with lockManager := s.1 }, s.2.map .lock .lock)
  | .queue frame => (n, (DistributedQueue.resume frame r).map .queue .queue)
  | .cache frame =>
    let s := n.cacheService.resume now frame r
    ({ n with cacheService := s.1 }, s.2.map .cache .cache)

/-- The callbacks of `on_commit`, and whether one of them raises. -/
def handleCommit (now : ℚ) (entry : LogEntry) : DistributedNode × Bool :=
  let l := n.lockManager.handleCommit entry
  if l.2 then ({ n with lockManager := l.1 }, true)
  else
    let q := n.queueService.handleCommit now entry
    if q.2 then ({ n with lockManager := l.1, queueService := q.1 }, true)
    else
      let c := n.cacheService.handleCommit now entry
      ({ lockManager := l.1, queueService := q.1, cacheService := c.1 }, c.2)

/-- The services of a cluster's nodes. -/
def services (config : SystemConfig) (peers : String → List String) : Services where
  State := DistributedNode
  Op := Op
  Frame := Frame
  Result := Result
  init nodeId := init md5 config nodeId (peers nodeId)
  start now op n := n.start md5 now op
  request := request
  resume now frame r n := n.resume now frame r
  handleCommit now entry n := n.handleCommit now entry

end DistributedNode

end DistributedSync
