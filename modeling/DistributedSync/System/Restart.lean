import DistributedSync.Raft.Acknowledgement
import DistributedSync.Services.QueueStore
import DistributedSync.System.Acknowledgement

/-!
# Restarts

The nodes of a cluster share one Redis. `DistributedQueue` schedules background tasks that write its
messages there, once a client is attached to it by `set_persistence_store`, which also reads them
back. `DistributedNode.start` connects a client of its own and attaches none to the queue. So Redis
never sees a message (`Reach.untouched`), and a message survives a restart of the cluster only if it
has been acknowledged (`survives_iff`).
-/

namespace DistributedSync

/-! ## Background tasks -/

/-- Tasks of the event loop. The message of `_persist_message` is the object at a position of a
partition, and messages keep their positions. -/
inductive QueueTask where
  | persistMessage (partitionId : Value) (position : ℕ)
  | deletePersistedMessage (msgId : Value)

namespace DistributedQueue

/-- The positions of the first `k` unacknowledged messages, counted from `position`. -/
def availableAt : ℕ → ℕ → List QueueMessage → List ℕ
  | _, _, [] => []
  | k, position, msg :: msgs =>
    if msg.acked || k = 0 then availableAt k (position + 1) msgs
    else position :: availableAt (k - 1) (position + 1) msgs

variable (q : DistributedQueue)

/-- The tasks that a coroutine schedules when it begins, with a client attached. -/
def startTasks (md5 : String → ℕ) : Op → List QueueTask
  | .consume topic _ batchSize =>
    let partitionId := Value.int (getPartition md5 topic)
    let msgs := q.partition partitionId
    if q.persistenceEnabled then
      (availableAt (sliceTo (msgs.filter fun msg => !msg.acked) batchSize).length 0 msgs).map
        (.persistMessage partitionId)
    else []
  | _ => []

/-- The tasks that `_handle_commit` schedules, with a client attached. -/
def commitTasks (entry : LogEntry) : List QueueTask :=
  match entry.published?, entry.acked? with
  | some m, _ =>
    if q.persistenceEnabled then
      [.persistMessage m.partitionId (q.partition m.partitionId).length]
    else []
  | none, some msgId => [.deletePersistedMessage msgId]
  | none, none => []

/-- A task runs: the Redis hash after it. -/
def runTask (redis : List (Value × StoredMessage)) : QueueTask → List (Value × StoredMessage)
  | .persistMessage partitionId position =>
    match (q.partition partitionId)[position]? with
    | some msg => setItem redis msg.msgId msg.persisted
    | none => redis
  | .deletePersistedMessage msgId => delItem redis msgId

end DistributedQueue

/-! ## Nodes with Redis -/

/-- A node, with the client that it connects (`redis`), the one that its queue has got
(`queueRedis`), and the scheduled tasks of the queue. -/
structure PersistentNode where
  node : DistributedNode
  redis : Bool := false
  queueRedis : Bool := false
  tasks : List QueueTask := []

namespace PersistentNode

variable (md5 : String → ℕ) (n : PersistentNode)

/-- `__init__`. -/
def init (config : SystemConfig) (nodeId : String) (peers : List String) : PersistentNode where
  node := .init md5 config nodeId peers

/-- `DistributedNode.start`: the node connects to Redis. Raft and the lock manager only start their
loops, and the queue is left alone. -/
def start : PersistentNode := { n with redis := true }

/-- `_schedule_persist` and `_schedule_delete`: without a client nothing is scheduled. -/
def schedule (tasks : List QueueTask) : PersistentNode :=
  if n.queueRedis then { n with tasks := n.tasks ++ tasks } else n

/-- A coroutine begins or wakes up. -/
def startOp (now : ℚ) (op : DistributedNode.Op) :
    Option (PersistentNode × Outcome DistributedNode.Frame DistributedNode.Result) :=
  (n.node.start md5 now op).map fun r =>
    let tasks := match op with
      | .queue op => n.node.queueService.startTasks md5 op
      | _ => []
    ({ n with node := r.1 }.schedule tasks, r.2)

/-- A coroutine comes back from `append_entry`. -/
def resume (now : ℚ) (frame : DistributedNode.Frame) (r : Appended) :
    PersistentNode × Outcome DistributedNode.Frame DistributedNode.Result :=
  let s := n.node.resume now frame r
  ({ n with node := s.1 }, s.2)

/-- The callbacks of `on_commit`. The queue's comes after that of the lock manager. -/
def handleCommit (now : ℚ) (entry : LogEntry) : PersistentNode × Bool :=
  let r := n.node.handleCommit now entry
  let tasks := if (n.node.lockManager.handleCommit entry).2 then []
    else n.node.queueService.commitTasks entry
  ({ n with node := r.1 }.schedule tasks, r.2)

/-- The services of nodes that have been constructed and started. -/
def services (config : SystemConfig) (peers : String → List String) : Services where
  State := PersistentNode
  Op := DistributedNode.Op
  Frame := DistributedNode.Frame
  Result := DistributedNode.Result
  init nodeId := (init md5 config nodeId (peers nodeId)).start
  start now op n := n.startOp md5 now op
  request := DistributedNode.request
  resume now frame r n := n.resume now frame r
  handleCommit now entry n := n.handleCommit now entry

end PersistentNode

/-! ## Deployments -/

/-- A cluster and its Redis. -/
structure Deployment (md5 : String → ℕ) (config : SystemConfig) (peers : String → List String) where
  system : DistributedSystem (PersistentNode.services md5 config peers)
  redis : List (Value × StoredMessage)

namespace Deployment

variable {md5 : String → ℕ} {config : SystemConfig} {cfg : ClusterConfig}

/-- A step of the cluster, or the next run of a background task. -/
inductive Event (md5 : String → ℕ) (config : SystemConfig) (peers : String → List String) where
  | system (ev : SystemEvent (PersistentNode.services md5 config peers))
  | task (i : String) (k : ℕ)

/-- The node `i`. -/
def nodeAt {peers : String → List String} (d : Deployment md5 config peers) (i : String) :
    PersistentNode := d.system.state i

/-- One step; `none` when the event is not possible. -/
def step (cfg : ClusterConfig) (d : Deployment md5 config cfg.peers) :
    Event md5 config cfg.peers → Option (Deployment md5 config cfg.peers)
  | .system ev => (d.system.step cfg ev).map fun system => { d with system }
  | .task i k =>
    let n := d.nodeAt i
    n.tasks[k]?.map fun task =>
      { system := { d.system with
          state := Function.update d.system.state i { n with tasks := n.tasks.eraseIdx k } }
        redis := if n.queueRedis then n.node.queueService.runTask d.redis task else d.redis }

/-- All nodes are constructed and started, with what Redis holds. -/
def start (md5 : String → ℕ) (config : SystemConfig) (cfg : ClusterConfig)
    (redis : List (Value × StoredMessage)) : Deployment md5 config cfg.peers where
  system := .init _ cfg
  redis := redis

/-- A crash of all nodes, and a new start. -/
def restart (d : Deployment md5 config cfg.peers) : Deployment md5 config cfg.peers :=
  start md5 config cfg d.redis

/-! ## Redis along a run -/

/-- The tasks of a node whose queue has no client. -/
def unattached (n : PersistentNode) : Option (List QueueTask) :=
  if n.queueRedis then none else some n.tasks

theorem unattached_schedule (n : PersistentNode) (node : DistributedNode) (tasks : List QueueTask) :
    unattached ({ n with node }.schedule tasks) = unattached n := by
  unfold PersistentNode.schedule unattached
  cases n.queueRedis <;> rfl

theorem replicates_unattached (peers : String → List String) :
    (PersistentNode.services md5 config peers).Replicates unattached fun t _ => t where
  start h := by
    obtain ⟨r, -, rfl⟩ := Option.map_eq_some_iff.mp h
    exact unattached_schedule ..
  resume now frame a state := rfl
  handleCommit now e state := unattached_schedule ..

/-- The deployments that a run from a start with `redis` reaches. -/
abbrev Reach (redis : List (Value × StoredMessage)) (d : Deployment md5 config cfg.peers) : Prop :=
  Runs.Reach (step cfg) Runs.Any (start md5 config cfg redis) d

variable {redis : List (Value × StoredMessage)} {d : Deployment md5 config cfg.peers}

theorem unattached_reach (hr : DistributedSystem.Reach cfg Runs.Any d.system) (i : String) :
    (d.nodeAt i).tasks = [] ∧ (d.nodeAt i).queueRedis = false := by
  have hkeep : ∀ (l : List LogEntry) (t : Option (List QueueTask)), l.foldl (fun t _ => t) t = t :=
    fun l => by induction l with
      | nil => exact fun _ => rfl
      | cons e l ih => exact ih
  have h : unattached (d.nodeAt i) = some [] :=
    ((replicates_unattached cfg.peers).reach hr i).trans (hkeep _ _)
  unfold unattached at h
  split at h
  · cases h
  · next hq => exact ⟨Option.some.inj h, Bool.not_eq_true _ ▸ hq⟩

/-- No task is ever scheduled, and Redis keeps what it held at the start. -/
theorem Reach.untouched (hr : Reach redis d) :
    DistributedSystem.Reach cfg Runs.Any d.system ∧ d.redis = redis := by
  induction hr with
  | refl => exact ⟨.refl, rfl⟩
  | @tail d d' ev hr _ hs ih =>
    obtain ⟨hsys, hredis⟩ := ih
    cases ev with
    | system ev =>
      obtain ⟨system, hstep, rfl⟩ := Option.map_eq_some_iff.mp hs
      exact ⟨hsys.tail ev trivial hstep, hredis⟩
    | task i k =>
      obtain ⟨task, htask, -⟩ := Option.map_eq_some_iff.mp hs
      rw [(unattached_reach hsys i).1] at htask
      cases htask

/-! ## Survival -/

/-- A message whose QUEUE_PUBLISH entry is committed on a node, while no QUEUE_ACK entry for it is
committed on any node. -/
def Outstanding (d : Deployment md5 config cfg.peers) (m : Published) : Prop :=
  (∃ i ∈ cfg.nodes, ∃ e, d.system.cluster.Committed i e ∧ e.published? = some m) ∧
    ∀ i ∈ cfg.nodes, ∀ e, d.system.cluster.Committed i e → e.acks m.msgId = false

/-- Message `m` is in its partition, and `consume` returns it if the batch is large enough. -/
def HasMessage (md5 : String → ℕ) (q : DistributedQueue) (m : Published) : Prop :=
  (∃ msg ∈ q.available m.partitionId, msg.contents = m.contents) ∧
    ∀ topic consumerId, (m.partitionId == .int (DistributedQueue.getPartition md5 topic)) = true →
      ∃ batchSize messages, (q.consume md5 topic consumerId batchSize).2 =
        .done (.consume topic consumerId messages) ∧ ∃ msg ∈ messages, msg.contents = m.contents

/-- After a crash and a new start every node has every message that was outstanding. -/
def Survives (d : Deployment md5 config cfg.peers) : Prop :=
  ∀ m, d.Outstanding m →
    ∀ i ∈ cfg.nodes, HasMessage md5 (d.restart.nodeAt i).node.queueService m

/-- All background tasks have run. -/
def Idle (d : Deployment md5 config cfg.peers) : Prop := ∀ i, (d.nodeAt i).tasks = []

/-- The messages survive a restart exactly if there is none that has not been acknowledged. -/
theorem survives_iff (md5 : String → ℕ) (config : SystemConfig) (cfg : ClusterConfig)
    (d : Deployment md5 config cfg.peers) : d.Survives ↔ ∀ m, ¬d.Outstanding m := by
  constructor
  · intro h m hm
    obtain ⟨⟨i, hi, -⟩, -⟩ := id hm
    -- a queue that has just been constructed has no partition
    obtain ⟨⟨msg, hmsg, -⟩, -⟩ := h m hm i hi
    cases hmsg
  · intro h m hm
    exact absurd hm (h m)

/-! ## A concrete run -/

/-- Leader `a` commits a message, and then all nodes crash. -/
theorem survives_fails : ¬∀ (redis : List (Value × StoredMessage))
    (d : Deployment hashlibMd5 {} threeNodes.peers), Reach redis d → d.Idle → d.Survives := by
  intro h
  obtain ⟨d, hr, hp⟩ := Runs.exists_of_runList (step threeNodes) (start hashlibMd5 {} threeNodes [])
    ((electA.map fun e => .system (.raft 0 e)) ++
      [.system (.call "a" 0 (.queue
          (.publish (DistributedQueue.named "orders") (.str "payload") "m"))),
        .system (.append "a" 0 never)] ++
      (push "a" (.append 0) 0 2).map fun e => .system (.raft 0 e))
    (fun d => (d.system.cluster.proc "a").raft.commitIndex = 0 ∧
      ((d.system.cluster.proc "a").raft.log[0]?.any fun e =>
        e.index = 0 && e.published?.isSome) = true ∧
      ∀ i ∈ threeNodes.nodes, ∀ e ∈ (d.system.cluster.proc i).raft.log, e.acked?.isNone = true)
    (by decide +kernel)
  obtain ⟨hcommit, hlog, hacks⟩ := hp
  obtain ⟨e, hget, he⟩ := (Option.any_eq_true _ _).mp hlog
  rw [Bool.and_eq_true, decide_eq_true_eq] at he
  obtain ⟨hindex, hpub⟩ := he
  obtain ⟨m, hm⟩ := Option.isSome_iff_exists.mp hpub
  have hout : d.Outstanding m := by
    refine ⟨⟨"a", by decide, e, ⟨hindex.ge, ?_, by rw [hcommit, hindex]⟩, hm⟩, fun i hi e he => ?_⟩
    · rw [hindex]
      exact (getItem_natCast _ 0).trans hget
    · have hmem : e ∈ (d.system.cluster.proc i).raft.log := by
        obtain ⟨h0, hget, -⟩ := he
        rw [getItem, if_pos h0] at hget
        exact List.mem_of_getElem? hget
      rw [LogEntry.acks, Option.isNone_iff_eq_none.mp (hacks i hi e hmem)]
      rfl
  -- the queue of the new node `a` is empty
  obtain ⟨⟨msg, hmsg, -⟩, -⟩ :=
    h [] d hr (fun i => (unattached_reach (Reach.untouched hr).1 i).1) m hout
    "a" (by decide)
  cases hmsg

end Deployment

end DistributedSync
