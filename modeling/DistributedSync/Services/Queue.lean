import DistributedSync.Core.JsonText
import DistributedSync.Services.Interface

/-!
# The queue

`ConsistentHashRing` and `DistributedQueue` of `src/src/services/queue_service.py`, without a
persistence store attached, so that nothing is scheduled for Redis. `md5` stands for
`int(hashlib.md5(s.encode()).hexdigest(), 16)`. `publish` comes with any JSON value as its topic and
raises on one that has no UTF-8; `consume` comes with a topic that has one.
-/

namespace DistributedSync

variable (md5 : String → ℕ)

/-! ## The hash ring -/

/-- Consistent hash ring for queue partitioning. -/
structure ConsistentHashRing where
  nodes : List String
  virtualNodes : ℕ := 160
  ring : List (ℕ × String) := []
  sortedKeys : List ℕ := []

namespace ConsistentHashRing

/-- Build consistent hash ring. -/
def buildRing (r : ConsistentHashRing) : ConsistentHashRing :=
  let points := r.nodes.flatMap fun node =>
    (List.range r.virtualNodes).map fun i => (md5 s!"{node}:{i}", node)
  let ring := points.foldl (fun ring p => setItem ring p.1 p.2) []
  { r with ring, sortedKeys := (ring.map Prod.fst).insertionSort (· ≤ ·) }

/-- `__init__`. -/
def init (nodes : List String) (virtualNodes : ℕ := 160) : ConsistentHashRing :=
  buildRing md5 { nodes, virtualNodes }

/-- Either loop of `get_replicas`: the nodes of the keys that `wanted` accepts join the replicas,
until there are `count` of them. The set `seen` holds the replicas and is left out. -/
def collect (r : ConsistentHashRing) (count : ℤ) (wanted : ℕ → Bool) :
    List ℕ → List String → List String
  | [], replicas => replicas
  | key :: keys, replicas =>
    match r.ring.lookup key with
    | some node =>
      if wanted key && !replicas.contains node then
        if count ≤ (replicas ++ [node]).length then replicas ++ [node]
        else collect r count wanted keys (replicas ++ [node])
      else collect r count wanted keys replicas
    | none => collect r count wanted keys replicas

/-- Get replica nodes for key. -/
def getReplicas (r : ConsistentHashRing) (key : String) (count : ℤ) : List String :=
  let hashKey := md5 key
  let replicas := r.collect count (fun k => hashKey ≤ k) (r.sortedKeys ++ r.sortedKeys) []
  let replicas :=
    if replicas.length < count then r.collect count (fun _ => true) r.sortedKeys replicas
    else replicas
  sliceTo replicas count

end ConsistentHashRing

/-! ## The queue -/

/-- Distributed queue with consistent hashing and replication. `pendingMessages` are objects of
`partitions`, of which only the ids are read. -/
structure DistributedQueue where
  hashRing : ConsistentHashRing
  replicationFactor : ℤ
  persistenceEnabled : Bool
  partitions : List (Value × List QueueMessage) := []
  messageAcks : List (Value × List Value) := []
  pendingMessages : List Value := []

namespace DistributedQueue

/-- Coroutines that begin. `publish` comes with the id drawn for the message. -/
inductive Op where
  | publish (topic : Json ℚ) (payload : Value) (msgId : String)
  | consume (topic : String) (consumerId : Value) (batchSize : ℤ)
  | acknowledge (msgId consumerId : Value)

/-- Coroutines at an `append_entry` call. -/
inductive Frame where
  | publish (topic : String) (payload : Value) (msgId : String) (partitionId : ℤ)
      (replicas : List String)
  | acknowledge (msgId consumerId : Value)

/-- What the calls return, with their arguments. -/
inductive Result where
  | publish (topic : String) (payload : Value) (msgId : Option String)
  | consume (topic : String) (consumerId : Value) (messages : List QueueMessage)
  | acknowledge (msgId consumerId : Value) (success : Bool)
  | raised

/-- The `append_entry` call of a frame. -/
def request : Frame → String × Dict
  | .publish topic payload msgId partitionId replicas =>
    ("QUEUE_PUBLISH", [("msg_id", .str msgId), ("topic", .str topic),
      ("partition_id", .int partitionId), ("payload", payload.logged),
      ("replicas", .list (replicas.map .str))])
  | .acknowledge msgId consumerId =>
    ("QUEUE_ACK", [("msg_id", msgId), ("consumer_id", consumerId)])

def named (topic : String) : Json ℚ := .str (Json.ofString topic)

/-- `topic.encode()`, as the string that is encoded: nothing but a string has an `encode`, and it
raises on a surrogate. -/
def encode? : Json ℚ → Option String
  | .str topic => Value.stringOf topic
  | _ => none

@[simp] theorem encode?_named (topic : String) : encode? (named topic) = some topic :=
  Value.stringOf_ofString topic

/-- `_get_partition`: get partition ID for topic. -/
def getPartition (topic : String) : ℤ := (md5 topic % 10 : ℕ)

variable (q : DistributedQueue)

/-- `publish` up to its `append_entry` call. -/
def publish (topic : Json ℚ) (payload : Value) (msgId : String) :
    DistributedQueue × Outcome Frame Result :=
  match encode? topic with
  | some topic =>
    let partitionId := getPartition md5 topic
    let replicas := q.hashRing.getReplicas md5 s!"{topic}:{partitionId}" q.replicationFactor
    (q, .append (.publish topic payload msgId partitionId replicas))
  | none => (q, .done .raised)

theorem publish_cases (topic : Json ℚ) (payload : Value) (msgId : String) :
    (∃ name replicas, encode? topic = some name ∧ q.publish md5 topic payload msgId =
      (q, .append (.publish name payload msgId (getPartition md5 name) replicas))) ∨
    encode? topic = none ∧ q.publish md5 topic payload msgId = (q, .done .raised) := by
  unfold publish
  cases encode? topic with
  | some name => exact Or.inl ⟨name, _, rfl, rfl⟩
  | none => exact Or.inr ⟨rfl, rfl⟩

variable {md5} {q} in
theorem publish_append {topic : Json ℚ} {payload : Value} {msgId : String} {frame : Frame}
    (h : (q.publish md5 topic payload msgId).2 = .append frame) : ∃ name replicas,
      encode? topic = some name ∧
        frame = .publish name payload msgId (getPartition md5 name) replicas := by
  rcases q.publish_cases md5 topic payload msgId with ⟨name, replicas, hname, heq⟩ | ⟨-, heq⟩ <;>
    rw [heq] at h <;> cases h
  exact ⟨name, replicas, hname, rfl⟩

theorem publish_fst (topic : Json ℚ) (payload : Value) (msgId : String) :
    (q.publish md5 topic payload msgId).1 = q := by
  rcases q.publish_cases md5 topic payload msgId with ⟨_, _, -, heq⟩ | ⟨-, heq⟩ <;> rw [heq]

/-- The messages `consume` takes get one more delivery. The others keep theirs. -/
def deliver : ℕ → List QueueMessage → List QueueMessage × List QueueMessage
  | _, [] => ([], [])
  | k, msg :: msgs =>
    if msg.acked || k = 0 then
      let r := deliver k msgs
      (msg :: r.1, r.2)
    else
      let msg := { msg with deliveryCount := msg.deliveryCount + 1 }
      let r := deliver (k - 1) msgs
      (msg :: r.1, msg :: r.2)

/-- Consume messages from queue. -/
def consume (topic : String) (consumerId : Value) (batchSize : ℤ) :
    DistributedQueue × Outcome Frame Result :=
  let partitionId := Value.int (getPartition md5 topic)
  match q.partitions.lookup partitionId with
  | none => (q, .done (.consume topic consumerId []))
  | some msgs =>
    let available := msgs.filter fun msg => !msg.acked
    let r := deliver (sliceTo available batchSize).length msgs
    let acks := r.2.foldl (fun acks msg =>
      if (acks.lookup msg.msgId).isSome then acks else setItem acks msg.msgId []) q.messageAcks
    ({ q with partitions := setItem q.partitions partitionId r.1, messageAcks := acks },
      .done (.consume topic consumerId r.2))

/-- `acknowledge` up to its `append_entry` call. -/
def acknowledge (msgId consumerId : Value) : DistributedQueue × Outcome Frame Result :=
  if msgId.hashable then
    let acks := if (q.messageAcks.lookup msgId).isSome then q.messageAcks
      else setItem q.messageAcks msgId []
    if consumerId.hashable then
      ({ q with messageAcks := setItem acks msgId
                  (addElem ((acks.lookup msgId).getD []) consumerId) },
        .append (.acknowledge msgId consumerId))
    else ({ q with messageAcks := acks }, .done .raised)
  else (q, .done .raised)

/-- Get number of unacked messages in queue. -/
def getQueueDepth (topic : String) : ℕ :=
  match q.partitions.lookup (.int (getPartition md5 topic)) with
  | none => 0
  | some msgs => (msgs.filter fun msg => !msg.acked).length

/-- A coroutine begins. -/
def start : Op → DistributedQueue × Outcome Frame Result
  | .publish topic payload msgId => q.publish md5 topic payload msgId
  | .consume topic consumerId batchSize => q.consume md5 topic consumerId batchSize
  | .acknowledge msgId consumerId => q.acknowledge msgId consumerId

/-- A coroutine comes back from `append_entry`. -/
def resume : Frame → Appended → Outcome Frame Result
  | _, .raised => .done .raised
  | .publish topic payload msgId _ _, .returned success =>
    .done (.publish topic payload (if success then some msgId else none))
  | .acknowledge msgId consumerId, .returned success =>
    .done (.acknowledge msgId consumerId success)

/-- Handle committed log entry, and whether this raises. -/
def handleCommit (now : ℚ) (entry : LogEntry) : DistributedQueue × Bool :=
  if entry.command = "QUEUE_PUBLISH" then
    match entry.data.lookup "partition_id", entry.data.lookup "msg_id",
        entry.data.lookup "payload" with
    | some partitionId, some msgId, some payload =>
      if partitionId.hashable then
        let msg := { msgId, payload, partitionId, timestamp := now }
        ({ q with
            partitions := setItem q.partitions partitionId
              ((q.partitions.lookup partitionId).getD [] ++ [msg])
            pendingMessages :=
              if q.persistenceEnabled then q.pendingMessages ++ [msgId] else q.pendingMessages },
          false)
      else (q, true)
    | _, _, _ => (q, true)
  else if entry.command = "QUEUE_ACK" then
    match entry.data.lookup "msg_id" with
    | none => (q, true)
    | some msgId =>
      ({ q with
          partitions := q.partitions.map fun p => (p.1, p.2.map fun msg =>
            if msg.msgId == msgId then { msg with acked := true } else msg)
          pendingMessages := q.pendingMessages.filter fun id => !(id == msgId) },
        false)
  else (q, false)

end DistributedQueue

end DistributedSync
