import DistributedSync.Services.DistributedNode

/-!
# The POST handlers

The handlers of `src/src/app.py` for locks, queues and the cache, up to the call of their service.
The body of a request is any JSON value. An exception on the way is caught by the handler, which
answers with its text and status 500. The answers that follow the call are left out.
-/

namespace DistributedSync

/-- The POST routes of the three services. -/
inductive Route where
  | lockAcquire
  | lockRelease
  | queuePublish
  | queueConsume
  | queueAck
  | cachePut

/-- What becomes of a request: an answer with status 400, an exception, or a call. -/
inductive Handled where
  | badRequest (error : String)
  | raised
  | call (op : DistributedNode.Op)

/-- `data.get(key, default)`. -/
def fieldOf (data : Dict) (key : String) (default : Value := .null) : Value :=
  (data.lookup key).getD default

/-- The frame of a handler: a body that is no object has no `get`, and the required fields must be
truthy. -/
def handleRequest (required : List String) (error : String) (service : Dict → Handled) :
    Value → Handled
  | .dict data =>
    if required.all fun key => (fieldOf data key).truthy then service data else .badRequest error
  | .null | .bool _ | .int _ | .float _ | .str _ | .list _ => .raised

/-- The `stop` of `available[:stop]`, where `None` takes all; `none` for a `TypeError`. -/
def Value.sliceStop? (length : ℕ) : Value → Option ℤ
  | .null => some length
  | .bool b => some (if b then 1 else 0)
  | .int n => some n
  | .float _ | .str _ | .list _ | .dict _ => none

namespace DistributedNode

variable (md5 : String → ℕ) (n : DistributedNode)

def handleLockAcquire (lockId : String) : Value → Handled :=
  handleRequest ["resource", "client_id"] "Missing required fields" fun data =>
    match LockType.ofValue? (fieldOf data "lock_type" (.str "exclusive")) with
    | some lockType =>
      .call (.lock (.acquireLock { resource := fieldOf data "resource", lockType
                                   clientId := fieldOf data "client_id"
                                   timeout := fieldOf data "timeout" (.int 30), lockId }))
    | none => .raised

def handleLockRelease : Value → Handled :=
  handleRequest ["lock_id"] "Missing lock_id" fun data =>
    .call (.lock (.releaseLock (fieldOf data "lock_id")))

def handleQueuePublish (msgId : String) : Value → Handled :=
  handleRequest ["topic"] "Missing topic" fun data =>
    .call (.queue (.publish (fieldOf data "topic").toJson (fieldOf data "payload") msgId))

/-- `_handle_queue_consume`. Only a string has the `encode` of `_get_partition`, and the batch size
is looked at if there is a partition to take it from. -/
def handleQueueConsume : Value → Handled :=
  handleRequest ["topic", "consumer_id"] "Missing required fields" fun data =>
    match fieldOf data "topic" with
    | .str topic =>
      let consume batchSize := Handled.call
        (.queue (.consume topic (fieldOf data "consumer_id") batchSize))
      if (n.queueService.partitions.lookup (.int (DistributedQueue.getPartition md5 topic))).isSome
      then
        let depth := n.queueService.getQueueDepth md5 topic
        match (fieldOf data "batch_size" (.int 1)).sliceStop? depth with
        | some batchSize => consume batchSize
        | none => .raised
      else consume 0
    | .null | .bool _ | .int _ | .float _ | .list _ | .dict _ => .raised

def handleQueueAck : Value → Handled :=
  handleRequest ["msg_id", "consumer_id"] "Missing required fields" fun data =>
    .call (.queue (.acknowledge (fieldOf data "msg_id") (fieldOf data "consumer_id")))

def handleCachePut : Value → Handled :=
  handleRequest ["key"] "Missing key" fun data =>
    .call (.cache (.put (fieldOf data "key") (fieldOf data "value") (fieldOf data "ttl")))

/-- A POST request. The services draw `id` where they call `uuid4`. -/
def handle (id : String) (body : Value) : Route → Handled
  | .lockAcquire => handleLockAcquire id body
  | .lockRelease => handleLockRelease body
  | .queuePublish => handleQueuePublish id body
  | .queueConsume => n.handleQueueConsume md5 body
  | .queueAck => handleQueueAck body
  | .cachePut => handleCachePut body

end DistributedNode

/-! ## What a request asks for -/

/-- A request that is neither answered at once nor raises is an object with the required fields. -/
theorem handleRequest_call {required : List String} {error : String} {service : Dict → Handled}
    {body : Value} {op : DistributedNode.Op}
    (h : handleRequest required error service body = .call op) :
    ∃ data, body = .dict data ∧ (∀ key ∈ required, (fieldOf data key).truthy = true) ∧
      service data = .call op := by
  cases body with
  | dict data =>
    unfold handleRequest at h
    dsimp only at h
    split at h
    · next hreq => exact ⟨data, rfl, List.all_eq_true.mp hreq, h⟩
    · cases h
  | _ => cases h

theorem handleLockAcquire_call {lockId : String} {body : Value} {op : DistributedNode.Op}
    (h : DistributedNode.handleLockAcquire lockId body = .call op) :
    ∃ data a, body = .dict data ∧ op = .lock (.acquireLock a) ∧
      a.resource = fieldOf data "resource" := by
  obtain ⟨data, rfl, -, h⟩ := handleRequest_call h
  split at h
  · cases h
    exact ⟨data, _, rfl, rfl, rfl⟩
  · cases h

/-- No other handler asks for a lock. -/
theorem handle_acquireLock {md5 : String → ℕ} {n : DistributedNode} {id : String} {body : Value}
    {route : Route} {a : AcquireLock}
    (h : n.handle md5 id body route = .call (.lock (.acquireLock a))) : route = .lockAcquire := by
  cases route with
  | lockAcquire => rfl
  | lockRelease | queuePublish | queueAck | cachePut =>
    obtain ⟨data, -, -, h⟩ := handleRequest_call h
    cases h
  | queueConsume =>
    obtain ⟨data, -, -, h⟩ := handleRequest_call h
    split at h
    · dsimp only at h
      split at h
      · split at h <;> cases h
      · cases h
    all_goals cases h

end DistributedSync
