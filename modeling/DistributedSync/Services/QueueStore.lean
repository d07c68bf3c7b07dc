import DistributedSync.Library.Runs
import DistributedSync.Services.QueueHistory

/-!
# The persistence store

`set_persistence_store` brings the messages that Redis holds back into the partitions, and tests
before it stores one that its id is not there. `_handle_commit` stores the message of a
QUEUE_PUBLISH entry without that test. So the messages of a partition have ids of their own as long
as no applied entry publishes a message that is already there (`noDuplicates_iff`).
-/

namespace DistributedSync

/-- What `_persist_message` writes for a message. -/
structure StoredMessage where
  msgId : Value
  payload : Value
  partitionId : Value
  timestamp : ℚ
  acked : Bool
  deliveryCount : ℕ

/-- `_persist_message`: the message, as it is stored. -/
def QueueMessage.persisted (msg : QueueMessage) : StoredMessage where
  msgId := msg.msgId
  payload := msg.payload
  partitionId := msg.partitionId
  timestamp := msg.timestamp
  acked := msg.acked
  deliveryCount := msg.deliveryCount

/-- `int(v)`, with `none` for an exception. -/
def Value.toInt? : Value → Option ℤ
  | .bool b => some (if b then 1 else 0)
  | .int n => some n
  | .float x => some (if 0 ≤ x then x.floor else x.ceil)
  | .str s => s.toInt?
  | _ => none

namespace DistributedQueue

variable (md5 : String → ℕ) (q : DistributedQueue)

/-! ## Recovery -/

/-- `self.partitions[p]`. -/
def partition (p : Value) : List QueueMessage := (q.partitions.lookup p).getD []

/-- The test of `_load_persisted_messages`: the partition holds a message with the id. -/
def holds (p msgId : Value) : Bool := (q.partition p).any fun existing => existing.msgId == msgId

/-- One turn of the loop of `_load_persisted_messages`; `none` if it raises. -/
def loadMessage (data : StoredMessage) : Option DistributedQueue :=
  if data.acked then some q
  else
    data.partitionId.toInt?.map fun p =>
      let msg := { msgId := data.msgId, payload := data.payload, partitionId := .int p,
                   timestamp := data.timestamp, deliveryCount := data.deliveryCount }
      { q with
        partitions := setItem q.partitions (.int p)
          (if q.holds (.int p) data.msgId then q.partition (.int p)
            else q.partition (.int p) ++ [msg]) }

/-- `_load_persisted_messages`, up to the first exception. -/
def loadPersistedMessages : DistributedQueue → List StoredMessage → DistributedQueue
  | q, [] => q
  | q, data :: raw =>
    match q.loadMessage data with
    | some q' => loadPersistedMessages q' raw
    | none => q

/-- Attach Redis persistence and recover unacked messages: `raw` are the values that the client
finds, and there are none without a client. -/
def setPersistenceStore (raw : Option (List StoredMessage)) : DistributedQueue :=
  match raw with
  | some raw => if q.persistenceEnabled then q.loadPersistedMessages raw else q
  | none => q

/-! ## Runs with recovery -/

/-- What happens to a queue whose store may be attached, at any time and with any content. -/
inductive StoreEvent where
  | queue (ev : Event)
  | setPersistenceStore (raw : Option (List StoredMessage))

def storeStep (q : DistributedQueue) : StoreEvent → DistributedQueue
  | .queue ev => q.step md5 ev
  | .setPersistenceStore raw => q.setPersistenceStore raw

def storeRun (q : DistributedQueue) (es : List StoreEvent) : DistributedQueue :=
  es.foldl (storeStep md5) q

/-- No id occurs twice in a partition, and no call of `consume` returns one twice. -/
structure NoDuplicates (md5 : String → ℕ) (q : DistributedQueue) : Prop where
  partition : ∀ p, (q.partition p).Pairwise fun msg msg' => (msg.msgId == msg'.msgId) = false
  consume : ∀ topic consumerId batchSize,
    (q.returned md5 (.call (.consume topic consumerId batchSize))).Pairwise
      fun msg msg' => (msg.msgId == msg'.msgId) = false

/-- The step does not publish a message that is there already. -/
def Unpublished (q : DistributedQueue) : StoreEvent → Prop
  | .queue (.commit _ e) => ∀ m, e.published? = some m → q.holds m.partitionId m.msgId = false
  | _ => True

/-- The ids of a partition. -/
def ids (p : Value) : List Value := (q.partition p).map QueueMessage.msgId

variable {md5} {q}

theorem partition_congr {p p' : Value} (h : (p == p') = true) : q.partition p = q.partition p' := by
  rw [partition, partition, lookup_congr h]

theorem deliver_ids (k : ℕ) (msgs : List QueueMessage) :
    (deliver k msgs).1.map QueueMessage.msgId = msgs.map QueueMessage.msgId := by
  induction msgs generalizing k with
  | nil => rfl
  | cons msg msgs ih =>
    unfold deliver
    split <;> simp [ih]

theorem ids_setItem {k p : Value} {msgs : List QueueMessage} :
    { q with partitions := setItem q.partitions k msgs }.ids p =
      if p == k then msgs.map QueueMessage.msgId else q.ids p := by
  unfold ids partition
  rw [lookup_setItem]
  split <;> rfl

/-- Calls change neither the ids of a partition nor their order. -/
theorem ids_call (op : Op) (p : Value) : (q.start md5 op).1.ids p = q.ids p := by
  cases op with
  | consume topic consumerId batchSize =>
    rcases hq : q.partitions.lookup (.int (getPartition md5 topic)) with _ | msgs
    · simp only [start, DistributedQueue.consume, hq]
    · simp only [start, DistributedQueue.consume, hq]
      show { q with partitions := setItem q.partitions _ _ }.ids p = q.ids p
      rw [ids_setItem, deliver_ids]
      split
      · next hp => rw [ids, partition_congr hp, partition, hq, Option.getD_some]
      · rfl
  | _ =>
    rw [ids, partition, (start_other (fun _ _ _ h => by cases h)).1]
    rfl

theorem ids_acked {now : ℚ} {e : LogEntry} {msgId : Value} (h : e.acked? = some msgId) (p : Value) :
    (q.handleCommit now e).1.ids p = q.ids p := by
  rw [ids, partition, handleCommit_acked h, lookup_map_snd, ids, partition]
  cases q.partitions.lookup p with
  | none => rfl
  | some msgs =>
    rw [Option.map_some, Option.getD_some, Option.getD_some, List.map_map]
    refine List.map_congr_left fun msg _ => ?_
    show QueueMessage.msgId (if _ then _ else _) = _
    split <;> rfl

theorem ids_published {now : ℚ} {e : LogEntry} {m : Published} (h : e.published? = some m)
    (p : Value) : (q.handleCommit now e).1.ids p =
      if p == m.partitionId then q.ids p ++ [m.msgId] else q.ids p := by
  rw [ids, partition, handleCommit_published h, lookup_setItem]
  split
  · next hp =>
    rw [ids, partition_congr hp, Option.getD_some, List.map_append]
    rfl
  · rfl

theorem holds_eq (p msgId : Value) : q.holds p msgId = (q.ids p).any fun id => id == msgId := by
  rw [holds, ids, List.any_map]
  rfl

def DistinctPartitions (q : DistributedQueue) : Prop :=
  ∀ p, (q.ids p).Pairwise fun a b => (a == b) = false

theorem noDuplicates_of_partitions : NoDuplicates md5 q ↔ q.DistinctPartitions := by
  constructor
  · intro h p
    exact List.pairwise_map.mpr (h.partition p)
  · intro h
    have hpart : ∀ p, (q.partition p).Pairwise fun msg msg' => (msg.msgId == msg'.msgId) = false :=
      fun p => List.pairwise_map.mp (h p)
    refine ⟨hpart, fun topic consumerId batchSize => ?_⟩
    obtain ⟨k, -, hret, -⟩ := consume_eq md5 (q := q) topic consumerId batchSize
    rw [returned, start, hret]
    exact List.pairwise_map.mpr (((hpart _).filter _).sublist (List.take_sublist ..))

theorem pairwise_concat {l : List Value} {id : Value} (h : l.Pairwise fun a b => (a == b) = false) :
    (l ++ [id]).Pairwise (fun a b => (a == b) = false) ↔ (l.any fun a => a == id) = false := by
  rw [List.pairwise_append]
  constructor
  · rintro ⟨-, -, hno⟩
    refine List.any_eq_false.mpr fun a ha => ?_
    rw [hno a ha id List.mem_cons_self]
    exact Bool.noConfusion
  · intro hno
    refine ⟨h, List.pairwise_singleton .., fun a ha b hb => ?_⟩
    rw [List.mem_singleton.mp hb]
    exact Bool.eq_false_iff.mpr (List.any_eq_false.mp hno a ha)

theorem loadMessage_distinct {q' : DistributedQueue} {data : StoredMessage}
    (hd : q.DistinctPartitions) (h : q.loadMessage data = some q') : q'.DistinctPartitions := by
  unfold loadMessage at h
  split at h
  · cases h
    exact hd
  · obtain ⟨p, -, rfl⟩ := Option.map_eq_some_iff.mp h
    intro p'
    rw [ids_setItem]
    split
    · split
      · exact hd (.int p)
      · next hno =>
        rw [List.map_append]
        refine (pairwise_concat (hd (.int p))).mpr ?_
        rwa [Bool.not_eq_true, holds_eq] at hno
    · exact hd p'

theorem loadPersistedMessages_distinct {raw : List StoredMessage} (hd : q.DistinctPartitions) :
    (q.loadPersistedMessages raw).DistinctPartitions := by
  induction raw generalizing q with
  | nil => exact hd
  | cons data raw ih =>
    unfold loadPersistedMessages
    split
    · next hq => exact ih (loadMessage_distinct hd hq)
    · exact hd

theorem distinct_step (hd : q.DistinctPartitions) (ev : StoreEvent) :
    (q.storeStep md5 ev).DistinctPartitions ↔ q.Unpublished ev := by
  cases ev with
  | setPersistenceStore raw =>
    refine iff_of_true ?_ trivial
    show (q.setPersistenceStore raw).DistinctPartitions
    unfold setPersistenceStore
    split
    · split
      · exact loadPersistedMessages_distinct hd
      · exact hd
    · exact hd
  | queue ev =>
    cases ev with
    | call op => exact iff_of_true (fun p => by rw [storeStep, step, ids_call]; exact hd p) trivial
    | commit now e =>
      rw [storeStep, step, Unpublished]
      rcases hpub : e.published? with _ | m
      · refine iff_of_true (fun p => ?_) fun _ h => by cases h
        rcases hack : e.acked? with _ | msgId
        · rw [ids, partition, handleCommit_other hpub hack]
          exact hd p
        · rw [ids_acked hack]
          exact hd p
      · simp only [Option.some.injEq, forall_eq', holds_eq]
        rw [← pairwise_concat (hd m.partitionId)]
        constructor
        · intro h
          have := h m.partitionId
          rwa [ids_published hpub, if_pos BEq.rfl] at this
        · intro h p
          rw [ids_published hpub]
          split
          · next hp => rwa [ids, partition_congr hp]
          · exact hd p

/-- Along a run no message is ever stored twice, exactly if no applied entry publishes a message
that is already in its partition. -/
theorem noDuplicates_iff (md5 : String → ℕ) (q₀ : DistributedQueue) (h₀ : q₀.partitions = [])
    (es : List StoreEvent) :
    (∀ es', es' <+: es → NoDuplicates md5 (q₀.storeRun md5 es')) ↔
      ∀ es' ev, es' ++ [ev] <+: es → (q₀.storeRun md5 es').Unpublished ev := by
  have h0 : q₀.DistinctPartitions := fun p => by simp [ids, partition, h₀]
  simp only [noDuplicates_of_partitions]
  exact Runs.invariant_iff (storeStep md5) DistinctPartitions Unpublished
    (fun _ ev h => distinct_step h ev) h0 es

/-- The store is attached, with the message `m` of a topic in it. -/
def recovery : StoreEvent :=
  .setPersistenceStore (some [(stored 0 ⟨.str "m", .str "payload",
    .int (getPartition hashlibMd5 "orders"), none⟩).persisted])

/-- The replay of the log brings the message once, and the recovery finds it. -/
theorem noDuplicates_recovered : NoDuplicates hashlibMd5
    (empty.storeRun hashlibMd5 [.queue (publication 0 "orders" "m"), recovery]) := by
  refine (noDuplicates_iff hashlibMd5 empty rfl _).mpr (fun es' ev hp => ?_) _ List.prefix_rfl
  rcases es' with _ | ⟨a, es'⟩
  · obtain ⟨rfl, -⟩ := List.cons_prefix_cons.mp hp
    intro m _
    simp [storeRun, holds, partition, empty]
  · obtain ⟨rfl, hp'⟩ := List.cons_prefix_cons.mp hp
    rcases es' with _ | ⟨b, es'⟩
    · obtain ⟨rfl, -⟩ := List.cons_prefix_cons.mp hp'
      trivial
    · obtain ⟨-, hp''⟩ := List.cons_prefix_cons.mp hp'
      exact absurd (List.prefix_nil.mp hp'') (by simp)

/-- A queue that is restarted recovers the message, and then the log is replayed: a call of
`consume` returns the message twice. -/
theorem noDuplicates_fails : ¬NoDuplicates hashlibMd5
    (empty.storeRun hashlibMd5 [recovery, .queue (publication 0 "orders" "m")]) := by
  intro h
  have := h.consume "orders" (.str "c") 2
  revert this
  decide +kernel

end DistributedQueue

end DistributedSync
