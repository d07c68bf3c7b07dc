import DistributedSync.Core.Md5
import DistributedSync.Services.Queue
import Mathlib.Data.List.Induction
import Mathlib.Data.List.Pairwise

/-!
# The queue as a log with redelivery

A queue without a persistence store sees committed entries and calls, in any order. What it holds is
told by the log alone: a message waits from its QUEUE_PUBLISH entry to the next QUEUE_ACK entry that
names its id, in commit order (`unacked`). A call of `consume` returns the first of those that wait
in the partition of its topic, each with the number of calls that have returned it
(`consume_fifo`).
-/

namespace DistributedSync

/-! ## The log -/

/-- What a QUEUE_PUBLISH entry says of its message. -/
structure Published where
  msgId : Value
  payload : Value
  partitionId : Value
  topic : Option Value

/-- What a queue stores of it: all but the topic. -/
def Published.contents (m : Published) : Value × Value × Value :=
  (m.msgId, m.payload, m.partitionId)

/-- What a message says, its deliveries apart. -/
def QueueMessage.contents (msg : QueueMessage) : Value × Value × Value :=
  (msg.msgId, msg.payload, msg.partitionId)

/-- What a message says, and its deliveries. -/
def QueueMessage.view (msg : QueueMessage) : (Value × Value × Value) × ℕ :=
  (msg.contents, msg.deliveryCount)

namespace LogEntry

/-- The message of a QUEUE_PUBLISH entry that a queue stores. -/
def published? (e : LogEntry) : Option Published :=
  if e.command = "QUEUE_PUBLISH" then
    match e.data.lookup "partition_id", e.data.lookup "msg_id", e.data.lookup "payload" with
    | some partitionId, some msgId, some payload =>
      if partitionId.hashable then
        some { msgId, payload, partitionId, topic := e.data.lookup "topic" }
      else none
    | _, _, _ => none
  else none

/-- The id that a QUEUE_ACK entry names. -/
def acked? (e : LogEntry) : Option Value :=
  if e.command = "QUEUE_ACK" then e.data.lookup "msg_id" else none

/-- The entry is an acknowledgement of a message. -/
def acks (e : LogEntry) (msgId : Value) : Bool := e.acked?.any fun id => msgId == id

theorem acked?_of_published {e : LogEntry} {m : Published} (h : e.published? = some m) :
    e.acked? = none := by
  unfold published? at h
  split at h
  · next hc => simp [acked?, hc]
  · cases h

end LogEntry

/-- The messages of a log whose ids no later entry acknowledges, in commit order. -/
def unacked : List LogEntry → List Published
  | [] => []
  | e :: log =>
    match e.published? with
    | some m => if log.any fun e' => e'.acks m.msgId then unacked log else m :: unacked log
    | none => unacked log

/-- Every message of the log has an id of its own. -/
def DistinctIds (log : List LogEntry) : Prop :=
  (log.filterMap LogEntry.published?).Pairwise fun m m' => (m.msgId == m'.msgId) = false

instance (log : List LogEntry) : Decidable (DistinctIds log) :=
  inferInstanceAs (Decidable (List.Pairwise _ _))

theorem DistinctIds.of_concat {log : List LogEntry} {e : LogEntry} (h : DistinctIds (log ++ [e])) :
    DistinctIds log := by
  rw [DistinctIds, List.filterMap_append] at h
  exact (List.pairwise_append.mp h).1

theorem unacked_concat (log : List LogEntry) (e : LogEntry) :
    unacked (log ++ [e]) =
      (unacked log).filter (fun m => !e.acks m.msgId) ++ e.published?.toList := by
  induction log with
  | nil =>
    rcases h : e.published? with _ | m <;> simp [unacked, h]
  | cons e' log ih =>
    rw [List.cons_append, unacked, unacked, ih]
    rcases e'.published? with _ | m
    · rfl
    · dsimp only
      rw [List.any_append, List.any_cons, List.any_nil, Bool.or_false]
      cases log.any fun e' => e'.acks m.msgId
      · cases h : e.acks m.msgId <;> simp [h]
      · rfl

theorem unacked_sublist (log : List LogEntry) :
    (unacked log).Sublist (log.filterMap LogEntry.published?) := by
  induction log with
  | nil => exact .slnil
  | cons e log ih =>
    rw [unacked, List.filterMap_cons]
    rcases e.published? with _ | m
    · exact ih
    · dsimp only
      split
      · exact ih.cons m
      · exact ih.cons_cons m

namespace DistributedQueue

/-- The message of the QUEUE_PUBLISH entry that a call logs. -/
theorem published?_of_request {topic id : String} {payload : Value} {partitionId : ℤ}
    {replicas : List String} {e : LogEntry}
    (he : (e.command, e.data) = request (.publish topic payload id partitionId replicas)) :
    e.published? = some { msgId := .str id, payload := payload.logged,
                          partitionId := .int partitionId, topic := some (.str topic) } := by
  obtain ⟨hc, hd⟩ := Prod.mk.inj he
  simp [LogEntry.published?, hc, hd, lookup_cons, Value.hashable]

/-! ## Runs -/

/-- What happens to the queue of a node: a committed entry is applied, or a coroutine begins. -/
inductive Event where
  | commit (now : ℚ) (entry : LogEntry)
  | call (op : Op)

variable (md5 : String → ℕ)

def step (q : DistributedQueue) : Event → DistributedQueue
  | .commit now entry => (q.handleCommit now entry).1
  | .call op => (q.start md5 op).1

/-- The messages that an event returns to a consumer. -/
def returned (q : DistributedQueue) : Event → List QueueMessage
  | .commit _ _ => []
  | .call op =>
    match (q.start md5 op).2 with
    | .done (.consume _ _ messages) => messages
    | _ => []

def run (q : DistributedQueue) (es : List Event) : DistributedQueue := es.foldl (step md5) q

/-- The number of calls of a run that return the message with the given id. -/
def deliveries (msgId : Value) (q : DistributedQueue) : List Event → ℕ
  | [] => 0
  | ev :: es => (if (q.returned md5 ev).any fun msg => msg.msgId == msgId then 1 else 0) +
      deliveries msgId (q.step md5 ev) es

/-- The entries that a run applies. -/
def committed (es : List Event) : List LogEntry :=
  es.filterMap fun
    | .commit _ entry => some entry
    | .call _ => none

/-- The messages that wait for the consumers of a topic. -/
def waiting (topic : String) (log : List LogEntry) : List Published :=
  (unacked log).filter fun m => m.partitionId == .int (getPartition md5 topic)

theorem run_concat (q : DistributedQueue) (es : List Event) (ev : Event) :
    q.run md5 (es ++ [ev]) = (q.run md5 es).step md5 ev := List.foldl_append ..

theorem deliveries_concat (msgId : Value) (q : DistributedQueue) (es : List Event) (ev : Event) :
    deliveries md5 msgId q (es ++ [ev]) = deliveries md5 msgId q es +
      if ((q.run md5 es).returned md5 ev).any fun msg => msg.msgId == msgId then 1 else 0 := by
  induction es generalizing q with
  | nil => rw [List.nil_append, deliveries, deliveries, deliveries, Nat.add_comm]; rfl
  | cons e es ih => rw [List.cons_append, deliveries, deliveries, ih, Nat.add_assoc]; rfl

/-! ## What a step does to a partition -/

variable {q : DistributedQueue}

/-- The unacknowledged messages of a partition. -/
def available (q : DistributedQueue) (p : Value) : List QueueMessage :=
  ((q.partitions.lookup p).getD []).filter fun msg => !msg.acked

def bump (msg : QueueMessage) : QueueMessage := { msg with deliveryCount := msg.deliveryCount + 1 }

theorem available_congr {p p' : Value} (h : (p == p') = true) : q.available p = q.available p' := by
  rw [available, available, lookup_congr h]

theorem getQueueDepth_eq (topic : String) :
    q.getQueueDepth md5 topic = (q.available (.int (getPartition md5 topic))).length := by
  unfold getQueueDepth available
  cases q.partitions.lookup (.int (getPartition md5 topic)) <;> rfl

theorem deliver_taken (k : ℕ) (msgs : List QueueMessage) :
    (deliver k msgs).2 = ((msgs.filter fun msg => !msg.acked).take k).map bump := by
  induction msgs generalizing k with
  | nil => simp [deliver]
  | cons msg msgs ih =>
    unfold deliver
    cases hm : msg.acked
    · cases k <;> simp [hm, ih, bump]
    · simp [hm, ih]

theorem deliver_available (k : ℕ) (msgs : List QueueMessage) :
    ((deliver k msgs).1.filter fun msg => !msg.acked) =
      ((msgs.filter fun msg => !msg.acked).take k).map bump ++
        (msgs.filter fun msg => !msg.acked).drop k := by
  induction msgs generalizing k with
  | nil => simp [deliver]
  | cons msg msgs ih =>
    unfold deliver
    cases hm : msg.acked
    · cases k <;> simp [hm, ih, bump]
    · simp [hm, ih]

/-- A call of `consume` returns the first messages of the partition, and counts the delivery. -/
theorem consume_eq (topic : String) (consumerId : Value) (batchSize : ℤ) :
    ∃ k, k = (sliceTo (q.available (.int (getPartition md5 topic))) batchSize).length ∧
      (q.consume md5 topic consumerId batchSize).2 = .done (.consume topic consumerId
        (((q.available (.int (getPartition md5 topic))).take k).map bump)) ∧
      ∀ p, (q.consume md5 topic consumerId batchSize).1.available p =
        if p == .int (getPartition md5 topic) then
          ((q.available p).take k).map bump ++ (q.available p).drop k
        else q.available p := by
  refine ⟨_, rfl, ?_⟩
  rcases hq : q.partitions.lookup (.int (getPartition md5 topic)) with _ | msgs
  · have havail : q.available (.int (getPartition md5 topic)) = [] := by simp [available, hq]
    have heq : q.consume md5 topic consumerId batchSize =
        (q, .done (.consume topic consumerId [])) := by simp only [consume, hq]
    rw [heq]
    refine ⟨by simp [havail], fun p => ?_⟩
    split
    · next hp => simp [available_congr hp, havail]
    · rfl
  · have havail : q.available (.int (getPartition md5 topic)) =
        msgs.filter fun msg => !msg.acked := by simp [available, hq]
    rw [havail]
    simp only [consume, hq, deliver_taken]
    refine ⟨trivial, fun p => ?_⟩
    split
    · next hp =>
      rw [available_congr (q := q) hp, available_congr hp, havail]
      simp [available, lookup_setItem, deliver_available]
    · next hp => simp [available, lookup_setItem, hp]

/-- The message of an entry, as it is stored. -/
def stored (now : ℚ) (m : Published) : QueueMessage :=
  { msgId := m.msgId, payload := m.payload, partitionId := m.partitionId, timestamp := now }

theorem handleCommit_published {now : ℚ} {e : LogEntry} {m : Published}
    (h : e.published? = some m) :
    (q.handleCommit now e).1.partitions = setItem q.partitions m.partitionId
      ((q.partitions.lookup m.partitionId).getD [] ++ [stored now m]) := by
  unfold LogEntry.published? at h
  split at h
  · next hc =>
    split at h
    · next hpart hid hpay =>
      rw [Option.ite_none_right_eq_some] at h
      obtain ⟨hhash, heq⟩ := h
      cases heq
      simp [handleCommit, hc, hpart, hid, hpay, hhash, stored]
    · cases h
  · cases h

theorem handleCommit_acked {now : ℚ} {e : LogEntry} {msgId : Value} (h : e.acked? = some msgId) :
    (q.handleCommit now e).1.partitions = q.partitions.map fun p => (p.1, p.2.map fun msg =>
      if msg.msgId == msgId then { msg with acked := true } else msg) := by
  unfold LogEntry.acked? at h
  rw [Option.ite_none_right_eq_some] at h
  obtain ⟨hc, hid⟩ := h
  simp [handleCommit, hc, hid]

theorem handleCommit_other {now : ℚ} {e : LogEntry} (h : e.published? = none)
    (h' : e.acked? = none) :
    (q.handleCommit now e).1.partitions = q.partitions := by
  unfold LogEntry.published? at h
  unfold LogEntry.acked? at h'
  unfold handleCommit
  split
  · next hc =>
    rw [if_pos hc] at h
    split
    · next hpart hid hpay =>
      rw [hpart, hid, hpay] at h
      split
      · next hhash => simp [hhash] at h
      · rfl
    · rfl
  · split
    · next hc =>
      rw [if_pos hc] at h'
      simp [h']
    · rfl

theorem filter_mark (msgId : Value) (msgs : List QueueMessage) :
    ((msgs.map fun msg => if msg.msgId == msgId then { msg with acked := true } else msg).filter
        fun msg => !msg.acked) =
      (msgs.filter fun msg => !msg.acked).filter fun msg => !(msg.msgId == msgId) := by
  induction msgs with
  | nil => rfl
  | cons msg msgs ih =>
    rw [List.map_cons, List.filter_cons, List.filter_cons, ih]
    cases hid : msg.msgId == msgId <;> cases ha : msg.acked <;> simp [hid, ha]

/-- A committed entry takes away the messages it acknowledges, and adds its own. -/
theorem available_commit (now : ℚ) (e : LogEntry) (p : Value) :
    (q.handleCommit now e).1.available p =
      (q.available p).filter (fun msg => !e.acks msg.msgId) ++
        (e.published?.toList.filter fun m => m.partitionId == p).map (stored now) := by
  rcases hpub : e.published? with _ | m
  · rcases hack : e.acked? with _ | msgId
    · have hno : ∀ id, e.acks id = false := fun id => by simp [LogEntry.acks, hack]
      simp [available, handleCommit_other hpub hack, hno]
    · have hid : ∀ id, e.acks id = (id == msgId) := fun id => by simp [LogEntry.acks, hack]
      simp only [available, handleCommit_acked hack, lookup_map_snd, hid]
      cases q.partitions.lookup p with
      | none => rfl
      | some msgs =>
        rw [Option.map_some, Option.getD_some, Option.getD_some, filter_mark]
        simp
  · have hno : ∀ id, e.acks id = false := fun id => by
      simp [LogEntry.acks, LogEntry.acked?_of_published hpub]
    rw [available, handleCommit_published hpub, lookup_setItem]
    by_cases hp : (m.partitionId == p) = true
    · simp [available, hno, hp, BEq.symm hp, stored, lookup_congr hp]
    · have hp' : ¬(p == m.partitionId) = true := fun h => hp (BEq.symm h)
      simp [available, hno, hp, hp']

/-! ## Refinement -/

theorem eq_of_msgId {log : List LogEntry} (hd : DistinctIds log) {m m' : Published}
    (hm : m ∈ log.filterMap LogEntry.published?) (hm' : m' ∈ log.filterMap LogEntry.published?)
    (h : (m.msgId == m'.msgId) = true) : m = m' := by
  by_contra hne
  have : Std.Symm fun m m' : Published => (m.msgId == m'.msgId) = false :=
    ⟨fun a b hab => by rwa [BEq.comm]⟩
  have hno := List.Pairwise.forall hd hm hm' hne
  rw [h] at hno
  cases hno

/-- After a run, the messages available in a partition are those that the log says wait there, each
delivered as often as the run has returned it. Only messages of the log have been returned. -/
structure Follows (md5 : String → ℕ) (q₀ : DistributedQueue) (es : List Event) : Prop where
  available : ∀ p, ((q₀.run md5 es).available p).map QueueMessage.view =
    ((unacked (committed es)).filter fun m => m.partitionId == p).map
      fun m => (m.contents, deliveries md5 m.msgId q₀ es)
  returned : ∀ msgId, deliveries md5 msgId q₀ es ≠ 0 →
    ∃ m ∈ (committed es).filterMap LogEntry.published?, (m.msgId == msgId) = true

theorem committed_commit (es : List Event) (now : ℚ) (e : LogEntry) :
    committed (es ++ [.commit now e]) = committed es ++ [e] := List.filterMap_append ..

theorem committed_call (es : List Event) (op : Op) :
    committed (es ++ [.call op]) = committed es := by
  rw [committed, List.filterMap_append]
  exact List.append_nil _

variable {md5} {q₀ : DistributedQueue} {es : List Event}

theorem Follows.commit (h : Follows md5 q₀ es) (now : ℚ) (e : LogEntry)
    (hd : DistinctIds (committed (es ++ [.commit now e]))) :
    Follows md5 q₀ (es ++ [.commit now e]) := by
  have hdel : ∀ msgId, deliveries md5 msgId q₀ (es ++ [.commit now e]) =
      deliveries md5 msgId q₀ es := fun msgId => by rw [deliveries_concat]; rfl
  rw [committed_commit] at hd
  rw [DistinctIds, List.filterMap_append, List.pairwise_append] at hd
  refine ⟨fun p => ?_, fun msgId hne => ?_⟩
  · have hfirst : (((q₀.run md5 es).available p).filter fun msg => !e.acks msg.msgId).map
        QueueMessage.view = (((unacked (committed es)).filter fun m => m.partitionId == p).filter
          fun m => !e.acks m.msgId).map fun m => (m.contents, deliveries md5 m.msgId q₀ es) := by
      have := congrArg (List.filter fun x => !e.acks x.1.1) (h.available p)
      rwa [List.filter_map, List.filter_map] at this
    have hlast : ((e.published?.toList.filter fun m => m.partitionId == p).map (stored now)).map
        QueueMessage.view = (e.published?.toList.filter fun m => m.partitionId == p).map
          fun m => (m.contents, deliveries md5 m.msgId q₀ es) := by
      rw [List.map_map]
      refine List.map_congr_left fun m hm => ?_
      have hm := List.mem_of_mem_filter hm
      by_contra hne
      obtain ⟨m', hm', hid⟩ := h.returned m.msgId fun h0 => hne (by rw [h0]; rfl)
      have := hd.2.2 m' hm' m (by simpa using hm)
      rw [hid] at this
      cases this
    simp only [hdel]
    rw [run_concat, step, available_commit, committed_commit, unacked_concat, List.map_append,
      hfirst, hlast, List.filter_append, List.map_append, List.filter_comm]
  · rw [hdel] at hne
    obtain ⟨m, hm, hid⟩ := h.returned msgId hne
    rw [committed_commit, List.filterMap_append]
    exact ⟨m, List.mem_append_left _ hm, hid⟩

/-- Where ids are distinct, the messages whose id is among those of the first `k` are these. -/
theorem map_count_take {l : List Published}
    (hl : l.Pairwise fun m m' => (m.msgId == m'.msgId) = false) (k : ℕ) (count : Value → ℕ) :
    (l.map fun m => (m.contents, count m.msgId +
      if (l.take k).any fun m' => m'.msgId == m.msgId then 1 else 0)) =
    ((l.take k).map fun m => (m.contents, count m.msgId + 1)) ++
      (l.drop k).map fun m => (m.contents, count m.msgId) := by
  have hpair : (l.take k ++ l.drop k).Pairwise fun m m' => (m.msgId == m'.msgId) = false := by
    rwa [List.take_append_drop]
  calc l.map _ = (l.take k ++ l.drop k).map _ := by rw [List.take_append_drop]
    _ = _ := by
      rw [List.map_append]
      congr 1
      · refine List.map_congr_left fun m hm => ?_
        have hid : (m.msgId == m.msgId) = true := BEq.rfl
        rw [if_pos (List.any_eq_true.mpr ⟨m, hm, hid⟩)]
      · refine List.map_congr_left fun m hm => ?_
        rw [if_neg, Nat.add_zero]
        intro hany
        obtain ⟨m', hm', hid⟩ := List.any_eq_true.mp hany
        have hno := (List.pairwise_append.mp hpair).2.2 m' hm' m hm
        rw [hid] at hno
        cases hno

theorem Follows.consume (h : Follows md5 q₀ es) (topic : String) (consumerId : Value)
    (batchSize : ℤ) (hd : DistinctIds (committed es)) :
    Follows md5 q₀ (es ++ [.call (.consume topic consumerId batchSize)]) := by
  obtain ⟨k, -, hret, havail⟩ :=
    consume_eq md5 (q := q₀.run md5 es) topic consumerId batchSize
  set p₀ := Value.int (getPartition md5 topic)
  set W := fun p => (unacked (committed es)).filter fun m => m.partitionId == p
  have htaken : (((q₀.run md5 es).available p₀).take k).map QueueMessage.contents =
      ((W p₀).take k).map Published.contents := by
    have := congrArg (fun l => (l.take k).map Prod.fst) (h.available p₀)
    simpa [← List.map_take, Function.comp_def, QueueMessage.view] using this
  -- a message is among those returned when its id is
  have hdel : ∀ msgId,
      deliveries md5 msgId q₀ (es ++ [.call (.consume topic consumerId batchSize)]) =
        deliveries md5 msgId q₀ es +
          if ((W p₀).take k).any fun m => m.msgId == msgId then 1 else 0 := by
    intro msgId
    have := congrArg (List.any · fun x => x.1 == msgId) htaken
    rw [List.any_map, List.any_map] at this
    rw [deliveries_concat, DistributedQueue.returned, DistributedQueue.start, hret, List.any_map]
    exact congrArg (fun b => _ + if b = true then 1 else 0) this
  refine ⟨fun p => ?_, fun msgId hne => ?_⟩
  · rw [run_concat, committed_call]
    show ((((q₀.run md5 es).consume md5 topic consumerId batchSize).1.available p).map _) =
      (W p).map _
    simp only [havail, hdel]
    split
    · next hp =>
      have hW : W p = W p₀ := List.filter_congr fun m _ => BEq.congr_right hp
      have hav := h.available p
      change _ = (W p).map _ at hav
      rw [hW] at hav ⊢
      have hpw : (W p₀).Pairwise fun m m' => (m.msgId == m'.msgId) = false :=
        (hd.sublist (unacked_sublist _)).filter _
      rw [map_count_take hpw k fun msgId => deliveries md5 msgId q₀ es, List.map_append]
      congr 1
      · have := congrArg (fun l => (l.take k).map fun x => (x.1, x.2 + 1)) hav
        rw [← List.map_take, ← List.map_take, List.map_map, List.map_map] at this
        rw [List.map_map]
        exact this
      · rw [List.map_drop, hav, ← List.map_drop]
    · next hp =>
      rw [h.available p]
      refine List.map_congr_left fun m hm => ?_
      rw [if_neg, Nat.add_zero]
      intro hany
      obtain ⟨m', hm', hid⟩ := List.any_eq_true.mp hany
      obtain ⟨hm', hp'⟩ := List.mem_filter.mp (List.mem_of_mem_take hm')
      obtain ⟨hm, hmp⟩ := List.mem_filter.mp hm
      have hsub := (unacked_sublist (committed es)).subset
      obtain rfl := eq_of_msgId hd (hsub hm') (hsub hm) hid
      exact hp (BEq.trans (BEq.symm hmp) hp')
  · rw [committed_call]
    rw [hdel] at hne
    by_cases h0 : deliveries md5 msgId q₀ es = 0
    · rw [h0, Nat.zero_add, ite_ne_right_iff] at hne
      obtain ⟨m, hm, hid⟩ := List.any_eq_true.mp hne.1
      have hm := List.mem_of_mem_filter (List.mem_of_mem_take hm)
      exact ⟨m, (unacked_sublist _).subset hm, hid⟩
    · exact h.returned msgId h0

theorem start_other {op : Op}
    (hop : ∀ topic consumerId batchSize, op ≠ .consume topic consumerId batchSize) :
    (q.start md5 op).1.partitions = q.partitions ∧ q.returned md5 (.call op) = [] := by
  cases op with
  | publish topic payload msgId =>
    rcases q.publish_cases md5 topic payload msgId with ⟨name, replicas, -, heq⟩ | ⟨-, heq⟩ <;>
      simp [returned, start, heq]
  | consume topic consumerId batchSize => exact absurd rfl (hop _ _ _)
  | acknowledge msgId consumerId =>
    by_cases hm : msgId.hashable
    · by_cases hc : consumerId.hashable <;> simp [returned, start, acknowledge, hm, hc]
    · simp [returned, start, acknowledge, hm]

theorem Follows.other (h : Follows md5 q₀ es) {op : Op}
    (hop : ∀ topic consumerId batchSize, op ≠ .consume topic consumerId batchSize) :
    Follows md5 q₀ (es ++ [.call op]) := by
  obtain ⟨hpart, hret⟩ := start_other (q := q₀.run md5 es) hop
  have hdel : ∀ msgId, deliveries md5 msgId q₀ (es ++ [.call op]) = deliveries md5 msgId q₀ es := by
    intro msgId
    rw [deliveries_concat, hret]
    rfl
  refine ⟨fun p => ?_, fun msgId hne => ?_⟩
  · simp only [hdel]
    rw [run_concat, committed_call, ← h.available p, DistributedQueue.available,
      DistributedQueue.available, step, hpart]
  · rw [committed_call]
    exact h.returned msgId (by rwa [hdel] at hne)

variable (md5)

/-- The log tells what a queue holds, at any time. -/
theorem follows (h₀ : q₀.partitions = []) (es : List Event) (hd : DistinctIds (committed es)) :
    Follows md5 q₀ es := by
  induction es using List.reverseRecOn with
  | nil =>
    exact ⟨fun p => by simp [run, available, h₀, committed, unacked], fun _ h => absurd rfl h⟩
  | append_singleton es ev ih =>
    cases ev with
    | commit now e =>
      refine (ih ?_).commit now e hd
      rw [committed_commit] at hd
      exact hd.of_concat
    | call op =>
      rw [committed_call] at hd
      cases op with
      | consume topic consumerId batchSize => exact (ih hd).consume topic consumerId batchSize hd
      | _ => exact (ih hd).other fun _ _ _ h => by cases h

theorem waiting_of_returned (h₀ : q₀.partitions = []) (hd : DistinctIds (committed es))
    {topic : String} {consumerId : Value} {batchSize : ℤ} {msg : QueueMessage}
    (hmsg : msg ∈ (q₀.run md5 es).returned md5 (.call (.consume topic consumerId batchSize))) :
    ∃ m ∈ waiting md5 topic (committed es), m.contents = msg.contents := by
  obtain ⟨k, -, hret, -⟩ :=
    consume_eq md5 (q := q₀.run md5 es) topic consumerId batchSize
  rw [returned, start, hret] at hmsg
  obtain ⟨msg', hmem, rfl⟩ := List.mem_map.mp hmsg
  have hview := List.mem_map_of_mem (f := QueueMessage.view) (List.mem_of_mem_take hmem)
  rw [(follows md5 h₀ es hd).available] at hview
  obtain ⟨m, hm, heq⟩ := List.mem_map.mp hview
  exact ⟨m, hm, congrArg Prod.fst heq⟩

theorem available_contents (h₀ : q₀.partitions = []) (hd : DistinctIds (committed es))
    (topic : String) :
    ((q₀.run md5 es).available (.int (getPartition md5 topic))).map QueueMessage.contents =
      (waiting md5 topic (committed es)).map Published.contents := by
  have h := (follows md5 h₀ es hd).available (.int (getPartition md5 topic))
  simpa [Function.comp_def, QueueMessage.view, waiting] using congrArg (List.map Prod.fst) h

theorem depth_eq (h₀ : q₀.partitions = []) (hd : DistinctIds (committed es)) (topic : String) :
    (q₀.run md5 es).getQueueDepth md5 topic = (waiting md5 topic (committed es)).length := by
  have hlen := congrArg List.length (available_contents md5 h₀ hd topic)
  rw [List.length_map, List.length_map] at hlen
  rw [getQueueDepth_eq, hlen]

theorem consume_contents (h₀ : q₀.partitions = []) (hd : DistinctIds (committed es))
    (topic : String) (consumerId : Value) (batchSize : ℤ) (hb : 1 ≤ batchSize) :
    ∃ messages, ((q₀.run md5 es).consume md5 topic consumerId batchSize).2 =
        .done (.consume topic consumerId messages) ∧
      messages.map QueueMessage.contents =
        ((waiting md5 topic (committed es)).take batchSize.toNat).map Published.contents := by
  obtain ⟨k, hk, hret, -⟩ :=
    consume_eq md5 (q := q₀.run md5 es) topic consumerId batchSize
  refine ⟨_, hret, ?_⟩
  have htake : ((q₀.run md5 es).available (.int (getPartition md5 topic))).take k =
      ((q₀.run md5 es).available (.int (getPartition md5 topic))).take batchSize.toNat := by
    rw [hk, sliceTo, if_pos (by omega), List.length_take, List.take_eq_take_iff]
    omega
  rw [List.map_map, htake, List.map_take, List.map_take, ← available_contents md5 h₀ hd topic]
  rfl

theorem deliveryCount_eq (h₀ : q₀.partitions = []) (hd : DistinctIds (committed es))
    {topic : String} {consumerId : Value} {batchSize : ℤ} {msg : QueueMessage}
    (hmsg : msg ∈ (q₀.run md5 es).returned md5 (.call (.consume topic consumerId batchSize))) :
    msg.deliveryCount =
      deliveries md5 msg.msgId q₀ (es ++ [.call (.consume topic consumerId batchSize)]) := by
  obtain ⟨k, -, hret, havail⟩ :=
    consume_eq md5 (q := q₀.run md5 es) topic consumerId batchSize
  rw [returned, start, hret] at hmsg
  have h := (follows md5 h₀ (es ++ [.call (.consume topic consumerId batchSize)])
    (by rwa [committed_call])).available (.int (getPartition md5 topic))
  have hmem : msg ∈ (q₀.run md5 (es ++ [.call (.consume topic consumerId batchSize)])).available
      (.int (getPartition md5 topic)) := by
    rw [run_concat]
    show msg ∈ ((q₀.run md5 es).consume md5 topic consumerId batchSize).1.available _
    rw [havail, if_pos BEq.rfl]
    exact List.mem_append_left _ hmsg
  have hview := List.mem_map_of_mem (f := QueueMessage.view) hmem
  rw [h] at hview
  obtain ⟨m, -, hm⟩ := List.mem_map.mp hview
  obtain ⟨hcontents, hcount⟩ := Prod.mk.inj hm
  rw [← hcount, show m.msgId = msg.msgId from congrArg Prod.fst hcontents]

/-- A call of `consume` returns the first messages that wait for its topic, each with the number of
calls that have returned it, and the queue is as deep as there are messages waiting. -/
theorem consume_fifo (q₀ : DistributedQueue) (h₀ : q₀.partitions = []) (es : List Event)
    (hd : DistinctIds (committed es)) (topic : String) (consumerId : Value) (batchSize : ℤ)
    (hb : 1 ≤ batchSize) :
    ∃ messages, ((q₀.run md5 es).consume md5 topic consumerId batchSize).2 =
        .done (.consume topic consumerId messages) ∧
      messages.map QueueMessage.contents =
        ((waiting md5 topic (committed es)).take batchSize.toNat).map Published.contents ∧
      (∀ msg ∈ messages, msg.deliveryCount =
        deliveries md5 msg.msgId q₀ (es ++ [.call (.consume topic consumerId batchSize)])) ∧
      (q₀.run md5 es).getQueueDepth md5 topic = (waiting md5 topic (committed es)).length := by
  obtain ⟨messages, hret, hcontents⟩ := consume_contents md5 h₀ hd topic consumerId
    batchSize hb
  refine ⟨messages, hret, hcontents, fun msg hmsg => deliveryCount_eq md5 h₀ hd ?_,
    depth_eq md5 h₀ hd topic⟩
  rwa [returned, start, hret]

/-- The entry that a coroutine appends. -/
def entryOf (term index : ℤ) (frame : Frame) : LogEntry where
  term := term
  index := index
  command := (request frame).1
  data := (request frame).2

def empty : DistributedQueue where
  hashRing := { nodes := [] }
  replicationFactor := 3
  persistenceEnabled := true

/-- A message reaches the queue through the log. -/
def publication (index : ℤ) (topic msgId : String) : Event :=
  .commit 0 (entryOf 1 index
    (.publish topic (.str "payload") msgId (getPartition hashlibMd5 topic) []))

/-- Two messages for one topic, of which the first is consumed once. -/
def twoOrders : List Event :=
  [publication 0 "orders" "x", publication 1 "orders" "y", .call (.consume "orders" (.str "c") 1)]

theorem consume_fifo_two : ∃ messages,
    ((empty.run hashlibMd5 twoOrders).consume hashlibMd5 "orders" (.str "c") 2).2 =
      .done (.consume "orders" (.str "c") messages) ∧
    messages.map QueueMessage.contents =
      ((waiting hashlibMd5 "orders" (committed twoOrders)).take 2).map Published.contents ∧
    (empty.run hashlibMd5 twoOrders).getQueueDepth hashlibMd5 "orders" = 2 := by
  obtain ⟨messages, hret, hpub, -, hdepth⟩ :=
    consume_fifo hashlibMd5 empty rfl twoOrders (by decide +kernel)
    "orders" (.str "c") 2 (by decide)
  have hlen : (waiting hashlibMd5 "orders" (committed twoOrders)).length = 2 := by decide +kernel
  exact ⟨messages, hret, hpub, hdepth.trans hlen⟩

end DistributedQueue

end DistributedSync
