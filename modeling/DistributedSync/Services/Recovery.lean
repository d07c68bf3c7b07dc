import DistributedSync.Core.DateTime
import DistributedSync.Core.JsonText
import DistributedSync.Services.QueueStore
import Mathlib.Data.List.Perm.Basic
import Mathlib.Data.Rat.Encodable

/-!
# What recovery brings back

`_persist_message` writes a message as a JSON text, and `_load_persisted_messages` reads the texts
in the order in which HGETALL returns them. So recovery adds the unacknowledged messages that are
missing, and no others (`restores`), and they are consumed in the order in which they were published
exactly if HGETALL returns them in that order (`publishOrder_iff`).
-/

namespace DistributedSync

open Json (FloatFormat)

/-! ## The texts -/

/-- A `QueueMessage` whose fields have the types of their annotations, and a JSON payload. -/
structure TypedMessage where
  msgId : String
  payload : Value
  partitionId : ℤ
  timestamp : DateTime
  acked : Bool
  deliveryCount : ℕ
  distinctKeys : payload.DistinctKeys

namespace TypedMessage

def message (m : TypedMessage) : QueueMessage where
  msgId := .str m.msgId
  payload := m.payload
  partitionId := .int m.partitionId
  timestamp := m.timestamp.seconds
  acked := m.acked
  deliveryCount := m.deliveryCount

/-- The dictionary that `_persist_message` dumps. -/
def fields (m : TypedMessage) : Dict :=
  [("msg_id", .str m.msgId), ("payload", m.payload), ("partition_id", .int m.partitionId),
    ("timestamp", .str m.timestamp.isoformat), ("acked", .bool m.acked),
    ("delivery_count", .int m.deliveryCount)]

def text (fmt : FloatFormat ℚ) (m : TypedMessage) : String :=
  String.ofList ((Value.dict m.fields).jsonDumps fmt)

/-- `_persist_message`, with the Redis hash before and after it. -/
def persistMessage (fmt : FloatFormat ℚ) (redis : List (String × String)) (m : TypedMessage) :
    List (String × String) :=
  setItem redis m.msgId (m.text fmt)

theorem distinctKeys_fields (m : TypedMessage) : (Value.dict m.fields).DistinctKeys := by
  refine Value.distinctKeys_dict.mpr ⟨by simp [fields], fun f hf => ?_⟩
  simp only [fields, List.mem_cons, List.not_mem_nil, or_false] at hf
  rcases hf with rfl | rfl | rfl | rfl | rfl | rfl
  case inr.inl => exact m.distinctKeys
  all_goals trivial

end TypedMessage

/-- A value of the reply: what it is depends on the client's `decode_responses`. -/
inductive Raw where
  | str (text : String)
  | bytes (text : ByteArray)

/-- The text of a value; `none` if `decode` raises. -/
def Raw.decode : Raw → Option String
  | .str text => some text
  | .bytes text => String.fromUTF8? text

/-- HGETALL returns the values of the hash, in any order. -/
def Hgetall (redis : List (String × String)) (raw : List Raw) : Prop :=
  (raw.map Raw.decode).Perm (redis.map fun p => some p.2)

namespace DistributedQueue.Redis

variable (fmt : FloatFormat ℚ) (now : ℚ)

/-- `datetime.fromisoformat(v) if v else datetime.utcnow()`, of `data.get("timestamp")`. -/
def readTimestamp (v : Value) : Option ℚ :=
  if v.truthy then
    match v with
    | .str s => (DateTime.fromisoformat s).map DateTime.seconds
    | _ => none
  else some now

/-- One turn of the loop of `_load_persisted_messages`; `none` if it raises. -/
def loadMessage (q : DistributedQueue) (raw : Raw) : Option DistributedQueue := do
  let text ← raw.decode
  match ← Value.jsonLoads fmt text.toList with
  | .dict data =>
    if ((data.lookup "acked").getD .null).truthy then some q
    else
      let msgId ← data.lookup "msg_id"
      let payload ← data.lookup "payload"
      let partitionId ← (data.lookup "partition_id").bind Value.toInt?
      let timestamp ← readTimestamp now ((data.lookup "timestamp").getD .null)
      let deliveryCount ← ((data.lookup "delivery_count").getD (.int 0)).toInt?
      let message := { msgId, payload, partitionId := .int partitionId, timestamp,
                       deliveryCount := deliveryCount.toNat }
      some { q with
        partitions := setItem q.partitions (.int partitionId)
          (if q.holds (.int partitionId) msgId then q.partition (.int partitionId)
            else q.partition (.int partitionId) ++ [message]) }
  | _ => none

/-- `_load_persisted_messages`, up to the first exception. -/
def loadPersistedMessages : DistributedQueue → List Raw → DistributedQueue
  | q, [] => q
  | q, raw :: raws =>
    match loadMessage fmt now q raw with
    | some q' => loadPersistedMessages q' raws
    | none => q

/-- Attach Redis persistence and recover unacked messages. -/
def setPersistenceStore (q : DistributedQueue) (raws : List Raw) : DistributedQueue :=
  if q.persistenceEnabled then loadPersistedMessages fmt now q raws else q

variable {fmt now} {q : DistributedQueue} {msgs : List TypedMessage} {raws : List Raw}

theorem fields_text (m : TypedMessage) :
    Value.jsonLoads fmt (m.text fmt).toList = some (.dict m.fields) := by
  rw [TypedMessage.text, String.toList_ofList, Value.jsonLoads_jsonDumps m.distinctKeys_fields]

theorem loadMessage_text {raw : Raw} {m : TypedMessage} (h : raw.decode = some (m.text fmt)) :
    loadMessage fmt now q raw = q.loadMessage m.message.persisted := by
  have htime : readTimestamp now (.str m.timestamp.isoformat) = some m.timestamp.seconds := by
    have htruthy : (Value.str m.timestamp.isoformat).truthy = true := by
      refine decide_eq_true fun hempty => ?_
      have := congrArg String.toList hempty
      simp [DateTime.isoformat, DateTime.padded] at this
    rw [readTimestamp, if_pos htruthy, DateTime.fromisoformat_isoformat, Option.map_some]
  unfold loadMessage
  simp only [h, Option.bind_eq_bind, Option.bind_some, fields_text]
  cases hacked : m.acked <;>
    simp [TypedMessage.fields, lookup_cons, htime, DistributedQueue.loadMessage, Value.truthy,
      Value.toInt?, QueueMessage.persisted, TypedMessage.message, hacked]

theorem loadPersistedMessages_texts
    (h : raws.map Raw.decode = msgs.map fun m => some (m.text fmt)) :
    loadPersistedMessages fmt now q raws =
      q.loadPersistedMessages (msgs.map fun m => m.message.persisted) := by
  induction raws generalizing q msgs with
  | nil =>
    obtain rfl : msgs = [] := by simpa using h.symm
    rfl
  | cons raw raws ih =>
    obtain _ | ⟨m, msgs⟩ := msgs
    · cases h
    obtain ⟨hraw, hraws⟩ := List.cons.inj h
    rw [loadPersistedMessages, List.map_cons, DistributedQueue.loadPersistedMessages,
      loadMessage_text hraw]
    rcases q.loadMessage m.message.persisted with _ | q'
    · rfl
    · exact ih hraws

/-! ## What recovery adds -/

/-- The unacknowledged messages that are not in their partition. -/
def missing (q : DistributedQueue) (msgs : List TypedMessage) : List TypedMessage :=
  msgs.filter fun m => !m.acked && !q.holds (.int m.partitionId) (.str m.msgId)

/-- The messages among them that belong to the partition. -/
def ofPartition (p : Value) (msgs : List TypedMessage) : List QueueMessage :=
  (msgs.filter fun m => Value.int m.partitionId == p).map TypedMessage.message

theorem loadMessage_persisted (q : DistributedQueue) (m : TypedMessage) :
    ∃ q', q.loadMessage m.message.persisted = some q' ∧
      (∀ p, q'.partition p = q.partition p ++ ofPartition p (missing q [m])) ∧
      { q' with partitions := q.partitions } = q := by
  cases hacked : m.acked
  · have hload : q.loadMessage m.message.persisted = some { q with
        partitions := setItem q.partitions (.int m.partitionId)
          (if q.holds (.int m.partitionId) (.str m.msgId) then q.partition (.int m.partitionId)
            else q.partition (.int m.partitionId) ++ [m.message]) } := by
      simp [DistributedQueue.loadMessage, QueueMessage.persisted, TypedMessage.message, hacked,
        Value.toInt?]
    refine ⟨_, hload, fun p => ?_, rfl⟩
    rw [partition, lookup_setItem]
    cases hheld : q.holds (.int m.partitionId) (.str m.msgId)
    · by_cases hp : (p == .int m.partitionId) = true
      · simp [hp, BEq.symm hp, ofPartition, missing, hacked, hheld, partition_congr hp,
          TypedMessage.message]
      · have hp' : ¬(Value.int m.partitionId == p) = true := fun h => hp (BEq.symm h)
        simp [hp, hp', ofPartition, missing, partition]
    · by_cases hp : (p == .int m.partitionId) = true
      · simp [hp, ofPartition, missing, hheld, partition_congr hp]
      · simp [hp, ofPartition, missing, hheld, partition]
  · have hload : q.loadMessage m.message.persisted = some q := if_pos hacked
    exact ⟨q, hload, fun p => by simp [ofPartition, missing, hacked], rfl⟩

theorem mem_ofPartition {p : Value} {msg : QueueMessage} : msg ∈ ofPartition p msgs ↔
    ∃ m ∈ msgs, (Value.int m.partitionId == p) = true ∧ m.message = msg := by
  simp [ofPartition, and_assoc]

theorem holds_append {q' : DistributedQueue} (p msgId : Value)
    (h : q'.partition p = q.partition p ++ ofPartition p msgs) : q'.holds p msgId = true ↔
      q.holds p msgId = true ∨ ∃ m ∈ msgs, (Value.int m.partitionId == p) = true ∧
        (Value.str m.msgId == msgId) = true := by
  rw [holds, h, List.any_append, Bool.or_eq_true, ← holds, List.any_eq_true]
  simp only [mem_ofPartition]
  refine or_congr_right ⟨?_, ?_⟩
  · rintro ⟨_, ⟨m, hm, hp, rfl⟩, hid⟩
    exact ⟨m, hm, hp, hid⟩
  · rintro ⟨m, hm, hp, hid⟩
    exact ⟨m.message, ⟨m, hm, hp, rfl⟩, hid⟩

/-- Recovery adds the missing messages, in the order in which it reads them. -/
theorem loadPersistedMessages_persisted (hd : (msgs.map TypedMessage.msgId).Nodup) :
    (∀ p, (q.loadPersistedMessages (msgs.map fun m => m.message.persisted)).partition p =
      q.partition p ++ ofPartition p (missing q msgs)) ∧
    { q.loadPersistedMessages (msgs.map fun m => m.message.persisted) with
      partitions := q.partitions } = q := by
  induction msgs generalizing q with
  | nil => exact ⟨fun p => (List.append_nil _).symm, rfl⟩
  | cons m msgs ih =>
    obtain ⟨hnew, hd⟩ := List.nodup_cons.mp hd
    obtain ⟨q', hq', hpart, hrest⟩ := loadMessage_persisted q m
    obtain ⟨hparts, hrests⟩ := ih (q := q') hd
    -- the message that has just been read has another id than those to come
    have hmissing : missing q' msgs = missing q msgs := by
      refine List.filter_congr fun m' hm' => ?_
      have hne : m'.msgId ≠ m.msgId := fun heq => hnew (heq ▸ List.mem_map_of_mem hm')
      have hholds : q'.holds (.int m'.partitionId) (.str m'.msgId) =
          q.holds (.int m'.partitionId) (.str m'.msgId) := by
        rw [Bool.eq_iff_iff, holds_append _ _ (hpart _)]
        refine or_iff_left ?_
        rintro ⟨m₁, hm₁, -, hid⟩
        obtain rfl := List.mem_singleton.mp (List.mem_of_mem_filter hm₁)
        exact hne (Value.str_beq_str.mp hid).symm
      rw [hholds]
    rw [List.map_cons, DistributedQueue.loadPersistedMessages, hq']
    refine ⟨fun p => ?_, ?_⟩
    · have hcons : missing q (m :: msgs) = missing q [m] ++ missing q msgs :=
        List.filter_append [m] msgs
      rw [hparts, hpart, hmissing, hcons, List.append_assoc, ofPartition, ofPartition, ofPartition,
        ← List.map_append, ← List.filter_append]
    · calc _ = { { q'.loadPersistedMessages (msgs.map fun m => m.message.persisted) with
                  partitions := q'.partitions } with partitions := q.partitions } := rfl
        _ = q := by rw [hrests, hrest]

/-! ## What the hash holds -/

/-- The Redis hash, once all messages have been written. -/
def persisted (fmt : FloatFormat ℚ) (msgs : List TypedMessage) : List (String × String) :=
  msgs.foldl (TypedMessage.persistMessage fmt) []

theorem foldl_persistMessage (hd : (msgs.map TypedMessage.msgId).Nodup)
    {redis : List (String × String)} (hnew : ∀ m ∈ msgs, ∀ p ∈ redis, p.1 ≠ m.msgId) :
    msgs.foldl (TypedMessage.persistMessage fmt) redis =
      redis ++ msgs.map fun m => (m.msgId, m.text fmt) := by
  induction msgs generalizing redis with
  | nil => exact (List.append_nil _).symm
  | cons m msgs ih =>
    obtain ⟨hm, hd⟩ := List.nodup_cons.mp hd
    obtain ⟨hfirst, hnew⟩ := List.forall_mem_cons.mp hnew
    have hset : TypedMessage.persistMessage fmt redis m = redis ++ [(m.msgId, m.text fmt)] := by
      refine if_neg ?_
      rw [Option.not_isSome_iff_eq_none, lookup_eq_none_iff]
      exact fun p hp => beq_eq_false_iff_ne.mpr (hfirst p hp)
    rw [List.foldl_cons, hset, ih hd, List.append_assoc]
    · rfl
    · intro m' hm' p hp
      rcases List.mem_append.mp hp with hp | hp
      · exact hnew m' hm' p hp
      · rw [List.mem_singleton.mp hp]
        intro heq
        have hid : m.msgId = m'.msgId := heq
        exact hm (hid ▸ List.mem_map_of_mem hm')

theorem persisted_eq (hd : (msgs.map TypedMessage.msgId).Nodup) :
    persisted fmt msgs = msgs.map fun m => (m.msgId, m.text fmt) := by
  rw [persisted, foldl_persistMessage hd fun _ _ _ hp => absurd hp List.not_mem_nil,
    List.nil_append]

theorem hgetall_iff (hd : (msgs.map TypedMessage.msgId).Nodup) :
    Hgetall (persisted fmt msgs) raws ↔ ∃ ms : List TypedMessage, ms.Perm msgs ∧
      raws.map Raw.decode = ms.map fun m => some (m.text fmt) := by
  rw [Hgetall, persisted_eq hd, List.map_map, ← congrFun₂ (List.eq_map_comp_perm _) _ _]
  exact exists_congr fun ms => and_comm

/-- `set_persistence_store` adds, for each unacknowledged message of the hash that is not in its
partition, this message, and nothing else. A second call adds nothing. -/
theorem restores (fmt : FloatFormat ℚ) (now now' : ℚ) (q : DistributedQueue)
    (henabled : q.persistenceEnabled = true) (msgs : List TypedMessage)
    (hd : (msgs.map TypedMessage.msgId).Nodup) (raws raws' : List Raw)
    (hraws : Hgetall (persisted fmt msgs) raws) (hraws' : Hgetall (persisted fmt msgs) raws') :
    ∃ q', setPersistenceStore fmt now q raws = q' ∧
      (∃ added, added.Perm (missing q msgs) ∧
        ∀ p, q'.partition p = q.partition p ++ ofPartition p added) ∧
      { q' with partitions := q.partitions } = q ∧
      ∀ p, (setPersistenceStore fmt now' q' raws').partition p = q'.partition p := by
  obtain ⟨ms, hperm, htexts⟩ := (hgetall_iff hd).mp hraws
  obtain ⟨ms', hperm', htexts'⟩ := (hgetall_iff hd).mp hraws'
  have hload : setPersistenceStore fmt now q raws =
      q.loadPersistedMessages (ms.map fun m => m.message.persisted) :=
    (if_pos henabled).trans (loadPersistedMessages_texts htexts)
  obtain ⟨hparts, hrest⟩ := loadPersistedMessages_persisted (q := q)
    (((hperm.map _).nodup_iff).mpr hd)
  refine ⟨_, hload, ⟨missing q ms, hperm.filter _, hparts⟩, hrest, fun p => ?_⟩
  set q' := q.loadPersistedMessages (ms.map fun m => m.message.persisted)
  have henabled' : q'.persistenceEnabled = true := by
    rw [← henabled, ← hrest]
  rw [setPersistenceStore, if_pos henabled', loadPersistedMessages_texts htexts',
    (loadPersistedMessages_persisted (((hperm'.map _).nodup_iff).mpr hd)).1]
  have hnone : missing q' ms' = [] := by
    refine List.filter_eq_nil_iff.mpr fun m hm => ?_
    cases hacked : m.acked
    · have hheld : q'.holds (.int m.partitionId) (.str m.msgId) = true := by
        rw [holds_append _ _ (hparts _)]
        cases hq : q.holds (.int m.partitionId) (.str m.msgId)
        · refine Or.inr ⟨m, List.mem_filter.mpr ⟨?_, by simp [hacked, hq]⟩, BEq.rfl, BEq.rfl⟩
          exact (hperm'.trans hperm.symm).subset hm
        · exact Or.inl rfl
      simp [hheld]
    · simp
  rw [hnone]
  exact List.append_nil _

def order (topic msgId : String) (day : Fin 28) : TypedMessage where
  msgId := msgId
  payload := .str "payload"
  partitionId := getPartition hashlibMd5 topic
  timestamp := ⟨2024, 1, day + 1, 12, 0, 0, 0, by decide, by decide,
    ⟨by omega, day.isLt.trans (by decide)⟩, by decide, by decide, by decide, by decide⟩
  acked := false
  deliveryCount := 0
  distinctKeys := trivial

/-- Two messages, which HGETALL returns in the wrong order: the second one as bytes. -/
def reversed (fmt : FloatFormat ℚ) : List Raw :=
  [.bytes ((order "orders" "y" 1).text fmt).toUTF8, .str ((order "orders" "x" 0).text fmt)]

theorem decode_toUTF8 (text : String) : (Raw.bytes text.toUTF8).decode = some text :=
  dif_pos text.isValidUTF8

theorem decode_reversed (fmt : FloatFormat ℚ) : (reversed fmt).map Raw.decode =
    [order "orders" "y" 1, order "orders" "x" 0].map fun m => some (m.text fmt) := by
  rw [reversed, List.map_cons, decode_toUTF8]
  rfl

theorem hgetall_reversed : Hgetall
    (persisted fmt [order "orders" "x" 0, order "orders" "y" 1]) (reversed fmt) := by
  rw [Hgetall, persisted_eq (by decide), decode_reversed]
  exact List.Perm.swap ..

theorem restores_two : ∃ added, added.Perm [order "orders" "x" 0, order "orders" "y" 1] ∧
    ∀ p, (setPersistenceStore (.ofEncodable ℚ) 0 empty (reversed (.ofEncodable ℚ))).partition p =
      ofPartition p added := by
  obtain ⟨q', rfl, ⟨added, hperm, hparts⟩, -, -⟩ := restores (.ofEncodable ℚ) 0 0 empty rfl
    [order "orders" "x" 0, order "orders" "y" 1] (by decide) _ _ hgetall_reversed hgetall_reversed
  exact ⟨added, hperm, hparts⟩

/-! ## The order of recovery -/

variable (md5 : String → ℕ)

/-- `consume` returns the messages that wait in the partition of a topic in the order of the log. -/
def ConsumesInOrder (q : DistributedQueue) (log : List LogEntry) : Prop :=
  ∀ topic consumerId batchSize, ∃ messages,
    (q.consume md5 topic consumerId batchSize).2 = .done (.consume topic consumerId messages) ∧
    messages.map QueueMessage.contents =
      (sliceTo (waiting md5 topic log) batchSize).map Published.contents

/-- The hash holds the messages of the log that wait, each with some number of deliveries. -/
structure Holds (log : List LogEntry) (msgs : List TypedMessage) : Prop where
  contents : msgs.map (fun m => m.message.contents) = (unacked log).map Published.contents
  unacked : ∀ m ∈ msgs, m.acked = false

variable {md5} {log : List LogEntry} {ms : List TypedMessage}

theorem map_sliceTo {α β : Type} (f : α → β) (l : List α) (i : ℤ) :
    (sliceTo l i).map f = sliceTo (l.map f) i := by
  unfold sliceTo
  split <;> simp

/-- What `consume` returns from a fresh queue that has recovered the messages. -/
theorem consume_recovered (now : ℚ) (md5 : String → ℕ) (hfresh : q.partitions = [])
    (henabled : q.persistenceEnabled = true)
    (hd : (ms.map TypedMessage.msgId).Nodup) (hacked : ∀ m ∈ ms, m.acked = false)
    (hraws : raws.map Raw.decode = ms.map fun m => some (m.text fmt)) (topic : String)
    (consumerId : Value) (batchSize : ℤ) :
    ∃ messages, ((setPersistenceStore fmt now q raws).consume md5 topic consumerId batchSize).2 =
        .done (.consume topic consumerId messages) ∧
      messages.map QueueMessage.contents = (sliceTo (ofPartition (.int (getPartition md5 topic)) ms)
        batchSize).map QueueMessage.contents := by
  set q' := setPersistenceStore fmt now q raws with hq'
  have hmissing : missing q ms = ms :=
    List.filter_eq_self.mpr fun m hm => by simp [hacked m hm, holds, partition, hfresh]
  have hparts : ∀ p, q'.partition p = ofPartition p ms := by
    intro p
    rw [hq', setPersistenceStore, if_pos henabled, loadPersistedMessages_texts hraws,
      (loadPersistedMessages_persisted hd).1, hmissing, partition, hfresh]
    rfl
  have havail : ∀ p, q'.available p = ofPartition p ms := by
    intro p
    show (q'.partition p).filter _ = _
    rw [hparts]
    refine List.filter_eq_self.mpr fun msg hmsg => ?_
    obtain ⟨m, hm, -, rfl⟩ := mem_ofPartition.mp hmsg
    simp [TypedMessage.message, hacked m hm]
  obtain ⟨k, hk, hret, -⟩ := consume_eq md5 (q := q') topic consumerId batchSize
  refine ⟨_, hret, ?_⟩
  have htake : (q'.available (.int (getPartition md5 topic))).take k =
      sliceTo (q'.available (.int (getPartition md5 topic))) batchSize := by
    rw [hk, sliceTo]
    split <;> rw [List.length_take, List.take_eq_take_iff] <;> omega
  rw [htake, havail, List.map_map]
  rfl

theorem Holds.waiting (h : Holds log msgs) (topic : String) :
    (waiting md5 topic log).map Published.contents =
      (ofPartition (.int (getPartition md5 topic)) msgs).map QueueMessage.contents := by
  have := congrArg (List.filter fun c => c.2.2 == Value.int (getPartition md5 topic)) h.contents
  rw [List.filter_map, List.filter_map] at this
  rw [ofPartition, List.map_map]
  exact this.symm

/-- Where ids are distinct, a message is known by what it says. -/
theorem eq_of_contents (hd : (msgs.map TypedMessage.msgId).Nodup) {l l' : List QueueMessage}
    (hl : ∀ msg ∈ l, ∃ m ∈ msgs, m.message = msg) (hl' : ∀ msg ∈ l', ∃ m ∈ msgs, m.message = msg)
    (h : l.map QueueMessage.contents = l'.map QueueMessage.contents) : l = l' := by
  induction l generalizing l' with
  | nil => exact (List.map_eq_nil_iff.mp h.symm).symm
  | cons msg l ih =>
    obtain _ | ⟨msg', l'⟩ := l'
    · cases h
    obtain ⟨⟨m, hm, rfl⟩, hrest⟩ := List.forall_mem_cons.mp hl
    obtain ⟨⟨m', hm', rfl⟩, hrest'⟩ := List.forall_mem_cons.mp hl'
    obtain ⟨hhead, htail⟩ := List.cons.inj h
    have hid : m.msgId = m'.msgId := Value.str.inj (congrArg Prod.fst hhead)
    rw [List.inj_on_of_nodup_map hd hm hm' hid, ih hrest hrest' htail]

theorem exists_of_mem_ofPartition (hperm : ms.Perm msgs) (p : Value) :
    ∀ msg ∈ ofPartition p ms, ∃ m ∈ msgs, m.message = msg := by
  intro msg hmsg
  obtain ⟨m, hm, -, hmsg⟩ := mem_ofPartition.mp hmsg
  exact ⟨m, hperm.subset hm, hmsg⟩

/-- After recovery the messages of every topic are consumed in the order of the log, exactly if
HGETALL returns those of each partition in this order. -/
theorem publishOrder_iff (fmt : FloatFormat ℚ) (now : ℚ) (md5 : String → ℕ) (log : List LogEntry)
    (msgs : List TypedMessage) (hd : (msgs.map TypedMessage.msgId).Nodup) (hlog : Holds log msgs)
    (q : DistributedQueue) (hfresh : q.partitions = []) (henabled : q.persistenceEnabled = true)
    (raws : List Raw) (ms : List TypedMessage) (hperm : ms.Perm msgs)
    (hraws : raws.map Raw.decode = ms.map fun m => some (m.text fmt)) :
    ConsumesInOrder md5 (setPersistenceStore fmt now q raws) log ↔
      ∀ topic, ofPartition (.int (getPartition md5 topic)) ms =
        ofPartition (.int (getPartition md5 topic)) msgs := by
  have hconsume := consume_recovered now md5 hfresh henabled
    (((hperm.map _).nodup_iff).mpr hd) (fun m hm => hlog.unacked m (hperm.subset hm)) hraws
  constructor
  · intro h topic
    refine eq_of_contents hd (exists_of_mem_ofPartition hperm _)
      (exists_of_mem_ofPartition (.refl _) _) ?_
    -- a call that takes all the messages
    set n := max (ofPartition (.int (getPartition md5 topic)) ms).length
      (DistributedQueue.waiting md5 topic log).length with hn
    obtain ⟨messages, hret, hcontents⟩ := h topic .null n
    obtain ⟨messages', hret', hcontents'⟩ := hconsume topic .null n
    cases hret.symm.trans hret'
    rw [sliceTo_natCast, List.take_of_length_le (le_max_right _ _), hlog.waiting] at hcontents
    rw [sliceTo_natCast, List.take_of_length_le (le_max_left _ _)] at hcontents'
    exact hcontents'.symm.trans hcontents
  · intro h topic consumerId batchSize
    obtain ⟨messages, hret, hcontents⟩ := hconsume topic consumerId batchSize
    refine ⟨messages, hret, ?_⟩
    rw [hcontents, map_sliceTo, h topic, ← hlog.waiting, map_sliceTo]

/-- Message "x" is published before message "y". -/
def orders : List LogEntry := committed [publication 0 "orders" "x", publication 1 "orders" "y"]

theorem holds_orders : Holds orders [order "orders" "x" 0, order "orders" "y" 1] := by
  refine ⟨by decide +kernel, by decide⟩

theorem publishOrder_fails : ¬ ∀ (fmt : FloatFormat ℚ) (now : ℚ) (log : List LogEntry)
    (msgs : List TypedMessage) (q : DistributedQueue) (raws : List Raw),
    (msgs.map TypedMessage.msgId).Nodup → Holds log msgs → q.partitions = [] →
    q.persistenceEnabled = true → Hgetall (persisted fmt msgs) raws →
    ConsumesInOrder hashlibMd5 (setPersistenceStore fmt now q raws) log := by
  intro h
  obtain ⟨messages, hret, hcontents⟩ := h (.ofEncodable ℚ) 0 orders _ empty _ (by decide)
    holds_orders rfl rfl hgetall_reversed "orders" .null 2
  have hread := consume_recovered (q := empty) 0 hashlibMd5 rfl rfl (by decide)
    (by decide) (decode_reversed (.ofEncodable ℚ))
  obtain ⟨messages', hret', hcontents'⟩ := hread "orders" .null 2
  cases hret.symm.trans hret'
  have hsame := hcontents.symm.trans hcontents'
  revert hsame
  decide +kernel

theorem publishOrder_in_order : ConsumesInOrder hashlibMd5 (setPersistenceStore (.ofEncodable ℚ) 0
    empty (reversed (.ofEncodable ℚ)).reverse) orders := by
  refine (publishOrder_iff (.ofEncodable ℚ) 0 hashlibMd5 orders _ (by decide) holds_orders empty rfl
    rfl _ _ (.refl _) ?_).mpr fun _ => rfl
  rw [List.map_reverse, decode_reversed]
  rfl

end DistributedQueue.Redis

end DistributedSync
