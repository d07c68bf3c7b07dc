import DistributedSync.Services.QueueHistory
import Mathlib.Data.Set.Function

/-!
# Topics

A queue stores a message under the partition of its topic, and not the topic itself. So topics are
isolated from each other as long as their partitions differ, and only then
(`topicsIsolated_iff`).
-/

namespace DistributedSync

namespace DistributedQueue

variable (md5 : String → ℕ)

/-- A QUEUE_PUBLISH entry is the entry of a call of `publish` with a topic of `T`. -/
def PublishedFor (T : Set String) (e : LogEntry) : Prop :=
  e.command = "QUEUE_PUBLISH" → ∃ topic ∈ T, ∃ payload msgId replicas,
    e.data = (request (.publish topic payload msgId (getPartition md5 topic) replicas)).2

/-- The unacknowledged messages of a log that were published with a topic. -/
def unackedFor (topic : String) (log : List LogEntry) : List Published :=
  (unacked log).filter fun m => m.topic == some (.str topic)

/-- Calls of `consume` for a topic, and acknowledgements of the messages that they return. -/
inductive Drain (q : DistributedQueue) (topic : String) : List Event → Prop
  | nil : Drain q topic []
  | consume {es : List Event} (h : Drain q topic es) (consumerId : Value) (batchSize : ℤ) :
    Drain q topic (es ++ [.call (.consume topic consumerId batchSize)])
  | acknowledge {es : List Event} (h : Drain q topic es) (msgId consumerId : Value)
    (hid : deliveries md5 msgId q es ≠ 0) :
    Drain q topic (es ++ [.call (.acknowledge msgId consumerId)])
  | commit {es : List Event} (h : Drain q topic es) (now : ℚ) (e : LogEntry) (msgId : Value)
    (he : e.acked? = some msgId) (hid : deliveries md5 msgId q es ≠ 0) :
    Drain q topic (es ++ [.commit now e])

/-- In every run in which topics of `T` are published, the topics of `T` keep to themselves. -/
structure TopicsIsolated (T : Set String) : Prop where
  /-- A call of `consume` returns messages that were published with its topic. -/
  consume : ∀ (q₀ : DistributedQueue) (es : List Event), q₀.partitions = [] →
    DistinctIds (committed es) → (∀ e ∈ committed es, PublishedFor md5 T e) →
    ∀ topic ∈ T, ∀ consumerId batchSize, ∃ messages,
      ((q₀.run md5 es).consume md5 topic consumerId batchSize).2 =
        .done (.consume topic consumerId messages) ∧
      ∀ msg ∈ messages, ∃ m ∈ (committed es).filterMap LogEntry.published?,
        m.contents = msg.contents ∧ (m.topic == some (.str topic)) = true
  /-- The depth of a topic is the number of its unacknowledged messages. -/
  depth : ∀ (q₀ : DistributedQueue) (es : List Event), q₀.partitions = [] →
    DistinctIds (committed es) → (∀ e ∈ committed es, PublishedFor md5 T e) →
    ∀ topic ∈ T,
      (q₀.run md5 es).getQueueDepth md5 topic = (unackedFor topic (committed es)).length
  /-- Whatever the consumers of one topic do, the messages of another one can be consumed. -/
  drain : ∀ (q₀ : DistributedQueue) (es : List Event), q₀.partitions = [] →
    DistinctIds (committed es) → (∀ e ∈ committed es, PublishedFor md5 T e) →
    ∀ topic ∈ T, ∀ topic' ∈ T, topic' ≠ topic →
    ∀ es', Drain md5 (q₀.run md5 es) topic es' → ∀ m ∈ unackedFor topic' (committed es),
    ∀ consumerId, ∃ batchSize messages,
      ((q₀.run md5 (es ++ es')).consume md5 topic' consumerId batchSize).2 =
        .done (.consume topic' consumerId messages) ∧
      ∃ msg ∈ messages, msg.contents = m.contents

variable {md5} {T : Set String}

/-- A stored message lies in the partition of its topic. -/
theorem PublishedFor.eq {e : LogEntry} (h : PublishedFor md5 T e) {m : Published}
    (hm : e.published? = some m) :
    ∃ topic ∈ T, m.partitionId = .int (getPartition md5 topic) ∧ m.topic = some (.str topic) := by
  have hc : e.command = "QUEUE_PUBLISH" := by
    by_contra hc
    rw [LogEntry.published?, if_neg hc] at hm
    cases hm
  obtain ⟨topic, htopic, payload, msgId, replicas, hdata⟩ := h hc
  rw [published?_of_request (Prod.ext hc hdata)] at hm
  cases hm
  exact ⟨topic, htopic, rfl, rfl⟩

theorem waiting_eq (hT : Set.InjOn (getPartition md5) T) {log : List LogEntry}
    (h : ∀ e ∈ log, PublishedFor md5 T e) {topic : String} (htopic : topic ∈ T) :
    waiting md5 topic log = unackedFor topic log := by
  refine List.filter_congr fun m hm => ?_
  obtain ⟨e, he, hm⟩ := List.mem_filterMap.mp ((unacked_sublist log).subset hm)
  obtain ⟨topic', htopic', hpart, hname⟩ := (h e he).eq hm
  rw [hpart, hname, Bool.eq_iff_iff, Value.int_beq_int]
  show _ ↔ (Value.str topic' == Value.str topic) = true
  rw [Value.str_beq_str]
  exact ⟨fun h => hT htopic' htopic h, congrArg _⟩

/-- The consumers of a topic publish nothing, return only what lies in its partition, and leave the
messages of the other partitions where they are. -/
structure Drained (md5 : String → ℕ) (q₀ : DistributedQueue) (topic : String)
    (es es' : List Event) :
    Prop where
  published : (committed (es ++ es')).filterMap LogEntry.published? =
    (committed es).filterMap LogEntry.published?
  returned : ∀ msgId, deliveries md5 msgId (q₀.run md5 es) es' ≠ 0 →
    ∃ m ∈ (committed es).filterMap LogEntry.published?, (m.msgId == msgId) = true ∧
      (m.partitionId == .int (getPartition md5 topic)) = true
  stay : ∀ m ∈ unacked (committed es), ¬(m.partitionId == .int (getPartition md5 topic)) = true →
    m ∈ unacked (committed (es ++ es'))

variable {q₀ : DistributedQueue} {es es' : List Event} {topic : String}

theorem run_append : q₀.run md5 (es ++ es') = (q₀.run md5 es).run md5 es' := List.foldl_append ..

theorem Drained.call (h : Drained md5 q₀ topic es es') {op : Op}
    (hop : ∀ msg ∈ (q₀.run md5 (es ++ es')).returned md5 (.call op),
      ∃ m ∈ waiting md5 topic (committed (es ++ es')), m.contents = msg.contents) :
    Drained md5 q₀ topic es (es' ++ [.call op]) := by
  refine ⟨?_, fun msgId hne => ?_, fun m hm hp => ?_⟩
  · rw [← List.append_assoc, committed_call, h.published]
  · by_cases h0 : deliveries md5 msgId (q₀.run md5 es) es' = 0
    · rw [deliveries_concat, h0, Nat.zero_add, ite_ne_right_iff, ← run_append] at hne
      obtain ⟨msg, hmsg, hid⟩ := List.any_eq_true.mp hne.1
      obtain ⟨m, hm, hcontents⟩ := hop msg hmsg
      obtain ⟨hm, hp⟩ := List.mem_filter.mp hm
      refine ⟨m, h.published ▸ (unacked_sublist _).subset hm, ?_, hp⟩
      rwa [show m.msgId = msg.msgId from congrArg Prod.fst hcontents]
    · exact h.returned msgId h0
  · rw [← List.append_assoc, committed_call]
    exact h.stay m hm hp

theorem Drain.drained (h₀ : q₀.partitions = []) (hd : DistinctIds (committed es))
    (h : Drain md5 (q₀.run md5 es) topic es') : Drained md5 q₀ topic es es' := by
  induction h with
  | nil =>
    exact ⟨by rw [List.append_nil], fun _ h => absurd rfl h, fun m hm _ => by rwa [List.append_nil]⟩
  | @consume es' _ consumerId batchSize ih =>
    have hd' : DistinctIds (committed (es ++ es')) := by
      rw [DistinctIds, ih.published]
      exact hd
    exact ih.call fun msg hmsg => waiting_of_returned md5 h₀ hd' hmsg
  | @acknowledge es' _ msgId consumerId _ ih =>
    refine ih.call fun msg hmsg => ?_
    rw [(start_other fun _ _ _ h => by cases h).2] at hmsg
    cases hmsg
  | @commit es' _ now e msgId he hid ih =>
    have hpub : e.published? = none := by
      rcases h : e.published? with _ | m
      · rfl
      · rw [LogEntry.acked?_of_published h] at he
        cases he
    refine ⟨?_, fun msgId' hne => ?_, fun m hm hp => ?_⟩
    · rw [← List.append_assoc, committed_commit, List.filterMap_append, ih.published]
      simp [hpub]
    · rw [deliveries_concat] at hne
      exact ih.returned msgId' hne
    · rw [← List.append_assoc, committed_commit, unacked_concat, hpub]
      refine List.mem_append_left _ (List.mem_filter.mpr ⟨ih.stay m hm hp, ?_⟩)
      -- the entry acknowledges a message of the topic's partition
      obtain ⟨m', hm', hid', hp'⟩ := ih.returned msgId hid
      rw [LogEntry.acks, he, Option.any_some, Bool.not_eq_true', Bool.eq_false_iff]
      intro hack
      obtain rfl := eq_of_msgId hd ((unacked_sublist _).subset hm) hm'
        (BEq.trans hack (BEq.symm hid'))
      exact hp hp'

theorem isolated_of_injOn (hT : Set.InjOn (getPartition md5) T) : TopicsIsolated md5 T := by
  refine ⟨fun q₀ es h₀ hd hpub topic htopic consumerId batchSize => ?_,
    fun q₀ es h₀ hd hpub topic htopic => ?_,
    fun q₀ es h₀ hd hpub topic htopic topic' htopic' hne es' hdrain m hm consumerId => ?_⟩
  · obtain ⟨k, -, hret, -⟩ :=
      consume_eq md5 (q := q₀.run md5 es) topic consumerId batchSize
    refine ⟨_, hret, fun msg hmsg => ?_⟩
    have hmsg' :
        msg ∈ (q₀.run md5 es).returned md5 (.call (.consume topic consumerId batchSize)) := by
      rwa [returned, start, hret]
    obtain ⟨m, hm, hcontents⟩ := waiting_of_returned md5 h₀ hd hmsg'
    rw [waiting_eq hT hpub htopic] at hm
    obtain ⟨hm, hname⟩ := List.mem_filter.mp hm
    exact ⟨m, (unacked_sublist _).subset hm, hcontents, hname⟩
  · rw [depth_eq md5 h₀ hd, waiting_eq hT hpub htopic]
  · have h := Drain.drained h₀ hd hdrain
    have hd' : DistinctIds (committed (es ++ es')) := by
      rw [DistinctIds, h.published]
      exact hd
    rw [← waiting_eq hT hpub htopic'] at hm
    obtain ⟨hm, hp⟩ := List.mem_filter.mp hm
    -- the message lies in another partition, so it stays
    have hm' : m ∈ waiting md5 topic' (committed (es ++ es')) := by
      refine List.mem_filter.mpr ⟨h.stay m hm fun hp' => hne (hT htopic' htopic ?_), hp⟩
      exact Value.int_beq_int.mp (BEq.trans (BEq.symm hp) hp')
    obtain ⟨messages, hret, hcontents⟩ := consume_contents md5 h₀ hd' topic' consumerId
      ((waiting md5 topic' (committed (es ++ es'))).length + 1 : ℕ) (by omega)
    rw [Int.toNat_natCast, List.take_of_length_le (by omega)] at hcontents
    exact ⟨_, messages, hret, List.mem_map.mp (hcontents ▸ List.mem_map_of_mem hm')⟩

theorem committed_singleton (now : ℚ) (e : LogEntry) : committed [.commit now e] = [e] := rfl

theorem not_isolated (topic topic' : String) (ht : topic ∈ T) (ht' : topic' ∈ T)
    (hne : topic ≠ topic') (hp : getPartition md5 topic = getPartition md5 topic') :
    ¬TopicsIsolated md5 T := by
  intro h
  set e := entryOf 1 0 (.publish topic' .null "m" (getPartition md5 topic') [])
  set m : Published := ⟨.str "m", .str "None", .int (getPartition md5 topic'), some (.str topic')⟩
  have hpub : e.published? = some m := published?_of_request
    (show (e.command, e.data) = request (.publish topic' .null "m" (getPartition md5 topic') [])
      from rfl)
  have hd : DistinctIds (committed [.commit 0 e]) := by
    rw [committed_singleton]
    simp [DistinctIds, hpub]
  have hwaiting : waiting md5 topic (committed [.commit 0 e]) = [m] := by
    have hpart : (m.partitionId == .int (getPartition md5 topic)) = true :=
      Value.int_beq_int.mpr hp.symm
    rw [committed_singleton]
    simp [waiting, unacked, hpub, hpart]
  obtain ⟨messages, hret, hmsg⟩ := h.consume empty [.commit 0 e] rfl hd
    (fun e' he' _ => ⟨topic', ht', .null, "m", [], by rw [List.mem_singleton.mp he']; rfl⟩)
    topic ht .null 1
  obtain ⟨messages', hret', hcontents⟩ :=
    consume_contents md5 (rfl : empty.partitions = []) hd topic .null 1 le_rfl
  obtain rfl : messages = messages' := by
    rw [hret] at hret'
    injection hret' with hret'
    injection hret'
  -- the message of the other topic is returned
  rw [hwaiting] at hcontents
  obtain ⟨msg, hmem, -⟩ := List.mem_map.mp
    (hcontents ▸ List.mem_singleton_self m.contents :
      m.contents ∈ messages.map QueueMessage.contents)
  obtain ⟨m', hm', -, hname⟩ := hmsg msg hmem
  rw [committed_singleton, List.filterMap_cons, hpub, List.filterMap_nil,
    List.mem_singleton] at hm'
  subst hm'
  exact hne (Value.str_beq_str.mp hname).symm

/-- The topics of a set keep to themselves exactly if their partitions differ. -/
theorem topicsIsolated_iff (md5 : String → ℕ) (T : Set String) :
    TopicsIsolated md5 T ↔ Set.InjOn (getPartition md5) T := by
  refine ⟨fun h topic ht topic' ht' hp => ?_, isolated_of_injOn⟩
  by_contra hne
  exact not_isolated topic topic' ht ht' hne hp h

/-- The topics `orders` and `topic_name` have partition 3. -/
theorem topicsIsolated_fails : ¬TopicsIsolated hashlibMd5 {"orders", "topic_name"} :=
  not_isolated "orders" "topic_name" (by simp) (by simp) (by decide) (by decide +kernel)

end DistributedQueue

end DistributedSync
