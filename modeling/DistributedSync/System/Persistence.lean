import DistributedSync.System.Restart

/-!
# The order of store commands

Every committed message, every delivery and every acknowledgement schedules a task of its own, which
reads the message when it runs and sends one command to Redis. Nothing orders the commands of
different tasks. An `hset` that was sent before the acknowledgement of its message and takes effect
after the `hdel` brings the message back for good. As long as no `hset` comes so late the hash
settles to the messages that are not acknowledged (`store_settles`).
-/

namespace DistributedSync

/-! ## Commands -/

/-- What a task sends to Redis. The fields of the hash are ids of messages, which are strings. -/
inductive StoreCommand where
  | hset (msgId : Value) (data : StoredMessage)
  | hdel (msgId : Value)

/-- The command takes effect on the hash. -/
def StoreCommand.apply (redis : List (Value × StoredMessage)) :
    StoreCommand → List (Value × StoredMessage)
  | .hset msgId data => setItem redis msgId data
  | .hdel msgId => delItem redis msgId

/-- What a stored message says, its deliveries apart. -/
def StoredMessage.contents (data : StoredMessage) : Value × Value × Value :=
  (data.msgId, data.payload, data.partitionId)

namespace DistributedQueue

/-- The entry that an event applies. -/
def Event.entry? : Event → Option LogEntry
  | .commit _ entry => some entry
  | .call _ => none

variable (md5 : String → ℕ) (q : DistributedQueue)

/-- `_persist_message` and `_delete_persisted_message` up to their await: the message is read when
the task runs. -/
def command : QueueTask → Option StoreCommand
  | .persistMessage partitionId position =>
    (q.partition partitionId)[position]?.map fun msg => .hset msg.msgId msg.persisted
  | .deletePersistedMessage msgId => some (.hdel msgId)

theorem runTask_eq (redis : List (Value × StoredMessage)) (task : QueueTask) :
    q.runTask redis task = ((q.command task).map fun c => c.apply redis).getD redis := by
  cases task with
  | persistMessage partitionId position =>
    unfold runTask command
    dsimp only
    cases (q.partition partitionId)[position]? <;> rfl
  | deletePersistedMessage msgId => rfl

/-- The tasks that an event schedules. -/
def scheduled : Event → List QueueTask
  | .commit _ entry => q.commitTasks entry
  | .call op => q.startTasks md5 op

end DistributedQueue

open DistributedQueue

/-! ## Logs and hashes -/

/-- The log publishes the message. -/
def Publishes (log : List LogEntry) (m : Published) : Prop :=
  ∃ e ∈ log, e.published? = some m

/-- A publication of `publish`, which draws a new string as the id. -/
structure Draws (log : List LogEntry) (m : Published) : Prop where
  string : ∃ id, m.msgId = .str id
  partition : ∃ k, m.partitionId = .int k
  unacked : ∀ e ∈ log, e.acks m.msgId = false
  fresh : ∀ m', Publishes log m' → (m'.msgId == m.msgId) = false

/-- All publications of the log are those of `publish`. -/
def DrawnLog (log : List LogEntry) : Prop :=
  ∀ pre e, pre ++ [e] <+: log → ∀ m ∈ e.published?, Draws pre m

/-- The entries of the hash that are not acknowledged are the unacknowledged messages of the log. -/
structure Stores (redis : List (Value × StoredMessage)) (log : List LogEntry) : Prop where
  keys : redis.Pairwise fun p p' => (p.1 == p'.1) = false
  unacked : ∀ p ∈ redis, p.2.acked = false →
    ∃ m ∈ DistributedSync.unacked log, (p.1 == m.msgId) = true ∧ p.2.contents = m.contents
  stored : ∀ m ∈ DistributedSync.unacked log,
    ∃ p ∈ redis, p.2.acked = false ∧ (p.1 == m.msgId) = true ∧ p.2.contents = m.contents

/-! ## The queue with its store -/

/-- A queue with its store: the entries it has applied, the scheduled tasks, the commands on their
way and the hash. -/
structure PersistedQueue where
  queue : DistributedQueue
  log : List LogEntry := []
  tasks : List QueueTask := []
  commands : List StoreCommand := []
  redis : List (Value × StoredMessage) := []

/-- A step of the queue, the next run of a task, or the effect of a command. -/
inductive PersistEvent where
  | queue (ev : DistributedQueue.Event)
  | run (k : ℕ)
  | effect (k : ℕ)

/-- One step; `none` when the event is not possible. -/
def persistStep (md5 : String → ℕ) (s : PersistedQueue) : PersistEvent → Option PersistedQueue
  | .queue ev => some { s with
      queue := s.queue.step md5 ev
      log := s.log ++ ev.entry?.toList
      tasks := s.tasks ++ s.queue.scheduled md5 ev }
  | .run k => s.tasks[k]?.map fun task => { s with
      tasks := s.tasks.eraseIdx k
      commands := s.commands ++ (s.queue.command task).toList }
  | .effect k => s.commands[k]?.map fun command => { s with
      commands := s.commands.eraseIdx k
      redis := command.apply s.redis }

namespace PersistedQueue

variable (s : PersistedQueue)

/-- All tasks have finished. -/
def Idle : Prop := s.tasks = [] ∧ s.commands = []

/-- An `hdel` for the id is still to take effect. -/
def Deleting (id : Value) : Prop :=
  ∃ id', (id == id') = true ∧ (.deletePersistedMessage id' ∈ s.tasks ∨ .hdel id' ∈ s.commands)

def Acknowledged (id : Value) : Prop := ∃ e ∈ s.log, e.acks id = true

/-- The hash holds the messages that are not acknowledged, as such, and a queue that recovers from
it makes these available and no others. -/
structure Settled : Prop where
  stores : Stores s.redis s.log
  recovered : ∀ q : DistributedQueue, q.partitions = [] → q.persistenceEnabled = true → ∀ p c,
    (∃ msg ∈ (q.setPersistenceStore (some (s.redis.map Prod.snd))).available p,
      msg.contents = c) ↔ ∃ m ∈ unacked s.log, (p == m.partitionId) = true ∧ m.contents = c

/-- The store of a new queue has been attached. It holds the unacknowledged messages of a log, which
is empty when the node starts for the first time. -/
structure Started : Prop where
  idle : s.Idle
  drawn : DrawnLog s.log
  stores : Stores s.redis s.log
  attached : ∃ q : DistributedQueue, q.partitions = [] ∧ q.persistenceEnabled = true ∧
    s.queue = q.setPersistenceStore (some (s.redis.map Prod.snd))

/-- An applied publication is one of `publish`. -/
def Drawn : PersistEvent → Prop
  | .queue ev => ∀ m ∈ ev.entry?.bind LogEntry.published?, Draws s.log m
  | .run _ | .effect _ => True

/-- An `hset` that does not know of the acknowledgement of its message takes effect before an
`hdel` of the message. -/
def InOrder : PersistEvent → Prop
  | .effect k => ∀ id data, s.commands[k]? = some (.hset id data) → data.acked = false →
      s.Acknowledged id → s.Deleting id
  | .queue _ | .run _ => True

end PersistedQueue

/-! ## What the queue holds -/

namespace DistributedQueue

/-- The messages of a partition, with their acknowledgements. -/
def status (q : DistributedQueue) (p : Value) : List ((Value × Value × Value) × Bool) :=
  (q.partition p).map fun msg => (msg.contents, msg.acked)

/-- A partition holds the message, acknowledged or not. -/
def Has (q : DistributedQueue) (c : Value × Value × Value) (acked : Bool) : Prop :=
  ∃ p, (c, acked) ∈ q.status p

/-- The message at a position of a partition. -/
def At (q : DistributedQueue) (p : Value) (i : ℕ) (c : Value × Value × Value) : Prop :=
  ∃ acked, (q.status p)[i]? = some (c, acked)

variable {md5 : String → ℕ} {q : DistributedQueue}

theorem status_congr {p p' : Value} (h : (p == p') = true) : q.status p = q.status p' := by
  rw [status, partition_congr h, status]

theorem deliver_status (k : ℕ) (msgs : List QueueMessage) :
    ((deliver k msgs).1.map fun msg => (msg.contents, msg.acked)) =
      msgs.map fun msg => (msg.contents, msg.acked) := by
  induction msgs generalizing k with
  | nil => rfl
  | cons msg msgs ih =>
    unfold deliver
    split
    · rw [List.map_cons, List.map_cons, ih]
    · rw [List.map_cons, List.map_cons, ih]
      rfl

theorem status_call (op : Op) (p : Value) : (q.start md5 op).1.status p = q.status p := by
  cases op with
  | consume topic consumerId batchSize =>
    rcases hq : q.partitions.lookup (.int (getPartition md5 topic)) with _ | msgs
    · simp only [start, DistributedQueue.consume, hq]
    · simp only [start, DistributedQueue.consume, hq]
      unfold status partition
      rw [lookup_setItem]
      split
      · next hp => rw [lookup_congr hp, hq, Option.getD_some, Option.getD_some, deliver_status]
      · rfl
  | _ =>
    rw [status, partition, (start_other (fun _ _ _ h => by cases h)).1]
    rfl

theorem status_commit (now : ℚ) (e : LogEntry) (p : Value) :
    (q.handleCommit now e).1.status p =
      (q.status p).map (fun x => (x.1, x.2 || e.acks x.1.1)) ++
        (e.published?.toList.filter fun m => m.partitionId == p).map
          fun m => (m.contents, false) := by
  rcases hpub : e.published? with _ | m
  · rcases hack : e.acked? with _ | msgId
    · have hno : ∀ id, e.acks id = false := fun id => by simp [LogEntry.acks, hack]
      simp [status, partition, handleCommit_other hpub hack, hno]
    · have hid : ∀ id, e.acks id = (id == msgId) := fun id => by simp [LogEntry.acks, hack]
      simp only [status, partition, handleCommit_acked hack, lookup_map_snd, hid]
      cases q.partitions.lookup p with
      | none => rfl
      | some msgs =>
        rw [Option.map_some, Option.getD_some, Option.getD_some, List.map_map, List.map_map]
        simp only [Option.toList_none, List.filter_nil, List.map_nil, List.append_nil]
        refine List.map_congr_left fun msg _ => ?_
        simp only [Function.comp_apply, QueueMessage.contents]
        cases msg.msgId == msgId <;> simp
  · have hno : ∀ id, e.acks id = false := fun id => by
      simp [LogEntry.acks, LogEntry.acked?_of_published hpub]
    rw [status, partition, handleCommit_published hpub, lookup_setItem]
    by_cases hp : (m.partitionId == p) = true
    · simp [status, partition, hno, hp, BEq.symm hp, stored, lookup_congr hp,
        QueueMessage.contents, Published.contents]
    · have hp' : ¬(p == m.partitionId) = true := fun h => hp (BEq.symm h)
      simp [status, partition, hno, hp, hp']

/-- An event acknowledges messages and adds one. -/
theorem status_step (ev : Event) (p : Value) : (q.step md5 ev).status p =
    (q.status p).map (fun x => (x.1, x.2 || ev.entry?.any fun e => e.acks x.1.1)) ++
      ((ev.entry?.bind LogEntry.published?).toList.filter fun m => m.partitionId == p).map
        fun m => (m.contents, false) := by
  cases ev with
  | commit now e => exact status_commit now e p
  | call op =>
    rw [step, status_call]
    simp [Event.entry?]

theorem has_step {ev : Event} {c : Value × Value × Value} {b : Bool} :
    (q.step md5 ev).Has c b ↔
      (∃ b', q.Has c b' ∧ b = (b' || ev.entry?.any fun e => e.acks c.1)) ∨
      ∃ m ∈ ev.entry?.bind LogEntry.published?, m.contents = c ∧ b = false := by
  constructor
  · rintro ⟨p, h⟩
    rw [status_step] at h
    rcases List.mem_append.mp h with h | h
    · obtain ⟨x, hx, heq⟩ := List.mem_map.mp h
      cases heq
      exact Or.inl ⟨x.2, ⟨p, hx⟩, rfl⟩
    · obtain ⟨m, hm, heq⟩ := List.mem_map.mp h
      cases heq
      exact Or.inr ⟨m, Option.mem_toList.mp (List.mem_of_mem_filter hm), rfl, rfl⟩
  · rintro (⟨b', ⟨p, h⟩, rfl⟩ | ⟨m, hm, rfl, rfl⟩)
    · refine ⟨p, ?_⟩
      rw [status_step]
      exact List.mem_append_left _ (List.mem_map.mpr ⟨_, h, rfl⟩)
    · refine ⟨m.partitionId, ?_⟩
      rw [status_step]
      refine List.mem_append_right _ (List.mem_map.mpr ⟨m, ?_, rfl⟩)
      exact List.mem_filter.mpr ⟨Option.mem_toList.mpr hm, BEq.rfl⟩

theorem At.step {p : Value} {i : ℕ} {c : Value × Value × Value} (h : q.At p i c) (ev : Event) :
    (q.step md5 ev).At p i c := by
  obtain ⟨b, h⟩ := h
  refine ⟨b || ev.entry?.any fun e => e.acks c.1, ?_⟩
  have hlt := (List.getElem?_eq_some_iff.mp h).1
  rw [status_step, List.getElem?_append_left (by rwa [List.length_map]), List.getElem?_map, h]
  rfl

end DistributedQueue

/-! ## What the log says -/

variable {log : List LogEntry} {e : LogEntry} {m m' : Published}

theorem publishes_concat :
    Publishes (log ++ [e]) m ↔ Publishes log m ∨ e.published? = some m := by
  simp [Publishes, or_and_right, exists_or]

theorem DrawnLog.concat (h : DrawnLog log) (he : ∀ m ∈ e.published?, Draws log m) :
    DrawnLog (log ++ [e]) := by
  intro pre e' hp m hm
  rcases List.prefix_concat_iff.mp hp with heq | hp
  · obtain ⟨rfl, hlast⟩ := List.append_inj' heq rfl
    obtain rfl := List.singleton_inj.mp hlast
    exact he m hm
  · exact h pre e' hp m hm

theorem DrawnLog.of_concat (h : DrawnLog (log ++ [e])) :
    DrawnLog log ∧ ∀ m ∈ e.published?, Draws log m :=
  ⟨fun pre e' hp => h pre e' (hp.trans (List.prefix_append ..)), h log e List.prefix_rfl⟩

/-- A message waits exactly if it has been published and not acknowledged. -/
theorem DrawnLog.mem_unacked (h : DrawnLog log) :
    m ∈ unacked log ↔ Publishes log m ∧ ∀ e ∈ log, e.acks m.msgId = false := by
  induction log using List.reverseRecOn with
  | nil => simp [unacked, Publishes]
  | append_singleton log e ih =>
    obtain ⟨hlog, he⟩ := h.of_concat
    simp only [unacked_concat, List.mem_append, List.mem_filter, ih hlog, Option.mem_toList,
      publishes_concat, Bool.not_eq_true', List.mem_singleton]
    constructor
    · rintro (⟨⟨hpub, hno⟩, hack⟩ | hm)
      · refine ⟨Or.inl hpub, ?_⟩
        rintro e' (he' | rfl)
        · exact hno e' he'
        · exact hack
      · refine ⟨Or.inr hm, ?_⟩
        rintro e' (he' | rfl)
        · exact (he m hm).unacked e' he'
        · simp [LogEntry.acks, LogEntry.acked?_of_published hm]
    · rintro ⟨hpub | hm, hno⟩
      · exact Or.inl ⟨⟨hpub, fun e' he' => hno e' (Or.inl he')⟩, hno e (Or.inr rfl)⟩
      · exact Or.inr hm

theorem DrawnLog.draws (h : DrawnLog log) (hm : Publishes log m) :
    (∃ id, m.msgId = .str id) ∧ ∃ k, m.partitionId = .int k := by
  obtain ⟨e, he, hm⟩ := hm
  obtain ⟨pre, post, rfl⟩ := List.append_of_mem he
  have hd := h pre e ⟨post, by simp⟩ m hm
  exact ⟨hd.string, hd.partition⟩

theorem DrawnLog.distinctIds (h : DrawnLog log) : DistinctIds log := by
  induction log using List.reverseRecOn with
  | nil => exact .nil
  | append_singleton log e ih =>
    obtain ⟨hlog, he⟩ := h.of_concat
    rw [DistinctIds, List.filterMap_append]
    refine List.pairwise_append.mpr ⟨ih hlog, ?_, fun m' hm' m hm => ?_⟩
    · rcases hpub : e.published? with _ | m <;> simp [hpub]
    · obtain ⟨e', he', hm'⟩ := List.mem_filterMap.mp hm'
      refine (he m ?_).fresh m' ⟨e', he', hm'⟩
      rcases hpub : e.published? with _ | m₁
      · simp [hpub] at hm
      · simpa [hpub, eq_comm] using hm

theorem DrawnLog.eq_of_msgId (h : DrawnLog log) (hm : Publishes log m) (hm' : Publishes log m')
    (hid : (m.msgId == m'.msgId) = true) : m = m' := by
  obtain ⟨e, he, hm⟩ := hm
  obtain ⟨e', he', hm'⟩ := hm'
  exact DistributedQueue.eq_of_msgId h.distinctIds (List.mem_filterMap.mpr ⟨e, he, hm⟩)
    (List.mem_filterMap.mpr ⟨e', he', hm'⟩) hid

/-! ## Recovery -/

namespace DistributedQueue

variable {q : DistributedQueue}

theorem holds_iff {p id : Value} :
    q.holds p id = true ↔ ∃ x ∈ q.status p, (x.1.1 == id) = true := by
  simp [holds, status, QueueMessage.contents]

/-- A message whose id is not there is added to its partition. -/
theorem loadMessage_status {data : StoredMessage} {k : ℤ} (hacked : data.acked = false)
    (hpart : data.partitionId = .int k) (hnew : q.holds (.int k) data.msgId = false) :
    ∃ q', q.loadMessage data = some q' ∧ q'.persistenceEnabled = q.persistenceEnabled ∧
      ∀ p, q'.status p = q.status p ++
        if p == data.partitionId then [(data.contents, false)] else [] := by
  have hload : q.loadMessage data = some { q with
      partitions := setItem q.partitions (.int k) (q.partition (.int k) ++
        [{ msgId := data.msgId, payload := data.payload, partitionId := .int k,
           timestamp := data.timestamp, deliveryCount := data.deliveryCount }]) } := by
    simp [loadMessage, hacked, hpart, Value.toInt?, hnew]
  refine ⟨_, hload, rfl, fun p => ?_⟩
  rw [status, partition, lookup_setItem, hpart]
  by_cases hp : (p == .int k) = true
  · rw [if_pos hp, if_pos hp, Option.getD_some, status_congr hp]
    simp [status, StoredMessage.contents, QueueMessage.contents, hpart]
  · rw [if_neg hp, if_neg hp, List.append_nil, status, partition]

/-- Recovery adds the messages that are not acknowledged, if their ids are distinct. -/
theorem loadPersistedMessages_status {raw : List StoredMessage}
    (hpart : ∀ data ∈ raw, data.acked = false → ∃ k, data.partitionId = .int k)
    (hraw : (raw.filter fun data => !data.acked).Pairwise fun data data' =>
      (data.msgId == data'.msgId) = false)
    (hnew : ∀ p, ∀ x ∈ q.status p, ∀ data ∈ raw, data.acked = false →
      (x.1.1 == data.msgId) = false) :
    (q.loadPersistedMessages raw).persistenceEnabled = q.persistenceEnabled ∧
      ∀ p x, x ∈ (q.loadPersistedMessages raw).status p ↔ x ∈ q.status p ∨
        ∃ data ∈ raw, data.acked = false ∧ (p == data.partitionId) = true ∧
          x = (data.contents, false) := by
  induction raw generalizing q with
  | nil => simp [loadPersistedMessages]
  | cons data raw ih =>
    have hpart' : ∀ d ∈ raw, d.acked = false → ∃ k, d.partitionId = .int k := fun d hd =>
      hpart d (List.mem_cons_of_mem _ hd)
    cases hacked : data.acked with
    | true =>
      rw [List.filter_cons_of_neg (by simp [hacked])] at hraw
      have hload : q.loadMessage data = some q := by rw [loadMessage, if_pos hacked]
      obtain ⟨henabled, hstatus⟩ := ih hpart' hraw fun p x hx d hd =>
        hnew p x hx d (List.mem_cons_of_mem _ hd)
      simp only [loadPersistedMessages, hload]
      refine ⟨henabled, fun p x => ?_⟩
      simp [hstatus, hacked]
    | false =>
      rw [List.filter_cons_of_pos (by simp [hacked]), List.pairwise_cons] at hraw
      obtain ⟨k, hk⟩ := hpart data List.mem_cons_self hacked
      have hno : q.holds (.int k) data.msgId = false := by
        refine Bool.eq_false_iff.mpr fun h => ?_
        obtain ⟨x, hx, hid⟩ := holds_iff.mp h
        rw [hnew _ x hx data List.mem_cons_self hacked] at hid
        cases hid
      obtain ⟨q', hload, henabled', hstatus'⟩ := loadMessage_status hacked hk hno
      have hnew' : ∀ p, ∀ x ∈ q'.status p, ∀ d ∈ raw, d.acked = false →
          (x.1.1 == d.msgId) = false := by
        intro p x hx d hd hacked'
        rw [hstatus', List.mem_append] at hx
        rcases hx with hx | hx
        · exact hnew p x hx d (List.mem_cons_of_mem _ hd) hacked'
        · split at hx
          · obtain rfl := List.mem_singleton.mp hx
            exact hraw.1 d (List.mem_filter.mpr ⟨hd, by simp [hacked']⟩)
          · cases hx
      obtain ⟨henabled, hstatus⟩ := ih hpart' hraw.2 hnew'
      simp only [loadPersistedMessages, hload]
      refine ⟨henabled.trans henabled', fun p x => ?_⟩
      rw [hstatus, hstatus', List.mem_append, or_assoc]
      by_cases hp : (p == data.partitionId) = true <;> simp [hp, hacked]

theorem status_nil (h : q.partitions = []) (p : Value) : q.status p = [] := by
  simp [status, partition, h]

theorem mem_available {p : Value} {c : Value × Value × Value} :
    (∃ msg ∈ q.available p, msg.contents = c) ↔ (c, false) ∈ q.status p := by
  simp only [available, status, partition, List.mem_filter, List.mem_map, Prod.mk.injEq,
    Bool.not_eq_true', and_assoc, and_comm (a := QueueMessage.contents _ = c)]

end DistributedQueue

/-- A queue that recovers from the hash has the messages that are not acknowledged. -/
theorem Stores.recovers {redis : List (Value × StoredMessage)} (h : Stores redis log)
    (hd : DrawnLog log) {q : DistributedQueue} (hq : q.partitions = [])
    (henabled : q.persistenceEnabled = true) :
    (q.setPersistenceStore (some (redis.map Prod.snd))).persistenceEnabled = true ∧
      ∀ p c b, (c, b) ∈ (q.setPersistenceStore (some (redis.map Prod.snd))).status p ↔
        b = false ∧ ∃ m ∈ DistributedSync.unacked log,
          (p == m.partitionId) = true ∧ m.contents = c := by
  have hmem : ∀ data ∈ redis.map Prod.snd, data.acked = false →
      ∃ m ∈ DistributedSync.unacked log, data.contents = m.contents := by
    intro data hdata hacked
    obtain ⟨x, hx, rfl⟩ := List.mem_map.mp hdata
    obtain ⟨m, hm, -, hc⟩ := h.unacked x hx hacked
    exact ⟨m, hm, hc⟩
  have hdistinct : ((redis.map Prod.snd).filter fun data => !data.acked).Pairwise
      fun data data' => (data.msgId == data'.msgId) = false := by
    rw [List.filter_map]
    refine List.pairwise_map.mpr ((h.keys.filter _).imp_of_mem fun {x y} hx hy hxy => ?_)
    obtain ⟨hx, hxa⟩ := List.mem_filter.mp hx
    obtain ⟨hy, hya⟩ := List.mem_filter.mp hy
    obtain ⟨m, -, hxm, hc⟩ := h.unacked x hx (by simpa using hxa)
    obtain ⟨m', -, hym, hc'⟩ := h.unacked y hy (by simpa using hya)
    have hid : x.2.msgId = m.msgId := congrArg Prod.fst hc
    have hid' : y.2.msgId = m'.msgId := congrArg Prod.fst hc'
    rwa [hid, hid', ← BEq.congr_left hxm, ← BEq.congr_right hym]
  have hnumbered : ∀ data ∈ redis.map Prod.snd, data.acked = false →
      ∃ k, data.partitionId = .int k := by
    intro data hdata hacked
    obtain ⟨m, hm, hc⟩ := hmem data hdata hacked
    obtain ⟨k, hk⟩ := (hd.draws (hd.mem_unacked.mp hm).1).2
    exact ⟨k, (congrArg (fun c => c.2.2) hc).trans hk⟩
  have hempty : ∀ p, ∀ x ∈ q.status p, ∀ data ∈ redis.map Prod.snd, data.acked = false →
      (x.1.1 == data.msgId) = false := by
    intro p x hx
    rw [DistributedQueue.status_nil hq] at hx
    cases hx
  obtain ⟨hen, hstatus⟩ :=
    DistributedQueue.loadPersistedMessages_status hnumbered hdistinct hempty
  unfold DistributedQueue.setPersistenceStore
  simp only [henabled, if_true]
  refine ⟨hen.trans henabled, fun p c b => ?_⟩
  rw [hstatus, DistributedQueue.status_nil hq]
  constructor
  · rintro (hx | ⟨data, hdata, hacked, hp, hx⟩)
    · cases hx
    · cases hx
      obtain ⟨m, hm, hc⟩ := hmem data hdata hacked
      have hpart : data.partitionId = m.partitionId := congrArg (fun c => c.2.2) hc
      exact ⟨rfl, m, hm, hpart ▸ hp, hc.symm⟩
  · rintro ⟨rfl, m, hm, hp, rfl⟩
    obtain ⟨x, hx, hacked, -, hc⟩ := h.stored m hm
    have hpart : x.2.partitionId = m.partitionId := congrArg (fun c => c.2.2) hc
    exact Or.inr ⟨x.2, List.mem_map_of_mem hx, hacked, hpart ▸ hp, by rw [hc]⟩

/-! ## What an event schedules -/

namespace DistributedQueue

variable {md5 : String → ℕ} {q : DistributedQueue}

theorem availableAt_lt {k position : ℕ} {msgs : List QueueMessage} {i : ℕ}
    (h : i ∈ availableAt k position msgs) : i < position + msgs.length := by
  induction msgs generalizing k position with
  | nil => cases h
  | cons msg msgs ih =>
    rw [List.length_cons]
    unfold availableAt at h
    split at h
    · have := ih h
      omega
    · rcases List.mem_cons.mp h with rfl | h
      · omega
      · have := ih h
        omega

theorem at_of_lt {p : Value} {i : ℕ} (h : i < (q.partition p).length) : ∃ c, q.At p i c := by
  refine ⟨(q.partition p)[i].contents, (q.partition p)[i].acked, ?_⟩
  rw [status, List.getElem?_map, List.getElem?_eq_getElem h]
  rfl

theorem at_commit {now : ℚ} {e : LogEntry} {m : Published} (h : e.published? = some m) :
    (q.step md5 (.commit now e)).At m.partitionId (q.partition m.partitionId).length
      m.contents := by
  refine ⟨false, ?_⟩
  have hself : ([m].filter fun m' => m'.partitionId == m.partitionId) = [m] := by simp
  rw [status_step]
  simp only [Event.entry?, Option.bind_some, h, Option.toList_some]
  rw [hself, List.getElem?_append_right (by simp [status])]
  simp [status]

theorem commitTasks_published {e : LogEntry} {m : Published} (h : e.published? = some m)
    (henabled : q.persistenceEnabled = true) : q.commitTasks e =
      [.persistMessage m.partitionId (q.partition m.partitionId).length] := by
  unfold commitTasks
  simp only [h, henabled, if_true]

theorem commitTasks_acked {e : LogEntry} {msgId : Value} (h : e.acked? = some msgId) :
    q.commitTasks e = [.deletePersistedMessage msgId] := by
  have hpub : e.published? = none := by
    rcases hpub : e.published? with _ | m
    · rfl
    · rw [LogEntry.acked?_of_published hpub] at h
      cases h
  unfold commitTasks
  simp only [hpub, h]

theorem commitTasks_other {e : LogEntry} (h : e.published? = none) (h' : e.acked? = none) :
    q.commitTasks e = [] := by
  unfold commitTasks
  simp only [h, h']

theorem scheduled_persist (henabled : q.persistenceEnabled = true) {ev : Event} {p : Value} {i : ℕ}
    (h : .persistMessage p i ∈ q.scheduled md5 ev) : ∃ c, (q.step md5 ev).At p i c := by
  cases ev with
  | commit now e =>
    rw [scheduled] at h
    rcases hpub : e.published? with _ | m
    · rcases hack : e.acked? with _ | msgId
      · rw [commitTasks_other hpub hack] at h
        cases h
      · rw [commitTasks_acked hack] at h
        cases List.mem_singleton.mp h
    · rw [commitTasks_published hpub henabled] at h
      cases List.mem_singleton.mp h
      exact ⟨_, at_commit hpub⟩
  | call op =>
    cases op with
    | consume topic consumerId batchSize =>
      simp only [scheduled, startTasks, henabled, if_true] at h
      obtain ⟨j, hj, heq⟩ := List.mem_map.mp h
      cases heq
      have hlt := availableAt_lt hj
      rw [Nat.zero_add] at hlt
      obtain ⟨c, hc⟩ := at_of_lt hlt
      exact ⟨c, hc.step _⟩
    | publish | acknowledge => cases h

theorem scheduled_delete (henabled : q.persistenceEnabled = true) {ev : Event} {msgId : Value} :
    .deletePersistedMessage msgId ∈ q.scheduled md5 ev ↔
      ∃ e ∈ ev.entry?, e.acked? = some msgId := by
  cases ev with
  | commit now e =>
    simp only [scheduled, Event.entry?, Option.mem_def, Option.some.injEq, exists_eq_left']
    rcases hpub : e.published? with _ | m
    · rcases hack : e.acked? with _ | msgId'
      · simp [commitTasks_other hpub hack]
      · simp [commitTasks_acked hack, eq_comm]
    · simp [commitTasks_published hpub henabled, LogEntry.acked?_of_published hpub]
  | call op =>
    simp only [scheduled, Event.entry?, Option.mem_def, reduceCtorEq, false_and, exists_false,
      iff_false]
    cases op with
    | consume topic consumerId batchSize =>
      simp [startTasks, henabled]
    | publish | acknowledge => exact List.not_mem_nil

theorem step_enabled (ev : Event) :
    (q.step md5 ev).persistenceEnabled = q.persistenceEnabled := by
  cases ev with
  | commit now e =>
    show (q.handleCommit now e).1.persistenceEnabled = _
    unfold handleCommit
    repeat' split
    all_goals rfl
  | call op =>
    cases op with
    | consume topic consumerId batchSize =>
      show (q.consume md5 topic consumerId batchSize).1.persistenceEnabled = _
      unfold DistributedQueue.consume
      dsimp only
      split <;> rfl
    | publish topic payload msgId => rw [step, start, publish_fst]
    | acknowledge msgId consumerId =>
      show (q.acknowledge msgId consumerId).1.persistenceEnabled = _
      unfold DistributedQueue.acknowledge
      dsimp only
      repeat' split
      all_goals rfl

end DistributedQueue

/-! ## The invariant -/

namespace PersistedQueue

/-- The message is in the hash, or an `hset` for it is still to come. -/
def Kept (s : PersistedQueue) (m : Published) : Prop :=
  (∃ data, s.redis.lookup m.msgId = some data ∧ data.acked = false) ∨
    (∃ data, .hset m.msgId data ∈ s.commands ∧ data.acked = false) ∨
      ∃ p i, .persistMessage p i ∈ s.tasks ∧ s.queue.At p i m.contents

/-- What holds in every state of a run: the queue, the commands and the hash tell messages of the
log, the hash lacks none that waits, and a stale item of it is still to be deleted. -/
structure Settling (s : PersistedQueue) : Prop where
  enabled : s.queue.persistenceEnabled = true
  drawn : DrawnLog s.log
  keys : s.redis.Pairwise fun p p' => (p.1 == p'.1) = false
  known : ∀ c b, s.queue.Has c b →
    ∃ m, Publishes s.log m ∧ m.contents = c ∧ (b = true ↔ s.Acknowledged m.msgId)
  tasks : ∀ p i, .persistMessage p i ∈ s.tasks → ∃ c, s.queue.At p i c
  deleting : ∀ id, s.Deleting id → s.Acknowledged id
  sent : ∀ id data, .hset id data ∈ s.commands → ∃ m, Publishes s.log m ∧ id = m.msgId ∧
    data.contents = m.contents ∧ (data.acked = true → s.Acknowledged m.msgId)
  stored : ∀ id data, s.redis.lookup id = some data → data.acked = false →
    ∃ m, Publishes s.log m ∧ (id == m.msgId) = true ∧ data.contents = m.contents ∧
      (s.Acknowledged m.msgId → s.Deleting m.msgId)
  kept : ∀ m ∈ unacked s.log, s.Kept m

variable {md5 : String → ℕ} {s t : PersistedQueue}

theorem acks_congr {e : LogEntry} {id id' : Value} (h : (id == id') = true) :
    e.acks id = e.acks id' := by
  simp only [LogEntry.acks, BEq.congr_left h]

theorem Acknowledged.congr {id id' : Value} (h : s.Acknowledged id) (hid : (id == id') = true) :
    s.Acknowledged id' := by
  obtain ⟨e, he, hack⟩ := h
  exact ⟨e, he, by rwa [← acks_congr hid]⟩

theorem Settling.mem_unacked (h : s.Settling) {m : Published} :
    m ∈ unacked s.log ↔ Publishes s.log m ∧ ¬s.Acknowledged m.msgId := by
  rw [h.drawn.mem_unacked]
  simp [Acknowledged]

theorem Settling.settled (h : s.Settling) (hidle : s.Idle) : s.Settled := by
  have hno : ∀ id, ¬s.Deleting id := by
    rintro id ⟨id', -, hid' | hid'⟩
    · rw [hidle.1] at hid'
      cases hid'
    · rw [hidle.2] at hid'
      cases hid'
  have hstores : Stores s.redis s.log := by
    refine ⟨h.keys, fun p hp hacked => ?_, fun m hm => ?_⟩
    · obtain ⟨m, hm, hid, hc, hdel⟩ := h.stored p.1 p.2 (lookup_of_mem h.keys hp) hacked
      exact ⟨m, h.mem_unacked.mpr ⟨hm, fun hack => hno _ (hdel hack)⟩, hid, hc⟩
    · rcases h.kept m hm with ⟨data, hdata, hacked⟩ | ⟨data, hdata, -⟩ | ⟨p, i, htask, -⟩
      · obtain ⟨m', hm', hid, hc, -⟩ := h.stored _ _ hdata hacked
        obtain rfl := h.drawn.eq_of_msgId (h.mem_unacked.mp hm).1 hm' hid
        obtain ⟨p, hp, hkey, rfl⟩ := mem_of_lookup hdata
        exact ⟨p, hp, hacked, BEq.symm hkey, hc⟩
      · rw [hidle.2] at hdata
        cases hdata
      · rw [hidle.1] at htask
        cases htask
  refine ⟨hstores, fun q hq henabled p c => ?_⟩
  rw [DistributedQueue.mem_available, (hstores.recovers h.drawn hq henabled).2]
  exact and_iff_right rfl

/-- Attaching a store with the unacknowledged messages of a log sets the invariant up. -/
theorem Started.settling (h : s.Started) : s.Settling := by
  obtain ⟨q, hq, henabled, hqueue⟩ := h.attached
  obtain ⟨hen, hstatus⟩ := h.stores.recovers h.drawn hq henabled
  rw [← hqueue] at hen hstatus
  have hack : ∀ m ∈ unacked s.log, Publishes s.log m ∧ ¬s.Acknowledged m.msgId := fun m hm => by
    obtain ⟨hpub, hno⟩ := h.drawn.mem_unacked.mp hm
    refine ⟨hpub, fun ⟨e, he, hack⟩ => ?_⟩
    rw [hno e he] at hack
    cases hack
  refine ⟨hen, h.drawn, h.stores.keys, ?_, fun p i hp => ?_, ?_, fun id data hd => ?_, ?_, ?_⟩
  · rintro c b ⟨p, hp⟩
    obtain ⟨rfl, m, hm, -, rfl⟩ := (hstatus p c b).mp hp
    exact ⟨m, (hack m hm).1, rfl, by simpa using (hack m hm).2⟩
  · rw [h.idle.1] at hp
    cases hp
  · rintro id ⟨id', -, hid | hid⟩
    · rw [h.idle.1] at hid
      cases hid
    · rw [h.idle.2] at hid
      cases hid
  · rw [h.idle.2] at hd
    cases hd
  · intro id data hd hacked
    obtain ⟨x, hx, hid, rfl⟩ := mem_of_lookup hd
    obtain ⟨m, hm, hkey, hc⟩ := h.stores.unacked x hx hacked
    exact ⟨m, (hack m hm).1, BEq.trans hid hkey, hc, fun ha => absurd ha (hack m hm).2⟩
  · intro m hm
    obtain ⟨x, hx, hacked, hkey, -⟩ := h.stores.stored m hm
    have hlookup := (lookup_congr (BEq.symm hkey)).trans (lookup_of_mem h.stores.keys hx)
    exact Or.inl ⟨x.2, hlookup, hacked⟩

/-! ## Steps of the queue -/

section Queue

variable {log : List LogEntry} {o : Option LogEntry} {m : Published} {ev : DistributedQueue.Event}

theorem publishes_append :
    Publishes (log ++ o.toList) m ↔ Publishes log m ∨ m ∈ o.bind LogEntry.published? := by
  cases o with
  | none => simp
  | some e => exact publishes_concat

theorem mem_unacked_append : m ∈ unacked (log ++ o.toList) ↔
    (m ∈ unacked log ∧ (o.any fun e => e.acks m.msgId) = false) ∨
      m ∈ o.bind LogEntry.published? := by
  cases o with
  | none => simp
  | some e => simp [unacked_concat]

abbrev after (s : PersistedQueue) (md5 : String → ℕ) (ev : DistributedQueue.Event) :
    PersistedQueue :=
  { s with
    queue := s.queue.step md5 ev
    log := s.log ++ ev.entry?.toList
    tasks := s.tasks ++ s.queue.scheduled md5 ev }

theorem acknowledged_after {id : Value} : (s.after md5 ev).Acknowledged id ↔
    s.Acknowledged id ∨ (ev.entry?.any fun e => e.acks id) = true := by
  unfold after
  rcases ev.entry? with _ | e <;> simp [Acknowledged, or_and_right, exists_or]

theorem Deleting.after {id : Value} (h : s.Deleting id) : (s.after md5 ev).Deleting id := by
  obtain ⟨id', hid, h | h⟩ := h
  · exact ⟨id', hid, Or.inl (List.mem_append_left _ h)⟩
  · exact ⟨id', hid, Or.inr h⟩

theorem Kept.after (h : s.Kept m) : (s.after md5 ev).Kept m := by
  rcases h with h | h | ⟨p, i, htask, hat⟩
  · exact Or.inl h
  · exact Or.inr (Or.inl h)
  · exact Or.inr (Or.inr ⟨p, i, List.mem_append_left _ htask, hat.step ev⟩)

theorem deleting_after (henabled : s.queue.persistenceEnabled = true) {id : Value}
    (h : (ev.entry?.any fun e => e.acks id) = true) : (s.after md5 ev).Deleting id := by
  obtain ⟨e, he, hack⟩ := (Option.any_eq_true _ _).mp h
  obtain ⟨id', hid', hid⟩ := (Option.any_eq_true _ _).mp hack
  refine ⟨id', hid, Or.inl (List.mem_append_right _ ?_)⟩
  exact (DistributedQueue.scheduled_delete henabled).mpr ⟨e, he, hid'⟩

theorem Settling.after (h : s.Settling) (hd : s.Drawn (.queue ev)) :
    (s.after md5 ev).Settling := by
  have hdrawn : DrawnLog (s.log ++ ev.entry?.toList) := by
    rcases hev : ev.entry? with _ | e
    · simpa using h.drawn
    · refine h.drawn.concat fun m hm => hd m ?_
      rw [hev]
      exact hm
  have hself : ∀ m ∈ ev.entry?.bind LogEntry.published?,
      ¬(s.after md5 ev).Acknowledged m.msgId := by
    intro m hm hack
    rcases acknowledged_after.mp hack with ⟨e, he, hack⟩ | hack
    · rw [(hd m hm).unacked e he] at hack
      cases hack
    · obtain ⟨e, he, hack⟩ := (Option.any_eq_true _ _).mp hack
      obtain ⟨e', he', hm⟩ := Option.bind_eq_some_iff.mp hm
      obtain rfl := Option.some.inj (he.symm.trans he')
      simp [LogEntry.acks, LogEntry.acked?_of_published hm] at hack
  refine ⟨(DistributedQueue.step_enabled ev).trans h.enabled, hdrawn, h.keys, ?_, ?_, ?_, ?_, ?_,
    ?_⟩
  · intro c b hc
    rcases DistributedQueue.has_step.mp hc with ⟨b', hhas, rfl⟩ | ⟨m, hm, heq, rfl⟩
    · obtain ⟨m, hm, rfl, hb⟩ := h.known c b' hhas
      refine ⟨m, publishes_append.mpr (Or.inl hm), rfl, ?_⟩
      rw [Bool.or_eq_true, hb, acknowledged_after]
      rfl
    · exact ⟨m, publishes_append.mpr (Or.inr hm), heq, by simpa using hself m hm⟩
  · intro p i hp
    rcases List.mem_append.mp hp with hp | hp
    · obtain ⟨c, hc⟩ := h.tasks p i hp
      exact ⟨c, hc.step ev⟩
    · exact DistributedQueue.scheduled_persist h.enabled hp
  · rintro id ⟨id', hid, hdel⟩
    have hold : s.Deleting id → (s.after md5 ev).Acknowledged id := fun hdel =>
      acknowledged_after.mpr (Or.inl (h.deleting id hdel))
    rcases hdel with hdel | hdel
    · rcases List.mem_append.mp hdel with hdel | hdel
      · exact hold ⟨id', hid, Or.inl hdel⟩
      · obtain ⟨e, he, hack⟩ := (DistributedQueue.scheduled_delete h.enabled).mp hdel
        refine acknowledged_after.mpr (Or.inr ?_)
        rw [he, Option.any_some, LogEntry.acks, hack]
        exact hid
    · exact hold ⟨id', hid, Or.inr hdel⟩
  · intro id data hsent
    obtain ⟨m, hm, hid, hc, hack⟩ := h.sent id data hsent
    exact ⟨m, publishes_append.mpr (Or.inl hm), hid, hc,
      fun ha => acknowledged_after.mpr (Or.inl (hack ha))⟩
  · intro id data hdata hacked
    obtain ⟨m, hm, hid, hc, hdel⟩ := h.stored id data hdata hacked
    refine ⟨m, publishes_append.mpr (Or.inl hm), hid, hc, fun ha => ?_⟩
    rcases acknowledged_after.mp ha with ha | ha
    · exact (hdel ha).after
    · exact deleting_after h.enabled ha
  · intro m hm
    rcases mem_unacked_append.mp hm with ⟨hm, -⟩ | hm
    · exact (h.kept m hm).after
    · -- the task of a new message is scheduled in the same step
      obtain ⟨e, he, hpub⟩ := Option.bind_eq_some_iff.mp hm
      cases ev with
      | call op => cases he
      | commit now e' =>
        obtain rfl := Option.some.inj he
        have hat : (s.queue.step md5 (.commit now e')).At _ _ m.contents :=
          DistributedQueue.at_commit hpub
        refine Or.inr (Or.inr ⟨_, _, List.mem_append_right _ ?_, hat⟩)
        show _ ∈ s.queue.commitTasks _
        rw [DistributedQueue.commitTasks_published hpub h.enabled]
        exact List.mem_singleton_self _

end Queue

/-! ## Tasks and commands -/

theorem eq_or_mem_eraseIdx {α : Type*} {l : List α} {k : ℕ} {x y : α} (hk : l[k]? = some y)
    (hx : x ∈ l) : x = y ∨ x ∈ l.eraseIdx k := by
  obtain ⟨i, hi⟩ := List.mem_iff_getElem?.mp hx
  by_cases h : i = k
  · exact Or.inl (Option.some.inj ((h ▸ hi).symm.trans hk))
  · exact Or.inr (List.mem_eraseIdx_iff_getElem?.mpr ⟨i, h, hi⟩)

abbrev ran (s : PersistedQueue) (k : ℕ) (task : QueueTask) : PersistedQueue :=
  { s with
    tasks := s.tasks.eraseIdx k
    commands := s.commands ++ (s.queue.command task).toList }

theorem deleting_ran {k : ℕ} {task : QueueTask} (hk : s.tasks[k]? = some task) (id : Value) :
    (s.ran k task).Deleting id ↔ s.Deleting id := by
  refine exists_congr fun id' => and_congr_right fun _ => ?_
  constructor
  · rintro (h | h)
    · exact Or.inl (List.mem_of_mem_eraseIdx h)
    · rcases List.mem_append.mp h with h | h
      · exact Or.inr h
      · cases task with
        | persistMessage p i =>
          obtain ⟨msg, -, heq⟩ := Option.map_eq_some_iff.mp (Option.mem_toList.mp h)
          cases heq
        | deletePersistedMessage id'' =>
          cases List.mem_singleton.mp h
          exact Or.inl (List.mem_of_getElem? hk)
  · rintro (h | h)
    · rcases eq_or_mem_eraseIdx hk h with rfl | h
      · exact Or.inr (List.mem_append_right _ (List.mem_singleton_self _))
      · exact Or.inl h
    · exact Or.inr (List.mem_append_left _ h)

theorem command_persist {p : Value} {i : ℕ} {c : Value × Value × Value}
    (h : s.queue.At p i c) : ∃ data, s.queue.command (.persistMessage p i) = some (.hset c.1 data) ∧
      data.contents = c ∧ s.queue.Has c data.acked := by
  obtain ⟨b, hb⟩ := h
  have hhas : s.queue.Has c b := ⟨p, List.mem_of_getElem? hb⟩
  rw [DistributedQueue.status, List.getElem?_map] at hb
  obtain ⟨msg, hmsg, heq⟩ := Option.map_eq_some_iff.mp hb
  cases heq
  refine ⟨msg.persisted, ?_, rfl, hhas⟩
  rw [DistributedQueue.command, hmsg]
  rfl

theorem Settling.ran (h : s.Settling) {k : ℕ} {task : QueueTask} (hk : s.tasks[k]? = some task) :
    (s.ran k task).Settling := by
  refine ⟨h.enabled, h.drawn, h.keys, h.known,
    fun p i hp => h.tasks p i (List.mem_of_mem_eraseIdx hp),
    fun id hid => h.deleting id ((deleting_ran hk id).mp hid), fun id data hsent => ?_,
    fun id data hdata hacked => ?_, fun m hm => ?_⟩
  · rcases List.mem_append.mp hsent with hsent | hsent
    · exact h.sent id data hsent
    · cases task with
      | persistMessage p i =>
        obtain ⟨c, hc⟩ := h.tasks p i (List.mem_of_getElem? hk)
        obtain ⟨data', hcommand, hc', hhas⟩ := command_persist hc
        rw [hcommand] at hsent
        cases List.mem_singleton.mp hsent
        obtain ⟨m, hm, rfl, hack⟩ := h.known _ _ hhas
        exact ⟨m, hm, rfl, hc', hack.mp⟩
      | deletePersistedMessage id' => cases List.mem_singleton.mp hsent
  · obtain ⟨m, hm, hid, hc, hdel⟩ := h.stored id data hdata hacked
    exact ⟨m, hm, hid, hc, fun ha => (deleting_ran hk _).mpr (hdel ha)⟩
  · rcases h.kept m hm with hm' | ⟨data, hsent, hacked⟩ | ⟨p, i, htask, hat⟩
    · exact Or.inl hm'
    · exact Or.inr (Or.inl ⟨data, List.mem_append_left _ hsent, hacked⟩)
    · rcases eq_or_mem_eraseIdx hk htask with rfl | htask
      · -- the task reads the message, which is not acknowledged
        obtain ⟨data, hcommand, -, hhas⟩ := command_persist hat
        obtain ⟨m', hm', hc, hack⟩ := h.known _ _ hhas
        obtain ⟨-, hno⟩ := h.mem_unacked.mp hm
        have hid : m'.msgId = m.msgId := congrArg Prod.fst hc
        refine Or.inr (Or.inl ⟨data, List.mem_append_right _ ?_, ?_⟩)
        · rw [hcommand]
          exact List.mem_singleton_self _
        · rw [hid] at hack
          exact Bool.eq_false_iff.mpr fun ha => hno (hack.mp ha)
      · exact Or.inr (Or.inr ⟨p, i, htask, hat⟩)

abbrev affected (s : PersistedQueue) (k : ℕ) (command : StoreCommand) : PersistedQueue :=
  { s with
    commands := s.commands.eraseIdx k
    redis := command.apply s.redis }

theorem Settling.affected_hset (h : s.Settling) {k : ℕ} {id : Value} {data : StoredMessage}
    (hk : s.commands[k]? = some (.hset id data))
    (horder : data.acked = false → s.Acknowledged id → s.Deleting id) :
    (s.affected k (.hset id data)).Settling := by
  have hdel : ∀ id', s.Deleting id' → (s.affected k (.hset id data)).Deleting id' := by
    rintro id' ⟨id'', hid, hdel | hdel⟩
    · exact ⟨id'', hid, Or.inl hdel⟩
    · rcases eq_or_mem_eraseIdx hk hdel with heq | hdel
      · cases heq
      · exact ⟨id'', hid, Or.inr hdel⟩
  obtain ⟨m, hm, rfl, hc, hack⟩ := h.sent id data (List.mem_of_getElem? hk)
  refine ⟨h.enabled, h.drawn, ?_, h.known, h.tasks, ?_,
    fun id' data' hsent => h.sent id' data' (List.mem_of_mem_eraseIdx hsent), ?_, ?_⟩
  · have hkeys : s.redis.Pairwise fun p q => (p.1 == q.1) = false ∧ True :=
      h.keys.imp fun hpq => ⟨hpq, trivial⟩
    have := pairwise_setItem (k := m.msgId) (v := data) (R := fun _ _ => True) hkeys
      fun p _ _ => ⟨trivial, trivial⟩
    exact this.imp fun hpq => hpq.1
  · rintro id' ⟨id'', hid, hdel | hdel⟩
    · exact h.deleting id' ⟨id'', hid, Or.inl hdel⟩
    · exact h.deleting id' ⟨id'', hid, Or.inr (List.mem_of_mem_eraseIdx hdel)⟩
  · intro id' data' hdata hacked
    change (setItem s.redis m.msgId data).lookup id' = some data' at hdata
    rw [lookup_setItem] at hdata
    split at hdata
    · next hid =>
      cases hdata
      exact ⟨m, hm, hid, hc, fun ha => hdel _ (horder hacked ha)⟩
    · obtain ⟨m', hm', hid, hc, hdel'⟩ := h.stored id' data' hdata hacked
      exact ⟨m', hm', hid, hc, fun ha => hdel _ (hdel' ha)⟩
  · intro m' hm'
    show (∃ data', (setItem s.redis m.msgId data).lookup m'.msgId = some data' ∧ _) ∨ _
    rw [lookup_setItem]
    obtain ⟨hpub, hno⟩ := h.mem_unacked.mp hm'
    by_cases hid : (m'.msgId == m.msgId) = true
    · -- a message that waits is not written as acknowledged
      obtain rfl := h.drawn.eq_of_msgId hpub hm hid
      exact Or.inl ⟨data, if_pos BEq.rfl, Bool.eq_false_iff.mpr fun ha => hno (hack ha)⟩
    · rw [if_neg hid]
      rcases h.kept m' hm' with hkept | ⟨data', hsent, hacked⟩ | hkept
      · exact Or.inl hkept
      · rcases eq_or_mem_eraseIdx hk hsent with heq | hsent
        · rw [StoreCommand.hset.injEq] at heq
          rw [heq.1] at hid
          exact absurd BEq.rfl hid
        · exact Or.inr (Or.inl ⟨data', hsent, hacked⟩)
      · exact Or.inr (Or.inr hkept)

theorem Settling.affected_hdel (h : s.Settling) {k : ℕ} {id : Value}
    (hk : s.commands[k]? = some (.hdel id)) : (s.affected k (.hdel id)).Settling := by
  have hid : s.Acknowledged id := h.deleting id ⟨id, BEq.rfl, Or.inr (List.mem_of_getElem? hk)⟩
  refine ⟨h.enabled, h.drawn, h.keys.filter _, h.known, h.tasks, ?_,
    fun id' data hsent => h.sent id' data (List.mem_of_mem_eraseIdx hsent), ?_, ?_⟩
  · rintro id' ⟨id'', hid, hdel | hdel⟩
    · exact h.deleting id' ⟨id'', hid, Or.inl hdel⟩
    · exact h.deleting id' ⟨id'', hid, Or.inr (List.mem_of_mem_eraseIdx hdel)⟩
  · intro id' data hdata hacked
    change (delItem s.redis id).lookup id' = some data at hdata
    rw [lookup_delItem] at hdata
    split at hdata
    · cases hdata
    · next hne =>
      obtain ⟨m, hm, hkey, hc, hdel⟩ := h.stored id' data hdata hacked
      refine ⟨m, hm, hkey, hc, fun ha => ?_⟩
      -- the `hdel` to come is not the one that has taken effect
      obtain ⟨id'', hid'', hdel⟩ := hdel ha
      refine ⟨id'', hid'', hdel.imp_right fun hdel => ?_⟩
      rcases eq_or_mem_eraseIdx hk hdel with heq | hdel
      · cases heq
        exact absurd (BEq.trans hkey hid'') hne
      · exact hdel
  · intro m hm
    obtain ⟨-, hno⟩ := h.mem_unacked.mp hm
    rcases h.kept m hm with ⟨data, hdata, hacked⟩ | ⟨data, hsent, hacked⟩ | hkept
    · refine Or.inl ⟨data, ?_, hacked⟩
      show (delItem s.redis id).lookup m.msgId = some data
      rw [lookup_delItem, if_neg fun heq => hno (hid.congr (BEq.symm heq))]
      exact hdata
    · rcases eq_or_mem_eraseIdx hk hsent with heq | hsent
      · cases heq
      · exact Or.inr (Or.inl ⟨data, hsent, hacked⟩)
    · exact Or.inr (Or.inr hkept)

theorem Settling.step (h : s.Settling) {ev : PersistEvent} (hd : s.Drawn ev) (ho : s.InOrder ev)
    (hs : persistStep md5 s ev = some t) : t.Settling := by
  cases ev with
  | queue ev =>
    cases hs
    exact h.after hd
  | run k =>
    obtain ⟨task, hk, rfl⟩ := Option.map_eq_some_iff.mp hs
    exact h.ran hk
  | effect k =>
    obtain ⟨command, hk, rfl⟩ := Option.map_eq_some_iff.mp hs
    cases command with
    | hset id data => exact h.affected_hset hk (ho id data hk)
    | hdel id => exact h.affected_hdel hk

end PersistedQueue

/-- If no `hset` that does not know of an acknowledgement comes after the last `hdel`, the hash
settles to the messages that are not acknowledged. -/
theorem store_settles (md5 : String → ℕ) (s t : PersistedQueue) (hs : s.Started)
    (hr : Runs.Reach (persistStep md5) (fun s ev => s.Drawn ev ∧ s.InOrder ev) s t) :
    t.Idle → t.Settled :=
  (hr.invariant hs.settling fun _ _ _ h ho => h.step ho.1 ho.2).settled

/-! ## Concrete runs -/

instance (v : Value) : Decidable (∃ s, v = .str s) :=
  match v with
  | .str s => isTrue ⟨s, rfl⟩
  | .null | .bool _ | .int _ | .float _ | .list _ | .dict _ => isFalse (by simp)

instance (v : Value) : Decidable (∃ k, v = .int k) :=
  match v with
  | .int k => isTrue ⟨k, rfl⟩
  | .null | .bool _ | .str _ | .float _ | .list _ | .dict _ => isFalse (by simp)

theorem draws_iff : Draws log m ↔ ((∃ id, m.msgId = .str id) ∧ ∃ k, m.partitionId = .int k) ∧
    ∀ e ∈ log, e.acks m.msgId = false ∧
      (e.published?.any fun m' => m'.msgId == m.msgId) = false := by
  constructor
  · rintro ⟨hid, hp, hack, hfresh⟩
    refine ⟨⟨hid, hp⟩, fun e he => ⟨hack e he, ?_⟩⟩
    rcases hpub : e.published? with _ | m'
    · rfl
    · exact hfresh m' ⟨e, he, hpub⟩
  · rintro ⟨⟨hid, hp⟩, h⟩
    refine ⟨hid, hp, fun e he => (h e he).1, fun m' ⟨e, he, hpub⟩ => ?_⟩
    have := (h e he).2
    rwa [hpub] at this

instance (log : List LogEntry) (m : Published) : Decidable (Draws log m) :=
  decidable_of_iff' _ draws_iff

namespace PersistedQueue

instance (s : PersistedQueue) (id : Value) : Decidable (s.Acknowledged id) :=
  inferInstanceAs (Decidable (∃ e ∈ s.log, e.acks id = true))

/-- The command deletes the item of the id. -/
def deletes (id : Value) : StoreCommand → Bool
  | .hdel id' => id == id'
  | .hset _ _ => false

def isDrawn (s : PersistedQueue) : PersistEvent → Bool
  | .queue ev => (ev.entry?.bind LogEntry.published?).all fun m => decide (Draws s.log m)
  | .run _ | .effect _ => true

def mayApply (s : PersistedQueue) : StoreCommand → Bool
  | .hset id data => data.acked || !decide (s.Acknowledged id) || s.commands.any (deletes id)
  | .hdel _ => true

def isInOrder (s : PersistedQueue) : PersistEvent → Bool
  | .effect k => s.commands[k]?.all s.mayApply
  | .queue _ | .run _ => true

variable {s : PersistedQueue} {ev : PersistEvent}

theorem drawn_of_isDrawn (h : s.isDrawn ev = true) : s.Drawn ev := by
  cases ev with
  | queue ev =>
    intro m hm
    rw [isDrawn, Option.mem_def.mp hm] at h
    exact of_decide_eq_true h
  | run k => trivial
  | effect k => trivial

theorem inOrder_of_isInOrder (h : s.isInOrder ev = true) : s.InOrder ev := by
  cases ev with
  | queue ev => trivial
  | run k => trivial
  | effect k =>
    intro id data hk hacked hack
    rw [isInOrder, hk, Option.all_some, mayApply, hacked, decide_eq_true hack] at h
    obtain ⟨command, hmem, hdel⟩ := List.any_eq_true.mp h
    cases command with
    | hset => cases hdel
    | hdel id' => exact ⟨id', hdel, Or.inr hmem⟩

def fresh : PersistedQueue where
  queue := .empty

theorem fresh_started : fresh.Started where
  idle := ⟨rfl, rfl⟩
  drawn pre e hp := by
    have := List.prefix_nil.mp hp
    simp at this
  stores := ⟨.nil, fun _ hp _ => (List.not_mem_nil hp).elim, fun _ hm => (List.not_mem_nil hm).elim⟩
  attached := ⟨.empty, rfl, rfl, rfl⟩

/-- A message is published, and its `hset` is sent. Then it is acknowledged, and its `hdel` is
sent. -/
def acknowledgement : List PersistEvent :=
  [.queue (DistributedQueue.publication 0 "orders" "x"), .run 0,
    .queue (.commit 0 (DistributedQueue.entryOf 1 1 (.acknowledge (.str "x") (.str "c")))), .run 0]

end PersistedQueue

open PersistedQueue

theorem store_settles_acknowledged : ∃ t,
    Runs.Reach (persistStep hashlibMd5) (fun s ev => s.Drawn ev ∧ s.InOrder ev) fresh t ∧
      t.redis = [] ∧ t.log ≠ [] ∧ t.Settled := by
  obtain ⟨t, hr, hp⟩ := Runs.exists_of_checked (persistStep hashlibMd5)
    (fun s ev => (s.isDrawn ev && s.isInOrder ev) = true) fresh
    (acknowledgement ++ [.effect 0, .effect 0])
    (fun t => t.tasks.isEmpty = true ∧ t.commands.isEmpty = true ∧ t.redis.isEmpty = true ∧
      t.log.isEmpty = false) (by decide +kernel)
  obtain ⟨htasks, hcommands, hredis, hlog⟩ := hp
  have hr' : Runs.Reach (persistStep hashlibMd5) (fun s ev => s.Drawn ev ∧ s.InOrder ev) fresh t :=
    hr.mono fun _ _ h => ((Bool.and_eq_true _ _).mp h).imp drawn_of_isDrawn inOrder_of_isInOrder
  refine ⟨t, hr', List.isEmpty_iff.mp hredis, List.isEmpty_eq_false_iff.mp hlog, ?_⟩
  exact store_settles hashlibMd5 fresh t fresh_started hr'
    ⟨List.isEmpty_iff.mp htasks, List.isEmpty_iff.mp hcommands⟩

/-- The `hdel` overtakes the `hset`: Redis keeps the message as one that is not acknowledged. -/
theorem store_settles_fails : ¬∀ s t : PersistedQueue, s.Started →
    Runs.Reach (persistStep hashlibMd5) (fun s ev => s.Drawn ev) s t → t.Idle → t.Settled := by
  intro h
  obtain ⟨t, hr, hp⟩ := Runs.exists_of_checked (persistStep hashlibMd5)
    (fun s ev => s.isDrawn ev = true) fresh (acknowledgement ++ [.effect 1, .effect 0])
    (fun t => t.tasks.isEmpty = true ∧ t.commands.isEmpty = true ∧
      (t.redis.any fun p => !p.2.acked) = true ∧ (unacked t.log).isEmpty = true)
    (by decide +kernel)
  obtain ⟨htasks, hcommands, hredis, hlog⟩ := hp
  have hsettled := h fresh t fresh_started (hr.mono fun _ _ h => drawn_of_isDrawn h)
    ⟨List.isEmpty_iff.mp htasks, List.isEmpty_iff.mp hcommands⟩
  obtain ⟨p, hp, hacked⟩ := List.any_eq_true.mp hredis
  rw [Bool.not_eq_true'] at hacked
  obtain ⟨m, hm, -⟩ := hsettled.stores.unacked p hp hacked
  rw [List.isEmpty_iff.mp hlog] at hm
  cases hm

end DistributedSync
