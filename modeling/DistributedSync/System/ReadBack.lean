import DistributedSync.Raft.Transport
import DistributedSync.Services.QueueHistory
import DistributedSync.System.Carries
import DistributedSync.System.LruCache

/-!
# Values that come back

The payload of a message and the value of a block take several ways from the client that writes them
to the clients that read them: the data of a log entry, the JSON of an APPEND_ENTRIES, the message
or block that a callback makes of it, and on the writer of a block the block of the call itself.
`publish` and `put` log `str(value)` for a value of none of the types they name, and None is of none
of them. Every other value comes back as it was written, on every node (`comesBack_iff`).
-/

namespace DistributedSync

open DistributedSystem

/-! ## What is written -/

namespace DistributedNode

/-- Every message with the id that a client publishes has the payload `v`. -/
def PublishedAs (calls : Op → Prop) (msgId : String) (v : Value) : Prop :=
  ∀ topic payload, calls (.queue (.publish topic payload msgId)) → payload = v

/-- Every value that a client puts under the key is `v`. -/
def PutAs (calls : Op → Prop) (key v : Value) : Prop :=
  ∀ k value ttl, calls (.cache (.put k value ttl)) → (k == key) = true → value = v

end DistributedNode

open DistributedNode

variable {v : Value} {msgId : String} {key : Value}

namespace DistributedQueue

variable {q : DistributedQueue}

def WaitsAs (q : DistributedQueue) (msgId : String) (v : Value) : Prop :=
  ∀ p, ∀ msg ∈ q.available p, (msg.msgId == .str msgId) = true → msg.payload = v

def EntryAs (msgId : String) (v : Value) (e : LogEntry) : Prop :=
  ∀ m, e.published? = some m → (m.msgId == .str msgId) = true → m.payload = v

/-- What the call publishes under the id has the payload. -/
def Frame.PublishesAs (msgId : String) (v : Value) : Frame → Prop
  | .publish _ payload id _ _ => id = msgId → payload = v
  | .acknowledge _ _ => True

theorem WaitsAs.handleCommit (h : q.WaitsAs msgId v) {now : ℚ} {e : LogEntry}
    (he : EntryAs msgId v e) : (q.handleCommit now e).1.WaitsAs msgId v := by
  intro p msg hmsg hid
  rw [available_commit] at hmsg
  rcases List.mem_append.mp hmsg with hmsg | hmsg
  · exact h p msg (List.mem_of_mem_filter hmsg) hid
  · obtain ⟨m, hm, rfl⟩ := List.mem_map.mp hmsg
    exact he m (Option.mem_toList.mp (List.mem_of_mem_filter hm)) hid

theorem acknowledge_outcome (id consumerId : Value) :
    (q.acknowledge id consumerId).2 = .append (.acknowledge id consumerId) ∨
      (q.acknowledge id consumerId).2 = .done .raised := by
  unfold acknowledge
  split
  · dsimp only
    split
    · exact Or.inl rfl
    · exact Or.inr rfl
  · exact Or.inr rfl

variable (md5 : String → ℕ)

theorem WaitsAs.consumed (h : q.WaitsAs msgId v) {op : Op} {topic : String} {consumerId : Value}
    {messages : List QueueMessage}
    (hmsgs : (q.start md5 op).2 = .done (.consume topic consumerId messages)) :
    ∀ msg ∈ messages, (msg.msgId == .str msgId) = true → msg.payload = v := by
  cases op with
  | consume topic' consumerId' batchSize =>
    obtain ⟨k, -, hdone, -⟩ := consume_eq md5 (q := q) topic' consumerId' batchSize
    rw [start, hdone] at hmsgs
    cases hmsgs
    intro msg hmsg hid
    obtain ⟨msg', hmsg', rfl⟩ := List.mem_map.mp hmsg
    exact h _ msg' (List.mem_of_mem_take hmsg') hid
  | publish topic' payload id =>
    rw [start] at hmsgs
    rcases q.publish_cases md5 topic' payload id with ⟨_, _, -, heq⟩ | ⟨-, heq⟩ <;>
      rw [heq] at hmsgs <;> cases hmsgs
  | acknowledge id consumerId' =>
    change (q.acknowledge id consumerId').2 = _ at hmsgs
    rcases q.acknowledge_outcome id consumerId' with heq | heq <;> rw [heq] at hmsgs <;> cases hmsgs

theorem WaitsAs.start (h : q.WaitsAs msgId v) (op : Op) : (q.start md5 op).1.WaitsAs msgId v := by
  have hother : (q.start md5 op).1.partitions = q.partitions →
      (q.start md5 op).1.WaitsAs msgId v := by
    intro heq p msg hmsg
    rw [available, heq] at hmsg
    exact h p msg hmsg
  cases op with
  | consume topic consumerId batchSize =>
    obtain ⟨k, -, -, havail⟩ := consume_eq md5 (q := q) topic consumerId batchSize
    intro p msg hmsg hid
    rw [DistributedQueue.start, havail] at hmsg
    split at hmsg
    · rcases List.mem_append.mp hmsg with hmsg | hmsg
      · obtain ⟨msg', hmsg', rfl⟩ := List.mem_map.mp hmsg
        exact h p msg' (List.mem_of_mem_take hmsg') hid
      · exact h p msg (List.mem_of_mem_drop hmsg) hid
    · exact h p msg hmsg hid
  | publish | acknowledge => exact hother (start_other fun _ _ _ heq => by cases heq).1

theorem Frame.PublishesAs.request (hv : v.logged = v) {frame : Frame}
    (h : frame.PublishesAs msgId v) {e : LogEntry} (he : (e.command, e.data) = request frame) :
    EntryAs msgId v e := by
  intro m hm hid
  cases frame with
  | publish topic payload id partitionId replicas =>
    rw [published?_of_request he] at hm
    cases hm
    rw [h (Value.str_beq_str.mp hid), hv]
  | acknowledge id consumerId =>
    obtain ⟨hc, -⟩ := Prod.mk.inj he
    simp [LogEntry.published?, hc] at hm

/-- A node that has applied the QUEUE_PUBLISH entry of a call hands out what the entry carries. -/
theorem consumable {q₀ : DistributedQueue} {topic id : String} {payload : Value} {f : Frame}
    (hf : (q₀.publish md5 (named topic) payload id).2 = .append f) {e : LogEntry}
    (he : (e.command, e.data) = request f) (now : ℚ) (consumerId : Value) {batchSize : ℤ}
    (hbatch : (q.handleCommit now e).1.getQueueDepth md5 topic ≤ batchSize) :
    ∃ messages, ((q.handleCommit now e).1.consume md5 topic consumerId batchSize).2 =
        .done (.consume topic consumerId messages) ∧
      ∃ msg ∈ messages, msg.msgId = .str id ∧ msg.payload = payload.logged := by
  obtain ⟨name, replicas, hname, rfl⟩ := publish_append hf
  rw [encode?_named, Option.some.injEq] at hname
  subst hname
  obtain ⟨k, hk, hdone, -⟩ := consume_eq md5 (q := (q.handleCommit now e).1) topic consumerId
    batchSize
  have hlen : k = ((q.handleCommit now e).1.available (.int (getPartition md5 topic))).length := by
    rw [getQueueDepth_eq] at hbatch
    rw [hk, sliceTo, if_pos (by omega), List.length_take]
    omega
  rw [hlen, List.take_length] at hdone
  have hmem : stored now ⟨.str id, payload.logged, .int (getPartition md5 topic),
      some (.str topic)⟩ ∈ (q.handleCommit now e).1.available (.int (getPartition md5 topic)) := by
    rw [available_commit, published?_of_request he]
    exact List.mem_append_right _ (by simp)
  exact ⟨_, hdone, _, List.mem_map_of_mem hmem, rfl, rfl⟩

end DistributedQueue

namespace MOESICache

variable {c : MOESICache} {now : ℚ} {k value : Value}

def HoldsAs (key v : Value) (d : List (Value × CacheBlock)) : Prop :=
  ∀ k b, d.lookup k = some b → (k == key) = true → b.value = v

def EntryAs (key v : Value) (e : LogEntry) : Prop :=
  ∀ now k b, e.cacheWrite now = some (k, some b) → (k == key) = true → b.value = v

/-- The call puts the value under the key, with a block of its own. -/
def Frame.Writes (key value : Value) : Frame → Prop
  | .acquireExclusive _ k v _ | .broadcastInvalidation _ k v _ => k = key ∧ v = value
  | .replicate _ k v ttl block =>
    (k = key ∧ v = value) ∧ block.value = value ∧ block.ttl = ttl ∧ block.state ≠ .invalid
  | .invalidateBlock _ _ => True

/-- What the call puts under the key is `v`. -/
def Frame.PutsAs (key v : Value) (f : Frame) : Prop :=
  ∃ k value, f.Writes k value ∧ ((k == key) = true → value = v)

theorem HoldsAs.setItem {d : List (Value × CacheBlock)} (h : HoldsAs key v d) {k : Value}
    {b : CacheBlock} (hb : (k == key) = true → b.value = v) :
    HoldsAs key v (DistributedSync.setItem d k b) :=
  forall_setItem h fun _ hk hkey => hb (BEq.trans (BEq.symm hk) hkey)

theorem keeps_holdsAs : Keeps (HoldsAs key v) := keeps_forall fun _ _ h => h

theorem start_writes {op : Op} {f : Frame} (hf : f ∈ (c.start now op).2.frame?)
    (hop : ∀ k' v' ttl, op = .put k' v' ttl → k' = k ∧ v' = value) : f.Writes k value := by
  cases op with
  | put k' v' ttl =>
    obtain ⟨rfl, rfl⟩ := hop k' v' ttl rfl
    change f ∈ (c.put k' v' ttl now).2.frame? at hf
    unfold put at hf
    split at hf
    · dsimp only at hf
      split at hf
      · cases hf
        exact ⟨⟨rfl, rfl⟩, rfl, rfl, by simp⟩
      · cases hf
        exact ⟨rfl, rfl⟩
    · cases hf
  | get key =>
    cases start_opens c now hf
    trivial
  | handleInvalidation key fromNode => cases start_opens c now hf

theorem Frame.Writes.resume {frame f : Frame} (h : frame.Writes k value) {a : Appended}
    (hf : f ∈ (c.resume now frame a).2.frame?) : f.Writes k value := by
  cases resume_next c now hf with
  | broadcast => exact h
  | evict => trivial
  | replicate nodeId key v ttl block hb =>
    rcases a with ⟨success⟩ | _
    · cases hf
      exact ⟨h, h.2, rfl, by simp⟩
    · cases hf

theorem start_putsAs {op : Op}
    (hop : ∀ k value ttl, op = .put k value ttl → (k == key) = true → value = v) :
    ∀ f ∈ (c.start now op).2.frame?, f.PutsAs key v := by
  intro f hf
  cases op with
  | put k value ttl =>
    refine ⟨k, value, start_writes hf fun k' v' ttl' heq => ?_, hop k value ttl rfl⟩
    cases heq
    exact ⟨rfl, rfl⟩
  | get | handleInvalidation =>
    exact ⟨key, v, start_writes hf fun k' v' ttl heq => (by cases heq), fun _ => rfl⟩

theorem Frame.PutsAs.resume {frame : Frame} (h : frame.PutsAs key v) (a : Appended) :
    ∀ f ∈ (c.resume now frame a).2.frame?, f.PutsAs key v := by
  obtain ⟨k, value, hw, hv⟩ := h
  exact fun f hf => ⟨k, value, hw.resume hf, hv⟩

theorem Frame.PutsAs.request (hv : v.logged = v) {frame : Frame} (h : frame.PutsAs key v)
    {e : LogEntry} (he : (e.command, e.data) = request frame) : EntryAs key v e := by
  intro now k b hw hk
  obtain ⟨nodeId, k', value, ttl, block, rfl, -, -⟩ := put_of_request he hw
  rw [cacheWrite_of_replicate he, Option.ite_none_right_eq_some] at hw
  obtain ⟨-, hw⟩ := hw
  cases hw
  obtain ⟨k', value', ⟨⟨rfl, rfl⟩, -⟩, hvalue⟩ := h
  show value.logged = v
  rw [hvalue hk, hv]

/-! ## What is read -/

theorem get_result {op : Op} {k value : Value} (h : (c.start now op).2 = .done (.get k value)) :
    value = .null ∨ ∃ b, c.cache.lookup k = some b ∧ b.value = value := by
  cases op with
  | get key =>
    change (c.get key now).2 = _ at h
    unfold get at h
    split at h
    · split at h
      · cases h
        exact Or.inl rfl
      · next b hb =>
        split at h
        · cases h
          exact Or.inl rfl
        · split at h
          · cases h
          · split at h
            · simp only [invalidateBlock, hb] at h
              cases h
            · cases h
              exact Or.inr ⟨b, hb, rfl⟩
    · cases h
  | put key value' ttl =>
    change (c.put key value' ttl now).2 = _ at h
    rcases c.put_cases now key value' ttl with heq | ⟨-, _, _, _, heq⟩ | ⟨-, _, _, heq⟩ <;>
      rw [heq] at h <;> cases h
  | handleInvalidation key fromNode =>
    change (c.handleInvalidation key fromNode).2 = _ at h
    unfold handleInvalidation at h
    split at h
    · split at h
      · cases h
      · split at h <;> cases h
    · cases h

theorem resume_result {frame : Frame} {a : Appended} {k value : Value}
    (h : (c.resume now frame a).2 = .done (.get k value)) : value = .null := by
  have hcaller : ∀ {caller : Caller}, caller.result = .get k value → value = .null := by
    intro caller heq
    cases caller <;> cases heq
    rfl
  rcases a with ⟨success⟩ | _
  swap
  · cases frame <;> cases h
  cases frame with
  | acquireExclusive nodeId key value ttl => cases success <;> cases h
  | broadcastInvalidation nodeId key value ttl => cases h
  | replicate nodeId key value ttl block =>
    cases success
    · cases h
    · change (c.store key value block now).2 = _ at h
      obtain ⟨c', -, -, ⟨heq, -⟩ | ⟨victim, b, -, -, -, heq⟩⟩ := c.store_cases now key value block
      all_goals
        rw [heq] at h
        cases h
  | invalidateBlock key caller =>
    cases success
    · exact hcaller (Outcome.done.inj h)
    · simp only [resume, if_true] at h
      split at h
      · exact hcaller (Outcome.done.inj h)
      · cases h

theorem get_of_lookup {t : ℚ} {b : CacheBlock} (hkey : key.hashable = true)
    (hb : c.cache.lookup key = some b) (hs : b.state ≠ .invalid) (ht : b.ttl.num? = some t)
    (hfresh : 0 < t → now - b.lastModified ≤ t) : (c.get key now).2 = .done (.get key b.value) := by
  have hno : ¬(0 < t ∧ t < now - b.lastModified) := fun h => absurd (hfresh h.1) (not_le.mpr h.2)
  simp only [get, hkey, if_true, hb, hs, if_false, ht, hno]

/-! ## Puts -/

/-- The calls of `append_entry` of a `put` of the value under the key. -/
inductive OfPut (key v : Value) : Frame → Prop
  | start {c : MOESICache} {now : ℚ} {ttl : Value} {f : Frame}
    (h : (c.put key v ttl now).2 = .append f) : OfPut key v f
  | resume {c : MOESICache} {now : ℚ} {frame f : Frame} {a : Appended} (hput : OfPut key v frame)
    (h : (c.resume now frame a).2 = .append f) : OfPut key v f

theorem OfPut.writes {f : Frame} (h : OfPut key v f) : key.hashable = true ∧ f.Writes key v := by
  induction h with
  | @start c now ttl f h =>
    constructor
    · rcases c.put_cases now key v ttl with heq | ⟨hkey, -⟩ | ⟨hkey, -⟩
      · rw [heq] at h
        cases h
      · exact hkey
      · exact hkey
    · have hf : f ∈ (c.start now (.put key v ttl)).2.frame? := by
        rw [MOESICache.start, h]
        rfl
      refine start_writes hf fun k' v' ttl' heq => ?_
      cases heq
      exact ⟨rfl, rfl⟩
  | @resume c now frame f a hput h ih =>
    have hf : f ∈ (c.resume now frame a).2.frame? := by
      rw [h]
      rfl
    exact ⟨ih.1, ih.2.resume hf⟩

variable {nodeId : String} {ttl : Value} {block : CacheBlock}

/-- Every node that applies the CACHE_PUT entry of a `put` reads what the entry carries. -/
theorem OfPut.readable (h : OfPut key v (.replicate nodeId k value ttl block)) {e : LogEntry}
    (he : (e.command, e.data) = request (.replicate nodeId k value ttl block)) {t now' : ℚ}
    (ht : ttl.num? = some t) (hfresh : 0 < t → now' - now ≤ t) :
    ((c.handleCommit now e).1.get key now').2 = .done (.get key v.logged) := by
  obtain ⟨hkey, ⟨rfl, rfl⟩, -, -, hs⟩ := h.writes
  obtain ⟨hc, -⟩ := Prod.mk.inj he
  have hspares : e.spares c.nodeId = false := by simp [LogEntry.spares, hc]
  have hcache := c.handleCommit_cache now e
  rw [hspares, if_neg Bool.false_ne_true, cacheWrite_of_replicate he, if_pos hkey] at hcache
  have hb : (c.handleCommit now e).1.cache.lookup k = some
      { key := k, value := value.logged, state := block.state, ownerNode := .str nodeId,
        lastModified := now, ttl } := by
    rw [hcache, lookup_setItem, if_pos BEq.rfl]
  exact get_of_lookup hkey hb hs ht hfresh

/-- The node of a `put` whose entry is replicated reads the value of the call, unless the call
evicts it. -/
theorem OfPut.written (h : OfPut key v (.replicate nodeId k value ttl block)) {t now' : ℚ}
    (ht : ttl.num? = some t) (hfresh : 0 < t → now' - block.lastModified ≤ t)
    (hkept : ∀ victim caller, (c.resume now (.replicate nodeId k value ttl block)
      (.returned true)).2.frame? = some (.invalidateBlock victim caller) →
        (victim == key) = false) :
    ((c.resume now (.replicate nodeId k value ttl block) (.returned true)).1.get key now').2 =
      .done (.get key v) := by
  obtain ⟨hkey, ⟨rfl, rfl⟩, rfl, rfl, hs⟩ := h.writes
  refine get_of_lookup hkey ?_ hs ht hfresh
  show (c.store k block.value block now).1.cache.lookup k = some block
  obtain ⟨c', hc', -, ⟨heq, -⟩ | ⟨victim, b, -, hb, -, heq⟩⟩ :=
    c.store_cases now k block.value block
  · rw [heq, hc', lookup_setItem, if_pos BEq.rfl]
  · have hne : (victim == k) = false := by
      refine hkept victim (.put k block.value) ?_
      show (c.store k block.value block now).2.frame? = _
      rw [heq]
      rfl
    have hne' : ¬(k == victim) = true := fun h => by
      rw [BEq.symm h] at hne
      cases hne
    rw [heq, lookup_setItem, if_neg hne', hc', lookup_setItem, if_pos BEq.rfl]

end MOESICache

/-! ## The nodes of a cluster -/

namespace DistributedNode

variable {n : DistributedNode} {now : ℚ} {e : LogEntry}

theorem handleCommit_queueService (n : DistributedNode) (now : ℚ) (e : LogEntry) :
    (n.handleCommit now e).1.queueService = n.queueService ∨
      (n.handleCommit now e).1.queueService = (n.queueService.handleCommit now e).1 := by
  unfold handleCommit
  dsimp only
  split
  · exact Or.inl rfl
  · split <;> exact Or.inr rfl

theorem waitsAs_handleCommit (he : DistributedQueue.EntryAs msgId v e)
    (h : n.queueService.WaitsAs msgId v) :
    (n.handleCommit now e).1.queueService.WaitsAs msgId v := by
  rcases n.handleCommit_queueService now e with heq | heq <;> rw [heq]
  · exact h
  · exact h.handleCommit he

variable {md5 : String → ℕ} {config : SystemConfig} {peers : String → List String}
  {calls : Op → Prop}

theorem carries_publish (hv : v.logged = v) (hcalls : PublishedAs calls msgId v) :
    (services md5 config peers).Carries calls (fun n => n.queueService.WaitsAs msgId v)
      (fun frame => ∀ f, frame = .queue f → f.PublishesAs msgId v)
      (DistributedQueue.EntryAs msgId v) where
  init i p msg hmsg := by cases hmsg
  start {now op n r} hop hs := by
    cases op with
    | queue op =>
      cases hs
      refine ⟨fun h => h.start md5 op, fun frame hframe f heq => ?_⟩
      obtain ⟨f', ho, rfl⟩ := frame_of_map hframe
      cases heq
      cases op with
      | publish topic payload id =>
        obtain ⟨name, replicas, -, rfl⟩ := DistributedQueue.publish_append ho
        exact fun hid => hcalls topic payload (hid ▸ hop)
      | consume topic consumerId batchSize =>
        obtain ⟨k, -, hdone, -⟩ := DistributedQueue.consume_eq md5 (q := n.queueService) topic
          consumerId batchSize
        rw [DistributedQueue.start, hdone] at ho
        cases ho
      | acknowledge id consumerId =>
        change (n.queueService.acknowledge id consumerId).2 = _ at ho
        rcases n.queueService.acknowledge_outcome id consumerId with heq | heq <;> rw [heq] at ho
        · cases ho
          trivial
        · cases ho
    | lock op =>
      obtain ⟨r, -, rfl⟩ := Option.map_eq_some_iff.mp hs
      exact ⟨id, frame_other fun _ _ => Frame.noConfusion⟩
    | cache op =>
      cases hs
      exact ⟨id, frame_other fun _ _ => Frame.noConfusion⟩
  resume now frame a n hframe := by
    cases frame with
    | queue f =>
      refine ⟨id, fun frame' hf => ?_⟩
      obtain ⟨f', ho, rfl⟩ := frame_of_map hf
      cases f <;> cases a <;> cases ho
    | lock f | cache f => exact ⟨id, frame_other fun _ _ => Frame.noConfusion⟩
  request {frame e} hframe he := by
    cases frame with
    | queue f => exact (hframe f rfl).request hv he
    | lock f =>
      obtain ⟨hc, -⟩ := Prod.mk.inj he
      intro m hm
      cases f <;> simp [LogEntry.published?, hc] at hm
    | cache f =>
      obtain ⟨hc, -⟩ := Prod.mk.inj he
      intro m hm
      cases f <;> simp [LogEntry.published?, hc] at hm
  handleCommit he h := waitsAs_handleCommit he h

theorem keepsBlocks_put (hv : v.logged = v) (hcalls : PutAs calls key v) :
    KeepsBlocks (fun op => calls (.cache op)) (MOESICache.HoldsAs key v)
      (MOESICache.Frame.PutsAs key v) (MOESICache.EntryAs key v) where
  keeps := MOESICache.keeps_holdsAs
  init k b hb := by cases hb
  start {c now op} hop := MOESICache.start_putsAs fun k value ttl heq =>
    hcalls k value ttl (heq ▸ hop)
  resume a h := h.resume a
  store h hd := by
    obtain ⟨k', value', ⟨⟨rfl, rfl⟩, hblock, -⟩, hvalue⟩ := h
    exact hd.setItem fun hk => hblock.trans (hvalue hk)
  request h he := h.request hv he
  other hw now k b h := by
    rw [hw] at h
    cases h
  put he hw hd := hd.setItem (he _ _ _ hw)

variable {cfg : ClusterConfig} {s : DistributedSystem (services md5 config cfg.peers)}

/-- The messages with the id that the call returns have the payload. -/
def Result.ConsumesAs (msgId : String) (v : Value) (r : Result) : Prop :=
  ∀ topic consumerId messages, r = .queue (.consume topic consumerId messages) →
    ∀ msg ∈ messages, (msg.msgId == .str msgId) = true → msg.payload = v

/-- The value that the call returns for the key is `v`, if there is one. -/
def Result.ReadsAs (key v : Value) (r : Result) : Prop :=
  ∀ k value, r = .cache (.get k value) → (k == key) = true → value = v ∨ value = .null

theorem consumesAs_of_reach (hv : v.logged = v) (hcalls : PublishedAs calls msgId v)
    (h : Reach cfg (Calling calls) s) : ∀ x ∈ s.results, Result.ConsumesAs msgId v x.2 := by
  refine h.results (R := Result.ConsumesAs msgId v)
    (fun s i now op r result h hok hs hr topic consumerId messages heq => ?_)
    fun now frame a n result hr topic consumerId messages heq => ?_
  · subst heq
    have hwaits := (carries_publish hv hcalls).reach h.starts i
    cases op with
    | queue op =>
      cases hs
      obtain ⟨r, ho, hr⟩ := result_of_map hr
      cases hr
      exact hwaits.consumed md5 ho
    | lock op =>
      obtain ⟨r, -, rfl⟩ := Option.map_eq_some_iff.mp hs
      obtain ⟨r, -, hr⟩ := result_of_map hr
      cases hr
    | cache op =>
      cases hs
      obtain ⟨r, -, hr⟩ := result_of_map hr
      cases hr
  · subst heq
    cases frame with
    | queue f =>
      obtain ⟨r, ho, hr⟩ := result_of_map hr
      cases hr
      cases f <;> cases a <;> cases ho
    | lock f | cache f =>
      obtain ⟨r, -, hr⟩ := result_of_map hr
      cases hr

theorem readsAs_of_reach (hv : v.logged = v) (hcalls : PutAs calls key v)
    (h : Reach cfg (Calling calls) s) : ∀ x ∈ s.results, Result.ReadsAs key v x.2 := by
  refine h.results (R := Result.ReadsAs key v)
    (fun s i now op r result h hok hs hr k value heq hk => ?_)
    fun now frame a n result hr k value heq hk => ?_
  · subst heq
    have hholds := (keepsBlocks_put hv hcalls).reach (fun _ _ _ _ => id) h.starts i
    cases op with
    | cache op =>
      cases hs
      obtain ⟨r, ho, hr⟩ := result_of_map hr
      cases hr
      rcases MOESICache.get_result ho with hnull | ⟨b, hb, hvalue⟩
      · exact Or.inr hnull
      · exact Or.inl (hvalue.symm.trans (hholds k b hb hk))
    | lock op =>
      obtain ⟨r, -, rfl⟩ := Option.map_eq_some_iff.mp hs
      obtain ⟨r, -, hr⟩ := result_of_map hr
      cases hr
    | queue op =>
      cases hs
      obtain ⟨r, -, hr⟩ := result_of_map hr
      cases hr
  · subst heq
    cases frame with
    | cache f =>
      obtain ⟨r, ho, hr⟩ := result_of_map hr
      cases hr
      exact Or.inr (MOESICache.resume_result ho)
    | lock f | queue f =>
      obtain ⟨r, -, hr⟩ := result_of_map hr
      cases hr

end DistributedNode

/-! ## Every way back -/

theorem Value.logged_eq_iff : v.logged = v ↔ v ≠ .null := by
  cases v <;> simp [Value.logged]

theorem Value.DistinctKeys.logged (hv : v.DistinctKeys) : v.logged.DistinctKeys := by
  cases v with
  | null => trivial
  | bool | int | float | str | list | dict => exact hv

theorem Value.distinctKeys_of_hashable (hv : v.hashable = true) : v.DistinctKeys := by
  cases v with
  | null | bool | int | float | str => trivial
  | list | dict => cases hv

/-- The entry is the one of a `publish` or of a `put` of the value. -/
inductive Written (v : Value) (e : LogEntry) : Prop
  | publish {md5 : String → ℕ} {q : DistributedQueue} {topic : Json ℚ} {msgId : String}
    {f : DistributedQueue.Frame} (hf : (q.publish md5 topic v msgId).2 = .append f)
    (he : (e.command, e.data) = DistributedQueue.request f)
  | put {key k value ttl : Value} {nodeId : String} {block : CacheBlock}
    (hf : MOESICache.OfPut key v (.replicate nodeId k value ttl block)) (httl : ttl.DistinctKeys)
    (he : (e.command, e.data) = MOESICache.request (.replicate nodeId k value ttl block))

theorem Written.distinctKeys {e : LogEntry} (h : Written v e) (hv : v.DistinctKeys) :
    (Value.dict e.data).DistinctKeys := by
  cases h with
  | publish hf he =>
    obtain ⟨name, replicas, -, rfl⟩ := DistributedQueue.publish_append hf
    rw [(Prod.mk.inj he).2]
    refine Value.distinctKeys_dict.mpr ⟨?_, ?_⟩
    · show ["msg_id", "topic", "partition_id", "payload", "replicas"].Nodup
      decide
    simp only [List.mem_cons, List.not_mem_nil, or_false, forall_eq_or_imp, forall_eq]
    refine ⟨trivial, trivial, trivial, hv.logged, Value.distinctKeys_list.mpr ?_⟩
    exact List.forall_mem_map.mpr fun _ _ => trivial
  | put hf httl he =>
    obtain ⟨hkey, ⟨rfl, rfl⟩, -⟩ := hf.writes
    rw [(Prod.mk.inj he).2]
    refine Value.distinctKeys_dict.mpr ⟨?_, ?_⟩
    · show ["key", "value", "state", "owner", "ttl"].Nodup
      decide
    simp only [List.mem_cons, List.not_mem_nil, or_false, forall_eq_or_imp, forall_eq]
    exact ⟨Value.distinctKeys_of_hashable hkey, hv.logged, trivial, trivial, httl⟩

/-- Values come back as they were written. Their entries arrive on the wire as they were sent. What
consumers get under the id of a message is its payload, and a node that has applied the entry hands
the message out. What `get` returns for a key is the value put there, or None: the node that has
applied the entry and the node of the `put` return the value while its time to live lasts. -/
structure ComesBack (v : Value) : Prop where
  sent : ∀ {T : Type} (wire : Wire T) (m : Message) (timestamp : T) (e : LogEntry), Written v e →
    m.data.entries = some [e] → DistributedSync.deliver wire m timestamp = some m
  consumed : ∀ (md5 : String → ℕ) (config : SystemConfig) (cfg : ClusterConfig) (calls : Op → Prop)
    (msgId : String) (s : DistributedSystem (services md5 config cfg.peers)),
    PublishedAs calls msgId v → Reach cfg (Calling calls) s →
      ∀ x ∈ s.results, Result.ConsumesAs msgId v x.2
  consumable : ∀ (md5 : String → ℕ) (q₀ q : DistributedQueue) (topic msgId : String)
    (f : DistributedQueue.Frame) (e : LogEntry) (now : ℚ) (consumerId : Value) (batchSize : ℤ),
    (q₀.publish md5 (DistributedQueue.named topic) v msgId).2 = .append f →
      (e.command, e.data) = DistributedQueue.request f →
      (q.handleCommit now e).1.getQueueDepth md5 topic ≤ batchSize →
      ∃ messages, ((q.handleCommit now e).1.consume md5 topic consumerId batchSize).2 =
          .done (.consume topic consumerId messages) ∧
        ∃ msg ∈ messages, msg.msgId = .str msgId ∧ msg.payload = v
  read : ∀ (md5 : String → ℕ) (config : SystemConfig) (cfg : ClusterConfig) (calls : Op → Prop)
    (key : Value) (s : DistributedSystem (services md5 config cfg.peers)),
    PutAs calls key v → Reach cfg (Calling calls) s → ∀ x ∈ s.results, Result.ReadsAs key v x.2
  readable : ∀ (c : MOESICache) (key k value ttl : Value) (nodeId : String) (block : CacheBlock)
    (e : LogEntry) (now now' t : ℚ), MOESICache.OfPut key v (.replicate nodeId k value ttl block) →
      (e.command, e.data) = MOESICache.request (.replicate nodeId k value ttl block) →
      ttl.num? = some t → (0 < t → now' - now ≤ t) →
      ((c.handleCommit now e).1.get key now').2 = .done (.get key v)
  written : ∀ (c : MOESICache) (key k value ttl : Value) (nodeId : String) (block : CacheBlock)
    (now now' t : ℚ), MOESICache.OfPut key v (.replicate nodeId k value ttl block) →
      ttl.num? = some t → (0 < t → now' - block.lastModified ≤ t) →
      (∀ victim caller, (c.resume now (.replicate nodeId k value ttl block)
        (.returned true)).2.frame? = some (.invalidateBlock victim caller) →
          (victim == key) = false) →
      ((c.resume now (.replicate nodeId k value ttl block) (.returned true)).1.get key now').2 =
        .done (.get key v)

theorem MOESICache.exists_ofPut (v : Value) :
    ∃ block, OfPut (.str "k") v (.replicate "a" (.str "k") v (.int 0) block) := by
  obtain ⟨c, hc⟩ : ∃ c : MOESICache, c = { nodeId := "a", maxSize := 1, defaultTtl := .int 0 } :=
    ⟨_, rfl⟩
  have hacquire : (c.put (.str "k") v (.int 0) 0).2 =
      .append (.acquireExclusive "a" (.str "k") v (.int 0)) := by
    rw [hc]
    rfl
  have hbroadcast : (c.resume 0 (.acquireExclusive "a" (.str "k") v (.int 0))
      (.returned true)).2 = .append (.broadcastInvalidation "a" (.str "k") v (.int 0)) := rfl
  have hreplicate : (c.resume 0 (.broadcastInvalidation "a" (.str "k") v (.int 0))
      (.returned true)).2 = .append (.replicate "a" (.str "k") v (.int 0) _) := rfl
  exact ⟨_, .resume (.resume (.start hacquire) hbroadcast) hreplicate⟩

/-- Every value but None comes back. -/
theorem comesBack_iff (v : Value) (hv : v.DistinctKeys) : ComesBack v ↔ v ≠ .null := by
  constructor
  · intro h
    obtain ⟨block, hput⟩ := MOESICache.exists_ofPut v
    obtain ⟨c, -⟩ : ∃ c : MOESICache, c.cache = [] :=
      ⟨{ nodeId := "a", maxSize := 1, defaultTtl := .int 0 }, rfl⟩
    obtain ⟨e, he⟩ : ∃ e : LogEntry, (e.command, e.data) =
        MOESICache.request (.replicate "a" (.str "k") v (.int 0) block) :=
      ⟨{ term := 1, index := 1, command := _, data := _ }, rfl⟩
    have ht : (Value.int 0).num? = some 0 := by simp [Value.num?]
    have hnow : (0 : ℚ) < 0 → (0 : ℚ) - 0 ≤ 0 := by simp
    have hread := h.readable c (.str "k") (.str "k") v (.int 0) "a" block e 0 0 0 hput he ht hnow
    rw [hput.readable he ht hnow] at hread
    exact Value.logged_eq_iff.mp (MOESICache.Result.get.inj (Outcome.done.inj hread)).2
  · intro hnull
    have hlogged := Value.logged_eq_iff.mpr hnull
    exact {
      sent wire m timestamp e he hm := by
        refine DistributedSync.deliver_eq fun e' he' => ?_
        rw [hm, Option.getD_some, List.mem_singleton] at he'
        exact he' ▸ he.distinctKeys hv
      consumed md5 config cfg calls msgId s hcalls h := consumesAs_of_reach hlogged hcalls h
      consumable md5 q₀ q topic msgId f e now consumerId batchSize hf he hbatch := by
        have := DistributedQueue.consumable md5 hf he now consumerId hbatch
        rwa [hlogged] at this
      read md5 config cfg calls key s hcalls h := readsAs_of_reach hlogged hcalls h
      readable c key k value ttl nodeId block e now now' t hput he ht hfresh := by
        rw [hput.readable he ht hfresh, hlogged]
      written c key k value ttl nodeId block now now' t hput ht hfresh hkept :=
        hput.written ht hfresh hkept }

theorem comesBack_list : ComesBack (.list [.null, .str "None"]) := by
  refine (comesBack_iff (.list [.null, .str "None"]) ?_).mpr (by decide)
  refine Value.distinctKeys_list.mpr fun v hv => ?_
  rcases List.mem_pair.mp hv with rfl | rfl <;> trivial

/-- What the messages that a call returns say. -/
def DistributedNode.Result.contents : Result → List (Value × Value × Value)
  | .queue (.consume _ _ messages) => messages.map QueueMessage.contents
  | .queue (.publish _ _ _) | .queue (.acknowledge _ _ _) | .queue .raised => []
  | .lock _ | .cache _ => []

/-- The call publishes nothing but None. -/
def DistributedNode.PublishesNone (op : Op) : Prop :=
  ∀ topic payload id, op = .queue (.publish topic payload id) → payload = .null

def publishNone : List (SystemEvent twoBlocks) :=
  [.raft 0 (.electionTimeout "a"),
    .call "a" 1 (.queue (.publish (DistributedQueue.named "t") .null "m")),
    .append "a" 2 never, .call "a" 3 (.queue (.consume "t" (.str "c") 10))]

/-- The consumer gets the string "None". -/
theorem comesBack_fails : ¬ ∀ v : Value, v.DistinctKeys → ComesBack v := by
  intro h
  have hcalls : PublishedAs PublishesNone "m" .null := fun topic payload hop =>
    hop topic payload "m" rfl
  have hevents : ∀ ev ∈ publishNone, ∀ t, Calling (S := twoBlocks) PublishesNone t ev := by
    refine List.forall_mem_cons.mpr ⟨fun _ => trivial, List.forall_mem_cons.mpr ⟨fun _ => ?_,
      List.forall_mem_cons.mpr ⟨fun _ => trivial, List.forall_mem_singleton.mpr fun _ => ?_⟩⟩⟩
    · intro topic payload id heq
      cases heq
      rfl
    · intro topic payload id heq
      cases heq
  obtain ⟨s, hr, hres⟩ := Runs.exists_of_forall (step oneNode) (Calling PublishesNone)
    (DistributedSystem.init twoBlocks oneNode) publishNone
    (fun s => s.results.flatMap (fun x => Result.contents x.2) = [(.str "m", .str "None", .int 1)])
    hevents (by decide +kernel)
  have hmem : (.str "m", .str "None", .int 1) ∈ s.results.flatMap fun x => Result.contents x.2 := by
    rw [hres]
    exact List.mem_singleton_self _
  obtain ⟨⟨i, result⟩, hx, hcontents⟩ := List.mem_flatMap.mp hmem
  have hconsumed := (h .null trivial).consumed _ _ _ _ "m" s hcalls hr _ hx
  cases result with
  | queue result =>
    cases result with
    | consume topic consumerId messages =>
      obtain ⟨msg, hmsg, hsays⟩ := List.mem_map.mp hcontents
      obtain ⟨hid, hpayload, -⟩ : msg.msgId = .str "m" ∧ msg.payload = .str "None" ∧ _ := by
        simpa [QueueMessage.contents] using hsays
      rw [hconsumed topic consumerId messages rfl msg hmsg (by rw [hid]; rfl)] at hpayload
      cases hpayload
    | publish | acknowledge | raised => cases hcontents
  | lock | cache => cases hcontents

end DistributedSync
