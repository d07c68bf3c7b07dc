import DistributedSync.Services.DistributedNode
import DistributedSync.Services.LockOrder
import DistributedSync.Core.Md5
import Mathlib.Tactic.Linarith

/-!
# Refused calls

On a node that is not leader `append_entry` returns False at once, and the call fails. Three of the
calls have written by then: an `acquire_lock` that waits stands in the queue of its resource, which
it never leaves, `acknowledge` records the consumer before it appends its entry, and
`_invalidate_block` marks the block first. The other calls leave the services as they were
(`refused_untouched_iff`).
-/

namespace DistributedSync

open DistributedLockManager

namespace DistributedNode

/-! ## The calls -/

/-- Calls that append an entry, with the ids that they draw. A topic is any JSON value, so that its
strings may have surrogates. `_invalidate_block` comes with its caller. -/
inductive Call where
  | acquireLock (a : AcquireLock)
  | releaseLock (lockId : Value)
  | publish (topic : Json ℚ) (payload : Value) (msgId : String)
  | acknowledge (msgId consumerId : Value)
  | put (key value ttl : Value)
  | invalidateBlock (key : Value) (caller : MOESICache.Caller)

variable (md5 : String → ℕ) (n : DistributedNode)

/-- A call up to its first suspending await or its first `append_entry` call. -/
def begin (now : ℚ) : Call → DistributedNode × Outcome Frame Result
  | .acquireLock a =>
    let r := n.lockManager.acquireLock a now
    ({ n with lockManager := r.1 }, r.2.map .lock .lock)
  | .releaseLock lockId =>
    let r := n.lockManager.releaseLock lockId
    ({ n with lockManager := r.1 }, r.2.map .lock .lock)
  | .publish topic payload msgId =>
    let r := n.queueService.publish md5 topic payload msgId
    ({ n with queueService := r.1 }, r.2.map .queue .queue)
  | .acknowledge msgId consumerId =>
    let r := n.queueService.acknowledge msgId consumerId
    ({ n with queueService := r.1 }, r.2.map .queue .queue)
  | .put key value ttl =>
    let r := n.cacheService.put key value ttl now
    ({ n with cacheService := r.1 }, r.2.map .cache .cache)
  | .invalidateBlock key caller =>
    if key.hashable then
      let r := n.cacheService.invalidateBlock key caller
      ({ n with cacheService := r.1 }, r.2.map .cache .cache)
    else (n, .done (.cache .raised))

/-- The way of a call on a node that is not leader, to the state and the result at its end. While
it sleeps, entries of other nodes are applied. It is the last one that went to sleep. -/
inductive Refused : DistributedNode → Outcome Frame Result → List (ℚ × LogEntry) →
    DistributedNode → Result → Prop
  | done (n : DistributedNode) (result : Result) : Refused n (.done result) [] n result
  | append {n n' : DistributedNode} {frame : Frame} {es : List (ℚ × LogEntry)} {result : Result}
      (now : ℚ) (h : Refused (n.resume now frame (.returned false)).1
        (n.resume now frame (.returned false)).2 es n' result) :
      Refused n (.append frame) es n' result
  | apply {n n' : DistributedNode} {es : List (ℚ × LogEntry)} {result : Result} (now : ℚ)
      (entry : LogEntry) (h : Refused (n.handleCommit now entry).1 .sleep es n' result) :
      Refused n .sleep ((now, entry) :: es) n' result
  | wake {n n' : DistributedNode} {es : List (ℚ × LogEntry)} {result : Result} {k : ℕ} (now : ℚ)
      {s : DistributedNode × Outcome Frame Result} (hk : n.lockManager.waiting.length = k + 1)
      (hs : n.start md5 now (.lock (.wake k)) = some s) (h : Refused s.1 s.2 es n' result) :
      Refused n .sleep es n' result

def applied (es : List (ℚ × LogEntry)) : DistributedNode :=
  es.foldl (fun n e => (n.handleCommit e.1 e.2).1) n

/-! ## What a refused call does -/

/-- The result reports a failure. `_invalidate_block` returns None in any case. -/
def Call.Failed : Call → Result → Prop
  | .acquireLock _, result => ∃ a, result = .lock (.acquireLock a none)
  | .releaseLock _, result => ∃ lockId, result = .lock (.releaseLock lockId false)
  | .publish _ _ _, result => ∃ topic payload, result = .queue (.publish topic payload none)
  | .acknowledge _ _, result => ∃ msgId consumerId,
      result = .queue (.acknowledge msgId consumerId false)
  | .put _ _ _, result => ∃ key value, result = .cache (.put key value false)
  | .invalidateBlock _ caller, result => result = .cache caller.result

/-- The services hold the same. -/
structure Untouched (n n' : DistributedNode) : Prop where
  locks : ∀ k, n'.lockManager.locks.lookup k = n.lockManager.locks.lookup k
  lockQueue : ∀ k, n'.lockManager.lockQueue.lookup k = n.lockManager.lockQueue.lookup k
  waitGraph : ∀ k, n'.lockManager.waitGraph.lookup k = n.lockManager.waitGraph.lookup k
  partitions : ∀ k, n'.queueService.partitions.lookup k = n.queueService.partitions.lookup k
  messageAcks : ∀ k, n'.queueService.messageAcks.lookup k = n.queueService.messageAcks.lookup k
  pendingMessages : n'.queueService.pendingMessages = n.queueService.pendingMessages
  cache : ∀ k, n'.cacheService.cache.lookup k = n.cacheService.cache.lookup k
  pendingInvalidations :
    n'.cacheService.pendingInvalidations = n.cacheService.pendingInvalidations
  accessTimes : ∀ k, n'.cacheService.evictionPolicy.accessTimes.lookup k =
    n.cacheService.evictionPolicy.accessTimes.lookup k

/-- `uuid4` draws a new id: neither the queue of the resource nor an applied entry has it. -/
def Fresh (es : List (ℚ × LogEntry)) : Call → Prop
  | .acquireLock a => (∀ w ∈ n.lockManager.queue a.resource, (w.2.2 == .str a.lockId) = false) ∧
      ∀ e ∈ es, ∀ lock ∈ acquired? e.2, (.str a.lockId == lock.lockId) = false
  | .releaseLock _ | .publish _ _ _ | .acknowledge _ _ | .put _ _ _ | .invalidateBlock _ _ => True

/-- The calls that write nothing on a node that is not leader. -/
def Clean : Call → Prop
  | .acquireLock a => n.lockManager.queues a = false
  | .releaseLock lockId => lockId.hashable = true
  | .publish topic _ _ => (DistributedQueue.encode? topic).isSome = true
  | .acknowledge msgId consumerId => msgId.hashable = true ∧ consumerId.hashable = true ∧
      ((n.queueService.messageAcks.lookup msgId).getD []).contains consumerId = true
  | .put key _ _ => key.hashable = true
  | .invalidateBlock key _ => key.hashable = true ∧
      ∀ block ∈ n.cacheService.cache.lookup key, block.state = .invalid

variable {md5} {n} {n' : DistributedNode} {es : List (ℚ × LogEntry)} {result : Result}

theorem Untouched.refl (n : DistributedNode) : Untouched n n :=
  ⟨fun _ => rfl, fun _ => rfl, fun _ => rfl, fun _ => rfl, fun _ => rfl, rfl, fun _ => rfl, rfl,
    fun _ => rfl⟩

theorem Refused.of_done {r : Result} (h : Refused md5 n (.done r) es n' result) :
    es = [] ∧ n' = n ∧ result = r := by
  cases h
  exact ⟨rfl, rfl, rfl⟩

/-! ## The lock queue -/

theorem resume_lockQueue (now : ℚ) (frame : Frame) (r : Appended) :
    (n.resume now frame r).1.lockManager.lockQueue = n.lockManager.lockQueue := by
  cases frame with
  | lock frame =>
    rcases resume_cases n.lockManager now frame r with ⟨g, result, h⟩ | ⟨a, startTime, -, h⟩ <;>
      rw [resume, h]
  | queue frame | cache frame => rfl

theorem wake_lockQueue {now : ℚ} {k : ℕ} {s : DistributedNode × Outcome Frame Result}
    (hs : n.start md5 now (.lock (.wake k)) = some s) :
    s.1.lockManager.lockQueue = n.lockManager.lockQueue := by
  obtain ⟨r, hr, rfl⟩ := Option.map_eq_some_iff.mp hs
  obtain ⟨w, -, rfl⟩ := Option.map_eq_some_iff.mp hr
  rcases poll_cases { n.lockManager with waiting := n.lockManager.waiting.eraseIdx k } w.1 w.2 now
    with ⟨-, h⟩ | h | h <;> rw [h]

theorem handleCommit_lockManager (now : ℚ) (entry : LogEntry) :
    (n.handleCommit now entry).1.lockManager = (n.lockManager.handleCommit entry).1 := by
  unfold handleCommit
  dsimp only
  split
  · rfl
  · split <;> rfl

/-- Only an entry with its lock id takes a tuple from the queue. -/
theorem Refused.stays {o : Outcome Frame Result} {t : Value × LockType × Value} {r : Value}
    (h : Refused md5 n o es n' result) (ht : t ∈ n.lockManager.queue r)
    (hid : ∀ e ∈ es, ∀ lock ∈ acquired? e.2, (t.2.2 == lock.lockId) = false) :
    t ∈ n'.lockManager.queue r := by
  induction h with
  | done => exact ht
  | append now _ ih =>
    refine ih ?_ hid
    rwa [queue, resume_lockQueue]
  | wake now _ hs _ ih =>
    refine ih ?_ hid
    rwa [queue, wake_lockQueue hs]
  | apply now entry _ ih =>
    refine ih ?_ fun e he => hid e (List.mem_cons_of_mem _ he)
    obtain ⟨p, hq, hp⟩ := handleCommit_queue _ entry r
    rw [handleCommit_lockManager, hq]
    refine List.mem_filter.mpr ⟨ht, ?_⟩
    cases hpt : p t
    · obtain ⟨lock, hlock, heq⟩ := hp t hpt
      rw [hid _ List.mem_cons_self lock hlock] at heq
      cases heq
    · rfl

theorem mem_queue_applied {t : Value × LockType × Value} {r : Value}
    (ht : t ∈ (n.applied es).lockManager.queue r) : t ∈ n.lockManager.queue r := by
  induction es generalizing n with
  | nil => exact ht
  | cons e es ih =>
    have := ih ht
    obtain ⟨p, hq, -⟩ := handleCommit_queue n.lockManager e.2 r
    rw [handleCommit_lockManager, hq] at this
    exact (List.mem_filter.mp this).1

/-! ## The calls, one by one -/

section Calls

variable {now : ℚ}

theorem refused_acquireLock {a : AcquireLock} (hfresh : n.Fresh es (.acquireLock a))
    (h : Refused md5 (n.begin md5 now (.acquireLock a)).1 (n.begin md5 now (.acquireLock a)).2
      es n' result) :
    ((Call.acquireLock a).Failed result ∧ Untouched (n.applied es) n') ↔
      n.Clean (.acquireLock a) := by
  have hcases := acquireLock_cases n.lockManager a now
  unfold begin at h
  dsimp only at h
  rcases hcases with ⟨ht, heq⟩ | ⟨ht, hkey, heq⟩ | ⟨hq, g, heq⟩
  · rw [heq] at h
    cases h with
    | append now h =>
      obtain ⟨rfl, rfl, rfl⟩ := h.of_done
      refine iff_of_true ⟨⟨a, rfl⟩, .refl n⟩ ?_
      rw [Clean, queues, ht]
      rfl
  · rw [heq] at h
    obtain ⟨rfl, rfl, rfl⟩ := h.of_done
    refine iff_of_true ⟨⟨a, rfl⟩, .refl n⟩ ?_
    rw [Clean, queues, ht, hkey]
    rfl
  · -- the tuple stays
    refine iff_of_false (fun hno => ?_) fun hclean => by rw [Clean, hq] at hclean; cases hclean
    have hbegun : a.tuple ∈ (n.lockManager.acquireLock a now).1.queue a.resource := by
      have hmem : a.tuple ∈ (n.lockManager.enqueue a).queue a.resource := by
        rw [queue, enqueue, lookup_setItem, if_pos BEq.rfl]
        exact List.mem_append_right _ List.mem_cons_self
      rcases heq with heq | heq <;> rw [heq] <;> exact hmem
    have hstays := h.stays hbegun fun e he lock hlock => hfresh.2 e he lock hlock
    rw [queue, hno.2.lockQueue] at hstays
    have hold := hfresh.1 _ (mem_queue_applied hstays)
    rw [AcquireLock.tuple, BEq.rfl] at hold
    cases hold

theorem refused_releaseLock {lockId : Value}
    (h : Refused md5 (n.begin md5 now (.releaseLock lockId)).1
      (n.begin md5 now (.releaseLock lockId)).2 es n' result) :
    ((Call.releaseLock lockId).Failed result ∧ Untouched (n.applied es) n') ↔
      n.Clean (.releaseLock lockId) := by
  unfold begin releaseLock at h
  dsimp only at h
  split at h
  · next hkey =>
    refine iff_of_true ?_ hkey
    split at h
    · cases h with
      | append now h =>
        obtain ⟨rfl, rfl, rfl⟩ := h.of_done
        exact ⟨⟨lockId, rfl⟩, .refl n⟩
    · obtain ⟨rfl, rfl, rfl⟩ := h.of_done
      exact ⟨⟨lockId, rfl⟩, .refl n⟩
  · next hkey =>
    obtain ⟨rfl, rfl, rfl⟩ := h.of_done
    exact iff_of_false (fun ⟨⟨_, hfail⟩, _⟩ => by cases hfail) hkey

theorem refused_publish {topic : Json ℚ} {payload : Value} {msgId : String}
    (h : Refused md5 (n.begin md5 now (.publish topic payload msgId)).1
      (n.begin md5 now (.publish topic payload msgId)).2 es n' result) :
    ((Call.publish topic payload msgId).Failed result ∧ Untouched (n.applied es) n') ↔
      n.Clean (.publish topic payload msgId) := by
  unfold begin at h
  dsimp only at h
  dsimp only [Clean]
  rcases n.queueService.publish_cases md5 topic payload msgId with
    ⟨name, replicas, hname, heq⟩ | ⟨hname, heq⟩ <;> rw [heq] at h <;> rw [hname]
  · cases h with
    | append now h =>
      obtain ⟨rfl, rfl, rfl⟩ := h.of_done
      exact iff_of_true ⟨⟨name, payload, rfl⟩, .refl n⟩ rfl
  · obtain ⟨rfl, rfl, rfl⟩ := h.of_done
    exact iff_of_false (fun ⟨⟨_, _, hfail⟩, _⟩ => by cases hfail) Bool.false_ne_true

/-- The consumer is recorded before the entry is appended. -/
theorem acknowledge_untouched_iff {acks : List (Value × List Value)} {msgId consumerId : Value}
    (hacks : acks = if (n.queueService.messageAcks.lookup msgId).isSome
      then n.queueService.messageAcks else setItem n.queueService.messageAcks msgId []) :
    Untouched n { n with queueService := { n.queueService with
        messageAcks := setItem acks msgId
          (addElem ((acks.lookup msgId).getD []) consumerId) } } ↔
      ((n.queueService.messageAcks.lookup msgId).getD []).contains consumerId = true := by
  have hget : (acks.lookup msgId).getD [] = (n.queueService.messageAcks.lookup msgId).getD [] := by
    rw [hacks]
    split
    · rfl
    · next h =>
      rw [lookup_setItem, if_pos BEq.rfl, Option.not_isSome_iff_eq_none.mp h]
      rfl
  rw [hget]
  constructor
  · intro h
    have hsame := h.messageAcks msgId
    rw [lookup_setItem, if_pos BEq.rfl] at hsame
    by_contra hno
    have hlist := congrArg (Option.getD · []) hsame
    rw [Option.getD_some, addElem, if_neg hno] at hlist
    exact List.cons_ne_nil _ _ (List.append_right_eq_self.mp hlist)
  · intro hmem
    obtain ⟨l, hl⟩ : ∃ l, n.queueService.messageAcks.lookup msgId = some l := by
      cases hl : n.queueService.messageAcks.lookup msgId with
      | none =>
        rw [hl] at hmem
        cases hmem
      | some l => exact ⟨l, rfl⟩
    refine { Untouched.refl n with messageAcks := fun k => ?_ }
    have hsome : (n.queueService.messageAcks.lookup msgId).isSome = true := by
      rw [hl]
      rfl
    rw [addElem, if_pos hmem, lookup_setItem, hacks, if_pos hsome, hl]
    split
    · next hk => rw [lookup_congr hk, hl, Option.getD_some]
    · rfl

theorem refused_acknowledge {msgId consumerId : Value}
    (h : Refused md5 (n.begin md5 now (.acknowledge msgId consumerId)).1
      (n.begin md5 now (.acknowledge msgId consumerId)).2 es n' result) :
    ((Call.acknowledge msgId consumerId).Failed result ∧ Untouched (n.applied es) n') ↔
      n.Clean (.acknowledge msgId consumerId) := by
  unfold begin DistributedQueue.acknowledge at h
  dsimp only at h
  split at h
  · next hid =>
    split at h
    · next hconsumer =>
      cases h with
      | append now h =>
        obtain ⟨rfl, rfl, rfl⟩ := h.of_done
        constructor
        · rintro ⟨-, hun⟩
          exact ⟨hid, hconsumer, (acknowledge_untouched_iff rfl).mp hun⟩
        · rintro ⟨-, -, hmem⟩
          exact ⟨⟨msgId, consumerId, rfl⟩, (acknowledge_untouched_iff rfl).mpr hmem⟩
    · next hconsumer =>
      obtain ⟨rfl, rfl, rfl⟩ := h.of_done
      exact iff_of_false (fun ⟨⟨_, _, hfail⟩, _⟩ => by cases hfail) fun hclean =>
        hconsumer hclean.2.1
  · next hid =>
    obtain ⟨rfl, rfl, rfl⟩ := h.of_done
    exact iff_of_false (fun ⟨⟨_, _, hfail⟩, _⟩ => by cases hfail) fun hclean => hid hclean.1

theorem refused_put {key value ttl : Value}
    (h : Refused md5 (n.begin md5 now (.put key value ttl)).1
      (n.begin md5 now (.put key value ttl)).2 es n' result) :
    ((Call.put key value ttl).Failed result ∧ Untouched (n.applied es) n') ↔
      n.Clean (.put key value ttl) := by
  unfold begin MOESICache.put at h
  dsimp only at h
  split at h
  · next hkey =>
    refine iff_of_true ?_ hkey
    split at h <;> cases h with
    | append now h =>
      obtain ⟨rfl, rfl, rfl⟩ := h.of_done
      exact ⟨⟨key, value, rfl⟩, .refl n⟩
  · next hkey =>
    obtain ⟨rfl, rfl, rfl⟩ := h.of_done
    exact iff_of_false (fun ⟨⟨_, _, hfail⟩, _⟩ => by cases hfail) hkey

/-- The block is marked before the entry is appended. -/
theorem invalidate_untouched_iff {key : Value} {block : CacheBlock}
    (hblock : n.cacheService.cache.lookup key = some block) :
    Untouched n { n with cacheService := { n.cacheService with
        cache := setItem n.cacheService.cache key { block with state := .invalid } } } ↔
      ∀ block ∈ n.cacheService.cache.lookup key, block.state = .invalid := by
  constructor
  · intro h b hb
    have hsame := h.cache key
    rw [lookup_setItem, if_pos BEq.rfl, Option.mem_def.mp hb] at hsame
    rw [← Option.some.inj hsame]
  · intro h
    refine { Untouched.refl n with cache := fun k => ?_ }
    rw [lookup_setItem]
    split
    · next hk => rw [lookup_congr hk, hblock, ← h block hblock]
    · rfl

theorem refused_invalidateBlock {key : Value} {caller : MOESICache.Caller}
    (h : Refused md5 (n.begin md5 now (.invalidateBlock key caller)).1
      (n.begin md5 now (.invalidateBlock key caller)).2 es n' result) :
    ((Call.invalidateBlock key caller).Failed result ∧ Untouched (n.applied es) n') ↔
      n.Clean (.invalidateBlock key caller) := by
  unfold begin MOESICache.invalidateBlock at h
  dsimp only at h
  split at h
  · next hkey =>
    rcases hlookup : n.cacheService.cache.lookup key with _ | block
    · rw [hlookup] at h
      obtain ⟨rfl, rfl, rfl⟩ := h.of_done
      exact iff_of_true ⟨rfl, .refl n⟩ ⟨hkey, fun block hb => by rw [hlookup] at hb; cases hb⟩
    · rw [hlookup] at h
      cases h with
      | append now h =>
        obtain ⟨rfl, rfl, rfl⟩ := h.of_done
        constructor
        · rintro ⟨-, hun⟩
          exact ⟨hkey, (invalidate_untouched_iff hlookup).mp hun⟩
        · rintro ⟨-, hinvalid⟩
          exact ⟨rfl, (invalidate_untouched_iff hlookup).mpr hinvalid⟩
  · next hkey =>
    obtain ⟨rfl, rfl, rfl⟩ := h.of_done
    exact iff_of_false (fun ⟨hfail, _⟩ => by cases caller <;> cases hfail) fun hclean =>
      hkey hclean.1

/-- A call that waits gives up in the end. -/
theorem exists_timeout (a : AcquireLock) (startTime : ℚ) : ∃ now, ∀ m : DistributedLockManager,
    m.checkTimeout a startTime now = (m, .done (.acquireLock a none)) := by
  rcases ht : a.timeout.num? with _ | timeout
  · refine ⟨0, fun m => ?_⟩
    rw [checkTimeout, ht]
  · refine ⟨startTime + timeout + 1, fun m => ?_⟩
    rw [checkTimeout, ht]
    exact if_pos (by linarith only)

theorem sleep_ends {l : List (AcquireLock × ℚ)} {a : AcquireLock} {startTime : ℚ}
    (hlast : n.lockManager.waiting = l ++ [(a, startTime)]) :
    ∃ n' result, Refused md5 n .sleep [] n' result := by
  obtain ⟨now, hnow⟩ := exists_timeout a startTime
  set m := { n.lockManager with waiting := n.lockManager.waiting.eraseIdx l.length }
  have hs : n.start md5 now (.lock (.wake l.length)) =
      some ({ n with lockManager := (m.poll a startTime now).1 },
        (m.poll a startTime now).2.map .lock .lock) := by
    have hget : n.lockManager.waiting[l.length]? = some (a, startTime) := by
      rw [hlast, List.getElem?_concat_length]
    rw [start, DistributedLockManager.start, hget]
    rfl
  have hend : ∃ n' result, Refused md5 { n with lockManager := (m.poll a startTime now).1 }
      ((m.poll a startTime now).2.map .lock .lock) [] n' result := by
    unfold poll
    split
    · refine ⟨{ n with lockManager := m }, .lock (.acquireLock a none), .append now ?_⟩
      show Refused md5 { n with lockManager := (m.checkTimeout a startTime now).1 }
        ((m.checkTimeout a startTime now).2.map .lock .lock) [] _ _
      rw [hnow]
      exact .done _ _
    · rw [hnow]
      exact ⟨_, _, .done _ _⟩
  obtain ⟨n', result, h⟩ := hend
  exact ⟨n', result, .wake now (by rw [hlast, List.length_append]; rfl) hs h⟩

theorem refused_ends (md5 : String → ℕ) (n : DistributedNode) (call : Call) (now : ℚ) :
    ∃ n' result, Refused md5 (n.begin md5 now call).1 (n.begin md5 now call).2 [] n' result := by
  cases call with
  | acquireLock a =>
    unfold begin
    dsimp only
    rcases acquireLock_cases n.lockManager a now with
      ⟨-, heq⟩ | ⟨-, -, heq⟩ | ⟨-, g, heq | heq⟩ <;> rw [heq]
    · exact ⟨_, _, .append 0 (.done _ _)⟩
    · exact ⟨_, _, .done _ _⟩
    · exact ⟨_, _, .done _ _⟩
    · exact sleep_ends rfl
  | releaseLock lockId =>
    unfold begin releaseLock
    dsimp only
    split
    · split
      · exact ⟨_, _, .append 0 (.done _ _)⟩
      · exact ⟨_, _, .done _ _⟩
    · exact ⟨_, _, .done _ _⟩
  | publish topic payload msgId =>
    unfold begin
    dsimp only
    rcases n.queueService.publish_cases md5 topic payload msgId with
      ⟨name, replicas, -, heq⟩ | ⟨-, heq⟩ <;> rw [heq]
    · exact ⟨_, _, .append 0 (.done _ _)⟩
    · exact ⟨_, _, .done _ _⟩
  | acknowledge msgId consumerId =>
    unfold begin DistributedQueue.acknowledge
    dsimp only
    split
    · split
      · exact ⟨_, _, .append 0 (.done _ _)⟩
      · exact ⟨_, _, .done _ _⟩
    · exact ⟨_, _, .done _ _⟩
  | put key value ttl =>
    unfold begin MOESICache.put
    dsimp only
    split
    · split <;> exact ⟨_, _, .append 0 (.done _ _)⟩
    · exact ⟨_, _, .done _ _⟩
  | invalidateBlock key caller =>
    unfold begin MOESICache.invalidateBlock
    dsimp only
    split
    · split
      · exact ⟨_, _, .done _ _⟩
      · exact ⟨_, _, .append 0 (.done _ _)⟩
    · exact ⟨_, _, .done _ _⟩

/-- On a node that is not leader a call ends. It fails and leaves the services as the entries of
other nodes make them, exactly if it is one of the calls that write nothing. -/
theorem refused_untouched_iff (md5 : String → ℕ) (n : DistributedNode) (call : Call) (now : ℚ) :
    (∃ n' result, Refused md5 (n.begin md5 now call).1 (n.begin md5 now call).2 [] n' result) ∧
    ∀ es n' result, n.Fresh es call →
      Refused md5 (n.begin md5 now call).1 (n.begin md5 now call).2 es n' result →
      ((call.Failed result ∧ Untouched (n.applied es) n') ↔ n.Clean call) := by
  refine ⟨refused_ends md5 n call now, fun es n' result hfresh h => ?_⟩
  cases call with
  | acquireLock a => exact refused_acquireLock hfresh h
  | releaseLock lockId => exact refused_releaseLock h
  | publish topic payload msgId => exact refused_publish h
  | acknowledge msgId consumerId => exact refused_acknowledge h
  | put key value ttl => exact refused_put h
  | invalidateBlock key caller => exact refused_invalidateBlock h

/-! ## A refused put, and a refused acknowledgement -/

def newNode : DistributedNode := init hashlibMd5 {} "a" ["b", "c"]

theorem refused_untouched_put : ∃ n' result,
    Refused hashlibMd5 (newNode.begin hashlibMd5 0 (.put (.str "k") (.int 1) .null)).1
      (newNode.begin hashlibMd5 0 (.put (.str "k") (.int 1) .null)).2 [] n' result ∧
    (Call.put (.str "k") (.int 1) .null).Failed result ∧ Untouched newNode n' := by
  obtain ⟨⟨n', result, hrun⟩, h⟩ :=
    refused_untouched_iff hashlibMd5 newNode (.put (.str "k") (.int 1) .null) 0
  exact ⟨n', result, hrun, (h [] n' result trivial hrun).mpr rfl⟩

/-- A refused acknowledgement leaves the consumer in `message_acks`. -/
theorem refused_untouched_fails : ¬∀ (n : DistributedNode) (call : Call) (now : ℚ)
    (es : List (ℚ × LogEntry)) (n' : DistributedNode) (result : Result), n.Fresh es call →
    Refused hashlibMd5 (n.begin hashlibMd5 now call).1 (n.begin hashlibMd5 now call).2 es n'
      result →
    call.Failed result ∧ Untouched (n.applied es) n' := by
  intro h
  have hrun : Refused hashlibMd5
      (newNode.begin hashlibMd5 0 (.acknowledge (.str "m") (.str "c"))).1
      (newNode.begin hashlibMd5 0 (.acknowledge (.str "m") (.str "c"))).2 [] _ _ :=
    .append 0 (.done _ _)
  have hacks := (h newNode (.acknowledge (.str "m") (.str "c")) 0 [] _ _ trivial
    hrun).2.messageAcks (.str "m")
  cases hacks

end Calls

end DistributedNode

end DistributedSync
