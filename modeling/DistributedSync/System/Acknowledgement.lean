import DistributedSync.Raft.Acknowledgement
import DistributedSync.Services.DistributedNode
import DistributedSync.System.Runs

/-!
# Acknowledged operations

The services report success when an `append_entry` call has returned True: the last one of the
operation, or in a `put` that evicts an item an earlier one. So their successes stand for entries
that `append_entry` has acknowledged (`Services.Accounts.past_of_success`), and the condition under
which these are committed is the one of Raft.
-/

namespace DistributedSync

open DistributedSystem

/-- What an entry does: its command with its data. -/
abbrev Operation := String × Dict

def LogEntry.operation (e : LogEntry) : Operation := (e.command, e.data)

/-- What the results of a service stand for. A frame may promise a success whose operation has been
acknowledged by an earlier call. -/
structure Services.Accounts (S : Services) where
  success : S.Result → Prop
  denotes : S.Result → Operation → Prop
  promises : S.Frame → Option S.Result

namespace Services.Accounts

variable {S : Services} (A : S.Accounts)

/-- Successes of the outcome, now or promised, stand for operations in `ops`. -/
def Covered (ops : Operation → Prop) : Outcome S.Frame S.Result → Prop
  | .append frame => ∀ r ∈ A.promises frame, ∃ op, ops op ∧ A.denotes r op
  | .sleep => True
  | .done r => A.success r → ∃ op, ops op ∧ A.denotes r op

/-- The service reports a success only after an `append_entry` call for it has returned True. -/
structure Sound : Prop where
  start : ∀ {now op state r}, S.start now op state = some r → A.Covered (fun _ => False) r.2
  resume : ∀ (ops : Operation → Prop) (now : ℚ) (frame : S.Frame) (a : Appended)
    (state : S.State), (∀ r ∈ A.promises frame, ∃ op, ops op ∧ A.denotes r op) →
    (a = .returned true → ops (S.request frame)) → A.Covered ops (S.resume now frame a state).2

variable {A} {cfg : ClusterConfig} {s s' : DistributedSystem S} {ev : SystemEvent S} {i : String}
  {past past' : String → Operation → Prop}

theorem Covered.mono {ops ops' : Operation → Prop} {out : Outcome S.Frame S.Result}
    (hops : ∀ op, ops op → ops' op) (h : A.Covered ops out) : A.Covered ops' out := by
  cases out with
  | append frame => exact fun r hr => (h r hr).imp fun op => And.imp_left (hops op)
  | sleep => trivial
  | done r => exact fun hr => (h hr).imp fun op => And.imp_left (hops op)

/-- Every success, returned or promised, stands for an operation that `past` knows of the node. -/
structure Backed (A : S.Accounts) (past : String → Operation → Prop) (s : DistributedSystem S) :
    Prop where
  calls : ∀ i, ∀ f ∈ (s.cluster.proc i).appendCalls, f.entry.operation = S.request f.caller ∧
    ∀ r ∈ A.promises f.caller, ∃ op, past i op ∧ A.denotes r op
  running : ∀ i frame, s.running i = some frame →
    ∀ r ∈ A.promises frame, ∃ op, past i op ∧ A.denotes r op
  results : ∀ i r, (i, r) ∈ s.results → A.success r → ∃ op, past i op ∧ A.denotes r op

theorem Backed.mono (h : Backed A past s) (hp : ∀ i op, past i op → past' i op) :
    Backed A past' s where
  calls i f hf := (h.calls i f hf).imp_right fun h r hr =>
    (h r hr).imp fun op => And.imp_left (hp i op)
  running i frame hf r hr := (h.running i frame hf r hr).imp fun op => And.imp_left (hp i op)
  results i r hr hs := (h.results i r hr hs).imp fun op => And.imp_left (hp i op)

theorem Backed.react (h : Backed A past s) {r : S.State × Outcome S.Frame S.Result}
    (hr : A.Covered (past i) r.2) : Backed A past (s.react i r) := by
  have hrunning : ∀ (frame : Option S.Frame),
      (∀ f ∈ frame, ∀ r ∈ A.promises f, ∃ op, past i op ∧ A.denotes r op) →
      ∀ j f, Function.update s.running i frame j = some f →
        ∀ r ∈ A.promises f, ∃ op, past j op ∧ A.denotes r op := by
    intro frame hframe j f hf
    by_cases hj : j = i
    · subst hj
      rw [Function.update_self] at hf
      exact hframe f hf
    · rw [Function.update_of_ne hj] at hf
      exact h.running j f hf
  obtain ⟨state, frame | _ | result⟩ := r
  · refine ⟨h.calls, hrunning (some frame) fun f hf => ?_, h.results⟩
    cases hf
    exact hr
  · exact ⟨h.calls, hrunning none (fun f hf => by cases hf), h.results⟩
  · refine ⟨h.calls, hrunning none (fun f hf => by cases hf), fun j r hmem hs => ?_⟩
    rcases List.mem_append.mp hmem with hmem | hmem
    · exact h.results j r hmem hs
    · cases List.mem_singleton.mp hmem
      exact hr hs

theorem Backed.raftStep {now : ℚ} {e : Event S.Frame} (h : Backed A past s)
    (hs : s.raftStep cfg i now e = some s')
    (he : ∀ j command data frame raises, e = .appendEntry j command data frame raises →
      s.running j = some frame ∧ (command, data) = S.request frame) : Backed A past s' := by
  obtain ⟨c, state, hc, -, rfl⟩ := raftStep_some hs
  refine ⟨fun j f hf => ?_, h.running, h.results⟩
  rcases (cfg.transition hc).mem_appendCalls hf with ⟨f₀, hf₀, hentry, hcaller⟩ | ⟨raises, hev⟩
  · rw [← hentry, ← hcaller]
    exact h.calls j f₀ hf₀
  · obtain ⟨hrun, hreq⟩ := he j _ _ _ raises hev
    exact ⟨hreq, h.running j _ hrun⟩

/-! ## Runs -/

/-- The operation has been committed on node `i` at some moment of the run to `s`. -/
def Past (cfg : ClusterConfig) (ok : DistributedSystem S → SystemEvent S → Prop)
    (s : DistributedSystem S) (i : String) (op : Operation) : Prop :=
  ∃ s₀ e, Reach cfg ok s₀ ∧ Runs.Reach (step cfg) ok s₀ s ∧ s₀.cluster.Committed i e ∧
    e.operation = op

theorem Backed.step (hA : A.Sound) (hr : Reach cfg (Lifted SoundReturn) s)
    (h : Backed A (Past cfg (Lifted SoundReturn) s) s) (hok : Lifted SoundReturn s ev)
    (hs : s.step cfg ev = some s') : Backed A (Past cfg (Lifted SoundReturn) s') s' := by
  have hr' : Reach cfg (Lifted SoundReturn) s' := hr.tail ev hok hs
  have hpast : ∀ i op, Past cfg (Lifted SoundReturn) s i op →
      Past cfg (Lifted SoundReturn) s' i op := by
    rintro i op ⟨s₀, e, h₀, h₁, hc, rfl⟩
    exact ⟨s₀, e, h₀, h₁.tail ev hok hs, hc, rfl⟩
  have hcluster := Reach.cluster (hr.mono fun s ev h e he => (h e he).1)
  -- an acknowledged entry is committed in the state after the step
  have hack : ∀ (e : Event S.Frame) (i : String) (entry : LogEntry),
      s.raftEvent ev = some e → cfg.step s.cluster e = some s'.cluster →
      s.cluster.acknowledged e = some (i, entry) →
      Past cfg (Lifted SoundReturn) s' i entry.operation := fun _ _ _ he hc ha =>
    ⟨s', _, hr', .refl, committed_of_acknowledged hcluster (hok _ he).2 hc ha, rfl⟩
  have h := h.mono hpast
  cases step_cases hs with
  | call i now op r hi hstart => exact h.react ((hA.start hstart).mono fun _ => False.elim)
  | refused i now raises frame hf hl =>
    exact h.react (hA.resume _ now frame _ _ (h.running i frame hf) fun h => by cases h)
  | appends i now raises frame s₁ hf hl hp h₁ =>
    have hb := h.raftStep h₁ (by rintro j c d f r ⟨⟩; exact ⟨hf, rfl⟩)
    refine ⟨hb.calls, fun j f hj => ?_, hb.results⟩
    by_cases hji : j = i
    · subst hji
      simp at hj
    · refine hb.running j f ?_
      rwa [← Function.update_of_ne hji none s₁.running]
  | commits i now raises frame s₁ b hf hl hb h₁ =>
    refine (h.raftStep h₁ (by rintro j c d f r ⟨⟩; exact ⟨hf, rfl⟩)).react
      (hA.resume _ now frame _ _ (h.running i frame hf) fun hret => ?_)
    have hbt : b = true := by
      cases b
      · cases hret
      · rfl
    obtain ⟨c, state, hc, -, rfl⟩ := raftStep_some h₁
    refine hack (.appendEntry i (S.request frame).1 (S.request frame).2 frame raises) i
      ((s.cluster.proc i).raft.newEntry (S.request frame).1 (S.request frame).2)
      (by simp [raftEvent, hf, hl]) ?_ ?_
    · rw [react_cluster]
      exact hc
    · exact if_pos (hbt ▸ hb)
  | returns i now j call s₁ hi hcall h₁ =>
    obtain ⟨hop, hprom⟩ := h.calls i call (List.mem_of_getElem? hcall)
    refine (h.raftStep h₁ (by rintro j c d f r ⟨⟩)).react
      (hA.resume _ now call.caller _ _ hprom fun _ => ?_)
    obtain ⟨c, state, hc, -, rfl⟩ := raftStep_some h₁
    rw [← hop]
    refine hack _ i _ rfl ?_ (by simp [Cluster.acknowledged, hcall])
    rw [react_cluster]
    exact hc
  | raft i now e s₁ hrun hi he hret h₁ =>
    exact h.raftStep h₁ (by rintro j c d f r rfl; cases he)

/-- A success stands for an operation that has been committed. -/
theorem past_of_success (hA : A.Sound) (hr : Reach cfg (Lifted SoundReturn) s) {r : S.Result}
    (h : (i, r) ∈ s.results) (hs : A.success r) :
    ∃ op, Past cfg (Lifted SoundReturn) s i op ∧ A.denotes r op := by
  have hb : Backed A (Past cfg (Lifted SoundReturn) s) s := by
    clear h
    induction hr with
    | refl =>
      exact ⟨fun i f hf => (by cases hf), fun i f hf => (by cases hf), fun i r hr => (by cases hr)⟩
    | tail ev hr hok hs ih => exact Backed.step hA hr ih hok hs
  exact hb.results i r h hs

end Services.Accounts

/-! ## The services of a node -/

namespace DistributedNode

open Services.Accounts

def Result.success : Result → Prop
  | .lock (.acquireLock _ lockId) => lockId ≠ none
  | .lock (.releaseLock _ success) => success = true
  | .queue (.publish _ _ msgId) => msgId ≠ none
  | .queue (.acknowledge _ _ success) => success = true
  | .cache (.put _ _ success) => success = true
  | _ => False

/-- The operation that a successful call has asked for. -/
def Result.denotes : Result → Operation → Prop
  | .lock (.acquireLock a lockId), op =>
    lockId = some a.lockId ∧ op = ("LOCK_ACQUIRE", a.data)
  | .lock (.releaseLock lockId _), op => op = ("LOCK_RELEASE", [("lock_id", lockId)])
  | .queue (.publish topic payload msgId), op => ∃ id partitionId replicas, msgId = some id ∧
      op = DistributedQueue.request (.publish topic payload id partitionId replicas)
  | .queue (.acknowledge msgId consumerId _), op =>
    op = ("QUEUE_ACK", [("msg_id", msgId), ("consumer_id", consumerId)])
  | .cache (.put key value _), op => ∃ nodeId ttl block,
      op = MOESICache.request (.replicate nodeId key value ttl block)
  | _, _ => False

/-- A `put` that evicts an item has its own entry acknowledged already. -/
def Frame.promises : Frame → Option Result
  | .cache (.invalidateBlock _ (.put key value)) => some (.cache (.put key value true))
  | _ => none

variable (md5 : String → ℕ) (config : SystemConfig) (peers : String → List String)

/-- What the results of the services stand for. -/
def accounts : (services md5 config peers).Accounts where
  success := Result.success
  denotes := Result.denotes
  promises := Frame.promises

variable {md5 config peers} {ops : Operation → Prop}

theorem covered_failed {r : Result} (h : r.success → False) :
    (accounts md5 config peers).Covered ops (.done r) := fun hs => (h hs).elim

theorem covered_frame {frame : Frame} (h : frame.promises = none) :
    (accounts md5 config peers).Covered ops (.append frame) := by
  intro r hr
  change r ∈ frame.promises at hr
  rw [h] at hr
  cases hr

theorem covered_checkTimeout (m : DistributedLockManager) (a : AcquireLock) (startTime now : ℚ) :
    (accounts md5 config peers).Covered ops
      ((m.checkTimeout a startTime now).2.map .lock .lock) := by
  unfold DistributedLockManager.checkTimeout
  split
  · exact covered_failed fun h => h rfl
  · split
    · exact covered_failed fun h => h rfl
    · trivial

theorem covered_poll (m : DistributedLockManager) (a : AcquireLock) (startTime now : ℚ) :
    (accounts md5 config peers).Covered ops ((m.poll a startTime now).2.map .lock .lock) := by
  unfold DistributedLockManager.poll
  split
  · exact covered_frame rfl
  · exact covered_checkTimeout ..

theorem covered_lock_start {m : DistributedLockManager} {now : ℚ} {op : DistributedLockManager.Op}
    {r : DistributedLockManager ×
      Outcome DistributedLockManager.Frame DistributedLockManager.Result}
    (h : m.start now op = some r) :
    (accounts md5 config peers).Covered ops (r.2.map .lock .lock) := by
  cases op with
  | acquireLock a =>
    cases h
    unfold DistributedLockManager.acquireLock
    dsimp only
    split
    · exact covered_frame rfl
    split
    · split
      · exact covered_failed fun h => h rfl
      · exact covered_poll ..
    · exact covered_failed fun h => h rfl
  | wake k =>
    obtain ⟨w, -, rfl⟩ := Option.map_eq_some_iff.mp h
    exact covered_poll ..
  | releaseLock lockId =>
    cases h
    unfold DistributedLockManager.releaseLock
    split
    · split
      · exact covered_frame rfl
      · exact covered_failed Bool.noConfusion
    · exact covered_failed id

theorem covered_queue_start (q : DistributedQueue) (op : DistributedQueue.Op) :
    (accounts md5 config peers).Covered ops ((q.start md5 op).2.map .queue .queue) := by
  cases op with
  | publish topic payload msgId =>
    dsimp only [DistributedQueue.start, DistributedQueue.publish]
    split
    · exact covered_frame rfl
    · exact covered_failed id
  | consume topic consumerId batchSize =>
    dsimp only [DistributedQueue.start, DistributedQueue.consume]
    split <;> exact covered_failed id
  | acknowledge msgId consumerId =>
    dsimp only [DistributedQueue.start, DistributedQueue.acknowledge]
    split
    · split
      · exact covered_frame rfl
      · exact covered_failed id
    · exact covered_failed id

theorem covered_invalidateBlock (c : MOESICache) (key : Value) {caller : MOESICache.Caller}
    (h : ∀ k v, caller = .put k v → ∃ op, ops op ∧
      Result.denotes (.cache (.put k v true)) op) :
    (accounts md5 config peers).Covered ops
      ((c.invalidateBlock key caller).2.map .cache .cache) := by
  unfold MOESICache.invalidateBlock
  cases caller with
  | get k =>
    split
    · exact covered_failed id
    · exact covered_frame rfl
  | put k v =>
    split
    · exact fun _ => h k v rfl
    · intro r hr
      cases hr
      exact h k v rfl

theorem covered_cache_start (c : MOESICache) (now : ℚ) (op : MOESICache.Op) :
    (accounts md5 config peers).Covered ops ((c.start now op).2.map .cache .cache) := by
  cases op with
  | get key =>
    dsimp only [MOESICache.start, MOESICache.get]
    split
    · split
      · exact covered_failed id
      split
      · exact covered_failed id
      split
      · exact covered_failed id
      split
      · exact covered_invalidateBlock _ _ fun k v h => by cases h
      · exact covered_failed id
    · exact covered_failed id
  | put key value ttl =>
    dsimp only [MOESICache.start, MOESICache.put]
    split
    · split <;> exact covered_frame rfl
    · exact covered_failed id
  | handleInvalidation key fromNode =>
    dsimp only [MOESICache.start, MOESICache.handleInvalidation]
    split
    · split
      · exact covered_failed id
      · split <;> exact covered_failed id
    · exact covered_failed id

theorem covered_store (c : MOESICache) (key value : Value) (block : CacheBlock) (now : ℚ)
    (h : ∃ op, ops op ∧ Result.denotes (.cache (.put key value true)) op) :
    (accounts md5 config peers).Covered ops
      ((c.store key value block now).2.map .cache .cache) := by
  unfold MOESICache.store
  dsimp only
  split
  · split
    · split
      · exact covered_invalidateBlock _ _ fun k v hkv => by cases hkv; exact h
      · exact fun _ => h
    · exact fun _ => h
  · exact fun _ => h

/-- The services report successes of acknowledged operations only. -/
theorem accounts_sound : (accounts md5 config peers).Sound where
  start := by
    intro now op state r h
    cases op with
    | lock op =>
      obtain ⟨r', hr', rfl⟩ := Option.map_eq_some_iff.mp h
      exact covered_lock_start hr'
    | queue op =>
      cases h
      exact covered_queue_start ..
    | cache op =>
      cases h
      exact covered_cache_start ..
  resume := by
    intro ops now frame a state hprom hret
    cases frame with
    | lock frame =>
      cases frame with
      | acquire acq =>
        show Result.success (.lock (.acquireLock acq _)) → _
        intro h
        split at h
        · next ha => exact ⟨_, hret ha, if_pos ha, rfl⟩
        · exact absurd rfl h
      | acquireWaiting acq startTime =>
        rcases a with ⟨_ | _⟩ | _
        · exact covered_checkTimeout ..
        · show Result.success (.lock (.acquireLock acq _)) → _
          intro h
          split at h
          · exact absurd rfl h
          · next hg => exact ⟨_, hret rfl, if_neg hg, rfl⟩
        · exact covered_failed fun h => h rfl
      | release lockId =>
        rcases a with ⟨_ | _⟩ | _
        · exact covered_failed Bool.noConfusion
        · exact fun _ => ⟨_, hret rfl, rfl⟩
        · exact covered_failed id
    | queue frame =>
      rcases a with ⟨_ | _⟩ | _
      · cases frame with
        | publish topic payload msgId partitionId replicas => exact covered_failed fun h => h rfl
        | acknowledge msgId consumerId => exact covered_failed Bool.noConfusion
      · cases frame with
        | publish topic payload msgId partitionId replicas =>
          exact fun _ => ⟨_, hret rfl, msgId, partitionId, replicas, rfl, rfl⟩
        | acknowledge msgId consumerId => exact fun _ => ⟨_, hret rfl, rfl⟩
      · exact covered_failed id
    | cache frame =>
      rcases a with ⟨success⟩ | _
      swap
      · exact covered_failed id
      cases frame with
      | acquireExclusive nodeId key value ttl =>
        cases success
        · exact covered_failed Bool.noConfusion
        · exact covered_frame rfl
      | broadcastInvalidation nodeId key value ttl => exact covered_frame rfl
      | replicate nodeId key value ttl block =>
        cases success
        · exact covered_failed Bool.noConfusion
        · exact covered_store _ _ _ _ _ ⟨_, hret rfl, nodeId, ttl, block, rfl⟩
      | invalidateBlock key caller =>
        have hdone : (accounts md5 config peers).Covered ops
            (Outcome.map .cache .cache (.done caller.result)) := by
          cases caller with
          | get k => exact covered_failed id
          | put k v => exact fun _ => hprom _ rfl
        cases success
        · exact hdone
        · dsimp only [services, DistributedNode.resume, MOESICache.resume]
          rw [if_pos rfl]
          split
          · exact hdone
          · exact covered_failed id

end DistributedNode

open DistributedNode

/-- What `append_entry` acknowledges is committed at that moment, and a success of a service stands
for an operation that has been committed. -/
theorem acknowledged_committed (cfg : ClusterConfig) :
    (∀ (κ : Type) (c c' : Cluster κ) (ev : Event κ) (i : String) (e : LogEntry),
      cfg.Reach SoundReturn c → SoundReturn c ev → cfg.step c ev = some c' →
      c.acknowledged ev = some (i, e) → c'.Committed i e) ∧
    ∀ (md5 : String → ℕ) (config : SystemConfig)
      (s : DistributedSystem (services md5 config cfg.peers)) (i : String)
      (r : DistributedNode.Result), Reach cfg (Lifted SoundReturn) s → (i, r) ∈ s.results →
      r.success → ∃ s₀ e, Reach cfg (Lifted SoundReturn) s₀ ∧
        Runs.Reach (step cfg) (Lifted SoundReturn) s₀ s ∧ s₀.cluster.Committed i e ∧
        r.denotes e.operation := by
  refine ⟨fun κ c c' ev i e hr hok hs ha => ?_, fun md5 config s i r hr hmem hs => ?_⟩
  · exact committed_of_acknowledged (hr.mono fun _ _ h => h.1) hok.2 hs ha
  · obtain ⟨op, ⟨s₀, e, h₀, h₁, hc, rfl⟩, hden⟩ :=
      Services.Accounts.past_of_success
        (accounts_sound : (accounts md5 config cfg.peers).Sound) hr hmem hs
    exact ⟨s₀, e, h₀, h₁, hc, hden⟩

/-! ## Concrete runs -/

def pushInVain {κ : Type} (i : String) (owner : TaskOwner) (k : ℕ) : List (Event κ) :=
  [.sendAppend i owner k, .appendTimeout i owner k]

/-- Services over three nodes, with the length of a string for its digest. -/
abbrev threeServices : Services := services String.length {} threeNodes.peers

def raftOnly (es : List (Event threeServices.Frame)) : List (SystemEvent threeServices) :=
  es.map fun e => .raft 0 e

def lockOfX : AcquireLock := ⟨.str "r", .exclusive, .str "x", .int 30, "l"⟩

instance {S : Services} (ok : Cluster S.Frame → Event S.Frame → Prop)
    [∀ c e, Decidable (ok c e)] (s : DistributedSystem S) (ev : SystemEvent S) :
    Decidable (Lifted ok s ev) := inferInstanceAs (Decidable (∀ _ ∈ _, _))

/-- Leader `a` has the entry "x" acknowledged after `b` has stored it, and gives out a lock in the
same way; `c` is not heard of. -/
theorem acknowledged_committed_heard :
    (∃ (c : Cluster Unit) (e : LogEntry), e.command = "x" ∧ c.Committed "a" e) ∧
    ∃ (s s₀ : DistributedSystem threeServices) (e : LogEntry), s.results.length = 1 ∧
      Runs.Reach (step threeNodes) (Lifted SoundReturn) s₀ s ∧ s₀.cluster.Committed "a" e ∧
      e.command = "LOCK_ACQUIRE" := by
  constructor
  · obtain ⟨c, hr, hok, hs, ha⟩ := Runs.exists_of_checked threeNodes.step
      SoundReturn threeNodes.init
      (electA ++ [submit "a" "x"] ++ push "a" (.append 0) 0 2 ++ pushInVain "a" (.append 0) 1)
      (fun c => SoundReturn c (.returnAppend "a" 0) ∧
        (threeNodes.step c (.returnAppend "a" 0)).isSome = true ∧
        (c.acknowledged (.returnAppend "a" 0)).any
          (fun ie => ie.1 = "a" && ie.2.command = "x") = true) (by decide +kernel)
    obtain ⟨c', hs⟩ := Option.isSome_iff_exists.mp hs
    obtain ⟨⟨i, e⟩, ha, hi⟩ := (Option.any_eq_true _ _).mp ha
    simp only [Bool.and_eq_true, decide_eq_true_eq] at hi
    obtain ⟨rfl, he⟩ := hi
    exact ⟨c', e, he, (acknowledged_committed threeNodes).1 Unit c c' _ _ e hr hok hs ha⟩
  · obtain ⟨s, hr, hlen, hres⟩ := Runs.exists_of_checked (step threeNodes)
      (Lifted SoundReturn) (DistributedSystem.init threeServices threeNodes)
      (raftOnly electA ++ [.call "a" 0 (.lock (.acquireLock lockOfX)), .append "a" 0 never] ++
        raftOnly (push "a" (.append 0) 0 2 ++ pushInVain "a" (.append 0) 1 ++
          [.returnAppend "a" 0]))
      (fun s => s.results.length = 1 ∧ s.results.any (fun ir => ir.1 = "a" &&
        match ir.2 with
        | .lock (.acquireLock _ lockId) => lockId.isSome
        | _ => false) = true) (by decide +kernel)
    obtain ⟨⟨i, r⟩, hmem, hr'⟩ := List.any_eq_true.mp hres
    rw [Bool.and_eq_true, decide_eq_true_eq] at hr'
    obtain ⟨rfl, hr'⟩ := hr'
    split at hr'
    · next heq =>
      obtain ⟨lockId, rfl⟩ := Option.isSome_iff_exists.mp hr'
      obtain rfl := heq
      obtain ⟨s₀, e, -, h₁, hc, -, hop⟩ := (acknowledged_committed threeNodes).2 String.length {} s
        "a" _ hr hmem (Option.some_ne_none _)
      exact ⟨s, s₀, e, hlen, h₁, hc, congrArg Prod.fst hop⟩
    · cases hr'

theorem acknowledged_committed_fails : ¬ ∀ (cfg : ClusterConfig) (c c' : Cluster Unit)
    (ev : Event Unit) (i : String) (e : LogEntry), cfg.Reach Runs.Any c →
    cfg.step c ev = some c' → c.acknowledged ev = some (i, e) → c'.Committed i e := by
  intro h
  -- no peer hears of the entry
  obtain ⟨c, hr, hs, ha⟩ := Runs.exists_of_runList threeNodes.step
    threeNodes.init (electA ++ [submit "a" "x"] ++ pushInVain "a" (.append 0) 0 ++
      pushInVain "a" (.append 0) 1)
    (fun c => (threeNodes.step c (.returnAppend "a" 0)).any
        (fun c' => (c'.proc "a").raft.commitIndex = -1) = true ∧
      (c.acknowledged (.returnAppend "a" 0)).any (fun ie => ie.1 = "a") = true) (by decide +kernel)
  obtain ⟨c', hs, hc⟩ := (Option.any_eq_true _ _).mp hs
  obtain ⟨⟨i, e⟩, ha, hi⟩ := (Option.any_eq_true _ _).mp ha
  obtain rfl : i = "a" := of_decide_eq_true hi
  obtain ⟨h0, -, hle⟩ := h threeNodes c c' _ _ e hr hs ha
  rw [of_decide_eq_true hc] at hle
  omega

end DistributedSync
