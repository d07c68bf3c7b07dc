import DistributedSync.Library.CycleSearch
import DistributedSync.Library.Runs
import DistributedSync.Services.LockManager

/-!
# Deadlock detection

`detect_cycle` and `_deadlock_detection_loop`, on the runs of the lock manager of one node. A client
waits for another one when a call of it sleeps in its polling loop while a lock of the other blocks
it. The wait graph follows this relation loosely: an edge is added once, when a call starts to wait,
and is removed when a call of its waiter succeeds.
-/

namespace DistributedSync

open CycleSearch ClosedWalk

/-- The order in which a loop goes through a set. -/
structure SetOrder where
  order : List Value → List Value
  perm : ∀ l, (order l).Perm l

/-- `detect_cycle`. -/
def LockWaitGraph.detectCycle (sets : SetOrder) (g : LockWaitGraph) : Option (List Value) :=
  detect sets.order g

/-- `waiter` has an edge to `holder`. -/
def LockWaitGraph.HasEdge (g : LockWaitGraph) : Value → Value → Prop := Edge (successors g)

/-- A lock that keeps `_try_acquire` from accepting the call. -/
def Lock.blocks (l : Lock) (a : AcquireLock) : Bool :=
  l.resource == a.resource && (decide (a.lockType = .exclusive) || decide (l.lockType = .exclusive))

namespace DistributedLockManager

variable (m : DistributedLockManager)

/-- A call of client `c` is asleep in its polling loop, blocked by a lock of `c'`. -/
def WaitsFor (c c' : Value) : Prop :=
  ∃ w ∈ m.waiting, (w.1.clientId == c) = true ∧
    ∃ p ∈ m.locks, p.2.blocks w.1 = true ∧ (p.2.owner == c') = true

/-- A round of `_deadlock_detection_loop`: the victim, and the lock it calls `release_lock` with. -/
def detectionRound (sets : SetOrder) : Option (Value × Value) :=
  match m.waitGraph.detectCycle sets with
  | some (victim :: _) =>
    (m.locks.find? fun p => p.2.owner == victim).map fun p => (victim, p.1)
  | _ => none

end DistributedLockManager

open DistributedLockManager

/-- The lock manager of a node with its calls at `append_entry`. `victims` remembers each victim of
the detection loop, with the manager of that moment. -/
structure LockRun where
  manager : DistributedLockManager := {}
  calls : List Frame := []
  victims : List (Value × DistributedLockManager) := []

inductive LockEvent where
  | start (now : ℚ) (op : Op)
  | resume (now : ℚ) (k : ℕ) (r : Appended)
  | commit (entry : LogEntry)
  | detect (sets : SetOrder)

def LockRun.ran (s : LockRun) (r : DistributedLockManager × Outcome Frame Result) : LockRun :=
  { s with manager := r.1, calls := s.calls ++ r.2.frame?.toList }

/-- A coroutine begins, wakes up or comes back from `append_entry`, an entry is applied, or the
detection loop has a round. -/
def lockStep (s : LockRun) : LockEvent → Option LockRun
  | .start now op => (s.manager.start now op).map s.ran
  | .resume now k r => s.calls[k]?.map fun frame =>
      { s with calls := s.calls.eraseIdx k }.ran (s.manager.resume now frame r)
  | .commit entry => some { s with manager := (s.manager.handleCommit entry).1 }
  | .detect sets =>
    match s.manager.detectionRound sets with
    | some (victim, lockId) =>
      some ({ s with victims := s.victims ++ [(victim, s.manager)] }.ran
        (s.manager.releaseLock lockId))
    | none => some s

/-! ## Edges -/

namespace LockWaitGraph

variable {g : LockWaitGraph} {u v waiter holder : Value}

theorem HasEdge.congr {u' v' : Value} (h : g.HasEdge u v) (hu : (u == u') = true)
    (hv : (v == v') = true) : g.HasEdge u' v' :=
  Edge.congr (respects_successors g) hu hv h

theorem successors_setItem {l : List Value} :
    successors (setItem g waiter l) u = if u == waiter then l else successors g u := by
  unfold successors
  rw [lookup_setItem]
  split <;> rfl

theorem successors_ensure :
    successors (if (g.lookup waiter).isSome then g else setItem g waiter []) = successors g := by
  split
  · rfl
  · next hnone =>
    rw [Option.not_isSome_iff_eq_none] at hnone
    funext u
    rw [successors_setItem]
    split
    · next hu =>
      unfold successors
      rw [lookup_congr hu, hnone]
      rfl
    · rfl

theorem contains_addElem (l : List Value) (x y : Value) :
    (addElem l x).contains y = (l.contains y || y == x) := by
  unfold addElem
  split
  · next hx =>
    cases hy : y == x with
    | true => rw [List.contains_congr hy, hx]; rfl
    | false => rw [Bool.or_false]
  · rw [List.contains_append, List.contains_cons, List.contains_nil, Bool.or_false]

theorem hasEdge_addEdge : (g.addEdge waiter holder).1.HasEdge u v ↔
    g.HasEdge u v ∨ ((g.addEdge waiter holder).2 = false ∧ (u == waiter) = true ∧
      (v == holder) = true) := by
  unfold addEdge
  by_cases hw : waiter.hashable = true
  · rw [if_pos hw]
    dsimp only
    by_cases hh : holder.hashable = true
    · rw [if_pos hh]
      show (successors (setItem _ waiter (addElem (successors _ waiter) holder)) u).contains v =
        true ↔ (successors g u).contains v = true ∨ _
      rw [successors_setItem, successors_ensure]
      split
      · next hu =>
        rw [contains_addElem, Bool.or_eq_true, respects_successors g u waiter hu]
        simp [hu]
      · next hu => simp [hu]
    · rw [if_neg hh]
      show (successors _ u).contains v = true ↔ (successors g u).contains v = true ∨ _
      rw [successors_ensure]
      simp
  · rw [if_neg hw]
    simp

theorem hasEdge_removeEdges (hu : (u == waiter) = false) (hv : (v == waiter) = false)
    (h : g.HasEdge u v) : (g.removeEdges waiter).1.HasEdge u v := by
  unfold removeEdges
  split
  · have hlookup : ((delItem g waiter).map fun p =>
        (p.1, p.2.filter fun holder => !(holder == waiter))).lookup u =
          (g.lookup u).map fun l => l.filter fun holder => !(holder == waiter) := by
      rw [lookup_map_snd fun l : List Value => l.filter fun holder => !(holder == waiter),
        lookup_delItem, hu]
      rfl
    unfold HasEdge Edge successors at h ⊢
    rw [hlookup]
    rcases hl : g.lookup u with _ | l
    · rw [hl] at h
      exact h
    · rw [hl] at h
      show (l.filter fun holder => !(holder == waiter)).contains v = true
      rw [contains_filter_ne, Bool.and_eq_true, hv]
      exact ⟨h, rfl⟩
  · exact h

end LockWaitGraph

/-! ## Waiting calls -/

namespace DistributedLockManager

variable {m m' : DistributedLockManager} {a : AcquireLock} {now startTime : ℚ}

theorem tryAcquire_eq_false :
    m.tryAcquire a.resource a.lockType = false ↔ ∃ p ∈ m.locks, p.2.blocks a = true := by
  have hmem : ∀ l, l ∈ (m.locks.map Prod.snd).filter (fun l => l.resource == a.resource) ↔
      ∃ p ∈ m.locks, p.2 = l ∧ (l.resource == a.resource) = true := by
    intro l
    rw [List.mem_filter, List.mem_map]
    exact ⟨fun ⟨⟨p, hp, hl⟩, h⟩ => ⟨p, hp, hl, h⟩, fun ⟨p, hp, hl, h⟩ => ⟨⟨p, hp, hl⟩, h⟩⟩
  unfold tryAcquire Lock.blocks
  dsimp only
  generalize (m.locks.map Prod.snd).filter (fun l => l.resource == a.resource) = locks at hmem ⊢
  split
  · next hempty =>
    rw [List.isEmpty_iff] at hempty
    subst hempty
    refine iff_of_false Bool.noConfusion ?_
    rintro ⟨p, hp, hb⟩
    rw [Bool.and_eq_true] at hb
    exact absurd ((hmem p.2).mpr ⟨p, hp, rfl, hb.1⟩) List.not_mem_nil
  · next hne =>
    obtain ⟨l, hl⟩ : ∃ l, l ∈ locks := List.exists_mem_of_ne_nil _ fun h => hne (by rw [h]; rfl)
    cases a.lockType with
    | exclusive =>
      obtain ⟨p, hp, rfl, hr⟩ := (hmem l).mp hl
      exact iff_of_true rfl ⟨p, hp, by simp [hr]⟩
    | shared =>
      dsimp only
      rw [Bool.not_eq_false', List.any_eq_true]
      constructor
      · rintro ⟨l, hl, hx⟩
        obtain ⟨p, hp, rfl, hr⟩ := (hmem l).mp hl
        exact ⟨p, hp, by simpa [hr] using hx⟩
      · rintro ⟨p, hp, hb⟩
        rw [Bool.and_eq_true, Bool.or_eq_true] at hb
        exact ⟨p.2, (hmem p.2).mpr ⟨p, hp, rfl, hb.1⟩, hb.2.resolve_left (by simp)⟩

theorem WaitsFor.congr {c c' d d' : Value} (h : m.WaitsFor c c') (hc : (c == d) = true)
    (hc' : (c' == d') = true) : m.WaitsFor d d' := by
  obtain ⟨w, hw, hwc, p, hp, hb, hpc⟩ := h
  exact ⟨w, hw, BEq.trans hwc hc, p, hp, hb, BEq.trans hpc hc'⟩

/-- A call waits for each client whose lock blocks it, and the graph knows. -/
def Covered (m : DistributedLockManager) : Prop :=
  ∀ w ∈ m.waiting, ∀ p ∈ m.locks, p.2.blocks w.1 = true → m.waitGraph.HasEdge w.1.clientId p.2.owner

/-- The edges of one call are there. -/
def CoversCall (m : DistributedLockManager) (a : AcquireLock) : Prop :=
  ∀ p ∈ m.locks, p.2.blocks a = true → m.waitGraph.HasEdge a.clientId p.2.owner

theorem Covered.hasEdge {c c' : Value} (h : m.Covered) (hw : m.WaitsFor c c') :
    m.waitGraph.HasEdge c c' := by
  obtain ⟨w, hw, hwc, p, hp, hb, hpc⟩ := hw
  exact (h w hw p hp hb).congr hwc hpc

theorem checkTimeout_covered (h : m.Covered) (ha : m.CoversCall a) :
    (m.checkTimeout a startTime now).1.Covered := by
  unfold checkTimeout
  split
  · exact h
  · split
    · exact h
    · intro w hw
      rcases List.mem_append.mp hw with hw | hw
      · exact h w hw
      · rw [List.mem_singleton.mp hw]
        exact ha

theorem poll_covered (h : m.Covered) (ha : m.CoversCall a) :
    (m.poll a startTime now).1.Covered := by
  unfold poll
  split
  · exact h
  · exact checkTimeout_covered h ha

/-- The edge that `acquire_lock` adds is enough for the call. -/
def EdgeSuffices (m : DistributedLockManager) (a : AcquireLock) : Prop :=
  ∀ p ∈ m.locks, p.2.blocks a = true → m.waitGraph.HasEdge a.clientId p.2.owner ∨
    ∃ holder ∈ m.getLockHolder a.resource, holder.truthy = true ∧ (holder == p.2.owner) = true

theorem waitForHolder_covered (h : m.Covered) : (m.waitForHolder a).1.Covered := by
  unfold waitForHolder
  split
  · split
    · exact fun w hw p hp hb => LockWaitGraph.hasEdge_addEdge.mpr (Or.inl (h w hw p hp hb))
    · exact h
  · exact h

theorem waitForHolder_coversCall (ha : m.EdgeSuffices a) (hok : (m.waitForHolder a).2 = false) :
    (m.waitForHolder a).1.CoversCall a := by
  unfold waitForHolder at hok ⊢
  split
  · next holder hholder =>
    split
    · next ht =>
      rw [hholder] at hok
      dsimp only at hok
      rw [if_pos ht] at hok
      intro p hp hb
      refine LockWaitGraph.hasEdge_addEdge.mpr ((ha p hp hb).imp_right ?_)
      rintro ⟨holder', h', -, heq⟩
      cases hholder.symm.trans h'
      exact ⟨hok, BEq.rfl, BEq.symm heq⟩
    · next hf =>
      refine fun p hp hb => (ha p hp hb).resolve_right ?_
      rintro ⟨holder', h', ht, -⟩
      cases hholder.symm.trans h'
      exact hf ht
  · next hnone =>
    refine fun p hp hb => (ha p hp hb).resolve_right ?_
    rintro ⟨holder, h', -, -⟩
    cases hnone.symm.trans h'

theorem acquireLock_covered (h : m.Covered) (ha : m.EdgeSuffices a) :
    (m.acquireLock a now).1.Covered := by
  unfold acquireLock
  split
  · exact h
  · split
    · dsimp only
      split
      · exact waitForHolder_covered h
      · next hok =>
        rw [Bool.not_eq_true] at hok
        exact poll_covered (waitForHolder_covered h) (waitForHolder_coversCall ha hok)
    · exact h

/-- The call that a coroutine begins with. -/
def Op.acquires? : Op → Option AcquireLock
  | .acquireLock a => some a
  | _ => none

/-- The call whose polling loop a coroutine is in. -/
def Frame.polls? : Frame → Option AcquireLock
  | .acquireWaiting a _ => some a
  | _ => none

/-- The lock that an entry puts into the table. -/
def acquired? (entry : LogEntry) : Option Lock :=
  if entry.command = "LOCK_ACQUIRE" then lockOf entry.data else none

/-- Starting and waking keep the cover if the edge that `acquire_lock` adds is enough. -/
theorem start_covered {op : Op} {r : DistributedLockManager × Outcome Frame Result}
    (h : m.Covered) (ha : ∀ a ∈ op.acquires?, m.EdgeSuffices a)
    (hr : m.start now op = some r) : r.1.Covered := by
  cases op with
  | acquireLock a =>
    cases hr
    exact acquireLock_covered h (ha a rfl)
  | wake k =>
    obtain ⟨w, hw, rfl⟩ := Option.map_eq_some_iff.mp hr
    have hmem := List.mem_of_getElem? hw
    exact poll_covered (fun w' hw' => h w' ((List.eraseIdx_sublist _ k).mem hw')) (h w hmem)
  | releaseLock lockId =>
    cases hr
    unfold releaseLock
    split
    · split <;> exact h
    · exact h

/-- No call waits that has an edge from or to `client`. -/
def Uninvolved (m : DistributedLockManager) (client : Value) : Prop :=
  ∀ w ∈ m.waiting, ∀ p ∈ m.locks, p.2.blocks w.1 = true →
    (w.1.clientId == client) = false ∧ (p.2.owner == client) = false

theorem resume_covered {frame : Frame} {r : Appended} (h : m.Covered)
    (hok : ∀ a ∈ frame.polls?,
      (r = .returned true → m.Uninvolved a.clientId) ∧ (r = .returned false → m.CoversCall a)) :
    (m.resume now frame r).1.Covered := by
  cases frame with
  | acquire a => exact h
  | acquireWaiting a t =>
    obtain ⟨htrue, hfalse⟩ := hok a rfl
    rcases r with ⟨_ | _⟩ | _
    · exact checkTimeout_covered h (hfalse rfl)
    · intro w hw p hp hb
      obtain ⟨hc, ho⟩ := htrue rfl w hw p hp hb
      exact LockWaitGraph.hasEdge_removeEdges hc ho (h w hw p hp hb)
    · exact h
  | release lockId => cases r <;> exact h

theorem handleCommit_covered {entry : LogEntry} (h : m.Covered)
    (hok : ∀ lock ∈ acquired? entry, ∀ w ∈ m.waiting, lock.blocks w.1 = true →
      m.waitGraph.HasEdge w.1.clientId lock.owner) :
    (m.handleCommit entry).1.Covered := by
  unfold handleCommit
  split
  · next hc =>
    split
    · exact h
    · next lock hlock =>
      have hset : ∀ q, Covered { m with
          locks := setItem m.locks lock.lockId lock
          lockQueue := q } := by
        intro q w hw p hp hb
        rcases mem_setItem hp with ⟨-, hp⟩ | ⟨-, rfl⟩
        · exact h w hw p hp hb
        · exact hok p.2 ((if_pos hc).trans hlock) w hw hb
      split
      · dsimp only
        split
        · split
          · exact hset _
          · exact hset _
        · exact hset _
      · exact h
  · split
    · split
      · exact h
      · split
        · exact fun w hw p hp hb => h w hw p (mem_delItem.mp hp).2 hb
        · exact h
    · exact h

end DistributedLockManager

/-! ## Calls of two clients -/

instance (g : LockWaitGraph) (u v : Value) : Decidable (g.HasEdge u v) :=
  inferInstanceAs (Decidable (_ = true))

instance (m : DistributedLockManager) (c c' : Value) : Decidable (m.WaitsFor c c') :=
  inferInstanceAs (Decidable (∃ w ∈ m.waiting, (w.1.clientId == c) = true ∧
    ∃ p ∈ m.locks, p.2.blocks w.1 = true ∧ (p.2.owner == c') = true))

/-- A call of a client, with the lock type, the resource and the id of the lock. -/
def lockCall (client : String) (lockType : LockType) (resource lockId : String) : AcquireLock where
  resource := .str resource
  lockType := lockType
  clientId := .str client
  timeout := .int 30
  lockId := lockId

def acquiring (a : AcquireLock) : List LockEvent :=
  [.start 0 (.acquireLock a),
    .commit { term := 1, index := 0, command := "LOCK_ACQUIRE", data := a.data },
    .resume 0 0 (.returned true)]

def twoClients (i : ℕ) : Value := .str (if i = 0 then "A" else "B")

/-! ## No false victims -/

/-- The first waiter of the graph, in the order of insertion, from which a cycle can be reached. -/
def LockWaitGraph.FirstToCycle (g : LockWaitGraph) (v : Value) : Prop :=
  ∃ pre post, g.map Prod.fst = pre ++ v :: post ∧ ReachesCycle (successors g) v ∧
    ∀ u ∈ pre, ¬ ReachesCycle (successors g) u

/-- If the first waiter that leads to a cycle owns a lock, it is on a cycle itself, and the edges of
the cycles through it are current. -/
def DistributedLockManager.Trustworthy (m : DistributedLockManager) : Prop :=
  ∀ v, m.waitGraph.FirstToCycle v → (∃ p ∈ m.locks, (p.2.owner == v) = true) →
    Relation.TransGen m.waitGraph.HasEdge v v ∧
      ∀ c c', Relation.ReflTransGen m.waitGraph.HasEdge v c → m.waitGraph.HasEdge c c' →
        Relation.ReflTransGen m.waitGraph.HasEdge c' v → m.WaitsFor c c'

/-- Clients wait for one another all around, the victim among them. -/
def DistributedLockManager.Deadlocked (m : DistributedLockManager) (victim : Value) : Prop :=
  ∃ k c, Around m.WaitsFor k c ∧ ∃ i < k, (c i == victim) = true

/-- The steps at which the detection loop may rely on the graph. -/
def Reliable (s : LockRun) : LockEvent → Prop
  | .detect _ => s.manager.Trustworthy
  | _ => True

/-- The victim is the first waiter that leads to a cycle, and owns the lock to release. -/
theorem detectionRound_victim {m : DistributedLockManager} {sets : SetOrder}
    {victim lockId : Value} (h : m.detectionRound sets = some (victim, lockId)) :
    m.waitGraph.FirstToCycle victim ∧ ∃ p ∈ m.locks, (p.2.owner == victim) = true := by
  unfold detectionRound LockWaitGraph.detectCycle at h
  rcases detect_spec sets.perm m.waitGraph with
    ⟨hnone, -⟩ | ⟨cycle, pre, v, post, hsome, ⟨rest, rfl⟩, hkeys, hreach, hpre⟩
  · rw [hnone] at h
    cases h
  · rw [hsome] at h
    obtain ⟨p, hp, heq⟩ := Option.map_eq_some_iff.mp h
    cases heq
    exact ⟨⟨pre, post, hkeys, hreach, hpre⟩, p, List.mem_of_find?_eq_some hp,
      List.find?_some (p := fun q : Value × Lock => q.2.owner == victim) hp⟩

theorem Trustworthy.deadlocked {m : DistributedLockManager} {sets : SetOrder}
    {victim lockId : Value} (hm : m.Trustworthy)
    (h : m.detectionRound sets = some (victim, lockId)) : m.Deadlocked victim := by
  obtain ⟨hfirst, howner⟩ := detectionRound_victim h
  obtain ⟨hcycle, hcurrent⟩ := hm victim hfirst howner
  obtain ⟨k, c, hc, h0⟩ := exists_around (lift_closed hcurrent hcycle)
  exact ⟨k, c, hc, 0, hc.1, h0 ▸ BEq.rfl⟩

/-- Detection has no false victims: in every run in which the loop meets a graph it may rely on,
each victim was in a real deadlock when its lock was to be released. -/
theorem detection_sound {s : LockRun} (h : Runs.Reach lockStep Reliable {} s) :
    ∀ p ∈ s.victims, p.2.Deadlocked p.1 := by
  refine h.invariant (P := fun s => ∀ p ∈ s.victims, p.2.Deadlocked p.1)
    (fun p hp => nomatch hp) ?_
  intro t e u ht hok hs
  cases e with
  | start now op =>
    obtain ⟨r, -, rfl⟩ := Option.map_eq_some_iff.mp hs
    exact ht
  | resume now k r =>
    obtain ⟨frame, -, rfl⟩ := Option.map_eq_some_iff.mp hs
    exact ht
  | commit entry =>
    cases hs
    exact ht
  | detect sets =>
    unfold lockStep at hs
    dsimp only at hs
    split at hs
    · next victim lockId hround =>
      cases hs
      intro p hp
      rcases List.mem_append.mp hp with hp | hp
      · exact ht p hp
      · rw [List.mem_singleton.mp hp]
        exact Trustworthy.deadlocked hok hround
    · cases hs
      exact ht

def asInserted : SetOrder := ⟨id, fun l => .refl l⟩

/-- Each of two clients holds a lock and waits for the other's. -/
def exclusiveDeadlock : List LockEvent :=
  acquiring (lockCall "A" .exclusive "r1" "l1") ++ acquiring (lockCall "B" .exclusive "r2" "l2") ++
    [.start 0 (.acquireLock (lockCall "B" .exclusive "r1" "l3")),
      .start 0 (.acquireLock (lockCall "A" .exclusive "r2" "l4"))]

/-- After a timeout of A only B waits, and loses its lock all the same. -/
theorem detection_false_victim : ∃ s, Runs.Reach lockStep Runs.Any {} s ∧
    ∃ p ∈ s.victims, ¬ p.2.Deadlocked p.1 := by
  obtain ⟨s, hs, p, hp, hwait⟩ := Runs.exists_of_runList lockStep {}
    (exclusiveDeadlock ++ [.start 31 (.wake 1), .detect asInserted])
    (fun s => ∃ p ∈ s.victims, ∀ w ∈ p.2.waiting, (w.1.clientId == .str "B") = true ∧
      ∀ l ∈ p.2.locks, l.2.blocks w.1 = true → (l.2.owner == .str "A") = true) (by decide +kernel)
  refine ⟨s, hs, p, hp, ?_⟩
  -- whoever waits is B, and waits for A
  have hedge : ∀ {c c'}, p.2.WaitsFor c c' → (c == .str "B") = true ∧ (c' == .str "A") = true := by
    rintro c c' ⟨w, hw, hc, l, hl, hb, hc'⟩
    obtain ⟨hB, hA⟩ := hwait w hw
    exact ⟨BEq.trans (BEq.symm hc) hB, BEq.trans (BEq.symm hc') (hA l hl hb)⟩
  rintro ⟨k, c, hc, -⟩
  have h0 := hedge (hc.2 0 hc.1)
  have h1 := hedge (hc.2 ((0 + 1) % k) (Nat.mod_lt _ hc.1))
  exact absurd (BEq.trans (BEq.symm h0.2) h1.1) (by decide)

/-- The loop may rely on a graph whose edges are all current, and whose waiters are on cycles. -/
theorem trustworthy_of_current {m : DistributedLockManager}
    (hcycle : ∀ p ∈ m.waitGraph, Relation.TransGen m.waitGraph.HasEdge p.1 p.1)
    (hcurrent : ∀ p ∈ m.waitGraph, ∀ c ∈ p.2, m.WaitsFor p.1 c) : m.Trustworthy := by
  rintro v ⟨pre, post, hkeys, -⟩ -
  obtain ⟨p, hp, rfl⟩ : ∃ p ∈ m.waitGraph, p.1 = v := by
    rw [← List.mem_map, hkeys]
    exact List.mem_append_right pre List.mem_cons_self
  refine ⟨hcycle p hp, fun c c' _ he _ => ?_⟩
  obtain ⟨q, hq, hc, heq⟩ := exists_of_edge he
  unfold LockWaitGraph.HasEdge Edge at he
  rw [heq] at he
  obtain ⟨c'', hmem, hc'⟩ := List.contains_iff_exists_mem_beq.mp he
  exact WaitsFor.congr (hcurrent q hq c'' hmem) (BEq.symm hc) (BEq.symm hc')

theorem detection_sound_exclusive : ∃ s, Runs.Reach lockStep Reliable {} s ∧
    ∃ p ∈ s.victims, p.2.Deadlocked p.1 := by
  have hacquiring : ∀ a, ∀ e ∈ acquiring a, ∀ t, Reliable t e := by
    intro a e he t
    simp only [acquiring, List.mem_cons, List.not_mem_nil, or_false] at he
    rcases he with rfl | rfl | rfl <;> trivial
  have hevents : ∀ e ∈ exclusiveDeadlock, ∀ t, Reliable t e := by
    intro e he t
    rcases List.mem_append.mp he with he | he
    · rcases List.mem_append.mp he with he | he <;> exact hacquiring _ e he t
    · simp only [List.mem_cons, List.not_mem_nil, or_false] at he
      rcases he with rfl | rfl <;> trivial
  obtain ⟨s, hs, hgraph, hBA, hAB, hround⟩ := Runs.exists_of_forall lockStep Reliable {}
    exclusiveDeadlock
    (fun s => s.manager.waitGraph = [(.str "B", [.str "A"]), (.str "A", [.str "B"])] ∧
      s.manager.WaitsFor (.str "B") (.str "A") ∧ s.manager.WaitsFor (.str "A") (.str "B") ∧
      s.manager.detectionRound asInserted = some (.str "B", .str "l2")) hevents
    (by decide +kernel)
  have htrust : s.manager.Trustworthy := by
    have hB : s.manager.waitGraph.HasEdge (.str "B") (.str "A") := by rw [hgraph]; decide
    have hA : s.manager.waitGraph.HasEdge (.str "A") (.str "B") := by rw [hgraph]; decide
    refine trustworthy_of_current ?_ ?_ <;> rw [hgraph] <;>
      simp only [List.forall_mem_cons, List.not_mem_nil, false_imp_iff, implies_true, and_true]
    · rw [← hgraph]
      exact ⟨.tail (.single hB) hA, .tail (.single hA) hB⟩
    · exact ⟨hBA, hAB⟩
  have hstep : ∃ t, lockStep s (.detect asInserted) = some t ∧
      (.str "B", s.manager) ∈ t.victims := by
    rw [lockStep, hround]
    exact ⟨_, rfl, List.mem_append_right _ List.mem_cons_self⟩
  obtain ⟨t, ht, hvictim⟩ := hstep
  have hreach := hs.tail (LockEvent.detect asInserted) htrust ht
  exact ⟨t, hreach, _, hvictim, detection_sound hreach _ hvictim⟩

/-! ## Missing nothing -/

/-- The steps at which the graph keeps up with the waiting calls: the one edge that `acquire_lock`
adds is enough, no call waits for a new lock without an edge to its owner, and `remove_edges` takes
no edge that is needed. -/
def KeepsUp (s : LockRun) : LockEvent → Prop
  | .start _ op => ∀ a ∈ op.acquires?, s.manager.EdgeSuffices a
  | .resume _ k r => ∀ a ∈ s.calls[k]?.bind Frame.polls?,
      (r = .returned true → s.manager.Uninvolved a.clientId) ∧
        (r = .returned false → s.manager.CoversCall a)
  | .commit entry => ∀ lock ∈ acquired? entry, ∀ w ∈ s.manager.waiting, lock.blocks w.1 = true →
      s.manager.waitGraph.HasEdge w.1.clientId lock.owner
  | .detect _ => True

theorem lockStep_covered {s s' : LockRun} {e : LockEvent} (h : s.manager.Covered)
    (hok : KeepsUp s e) (hs : lockStep s e = some s') : s'.manager.Covered := by
  cases e with
  | start now op =>
    obtain ⟨r, hr, rfl⟩ := Option.map_eq_some_iff.mp hs
    exact start_covered h hok hr
  | resume now k r =>
    obtain ⟨frame, hf, rfl⟩ := Option.map_eq_some_iff.mp hs
    exact resume_covered h fun a ha => hok a (by rw [hf]; exact ha)
  | commit entry =>
    cases hs
    exact handleCommit_covered h hok
  | detect sets =>
    unfold lockStep at hs
    dsimp only at hs
    split at hs
    · cases hs
      show (s.manager.releaseLock _).1.Covered
      unfold releaseLock
      split
      · split <;> exact h
      · exact h
    · cases hs
      exact h

/-- Detection misses nothing: in every run whose steps keep the graph up, `detect_cycle` returns a
cycle whenever clients wait for one another all around. -/
theorem detection_complete {s : LockRun} (h : Runs.Reach lockStep KeepsUp {} s) {k : ℕ}
    {c : ℕ → Value} (hc : Around s.manager.WaitsFor k c) (sets : SetOrder) :
    s.manager.waitGraph.detectCycle sets ≠ none := by
  have hcovered : s.manager.Covered := by
    refine h.invariant (P := fun s => s.manager.Covered) (fun w hw => nomatch hw) ?_
    exact fun t e u ht hok hs => lockStep_covered ht hok hs
  have hcycle := Relation.TransGen.mono (fun _ _ => hcovered.hasEdge) _ _ (hc.transGen hc.1)
  rcases detect_spec sets.perm s.manager.waitGraph with ⟨-, hno⟩ | ⟨cycle, _, _, _, heq, -⟩
  · exact absurd hcycle (hno _)
  · show detect sets.order s.manager.waitGraph ≠ none
    rw [heq]
    exact Option.some_ne_none cycle

/-! ### Runs that miss a cycle, and one that does not -/

instance (m : DistributedLockManager) (a : AcquireLock) : Decidable (m.EdgeSuffices a) :=
  inferInstanceAs (Decidable (∀ p ∈ m.locks, p.2.blocks a = true →
    m.waitGraph.HasEdge a.clientId p.2.owner ∨
      ∃ holder ∈ m.getLockHolder a.resource, holder.truthy = true ∧ (holder == p.2.owner) = true))

instance (m : DistributedLockManager) (a : AcquireLock) : Decidable (m.CoversCall a) :=
  inferInstanceAs (Decidable (∀ p ∈ m.locks, p.2.blocks a = true →
    m.waitGraph.HasEdge a.clientId p.2.owner))

instance (m : DistributedLockManager) (c : Value) : Decidable (m.Uninvolved c) :=
  inferInstanceAs (Decidable (∀ w ∈ m.waiting, ∀ p ∈ m.locks, p.2.blocks w.1 = true →
    (w.1.clientId == c) = false ∧ (p.2.owner == c) = false))

instance (s : LockRun) : ∀ e, Decidable (KeepsUp s e)
  | .start _ op => inferInstanceAs (Decidable (∀ a ∈ op.acquires?, s.manager.EdgeSuffices a))
  | .resume _ k r => inferInstanceAs (Decidable (∀ a ∈ s.calls[k]?.bind Frame.polls?,
      (r = .returned true → s.manager.Uninvolved a.clientId) ∧
        (r = .returned false → s.manager.CoversCall a)))
  | .commit entry => inferInstanceAs (Decidable (∀ lock ∈ acquired? entry,
      ∀ w ∈ s.manager.waiting, lock.blocks w.1 = true →
        s.manager.waitGraph.HasEdge w.1.clientId lock.owner))
  | .detect _ => inferInstanceAs (Decidable True)

/-- Each of two clients holds a shared lock and waits for an exclusive one where the other is. -/
def sharedDeadlock : List LockEvent :=
  acquiring (lockCall "A" .shared "r1" "l1") ++ acquiring (lockCall "B" .shared "r2" "l2") ++
    [.start 0 (.acquireLock (lockCall "B" .exclusive "r1" "l3")),
      .start 0 (.acquireLock (lockCall "A" .exclusive "r2" "l4"))]

/-- The holders of shared locks get no edges. -/
theorem detection_misses : ∃ s, Runs.Reach lockStep Runs.Any {} s ∧
    (∃ k c, Around s.manager.WaitsFor k c) ∧
      ∀ sets, s.manager.waitGraph.detectCycle sets = none := by
  obtain ⟨s, hs, hwait, hgraph⟩ := Runs.exists_of_runList lockStep {} sharedDeadlock
    (fun s => (∀ i < 2, s.manager.WaitsFor (twoClients i) (twoClients ((i + 1) % 2))) ∧
      s.manager.waitGraph = []) (by decide +kernel)
  refine ⟨s, hs, ⟨2, twoClients, Nat.two_pos, hwait⟩, fun sets => ?_⟩
  rw [hgraph]
  rfl

theorem detection_complete_exclusive : ∃ s, Runs.Reach lockStep KeepsUp {} s ∧
    Around s.manager.WaitsFor 2 twoClients ∧
      ∀ sets, s.manager.waitGraph.detectCycle sets ≠ none := by
  obtain ⟨s, hs, hwait⟩ := Runs.exists_of_checked lockStep KeepsUp {} exclusiveDeadlock
    (fun s => ∀ i < 2, s.manager.WaitsFor (twoClients i) (twoClients ((i + 1) % 2)))
    (by decide +kernel)
  exact ⟨s, hs, ⟨Nat.two_pos, hwait⟩, detection_complete hs ⟨Nat.two_pos, hwait⟩⟩

end DistributedSync
