import DistributedSync.Raft.TotalOrder
import DistributedSync.System.Replicas
import Mathlib.Algebra.BigOperators.Group.Finset.Basic
import Mathlib.Algebra.Order.BigOperators.Group.Finset
import Mathlib.Tactic.Abel

/-!
# Publications

A coroutine makes one `append_entry` call, at most, for what it has been asked (`Services.Issues`),
and Raft delivers an entry at most as often as it was appended (`delivered_le_appended`), however
often the leader sends it. So no partition ever holds more copies of a message than clients have
published (`queue_atMostOnce`).
-/

namespace DistributedSync

open DistributedSystem Runs

variable {S : Services} {cfg : ClusterConfig} {β : Type}

/-! ## What coroutines are asked, and what they tell -/

/-- What an `append_entry` call tells, if anything, is what its coroutine was asked, and no
coroutine tells it a second time. -/
structure Services.Issues (S : Services) (asks : S.Op → Option β)
    (tells : String × Dict → Option β) : Prop where
  start : ∀ {now op state r frame}, S.start now op state = some r → r.2 = .append frame →
    ∀ m ∈ tells (S.request frame), m ∈ asks op
  resume : ∀ {now frame a state frame'}, (S.resume now frame a state).2 = .append frame' →
    tells (S.request frame') = none

namespace DistributedSystem

/-- What the coroutine that begins in a step is asked. -/
def asked (asks : S.Op → Option β) : SystemEvent S → Multiset β
  | .call _ _ op => ↑(asks op).toList
  | _ => 0

/-- The entries that a step appends. -/
def appends (s : DistributedSystem S) (ev : SystemEvent S) : Multiset LogEntry :=
  (s.raftEvent ev).elim 0 s.cluster.appended

/-- What the running coroutine of node `i` is about to tell. -/
def untold (tells : String × Dict → Option β) (s : DistributedSystem S) (i : String) : Multiset β :=
  ↑((s.running i).bind fun frame => tells (S.request frame)).toList

/-- What the entries tell. -/
def told (tells : String × Dict → Option β) (entries : Multiset LogEntry) : Multiset β :=
  entries.filterMap fun e => tells (e.command, e.data)

variable {asks : S.Op → Option β} {tells : String × Dict → Option β} {s s' : DistributedSystem S}
  {ev : SystemEvent S} {i : String}

theorem untold_of_running (h : s'.running i = s.running i) :
    s'.untold tells i = s.untold tells i := by
  rw [untold, h, untold]

theorem untold_of_none (h : s.running i = none) : s.untold tells i = 0 := by
  rw [untold, h]
  rfl

theorem untold_resume (h : S.Issues asks tells) (now : ℚ) (frame : S.Frame) (a : Appended)
    (state : S.State) : untold tells (s.react i (S.resume now frame a state)) i = 0 := by
  rw [untold, react_running, Function.update_self]
  rcases ho : (S.resume now frame a state).2 with frame' | _ | _
  · rw [Outcome.frame?, Option.bind_some, h.resume ho]
    rfl
  · rfl
  · rfl

theorem raftStep_running {now : ℚ} {e : Event S.Frame} (h : s.raftStep cfg i now e = some s') :
    s'.running = s.running := by
  obtain ⟨c, state, -, -, rfl⟩ := raftStep_some h
  rfl

theorem told_zero : told tells 0 = 0 := Multiset.filterMap_zero _

theorem told_append (n : RaftNode) (frame : S.Frame) :
    told tells {n.newEntry (S.request frame).1 (S.request frame).2} =
      ↑(tells (S.request frame)).toList := by
  rw [told, ← Multiset.cons_zero, Multiset.filterMap_cons, Multiset.filterMap_zero, add_zero]
  show ((tells (S.request frame)).map singleton).getD 0 = _
  cases tells (S.request frame) <;> rfl

theorem toList_le {a b : Option β} (h : ∀ m ∈ a, m ∈ b) :
    (↑a.toList : Multiset β) ≤ ↑b.toList := by
  cases a with
  | none => exact Multiset.zero_le _
  | some m => rw [h m rfl]

/-- What the running coroutine is about to tell is told when it makes its call. -/
theorem told_appends {now : ℚ} {raises : Raises} {frame : S.Frame} (hf : s.running i = some frame)
    (hl : (s.cluster.proc i).raft.state = .leader) :
    told tells (s.appends (.append i now raises)) = s.untold tells i := by
  have happ : s.appends (.append i now raises) =
      {(s.cluster.proc i).raft.newEntry (S.request frame).1 (S.request frame).2} := by
    simp [appends, raftEvent, hf, hl, Cluster.appended]
  rw [happ, told_append, untold, hf, Option.bind_some]

theorem react_running_of_ne {r : S.State × Outcome S.Frame S.Result} (h : s'.running = s.running)
    (j : String) (hj : j ≠ i) : (s'.react i r).running j = s.running j := by
  rw [react_running, Function.update_of_ne hj, h]

/-- What a step tells, or leaves to be told on the node that runs, it has been asked or found there.
-/
theorem step_issues (h : S.Issues asks tells) (hstep : s.step cfg ev = some s') :
    ∃ i, (∀ j ≠ i, s'.running j = s.running j) ∧
      told tells (s.appends ev) + s'.untold tells i ≤ asked asks ev + s.untold tells i := by
  cases step_cases hstep with
  | call i now op r hi hr =>
    refine ⟨i, react_running_of_ne rfl, ?_⟩
    rw [show told tells (s.appends (.call i now op)) = 0 from told_zero, zero_add]
    refine le_trans (toList_le fun m hm => ?_) (Multiset.le_add_right _ _)
    rw [react_running, Function.update_self] at hm
    obtain ⟨frame, hframe, hm⟩ := Option.bind_eq_some_iff.mp hm
    rcases ho : r.2 with frame' | _ | _ <;> rw [ho] at hframe <;> cases hframe
    exact h.start hr ho m hm
  | refused i now raises frame hf hl =>
    refine ⟨i, react_running_of_ne rfl, ?_⟩
    have happ : s.appends (.append i now raises) = 0 := by
      simp [appends, raftEvent, hf, hl]
    rw [happ, told_zero, untold_resume h, zero_add]
    exact Multiset.zero_le _
  | appends i now raises frame s₁ hf hl hp hs =>
    refine ⟨i, fun j hj => ?_, ?_⟩
    · dsimp only
      rw [Function.update_of_ne hj, raftStep_running hs]
    · have hnone : untold tells { s₁ with running := Function.update s₁.running i none } i = 0 :=
        untold_of_none (Function.update_self ..)
      rw [told_appends hf hl, hnone, add_zero]
      exact Multiset.le_add_left _ _
  | commits i now raises frame s₁ b hf hl hb hs =>
    refine ⟨i, react_running_of_ne (raftStep_running hs), ?_⟩
    rw [told_appends hf hl, untold_resume h, add_zero]
    exact Multiset.le_add_left _ _
  | returns i now j call s₁ hi hc hs =>
    refine ⟨i, react_running_of_ne (raftStep_running hs), ?_⟩
    rw [show told tells (s.appends (.raft now (.returnAppend i j))) = 0 from told_zero,
      untold_resume h, zero_add]
    exact Multiset.zero_le _
  | raft i now e s₁ hr hi he hret hs =>
    have happ : s.appends (.raft now e) = 0 := by
      cases e with
      | appendEntry => cases he
      | _ => rfl
    have hrun := raftStep_running hs
    refine ⟨i, fun j _ => by rw [hrun], ?_⟩
    rw [happ, told_zero, untold_of_running (congrFun hrun i), zero_add]
    exact Multiset.le_add_left _ _

/-! ## Along a run -/

/-- The states of runs, with what clients have asked so far and the entries appended so far. -/
abbrev Logged (cfg : ClusterConfig) (ok : DistributedSystem S → SystemEvent S → Prop)
    (asks : S.Op → Option β) : DistributedSystem S × Multiset β × Multiset LogEntry → Prop :=
  Recorded (step cfg) ok (fun s ev => (asked asks ev, s.appends ev)) (init S cfg)

variable {ok : DistributedSystem S → SystemEvent S → Prop}
  {p : DistributedSystem S × Multiset β × Multiset LogEntry}

/-- The entries tell no more than what has been asked, also together with what running coroutines
are about to tell. -/
theorem Logged.told_untold_le (h : S.Issues asks tells) (hr : Logged cfg ok asks p)
    (I : Finset String) : told tells p.2.2 + ∑ i ∈ I, p.1.untold tells i ≤ p.2.1 := by
  induction hr generalizing I with
  | refl =>
    show told tells 0 + ∑ i ∈ I, (init S cfg).untold tells i ≤ 0
    rw [told_zero, Finset.sum_eq_zero fun i _ => untold_of_none rfl, zero_add]
  | @tail p q ev _ _ hs ih =>
    obtain ⟨s', hs', rfl⟩ := record_some hs
    obtain ⟨i, hother, hle⟩ := step_issues h hs'
    -- the node that runs may be taken to be one of those counted
    have hi : i ∈ insert i I := Finset.mem_insert_self i I
    have hrest : ∑ j ∈ (insert i I).erase i, s'.untold tells j =
        ∑ j ∈ (insert i I).erase i, p.1.untold tells j :=
      Finset.sum_congr rfl fun j hj => untold_of_running (hother j (Finset.ne_of_mem_erase hj))
    have hsum := ih (insert i I)
    rw [← Finset.add_sum_erase _ _ hi] at hsum
    calc told tells (p.2.2 + p.1.appends ev) + ∑ j ∈ I, s'.untold tells j
        ≤ told tells (p.2.2 + p.1.appends ev) + ∑ j ∈ insert i I, s'.untold tells j :=
          add_le_add_right (Finset.sum_le_sum_of_subset (Finset.subset_insert i I)) _
      _ = told tells p.2.2 + told tells (p.1.appends ev) +
            (s'.untold tells i + ∑ j ∈ (insert i I).erase i, p.1.untold tells j) := by
          rw [← Finset.add_sum_erase _ _ hi, hrest, told, Multiset.filterMap_add]
          rfl
      _ = told tells p.2.2 + ∑ j ∈ (insert i I).erase i, p.1.untold tells j +
            (told tells (p.1.appends ev) + s'.untold tells i) := by
          abel
      _ ≤ told tells p.2.2 + ∑ j ∈ (insert i I).erase i, p.1.untold tells j +
            (asked asks ev + p.1.untold tells i) := add_le_add_right hle _
      _ = told tells p.2.2 + (p.1.untold tells i +
            ∑ j ∈ (insert i I).erase i, p.1.untold tells j) + asked asks ev := by
          abel
      _ ≤ p.2.1 + asked asks ev := add_le_add_left hsum _

theorem Logged.told_le (h : S.Issues asks tells) (hr : Logged cfg ok asks p) :
    told tells p.2.2 ≤ p.2.1 :=
  (Multiset.le_add_right _ _).trans (hr.told_untold_le h ∅)

/-- The cluster has made a run in which these entries were appended. -/
theorem Logged.cluster {okc : Cluster S.Frame → Event S.Frame → Prop}
    (hr : Logged cfg (Lifted okc) asks p) :
    Recorded cfg.step okc Cluster.appended cfg.init (p.1.cluster, p.2.2) := by
  induction hr with
  | refl => exact .refl
  | @tail p q ev _ hok hs ih =>
    obtain ⟨s', hs', rfl⟩ := record_some hs
    rcases step_raftEvent hs' with ⟨hnone, heq⟩ | ⟨e, he, hc⟩
    · have happ : p.1.appends ev = 0 := by rw [appends, hnone, Option.elim_none]
      show Recorded _ _ _ _ (s'.cluster, p.2.2 + p.1.appends ev)
      rwa [happ, add_zero, heq]
    · have happ : p.1.appends ev = p.1.cluster.appended e := by rw [appends, he, Option.elim_some]
      refine ih.tail e (hok e he) ?_
      rw [record, hc, Option.map_some]
      exact congrArg (fun m => some (s'.cluster, p.2.2 + m)) happ.symm

end DistributedSystem

/-! ## Publications -/

/-- The message that a call publishes. -/
def DistributedQueue.Op.message? (md5 : String → ℕ) : DistributedQueue.Op → Option Published
  | .publish topic payload msgId => (DistributedQueue.encode? topic).map fun topic =>
      { msgId := .str msgId, payload := payload.logged,
        partitionId := .int (DistributedQueue.getPartition md5 topic), topic := some (.str topic) }
  | _ => none

/-- A call of `publish` logs its message. The entry of `acknowledge` is none of a message. -/
theorem DistributedQueue.message?_of_start {md5 : String → ℕ} {q : DistributedQueue} {op : Op}
    {frame : Frame} (h : (q.start md5 op).2 = .append frame) {m : Published}
    (hm : LogEntry.published? ⟨0, 0, (request frame).1, (request frame).2⟩ = some m) :
    op.message? md5 = some m := by
  cases op with
  | publish topic payload msgId =>
    obtain ⟨name, replicas, hname, rfl⟩ := publish_append h
    rw [published?_of_request rfl] at hm
    rw [Op.message?, hname, Option.map_some, hm]
  | consume topic consumerId batchSize =>
    obtain ⟨k, -, hdone, -⟩ := consume_eq md5 (q := q) topic consumerId batchSize
    cases hdone.symm.trans h
  | acknowledge msgId consumerId =>
    rw [start, acknowledge] at h
    split at h
    · dsimp only at h
      split at h <;> cases h
      cases hm
    · cases h

namespace DistributedNode

def asks (md5 : String → ℕ) : Op → Option Published
  | .queue op => op.message? md5
  | _ => none

/-- The message in the data of an `append_entry` call. -/
def publishes (r : String × Dict) : Option Published :=
  LogEntry.published? ⟨0, 0, r.1, r.2⟩

theorem publishes_lock (frame : DistributedLockManager.Frame) :
    publishes (DistributedLockManager.request frame) = none := by
  cases frame <;> rfl

theorem publishes_cache (frame : MOESICache.Frame) :
    publishes (MOESICache.request frame) = none := by
  cases frame <;> rfl

theorem issues (md5 : String → ℕ) (config : SystemConfig) (peers : String → List String) :
    (services md5 config peers).Issues (asks md5) publishes where
  start := by
    intro now op n r frame hr ho m hm
    cases op with
    | lock op =>
      obtain ⟨r', -, rfl⟩ := Option.map_eq_some_iff.mp hr
      obtain ⟨frame, -, rfl⟩ := Outcome.map_append ho
      cases (publishes_lock frame).symm.trans hm
    | cache op =>
      cases hr
      obtain ⟨frame, -, rfl⟩ := Outcome.map_append ho
      cases (publishes_cache frame).symm.trans hm
    | queue op =>
      cases hr
      obtain ⟨frame, hframe, rfl⟩ := Outcome.map_append ho
      exact DistributedQueue.message?_of_start hframe hm
  resume := by
    intro now frame a n frame' ho
    cases frame with
    | lock frame =>
      obtain ⟨frame', -, rfl⟩ := Outcome.map_append ho
      exact publishes_lock frame'
    | cache frame =>
      obtain ⟨frame', -, rfl⟩ := Outcome.map_append ho
      exact publishes_cache frame'
    | queue frame =>
      obtain ⟨frame', hframe', rfl⟩ := Outcome.map_append ho
      cases a <;> cases frame <;> cases hframe'

variable {md5 : String → ℕ} {config : SystemConfig}

/-- With safe steps, a partition holds a message at most as often as clients have published it,
on every node and whatever is sent again. -/
theorem queue_atMostOnce
    {p : DistributedSystem (services md5 config cfg.peers) × Multiset Published}
    (hr : Recorded (step cfg) (Lifted SafeStep) (fun _ ev => asked (asks md5) ev)
      (DistributedSystem.init _ cfg) p) (i : String) (partitionId : Value) :
    ↑((queueOf p.1 i).contentsOf partitionId) ≤
      (p.2.filter fun m => m.partitionId == partitionId).map Published.contents := by
  obtain ⟨entries, hlog⟩ := hr.also fun s ev => s.appends ev
  have htold : told publishes entries ≤ p.2 :=
    Logged.told_le (issues md5 config cfg.peers) hlog
  have hdelivered : ↑(p.1.cluster.delivered i) ≤ entries :=
    delivered_le_appended (Logged.cluster hlog) i
  have hpublished : ↑((p.1.cluster.delivered i).filterMap LogEntry.published?) ≤ p.2 := by
    refine le_trans ?_ htold
    rw [← Multiset.filterMap_coe]
    exact Multiset.filterMap_le_filterMap _ hdelivered
  have hunacked : ↑(unacked (p.1.cluster.delivered i)) ≤ p.2 :=
    (Multiset.coe_le.mpr (unacked_sublist _).subperm).trans hpublished
  have hcontents : (queueOf p.1 i).contentsOf partitionId =
      ((unacked (p.1.cluster.delivered i)).filter fun m => m.partitionId == partitionId).map
        Published.contents := by
    have := congrFun (congrArg Replica.available (replica_eq hr.reach i)) partitionId
    rwa [Replica.ofLog_available] at this
  have hfilter := Multiset.filter_le_filter (fun m : Published => m.partitionId == partitionId)
    hunacked
  rw [Multiset.filter_coe] at hfilter
  rw [hcontents, ← Multiset.map_coe]
  simpa only [Bool.decide_eq_true] using Multiset.map_le_map hfilter

/-- Leader `a` does not hear that `b` has the entry, and sends it again. -/
theorem queue_atMostOnce_again : ∃ p : DistributedSystem threeServices × Multiset Published,
    (Multiset.card p.2 = 1 ∧ ((queueOf p.1 "b").contentsOf (.int 1)).length = 1) ∧
    ↑((queueOf p.1 "b").contentsOf (.int 1)) ≤
      (p.2.filter fun m => m.partitionId == .int 1).map Published.contents := by
  obtain ⟨p, hr, hp⟩ := exists_of_checked
    (record (step threeNodes) fun _ ev => asked (asks String.length) ev)
    (fun p ev => Lifted SafeStep p.1 ev) (DistributedSystem.init threeServices threeNodes, 0)
    (raftOnly electA ++ [askPublish "m", .append "a" 0 never] ++
      raftOnly ([.sendAppend "a" (.append 0) 0, .handleMessage 2 never, .heartbeat "a"] ++
        push "a" .heartbeat 0 3 ++ pushInVain "a" .heartbeat 1 ++
        [.heartbeat "a", .sendAppend "a" .heartbeat 0, .handleMessage 5 never]))
    (fun p => Multiset.card p.2 = 1 ∧ ((queueOf p.1 "b").contentsOf (.int 1)).length = 1)
    (by decide +kernel)
  exact ⟨p, hp, queue_atMostOnce hr "b" (.int 1)⟩

end DistributedNode

end DistributedSync
