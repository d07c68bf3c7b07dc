import DistributedSync.Raft.Lone
import DistributedSync.Services.Eviction
import DistributedSync.System.Exclusivity

/-!
# Eviction on a cluster of one node

The leader of a cluster of one node applies its own entries at once, so that a call of its cache
runs from its first step to its end with nothing in between (`CacheRun`). The keys of the cache
between two calls are those of a cache of the same capacity that drops its least recently used key
(`evicts_least_recent`).
-/

namespace DistributedSync

open DistributedNode DistributedSystem

variable {md5 : String → ℕ} {config : SystemConfig} {cfg : ClusterConfig} {i : String}

/-- The steps of a run, each with its time and the request that begins with it, if any: clients of
node `i` call `get`, or `put` with no time to live, and the running call goes on. -/
inductive CacheEvent (i : String) (now : ℚ) :
    SystemEvent (services md5 config cfg.peers) → List (Lru.Request String) → Prop
  | get (key : String) : CacheEvent i now (.call i now (.cache (.get (.str key)))) [.get key]
  | put (key : String) (value ttl : Value) (hkey : key ≠ "") (ht : ttl.num? = some 0) :
    CacheEvent i now (.call i now (.cache (.put (.str key) value ttl))) [.put key]
  | append (raises : Raises) : CacheEvent i now (.append i now raises) []
  | raft (ev : Event DistributedNode.Frame) : CacheEvent i now (.raft now ev) []

/-- The runs from `s₀` by such steps, each at a later time than the one before. -/
inductive CacheRun (i : String) (s₀ : DistributedSystem (services md5 config cfg.peers)) :
    List (Lru.Request String) → ℚ → DistributedSystem (services md5 config cfg.peers) → Prop
  | start (now : ℚ) : CacheRun i s₀ [] now s₀
  | step {requests new : List (Lru.Request String)} {now now' : ℚ}
    {s s' : DistributedSystem (services md5 config cfg.peers)}
    (ev : SystemEvent (services md5 config cfg.peers)) (h : CacheRun i s₀ requests now s)
    (hnow : now < now') (hev : CacheEvent i now' ev new) (hs : s.step cfg ev = some s') :
    CacheRun i s₀ (requests ++ new) now' s'

/-- The leader of a cluster of one node between two calls, with an empty cache that has room for a
block. -/
structure FreshLeader (s : DistributedSystem (services md5 config cfg.peers)) (i : String) :
    Prop where
  nodes : cfg.nodes = [i]
  reach : Reach cfg Runs.Any s
  leader : (s.cluster.proc i).raft.state = .leader
  idle : s.running i = none
  empty : (cacheOf s i).cache = []
  capacity : 1 ≤ (cacheOf s i).maxSize

/-- The other callbacks do not raise on the entries of the cache. -/
theorem DistributedNode.handleCommit_raises (n : DistributedNode) (now : ℚ) {e : LogEntry}
    {f : MOESICache.Frame} (he : (e.command, e.data) = MOESICache.request f) :
    (n.handleCommit now e).2 = (n.cacheService.handleCommit now e).2 := by
  obtain ⟨hc, -⟩ := Prod.mk.inj he
  have hl : (n.lockManager.handleCommit e).2 = false := by
    cases f <;> simp [DistributedLockManager.handleCommit, hc]
  have hq : (n.queueService.handleCommit now e).2 = false := by
    cases f <;> simp [DistributedQueue.handleCommit, hc]
  simp only [DistributedNode.handleCommit, hl, hq, Bool.false_eq_true, if_false]

variable {s s' : DistributedSystem (services md5 config cfg.peers)} {now now' : ℚ}
  {keys : List String}

/-- The node leads its cluster alone, and the keys of its cache are those given once its running
call returns. -/
structure Serving (s : DistributedSystem (services md5 config cfg.peers)) (i : String) (max : ℤ)
    (now : ℚ) (keys : List String) : Prop where
  lone : Lone s.cluster i
  leader : (s.cluster.proc i).raft.state = .leader
  maxSize : (cacheOf s i).maxSize = max
  call : ∃ frame, s.running i = frame.map Frame.cache ∧ (cacheOf s i).Serves now keys frame

theorem deliver_singleton {S : Services} {raises : Raises} {k : ℤ} {e : LogEntry}
    {state state' : S.State} (h : DistributedSystem.deliver now raises k [e] state = some state') :
    raises k = (S.handleCommit now e state).2 ∧ state' = (S.handleCommit now e state).1 := by
  unfold DistributedSystem.deliver at h
  dsimp only at h
  split at h
  · next hr => exact ⟨hr.symm, (Option.some.inj h).symm⟩
  · cases h

namespace Serving

variable {max : ℤ}

theorem react (hlone : Lone s.cluster i) (hleader : (s.cluster.proc i).raft.state = .leader)
    {n : DistributedNode} {o : Outcome MOESICache.Frame MOESICache.Result}
    (hmax : n.cacheService.maxSize = max) (hcall : n.cacheService.Serves now keys o.frame?) :
    Serving (s.react i (n, o.map .cache .cache)) i max now keys := by
  have hstate : (s.react i (n, o.map .cache .cache)).state i = n := by
    rw [react_state, Function.update_self]
  have hframe : (o.map Frame.cache Result.cache).frame? = o.frame?.map Frame.cache := by
    cases o <;> rfl
  constructor
  · rwa [react_cluster]
  · rwa [react_cluster]
  · rw [cacheOf, hstate, hmax]
  · refine ⟨o.frame?, ?_, ?_⟩
    · rw [react_running, Function.update_self]
      exact hframe
    · rwa [cacheOf, hstate]

theorem start (h : Serving s i max now keys) {op : MOESICache.Op} {keys' : List String}
    (hserves : (cacheOf s i).Serves now keys none →
      ((cacheOf s i).start now' op).1.Serves now' keys' ((cacheOf s i).start now' op).2.frame? ∧
        ((cacheOf s i).start now' op).1.maxSize = (cacheOf s i).maxSize)
    (hs : s.step cfg (.call i now' (.cache op)) = some s') : Serving s' i max now' keys' := by
  obtain ⟨frame, hrun, hcall⟩ := h.call
  cases step_cases hs with
  | call _ _ _ r hi hr =>
    rw [hi] at hrun
    cases frame with
    | some f => cases hrun
    | none =>
      obtain ⟨hnew, hmax⟩ := hserves hcall
      cases hr
      exact react h.lone h.leader (hmax.trans h.maxSize) hnew

theorem running (h : Serving s i max now keys) {f : MOESICache.Frame}
    (hrun : s.running i = some (.cache f)) : (cacheOf s i).Serves now keys (some f) := by
  obtain ⟨frame, hframe, hcall⟩ := h.call
  obtain ⟨g, rfl, hg⟩ := Option.map_eq_some_iff.mp (hframe.symm.trans hrun)
  cases hg
  exact hcall

/-- The running call appends an entry, which the node applies at once, and goes on. -/
theorem commits (h : Serving s i max now keys) (hnodes : cfg.nodes = [i]) (hnow : now < now')
    {raises : Raises} (hs : s.step cfg (.append i now' raises) = some s') :
    ∃ (f : MOESICache.Frame) (e : LogEntry) (t : DistributedSystem (services md5 config cfg.peers))
      (n : DistributedNode), s.running i = some (.cache f) ∧
      (e.command, e.data) = MOESICache.request f ∧
      n.cacheService = ((cacheOf s i).handleCommit now' e).1 ∧ Lone t.cluster i ∧
      (t.cluster.proc i).raft.state = .leader ∧
      s' = t.react i (n.resume now' (.cache f) (.returned true)) := by
  obtain ⟨frame, hrun, hcall⟩ := h.call
  cases step_cases hs with
  | refused _ _ _ f hf hl => exact absurd h.leader hl
  | appends _ _ _ f s₁ hf hl hp hs₁ => exact absurd h.lone.peers hp
  | commits _ _ _ f s₁ b hf hl hb hs₁ =>
    rw [hrun] at hf
    obtain ⟨f, rfl, rfl⟩ := Option.map_eq_some_iff.mp hf
    obtain ⟨c, state, hc, hd, rfl⟩ := raftStep_some hs₁
    obtain ⟨e, he⟩ : ∃ e, e = (s.cluster.proc i).raft.newEntry (MOESICache.request f).1
      (MOESICache.request f).2 := ⟨_, rfl⟩
    have hrequest : (e.command, e.data) = MOESICache.request f := by rw [he]; rfl
    have hquiet := (hcall.append hnow hrequest).1
    have hdelivers : DistributedSystem.deliver now' raises
        ((s.cluster.proc i).raft.lastApplied + 1) [e] (s.state i) = some state := by
      rw [h.lone.delivered_append hnodes hc, List.drop_left] at hd
      rw [he]
      exact hd
    obtain ⟨hraises, rfl⟩ := deliver_singleton hdelivers
    have hno : raises ((s.cluster.proc i).raft.lastApplied + 1) = false :=
      hraises.trans ((handleCommit_raises (s.state i) now' hrequest).trans hquiet)
    have hposition : (s.cluster.proc i).raft.lastApplied + 1 =
        (s.cluster.proc i).raft.log.length := by
      rw [h.lone.caughtUp.lastApplied, RaftNode.lastLogIndex]
      omega
    obtain rfl : b = true := by
      rw [RaftNode.appendEntry_caughtUp h.lone.caughtUp h.lone.peers, ← hposition] at hb
      rw [← Option.some.inj hb, hno]
      rfl
    have hlone : Lone c i := h.lone.step hnodes hc
    have hleader : (c.proc i).raft.state = .leader := h.lone.leader hnodes hc h.leader
    rw [if_pos rfl]
    dsimp only
    rw [Function.update_self]
    exact ⟨f, e, _, _, hrun, hrequest, handleCommit_cacheService (s.state i) now' e, hlone, hleader,
      rfl⟩

theorem append (h : Serving s i max now keys) (hnodes : cfg.nodes = [i]) (hnow : now < now')
    {raises : Raises} (hs : s.step cfg (.append i now' raises) = some s') :
    Serving s' i max now' keys := by
  obtain ⟨f, e, t, n, hrun, hrequest, hcache, hlone, hleader, rfl⟩ := h.commits hnodes hnow hs
  obtain ⟨-, hnew, hmax⟩ := (h.running hrun).append hnow hrequest
  rw [← hcache] at hnew hmax
  exact react hlone hleader (hmax.trans h.maxSize) hnew

theorem raft (h : Serving s i max now keys) (hnodes : cfg.nodes = [i]) (hnow : now < now')
    {ev : Event DistributedNode.Frame} (hs : s.step cfg (.raft now' ev) = some s') :
    Serving s' i max now' keys := by
  obtain ⟨frame, hrun, hcall⟩ := h.call
  cases step_cases hs with
  | returns j _ k call s₁ hi hcalls hs₁ =>
    obtain ⟨c, state, hc, hd, rfl⟩ := raftStep_some hs₁
    cases h.lone.step_cases hnodes hc
  | raft j _ _ _ hr hi he hret hs₁ =>
    obtain ⟨c, state, hc, hd, rfl⟩ := raftStep_some hs₁
    have hji : j = i := by
      cases h.lone.step_cases hnodes hc <;> exact (Option.some.inj hr).symm
    subst hji
    have hdelivered : (c.proc j).raft.delivered = (s.cluster.proc j).raft.delivered := by
      refine h.lone.delivered hnodes hc fun command data caller raises hev => ?_
      rw [hev] at he
      cases he
    rw [hdelivered, List.drop_length] at hd
    obtain rfl := Option.some.inj hd
    have hsame : Function.update s.state j (s.state j) = s.state := Function.update_eq_self ..
    rw [hsame]
    exact ⟨h.lone.step hnodes hc, h.lone.leader hnodes hc h.leader, h.maxSize, frame, hrun,
      hcall.later hnow⟩

theorem step (h : Serving s i max now keys) (hnodes : cfg.nodes = [i]) (hnow : now < now')
    {ev : SystemEvent (services md5 config cfg.peers)} {new : List (Lru.Request String)}
    (hev : CacheEvent i now' ev new) (hs : s.step cfg ev = some s') :
    Serving s' i max now' (new.foldl (Lru.step max.toNat) keys) := by
  cases hev with
  | get key => exact h.start (fun hcall => h.maxSize ▸ hcall.get hnow key) hs
  | put key value ttl hkey ht => exact h.start (fun hcall => h.maxSize ▸ hcall.put hnow hkey ht) hs
  | append raises => exact h.append hnodes hnow hs
  | raft ev => exact h.raft hnodes hnow hs

theorem init (h : FreshLeader s i) (now : ℚ) : Serving s i (cacheOf s i).maxSize now [] := by
  have hcluster : cfg.Reach Runs.Any s.cluster :=
    Reach.cluster (h.reach.mono fun _ _ _ _ _ => trivial)
  have hkeys : HasKeys (cacheOf s i).cache [] := by
    rw [h.empty]
    exact .nil
  have htracks : (cacheOf s i).Tracks now [] :=
    ⟨hkeys, List.not_mem_nil, .nil, by simp, by simp [h.empty]⟩
  have hmax := h.capacity
  exact ⟨Lone.reach h.nodes hcluster, h.leader, rfl, none, h.idle,
    .rest htracks (by rw [List.length_nil]; omega)⟩

end Serving

variable {s₀ : DistributedSystem (services md5 config cfg.peers)} (h₀ : FreshLeader s₀ i)
  {requests : List (Lru.Request String)} (h : CacheRun i s₀ requests now s)

include h₀ h

theorem CacheRun.serving :
    Serving s i (cacheOf s₀ i).maxSize now (Lru.run (cacheOf s₀ i).maxSize.toNat requests) := by
  induction h with
  | start now => exact Serving.init h₀ now
  | step ev h hnow hev hs ih =>
    rw [Lru.run, List.foldl_append]
    exact ih.step h₀.nodes hnow hev hs

/-- After each call the cache holds the most recently used keys, and the key of the last `put` is
one of them. -/
theorem evicts_least_recent (hret : s.running i = none) :
    (∀ v, v ∈ (cacheOf s i).cache.map Prod.fst ↔
      v ∈ (Lru.run (cacheOf s₀ i).maxSize.toNat requests).map Value.str) ∧
    ∀ key, requests.getLast? = some (.put key) →
      .str key ∈ (cacheOf s i).cache.map Prod.fst := by
  obtain ⟨frame, hrun, hcall⟩ := (h.serving h₀).call
  rw [hret] at hrun
  cases frame with
  | some f => cases hrun
  | none =>
    obtain ⟨htracks, -⟩ := hcall
    refine ⟨fun v => htracks.hasKeys.mem_iff, fun key hlast => htracks.hasKeys.mem_iff.mpr ?_⟩
    obtain ⟨requests', rfl⟩ := List.getLast?_eq_some_iff.mp hlast
    have hmax := h₀.capacity
    rw [Lru.run, List.foldl_append]
    exact List.mem_map_of_mem (Lru.mem_step_put (by omega))

omit h₀ h

/-! ## Calls end -/

/-- How often a call of the cache still calls `append_entry`, at most. -/
def MOESICache.Frame.callsLeft : MOESICache.Frame → ℕ
  | .acquireExclusive _ _ _ _ => 4
  | .broadcastInvalidation _ _ _ _ => 3
  | .replicate _ _ _ _ _ => 2
  | .invalidateBlock _ _ => 1

theorem MOESICache.Frame.Next.callsLeft_lt {f f' : MOESICache.Frame} (h : f.Next f') :
    f'.callsLeft < f.callsLeft := by
  cases h <;> simp [callsLeft]

theorem DistributedSystem.exists_raftStep {S : Services} {s : DistributedSystem S}
    {c : Cluster S.Frame} {ev : Event S.Frame} (hc : cfg.step s.cluster ev = some c)
    {entries : List LogEntry}
    (hnew : (c.proc i).raft.delivered = (s.cluster.proc i).raft.delivered ++ entries)
    {state : S.State}
    (hd : DistributedSystem.deliver now ev.raises ((s.cluster.proc i).raft.lastApplied + 1) entries
      (s.state i) = some state) : ∃ s', s.raftStep cfg i now ev = some s' := by
  simp only [raftStep, hc, Option.bind_some, hnew, List.drop_left, hd, Option.map_some]
  exact ⟨_, rfl⟩

theorem DistributedSystem.exists_append {S : Services} {s s₁ : DistributedSystem S}
    {frame : S.Frame} {raises : Raises} (hrun : s.running i = some frame)
    (hl : (s.cluster.proc i).raft.state = .leader)
    (hs : s.raftStep cfg i now
      (.appendEntry i (S.request frame).1 (S.request frame).2 frame raises) = some s₁) :
    ∃ s', s.step cfg (.append i now raises) = some s' := by
  simp only [DistributedSystem.step, hrun, Option.bind_some, hl, if_true, hs, Option.map_some]
  exact ⟨_, rfl⟩

/-- The running call of a lone leader can go on, and comes closer to its end. -/
theorem Serving.advances {max : ℤ} (h : Serving s i max now keys) (hnodes : cfg.nodes = [i])
    {f : MOESICache.Frame} (hrun : s.running i = some (.cache f)) (now' : ℚ) (hnow : now < now') :
    ∃ s', s.step cfg (.append i now' never) = some s' ∧
      ∀ f', s'.running i = some (.cache f') → f'.callsLeft < f.callsLeft := by
  obtain ⟨c, hc⟩ := h.lone.exists_append hnodes h.leader (MOESICache.request f).1
    (MOESICache.request f).2 (Frame.cache f) never
  obtain ⟨e, he⟩ : ∃ e, e = (s.cluster.proc i).raft.newEntry (MOESICache.request f).1
    (MOESICache.request f).2 := ⟨_, rfl⟩
  have hrequest : (e.command, e.data) = MOESICache.request f := by rw [he]; rfl
  have hquiet : (handleCommit (s.state i) now' e).2 = false :=
    (handleCommit_raises (s.state i) now' hrequest).trans ((h.running hrun).append hnow hrequest).1
  have hdelivers : DistributedSystem.deliver now' never
      ((s.cluster.proc i).raft.lastApplied + 1) [e] (s.state i) =
        some (handleCommit (s.state i) now' e).1 := if_pos hquiet
  obtain ⟨s₁, hs₁⟩ := exists_raftStep hc (h.lone.delivered_append hnodes hc) (he ▸ hdelivers)
  obtain ⟨s', hs⟩ : ∃ s', s.step cfg (.append i now' never) = some s' :=
    DistributedSystem.exists_append hrun h.leader hs₁
  refine ⟨s', hs, fun f' hf' => ?_⟩
  cases step_cases hs with
  | refused _ _ _ _ hf hl => exact absurd h.leader hl
  | appends _ _ _ _ s₁ hf hl hp => exact absurd h.lone.peers hp
  | commits _ _ _ g s₁ b hf =>
    obtain rfl := Option.some.inj (hrun.symm.trans hf)
    rw [react_running, Function.update_self] at hf'
    have hnext : ∀ (n : DistributedNode) (a : Appended),
        (n.resume now' (.cache f) a).2.frame? = some (.cache f') → f'.callsLeft < f.callsLeft := by
      intro n a hframe
      refine (n.cacheService.resume_next (a := a) now' ?_).callsLeft_lt
      revert hframe
      show ((n.cacheService.resume now' f a).2.map Frame.cache Result.cache).frame? = _ → _
      cases (n.cacheService.resume now' f a).2 with
      | append g =>
        intro hframe
        cases hframe
        rfl
      | sleep | done => exact fun hframe => by cases hframe
    exact hnext _ _ hf'

include h₀ h

theorem CacheRun.returns :
    ∃ now' s', CacheRun i s₀ requests now' s' ∧ s'.running i = none := by
  have key : ∀ n now s, CacheRun i s₀ requests now s →
      (∀ f, s.running i = some (.cache f) → f.callsLeft < n) →
      ∃ now' s', CacheRun i s₀ requests now' s' ∧ s'.running i = none := by
    intro n
    induction n with
    | zero =>
      intro now s h hleft
      obtain ⟨frame, hrun, -⟩ := (h.serving h₀).call
      cases frame with
      | none => exact ⟨now, s, h, hrun⟩
      | some f => exact absurd (hleft f hrun) (Nat.not_lt_zero _)
    | succ n ih =>
      intro now s h hleft
      obtain ⟨frame, hrun, -⟩ := (h.serving h₀).call
      cases frame with
      | none => exact ⟨now, s, h, hrun⟩
      | some f =>
        obtain ⟨s', hs, hlt⟩ :=
          (h.serving h₀).advances h₀.nodes hrun (now + 1) (lt_add_one now)
        have h' : CacheRun i s₀ (requests ++ []) (now + 1) s' :=
          .step _ h (lt_add_one now) (.append never) hs
        rw [List.append_nil] at h'
        exact ih _ s' h' fun f' hf' => (hlt f' hf').trans_le (Nat.le_of_lt_succ (hleft f hrun))
  exact key 5 now s h fun f _ => by cases f <;> simp [MOESICache.Frame.callsLeft]

omit h₀ h

/-! ## Concrete runs -/

/-- A list of steps that evaluates is a run. -/
theorem CacheRun.of_runList
    {steps : List (ℚ × SystemEvent (services md5 config cfg.peers) × List (Lru.Request String))}
    (h : CacheRun i s₀ requests now s) (hsteps : ∀ x ∈ steps, CacheEvent i x.1 x.2.1 x.2.2)
    (hclock : (now :: steps.map Prod.fst).IsChain (· < ·))
    (hrun : Runs.runList (DistributedSystem.step cfg) s (steps.map fun x => x.2.1) = some s') :
    ∃ now', CacheRun i s₀ (requests ++ steps.flatMap fun x => x.2.2) now' s' := by
  induction steps generalizing requests now s with
  | nil =>
    cases hrun
    exact ⟨now, by simpa using h⟩
  | cons x steps ih =>
    obtain ⟨t, ht, hrun⟩ := Option.bind_eq_some_iff.mp hrun
    rw [List.map_cons, List.isChain_cons_cons] at hclock
    rw [List.flatMap_cons, ← List.append_assoc]
    exact ih (.step _ h hclock.1 (hsteps x List.mem_cons_self) ht)
      (fun y hy => hsteps y (List.mem_cons_of_mem _ hy)) hclock.2 hrun

def oneNode : ClusterConfig := .ofNodes ["a"] (by decide)

abbrev twoBlocks : Services := services String.length { cacheMaxSize := 2 } oneNode.peers

/-- A `put` that begins at time `t` and calls `append_entry` so many times. -/
def putAt (t : ℚ) (key : String) (calls : ℕ) :
    List (ℚ × SystemEvent twoBlocks × List (Lru.Request String)) :=
  (t, .call "a" t (.cache (.put (.str key) (.int 1) (.int 0))), [.put key]) ::
    (List.range calls).map fun k => (t + k + 1, .append "a" (t + k + 1) never, [])

def threePuts : List (ℚ × SystemEvent twoBlocks × List (Lru.Request String)) :=
  putAt 1 "k" 3 ++ putAt 5 "l" 3 ++ [(9, .call "a" 9 (.cache (.get (.str "k"))), [.get "k"])] ++
    putAt 10 "m" 4

theorem cacheEvent_putAt (t : ℚ) {key : String} (hkey : key ≠ "") (calls : ℕ) :
    ∀ x ∈ putAt t key calls, CacheEvent "a" x.1 x.2.1 x.2.2 := by
  intro x hx
  rcases List.mem_cons.mp hx with rfl | hx
  · exact .put key _ _ hkey (by simp [Value.num?])
  · obtain ⟨k, -, rfl⟩ := List.mem_map.mp hx
    exact .append never

/-- The second key is evicted. -/
theorem evicts_least_recent_second : ∃ s : DistributedSystem twoBlocks, s.running "a" = none ∧
    ∀ v, v ∈ (cacheOf s "a").cache.map Prod.fst ↔ v ∈ [.str "m", .str "k"] := by
  obtain ⟨s₀, hr, ⟨hl, hidle, hempty, hmax⟩, hcalls⟩ := Runs.exists_of_runList (step oneNode)
    (DistributedSystem.init twoBlocks oneNode) [.raft 0 (.electionTimeout "a")]
    (fun s => ((s.cluster.proc "a").raft.state = .leader ∧ (s.running "a").isNone = true ∧
      (cacheOf s "a").cache.length = 0 ∧ (cacheOf s "a").maxSize = 2) ∧
      (Runs.runList (step oneNode) s (threePuts.map fun x => x.2.1)).any
        (fun s => (s.running "a").isNone) = true) (by decide +kernel)
  obtain ⟨s, hs, hret⟩ := (Option.any_eq_true _ _).mp hcalls
  have hfresh : FreshLeader s₀ "a" :=
    ⟨rfl, hr, hl, Option.isNone_iff_eq_none.mp hidle, List.eq_nil_of_length_eq_zero hempty,
      by rw [hmax]; decide⟩
  have hevents : ∀ x ∈ threePuts, CacheEvent "a" x.1 x.2.1 x.2.2 := by
    refine List.forall_mem_append.mpr ⟨List.forall_mem_append.mpr ⟨List.forall_mem_append.mpr
      ⟨cacheEvent_putAt 1 (by decide) 3, cacheEvent_putAt 5 (by decide) 3⟩,
      List.forall_mem_singleton.mpr (.get "k")⟩, cacheEvent_putAt 10 (by decide) 4⟩
  obtain ⟨now, h⟩ := (CacheRun.start 0).of_runList hevents (by decide +kernel) hs
  have hkeys := (evicts_least_recent hfresh h (Option.isNone_iff_eq_none.mp hret)).1
  rw [hmax] at hkeys
  exact ⟨s, Option.isNone_iff_eq_none.mp hret, hkeys⟩

end DistributedSync
