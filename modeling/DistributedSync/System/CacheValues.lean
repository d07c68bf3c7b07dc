import DistributedSync.System.ReadBack
import DistributedSync.System.SingleNode

/-!
# Values of a cache on a cluster of one node

The calls of `CacheRun` with the values they put (`ValueRun`). While no `put` of a key runs, the
block of this key holds the value of its last `put` (`Holds`), although CACHE_PUT has stored what
the log makes of it in between. With the keys of `Serving`, a cache of one node reads like a
dictionary that forgets its least recently used key (`get_lastPut`).
-/

namespace DistributedSync

open DistributedNode DistributedSystem

/-! ## Calls -/

inductive CacheCall where
  | get (key : String)
  | put (key : String) (value : Value)

namespace CacheCall

/-- What the call asks of the keys. -/
def request : CacheCall → Lru.Request String
  | .get key => .get key
  | .put key _ => .put key

/-- The value of the call's `put` of the key, if it is one. -/
def writes (key : String) : CacheCall → Option Value
  | .put k value => if k = key then some value else none
  | .get _ => none

end CacheCall

/-- The value of the last `put` of a key. -/
def lastPut (calls : List CacheCall) (key : String) : Option Value :=
  (calls.filterMap (CacheCall.writes key)).getLast?

/-- The step begins these calls, as in `CacheEvent`. -/
inductive ValueEvent {md5 : String → ℕ} {config : SystemConfig} {cfg : ClusterConfig} (i : String)
    (now : ℚ) : SystemEvent (services md5 config cfg.peers) → List CacheCall → Prop
  | get (key : String) : ValueEvent i now (.call i now (.cache (.get (.str key)))) [.get key]
  | put (key : String) (value ttl : Value) (hkey : key ≠ "") (ht : ttl.num? = some 0) :
    ValueEvent i now (.call i now (.cache (.put (.str key) value ttl))) [.put key value]
  | append (raises : Raises) : ValueEvent i now (.append i now raises) []
  | raft (ev : Event DistributedNode.Frame) : ValueEvent i now (.raft now ev) []

/-- The runs from `s₀` by such steps, each at a later time than the one before. -/
inductive ValueRun {md5 : String → ℕ} {config : SystemConfig} {cfg : ClusterConfig} (i : String)
    (s₀ : DistributedSystem (services md5 config cfg.peers)) :
    List CacheCall → ℚ → DistributedSystem (services md5 config cfg.peers) → Prop
  | start (now : ℚ) : ValueRun i s₀ [] now s₀
  | step {calls new : List CacheCall} {now now' : ℚ}
    {s s' : DistributedSystem (services md5 config cfg.peers)}
    (ev : SystemEvent (services md5 config cfg.peers)) (h : ValueRun i s₀ calls now s)
    (hnow : now < now') (hev : ValueEvent i now' ev new) (hs : s.step cfg ev = some s') :
    ValueRun i s₀ (calls ++ new) now' s'

variable {md5 : String → ℕ} {config : SystemConfig} {cfg : ClusterConfig} {i : String}
  {s₀ s s' : DistributedSystem (services md5 config cfg.peers)} {calls new : List CacheCall}
  {now now' : ℚ}

theorem ValueEvent.cacheEvent {ev : SystemEvent (services md5 config cfg.peers)}
    (h : ValueEvent i now ev new) : CacheEvent i now ev (new.map CacheCall.request) := by
  cases h with
  | get key => exact .get key
  | put key value ttl hkey ht => exact .put key value ttl hkey ht
  | append raises => exact .append raises
  | raft ev => exact .raft ev

theorem ValueEvent.eq_singleton {ev : SystemEvent (services md5 config cfg.peers)}
    (h : ValueEvent i now ev new) {call : CacheCall} (hcall : call ∈ new) : new = [call] := by
  cases h <;> simp_all

theorem lastPut_concat (calls : List CacheCall) (call : CacheCall) (key : String) :
    lastPut (calls ++ [call]) key = (call.writes key).or (lastPut calls key) := by
  rw [lastPut, List.filterMap_append, List.getLast?_append]
  cases hw : call.writes key <;> simp [hw, lastPut]

theorem lastPut_append_of_none {key : String} (h : ∀ call ∈ new, call.writes key = none) :
    lastPut (calls ++ new) key = lastPut calls key := by
  rw [lastPut, List.filterMap_append, List.filterMap_eq_nil_iff.mpr h, List.append_nil, lastPut]

theorem ValueRun.cacheRun (h : ValueRun i s₀ calls now s) :
    CacheRun i s₀ (calls.map CacheCall.request) now s := by
  induction h with
  | start now => exact .start now
  | step ev _ hnow hev hs ih =>
    rw [List.map_append]
    exact ih.step ev hnow hev.cacheEvent hs

/-! ## The block of a key -/

namespace MOESICache

variable {c : MOESICache} {key v : Value} {frame : Frame}

/-- The call is a `put` of the key. -/
def Frame.puts (key : Value) : Frame → Bool
  | .acquireExclusive _ k _ _ | .broadcastInvalidation _ k _ _ | .replicate _ k _ _ _ => k == key
  | .invalidateBlock _ _ => false

/-- The running call puts no other value under the key, and if it is no `put` of the key the block
of the key holds the value. -/
structure Holds (key v : Value) (c : MOESICache) (frame : Option Frame) : Prop where
  puts : ∀ f ∈ frame, f.PutsAs key v
  block : (∀ f ∈ frame, f.puts key = false) → HoldsAs key v c.cache

theorem Holds.start {op : Op} (h : Holds key v c none)
    (hop : ∀ k value ttl, op = .put k value ttl → (k == key) = true → value = v) :
    Holds key v (c.start now op).1 (c.start now op).2.frame? :=
  ⟨start_putsAs hop, fun _ => keeps_holdsAs.start (h.block fun f hf => by cases hf) op⟩

theorem Holds.put {key value ttl : Value} (hkey : key.hashable = true) :
    Holds key value (c.start now (.put key value ttl)).1
      (c.start now (.put key value ttl)).2.frame? := by
  refine ⟨start_putsAs fun k value' ttl' heq _ => by cases heq; rfl, fun hno => ?_⟩
  -- the frame is one of a `put` of the key
  obtain ⟨f, hf⟩ : ∃ f, (c.put key value ttl now).2 = .append f := by
    unfold MOESICache.put
    rw [if_pos hkey]
    dsimp only
    split <;> exact ⟨_, rfl⟩
  have hframe : f ∈ (c.start now (.put key value ttl)).2.frame? := by
    show f ∈ (c.put key value ttl now).2.frame?
    rw [hf]
    rfl
  have hputs : f.puts key = true := by
    cases start_opens c now hframe with
    | acquire => exact BEq.rfl
    | replicate => exact BEq.rfl
  rw [hno f hframe] at hputs
  cases hputs

theorem holdsAs_setItem {d : List (Value × CacheBlock)} {k : Value} {b : CacheBlock}
    (hk : (k == key) = true) (hb : b.value = v) : HoldsAs key v (setItem d k b) := by
  intro k' b' hb' hk'
  rw [lookup_setItem, if_pos (BEq.trans hk' (BEq.symm hk))] at hb'
  rw [← Option.some.inj hb', hb]

/-- An entry about another key leaves the block alone. -/
theorem holdsAs_commit {e : LogEntry} (hc : HoldsAs key v c.cache) (hf : frame.puts key = false)
    (he : (e.command, e.data) = request frame) (now : ℚ) :
    HoldsAs key v (c.handleCommit now e).1.cache := by
  refine keeps_holdsAs.commit hc fun k b hw => ?_
  obtain ⟨nodeId, k', value, ttl, block, rfl, -, -⟩ := put_of_request he hw
  rw [cacheWrite_of_replicate he, Option.ite_none_right_eq_some] at hw
  cases hw.2
  exact hc.setItem fun hk => absurd (hk.symm.trans hf) (by decide)

/-- A call appends its entry, which is applied at once, and goes on. -/
theorem Holds.append {e : LogEntry} (h : Holds key v c (some frame))
    (he : (e.command, e.data) = request frame) :
    Holds key v ((c.handleCommit now e).1.resume now frame (.returned true)).1
      ((c.handleCommit now e).1.resume now frame (.returned true)).2.frame? := by
  have hp := h.puts frame rfl
  refine ⟨hp.resume _, fun hno => ?_⟩
  rcases hputs : frame.puts key with _ | _
  · -- the entry and the store are about another key
    have hc := holdsAs_commit (h.block fun f hf => by cases hf; exact hputs) hputs he now
    refine keeps_holdsAs.resume hc ?_
    rintro nodeId k value ttl block rfl -
    exact hc.setItem fun hk => absurd (hk.symm.trans hputs) (by decide)
  · cases frame with
    | acquireExclusive nodeId k value ttl =>
      have hnext : (k == key) = false := hno (.broadcastInvalidation nodeId k value ttl) rfl
      exact absurd (hputs.symm.trans hnext) (by decide)
    | broadcastInvalidation nodeId k value ttl =>
      have hnext : (k == key) = false := hno (.replicate nodeId k value ttl _) rfl
      exact absurd (hputs.symm.trans hnext) (by decide)
    | replicate nodeId k value ttl block =>
      obtain ⟨_, _, ⟨⟨rfl, rfl⟩, hvalue, -⟩, hv⟩ := hp
      obtain ⟨c', hc', -, hend⟩ := (c.handleCommit now e).1.store_cases now k value block
      have hc : HoldsAs key v c'.cache := by
        rw [hc']
        exact holdsAs_setItem hputs (hvalue.trans (hv hputs))
      show HoldsAs key v ((c.handleCommit now e).1.store k value block now).1.cache
      rcases hend with ⟨heq, -⟩ | ⟨victim, b, -, hb, -, heq⟩ <;> rw [heq]
      · exact hc
      · exact keeps_holdsAs.mark hc hb
    | invalidateBlock => cases hputs

end MOESICache

/-! ## Along a run -/

variable {key : String} {v : Value} {max : ℤ} {keys : List String}

/-- The cache of the node and its running call hold the value. -/
def HoldsValue (s : DistributedSystem (services md5 config cfg.peers)) (i key : String)
    (v : Value) : Prop :=
  ∀ frame : Option MOESICache.Frame, s.running i = frame.map Frame.cache →
    MOESICache.Holds (.str key) v (cacheOf s i) frame

/-- The node goes on with the outcome of a call of its cache. -/
theorem HoldsValue.react {n : DistributedNode}
    {o : Outcome MOESICache.Frame MOESICache.Result}
    (h : MOESICache.Holds (.str key) v n.cacheService o.frame?) :
    HoldsValue (s.react i (n, o.map .cache .cache)) i key v := by
  intro frame hrun
  have hframe : (o.map Frame.cache Result.cache).frame? = o.frame?.map Frame.cache := by
    cases o <;> rfl
  rw [react_running, Function.update_self] at hrun
  obtain rfl : o.frame? = frame :=
    Option.map_injective (fun _ _ heq => by cases heq; rfl) (hframe.symm.trans hrun)
  have hstate : (s.react i (n, o.map .cache .cache)).state i = n := by
    rw [react_state, Function.update_self]
  rwa [cacheOf, hstate]

theorem HoldsValue.start (h : HoldsValue s i key v) {op : MOESICache.Op}
    (hop : ∀ k value ttl, op = .put k value ttl → (k == .str key) = true → value = v)
    (hs : s.step cfg (.call i now (.cache op)) = some s') : HoldsValue s' i key v := by
  cases step_cases hs with
  | call _ _ _ r hi hr =>
    cases hr
    exact react ((h none hi).start hop)

theorem HoldsValue.put {ttl : Value}
    (hs : s.step cfg (.call i now (.cache (.put (.str key) v ttl))) = some s') :
    HoldsValue s' i key v := by
  cases step_cases hs with
  | call _ _ _ r hi hr =>
    cases hr
    exact react (MOESICache.Holds.put rfl)

theorem HoldsValue.step (h : (∀ call ∈ new, call.writes key = none) → HoldsValue s i key v)
    (hserving : Serving s i max now keys) (hnodes : cfg.nodes = [i]) (hnow : now < now')
    {ev : SystemEvent (services md5 config cfg.peers)} (hev : ValueEvent i now' ev new)
    (hnew : ∀ call ∈ new, ∀ v' ∈ call.writes key, v' = v) (hs : s.step cfg ev = some s') :
    HoldsValue s' i key v := by
  cases hev with
  | get k => exact (h (by simp [CacheCall.writes])).start (fun _ _ _ heq => by cases heq) hs
  | put k value ttl hkey ht =>
    by_cases hk : k = key
    · obtain rfl : value = v := hnew _ List.mem_cons_self value (by simp [CacheCall.writes, hk])
      exact .put (hk ▸ hs)
    · refine (h (by simp [CacheCall.writes, hk])).start (fun k' _ _ heq hk' => ?_) hs
      cases heq
      exact absurd (Value.str_beq_str.mp hk') hk
  | append raises =>
    obtain ⟨f, e, t, n, hrun, hrequest, hcache, -, -, rfl⟩ := hserving.commits hnodes hnow hs
    have hf := (h (List.forall_mem_nil _)) (some f) hrun
    refine react ?_
    rw [hcache]
    exact hf.append hrequest
  | raft e =>
    have h := h (List.forall_mem_nil _)
    cases step_cases hs with
    | returns j _ k call s₁ hj hc hs₁ =>
      obtain rfl := node_alone hnodes hserving.lone rfl hs₁
      simp [hserving.lone.appendCalls] at hc
    | raft j _ _ _ hr hj he hret hs₁ =>
      intro frame hrun
      have hstate := state_other hnodes hserving.lone he hr hs₁
      obtain ⟨c, state, -, -, rfl⟩ := raftStep_some hs₁
      rw [cacheOf, hstate]
      exact h frame hrun

theorem ValueRun.holdsValue (h₀ : FreshLeader s₀ i) (h : ValueRun i s₀ calls now s)
    (hv : ∀ v' ∈ lastPut calls key, v' = v) : HoldsValue s i key v := by
  induction h generalizing v with
  | start now =>
    intro frame hrun
    rw [h₀.idle] at hrun
    obtain rfl := Option.map_eq_none_iff.mp hrun.symm
    refine ⟨fun f hf => (by cases hf), fun _ => ?_⟩
    rw [h₀.empty]
    exact fun k b hb => by cases hb
  | @step calls new now now' s s' ev h hnow hev hs ih =>
    refine HoldsValue.step (fun hnone => ih fun v' hv' => hv v' ?_) (h.cacheRun.serving h₀) h₀.nodes
      hnow hev (fun call hcall v' hw => hv v' ?_) hs
    · rwa [lastPut_append_of_none hnone]
    · obtain rfl := hev.eq_singleton hcall
      rw [lastPut_concat, hw]
      rfl

/-- On a cluster of one node with a clock that goes on: after each call, `get` finds the keys that a
cache of the same capacity keeps by their last use, each with the value of its last `put`. -/
theorem get_lastPut (h₀ : FreshLeader s₀ i) (h : ValueRun i s₀ calls now s)
    (hret : s.running i = none) (key : String) (now' : ℚ) :
    ((cacheOf s i).get (.str key) now').2 = .done (.get (.str key)
      (if key ∈ Lru.run (cacheOf s₀ i).maxSize.toNat (calls.map CacheCall.request) then
        (lastPut calls key).getD .null else .null)) := by
  obtain ⟨frame, hrun, hcall⟩ := (h.cacheRun.serving h₀).call
  obtain rfl := Option.map_eq_none_iff.mp (hrun.symm.trans hret)
  obtain ⟨htracks, -⟩ := hcall
  rcases hb : (cacheOf s i).cache.lookup (.str key) with _ | b
  · have hkey : key ∉ Lru.run (cacheOf s₀ i).maxSize.toNat (calls.map CacheCall.request) := by
      intro hmem
      have := htracks.hasKeys.isSome_lookup.mpr hmem
      rw [hb] at this
      cases this
    rw [if_neg hkey]
    simp [MOESICache.get, Value.hashable, hb]
  · have hkey : key ∈ Lru.run (cacheOf s₀ i).maxSize.toNat (calls.map CacheCall.request) :=
      htracks.hasKeys.isSome_lookup.mp (by rw [hb]; rfl)
    have hvalue : ∀ v, (∀ v' ∈ lastPut calls key, v' = v) → b.value = v := fun v hv =>
      (h.holdsValue h₀ hv none hret).block (fun f hf => by cases hf) _ b hb BEq.rfl
    obtain ⟨p, hp, -, rfl⟩ := mem_of_lookup hb
    obtain ⟨hs, ht⟩ := htracks.blocks p hp
    rw [if_pos hkey,
      MOESICache.get_of_lookup rfl hb (by simp [hs]) ht fun hlt => (lt_irrefl _ hlt).elim]
    rcases hlast : lastPut calls key with _ | v
    · -- without a `put` of the key, its block would hold every value
      rw [hlast] at hvalue
      have h0 := hvalue (.int 0) fun v' hv' => by cases hv'
      have h1 := hvalue (.int 1) fun v' hv' => by cases hv'
      cases h0.symm.trans h1
    · rw [hvalue v fun v' hv' => by rw [hlast] at hv'; exact (Option.some.inj hv').symm]
      rfl

/-! ## A concrete run -/

/-- A list of steps that evaluates is a run. -/
theorem ValueRun.of_runList
    {steps : List (ℚ × SystemEvent (services md5 config cfg.peers) × List CacheCall)}
    (h : ValueRun i s₀ calls now s) (hsteps : ∀ x ∈ steps, ValueEvent i x.1 x.2.1 x.2.2)
    (hclock : (now :: steps.map Prod.fst).IsChain (· < ·))
    (hrun : Runs.runList (DistributedSystem.step cfg) s (steps.map fun x => x.2.1) = some s') :
    ∃ now', ValueRun i s₀ (calls ++ steps.flatMap fun x => x.2.2) now' s' := by
  induction steps generalizing calls now s with
  | nil =>
    cases hrun
    exact ⟨now, by simpa using h⟩
  | cons x steps ih =>
    obtain ⟨t, ht, hrun⟩ := Option.bind_eq_some_iff.mp hrun
    rw [List.map_cons, List.isChain_cons_cons] at hclock
    rw [List.flatMap_cons, ← List.append_assoc]
    exact ih (.step _ h hclock.1 (hsteps x List.mem_cons_self) ht)
      (fun y hy => hsteps y (List.mem_cons_of_mem _ hy)) hclock.2 hrun

def storeAt (t : ℚ) (key : String) (value : Value) :
    List (ℚ × SystemEvent twoBlocks × List CacheCall) :=
  (t, .call "a" t (.cache (.put (.str key) value (.int 0))), [.put key value]) ::
    (List.range 3).map fun k => (t + k + 1, .append "a" (t + k + 1) never, [])

theorem valueEvent_storeAt (t : ℚ) {key : String} (hkey : key ≠ "") (value : Value) :
    ∀ x ∈ storeAt t key value, ValueEvent "a" x.1 x.2.1 x.2.2 := by
  intro x hx
  rcases List.mem_cons.mp hx with rfl | hx
  · exact .put key _ _ hkey (by simp [Value.num?])
  · obtain ⟨k, -, rfl⟩ := List.mem_map.mp hx
    exact .append never

/-- Of two `put` calls of a key, the second one is read. -/
theorem get_lastPut_again : ∃ s : DistributedSystem twoBlocks,
    ((cacheOf s "a").get (.str "k") 20).2 = .done (.get (.str "k") (.int 2)) ∧
      ((cacheOf s "a").get (.str "l") 20).2 = .done (.get (.str "l") (.str "x")) := by
  obtain ⟨s₀, hr, ⟨hl, hidle, hempty, hmax⟩, hcalls⟩ := Runs.exists_of_runList (step oneNode)
    (DistributedSystem.init twoBlocks oneNode) [.raft 0 (.electionTimeout "a")]
    (fun s => ((s.cluster.proc "a").raft.state = .leader ∧ (s.running "a").isNone = true ∧
      (cacheOf s "a").cache.length = 0 ∧ (cacheOf s "a").maxSize = 2) ∧
      (Runs.runList (step oneNode) s ((storeAt 1 "k" (.int 1) ++ storeAt 5 "l" (.str "x") ++
        storeAt 9 "k" (.int 2)).map fun x => x.2.1)).any
        (fun s => (s.running "a").isNone) = true) (by decide +kernel)
  obtain ⟨s, hs, hret⟩ := (Option.any_eq_true _ _).mp hcalls
  have hfresh : FreshLeader s₀ "a" :=
    ⟨rfl, hr, hl, Option.isNone_iff_eq_none.mp hidle, List.eq_nil_of_length_eq_zero hempty,
      by rw [hmax]; decide⟩
  have hevents : ∀ x ∈ storeAt 1 "k" (.int 1) ++ storeAt 5 "l" (.str "x") ++ storeAt 9 "k" (.int 2),
      ValueEvent "a" x.1 x.2.1 x.2.2 :=
    List.forall_mem_append.mpr ⟨List.forall_mem_append.mpr ⟨valueEvent_storeAt 1 (by decide) _,
      valueEvent_storeAt 5 (by decide) _⟩, valueEvent_storeAt 9 (by decide) _⟩
  obtain ⟨now, h⟩ := (ValueRun.start 0).of_runList hevents (by decide +kernel) hs
  have hget := get_lastPut hfresh h (Option.isNone_iff_eq_none.mp hret)
  refine ⟨s, (hget "k" 20).trans ?_, (hget "l" 20).trans ?_⟩ <;> rw [hmax] <;> rfl

end DistributedSync
