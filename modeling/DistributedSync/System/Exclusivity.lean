import DistributedSync.System.Acknowledgement
import DistributedSync.System.CacheRuns

/-!
# Exclusive blocks

MODIFIED and EXCLUSIVE mean that only this node has a valid copy. A block comes into a cache at the
end of a `put` or when a CACHE_PUT entry is applied, and neither of them looks at the other nodes.
As long as none of these holds the key, the states mean what they say (`moesiExclusive`).
-/

namespace DistributedSync

namespace MOESICache

variable (c : MOESICache) (now : ℚ)

/-! ## One cache -/

def stateOf (k : Value) : CacheState := ((c.cache.lookup k).map CacheBlock.state).getD .invalid

theorem stateOf_eq_invalid (k : Value) : c.stateOf k = .invalid ↔ c.live k = none := by
  unfold stateOf live
  rcases c.cache.lookup k with _ | b
  · exact iff_of_true rfl rfl
  · simp [CacheBlock.live?]

/-- The key of the block that a `put` stores when `append_entry` comes back. -/
def Frame.stores : Frame → Appended → Option Value
  | .replicate _ key _ _ _, .returned true => some key
  | _, _ => none

theorem live_assign_none {c c' : MOESICache} {key : Value} (h : c'.live = assign c.live key none)
    (k : Value) : c'.live k = c.live k ∨ c'.live k = none := by
  rw [h, assign]
  split
  · exact Or.inr rfl
  · exact Or.inl rfl

theorem start_live (op : Op) (k : Value) :
    (c.start now op).1.live k = c.live k ∨ (c.start now op).1.live k = none := by
  cases op with
  | get key =>
    rcases c.get_cases now key with ⟨hc, -⟩ | ⟨b, -, -, hc, -⟩ | ⟨b, -, -, -, hc, -⟩
    · exact Or.inl (congrFun (live_of_cache hc) k)
    · exact live_assign_none (live_delItem c hc) k
    · exact live_assign_none (live_setItem c (b := { b with state := .invalid }) hc) k
  | put key value ttl =>
    rw [start, put_fst]
    exact Or.inl rfl
  | handleInvalidation key fromNode =>
    rcases c.handleInvalidation_cases key fromNode with hc | ⟨-, hc⟩
    · rw [start, hc]
      exact Or.inl rfl
    · exact live_assign_none (live_delItem c hc) k

theorem resume_live (frame : Frame) (a : Appended) (k : Value) :
    (c.resume now frame a).1.live k = c.live k ∨ (c.resume now frame a).1.live k = none ∨
      ∃ key ∈ frame.stores a, (k == key) = true := by
  rcases a with ⟨_ | _⟩ | _
  · cases frame <;> exact Or.inl rfl
  · cases frame with
    | acquireExclusive | broadcastInvalidation => exact Or.inl rfl
    | replicate nodeId key value ttl block =>
      by_cases hk : (k == key) = true
      · exact Or.inr (Or.inr ⟨key, rfl, hk⟩)
      obtain ⟨c', hc, -, ⟨heq, -⟩ | ⟨victim, b, -, -, -, heq⟩⟩ := c.store_cases now key value block
      all_goals
        have hlive : c'.live k = c.live k := by rw [live_setItem c hc, assign_ne _ hk]
        have hfst := congrArg Prod.fst heq
        change (c.resume now (.replicate nodeId key value ttl block) (.returned true)).1 = _ at hfst
        rw [hfst, ← hlive]
      · exact Or.inl rfl
      · refine
          (live_assign_none (live_setItem c' (b := { b with state := .invalid }) rfl) k).imp_right
          Or.inl
    | invalidateBlock key caller =>
      exact (live_assign_none (c.resume_invalidateBlock now key caller).1 k).imp_right Or.inl
  · cases frame <;> exact Or.inl rfl

theorem commit_live (e : LogEntry) (k : Value) :
    (c.handleCommit now e).1.live k = c.live k ∨ (c.handleCommit now e).1.live k = none ∨
      ∃ key b, e.cacheWrite now = some (key, some b) ∧ (k == key) = true := by
  rw [handleCommit_live]
  split
  · exact Or.inl rfl
  · rw [LogEntry.applyTo, LogEntry.cacheEffect_eq now]
    rcases hw : e.cacheWrite now with _ | ⟨key, _ | b⟩
    · exact Or.inl rfl
    all_goals
      by_cases hk : (k == key) = true
    · exact Or.inr (Or.inl (assign_self _ hk _))
    · exact Or.inl (assign_ne _ hk _)
    · exact Or.inr (Or.inr ⟨key, b, rfl, hk⟩)
    · exact Or.inl (assign_ne _ hk _)

end MOESICache

/-! ## The cluster -/

open DistributedSystem DistributedNode

variable {md5 : String → ℕ} {config : SystemConfig} {peers : String → List String}

/-- The key of the block that the act stores in the cache of the node. -/
def NodeView.stores (v : NodeView (services md5 config peers)) :
    Act (services md5 config peers) → Option Value
  | .commit now e => (e.cacheWrite now).bind fun w => w.2.map fun _ => w.1
  | .resume _ k a => (v.frameAt k).bind fun frame => frame.stores a
  | _ => none

/-- An act of the node stores one block at most in its cache. -/
theorem NodeView.live_act (v : NodeView (services md5 config peers))
    (a : Act (services md5 config peers)) (k : Value) :
    (v.act a).cache.live k = v.cache.live k ∨ (v.act a).cache.live k = none ∨
      ∃ key ∈ v.stores a, (k == key) = true := by
  cases v.cacheStep a with
  | call now op hc =>
    rw [hc]
    exact (v.cache.start_live now op k).imp_right Or.inl
  | commit now e hc =>
    rw [hc]
    refine (v.cache.commit_live now e k).imp_right (Or.imp_right ?_)
    rintro ⟨key, b, hw, hk⟩
    exact ⟨key, by simp [stores, hw], hk⟩
  | resume now j a frame hj hc =>
    rw [hc]
    refine (v.cache.resume_live now frame a k).imp_right (Or.imp_right ?_)
    rintro ⟨key, hw, hk⟩
    exact ⟨key, by simpa [stores, hj] using hw, hk⟩
  | other a hc =>
    rw [hc]
    exact Or.inl rfl

/-- When node `i` stores a block, no other node holds one that is not INVALID for its key. -/
def StoresAlone (nodes : List String) (f : String → NodeView (services md5 config peers))
    (i : String) (a : Act (services md5 config peers)) : Prop :=
  ∀ key ∈ (f i).stores a, ∀ j ∈ nodes, j ≠ i → (f j).cache.stateOf key = .invalid

instance (nodes : List String) (f : String → NodeView (services md5 config peers)) (i : String)
    (a : Act (services md5 config peers)) : Decidable (StoresAlone nodes f i a) := by
  unfold StoresAlone
  infer_instance

/-- What the states of the blocks for a key mean: where one is MODIFIED or EXCLUSIVE, all others are
INVALID, and only one is MODIFIED, EXCLUSIVE or OWNED. -/
def MOESIExclusive (nodes : List String) (state : String → CacheState) : Prop :=
  ∀ i ∈ nodes, ∀ j ∈ nodes, i ≠ j →
    (state i ∈ [CacheState.modified, .exclusive] → state j = .invalid) ∧
      (state i ∈ [CacheState.modified, .exclusive, .owned] →
        state j ∉ [CacheState.modified, .exclusive, .owned])

def cacheOf {cfg : ClusterConfig} (s : DistributedSystem (services md5 config cfg.peers))
    (i : String) : MOESICache := DistributedNode.cacheService (s.state i)

variable {cfg : ClusterConfig}

/-- One of any two nodes has no valid block for the key. -/
def Single (nodes : List String) (f : String → NodeView (services md5 config peers)) : Prop :=
  ∀ k, ∀ i ∈ nodes, ∀ j ∈ nodes, i ≠ j → (f i).cache.live k = none ∨ (f j).cache.live k = none

theorem Single.act {nodes : List String} {f : String → NodeView (services md5 config peers)}
    {i : String} {a : Act (services md5 config peers)} (h : Single nodes f)
    (ha : StoresAlone nodes f i a) : Single nodes (Function.update f i ((f i).act a)) := by
  -- the node that acts, and one other
  have key : ∀ k, i ∈ nodes → ∀ j ∈ nodes, i ≠ j →
      ((f i).act a).cache.live k = none ∨ (f j).cache.live k = none := by
    intro k hi j hj hij
    rcases (f i).live_act a k with heq | hnone | ⟨key, hkey, hk⟩
    · rw [heq]
      exact h k i hi j hj hij
    · exact Or.inl hnone
    · refine Or.inr ?_
      rw [MOESICache.live_congr _ hk]
      exact (MOESICache.stateOf_eq_invalid _ key).mp (ha key hkey j hj (Ne.symm hij))
  intro k p hp q hq hpq
  by_cases hpi : p = i
  · subst hpi
    rw [Function.update_self, Function.update_of_ne (Ne.symm hpq)]
    exact key k hp q hq hpq
  · rw [Function.update_of_ne hpi]
    by_cases hqi : q = i
    · subst hqi
      rw [Function.update_self]
      exact (key k hq p hp (Ne.symm hpq)).symm
    · rw [Function.update_of_ne hqi]
      exact h k p hp q hq hpq

/-- Where blocks are stored alone, the states of the blocks mean what they say. -/
theorem moesiExclusive {s : DistributedSystem (services md5 config cfg.peers)}
    (hr : Reach cfg (Locally cfg (StoresAlone cfg.nodes)) s) (k : Value) :
    MOESIExclusive cfg.nodes fun i => (cacheOf s i).stateOf k := by
  have hsingle : Single cfg.nodes s.view :=
    hr.views (fun _ _ _ _ _ _ => Or.inl rfl) fun f i a => Single.act
  intro i hi j hj hij
  have hone : (cacheOf s i).stateOf k = .invalid ∨ (cacheOf s j).stateOf k = .invalid := by
    rw [MOESICache.stateOf_eq_invalid, MOESICache.stateOf_eq_invalid]
    exact hsingle k i hi j hj hij
  rcases hone with h | h
  · simp [h]
  · simp [h]

/-! ## Concrete runs -/

section Runs

variable {config : SystemConfig}

def raftSteps (es : List (Event DistributedNode.Frame)) :
    List (SystemEvent (services String.length config threeNodes.peers)) := es.map (.raft 0)

def putOnA (key value : String) : SystemEvent (services String.length config threeNodes.peers) :=
  .call "a" 0 (.cache (.put (.str key) (.str value) (.int 0)))

/-- The running coroutine of leader `a` appends an entry that no peer gets, and goes on. -/
def unheard : List (SystemEvent (services String.length config threeNodes.peers)) :=
  .append "a" 0 never :: raftSteps
    (pushInVain "a" (.append 0) 0 ++ pushInVain "a" (.append 0) 1 ++ [.returnAppend "a" 0])

/-- It appends an entry that `b` stores by the RPC `r`, so that `a` commits it, and goes on. -/
def heard (r : ℕ) : List (SystemEvent (services String.length config threeNodes.peers)) :=
  .append "a" 0 never :: raftSteps
    (push "a" (.append 0) 0 r ++ pushInVain "a" (.append 0) 1 ++ [.returnAppend "a" 0])

/-- A `put` on the new leader `a`, with all its entries committed. -/
def putK : List (SystemEvent (services String.length config threeNodes.peers)) :=
  raftSteps electA ++ [putOnA "k" "v"] ++ unheard ++ unheard ++ heard 6

end Runs

/-- The leader has the only block. -/
theorem moesiExclusive_put : ∃ s : DistributedSystem threeServices,
    (cacheOf s "a").stateOf (.str "k") = .exclusive ∧
      MOESIExclusive threeNodes.nodes fun i => (cacheOf s i).stateOf (.str "k") := by
  obtain ⟨s, hr, hk⟩ := Runs.exists_of_checked (step threeNodes)
    (Locally threeNodes (StoresAlone threeNodes.nodes))
    (DistributedSystem.init threeServices threeNodes) putK
    (fun s => (cacheOf s "a").stateOf (.str "k") = .exclusive) (by decide +kernel)
  exact ⟨s, hk, moesiExclusive hr (.str "k")⟩

/-- The next heartbeat lets `b` apply the entry. -/
theorem moesiExclusive_fails : ¬ ∀ (cfg : ClusterConfig)
    (s : DistributedSystem (services String.length {} cfg.peers)), Reach cfg Runs.Any s →
    ∀ k, MOESIExclusive cfg.nodes fun i => (cacheOf s i).stateOf k := by
  intro h
  obtain ⟨s, hr, ha, hb⟩ := Runs.exists_of_runList (step threeNodes)
    (DistributedSystem.init threeServices threeNodes)
    (putK ++ raftSteps (.heartbeat "a" :: push "a" .heartbeat 0 8))
    (fun s => (cacheOf s "a").stateOf (.str "k") = .exclusive ∧
      (cacheOf s "b").stateOf (.str "k") = .exclusive) (by decide +kernel)
  have := ((h threeNodes s hr (.str "k")) "a" (by decide) "b" (by decide) (by decide)).1
  dsimp only at this
  rw [ha, hb] at this
  exact absurd (this (by decide)) (by decide)

end DistributedSync
