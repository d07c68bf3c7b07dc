import DistributedSync.System.Carries
import DistributedSync.System.Exclusivity

/-!
# The invalidation endpoint

`_handle_cache_invalidate` of `src/src/app.py` passes the id of its own node to
`handle_invalidation`, which keeps EXCLUSIVE and MODIFIED blocks on such a request. A `put` makes no
other blocks. So in every reachable state the endpoint does what it says exactly if there is no
valid block to invalidate (`invalidated_iff`).
-/

namespace DistributedSync

/-- `_handle_cache_invalidate`: the node after it, and the body of the answer. -/
def DistributedNode.handleCacheInvalidate (n : DistributedNode) (key : String) :
    DistributedNode × Dict :=
  ({ n with cacheService :=
      (n.cacheService.handleInvalidation (.str key) n.cacheService.nodeId).1 },
    [("key", .str key), ("status", .str "invalidated")])

/-! ## States of blocks -/

/-- A state that `put` gives to its block. -/
def CacheState.Sole (s : CacheState) : Prop := s = .exclusive ∨ s = .modified

def LogEntry.Sole (e : LogEntry) : Prop :=
  ∀ (now : ℚ) (key : Value) (b : CacheBlock), e.cacheWrite now = some (key, some b) → b.state.Sole

namespace MOESICache

variable {c : MOESICache} {now : ℚ} {key : Value} {frame : Frame}

/-- Every block of the dictionary is one of a `put`, or is INVALID. -/
def SoleBlocks (d : List (Value × CacheBlock)) : Prop :=
  ∀ k b, d.lookup k = some b → b.state.Sole ∨ b.state = .invalid

theorem SoleBlocks.setItem {d : List (Value × CacheBlock)} {b : CacheBlock} (h : SoleBlocks d)
    (hb : b.state.Sole ∨ b.state = .invalid) : SoleBlocks (DistributedSync.setItem d key b) :=
  forall_setItem h fun _ _ => hb

theorem keeps_soleBlocks : Keeps SoleBlocks := keeps_forall fun _ _ _ => Or.inr rfl

def Frame.Sole : Frame → Prop
  | .replicate _ _ _ _ block => block.state.Sole
  | _ => True

theorem start_sole (op : Op) : ∀ f ∈ (c.start now op).2.frame?, f.Sole := by
  intro f hf
  cases op with
  | put key value ttl =>
    change f ∈ (c.put key value ttl now).2.frame? at hf
    unfold put at hf
    split at hf
    · dsimp only at hf
      split at hf
      · cases hf
        exact Or.inr rfl
      · cases hf
        trivial
    · cases hf
  | get key =>
    cases start_opens c now hf
    trivial
  | handleInvalidation key fromNode => cases start_opens c now hf

theorem resume_sole (frame : Frame) (a : Appended) : ∀ f ∈ (c.resume now frame a).2.frame?,
    f.Sole := by
  intro f hf
  cases resume_next c now hf with
  | broadcast | evict => trivial
  | replicate nodeId key value ttl block hb =>
    rcases a with ⟨success⟩ | _
    · cases hf
      exact Or.inl rfl
    · cases hf

end MOESICache

theorem LogEntry.sole_of_request {e : LogEntry} {frame : MOESICache.Frame} (h : frame.Sole)
    (he : (e.command, e.data) = MOESICache.request frame) : e.Sole := by
  intro now key b hw
  obtain ⟨nodeId, key', value, ttl, block, rfl, -, -⟩ := MOESICache.put_of_request he hw
  obtain ⟨hc, hd⟩ := Prod.mk.inj he
  simp [LogEntry.cacheWrite, hc, hd, MOESICache.blockOf, lookup_cons,
    MOESICache.ofName?_upper] at hw
  obtain ⟨-, -, rfl⟩ := hw
  exact h

/-! ## The nodes of a cluster -/

open DistributedSystem DistributedNode

variable {md5 : String → ℕ} {config : SystemConfig} {cfg : ClusterConfig}
  {s : DistributedSystem (services md5 config cfg.peers)}

/-- No call in flight stores a block of another state, and none is stored if no entry puts one. -/
structure NodeView.Sole {peers : String → List String}
    (v : NodeView (services md5 config peers)) : Prop where
  frames : ∀ f ∈ v.cacheFrames, f.Sole
  blocks : (∀ e ∈ v.delivered, e.Sole) → MOESICache.SoleBlocks v.cache.cache

theorem keepsBlocks_sole : KeepsBlocks (fun _ => True) MOESICache.SoleBlocks
    MOESICache.Frame.Sole LogEntry.Sole where
  keeps := MOESICache.keeps_soleBlocks
  init k b hb := by cases hb
  start {c now op} _ := MOESICache.start_sole op
  resume {c now f} a _ := MOESICache.resume_sole f a
  store h hd := hd.setItem (Or.inl h)
  request h he := LogEntry.sole_of_request h he
  other hw now key b h := by
    rw [hw] at h
    cases h
  put he hw hd := hd.setItem (Or.inl (he _ _ _ hw))

/-- In every reachable state the blocks are EXCLUSIVE, MODIFIED or INVALID. -/
theorem soleBlocks_reach (hr : Reach cfg Runs.Any s) (i : String) :
    MOESICache.SoleBlocks (cacheOf s i).cache := by
  have hr : Reach cfg (Locally cfg fun _ _ _ => True) s := hr.mono fun _ _ _ => locally_any
  obtain ⟨hframes, hblocks⟩ := keepsBlocks_sole.view (fun _ _ _ _ _ => trivial) hr i
  have hview : (s.view i).Sole := ⟨hframes, hblocks⟩
  exact hview.blocks ((keepsBlocks_sole.entries (fun _ _ _ _ _ => trivial) hr).node i).delivered

/-! ## The endpoint -/

/-- The key is invalidated: no valid block of it is left, which `get` shows, nothing else is lost,
and the invalidation is counted if there was a block. -/
structure Invalidated (c c' : MOESICache) (key : String) : Prop where
  gone : c'.live (.str key) = none
  get : ∀ now, (c'.get (.str key) now).2 = .done (.get (.str key) .null)
  others : ∀ k, (k == .str key) = false → c'.cache.lookup k = c.cache.lookup k
  counted : c'.invalidations =
    c.invalidations + if (c.cache.lookup (.str key)).isSome then 1 else 0

/-- In every reachable state: when the endpoint has answered "invalidated" the key is invalidated,
exactly if there was no valid block of it before. -/
theorem invalidated_iff (hr : Reach cfg Runs.Any s) (i key : String) :
    Invalidated (cacheOf s i) (DistributedNode.handleCacheInvalidate (s.state i) key).1.cacheService
      key ↔ (cacheOf s i).live (.str key) = none := by
  have hsole := soleBlocks_reach hr i (.str key)
  have hnode : (DistributedNode.handleCacheInvalidate (s.state i) key).1.cacheService =
      ((cacheOf s i).handleInvalidation (.str key) (cacheOf s i).nodeId).1 := rfl
  rw [hnode]
  generalize cacheOf s i = c at hsole ⊢
  rcases hb : c.cache.lookup (.str key) with _ | b
  · have hsame : (c.handleInvalidation (.str key) c.nodeId).1 = c := by
      simp [MOESICache.handleInvalidation, Value.hashable, hb]
    have hlive : c.live (.str key) = none := by rw [MOESICache.live, hb, Option.bind_none]
    rw [hsame]
    refine iff_of_true ⟨hlive, fun now => ?_, fun k _ => rfl, by simp [hb]⟩ hlive
    simp [MOESICache.get, Value.hashable, hb]
  · rcases hsole b hb with hs | hs
    · -- the request comes from the node itself, and the block withstands it
      have hkeep : c.invalidated b.state c.nodeId ≠ .invalid := by
        rcases hs with hs | hs <;> simp [MOESICache.invalidated, hs]
      have hsame : (c.handleInvalidation (.str key) c.nodeId).1 = c := by
        simp [MOESICache.handleInvalidation, Value.hashable, hb, hkeep]
      have hlive : c.live (.str key) ≠ none := by
        rcases hs with hs | hs <;> simp [MOESICache.live, hb, CacheBlock.live?, hs]
      rw [hsame]
      exact iff_of_false (fun h => hlive h.gone) hlive
    · have hgone : (c.handleInvalidation (.str key) c.nodeId).1 =
          { c with cache := delItem c.cache (.str key), invalidations := c.invalidations + 1 } := by
        simp [MOESICache.handleInvalidation, Value.hashable, hb, hs, MOESICache.invalidated]
      have hnone : (delItem c.cache (.str key)).lookup (.str key) = none := by
        rw [lookup_delItem, if_pos BEq.rfl]
      rw [hgone]
      refine iff_of_true ⟨?_, fun now => ?_, fun k hk => ?_, by simp [hb]⟩ ?_
      · rw [MOESICache.live, hnone, Option.bind_none]
      · simp [MOESICache.get, Value.hashable, hnone]
      · rw [lookup_delItem, if_neg (by rw [hk]; exact Bool.false_ne_true)]
      · simp [MOESICache.live, hb, CacheBlock.live?, hs]

theorem invalidated_absent : ∃ s : DistributedSystem threeServices,
    (cacheOf s "a").live (.str "k") = some (.str "v") ∧
      Invalidated (cacheOf s "b")
        (DistributedNode.handleCacheInvalidate (s.state "b") "k").1.cacheService "k" := by
  obtain ⟨s, hr, ha, hb⟩ := Runs.exists_of_runList (step threeNodes)
    (DistributedSystem.init threeServices threeNodes) putK
    (fun s => (cacheOf s "a").live (.str "k") = some (.str "v") ∧
      (cacheOf s "b").live (.str "k") = none) (by decide +kernel)
  exact ⟨s, ha, (invalidated_iff hr "b" "k").mpr hb⟩

/-- Node `a` keeps the block that it has put. -/
theorem invalidated_fails : ¬ ∀ (cfg : ClusterConfig)
    (s : DistributedSystem (services String.length {} cfg.peers)), Reach cfg Runs.Any s →
    ∀ i key, Invalidated (cacheOf s i)
      (DistributedNode.handleCacheInvalidate (s.state i) key).1.cacheService key := by
  intro h
  obtain ⟨s, hr, ha⟩ := Runs.exists_of_runList (step threeNodes)
    (DistributedSystem.init threeServices threeNodes) putK
    (fun s => (DistributedNode.handleCacheInvalidate (s.state "a") "k").1.cacheService.live
      (.str "k") = some (.str "v")) (by decide +kernel)
  exact absurd ((h threeNodes s hr "a" "k").gone.symm.trans ha) (by decide)

end DistributedSync
