import DistributedSync.Services.CacheMap
import DistributedSync.Services.DistributedNode
import DistributedSync.System.View

/-!
# The caches of a run

An act of a node is a step of its cache or leaves the cache alone (`NodeView.cacheStep`).
-/

namespace DistributedSync

open DistributedNode

/-! ## One node -/

/-- The cache gets its own entries: the other callbacks do not raise on them. -/
theorem DistributedNode.handleCommit_cacheService (n : DistributedNode) (now : ℚ) (e : LogEntry) :
    (n.handleCommit now e).1.cacheService = (n.cacheService.handleCommit now e).1 := by
  by_cases hc : e.command = "CACHE_PUT" ∨ e.command = "CACHE_INVALIDATE" ∨
      e.command = "CACHE_INVALIDATE_ALL"
  · have hl : (n.lockManager.handleCommit e).2 = false := by
      rcases hc with hc | hc | hc <;> simp [DistributedLockManager.handleCommit, hc]
    have hq : (n.queueService.handleCommit now e).2 = false := by
      rcases hc with hc | hc | hc <;> simp [DistributedQueue.handleCommit, hc]
    simp only [DistributedNode.handleCommit, hl, hq, Bool.false_eq_true, if_false]
  · rw [not_or, not_or] at hc
    have hcache : (n.cacheService.handleCommit now e).1 = n.cacheService := by
      simp only [MOESICache.handleCommit, hc, if_false]
    unfold DistributedNode.handleCommit
    dsimp only
    split
    · exact hcache.symm
    · split
      · exact hcache.symm
      · rfl

/-- The frame of a call of the cache. -/
def DistributedNode.Frame.cache? : DistributedNode.Frame → Option MOESICache.Frame
  | .cache frame => some frame
  | _ => none

/-- The entries of the other services are nothing to a cache. -/
theorem DistributedNode.cacheWrite_of_request (frame : DistributedNode.Frame) {e : LogEntry}
    {now : ℚ}
    (h : frame.cache? = none) (he : (e.command, e.data) = DistributedNode.request frame) :
    e.cacheWrite now = none := by
  obtain ⟨hc, -⟩ := Prod.mk.inj he
  cases frame with
  | cache frame => cases h
  | lock frame => cases frame <;> simp [LogEntry.cacheWrite, hc, DistributedLockManager.request]
  | queue frame => cases frame <;> simp [LogEntry.cacheWrite, hc, DistributedQueue.request]

namespace NodeView

variable {md5 : String → ℕ} {config : SystemConfig} {peers : String → List String}
  (v : NodeView (services md5 config peers))

def cache : MOESICache := DistributedNode.cacheService v.state

def cacheFrames : List MOESICache.Frame := v.frames.filterMap Frame.cache?

/-- The call at position `k`, if it is one of the cache. -/
def frameAt (k : ℕ) : Option MOESICache.Frame := v.frames[k]?.bind Frame.cache?

/-- The calls of the cache without the one at position `k`. -/
def others (k : ℕ) : List MOESICache.Frame := (v.frames.eraseIdx k).filterMap Frame.cache?

/-- What an act does to the cache and its calls. -/
inductive CacheStep (v v' : NodeView (services md5 config peers)) :
    Act (services md5 config peers) → Prop
  | call (now : ℚ) (op : MOESICache.Op) (hc : v'.cache = (v.cache.start now op).1)
    (hf : v'.cacheFrames = (v.cache.start now op).2.frame?.toList ++ v.cacheFrames)
    (hd : v'.delivered = v.delivered) : CacheStep v v' (.start now (.cache op))
  | commit (now : ℚ) (e : LogEntry) (hc : v'.cache = (v.cache.handleCommit now e).1)
    (hf : v'.cacheFrames = v.cacheFrames) (hd : v'.delivered = v.delivered ++ [e]) :
    CacheStep v v' (.commit now e)
  | resume (now : ℚ) (k : ℕ) (a : Appended) (frame : MOESICache.Frame)
    (hk : v.frameAt k = some frame) (hc : v'.cache = (v.cache.resume now frame a).1)
    (hf : v'.cacheFrames = (v.cache.resume now frame a).2.frame?.toList ++ v.others k)
    (hd : v'.delivered = v.delivered) : CacheStep v v' (.resume now k a)
  | other (a : Act (services md5 config peers)) (hc : v'.cache = v.cache)
    (hf : v'.cacheFrames.Perm v.cacheFrames) (hd : v'.delivered = v.delivered) : CacheStep v v' a

theorem filterMap_perm {α β : Type*} {l : List α} {k : ℕ} {x : α} (f : α → Option β)
    (h : l[k]? = some x) : (l.filterMap f).Perm ((f x).toList ++ (l.eraseIdx k).filterMap f) := by
  obtain ⟨hlt, rfl⟩ := List.getElem?_eq_some_iff.mp h
  refine ((List.getElem_cons_eraseIdx_perm hlt).filterMap f).symm.trans ?_
  rw [List.filterMap_cons]
  cases f l[k] <;> exact .refl _

theorem frames_perm {k : ℕ} {frame : MOESICache.Frame} (h : v.frameAt k = some frame) :
    v.cacheFrames.Perm (frame :: v.others k) := by
  obtain ⟨frame', hk, hframe⟩ := Option.bind_eq_some_iff.mp h
  have := filterMap_perm Frame.cache? hk
  rwa [hframe] at this

theorem filterMap_other {κ ρ : Type} {o : Outcome κ ρ} {f : κ → DistributedNode.Frame}
    {g : ρ → DistributedNode.Result} (hf : ∀ x, (f x).cache? = none) :
    (o.map f g).frame?.toList.filterMap Frame.cache? = [] := by
  cases o with
  | append x => simp [Outcome.map, Outcome.frame?, hf]
  | sleep | done r => rfl

theorem filterMap_cache (o : Outcome MOESICache.Frame MOESICache.Result) :
    (o.map Frame.cache Result.cache).frame?.toList.filterMap Frame.cache? = o.frame?.toList := by
  cases o <;> rfl

theorem cacheStep (a : Act (services md5 config peers)) : CacheStep v (v.act a) a := by
  cases a with
  | start now op =>
    rcases h : (services md5 config peers).start now op v.state with _ | r
    · rw [act_start_none h]
      exact .other _ rfl (.refl _) rfl
    · have hframes : (v.act (.start now op)).cacheFrames =
          r.2.frame?.toList.filterMap Frame.cache? ++ v.cacheFrames := by
        rw [act_start h]
        exact List.filterMap_append
      cases op with
      | cache op =>
        cases h
        refine .call now op rfl (hframes.trans ?_) rfl
        exact congrArg (· ++ v.cacheFrames) (filterMap_cache _)
      | queue op =>
        cases h
        refine .other _ rfl (.of_eq (hframes.trans ?_)) rfl
        exact congrArg (· ++ v.cacheFrames) (filterMap_other fun _ => rfl)
      | lock op =>
        obtain ⟨r', hr', rfl⟩ := Option.map_eq_some_iff.mp h
        refine .other _ (by rw [act_start h]; rfl) (.of_eq (hframes.trans ?_)) (by rw [act_start h])
        exact congrArg (· ++ v.cacheFrames) (filterMap_other fun _ => rfl)
  | commit now e => exact .commit now e (handleCommit_cacheService ..) rfl rfl
  | resume now k a =>
    rcases h : v.frames[k]? with _ | frame
    · rw [act_resume_none h]
      exact .other _ rfl (.refl _) rfl
    · have hframes : (v.act (.resume now k a)).cacheFrames =
          ((services md5 config peers).resume now frame a v.state).2.frame?.toList.filterMap
            Frame.cache? ++ v.others k := by
        rw [act_resume h]
        exact List.filterMap_append
      have hperm := filterMap_perm Frame.cache? h
      have hact : v.act (.resume now k a) = _ := act_resume h a
      cases frame with
      | cache frame =>
        refine .resume now k a frame ?_ (by rw [hact]; rfl) (hframes.trans ?_) (by rw [hact])
        · rw [frameAt, h]
          rfl
        · exact congrArg (· ++ v.others k) (filterMap_cache _)
      | lock frame =>
        refine .other _ (by rw [hact]; rfl) (.trans (.of_eq (hframes.trans ?_)) hperm.symm)
          (by rw [hact])
        exact congrArg (· ++ v.others k) (filterMap_other fun _ => rfl)
      | queue frame =>
        refine .other _ (by rw [hact]; rfl) (.trans (.of_eq (hframes.trans ?_)) hperm.symm)
          (by rw [hact])
        exact congrArg (· ++ v.others k) (filterMap_other fun _ => rfl)
  | wait =>
    have hperm := (act_wait_perm (v := v)).filterMap Frame.cache?
    exact .other _ rfl hperm rfl

end NodeView

end DistributedSync
