import DistributedSync.System.Carries
import DistributedSync.System.Exclusivity

/-!
# States that no block has

`put` updates a block directly where it finds it MODIFIED or OWNED, and only such an update makes a
block MODIFIED. Blocks begin as EXCLUSIVE, so that in every run of a cluster each block stays
EXCLUSIVE until it is marked INVALID, and every `put` asks for ownership first (`onlyExclusive`).

What the frames of a node keep may depend on its state here, and the state on the entries, which
repeat the frames (`Services.Confines`).
-/

namespace DistributedSync

open DistributedSystem

/-! ## States, frames and entries -/

section Confines

variable {S : Services} {cfg : ClusterConfig} {s : DistributedSystem S}

/-- States, frames and entries that make each other. -/
structure Services.Confines (S : Services) (P : S.State → Prop) (Q : S.Frame → Prop)
    (E : LogEntry → Prop) : Prop where
  init : ∀ i, P (S.init i)
  start : ∀ {now op state r}, P state → S.start now op state = some r →
    P r.1 ∧ ∀ frame ∈ r.2.frame?, Q frame
  resume : ∀ now {frame} a {state}, P state → Q frame →
    P (S.resume now frame a state).1 ∧ ∀ frame' ∈ (S.resume now frame a state).2.frame?, Q frame'
  request : ∀ {frame} {e : LogEntry}, Q frame → (e.command, e.data) = S.request frame → E e
  handleCommit : ∀ {now e state}, E e → P state → P (S.handleCommit now e state).1

namespace Services.Confines

variable {P : S.State → Prop} {Q : S.Frame → Prop} {E : LogEntry → Prop} (hc : S.Confines P Q E)

include hc

theorem view (h : Reach cfg Runs.Any s) (i : String) (he : ∀ e ∈ (s.view i).delivered, E e) :
    P (s.view i).state ∧ ∀ frame ∈ (s.view i).frames, Q frame := by
  have h : Reach cfg (Locally cfg fun _ _ _ => True) s := h.mono fun _ _ _ => locally_any
  refine h.view (P := fun _ v => (∀ e ∈ v.delivered, E e) →
    P v.state ∧ ∀ frame ∈ v.frames, Q frame)
    (fun i _ => ⟨hc.init i, List.forall_mem_nil _⟩) (fun f i a hv _ he => ?_) i he
  obtain ⟨hstate, hframes⟩ :=
    hv fun e hmem => he e ((f i).delivered_prefix_act a |>.subset hmem)
  have hresume : ∀ now k b frame, (f i).frames[k]? = some frame → _ := fun now k b frame hk =>
    hc.resume now b hstate (hframes frame (List.mem_of_getElem? hk))
  constructor
  · refine NodeView.state_act hstate (fun now op r _ hs => (hc.start hstate hs).1) ?_
      fun now k b frame _ hk => (hresume now k b frame hk).1
    rintro now e rfl
    exact hc.handleCommit (he e List.mem_concat_self) hstate
  · exact NodeView.forall_frames_act hframes (fun now op r _ hs => (hc.start hstate hs).2)
      fun now k b frame _ hk => (hresume now k b frame hk).2

theorem entries (h : Reach cfg Runs.Any s) : s.cluster.AllEntries E :=
  h.entries fun _ hs he i _ _ hframe _ heq =>
    hc.request ((hc.view hs i (he.node i).delivered).2 _ hframe) heq

theorem reach (h : Reach cfg Runs.Any s) (i : String) : P (s.state i) :=
  (hc.view h i ((hc.entries h).node i).delivered).1

end Services.Confines

end Confines

/-! ## Exclusive blocks -/

/-- A CACHE_PUT entry puts an EXCLUSIVE block. -/
def LogEntry.PutsExclusive (e : LogEntry) : Prop :=
  e.command = "CACHE_PUT" → e.data.lookup "state" = some (.str CacheState.exclusive.value)

namespace MOESICache

variable {c : MOESICache} {now : ℚ} {key : Value}

/-- The block is as a `put` leaves it, or marked. -/
def ExclusiveBlocks (d : List (Value × CacheBlock)) : Prop :=
  ∀ k b, d.lookup k = some b → b.state = .exclusive ∨ b.state = .invalid

theorem keeps_exclusiveBlocks : Keeps ExclusiveBlocks := keeps_forall fun _ _ _ => Or.inr rfl

theorem ExclusiveBlocks.setItem {d : List (Value × CacheBlock)} {b : CacheBlock}
    (h : ExclusiveBlocks d) (hb : b.state = .exclusive) :
    ExclusiveBlocks (DistributedSync.setItem d key b) :=
  forall_setItem h fun _ _ => Or.inl hb

/-- The call stores no other block. -/
def Frame.Exclusive : Frame → Prop
  | .replicate _ _ _ _ block => block.state = .exclusive
  | _ => True

/-- There is no block to update directly. -/
theorem put_acquires (h : ExclusiveBlocks c.cache) (hkey : key.hashable = true)
    (value ttl : Value) (now : ℚ) :
    ∃ ttl', c.put key value ttl now = (c, .append (.acquireExclusive c.nodeId key value ttl')) := by
  have hfree : ((c.cache.lookup key).any fun existing =>
      existing.state = .modified || existing.state = .owned) = false := by
    rcases hb : c.cache.lookup key with _ | b
    · rfl
    · rcases h key b hb with hs | hs <;> simp [hs]
  unfold MOESICache.put
  simp only [hkey, if_true, hfree, Bool.false_eq_true, if_false]
  exact ⟨_, rfl⟩

theorem start_exclusive (h : ExclusiveBlocks c.cache) (op : Op) (now : ℚ) :
    ∀ f ∈ (c.start now op).2.frame?, f.Exclusive := by
  intro f hf
  cases op with
  | put key value ttl =>
    change f ∈ (c.put key value ttl now).2.frame? at hf
    by_cases hkey : key.hashable = true
    · obtain ⟨ttl', hput⟩ := put_acquires h hkey value ttl now
      rw [hput] at hf
      cases hf
      trivial
    · unfold MOESICache.put at hf
      rw [if_neg hkey] at hf
      cases hf
  | get key =>
    cases start_opens c now hf
    trivial
  | handleInvalidation key fromNode => cases start_opens c now hf

theorem resume_exclusive (frame : Frame) (a : Appended) (now : ℚ) :
    ∀ f ∈ (c.resume now frame a).2.frame?, f.Exclusive := by
  intro f hf
  cases resume_next c now hf with
  | broadcast | evict => trivial
  | replicate nodeId key value ttl block hb =>
    rcases a with ⟨success⟩ | _
    · cases hf
      rfl
    · cases hf

theorem blockOf_state {data : Dict} {b : CacheBlock} {name : String} (h : blockOf data now = some b)
    (hs : data.lookup "state" = some (.str name)) :
    CacheState.ofName? (upper name) = some b.state := by
  simp only [blockOf, hs, Option.bind_eq_bind, Option.bind_eq_some_iff] at h
  obtain ⟨_, -, _, -, state, hstate, _, -, _, -, hb⟩ := h
  cases hb
  exact hstate

theorem commit_exclusive {e : LogEntry} (he : e.PutsExclusive) (h : ExclusiveBlocks c.cache) :
    ExclusiveBlocks (c.handleCommit now e).1.cache := by
  refine keeps_exclusiveBlocks.commit h fun k b hw => h.setItem ?_
  unfold LogEntry.cacheWrite at hw
  split at hw
  · next hc =>
    obtain ⟨b', hb, hw⟩ := Option.bind_eq_some_iff.mp hw
    rw [Option.ite_none_right_eq_some] at hw
    cases hw.2
    have hname : CacheState.ofName? (upper CacheState.exclusive.value) = some .exclusive := by
      decide
    exact (Option.some.inj (hname.symm.trans (blockOf_state hb (he hc)))).symm
  · split at hw
    · obtain ⟨k', -, hw⟩ := Option.bind_eq_some_iff.mp hw
      rw [Option.ite_none_right_eq_some] at hw
      cases hw.2
    · cases hw

end MOESICache

/-! ## The nodes of a cluster -/

open DistributedNode

variable {md5 : String → ℕ} {config : SystemConfig} {cfg : ClusterConfig}
  {s : DistributedSystem (services md5 config cfg.peers)}

/-- A node whose blocks are exclusive appends no other one, and no other one is stored. -/
theorem confines_exclusive (peers : String → List String) :
    (services md5 config peers).Confines (fun n => MOESICache.ExclusiveBlocks n.cacheService.cache)
      (fun frame => ∀ f ∈ frame.cache?, f.Exclusive) LogEntry.PutsExclusive where
  init i k b hb := by cases hb
  start {now op n r} hn hs := by
    cases op with
    | cache op =>
      cases hs
      refine ⟨MOESICache.keeps_exclusiveBlocks.start hn op, fun frame hframe f hf => ?_⟩
      obtain ⟨f', ho, rfl⟩ := frame_of_map hframe
      cases hf
      refine MOESICache.start_exclusive hn op now f ?_
      rw [ho]
      rfl
    | lock op =>
      obtain ⟨r, -, rfl⟩ := Option.map_eq_some_iff.mp hs
      refine ⟨hn, fun frame hframe f hf => ?_⟩
      obtain ⟨f', -, rfl⟩ := frame_of_map hframe
      cases hf
    | queue op =>
      cases hs
      refine ⟨hn, fun frame hframe f hf => ?_⟩
      obtain ⟨f', -, rfl⟩ := frame_of_map hframe
      cases hf
  resume now frame a n hn hframe := by
    cases frame with
    | cache f =>
      refine ⟨MOESICache.keeps_exclusiveBlocks.resume hn ?_, fun frame' hframe' f' hf' => ?_⟩
      · rintro nodeId key value ttl block rfl -
        exact MOESICache.ExclusiveBlocks.setItem hn (hframe _ rfl)
      · obtain ⟨f'', ho, rfl⟩ := frame_of_map hframe'
        cases hf'
        refine MOESICache.resume_exclusive (c := n.cacheService) f a now f' ?_
        rw [ho]
        rfl
    | lock frame | queue frame =>
      refine ⟨hn, fun frame' hframe' f' hf' => ?_⟩
      obtain ⟨f'', -, rfl⟩ := frame_of_map hframe'
      cases hf'
  request {frame e} hframe he := by
    obtain ⟨hc, hd⟩ := Prod.mk.inj he
    intro hput
    rw [hc] at hput
    cases frame with
    | cache f =>
      cases f with
      | replicate nodeId key value ttl block =>
        have hs : block.state = .exclusive := hframe _ rfl
        rw [hd, ← hs]
        rfl
      | acquireExclusive | broadcastInvalidation | invalidateBlock =>
        simp [MOESICache.request] at hput
    | lock f =>
      cases f <;> simp [DistributedLockManager.request] at hput
    | queue f =>
      cases f <;> simp [DistributedQueue.request] at hput
  handleCommit {now e n} he hn := by
    have hcache := congrArg MOESICache.cache (handleCommit_cacheService n now e)
    exact (congrArg MOESICache.ExclusiveBlocks hcache).mpr (MOESICache.commit_exclusive he hn)

/-- In every run of a cluster: each block of a cache is EXCLUSIVE or INVALID, each CACHE_PUT entry
of a log says "exclusive", and each `put` begins with CACHE_ACQUIRE_EXCLUSIVE. -/
theorem onlyExclusive (hr : Reach cfg Runs.Any s) (i : String) :
    (∀ k b, (cacheOf s i).cache.lookup k = some b → b.state = .exclusive ∨ b.state = .invalid) ∧
    (∀ e ∈ (s.cluster.proc i).raft.log, e.command = "CACHE_PUT" →
      e.data.lookup "state" = some (.str "exclusive")) ∧
    ∀ key value ttl now, key.hashable = true → ∃ ttl', (cacheOf s i).put key value ttl now =
      (cacheOf s i, .append (.acquireExclusive (cacheOf s i).nodeId key value ttl')) := by
  have hblocks : MOESICache.ExclusiveBlocks (cacheOf s i).cache :=
    (confines_exclusive cfg.peers).reach hr i
  refine ⟨hblocks, ((confines_exclusive cfg.peers).entries hr).node i |>.log, ?_⟩
  exact fun key value ttl now hkey => MOESICache.put_acquires hblocks hkey value ttl now

theorem onlyExclusive_put : ∃ s : DistributedSystem threeServices,
    (cacheOf s "a").live (.str "k") = some (.str "v") ∧
    ∃ ttl', (cacheOf s "a").put (.str "k") (.str "w") (.int 0) 0 = (cacheOf s "a",
      .append (.acquireExclusive (cacheOf s "a").nodeId (.str "k") (.str "w") ttl')) := by
  obtain ⟨s, hr, ha⟩ := Runs.exists_of_runList (step threeNodes)
    (DistributedSystem.init threeServices threeNodes) putK
    (fun s => (cacheOf s "a").live (.str "k") = some (.str "v")) (by decide +kernel)
  exact ⟨s, ha, (onlyExclusive hr "a").2.2 (.str "k") (.str "w") (.int 0) 0 rfl⟩

end DistributedSync
