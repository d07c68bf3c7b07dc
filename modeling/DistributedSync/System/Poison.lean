import DistributedSync.App.Handlers
import DistributedSync.Raft.Silence
import DistributedSync.Services.Refusal
import DistributedSync.Services.Expiry
import DistributedSync.System.Carries
import DistributedSync.System.Exclusivity

/-!
# Poison entries

`_apply_committed_entries` advances `last_applied` before it calls the callbacks, so an entry that
makes one of them raise is lost for the later ones, on every node. The services hash what they will
use as a key before they append an entry, with one exception: `acquire_lock` compares the resource
with those of the locks, and only the callback looks it up in `lock_queue`. As long as all resources
are hashable no entry makes a callback raise (`no_poison`). The recursion limit of the interpreter
is not modelled: the f-string of `_apply_committed_entries` prints values of any depth.
-/

namespace DistributedSync

open DistributedSystem RaftNode

/-! ## Runs without exceptions -/

namespace DistributedSystem

variable {S : Services} {cfg : ClusterConfig} {s s' : DistributedSystem S} {ev : SystemEvent S}

theorem step_deliver (h : s.step cfg ev = some s') : s'.cluster = s.cluster ∨
    ∃ i now e state, s.cluster.runner e = some i ∧ cfg.step s.cluster e = some s'.cluster ∧
      deliver now e.raises ((s.cluster.proc i).raft.lastApplied + 1)
        ((s'.cluster.proc i).raft.delivered.drop (s.cluster.proc i).raft.delivered.length)
        (s.state i) = some state := by
  cases step_cases h with
  | call i now op r hi hr => exact Or.inl (react_cluster ..)
  | refused i now raises frame hf hl => exact Or.inl (react_cluster ..)
  | appends i now raises frame s₁ hf hl hp hs =>
    obtain ⟨c, state, hc, hd, rfl⟩ := raftStep_some hs
    exact Or.inr ⟨i, now, _, state, rfl, hc, hd⟩
  | commits i now raises frame s₁ b hf hl hb hs =>
    obtain ⟨c, state, hc, hd, rfl⟩ := raftStep_some hs
    rw [react_cluster]
    exact Or.inr ⟨i, now, _, state, rfl, hc, hd⟩
  | returns i now j call s₁ hi hc hs =>
    obtain ⟨c, state, hc, hd, rfl⟩ := raftStep_some hs
    rw [react_cluster]
    exact Or.inr ⟨i, now, _, state, rfl, hc, hd⟩
  | raft i now e s₁ hr hi he hret hs =>
    obtain ⟨c, state, hc, hd, rfl⟩ := raftStep_some hs
    exact Or.inr ⟨i, now, e, state, hr, hc, hd⟩

/-- Callbacks that never raise at these entries were not expected to. -/
theorem deliver_unraised {now : ℚ} {raises : Raises} {k : ℤ} {entries : List LogEntry}
    {state state' : S.State}
    (hsafe : ∀ e ∈ entries, ∀ now state, (S.handleCommit now e state).2 = false)
    (h : deliver now raises k entries state = some state') :
    ∀ j : ℕ, j < entries.length → raises (k + j) = false := by
  induction entries generalizing k state with
  | nil => exact fun j hj => absurd hj (Nat.not_lt_zero j)
  | cons e es ih =>
    unfold deliver at h
    dsimp only at h
    split at h
    · next hraise =>
      intro j hj
      cases j with
      | zero =>
        have hidx : k + ((0 : ℕ) : ℤ) = k := by omega
        rw [hsafe e List.mem_cons_self] at hraise
        rw [hidx]
        exact hraise.symm
      | succ j =>
        have hidx : k + ((j + 1 : ℕ) : ℤ) = k + 1 + j := by omega
        rw [hidx]
        exact ih (fun e' he' => hsafe e' (List.mem_cons_of_mem _ he')) h j
          (Nat.lt_of_succ_lt_succ hj)
    · cases h

/-- If no entry makes a callback raise, the cluster has made a run in which none does. -/
theorem Reach.silent {ok : DistributedSystem S → SystemEvent S → Prop} {P : LogEntry → Prop}
    (hP : ∀ e, P e → ∀ now state, (S.handleCommit now e state).2 = false)
    (hall : ∀ s, Reach cfg ok s → s.cluster.AllEntries P) (h : Reach cfg ok s) :
    cfg.Reach Silent s.cluster := by
  induction h with
  | refl => exact .refl
  | @tail s s' ev h hok hs ih =>
    rcases step_deliver hs with heq | ⟨i, now, e, state, hr, hc, hd⟩
    · rwa [heq]
    · refine ih.tail e.silenced (silent_silenced _ e) (step_silenced hc fun j hj => ?_)
      rw [hr] at hj
      cases hj
      have hentries : ∀ e' ∈ (s'.cluster.proc i).raft.delivered.drop
          (s.cluster.proc i).raft.delivered.length, P e' := fun e' he' =>
        ((hall s' (h.tail ev hok hs)).node i).delivered e' (List.mem_of_mem_drop he')
      intro k hk
      refine deliver_unraised (fun e' he' => hP e' (hentries e' he')) hd k ?_
      rw [List.length_drop]
      omega

end DistributedSystem

/-- A property of states and one of frames that every coroutine keeps, if it begins as `ok` says. -/
structure Services.Guards (S : Services) (ok : S.State → S.Op → Prop) (P : S.State → Prop)
    (Q : S.Frame → Prop) : Prop where
  init : ∀ i, P (S.init i)
  start : ∀ {now op state r}, P state → ok state op → S.start now op state = some r →
    P r.1 ∧ ∀ frame ∈ r.2.frame?, Q frame
  resume : ∀ now {frame} a {state}, P state → Q frame → P (S.resume now frame a state).1 ∧
    ∀ frame' ∈ (S.resume now frame a state).2.frame?, Q frame'
  handleCommit : ∀ {now e state}, P state → P (S.handleCommit now e state).1

theorem Services.Guards.reach {S : Services} {cfg : ClusterConfig} {s : DistributedSystem S}
    {ok : S.State → S.Op → Prop} {P : S.State → Prop} {Q : S.Frame → Prop}
    (hg : S.Guards ok P Q) (h : Reach cfg (Locally cfg (Starts ok)) s) (i : String) :
    P (s.view i).state ∧ ∀ frame ∈ (s.view i).frames, Q frame := by
  refine h.view (P := fun _ v => P v.state ∧ ∀ frame ∈ v.frames, Q frame)
    (fun i => ⟨hg.init i, fun _ hf => by cases hf⟩) (fun f i a hv hok => ?_) i
  obtain ⟨hstate, hframes⟩ := hv
  have hstart : ∀ now op r, a = .start now op → S.start now op (f i).state = some r →
      P r.1 ∧ ∀ frame ∈ r.2.frame?, Q frame := by
    rintro now op r rfl hs
    exact hg.start hstate hok hs
  have hresume : ∀ now k b frame, a = .resume now k b → (f i).frames[k]? = some frame →
      P (S.resume now frame b (f i).state).1 ∧
        ∀ frame' ∈ (S.resume now frame b (f i).state).2.frame?, Q frame' :=
    fun now k b frame _ hk => hg.resume now b hstate (hframes frame (List.mem_of_getElem? hk))
  constructor
  · exact NodeView.state_act hstate (fun now op r ha hs => (hstart now op r ha hs).1)
      (fun _ _ _ => hg.handleCommit hstate)
      fun now k b frame ha hk => (hresume now k b frame ha hk).1
  · exact NodeView.forall_frames_act hframes (fun now op r ha hs => (hstart now op r ha hs).2)
      fun now k b frame ha hk => (hresume now k b frame ha hk).2

/-! ## Harmless entries -/

/-- No callback raises when the entry is applied, whatever the services hold. -/
structure Harmless (e : LogEntry) : Prop where
  lockManager : ∀ m : DistributedLockManager, (m.handleCommit e).2 = false
  queueService : ∀ (q : DistributedQueue) (now : ℚ), (q.handleCommit now e).2 = false
  cacheService : ∀ (c : MOESICache) (now : ℚ), (c.handleCommit now e).2 = false

theorem Harmless.handleCommit_eq {e : LogEntry} (h : Harmless e) (now : ℚ) (n : DistributedNode) :
    n.handleCommit now e =
      ({ lockManager := (n.lockManager.handleCommit e).1
         queueService := (n.queueService.handleCommit now e).1
         cacheService := (n.cacheService.handleCommit now e).1 }, false) := by
  unfold DistributedNode.handleCommit
  dsimp only
  rw [h.lockManager, if_neg Bool.false_ne_true, h.queueService, if_neg Bool.false_ne_true,
    h.cacheService]

namespace DistributedNode

def Frame.Hashed : Frame → Prop
  | .lock (.acquire a) | .lock (.acquireWaiting a _) => a.resource.hashable = true
  | .lock (.release lockId) => lockId.hashable = true
  | .queue _ => True
  | .cache frame => frame.key.hashable = true

/-! An entry of one service is passed over by the other two callbacks. -/

section Callbacks

variable {e : LogEntry}

theorem harmless_of_lock {f : DistributedLockManager.Frame}
    (he : (e.command, e.data) = request (.lock f))
    (h : ∀ m : DistributedLockManager, (m.handleCommit e).2 = false) : Harmless e := by
  obtain ⟨hc, -⟩ := Prod.mk.inj he
  refine ⟨h, fun q now => ?_, fun c now => ?_⟩
  · cases f <;> simp [DistributedQueue.handleCommit, hc]
  · cases f <;> simp [MOESICache.handleCommit, hc]

theorem harmless_of_queue {f : DistributedQueue.Frame}
    (he : (e.command, e.data) = request (.queue f))
    (h : ∀ (q : DistributedQueue) (now : ℚ), (q.handleCommit now e).2 = false) : Harmless e := by
  obtain ⟨hc, -⟩ := Prod.mk.inj he
  refine ⟨fun m => ?_, h, fun c now => ?_⟩
  · cases f <;> simp [DistributedLockManager.handleCommit, hc]
  · cases f <;> simp [MOESICache.handleCommit, hc]

theorem harmless_of_cache {f : MOESICache.Frame} (he : (e.command, e.data) = request (.cache f))
    (h : ∀ (c : MOESICache) (now : ℚ), (c.handleCommit now e).2 = false) : Harmless e := by
  obtain ⟨hc, -⟩ := Prod.mk.inj he
  refine ⟨fun m => ?_, fun q now => ?_, h⟩
  · cases f <;> simp [DistributedLockManager.handleCommit, hc]
  · cases f <;> simp [DistributedQueue.handleCommit, hc]

end Callbacks

/-- A LOCK_ACQUIRE entry is harmless exactly if its resource is hashable. -/
theorem harmless_acquire_iff {a : AcquireLock} {e : LogEntry}
    (he : (e.command, e.data) = ("LOCK_ACQUIRE", a.data)) :
    Harmless e ↔ a.resource.hashable = true := by
  obtain ⟨hc, hd⟩ := Prod.mk.inj he
  have hlock : ∀ m : DistributedLockManager,
      (m.handleCommit e).2 = !a.resource.hashable := by
    intro m
    unfold DistributedLockManager.handleCommit
    rw [if_pos hc, hd, AcquireLock.lockOf_data]
    have hid : (Value.str a.lockId).hashable = true := rfl
    dsimp only [AcquireLock.lock]
    rw [if_pos hid]
    cases hr : a.resource.hashable
    · rfl
    · rw [if_pos rfl]
      split <;> rfl
  constructor
  · intro h
    have := (hlock {}).symm.trans (h.lockManager {})
    rwa [Bool.not_eq_false'] at this
  · intro hr
    refine harmless_of_lock (f := .acquire a) he fun m => ?_
    rw [hlock, hr]
    rfl

theorem harmless_of_request {frame : Frame} {e : LogEntry} (hf : frame.Hashed)
    (he : (e.command, e.data) = request frame) : Harmless e := by
  cases frame with
  | lock frame =>
    cases frame with
    | acquire a | acquireWaiting a startTime => exact (harmless_acquire_iff he).mpr hf
    | release lockId =>
      obtain ⟨hc, hd⟩ := Prod.mk.inj he
      have hid : lockId.hashable = true := hf
      refine harmless_of_lock he fun m => ?_
      simp [DistributedLockManager.handleCommit, hc, hd, lookup_cons, hid]
  | queue frame =>
    refine harmless_of_queue he fun q now => ?_
    cases frame with
    | publish topic payload msgId partitionId replicas =>
      obtain ⟨hc, hd⟩ := Prod.mk.inj he
      simp [DistributedQueue.handleCommit, hc, hd, lookup_cons, Value.hashable]
    | acknowledge msgId consumerId =>
      obtain ⟨hc, hd⟩ := Prod.mk.inj he
      simp [DistributedQueue.handleCommit, hc, hd, lookup_cons]
  | cache frame =>
    have hkey : frame.key.hashable = true := hf
    have hdrop : ∀ c : MOESICache, (c.dropBlock frame.key).2 = false := by
      intro c
      rw [MOESICache.dropBlock, if_pos hkey]
      split <;> rfl
    refine harmless_of_cache he fun c now => ?_
    cases frame with
    | acquireExclusive nodeId key value ttl =>
      obtain ⟨hc, -⟩ := Prod.mk.inj he
      simp [MOESICache.handleCommit, hc]
    | broadcastInvalidation nodeId key value ttl =>
      obtain ⟨hc, hd⟩ := Prod.mk.inj he
      suffices (if (Value.str nodeId == .str c.nodeId) = true then (c, false)
          else c.dropBlock key).2 = false by
        simpa [MOESICache.handleCommit, hc, hd, lookup_cons] using this
      split
      · rfl
      · exact hdrop c
    | replicate nodeId key value ttl block =>
      obtain ⟨hc, hd⟩ := Prod.mk.inj he
      have hkey' : key.hashable = true := hkey
      simp [MOESICache.handleCommit, MOESICache.blockOf, hc, hd, lookup_cons,
        MOESICache.ofName?_upper, hkey']
    | invalidateBlock key caller =>
      obtain ⟨hc, hd⟩ := Prod.mk.inj he
      suffices (c.dropBlock key).2 = false by
        simpa [MOESICache.handleCommit, hc, hd, lookup_cons] using this
      exact hdrop c

/-! ## What the services hash -/

variable {md5 : String → ℕ}

/-- The resources of the calls that poll, and the keys of the cache, are hashable. -/
structure Hashed (n : DistributedNode) : Prop where
  waiting : ∀ w ∈ n.lockManager.waiting, w.1.resource.hashable = true
  keys : n.cacheService.HashableKeys

/-- The resource of a call of `acquire_lock` is hashable. -/
def HashableResource : Op → Prop
  | .lock (.acquireLock a) => a.resource.hashable = true
  | .lock (.wake _) | .lock (.releaseLock _) | .queue _ | .cache _ => True

/-- The lock manager looks a resource up in its queue before it lets a call wait. -/
theorem lock_start_hashed {m : DistributedLockManager} {now : ℚ} {op : DistributedLockManager.Op}
    {r : DistributedLockManager × Outcome _ _}
    (hw : ∀ w ∈ m.waiting, w.1.resource.hashable = true) (hop : HashableResource (.lock op))
    (hs : m.start now op = some r) : (∀ w ∈ r.1.waiting, w.1.resource.hashable = true) ∧
      ∀ frame, r.2 = .append frame → Frame.Hashed (.lock frame) := by
  have hadd : ∀ {l : List (AcquireLock × ℚ)} {a : AcquireLock} {t : ℚ},
      (∀ w ∈ l, w.1.resource.hashable = true) → a.resource.hashable = true →
      ∀ w ∈ l ++ [(a, t)], w.1.resource.hashable = true := by
    intro l a t hl ha w hw
    rcases List.mem_append.mp hw with hw | hw
    · exact hl w hw
    · rw [List.mem_singleton.mp hw]
      exact ha
  cases op with
  | acquireLock a =>
    cases hs
    rcases m.acquireLock_cases a now with ⟨-, heq⟩ | ⟨-, -, heq⟩ | ⟨-, g, heq | heq⟩ <;> rw [heq]
    · exact ⟨hw, fun frame h => by cases h; exact hop⟩
    · exact ⟨hw, fun frame h => by cases h⟩
    · exact ⟨hw, fun frame h => by cases h⟩
    · exact ⟨hadd hw hop, fun frame h => by cases h⟩
  | wake k =>
    obtain ⟨w, hk, rfl⟩ := Option.map_eq_some_iff.mp hs
    have ha := hw w (List.mem_of_getElem? hk)
    have hrest : ∀ w ∈ m.waiting.eraseIdx k, w.1.resource.hashable = true := fun w h =>
      hw w (List.mem_of_mem_eraseIdx h)
    rcases DistributedLockManager.poll_cases { m with waiting := m.waiting.eraseIdx k } w.1 w.2 now
      with ⟨-, heq⟩ | heq | heq <;> rw [heq]
    · exact ⟨hrest, fun frame h => by cases h; exact ha⟩
    · exact ⟨hrest, fun frame h => by cases h⟩
    · exact ⟨hadd hrest ha, fun frame h => by cases h⟩
  | releaseLock lockId =>
    cases hs
    unfold DistributedLockManager.releaseLock
    split
    · next hid =>
      split
      · exact ⟨hw, fun frame h => by cases h; exact hid⟩
      · exact ⟨hw, fun frame h => by cases h⟩
    · exact ⟨hw, fun frame h => by cases h⟩

theorem lock_resume_hashed {m : DistributedLockManager} (now : ℚ)
    {frame : DistributedLockManager.Frame} (a : Appended)
    (hw : ∀ w ∈ m.waiting, w.1.resource.hashable = true) (hf : Frame.Hashed (.lock frame)) :
    (∀ w ∈ (m.resume now frame a).1.waiting, w.1.resource.hashable = true) ∧
      (m.resume now frame a).2.frame? = none := by
  rcases resume_cases m now frame a with ⟨g, result, heq⟩ | ⟨b, startTime, rfl, heq⟩ <;> rw [heq]
  · exact ⟨hw, rfl⟩
  · refine ⟨fun w h => ?_, rfl⟩
    rcases List.mem_append.mp h with h | h
    · exact hw w h
    · rw [List.mem_singleton.mp h]
      exact hf

/-- The cache looks a key up before it appends an entry, and evicts a key that it holds. -/
theorem cache_start_hashed {c : MOESICache} {now : ℚ} {op : MOESICache.Op}
    {frame : MOESICache.Frame} (hf : frame ∈ (c.start now op).2.frame?) :
    frame.key.hashable = true := by
  cases op with
  | get key =>
    rcases c.get_cases now key with ⟨-, r, hr⟩ | ⟨b, -, -, -, hr⟩ | ⟨b, hkey, -, -, -, hr⟩
    all_goals
      rw [MOESICache.start, hr] at hf
      cases hf
    exact hkey
  | put key value ttl =>
    rcases c.put_cases now key value ttl with hr | ⟨hkey, nodeId, ttl', block, hr⟩ |
      ⟨hkey, nodeId, ttl', hr⟩
    all_goals
      rw [MOESICache.start, hr] at hf
      cases hf
    all_goals exact hkey
  | handleInvalidation key fromNode =>
    cases MOESICache.start_opens c now hf

theorem cache_resume_hashed {c : MOESICache} {now : ℚ} {frame frame' : MOESICache.Frame}
    {a : Appended} (hc : c.HashableKeys) (hkey : frame.key.hashable = true)
    (hf : frame' ∈ (c.resume now frame a).2.frame?) : frame'.key.hashable = true := by
  cases MOESICache.resume_next c now hf with
  | broadcast | replicate => exact hkey
  | evict nodeId key value ttl block victim =>
    rcases a with ⟨_ | _⟩ | _
    · cases hf
    · change _ ∈ (c.store key value block now).2.frame? at hf
      obtain ⟨c', hc', -, ⟨heq, -⟩ | ⟨victim', b, -, hb, -, heq⟩⟩ :=
        c.store_cases now key value block
      all_goals
        rw [heq] at hf
        cases hf
      exact MOESICache.hashable_of_lookup (hc' ▸ MOESICache.hashable_setItem hc hkey block) hb
    · cases hf

theorem Hashed.handleCommit {n : DistributedNode} {now : ℚ} {e : LogEntry} (h : Hashed n) :
    Hashed (n.handleCommit now e).1 := by
  constructor
  · rw [handleCommit_lockManager, DistributedLockManager.handleCommit_waiting]
    exact h.waiting
  · rw [handleCommit_cacheService]
    exact h.keys.step (.commit now e)

variable {config : SystemConfig} {peers : String → List String}

theorem guards_hashed : (services md5 config peers).Guards (fun _ op => HashableResource op) Hashed
    Frame.Hashed where
  init i := by
    constructor
    · intro w hw
      cases hw
    · intro p hp
      cases hp
  start {now op n r} h hop hs := by
    cases op with
    | lock op =>
      obtain ⟨r, hr, rfl⟩ := Option.map_eq_some_iff.mp hs
      obtain ⟨hw, hf⟩ := lock_start_hashed h.waiting hop hr
      refine ⟨⟨hw, h.keys⟩, fun frame hframe => ?_⟩
      obtain ⟨frame', ho, rfl⟩ := frame_of_map hframe
      exact hf frame' ho
    | queue op =>
      cases hs
      refine ⟨⟨h.waiting, h.keys⟩, fun frame hframe => ?_⟩
      obtain ⟨frame', -, rfl⟩ := frame_of_map hframe
      trivial
    | cache op =>
      cases hs
      refine ⟨⟨h.waiting, h.keys.step (.call now op)⟩, fun frame hframe => ?_⟩
      obtain ⟨frame', ho, rfl⟩ := frame_of_map hframe
      exact cache_start_hashed (by rw [ho]; rfl)
  resume now frame a n h hf := by
    cases frame with
    | lock frame =>
      obtain ⟨hw, hnone⟩ := lock_resume_hashed now a h.waiting hf
      refine ⟨⟨hw, h.keys⟩, fun frame' hframe => ?_⟩
      obtain ⟨frame'', ho, -⟩ := frame_of_map hframe
      rw [ho] at hnone
      cases hnone
    | queue frame =>
      refine ⟨h, fun frame' hframe => ?_⟩
      obtain ⟨frame'', -, rfl⟩ := frame_of_map hframe
      trivial
    | cache frame =>
      refine ⟨⟨h.waiting, h.keys.step (.resume now frame a hf)⟩, fun frame' hframe => ?_⟩
      obtain ⟨frame'', ho, rfl⟩ := frame_of_map hframe
      exact cache_resume_hashed h.keys hf (by rw [ho]; rfl)
  handleCommit h := h.handleCommit

/-! ## Requests -/

/-- The body of a POST /lock/acquire has a hashable resource. -/
def HasHashableResource : Route → Value → Prop
  | .lockAcquire, .dict data => (fieldOf data "resource").hashable = true
  | _, _ => True

/-- Where calls come from: a request with a body, a route of the cache whose key is part of the
path, a call that sleeps, or the deadlock detection, which releases a lock. -/
inductive Origin (md5 : String → ℕ) (good : Route → Value → Prop) (n : DistributedNode) : Op → Prop
  | post (route : Route) (body : Value) (id : String) {op : Op} (hgood : good route body)
    (h : n.handle md5 id body route = .call op) : Origin md5 good n op
  | get (key : String) : Origin md5 good n (.cache (.get (.str key)))
  | invalidate (key nodeId : String) :
    Origin md5 good n (.cache (.handleInvalidation (.str key) nodeId))
  | wake (k : ℕ) : Origin md5 good n (.lock (.wake k))
  | detection (lockId : Value) : Origin md5 good n (.lock (.releaseLock lockId))

theorem Origin.hashableResource {n : DistributedNode} {op : Op}
    (h : Origin md5 HasHashableResource n op) : HashableResource op := by
  cases h with
  | post route body id hgood h =>
    cases op with
    | lock op =>
      cases op with
      | acquireLock a =>
        obtain rfl := handle_acquireLock h
        obtain ⟨data, a', rfl, heq, hres⟩ := handleLockAcquire_call h
        cases heq
        show a.resource.hashable = true
        rw [hres]
        exact hgood
      | wake k | releaseLock lockId => trivial
    | queue op | cache op => trivial
  | get | invalidate | wake | detection => trivial

/-- Every call of the run has an origin. -/
def Requested {cfg : ClusterConfig} (good : Route → Value → Prop)
    (s : DistributedSystem (services md5 config cfg.peers)) :
    SystemEvent (services md5 config cfg.peers) → Prop
  | .call i _ op => Origin md5 good (s.state i) op
  | .append _ _ _ | .raft _ _ => True

/-- In every run whose requests have hashable resources, no entry makes a callback raise, every loop
of `_apply_committed_entries` comes to its end, and the callbacks have got all entries up to
`last_applied`, in order. -/
theorem no_poison {cfg : ClusterConfig} {s : DistributedSystem (services md5 config cfg.peers)}
    (h : Reach cfg (Requested HasHashableResource) s) :
    s.cluster.AllEntries Harmless ∧ ∀ i, (s.cluster.proc i).raft.InStep := by
  have hguards : ∀ s : DistributedSystem (services md5 config cfg.peers),
      Reach cfg (Requested HasHashableResource) s → ∀ i, ∀ frame ∈ (s.view i).frames,
        Frame.Hashed frame := by
    intro s hs i
    have hlocal : Reach cfg (Locally cfg (Starts fun _ op => HashableResource op)) s := by
      refine hs.mono fun t ev hok => locally_starts fun i now op heq => ?_
      subst heq
      exact Origin.hashableResource hok
    exact (guards_hashed.reach hlocal i).2
  have hall : ∀ s : DistributedSystem (services md5 config cfg.peers),
      Reach cfg (Requested HasHashableResource) s → s.cluster.AllEntries Harmless := fun s hs =>
    hs.allEntries fun t ht i _ frame hf e he =>
      harmless_of_request (hguards t ht i frame hf) he
  refine ⟨hall s h, fun i => ?_⟩
  have hsilent : cfg.Reach Silent s.cluster := h.silent (P := Harmless)
    (fun e he now n => congrArg Prod.snd (he.handleCommit_eq now n)) hall
  have hin : s.cluster.InStep := hsilent.invariant (.init cfg) fun _ _ _ hin hq hs =>
    (hin.step hq (cfg.transition hs)).1
  exact hin.node i

/-! ### A list as a resource -/

def lockBody (resource : Value) : Value :=
  .dict [("resource", resource), ("client_id", .str "c")]

def askFor (resource : Value) : SystemEvent threeServices :=
  .call "a" 0 (.lock (.acquireLock ⟨resource, .exclusive, .str "c", .int 30, "l"⟩))

def asking (resource : Value) : List (SystemEvent threeServices) :=
  raftOnly electA ++ [askFor resource, .append "a" 0 never]

theorem raftOnly_requested (good : Route → Value → Prop) (es : List (Event threeServices.Frame)) :
    ∀ ev ∈ raftOnly es, ∀ s : DistributedSystem threeServices, Requested good s ev := by
  intro ev hev s
  obtain ⟨e, -, rfl⟩ := List.mem_map.mp hev
  trivial

theorem asking_requested {good : Route → Value → Prop} {resource : Value}
    (hgood : good .lockAcquire (lockBody resource)) (hresource : resource.truthy = true) :
    ∀ ev ∈ asking resource, ∀ s : DistributedSystem threeServices, Requested good s ev := by
  have hclient : (Value.str "c").truthy = true := rfl
  intro ev hev s
  rcases List.mem_append.mp hev with hev | hev
  · exact raftOnly_requested good _ ev hev s
  · rcases List.mem_cons.mp hev with rfl | hev
    · refine Origin.post .lockAcquire (lockBody resource) "l" hgood ?_
      simp [handle, handleLockAcquire, handleRequest, lockBody, fieldOf, lookup_cons,
        LockType.ofValue?, hresource, hclient]
    · obtain rfl := List.mem_singleton.mp hev
      trivial

/-- The resource is a string, and `b` lets `a` commit the entry. -/
theorem no_poison_string : ∃ s : DistributedSystem threeServices,
    (s.cluster.proc "a").raft.lastApplied = 0 ∧ s.cluster.AllEntries Harmless ∧
      ∀ i, (s.cluster.proc i).raft.InStep := by
  obtain ⟨s, hr, hl⟩ := Runs.exists_of_forall (step threeNodes) (Requested HasHashableResource)
    (DistributedSystem.init threeServices threeNodes)
    (asking (.str "r") ++ raftOnly (push "a" (.append 0) 0 2))
    (fun s => (s.cluster.proc "a").raft.lastApplied = 0)
    (fun ev hev => (List.mem_append.mp hev).elim (asking_requested rfl rfl ev)
      (raftOnly_requested _ _ ev))
    (by decide +kernel)
  exact ⟨s, hl, no_poison hr⟩

theorem no_poison_fails : ¬ ∀ (cfg : ClusterConfig)
    (s : DistributedSystem (services String.length {} cfg.peers)),
    Reach cfg (Requested fun _ _ => True) s → s.cluster.AllEntries Harmless := by
  intro h
  obtain ⟨s, hr, hl⟩ := Runs.exists_of_forall (step threeNodes) (Requested fun _ _ => True)
    (DistributedSystem.init threeServices threeNodes) (asking (.list [.str "r"]))
    (fun s => ((s.cluster.proc "a").raft.log.any fun e =>
      (DistributedLockManager.handleCommit {} e).2) = true)
    (asking_requested trivial rfl) (by decide +kernel)
  obtain ⟨e, he, hraise⟩ := List.any_eq_true.mp hl
  have := ((h threeNodes s hr).node "a").log e he
  rw [this.lockManager] at hraise
  cases hraise

end DistributedNode

end DistributedSync
