import DistributedSync.System.Carries
import DistributedSync.System.Exclusivity

/-!
# Convergence of caches

The entries a node has applied tell which map its cache should hold (`mapOf`). A call in flight may
keep the two apart at its own key: an invalidation has marked its block already, and a `put` keeps
its old block when its own CACHE_INVALIDATE_ALL is applied (`MOESICache.SettledAt`). Where the calls
come back in the order of their entries, the two agree once no call is in flight
(`caches_converge`).
-/

namespace DistributedSync

/-! ## Equal keys -/

theorem LogEntry.applyTo_congr {e : LogEntry} {m : Value → Option Value} {k k' : Value}
    (hm : m k = m k') (h : (k == k') = true) : e.applyTo m k = e.applyTo m k' := by
  rw [applyTo]
  rcases e.cacheEffect with _ | ⟨key, v⟩
  · exact hm
  · dsimp only
    rw [assign, assign, BEq.congr_left h, hm]

theorem mapOf_congr {log : List LogEntry} {k k' : Value} (h : (k == k') = true) :
    mapOf log k = mapOf log k' := by
  induction log using List.reverseRecOn with
  | nil => rfl
  | append_singleton log e ih =>
    rw [mapOf_concat]
    exact LogEntry.applyTo_congr ih h

/-- An entry that spares a node is an invalidation. -/
theorem LogEntry.spares_effect {e : LogEntry} {nodeId : String} {w : Value × Option Value}
    (h : e.spares nodeId = true) (hw : e.cacheEffect = some w) : w.2 = none := by
  rw [spares, Bool.and_eq_true, decide_eq_true_eq] at h
  have hput : ¬e.command = "CACHE_PUT" := by
    rw [h.1]
    decide
  obtain ⟨w', hw', rfl⟩ := Option.map_eq_some_iff.mp hw
  rw [cacheWrite, if_neg hput, if_pos (Or.inr h.1)] at hw'
  obtain ⟨key, -, hkey⟩ := Option.bind_eq_some_iff.mp hw'
  rw [Option.ite_none_right_eq_some] at hkey
  obtain ⟨-, hkey⟩ := hkey
  cases hkey
  rfl

namespace MOESICache

/-! ## Calls in flight -/

/-- The call has marked the block for the key, and will delete it. -/
def Frame.invalidates (k : Value) : Frame → Bool
  | .invalidateBlock key _ => k == key
  | _ => false

/-- The call is a `put` that has asked the other nodes to drop the key, and will store a block. -/
def Frame.replaces (k : Value) : Frame → Bool
  | .broadcastInvalidation _ key _ _ | .replicate _ key _ _ _ => k == key
  | _ => false

theorem Frame.invalidates_congr {k k' : Value} (h : (k == k') = true) (f : Frame) :
    f.invalidates k = f.invalidates k' := by
  cases f <;> simp [invalidates, BEq.congr_left h]

theorem Frame.replaces_congr {k k' : Value} (h : (k == k') = true) (f : Frame) :
    f.replaces k = f.replaces k' := by
  cases f <;> simp [replaces, BEq.congr_left h]

variable {c c' : MOESICache} {m : Value → Option Value} {frames rest : List Frame} {frame : Frame}
  {k key : Value} {now : ℚ}

/-- At key `k` the cache agrees with the map `m`, or a call in flight accounts for the difference.
-/
def SettledAt (c : MOESICache) (m : Value → Option Value) (frames : List Frame) (k : Value) :
    Prop :=
  c.live k = m k ∨ c.live k = none ∧ (∃ f ∈ frames, f.invalidates k = true) ∨
    m k = none ∧ ∃ f ∈ frames, f.replaces k = true

theorem SettledAt.mono (h : c.SettledAt m frames k) (hlive : c'.live k = c.live k)
    (hsub : ∀ f ∈ frames, f.invalidates k = true ∨ f.replaces k = true → f ∈ rest) :
    c'.SettledAt m rest k := by
  rw [SettledAt, hlive]
  rcases h with h | ⟨h, f, hf, hk⟩ | ⟨h, f, hf, hk⟩
  · exact Or.inl h
  · exact Or.inr (Or.inl ⟨h, f, hsub f hf (Or.inl hk), hk⟩)
  · exact Or.inr (Or.inr ⟨h, f, hsub f hf (Or.inr hk), hk⟩)

/-- A `put` may give up if the node has no block that its own CACHE_INVALIDATE_ALL has spared. -/
def MayGiveUp (c : MOESICache) (m : Value → Option Value) (others : List Frame) (key : Value) :
    Prop :=
  m key ≠ none ∨ c.live key = none ∨ ∃ f ∈ others, f.replaces key = true

/-- The call comes back in the order of the entries, of which the node has applied those that make
the map `m`: a `put` stores the block of the last entry for its key, an invalidation deletes a block
that is gone there too, and a call that fails leaves nothing behind. -/
def ReturnsInOrder (c : MOESICache) (m : Value → Option Value) (others : List Frame) :
    Frame → Appended → Prop
  | .acquireExclusive _ _ _ _, _ | .broadcastInvalidation _ _ _ _, .returned _ => True
  | .broadcastInvalidation _ key _ _, .raised => c.MayGiveUp m others key
  | .replicate _ key _ _ block, a =>
    if a = .returned true then m key = block.live? else c.MayGiveUp m others key
  | .invalidateBlock key _, a =>
    if a = .returned true then m key = none
    else m key = none ∨ c.live key ≠ none ∨ ∃ f ∈ others, f.invalidates key = true

instance (c : MOESICache) (m : Value → Option Value) (others : List Frame) (key : Value) :
    Decidable (c.MayGiveUp m others key) := by
  unfold MayGiveUp
  infer_instance

instance (c : MOESICache) (m : Value → Option Value) (others : List Frame) (frame : Frame)
    (a : Appended) : Decidable (c.ReturnsInOrder m others frame a) := by
  rcases frame <;> rcases a <;> unfold ReturnsInOrder <;> infer_instance

theorem SettledAt.drop (h : c.SettledAt m (frame :: rest) k)
    (hi : frame.invalidates k = true → c.live k = none → c.SettledAt m rest k)
    (hr : frame.replaces k = true → m k = none → c.SettledAt m rest k) : c.SettledAt m rest k := by
  rcases h with h | ⟨h, f, hf, hk⟩ | ⟨h, f, hf, hk⟩
  · exact Or.inl h
  · rcases List.mem_cons.mp hf with rfl | hf
    · exact hi hk h
    · exact Or.inr (Or.inl ⟨h, f, hf, hk⟩)
  · rcases List.mem_cons.mp hf with rfl | hf
    · exact hr hk h
    · exact Or.inr (Or.inr ⟨h, f, hf, hk⟩)

/-- A call that is not at the key makes no difference there. -/
theorem SettledAt.drop_other (h : c.SettledAt m (frame :: rest) k)
    (hi : frame.invalidates k = false) (hr : frame.replaces k = false) : c.SettledAt m rest k :=
  h.drop (fun hk => by simp [hi] at hk) fun hk => by simp [hr] at hk

theorem SettledAt.mark (h : c.SettledAt m rest k)
    (hlive : c'.live = DistributedSync.assign c.live key none)
    {caller : Caller} : c'.SettledAt m (.invalidateBlock key caller :: rest) k := by
  by_cases hk : (k == key) = true
  · exact Or.inr (Or.inl ⟨by rw [hlive, assign_self _ hk], _, List.mem_cons_self, hk⟩)
  · exact h.mono (by rw [hlive, assign_ne _ hk]) fun f hf _ => List.mem_cons_of_mem _ hf

/-- An applied entry. A node that an invalidation spares must have a `put` of the key in flight, or
no block. -/
theorem commit_settled (e : LogEntry) (h : ∀ k, c.SettledAt m frames k)
    (hok : e.spares c.nodeId = true → ∀ w ∈ e.cacheEffect,
      c.live w.1 = none ∨ ∃ f ∈ frames, f.replaces w.1 = true) (k : Value) :
    (c.handleCommit now e).1.SettledAt (e.applyTo m) frames k := by
  have hlive := c.handleCommit_live now e
  rcases hw : e.cacheEffect with _ | ⟨key, v⟩
  · have happly : ∀ m, e.applyTo m = m := fun m => by rw [LogEntry.applyTo, hw]
    rw [happly] at hlive ⊢
    exact (h k).mono (by rw [hlive, ite_self]) fun f hf _ => hf
  · have happly : ∀ m, e.applyTo m = DistributedSync.assign m key v := fun m => by
      rw [LogEntry.applyTo, hw]
    rw [happly] at hlive ⊢
    by_cases hk : (k == key) = true
    · by_cases hs : e.spares c.nodeId = true
      · rw [if_pos hs] at hlive
        obtain rfl : v = none := LogEntry.spares_effect hs hw
        rcases hok hs _ hw with hnone | ⟨f, hf, hrep⟩
        · exact Or.inl (by rw [hlive, assign_self _ hk, c.live_congr hk, hnone])
        · exact Or.inr (Or.inr ⟨assign_self _ hk _, f, hf, by rwa [f.replaces_congr hk]⟩)
      · rw [if_neg hs] at hlive
        exact Or.inl (by rw [hlive, assign_self _ hk, assign_self _ hk])
    · have hsame : (c.handleCommit now e).1.live k = c.live k := by
        rw [hlive]
        split
        · rfl
        · exact assign_ne _ hk _
      have hkept : (c.handleCommit now e).1.SettledAt m frames k :=
        (h k).mono hsame fun f hf _ => hf
      rwa [SettledAt, assign_ne _ hk]

section Steps

variable (hm : ∀ k k', (k == k') = true → m k = m k')

include hm

theorem MayGiveUp.settled (hok : c.MayGiveUp m rest key) (h : c.SettledAt m (frame :: rest) k)
    (hi : frame.invalidates k = false) (hr : frame.replaces k = (k == key)) :
    c.SettledAt m rest k := by
  refine h.drop (fun hk => by simp [hi] at hk) fun hk hnone => ?_
  rw [hr] at hk
  rcases hok with hok | hok | ⟨f, hf, hok⟩
  · rw [← hm k key hk] at hok
    exact absurd hnone hok
  · rw [← c.live_congr hk] at hok
    exact Or.inl (hok.trans hnone.symm)
  · rw [← f.replaces_congr hk] at hok
    exact Or.inr (Or.inr ⟨hnone, f, hf, hok⟩)

/-- A step that gives the key what the map `m` says, and leaves the other keys alone. -/
theorem SettledAt.assign {v : Option Value} (h : c.SettledAt m (frame :: rest) k)
    (hlive : c'.live = assign c.live key v) (hv : m key = v)
    (hi : (k == key) = false → frame.invalidates k = false)
    (hr : (k == key) = false → frame.replaces k = false) : c'.SettledAt m rest k := by
  by_cases hk : (k == key) = true
  · exact Or.inl (by rw [hlive, assign_self _ hk, hm k key hk, hv])
  · rw [Bool.not_eq_true] at hk
    refine (h.drop_other (hi hk) (hr hk)).mono ?_ fun f hf _ => hf
    rw [hlive, assign_ne _ (by rw [hk]; exact Bool.false_ne_true)]

theorem resume_settled {a : Appended} (h : ∀ k, c.SettledAt m (frame :: rest) k)
    (hok : c.ReturnsInOrder m rest frame a) (k : Value) :
    (c.resume now frame a).1.SettledAt m ((c.resume now frame a).2.frame?.toList ++ rest) k := by
  cases frame with
  | acquireExclusive nodeId key value ttl =>
    have hrest := (h k).drop_other rfl rfl
    rcases a with ⟨_ | _⟩ | _
    · exact hrest
    · exact hrest.mono rfl fun f hf _ => List.mem_cons_of_mem _ hf
    · exact hrest
  | broadcastInvalidation nodeId key value ttl =>
    rcases a with ⟨success⟩ | _
    · -- the next frame of the `put` accounts for what this one did
      have : (c.resume now (.broadcastInvalidation nodeId key value ttl)
          (.returned success)).1.live = c.live := live_of_cache rfl
      rcases h k with hk | ⟨hk, f, hf, hi⟩ | ⟨hk, f, hf, hr⟩
      · exact Or.inl ((congrFun this k).trans hk)
      · refine Or.inr (Or.inl ⟨(congrFun this k).trans hk, f, ?_, hi⟩)
        rcases List.mem_cons.mp hf with rfl | hf
        · cases hi
        · exact List.mem_cons_of_mem _ hf
      · rcases List.mem_cons.mp hf with rfl | hf
        · exact Or.inr (Or.inr ⟨hk, _, List.mem_cons_self, hr⟩)
        · exact Or.inr (Or.inr ⟨hk, f, List.mem_cons_of_mem _ hf, hr⟩)
    · exact MayGiveUp.settled hm hok (h k) rfl rfl
  | replicate nodeId key value ttl block =>
    rcases a with ⟨_ | _⟩ | _
    · exact MayGiveUp.settled hm hok (h k) rfl rfl
    · obtain ⟨c', hc, -, hstore⟩ := c.store_cases now key value block
      have hc' : c'.SettledAt m rest k :=
        (h k).assign hm (live_setItem c hc) hok (fun _ => rfl) fun hk => hk
      change (c.store key value block now).1.SettledAt m
        ((c.store key value block now).2.frame?.toList ++ rest) k
      rcases hstore with ⟨heq, -⟩ | ⟨victim, b, -, -, -, heq⟩
      · rw [heq]
        exact hc'
      · rw [heq]
        exact hc'.mark (live_setItem c' (b := { b with state := .invalid }) rfl)
    · exact MayGiveUp.settled hm hok (h k) rfl rfl
  | invalidateBlock key caller =>
    have hgive : (m key = none ∨ c.live key ≠ none ∨ ∃ f ∈ rest, f.invalidates key = true) →
        c.SettledAt m rest k := by
      intro hok
      refine (h k).drop (fun hk hnone => ?_) fun hk => by cases hk
      rw [c.live_congr hk] at hnone
      rcases hok with hok | hok | ⟨f, hf, hok⟩
      · exact Or.inl (by rw [c.live_congr hk, hm k key hk, hnone, hok])
      · exact absurd hnone hok
      · rw [← f.invalidates_congr hk] at hok
        exact Or.inr (Or.inl ⟨by rw [c.live_congr hk, hnone], f, hf, hok⟩)
    rcases a with ⟨_ | _⟩ | _
    · exact hgive hok
    · obtain ⟨hlive, hout⟩ := c.resume_invalidateBlock now key caller
      rw [hout]
      exact (h k).assign hm hlive hok (fun hk => hk) fun _ => rfl
    · exact hgive hok

end Steps

theorem start_settled {op : Op} (hop : ∀ key fromNode, op ≠ .handleInvalidation key fromNode)
    (h : c.SettledAt m frames k) :
    (c.start now op).1.SettledAt m ((c.start now op).2.frame?.toList ++ frames) k := by
  cases op with
  | get key =>
    rcases c.get_cases now key with ⟨hc, -⟩ | ⟨b, hb, hs, hc, -⟩ | ⟨b, -, -, -, hc, hout⟩
    · exact h.mono (congrFun (live_of_cache hc) k) fun f hf _ => List.mem_append_right _ hf
    · refine h.mono ?_ fun f hf _ => List.mem_append_right _ hf
      rw [start, live_delItem c hc, c.assign_live]
      simp [live, hb, CacheBlock.live?, hs]
    · rw [start, hout]
      exact h.mark (live_setItem c (b := { b with state := .invalid }) hc)
  | put key value ttl =>
    refine h.mono ?_ fun f hf _ => List.mem_append_right _ hf
    rw [start, put_fst]
  | handleInvalidation key fromNode => exact absurd rfl (hop key fromNode)

/-! ## Blocks that do not expire -/

/-- No block of the dictionary expires. -/
def Lasting (d : List (Value × CacheBlock)) : Prop :=
  ∀ k b, d.lookup k = some b → b.ttl = .int 0

theorem Lasting.setItem {d : List (Value × CacheBlock)} {b : CacheBlock} (h : Lasting d)
    (hb : b.ttl = .int 0) : Lasting (DistributedSync.setItem d key b) :=
  forall_setItem h fun _ _ => hb

theorem keeps_lasting : Keeps Lasting := keeps_forall fun _ _ h => h

/-- A `get` that finds no expired block answers what the map says. -/
theorem get_live (h : Lasting c.cache) (key : Value) :
    (c.get key now).2 =
      .done (if key.hashable then .get key ((c.live key).getD .null) else .raised) := by
  unfold get live
  split
  · rcases hb : c.cache.lookup key with _ | b
    · rfl
    · dsimp only [Option.bind_some, CacheBlock.live?]
      split
      · rfl
      · rw [h key b hb]
        simp [Value.num?]
  · rfl

def Frame.Lasting : Frame → Prop
  | .acquireExclusive _ _ _ ttl | .broadcastInvalidation _ _ _ ttl => ttl = .int 0
  | .replicate _ _ _ ttl block => ttl = .int 0 ∧ block.ttl = .int 0
  | .invalidateBlock _ _ => True

theorem start_lasting {op : Op} (hop : ∀ key value ttl, op = .put key value ttl → ttl = .int 0) :
    ∀ f ∈ (c.start now op).2.frame?, f.Lasting := by
  intro f hf
  cases start_opens c now hf with
  | acquire key value ttl ttl' h =>
    obtain rfl := hop key value ttl rfl
    exact h (by simp)
  | replicate key value ttl ttl' block h hb =>
    obtain rfl := hop key value ttl rfl
    exact ⟨h (by simp), hb.trans (h (by simp))⟩
  | expire key => trivial

theorem resume_lasting {a : Appended} (h : frame.Lasting) :
    ∀ f ∈ (c.resume now frame a).2.frame?, f.Lasting := by
  intro f hf
  cases resume_next c now hf with
  | broadcast => exact h
  | replicate nodeId key value ttl block hb => exact ⟨h, hb.trans h⟩
  | evict => trivial

end MOESICache

def LogEntry.Lasting (e : LogEntry) : Prop :=
  ∀ (now : ℚ) (key : Value) (b : CacheBlock), e.cacheWrite now = some (key, some b) → b.ttl = .int 0

theorem LogEntry.lasting_of_request {e : LogEntry} {f : MOESICache.Frame} (h : f.Lasting)
    (he : (e.command, e.data) = MOESICache.request f) : e.Lasting := by
  intro now key b hw
  obtain ⟨nodeId, key', value, ttl, block, rfl, -, httl⟩ := MOESICache.put_of_request he hw
  rw [httl, h.1]

/-! ## One node of a cluster -/

open DistributedSystem DistributedNode

variable {md5 : String → ℕ} {config : SystemConfig} {peers : String → List String}

/-- The calls of the cache are of `get`, and of `put` with a time to live of 0. -/
def PutsAndGets (_ : String → NodeView (services md5 config peers)) (_ : String) :
    Act (services md5 config peers) → Prop
  | .start _ (.cache (.put _ _ ttl)) => ttl = .int 0
  | .start _ (.cache (.handleInvalidation _ _)) => False
  | _ => True

/-- An invalidation of the node itself is applied while the `put` is in flight that has asked for
it, or finds no block, and a call comes back in the order of the entries. -/
def InOrder (f : String → NodeView (services md5 config peers)) (i : String) :
    Act (services md5 config peers) → Prop
  | .commit _ e => e.spares (f i).cache.nodeId = true → ∀ w ∈ e.cacheEffect,
      (f i).cache.live w.1 = none ∨ ∃ frame ∈ (f i).cacheFrames, frame.replaces w.1 = true
  | .resume _ k a => ∀ frame ∈ (f i).frameAt k,
      (f i).cache.ReturnsInOrder (mapOf (f i).delivered) ((f i).others k) frame a
  | _ => True

instance (f : String → NodeView (services md5 config peers)) (i : String)
    (a : Act (services md5 config peers)) : Decidable (PutsAndGets f i a) := by
  unfold PutsAndGets
  split <;> infer_instance

instance (f : String → NodeView (services md5 config peers)) (i : String) :
    (a : Act (services md5 config peers)) → Decidable (InOrder f i a)
  | .commit _ _ => inferInstanceAs (Decidable (_ → ∀ _ ∈ _, _))
  | .resume _ _ _ => inferInstanceAs (Decidable (∀ _ ∈ _, _))
  | .start _ _ | .wait => inferInstanceAs (Decidable True)

namespace NodeView

variable {v : NodeView (services md5 config peers)}
  {f : String → NodeView (services md5 config peers)}
  {i : String} {a : Act (services md5 config peers)}

/-- At every key the cache agrees with the applied entries, or a call in flight accounts for the
difference. -/
def Settled (v : NodeView (services md5 config peers)) : Prop :=
  ∀ k, v.cache.SettledAt (mapOf v.delivered) v.cacheFrames k

theorem Settled.act (h : (f i).Settled) (hcalls : PutsAndGets f i a) (hok : InOrder f i a) :
    ((f i).act a).Settled := by
  intro k
  cases (f i).cacheStep a with
  | call now op hc hf hd =>
    rw [hc, hf, hd]
    refine MOESICache.start_settled (fun key fromNode hop => ?_) (h k)
    rw [hop] at hcalls
    exact hcalls
  | commit now e hc hf hd =>
    rw [hc, hf, hd, mapOf_concat]
    exact MOESICache.commit_settled e h hok k
  | resume now j a frame hj hc hf hd =>
    rw [hc, hf, hd]
    refine MOESICache.resume_settled (fun _ _ => mapOf_congr) (fun k => ?_) (hok frame hj) k
    exact (h k).mono rfl fun g hg _ => ((f i).frames_perm hj).mem_iff.mp hg
  | other a hc hf hd =>
    rw [hc, hd]
    exact (h k).mono rfl fun g hg _ => hf.mem_iff.mpr hg

/-- No call in flight stores a block that expires, and none is stored if no entry puts one. -/
structure Lasting (v : NodeView (services md5 config peers)) : Prop where
  frames : ∀ f ∈ v.cacheFrames, f.Lasting
  blocks : (∀ e ∈ v.delivered, e.Lasting) → MOESICache.Lasting v.cache.cache

end NodeView

theorem keepsBlocks_lasting :
    KeepsBlocks (fun op => ∀ key value ttl, op = .put key value ttl → ttl = .int 0)
      MOESICache.Lasting MOESICache.Frame.Lasting LogEntry.Lasting where
  keeps := MOESICache.keeps_lasting
  init k b hb := by cases hb
  start {c now op} hop := MOESICache.start_lasting hop
  resume a h := MOESICache.resume_lasting h
  store h hd := hd.setItem h.2
  request h he := LogEntry.lasting_of_request h he
  other hw now key b h := by
    rw [hw] at h
    cases h
  put he hw hd := hd.setItem (he _ _ _ hw)

/-! ## Convergence -/

/-- The two caches hold the same map, and `get` answers on both what the map says. -/
structure Converged (c c' : MOESICache) (m : Value → Option Value) : Prop where
  live : c.live = m ∧ c'.live = m
  get : ∀ key now now', (c.get key now).2 = (c'.get key now').2 ∧
    (c.get key now).2 = .done (if key.hashable then .get key ((m key).getD .null) else .raised)

variable {cfg : ClusterConfig} {s : DistributedSystem (services md5 config cfg.peers)}
  {i j : String}

theorem lasting_reach {cond : (String → NodeView (services md5 config cfg.peers)) → String →
      Act (services md5 config cfg.peers) → Prop} (hc : ∀ f i a, cond f i a → PutsAndGets f i a)
    (hr : Reach cfg (Locally cfg cond) s) (i : String) :
    MOESICache.Lasting (cacheOf s i).cache := by
  have hok : ∀ f i now op, cond f i (.start now (.cache op)) →
      ∀ key value ttl, op = .put key value ttl → ttl = .int 0 := by
    rintro f i now op h key value ttl rfl
    exact hc _ _ _ h
  obtain ⟨hframes, hblocks⟩ := keepsBlocks_lasting.view hok hr i
  have hview : (s.view i).Lasting := ⟨hframes, hblocks⟩
  exact hview.blocks ((keepsBlocks_lasting.entries hok hr).node i).delivered

/-- Where calls come back in the order of their entries, two nodes that have applied the same
entries and have no call of the cache in flight hold the same map. -/
theorem caches_converge
    (hr : Reach cfg (Locally cfg fun f i a => PutsAndGets f i a ∧ InOrder f i a) s)
    (hd : (s.cluster.proc i).raft.delivered = (s.cluster.proc j).raft.delivered)
    (hi : (s.view i).cacheFrames = []) (hj : (s.view j).cacheFrames = []) :
    Converged (cacheOf s i) (cacheOf s j) (mapOf (s.cluster.proc i).raft.delivered) := by
  have hlive : ∀ i, (s.view i).cacheFrames = [] →
      (cacheOf s i).live = mapOf (s.cluster.proc i).raft.delivered := by
    intro i hi
    have hset : (s.view i).Settled := hr.view (P := fun _ v => v.Settled)
      (fun i k => Or.inl rfl) (fun f i a h ha => h.act ha.1 ha.2) i
    funext k
    rcases hset k with h | ⟨-, f, hf, -⟩ | ⟨-, f, hf, -⟩
    · exact h
    · rw [hi] at hf
      cases hf
    · rw [hi] at hf
      cases hf
  have hget : ∀ i key now, ((cacheOf s i).get key now).2 =
      .done (if key.hashable then .get key (((cacheOf s i).live key).getD .null) else .raised) :=
    fun i key now => MOESICache.get_live (lasting_reach (fun _ _ _ h => h.1) hr i) key
  refine ⟨⟨hlive i hi, hd ▸ hlive j hj⟩, fun key now now' => ?_⟩
  rw [hget i key now, hget j key now', hlive i hi, hlive j hj, hd]
  exact ⟨rfl, rfl⟩

/-! ## Concrete runs -/

/-- The leader and node `b` have applied a `put`. -/
theorem caches_converge_put : ∃ s : DistributedSystem threeServices,
    (cacheOf s "b").live (.str "k") = some (.str "v") ∧
      Converged (cacheOf s "a") (cacheOf s "b") (mapOf (s.cluster.proc "a").raft.delivered) := by
  obtain ⟨s, hr, hk, hd, ha, hb⟩ := Runs.exists_of_checked (step threeNodes)
    (Locally threeNodes fun f i a => PutsAndGets f i a ∧ InOrder f i a)
    (DistributedSystem.init threeServices threeNodes)
    (putK ++ raftSteps (.heartbeat "a" :: push "a" .heartbeat 0 8))
    (fun s => (cacheOf s "b").live (.str "k") = some (.str "v") ∧
      (s.cluster.proc "a").raft.delivered = (s.cluster.proc "b").raft.delivered ∧
      (s.view "a").cacheFrames.length = 0 ∧ (s.view "b").cacheFrames.length = 0)
    (by decide +kernel)
  exact ⟨s, hk, caches_converge hr hd (List.eq_nil_of_length_eq_zero ha)
    (List.eq_nil_of_length_eq_zero hb)⟩

/-- The call at position 0 of leader `a` comes back unheard, and its coroutine makes the next call.
-/
def nextUnheard : List (SystemEvent threeServices) :=
  raftSteps (pushInVain "a" (.append 0) 0 ++ pushInVain "a" (.append 0) 1 ++
    [.returnAppend "a" 0]) ++ [.append "a" 0 never]

/-- Two overlapping puts of one key: the entries of the first come first, and its last call comes
back last. -/
def overlappingPuts : List (SystemEvent threeServices) :=
  raftSteps electA ++ [putOnA "k" "v", .append "a" 0 never, putOnA "k" "w", .append "a" 0 never] ++
    nextUnheard ++ nextUnheard ++ nextUnheard ++ nextUnheard ++
    raftSteps (push "a" (.append 1) 0 10 ++ pushInVain "a" (.append 1) 1 ++
      pushInVain "a" (.append 0) 0 ++ pushInVain "a" (.append 0) 1 ++
      [.returnAppend "a" 1, .returnAppend "a" 0, .heartbeat "a"] ++ push "a" .heartbeat 0 14)

/-- Both nodes have applied all entries, the last of which puts "w", and the leader has "v". -/
theorem caches_converge_fails : ¬ ∀ (cfg : ClusterConfig)
    (s : DistributedSystem (services String.length {} cfg.peers)),
    Reach cfg (Locally cfg PutsAndGets) s → ∀ i j,
    (s.cluster.proc i).raft.delivered = (s.cluster.proc j).raft.delivered →
    (s.view i).cacheFrames = [] → (s.view j).cacheFrames = [] →
    Converged (cacheOf s i) (cacheOf s j) (mapOf (s.cluster.proc i).raft.delivered) := by
  intro h
  obtain ⟨s, hr, ⟨hka, hkb⟩, hd, ha, hb⟩ := Runs.exists_of_checked (step threeNodes)
    (Locally threeNodes PutsAndGets) (DistributedSystem.init threeServices threeNodes)
    overlappingPuts
    (fun s => ((cacheOf s "a").live (.str "k") = some (.str "v") ∧
      (cacheOf s "b").live (.str "k") = some (.str "w")) ∧
      (s.cluster.proc "a").raft.delivered = (s.cluster.proc "b").raft.delivered ∧
      (s.view "a").cacheFrames.length = 0 ∧ (s.view "b").cacheFrames.length = 0)
    (by decide +kernel)
  obtain ⟨⟨hla, hlb⟩, -⟩ := h threeNodes s hr "a" "b" hd (List.eq_nil_of_length_eq_zero ha)
    (List.eq_nil_of_length_eq_zero hb)
  rw [hla, ← hlb, hkb] at hka
  exact absurd hka (by decide)

end DistributedSync
