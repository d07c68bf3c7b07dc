import DistributedSync.Raft.StateMachineSafety
import DistributedSync.System.Convergence

/-!
# Capacity of caches

Applied entries add blocks without a look at the size of the cache; the `put` that has logged them
evicts one block when it comes back. So the size of a cache depends on what the puts leave behind in
the log: the keys that the entries hold (`keysOf`), and the node whose `put` has made them too many
(`exceededBy`). Where such a `put` is in flight until the keys are few enough again, no cache is too
large once all puts have returned and all entries are applied (`cache_within_capacity`).
-/

namespace DistributedSync

/-! ## The keys of a log -/

section Keys

variable {α : Type*} [BEq α] [EquivBEq α]

theorem contains_addElem {s : List α} {x k : α} :
    (addElem s x).contains k = (k == x || s.contains k) := by
  unfold addElem
  split
  · next hx =>
    obtain ⟨y, hy, hxy⟩ := List.contains_iff_exists_mem_beq.mp hx
    by_cases hk : (k == x) = true
    · rw [hk, Bool.true_or, List.contains_iff_exists_mem_beq]
      exact ⟨y, hy, BEq.trans hk hxy⟩
    · rw [Bool.not_eq_true] at hk
      rw [hk, Bool.false_or]
  · rw [List.contains_append, List.contains_cons, List.contains_nil, Bool.or_false, Bool.or_comm]

theorem contains_remove {s : List α} {x k : α} :
    (s.filter fun y => !(y == x)).contains k = (s.contains k && !(k == x)) := by
  rw [Bool.eq_iff_iff, Bool.and_eq_true, List.contains_iff_exists_mem_beq,
    List.contains_iff_exists_mem_beq, Bool.not_eq_true']
  constructor
  · rintro ⟨y, hy, hk⟩
    obtain ⟨hy, hx⟩ := List.mem_filter.mp hy
    rw [Bool.not_eq_true'] at hx
    exact ⟨⟨y, hy, hk⟩, by rw [BEq.congr_left hk, hx]⟩
  · rintro ⟨⟨y, hy, hk⟩, hx⟩
    refine ⟨y, List.mem_filter.mpr ⟨hy, ?_⟩, hk⟩
    rw [Bool.not_eq_true', ← BEq.congr_left hk, hx]

theorem length_le_of_contains {s t : List α} (hs : s.Pairwise fun x y => (x == y) = false)
    (hsub : ∀ x ∈ s, t.contains x = true) : s.length ≤ t.length := by
  induction s generalizing t with
  | nil => exact Nat.zero_le _
  | cons x s ih =>
    rw [List.pairwise_cons] at hs
    obtain ⟨y, hy, hxy⟩ := List.contains_iff_exists_mem_beq.mp (hsub x List.mem_cons_self)
    have hlt : (t.filter fun y => !(y == x)).length < t.length := by
      refine List.length_filter_lt_length_iff_exists.mpr ⟨y, hy, ?_⟩
      rw [BEq.comm, hxy]
      exact Bool.false_ne_true
    refine Nat.lt_of_le_of_lt (ih hs.2 fun z hz => ?_) hlt
    rw [contains_remove, hsub z (List.mem_cons_of_mem _ hz), BEq.comm, hs.1 z hz]
    rfl

end Keys

namespace LogEntry

/-- The keys after an applied entry. -/
def updateKeys (e : LogEntry) (keys : List Value) : List Value :=
  match e.cacheWrite 0 with
  | none => keys
  | some (key, some _) => addElem keys key
  | some (key, none) => keys.filter fun k => !(k == key)

/-- The owner of the block that the entry puts. -/
def blockOwner (e : LogEntry) : Option Value :=
  (e.cacheWrite 0).bind fun w => w.2.map CacheBlock.ownerNode

end LogEntry

/-- The keys that the entries of a log leave: those put and not invalidated since. -/
def keysOf (log : List LogEntry) : List Value := log.foldl (fun keys e => e.updateKeys keys) []

theorem keysOf_concat (log : List LogEntry) (e : LogEntry) :
    keysOf (log ++ [e]) = e.updateKeys (keysOf log) := List.foldl_append ..

/-- While the log has more than `max` keys: the owner of the last block that has added one. -/
def exceededBy (max : ℤ) (log : List LogEntry) : Option Value :=
  (log.foldl (fun s e =>
    let keys := e.updateKeys s.1
    (keys, if (keys.length : ℤ) ≤ max then none
      else if s.1.length < keys.length then e.blockOwner else s.2)) ([], none)).2

theorem exceededBy_concat (max : ℤ) (log : List LogEntry) (e : LogEntry) :
    exceededBy max (log ++ [e]) = if ((keysOf (log ++ [e])).length : ℤ) ≤ max then none
      else if (keysOf log).length < (keysOf (log ++ [e])).length then e.blockOwner
      else exceededBy max log := by
  have hkeys : ∀ log : List LogEntry, (log.foldl (fun s e =>
      let keys := e.updateKeys s.1
      (keys, if (keys.length : ℤ) ≤ max then none
        else if s.1.length < keys.length then e.blockOwner else s.2)) ([], none)).1 =
      keysOf log := by
    intro log
    induction log using List.reverseRecOn with
    | nil => rfl
    | append_singleton log e ih =>
      rw [List.foldl_append, keysOf_concat, ← ih]
      rfl
  rw [keysOf_concat, ← hkeys log, exceededBy, List.foldl_append]
  rfl

/-- A log that nobody has made too large is not. -/
theorem length_keysOf_le {max : ℤ} (hmax : 0 ≤ max) {log : List LogEntry}
    (h : exceededBy max log = none) : ((keysOf log).length : ℤ) ≤ max := by
  induction log using List.reverseRecOn with
  | nil => exact hmax
  | append_singleton log e ih =>
    rw [exceededBy_concat] at h
    split at h
    · next hle => exact hle
    · next hlt =>
      split at h
      · next hgrow =>
        -- only a block adds a key, and it has an owner
        rw [keysOf_concat, LogEntry.updateKeys] at hgrow
        unfold LogEntry.blockOwner at h
        rcases hw : e.cacheWrite 0 with _ | ⟨key, _ | b⟩ <;> rw [hw] at hgrow h
        · exact absurd hgrow (lt_irrefl _)
        · exact absurd (List.length_filter_le _ _) (not_le.mpr hgrow)
        · cases h
      · next hsame =>
        have := ih h
        omega

theorem exceededBy_owner {max : ℤ} {log : List LogEntry} {owner : Value}
    (h : exceededBy max log = some owner) : ∃ e ∈ log, e.blockOwner = some owner := by
  induction log using List.reverseRecOn with
  | nil => cases h
  | append_singleton log e ih =>
    rw [exceededBy_concat] at h
    split at h
    · cases h
    · split at h
      · exact ⟨e, by simp, h⟩
      · obtain ⟨e', he', hown⟩ := ih h
        exact ⟨e', List.mem_append_left _ he', hown⟩

/-! ## One cache -/

namespace MOESICache

variable {c c' : MOESICache} {keys : List Value} {frames rest : List Frame} {frame : Frame}
  {k key : Value} {now : ℚ}

/-- The dictionary has a block for the key, of any state. -/
def has (c : MOESICache) (k : Value) : Bool := (c.cache.lookup k).isSome

/-- A call of `put`, at any of its calls of `append_entry`. -/
def Frame.isPut : Frame → Bool
  | .invalidateBlock _ (.get _) => false
  | _ => true

/-- The key of a `put` that ends without storing its block, though it has asked the other nodes to
drop theirs. -/
def Frame.abandons : Frame → Appended → Option Value
  | .replicate _ key _ _ _, .returned false | .replicate _ key _ _ _, .raised
  | .broadcastInvalidation _ key _ _, .raised => some key
  | _, _ => none

/-- Storing the block makes the cache too large, and the key to evict is truthy. -/
def evicts (c : MOESICache) (key : Value) (block : CacheBlock) (now : ℚ) : Bool :=
  let cache := setItem c.cache key block
  c.maxSize < cache.length &&
    ((c.evictionPolicy.access key now).evict (cache.map Prod.fst)).any Value.truthy

/-- The coroutine that comes back does not call `append_entry` again. -/
def Frame.ends (c : MOESICache) (now : ℚ) : Frame → Appended → Bool
  | _, .raised => true
  | .acquireExclusive _ _ _ _, .returned success => !success
  | .broadcastInvalidation _ _ _ _, .returned _ => false
  | .replicate _ key _ _ block, .returned success => !(success && c.evicts key block now)
  | .invalidateBlock _ _, .returned _ => true

theorem store_evicts (value : Value) {block : CacheBlock} (h : c.evicts key block now = true) :
    ∃ victim, (c.store key value block now).2.frame? =
      some (.invalidateBlock victim (.put key value)) := by
  rw [evicts, Bool.and_eq_true, decide_eq_true_eq] at h
  obtain ⟨hlen, hvictim⟩ := h
  obtain ⟨victim, hv, htruthy⟩ := (Option.any_eq_true _ _).mp hvictim
  obtain ⟨b, hb⟩ := lookup_isSome_of_mem (evict_mem hv)
  refine ⟨victim, ?_⟩
  unfold store
  simp only [hlen, if_true, hv, htruthy, invalidateBlock, hb, Outcome.frame?]

/-- A `put` that does not end is in flight again. -/
theorem resume_isPut {a : Appended} (hput : frame.isPut = true)
    (hends : frame.ends c now a = false) :
    ∃ f ∈ (c.resume now frame a).2.frame?, f.isPut = true := by
  rcases a with ⟨success⟩ | _
  swap
  · cases frame <;> cases hends
  cases frame with
  | acquireExclusive nodeId key value ttl =>
    cases success
    · cases hends
    · exact ⟨_, rfl, rfl⟩
  | broadcastInvalidation nodeId key value ttl => exact ⟨_, rfl, rfl⟩
  | replicate nodeId key value ttl block =>
    cases success
    · cases hends
    · have hevicts : c.evicts key block now = true := by simpa [Frame.ends] using hends
      obtain ⟨victim, hv⟩ := store_evicts value hevicts
      exact ⟨_, hv, rfl⟩
  | invalidateBlock key caller => cases hends

/-- The dictionary has the keys of the applied entries at most, but for those of puts in flight. -/
def WithinKeys (c : MOESICache) (keys : List Value) (frames : List Frame) : Prop :=
  ∀ k, c.has k = true → keys.contains k = true ∨ ∃ f ∈ frames, f.replaces k = true

theorem has_congr {k k' : Value} (h : (k == k') = true) : c.has k = c.has k' := by
  rw [has, lookup_congr h, has]

theorem contains_congr {k k' : Value} (h : (k == k') = true) :
    keys.contains k = keys.contains k' := by
  induction keys with
  | nil => rfl
  | cons x keys ih => rw [List.contains_cons, List.contains_cons, BEq.congr_left h, ih]

theorem keeps_keys (good : Value → Prop) :
    Keeps fun d => ∀ k, (d.lookup k).isSome = true → good k where
  mark {d key b} h hb k hk := by
    rw [lookup_setItem] at hk
    split at hk
    · next heq => exact h k (by rw [lookup_congr heq, hb]; rfl)
    · exact h k hk
  delete h k hk := by
    rw [lookup_delItem] at hk
    split at hk
    · cases hk
    · exact h k hk

theorem WithinKeys.start (h : c.WithinKeys keys frames) (op : Op) :
    (c.start now op).1.WithinKeys keys ((c.start now op).2.frame?.toList ++ frames) := by
  refine (keeps_keys _).start (fun k hk => ?_) op
  exact (h k hk).imp_right fun ⟨f, hf, hr⟩ => ⟨f, List.mem_append_right _ hf, hr⟩

/-- A coroutine that goes on stores a key of the applied entries, and one that gives up has none of
another kind. -/
theorem WithinKeys.resume {a : Appended} (h : c.WithinKeys keys (frame :: rest))
    (hstore : ∀ key ∈ frame.stores a, keys.contains key = true)
    (hgive : ∀ key ∈ frame.abandons a, c.has key = false ∨ keys.contains key = true ∨
      ∃ f ∈ rest, f.replaces key = true) :
    (c.resume now frame a).1.WithinKeys keys ((c.resume now frame a).2.frame?.toList ++ rest) := by
  -- the call that comes back accounts for no key any more
  have hgood : ∀ k, c.has k = true → keys.contains k = true ∨
      ∃ f ∈ (c.resume now frame a).2.frame?.toList ++ rest, f.replaces k = true := by
    intro k hk
    rcases h k hk with hkey | ⟨f, hf, hr⟩
    · exact Or.inl hkey
    rcases List.mem_cons.mp hf with rfl | hf
    swap
    · exact Or.inr ⟨f, List.mem_append_right _ hf, hr⟩
    have hgive' : ∀ key ∈ f.abandons a, (k == key) = true → keys.contains k = true ∨
        ∃ g ∈ (c.resume now f a).2.frame?.toList ++ rest, g.replaces k = true := by
      intro key hkey heq
      rcases hgive key hkey with hno | hkey | ⟨g, hg, hr⟩
      · rw [has_congr heq, hno] at hk
        cases hk
      · exact Or.inl (by rw [contains_congr heq, hkey])
      · exact Or.inr ⟨g, List.mem_append_right _ hg, by rw [g.replaces_congr heq, hr]⟩
    cases f with
    | acquireExclusive | invalidateBlock => cases hr
    | broadcastInvalidation nodeId key value ttl =>
      rcases a with ⟨success⟩ | _
      · exact Or.inr ⟨_, List.mem_cons_self, hr⟩
      · exact hgive' key rfl hr
    | replicate nodeId key value ttl block =>
      rcases a with ⟨_ | _⟩ | _
      · exact hgive' key rfl hr
      · exact Or.inl ((contains_congr hr).trans (hstore key rfl))
      · exact hgive' key rfl hr
  refine (keeps_keys _).resume hgood fun nodeId key value ttl block hf ha k hk => ?_
  rw [lookup_setItem] at hk
  split at hk
  · next heq =>
    subst hf ha
    exact Or.inl ((contains_congr heq).trans (hstore key rfl))
  · exact hgood k hk

/-- An applied entry does to the keys of the dictionary what it does to those of the log. A node
that an invalidation spares must have a `put` of the key in flight, or no block. -/
theorem WithinKeys.commit (h : c.WithinKeys keys frames) (e : LogEntry)
    (hok : e.spares c.nodeId = true → ∀ w ∈ e.cacheWrite 0,
      c.has w.1 = false ∨ ∃ f ∈ frames, f.replaces w.1 = true) :
    (c.handleCommit now e).1.WithinKeys (e.updateKeys keys) frames := by
  have hcache := c.handleCommit_cache now e
  rw [LogEntry.cacheWrite_now] at hcache
  intro k hk
  rw [has, hcache] at hk
  unfold LogEntry.updateKeys
  rcases hw : e.cacheWrite 0 with _ | ⟨key, _ | b⟩ <;> rw [hw] at hk hok
  · rw [Option.map_none, ite_self] at hk
    exact h k hk
  · dsimp only [Option.map_some, Option.map_none] at hk ⊢
    rw [contains_remove]
    by_cases heq : (k == key) = true
    · split at hk
      · next hs =>
        rcases hok hs _ rfl with hno | ⟨f, hf, hr⟩
        · rw [← has_congr heq] at hno
          exact absurd (hno.symm.trans hk) Bool.false_ne_true
        · exact Or.inr ⟨f, hf, by rw [f.replaces_congr heq, hr]⟩
      · rw [lookup_delItem, if_pos heq] at hk
        cases hk
    · have hkey : c.has k = true := by
        split at hk
        · exact hk
        · rwa [lookup_delItem, if_neg heq] at hk
      rw [Bool.not_eq_true] at heq
      rw [heq, Bool.not_false, Bool.and_true]
      exact h k hkey
  · dsimp only [Option.map_some] at hk ⊢
    rw [contains_addElem]
    by_cases heq : (k == key) = true
    · rw [heq, Bool.true_or]
      exact Or.inl rfl
    · have hkey : c.has k = true := by
        split at hk
        · exact hk
        · rwa [lookup_setItem, if_neg heq] at hk
      rw [Bool.not_eq_true] at heq
      rw [heq, Bool.false_or]
      exact h k hkey

def DistinctKeys (d : List (Value × CacheBlock)) : Prop :=
  d.Pairwise fun p q => (p.1 == q.1) = false

theorem DistinctKeys.setItem {d : List (Value × CacheBlock)} (h : DistinctKeys d) (key : Value)
    (b : CacheBlock) : DistinctKeys (DistributedSync.setItem d key b) := by
  have hd : d.Pairwise fun p q => (p.1 == q.1) = false ∧ True := h.imp fun hpq => ⟨hpq, trivial⟩
  have := pairwise_setItem (k := key) (v := b) (R := fun _ _ => True) hd
    fun p _ _ => ⟨trivial, trivial⟩
  exact this.imp fun hpq => hpq.1

theorem keeps_distinct : Keeps DistinctKeys where
  mark h _ := h.setItem _ _
  delete h := h.filter _

theorem WithinKeys.length_le (h : c.WithinKeys keys frames) (hd : DistinctKeys c.cache)
    (hputs : ∀ f ∈ frames, f.isPut = false) : c.cache.length ≤ keys.length := by
  rw [← List.length_map Prod.fst]
  refine length_le_of_contains (List.pairwise_map.mpr hd) fun k hk => ?_
  obtain ⟨b, hb⟩ := lookup_isSome_of_mem hk
  rcases h k (by rw [has, hb]; rfl) with hkey | ⟨f, hf, hr⟩
  · exact hkey
  · have := hputs f hf
    cases f with
    | acquireExclusive | broadcastInvalidation | replicate => cases this
    | invalidateBlock => cases hr

/-! ## The name of the node -/

def Frame.node? : Frame → Option String
  | .acquireExclusive nodeId _ _ _ | .broadcastInvalidation nodeId _ _ _
  | .replicate nodeId _ _ _ _ => some nodeId
  | .invalidateBlock _ _ => none

theorem invalidateBlock_nodeId (key : Value) (caller : Caller) :
    (c.invalidateBlock key caller).1.nodeId = c.nodeId := by
  unfold invalidateBlock
  split <;> rfl

theorem start_nodeId (op : Op) : (c.start now op).1.nodeId = c.nodeId := by
  cases op with
  | get key =>
    show (c.get key now).1.nodeId = c.nodeId
    unfold get
    repeat' split
    all_goals first | rfl | exact invalidateBlock_nodeId ..
  | put key value ttl => rw [start, put_fst]
  | handleInvalidation key fromNode =>
    show (c.handleInvalidation key fromNode).1.nodeId = c.nodeId
    unfold handleInvalidation
    repeat' split
    all_goals rfl

theorem resume_nodeId (a : Appended) : (c.resume now frame a).1.nodeId = c.nodeId := by
  rcases a with ⟨_ | _⟩ | _
  · cases frame <;> rfl
  · cases frame with
    | acquireExclusive | broadcastInvalidation => rfl
    | replicate nodeId key value ttl block =>
      obtain ⟨c', -, hid, hend⟩ := c.store_cases now key value block
      show (c.store key value block now).1.nodeId = c.nodeId
      rcases hend with ⟨heq, -⟩ | ⟨victim, b, -, -, -, heq⟩ <;> rw [heq] <;> exact hid
    | invalidateBlock key caller =>
      simp only [resume, if_true]
      split <;> rfl
  · cases frame <;> rfl

theorem dropBlock_nodeId (key : Value) : (c.dropBlock key).1.nodeId = c.nodeId := by
  unfold dropBlock
  repeat' split
  all_goals rfl

theorem handleCommit_nodeId (e : LogEntry) : (c.handleCommit now e).1.nodeId = c.nodeId := by
  unfold handleCommit
  repeat' split
  all_goals first | rfl | exact dropBlock_nodeId ..

theorem start_node (op : Op) : ∀ f ∈ (c.start now op).2.frame?, ∀ nodeId ∈ f.node?,
    nodeId = c.nodeId := by
  intro f hf nodeId hnode
  cases start_opens c now hf with
  | acquire | replicate => exact (Option.some.inj hnode).symm
  | expire => cases hnode

theorem resume_node (a : Appended) : ∀ f ∈ (c.resume now frame a).2.frame?,
    ∀ nodeId ∈ f.node?, nodeId ∈ frame.node? := by
  intro f hf nodeId hnode
  cases resume_next c now hf with
  | broadcast | replicate => exact hnode
  | evict => cases hnode

end MOESICache

theorem LogEntry.blockOwner_of_request {e : LogEntry} {f : MOESICache.Frame} {owner : Value}
    (he : (e.command, e.data) = MOESICache.request f) (h : e.blockOwner = some owner) :
    ∃ nodeId ∈ f.node?, owner = .str nodeId := by
  obtain ⟨⟨key, block⟩, hw, h⟩ := Option.bind_eq_some_iff.mp h
  obtain ⟨b, rfl, rfl⟩ := Option.map_eq_some_iff.mp h
  obtain ⟨nodeId, key', value, ttl, block, rfl, howner, -⟩ := MOESICache.put_of_request he hw
  exact ⟨nodeId, rfl, howner⟩

/-! ## One node of a cluster -/

open DistributedSystem DistributedNode

variable {md5 : String → ℕ} {config : SystemConfig} {peers : String → List String} {max : ℤ}

/-- A `put` of node `i` is in flight as long as it has left too many keys in the applied entries,
and the cache takes no key that these do not have: an invalidation of the node itself is applied
while the `put` is in flight that has asked for it, or finds no block; a `put` stores a block whose
entry is applied; and one that gives up leaves no block that its invalidation has spared. -/
def WithinCapacity (max : ℤ) (f : String → NodeView (services md5 config peers)) (i : String) :
    Act (services md5 config peers) → Prop
  | .commit _ e =>
    (exceededBy max ((f i).delivered ++ [e]) = some (.str i) →
      ∃ frame ∈ (f i).cacheFrames, frame.isPut = true) ∧
    ((e.spares (f i).cache.nodeId = true) → ∀ w ∈ e.cacheWrite 0,
      (f i).cache.has w.1 = false ∨ ∃ frame ∈ (f i).cacheFrames, frame.replaces w.1 = true)
  | .resume now k a => ∀ frame ∈ (f i).frameAt k,
    (frame.isPut = true → frame.ends (f i).cache now a = true →
      exceededBy max (f i).delivered ≠ some (.str i) ∨
        ∃ other ∈ (f i).others k, other.isPut = true) ∧
    (∀ key ∈ frame.stores a, (keysOf (f i).delivered).contains key = true) ∧
    ∀ key ∈ frame.abandons a, (f i).cache.has key = false ∨
      (keysOf (f i).delivered).contains key = true ∨
        ∃ other ∈ (f i).others k, other.replaces key = true
  | _ => True

instance (max : ℤ) (f : String → NodeView (services md5 config peers)) (i : String) :
    (a : Act (services md5 config peers)) → Decidable (WithinCapacity max f i a)
  | .commit _ _ => inferInstanceAs (Decidable ((_ → _) ∧ (_ → _)))
  | .resume _ _ _ => inferInstanceAs (Decidable (∀ _ ∈ _, _))
  | .start _ _ | .wait => inferInstanceAs (Decidable True)

namespace NodeView

variable {v : NodeView (services md5 config peers)}
  {f : String → NodeView (services md5 config peers)}
  {i : String} {a : Act (services md5 config peers)}

/-- The dictionary has the keys of the applied entries at most, and as long as a `put` of the node
has made these too many, one is in flight. -/
structure Bounded (max : ℤ) (i : String) (v : NodeView (services md5 config peers)) : Prop where
  distinct : MOESICache.DistinctKeys v.cache.cache
  within : v.cache.WithinKeys (keysOf v.delivered) v.cacheFrames
  owed : exceededBy max v.delivered = some (.str i) → ∃ f ∈ v.cacheFrames, f.isPut = true

theorem Bounded.act (h : (f i).Bounded max i) (hok : WithinCapacity max f i a) :
    ((f i).act a).Bounded max i := by
  cases (f i).cacheStep a with
  | call now op hc hf hd =>
    refine ⟨?_, ?_, ?_⟩
    · rw [hc]
      exact MOESICache.keeps_distinct.start h.distinct op
    · rw [hc, hf, hd]
      exact h.within.start op
    · rw [hf, hd]
      intro howed
      obtain ⟨g, hg, hput⟩ := h.owed howed
      exact ⟨g, List.mem_append_right _ hg, hput⟩
  | commit now e hc hf hd =>
    refine ⟨?_, ?_, ?_⟩
    · rw [hc]
      exact MOESICache.keeps_distinct.commit h.distinct fun key b _ => h.distinct.setItem key b
    · rw [hc, hf, hd, keysOf_concat]
      exact h.within.commit e hok.2
    · rw [hf, hd]
      exact hok.1
  | resume now k a frame hk hc hf hd =>
    obtain ⟨hends, hstore, hgive⟩ := hok frame hk
    have hperm := (f i).frames_perm hk
    refine ⟨?_, ?_, ?_⟩
    · rw [hc]
      exact MOESICache.keeps_distinct.resume h.distinct fun _ key _ _ b _ _ =>
        h.distinct.setItem key b
    · rw [hc, hf, hd]
      refine MOESICache.WithinKeys.resume (fun k hk => ?_) hstore hgive
      exact (h.within k hk).imp_right fun ⟨g, hg, hr⟩ => ⟨g, hperm.mem_iff.mp hg, hr⟩
    · rw [hf, hd]
      intro howed
      obtain ⟨g, hg, hput⟩ := h.owed howed
      rcases List.mem_cons.mp (hperm.mem_iff.mp hg) with rfl | hg
      · rcases hend : g.ends (f i).cache now a with _ | _
        · obtain ⟨g', hg', hput'⟩ := MOESICache.resume_isPut hput hend
          exact ⟨g', List.mem_append_left _ (Option.mem_toList.mpr hg'), hput'⟩
        · rcases hends hput hend with hno | ⟨g', hg', hput'⟩
          · exact absurd howed hno
          · exact ⟨g', List.mem_append_right _ hg', hput'⟩
      · exact ⟨g, List.mem_append_right _ hg, hput⟩
  | other a hc hf hd =>
    refine ⟨hc ▸ h.distinct, ?_, ?_⟩
    · rw [hc, hd]
      intro k hk
      exact (h.within k hk).imp_right fun ⟨g, hg, hr⟩ => ⟨g, hf.mem_iff.mpr hg, hr⟩
    · rw [hd]
      intro howed
      obtain ⟨g, hg, hput⟩ := h.owed howed
      exact ⟨g, hf.mem_iff.mpr hg, hput⟩

/-- The puts of a node bear its name. -/
structure Named (i : String) (v : NodeView (services md5 config peers)) : Prop where
  cache : v.cache.nodeId = i
  frames : ∀ f ∈ v.cacheFrames, ∀ nodeId ∈ f.node?, nodeId = i

theorem Named.act (h : v.Named i) (a : Act (services md5 config peers)) : (v.act a).Named i := by
  cases v.cacheStep a with
  | call now op hc hf hd =>
    refine ⟨by rw [hc, MOESICache.start_nodeId, h.cache], fun f hmem nodeId hnode => ?_⟩
    rw [hf] at hmem
    rcases List.mem_append.mp hmem with hmem | hmem
    · rw [← h.cache]
      exact MOESICache.start_node op f (Option.mem_toList.mp hmem) nodeId hnode
    · exact h.frames f hmem nodeId hnode
  | commit now e hc hf hd =>
    exact ⟨by rw [hc, MOESICache.handleCommit_nodeId, h.cache], hf ▸ h.frames⟩
  | resume now k a frame hk hc hf hd =>
    have hperm := v.frames_perm hk
    refine ⟨by rw [hc, MOESICache.resume_nodeId, h.cache], fun f hmem nodeId hnode => ?_⟩
    rw [hf] at hmem
    rcases List.mem_append.mp hmem with hmem | hmem
    · exact h.frames frame (hperm.mem_iff.mpr List.mem_cons_self) nodeId
        (MOESICache.resume_node a f (Option.mem_toList.mp hmem) nodeId hnode)
    · exact h.frames f (hperm.mem_iff.mpr (List.mem_cons_of_mem _ hmem)) nodeId hnode
  | other a hc hf hd =>
    exact ⟨by rw [hc, h.cache], fun f hmem => h.frames f (hf.mem_iff.mp hmem)⟩

end NodeView

/-! ## The cluster -/

/-- Every node has applied all entries that any node has committed. -/
def AllApplied {κ : Type} (nodes : List String) (c : Cluster κ) : Prop :=
  ∀ i ∈ nodes, ∀ j ∈ nodes, (c.proc i).raft.commitIndex ≤ (c.proc j).raft.lastApplied

instance {κ : Type} (nodes : List String) (c : Cluster κ) : Decidable (AllApplied nodes c) := by
  unfold AllApplied
  infer_instance

variable {cfg : ClusterConfig}

def NoPuts (nodes : List String) (s : DistributedSystem (services md5 config cfg.peers)) : Prop :=
  ∀ i ∈ nodes, ∀ f ∈ (s.view i).cacheFrames, f.isPut = false

instance (nodes : List String) (s : DistributedSystem (services md5 config cfg.peers)) :
    Decidable (NoPuts nodes s) := by
  unfold NoPuts
  infer_instance

variable {s : DistributedSystem (services md5 config cfg.peers)}

theorem owners_are_nodes {ok : DistributedSystem (services md5 config cfg.peers) →
      SystemEvent (services md5 config cfg.peers) → Prop} (hr : Reach cfg ok s) :
    s.cluster.AllEntries fun e => ∀ owner, e.blockOwner = some owner →
      ∃ i ∈ cfg.nodes, owner = .str i := by
  refine hr.allEntries fun s hr i hi frame hframe e he owner hown => ?_
  have hany : Reach cfg (Locally cfg fun _ _ _ => True) s := hr.mono fun _ _ _ => locally_any
  have hnamed : (s.view i).Named i := hany.view (P := NodeView.Named)
    (fun i => ⟨rfl, fun f hf => by cases hf⟩) (fun f i a h _ => h.act a) i
  cases frame with
  | cache frame =>
    obtain ⟨nodeId, hnode, rfl⟩ := LogEntry.blockOwner_of_request he hown
    refine ⟨nodeId, ?_, rfl⟩
    rw [hnamed.frames frame (List.mem_filterMap.mpr ⟨_, hframe, rfl⟩) nodeId hnode]
    exact hi
  | lock frame =>
    rw [LogEntry.blockOwner, cacheWrite_of_request (.lock frame) rfl he] at hown
    cases hown
  | queue frame =>
    rw [LogEntry.blockOwner, cacheWrite_of_request (.queue frame) rfl he] at hown
    cases hown

/-- Where puts stay in flight until the keys are few enough, no cache is too large once all puts
have returned and all entries are applied. -/
theorem cache_within_capacity (hmax : 0 ≤ config.cacheMaxSize)
    (hr : Reach cfg (fun s ev => Lifted SafeStep s ev ∧
      Locally cfg (WithinCapacity config.cacheMaxSize) s ev) s)
    (hputs : NoPuts cfg.nodes s) (happ : AllApplied cfg.nodes s.cluster) {i : String}
    (hi : i ∈ cfg.nodes) : ((cacheOf s i).cache.length : ℤ) ≤ config.cacheMaxSize := by
  have hsafe : cfg.Reach SafeStep s.cluster := Reach.cluster (hr.mono fun _ _ h => h.1)
  have hlocal : Reach cfg (Locally cfg (WithinCapacity config.cacheMaxSize)) s :=
    hr.mono fun _ _ h => h.2
  have hbounded : ∀ i, (s.view i).Bounded config.cacheMaxSize i :=
    hlocal.view (fun i => ⟨List.Pairwise.nil, fun k hk => (by cases hk), fun h => (by cases h)⟩)
      fun f i a h hok => h.act hok
  have happlied : ∀ i,
      (s.cluster.proc i).raft.lastApplied ≤ (s.cluster.proc i).raft.commitIndex := by
    obtain ⟨w, -, h⟩ := Sim.of_safe (admitted_any hsafe)
    exact fun i => (h i).le
  have hsame : ∀ j ∈ cfg.nodes, (s.view j).delivered = (s.view i).delivered := by
    intro j hj
    refine delivered_eq hsafe (le_antisymm ?_ ?_)
    · exact (happlied j).trans (happ j hj i hi)
    · exact (happlied i).trans (happ i hi j hj)
  have hnone : exceededBy config.cacheMaxSize (s.view i).delivered = none := by
    rcases hex : exceededBy config.cacheMaxSize (s.view i).delivered with _ | owner
    · rfl
    · obtain ⟨e, he, hown⟩ := exceededBy_owner hex
      obtain ⟨j, hj, rfl⟩ := ((owners_are_nodes hr).node i).delivered e he owner hown
      -- this node has applied the same entries, and none of its puts is left
      rw [← hsame j hj] at hex
      obtain ⟨f, hf, hput⟩ := (hbounded j).owed hex
      rw [hputs j hj f hf] at hput
      cases hput
  have hlen := (hbounded i).within.length_le (hbounded i).distinct (hputs i hi)
  have hkeys := length_keysOf_le hmax hnone
  calc ((cacheOf s i).cache.length : ℤ) ≤ (keysOf (s.view i).delivered).length := by
        exact_mod_cast hlen
    _ ≤ config.cacheMaxSize := hkeys

/-! ## Concrete runs -/

abbrev sized (maxSize : ℤ) : Services :=
  services String.length { cacheMaxSize := maxSize } threeNodes.peers

/-- Both peers answer the call at position 0 of leader `a`, the first by the RPC `r`, and a
heartbeat lets them apply its entry. -/
def toAll (r : ℕ) : List (Event DistributedNode.Frame) :=
  push "a" (.append 0) 0 r ++ push "a" (.append 0) 1 (r + 1) ++ [.heartbeat "a"] ++
    push "a" .heartbeat 0 (r + 2) ++ push "a" .heartbeat 1 (r + 3)

/-- No block fits: the `put` evicts its own. -/
theorem cache_within_capacity_evicted : ∃ s : DistributedSystem (sized 0),
    (s.cluster.proc "c").raft.delivered.length = 4 ∧ ((cacheOf s "c").cache.length : ℤ) ≤ 0 := by
  obtain ⟨s, hr, hlen, hputs, happ⟩ := Runs.exists_of_checked (step threeNodes)
    (fun s ev => Lifted SafeStep s ev ∧ Locally threeNodes (WithinCapacity 0) s ev)
    (DistributedSystem.init (sized 0) threeNodes)
    (putK ++ .append "a" 0 never :: raftSteps (toAll 8 ++ [.returnAppend "a" 0]))
    (fun s => (s.cluster.proc "c").raft.delivered.length = 4 ∧ NoPuts threeNodes.nodes s ∧
      AllApplied threeNodes.nodes s.cluster) (by decide +kernel)
  exact ⟨s, hlen, cache_within_capacity le_rfl hr hputs happ (by decide)⟩

/-- One block fits. The second `put` comes back when `b` has asked for votes in a new term, so that
`a` cannot log the eviction of the first block. -/
def lostEviction : List (SystemEvent (sized 1)) :=
  putK ++ [putOnA "l" "w"] ++ unheard ++ unheard ++ .append "a" 0 never :: raftSteps (toAll 12 ++
    stand "b" ++ [.requestVote "b" 0 0, .handleMessage 16 never, .returnAppend "a" 0]) ++
    [.append "a" 0 never]

theorem cache_within_capacity_fails : ¬ ∀ (config : SystemConfig) (cfg : ClusterConfig)
    (s : DistributedSystem (services String.length config cfg.peers)), Reach cfg Runs.Any s →
    NoPuts cfg.nodes s → AllApplied cfg.nodes s.cluster →
    ∀ i ∈ cfg.nodes, ((cacheOf s i).cache.length : ℤ) ≤ config.cacheMaxSize := by
  intro h
  obtain ⟨s, hr, hlen, hputs, happ⟩ := Runs.exists_of_runList (step threeNodes)
    (DistributedSystem.init (sized 1) threeNodes) lostEviction
    (fun s => (cacheOf s "b").cache.length = 2 ∧ NoPuts threeNodes.nodes s ∧
      AllApplied threeNodes.nodes s.cluster) (by decide +kernel)
  have := h { cacheMaxSize := 1 } threeNodes s hr hputs happ "b" (by decide)
  rw [hlen] at this
  exact absurd this (by decide)

end DistributedSync
