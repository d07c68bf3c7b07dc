import DistributedSync.Library.Lru
import DistributedSync.Services.CacheMap
import Mathlib.Algebra.Order.Ring.Rat

/-!
# Eviction

Where nobody else writes to a cache, its keys are those of a cache that drops its least recently
used key (`Lru.run`). `Tracks` says this of a cache at rest: the access times of its keys descend in
the order of their last uses, whatever times the policy still has of other keys. `Serves` follows a
call from one `append_entry` to the next.
-/

namespace DistributedSync

namespace LRUEvictionPolicy

variable {p : LRUEvictionPolicy} {key : Value} {now : ℚ}

theorem accessTime_access (p : LRUEvictionPolicy) (key : Value) (now : ℚ) (k : Value) :
    (p.access key now).accessTime k = if k == key then now else p.accessTime k := by
  unfold accessTime access
  rw [lookup_setItem]
  split <;> rfl

/-- No key has been used at an earlier time than the one to evict. -/
theorem accessTime_evict {keys : List Value} (h : p.evict keys = some key) :
    ∀ k ∈ keys, ¬p.accessTime k < p.accessTime key := by
  have hfold : ∀ (keys : List Value) (m : Value), ∀ k ∈ m :: keys,
      p.accessTime (keys.foldl (fun minKey key =>
        if p.accessTime key < p.accessTime minKey then key else minKey) m) ≤ p.accessTime k := by
    intro keys
    induction keys with
    | nil => exact fun m k hk => (List.mem_singleton.mp hk) ▸ le_rfl
    | cons k₀ keys ih =>
      intro m k hk
      rw [List.foldl_cons]
      split
      · next hlt =>
        rcases List.mem_cons.mp hk with rfl | hk
        · exact (ih k₀ k₀ List.mem_cons_self).trans hlt.le
        · exact ih k₀ k hk
      · next hge =>
        rcases List.mem_cons.mp hk with rfl | hk
        · exact ih k k List.mem_cons_self
        · rcases List.mem_cons.mp hk with rfl | hk
          · exact (ih m m List.mem_cons_self).trans (not_lt.mp hge)
          · exact ih m k (List.mem_cons_of_mem _ hk)
  cases keys with
  | nil => cases h
  | cons k₀ keys =>
    cases h
    exact fun k hk => not_lt.mpr (hfold keys k₀ k hk)

end LRUEvictionPolicy

/-! ## Dictionaries with such keys -/

section Keys

variable {β : Type*} {d : List (Value × β)} {keys : List String} {key : String}

/-- The dictionary has the keys, in some order. -/
def HasKeys (d : List (Value × β)) (keys : List String) : Prop :=
  (d.map Prod.fst).Perm (keys.map Value.str)

theorem HasKeys.isSome_lookup (h : HasKeys d keys) :
    (d.lookup (.str key)).isSome = true ↔ key ∈ keys := by
  rw [← Option.ne_none_iff_isSome, Ne, lookup_eq_none_iff]
  push Not
  constructor
  · rintro ⟨p, hp, hkey⟩
    obtain ⟨k, hk, heq⟩ := List.mem_map.mp (h.mem_iff.mp (List.mem_map_of_mem hp))
    rw [← heq, Ne, Bool.not_eq_false, Value.str_beq_str] at hkey
    exact hkey ▸ hk
  · intro hk
    obtain ⟨p, hp, heq⟩ := List.mem_map.mp (h.mem_iff.mpr (List.mem_map_of_mem hk))
    exact ⟨p, hp, by rw [heq, BEq.rfl]; decide⟩

theorem HasKeys.setItem (h : HasKeys d keys) (v : β) :
    HasKeys (setItem d (.str key) v) (Lru.touch keys key) := by
  unfold HasKeys DistributedSync.setItem
  by_cases hk : key ∈ keys
  · rw [if_pos (h.isSome_lookup.mpr hk), List.map_map]
    refine .trans (.of_eq (List.map_congr_left fun p _ => ?_))
      (h.trans ((Lru.perm_touch hk).map _).symm)
    dsimp only [Function.comp_apply]
    split <;> rfl
  · rw [if_neg fun hs => hk (h.isSome_lookup.mp hs), Lru.touch_of_notMem hk, List.map_append]
    exact (List.perm_append_singleton _ _).trans (h.cons _)

theorem HasKeys.delItem (h : HasKeys d keys) (hd : keys.Nodup) :
    HasKeys (delItem d (.str key)) (keys.erase key) := by
  have hfilter : ∀ k : String, (!(Value.str k == Value.str key)) = (k != key) := by
    intro k
    rw [bne, Bool.eq_iff_iff, Bool.not_eq_true', Bool.not_eq_true', Bool.eq_false_iff,
      Bool.eq_false_iff, Ne, Ne, Value.str_beq_str, beq_iff_eq]
  have hd' : (DistributedSync.delItem d (.str key)).map Prod.fst =
      (d.map Prod.fst).filter fun k => !(k == Value.str key) := by
    rw [List.filter_map]
    rfl
  have hkeys : (keys.erase key).map Value.str =
      (keys.map Value.str).filter fun k => !(k == Value.str key) := by
    rw [List.filter_map, hd.erase_eq_filter]
    congr 1
    exact List.filter_congr fun k _ => (hfilter k).symm
  unfold HasKeys
  rw [hd', hkeys]
  exact h.filter _

theorem delItem_setItem {k : Value} {v : β} :
    DistributedSync.delItem (DistributedSync.setItem d k v) k = DistributedSync.delItem d k := by
  unfold DistributedSync.setItem DistributedSync.delItem
  split
  · rw [List.filter_map]
    have hkeys : ((fun p : Value × β => !(p.1 == k)) ∘ fun p => if p.1 == k then (p.1, v) else p) =
        fun p => !(p.1 == k) := by
      funext p
      dsimp only [Function.comp_apply]
      split <;> rfl
    rw [hkeys]
    refine (List.map_congr_left fun p hp => if_neg ?_).trans (List.map_id _)
    simpa using (List.mem_filter.mp hp).2
  · rw [List.filter_append, List.filter_singleton, BEq.rfl]
    exact List.append_nil _

end Keys

/-! ## The course of a call -/

namespace MOESICache

variable {c : MOESICache} {now now' : ℚ} {keys : List String} {key : String} {value ttl : Value}

/-- The keys of the cache, the most recent first. All blocks are such as a `put` leaves that gives
them no time to live. -/
structure Tracks (c : MOESICache) (now : ℚ) (keys : List String) : Prop where
  hasKeys : HasKeys c.cache keys
  nonempty : "" ∉ keys
  ordered : Lru.Ordered (fun k => c.evictionPolicy.accessTime (.str k)) keys
  past : ∀ k ∈ keys, c.evictionPolicy.accessTime (.str k) ≤ now
  blocks : ∀ p ∈ c.cache, p.2.state = .exclusive ∧ p.2.ttl.num? = some 0

theorem Tracks.later (h : c.Tracks now keys) (hnow : now < now') : c.Tracks now' keys :=
  ⟨h.hasKeys, h.nonempty, h.ordered, fun k hk => (h.past k hk).trans hnow.le, h.blocks⟩

theorem Tracks.access {c' : MOESICache} (h : c.Tracks now keys) (hnow : now < now')
    (hkey : key ≠ "") (hkeys : HasKeys c'.cache (Lru.touch keys key))
    (hpolicy : c'.evictionPolicy = c.evictionPolicy.access (.str key) now')
    (hblocks : ∀ p ∈ c'.cache, p.2.state = .exclusive ∧ p.2.ttl.num? = some 0) :
    c'.Tracks now' (Lru.touch keys key) := by
  have hself : c'.evictionPolicy.accessTime (.str key) = now' := by
    rw [hpolicy, LRUEvictionPolicy.accessTime_access, if_pos BEq.rfl]
  have hother : ∀ k, k ≠ key → c'.evictionPolicy.accessTime (.str k) =
      c.evictionPolicy.accessTime (.str k) := by
    intro k hk
    rw [hpolicy, LRUEvictionPolicy.accessTime_access,
      if_neg fun heq => hk (Value.str_beq_str.mp heq)]
  refine ⟨hkeys, fun hmem => ?_, h.ordered.touch (fun k _ => hother k) fun k hk => ?_,
    fun k hk => ?_, hblocks⟩
  · rcases Lru.mem_of_mem_touch hmem with heq | hmem
    · exact hkey heq.symm
    · exact h.nonempty hmem
  · rw [hself]
    exact (h.past k hk).trans_lt hnow
  · by_cases heq : k = key
    · rw [heq, hself]
    · rw [hother k heq]
      exact (h.past k ((Lru.mem_of_mem_touch hk).resolve_left heq)).trans hnow.le

theorem Tracks.delItem (h : c.Tracks now keys) (victim : String) :
    { c with cache := delItem c.cache (.str victim) }.Tracks now (keys.erase victim) where
  hasKeys := h.hasKeys.delItem h.ordered.nodup
  nonempty hmem := h.nonempty (List.mem_of_mem_erase hmem)
  ordered := List.Pairwise.sublist List.erase_sublist h.ordered
  past k hk := h.past k (List.mem_of_mem_erase hk)
  blocks p hp := h.blocks p (mem_delItem.mp hp).2

/-- The calls of `append_entry` of a `put` up to its CACHE_PUT. -/
inductive Frame.Puts (nodeId : String) (key : String) : Frame → Prop
  | acquire (value ttl : Value) (ht : ttl.num? = some 0) :
    Puts nodeId key (.acquireExclusive nodeId (.str key) value ttl)
  | broadcast (value ttl : Value) (ht : ttl.num? = some 0) :
    Puts nodeId key (.broadcastInvalidation nodeId (.str key) value ttl)
  | replicate (value ttl : Value) (block : CacheBlock) (ht : ttl.num? = some 0)
    (hs : block.state = .exclusive) (hb : block.ttl = ttl) :
    Puts nodeId key (.replicate nodeId (.str key) value ttl block)

/-- Of a cache with the running call, if any: `keys` are the keys once it returns. -/
inductive Serves (c : MOESICache) (now : ℚ) (keys : List String) : Option Frame → Prop
  | rest (h : c.Tracks now keys) (hle : (keys.length : ℤ) ≤ c.maxSize) : Serves c now keys none
  | putting (old : List String) (key : String) (frame : Frame) (h : c.Tracks now old)
    (hle : (old.length : ℤ) ≤ c.maxSize) (hkey : key ≠ "") (hf : frame.Puts c.nodeId key)
    (hkeys : keys = Lru.step c.maxSize.toNat old (.put key)) : Serves c now keys (some frame)
  | evicting (victim : String) (caller : Caller)
    (hmem : (c.cache.lookup (.str victim)).isSome = true)
    (h : { c with cache := delItem c.cache (.str victim) }.Tracks now keys)
    (hle : (keys.length : ℤ) ≤ c.maxSize) :
    Serves c now keys (some (.invalidateBlock (.str victim) caller))

theorem Serves.later {frame : Option Frame} (h : c.Serves now keys frame) (hnow : now < now') :
    c.Serves now' keys frame := by
  cases h with
  | rest h hle => exact .rest (h.later hnow) hle
  | putting old key frame h hle hkey hf hkeys =>
    exact .putting old key frame (h.later hnow) hle hkey hf hkeys
  | evicting victim caller hmem h hle => exact .evicting victim caller hmem (h.later hnow) hle

theorem Serves.get (h : c.Serves now keys none) (hnow : now < now') (key : String) :
    (c.get (.str key) now').1.Serves now' (Lru.step c.maxSize.toNat keys (.get key))
      (c.get (.str key) now').2.frame? ∧ (c.get (.str key) now').1.maxSize = c.maxSize := by
  obtain ⟨h, hle⟩ := h
  have hhash : (Value.str key).hashable = true := rfl
  rcases hb : c.cache.lookup (.str key) with _ | block
  · have hkey : key ∉ keys := fun hmem => by
      have := h.hasKeys.isSome_lookup.mpr hmem
      rw [hb] at this
      cases this
    have hget : c.get (.str key) now' =
        ({ c with misses := c.misses + 1 }, .done (.get (.str key) .null)) := by
      simp only [MOESICache.get, hhash, if_true, hb]
    rw [hget, Lru.step, if_neg hkey]
    exact ⟨.rest ⟨h.hasKeys, h.nonempty, h.ordered, (h.later hnow).past, h.blocks⟩ hle, rfl⟩
  · have hkey : key ∈ keys := h.hasKeys.isSome_lookup.mp (by rw [hb]; rfl)
    obtain ⟨p, hp, -, rfl⟩ := mem_of_lookup hb
    obtain ⟨hs, ht⟩ := h.blocks p hp
    have hget : c.get (.str key) now' =
        ({ c with evictionPolicy := c.evictionPolicy.access (.str key) now', hits := c.hits + 1 },
          .done (.get (.str key) p.2.value)) := by
      simp only [MOESICache.get, hhash, if_true, hb, hs, ht, reduceCtorEq, if_false, lt_irrefl,
        false_and]
    rw [hget, Lru.step, if_pos hkey]
    refine ⟨.rest (h.access hnow (fun heq => h.nonempty (heq ▸ hkey)) ?_ rfl h.blocks) ?_, rfl⟩
    · exact h.hasKeys.trans ((Lru.perm_touch hkey).map _).symm
    · rwa [(Lru.perm_touch hkey).length_eq]

/-- A `put` asks for ownership first, whether it finds the key or not. -/
theorem Serves.put (h : c.Serves now keys none) (hnow : now < now') (hkey : key ≠ "")
    (ht : ttl.num? = some 0) :
    (c.put (.str key) value ttl now').1.Serves now'
        (Lru.step c.maxSize.toNat keys (.put key)) (c.put (.str key) value ttl now').2.frame? ∧
      (c.put (.str key) value ttl now').1.maxSize = c.maxSize := by
  obtain ⟨h, hle⟩ := h
  have hhash : (Value.str key).hashable = true := rfl
  have hfree : ((c.cache.lookup (.str key)).any fun existing =>
      existing.state = .modified || existing.state = .owned) = false := by
    rcases hb : c.cache.lookup (.str key) with _ | block
    · rw [hb, Option.any_none]
    · obtain ⟨p, hp, -, rfl⟩ := mem_of_lookup hb
      rw [hb, Option.any_some, (h.blocks p hp).1]
      decide
  have hput : c.put (.str key) value ttl now' =
      (c, .append (.acquireExclusive c.nodeId (.str key) value ttl)) := by
    cases ttl with
    | null => cases ht
    | _ => simp only [MOESICache.put, hhash, if_true, hfree, Bool.false_eq_true, if_false]
  rw [hput]
  exact ⟨.putting keys key _ (h.later hnow) hle hkey (.acquire value ttl ht) rfl, rfl⟩

def stored (c : MOESICache) (key : Value) (block : CacheBlock) (now : ℚ) : MOESICache :=
  { c with cache := setItem c.cache key block, evictionPolicy := c.evictionPolicy.access key now }

theorem store_rest {k : Value} {block : CacheBlock}
    (h : ((c.stored k block now).cache.length : ℤ) ≤ c.maxSize) :
    c.store k value block now = (c.stored k block now, .done (.put k value true)) :=
  if_neg (not_lt.mpr h)

theorem store_evict {k victim : Value} {block : CacheBlock}
    (h : c.maxSize < (c.stored k block now).cache.length)
    (hv : (c.stored k block now).evictionPolicy.evict
      ((c.stored k block now).cache.map Prod.fst) = some victim) (ht : victim.truthy = true) :
    c.store k value block now =
      (c.stored k block now).invalidateBlock victim (.put k value) := by
  refine (if_pos h).trans ?_
  unfold stored at hv
  simp only [hv, ht, if_true]
  rfl

/-- The end of a `put`: the new key is the most recent one, and of one key too many the last is
evicted. -/
theorem Serves.store (h : c.Tracks now keys) (hle : (keys.length : ℤ) ≤ c.maxSize)
    (hnow : now < now') (hkey : key ≠ "") {block block' : CacheBlock}
    (hblock : block.state = .exclusive ∧ block.ttl.num? = some 0)
    (hblock' : block'.state = .exclusive ∧ block'.ttl.num? = some 0)
    {c' : MOESICache} (hc : c' = { c with cache := setItem c.cache (.str key) block' }) :
    (c'.store (.str key) value block now').1.Serves now'
        (Lru.step c.maxSize.toNat keys (.put key))
        (c'.store (.str key) value block now').2.frame? ∧
      (c'.store (.str key) value block now').1.maxSize = c.maxSize := by
  subst hc
  obtain ⟨c', hc'⟩ : ∃ c', c' = { c with cache := setItem c.cache (.str key) block' } := ⟨_, rfl⟩
  obtain ⟨c₂, hc₂⟩ : ∃ c₂, c₂ = c'.stored (.str key) block now' := ⟨_, rfl⟩
  have hkeys : HasKeys c₂.cache (Lru.touch keys key) := by
    rw [hc₂, hc', ← Lru.touch_touch]
    exact (h.hasKeys.setItem block').setItem block
  have hblocks : ∀ p ∈ c₂.cache, p.2.state = .exclusive ∧ p.2.ttl.num? = some 0 := by
    intro p hp
    rw [hc₂, hc'] at hp
    rcases mem_setItem hp with ⟨-, hp⟩ | ⟨-, hp⟩
    · rcases mem_setItem hp with ⟨-, hp⟩ | ⟨-, hp⟩
      · exact h.blocks p hp
      · rwa [hp]
    · rwa [hp]
  have htracks : c₂.Tracks now' (Lru.touch keys key) :=
    h.access hnow hkey hkeys (by rw [hc₂, hc']; rfl) hblocks
  have hlen : c₂.cache.length = (Lru.touch keys key).length := by
    simpa [List.length_map] using hkeys.length_eq
  have hm : c₂.maxSize = c.maxSize := by rw [hc₂, hc']; rfl
  have hm' : c'.maxSize = c.maxSize := by rw [hc']
  rw [← hc', Lru.step]
  rcases le_or_gt (c₂.cache.length : ℤ) c.maxSize with hfits | hlt
  · rw [store_rest (by rwa [← hc₂, hm']), ← hc₂, List.take_of_length_le (by omega)]
    exact ⟨.rest htracks (by rwa [hm, ← hlen]), hm⟩
  · obtain ⟨v, hv⟩ : ∃ v, c₂.evictionPolicy.evict (c₂.cache.map Prod.fst) = some v := by
      rcases hd : c₂.cache with _ | ⟨p, d⟩
      · rw [hd, List.length_nil] at hlt
        omega
      · exact ⟨_, rfl⟩
    obtain ⟨victim, hvictim, rfl⟩ := List.mem_map.mp (hkeys.mem_iff.mp (evict_mem hv))
    have hleast : ∀ k ∈ Lru.touch keys key, ¬c₂.evictionPolicy.accessTime (.str k) <
        c₂.evictionPolicy.accessTime (.str victim) := fun k hk =>
      LRUEvictionPolicy.accessTime_evict hv _ (hkeys.mem_iff.mpr (List.mem_map_of_mem hk))
    have hlen_le : (Lru.touch keys key).length ≤ keys.length + 1 := Lru.length_touch_le
    have htake : (Lru.touch keys key).take c.maxSize.toNat = (Lru.touch keys key).erase victim :=
      htracks.ordered.take_eq_erase (by omega) hvictim hleast
    have htruthy : (Value.str victim).truthy = true :=
      decide_eq_true fun heq => htracks.nonempty (heq ▸ hvictim)
    obtain ⟨b, hb⟩ := Option.isSome_iff_exists.mp (hkeys.isSome_lookup.mpr hvictim)
    have hinvalidate : c₂.invalidateBlock (.str victim) (.put (.str key) value) =
        ({ c₂ with cache := setItem c₂.cache (.str victim) { b with state := .invalid } },
          .append (.invalidateBlock (.str victim) (.put (.str key) value))) := by
      simp only [invalidateBlock, hb]
    rw [store_evict (by rwa [← hc₂, hm']) (hc₂ ▸ hv) htruthy, ← hc₂, hinvalidate, htake]
    refine ⟨.evicting victim _ ?_ ?_ ?_, hm⟩
    · rw [lookup_setItem, if_pos BEq.rfl]
      rfl
    · rw [delItem_setItem]
      exact htracks.delItem victim
    · show (((Lru.touch keys key).erase victim).length : ℤ) ≤ c₂.maxSize
      rw [List.length_erase_of_mem hvictim]
      omega

/-! ## Steps of a call -/

theorem handleCommit_replicate {e : LogEntry} {nodeId : String} {block : CacheBlock}
    (he : (e.command, e.data) = request (.replicate nodeId (.str key) value ttl block))
    (hs : block.state = .exclusive) :
    c.handleCommit now e = ({ c with
      cache := setItem c.cache (.str key)
        { key := .str key, value := value.logged, state := .exclusive, ownerNode := .str nodeId,
          lastModified := now, ttl } }, false) := by
  obtain ⟨hc, hd⟩ := Prod.mk.inj he
  have hstate : CacheState.ofName? (upper CacheState.exclusive.value) = some .exclusive := by decide
  simp [handleCommit, hc, blockOf, hd, lookup_cons, hs, hstate, Value.hashable]

/-- One step of a call on a node that applies its own entries at once: the callback, and what the
call does when `append_entry` comes back to it. -/
theorem Serves.append {f : Frame} (h : c.Serves now keys (some f)) (hnow : now < now')
    {e : LogEntry} (he : (e.command, e.data) = request f) :
    (c.handleCommit now' e).2 = false ∧
      ((c.handleCommit now' e).1.resume now' f (.returned true)).1.Serves now' keys
        ((c.handleCommit now' e).1.resume now' f (.returned true)).2.frame? ∧
      ((c.handleCommit now' e).1.resume now' f (.returned true)).1.maxSize = c.maxSize := by
  cases h with
  | putting old key _ h hle hkey hf hkeys =>
    cases hf with
    | acquire value ttl ht =>
      have hcommit : c.handleCommit now' e = (c, false) := by
        obtain ⟨hc, -⟩ := Prod.mk.inj he
        simp [handleCommit, hc]
      rw [hcommit]
      exact ⟨rfl, .putting old key _ (h.later hnow) hle hkey (.broadcast value ttl ht) hkeys, rfl⟩
    | broadcast value ttl ht =>
      have hcommit : c.handleCommit now' e = (c, false) := by
        obtain ⟨hc, hd⟩ := Prod.mk.inj he
        simp [handleCommit, hc, hd, lookup_cons, BEq.rfl]
      rw [hcommit]
      obtain ⟨hhas, hne, hord, hpast, hblocks⟩ := h.later hnow
      exact ⟨rfl, .putting old key _ ⟨hhas, hne, hord, hpast, hblocks⟩ hle hkey
        (.replicate value ttl _ ht rfl rfl) hkeys, rfl⟩
    | replicate value ttl block ht hs hb =>
      rw [handleCommit_replicate he hs, hkeys]
      exact ⟨rfl, Serves.store h hle hnow hkey ⟨hs, hb ▸ ht⟩ ⟨rfl, ht⟩ rfl⟩
  | evicting victim caller hmem h hle =>
    have hcommit : c.handleCommit now' e =
        ({ c with cache := delItem c.cache (.str victim), invalidations := c.invalidations + 1 },
          false) := by
      obtain ⟨hc, hd⟩ := Prod.mk.inj he
      simp [handleCommit, hc, hd, lookup_cons, dropBlock, hmem, Value.hashable]
    have hgone : (delItem c.cache (.str victim)).lookup (.str victim) = none := by
      rw [lookup_delItem, if_pos BEq.rfl]
    -- The callback has deleted the block, so that `del self.cache[key]` raises.
    have hresume : ({ c with cache := delItem c.cache (.str victim),
                             invalidations := c.invalidations + 1 } : MOESICache).resume now'
          (.invalidateBlock (.str victim) caller) (.returned true) =
        ({ c with cache := delItem c.cache (.str victim), invalidations := c.invalidations + 1 },
          .done .raised) := by
      simp [resume, hgone]
    rw [hcommit, hresume]
    obtain ⟨hhas, hne, hord, hpast, hblocks⟩ := h.later hnow
    exact ⟨rfl, .rest ⟨hhas, hne, hord, hpast, hblocks⟩ hle, rfl⟩

end MOESICache

end DistributedSync
