import DistributedSync.Services.Cache

/-!
# The map of a cache

What a client can read from a cache is the map of the blocks that are not INVALID
(`MOESICache.live`). A call of `get` or `put`, a coroutine that goes on and an applied entry each
leave this map alone or change it at one key. What an entry does to it is told by the entry, except
that a CACHE_INVALIDATE_ALL spares the node that asked for it (`MOESICache.handleCommit_live`).
-/

namespace DistributedSync

/-- The map with another answer for one key. -/
def assign (m : Value → Option Value) (k : Value) (v : Option Value) : Value → Option Value :=
  fun k' => if k' == k then v else m k'

theorem assign_self (m : Value → Option Value) {k k' : Value} (h : (k' == k) = true)
    (v : Option Value) : assign m k v k' = v := if_pos h

theorem assign_ne (m : Value → Option Value) {k k' : Value} (h : ¬(k' == k) = true)
    (v : Option Value) : assign m k v k' = m k' := if_neg h

/-- The value of a block that is not INVALID. -/
def CacheBlock.live? (b : CacheBlock) : Option Value :=
  if b.state = .invalid then none else some b.value

namespace LogEntry

/-- What an applied entry does to the dictionary of a cache: the key, and the block it gets, if any.
Only the time of the block depends on the moment. -/
def cacheWrite (now : ℚ) (e : LogEntry) : Option (Value × Option CacheBlock) :=
  if e.command = "CACHE_PUT" then
    (MOESICache.blockOf e.data now).bind fun b =>
      if b.key.hashable then some (b.key, some b) else none
  else if e.command = "CACHE_INVALIDATE" ∨ e.command = "CACHE_INVALIDATE_ALL" then
    (e.data.lookup "key").bind fun key => if key.hashable then some (key, none) else none
  else none

/-- What it does to the map: the key, and the new answer for it. -/
def cacheEffect (e : LogEntry) : Option (Value × Option Value) :=
  (e.cacheWrite 0).map fun w => (w.1, w.2.bind CacheBlock.live?)

theorem blockOf_now (data : Dict) (now : ℚ) : MOESICache.blockOf data now =
    (MOESICache.blockOf data 0).map fun b => { b with lastModified := now } := by
  unfold MOESICache.blockOf
  cases data.lookup "key" <;> cases data.lookup "value" <;> cases data.lookup "owner" <;>
    cases data.lookup "ttl" <;> rcases data.lookup "state" with _ | state <;> try rfl
  all_goals
    cases state with
    | str s => cases h : CacheState.ofName? (MOESICache.upper s) <;> simp [h]
    | _ => rfl

theorem cacheWrite_now (now : ℚ) (e : LogEntry) : e.cacheWrite now =
    (e.cacheWrite 0).map fun w => (w.1, w.2.map fun b => { b with lastModified := now }) := by
  unfold cacheWrite
  split
  · rw [blockOf_now e.data now]
    rcases MOESICache.blockOf e.data 0 with _ | b
    · rfl
    · dsimp only [Option.map_some, Option.bind_some]
      split <;> rfl
  · split
    · rcases e.data.lookup "key" with _ | key
      · rfl
      · dsimp only [Option.bind_some]
        split <;> rfl
    · rfl

theorem cacheEffect_eq (now : ℚ) (e : LogEntry) :
    e.cacheEffect = (e.cacheWrite now).map fun w => (w.1, w.2.bind CacheBlock.live?) := by
  rw [cacheEffect, cacheWrite_now now]
  rcases e.cacheWrite 0 with _ | ⟨key, _ | b⟩ <;> rfl

/-- The entry is the invalidation that a node has asked for, and does nothing on this node. -/
def spares (e : LogEntry) (nodeId : String) : Bool :=
  e.command = "CACHE_INVALIDATE_ALL" && (e.data.lookup "except_node").getD .null == .str nodeId

theorem cacheWrite_hashable {now : ℚ} {e : LogEntry} {k : Value} {b : Option CacheBlock}
    (h : e.cacheWrite now = some (k, b)) : k.hashable = true := by
  unfold cacheWrite at h
  split at h
  · obtain ⟨b', -, h⟩ := Option.bind_eq_some_iff.mp h
    rw [Option.ite_none_right_eq_some] at h
    obtain ⟨hk, h⟩ := h
    cases h
    exact hk
  · split at h
    · obtain ⟨k', -, h⟩ := Option.bind_eq_some_iff.mp h
      rw [Option.ite_none_right_eq_some] at h
      obtain ⟨hk, h⟩ := h
      cases h
      exact hk
    · cases h

/-- The map after an entry that spares no node. -/
def applyTo (e : LogEntry) (m : Value → Option Value) : Value → Option Value :=
  match e.cacheEffect with
  | none => m
  | some (k, v) => assign m k v

end LogEntry

/-- The map that the entries of a log leave: for each key the value of the last CACHE_PUT that no
invalidation follows. -/
def mapOf (log : List LogEntry) : Value → Option Value :=
  log.foldl (fun m e => e.applyTo m) fun _ => none

theorem mapOf_concat (log : List LogEntry) (e : LogEntry) :
    mapOf (log ++ [e]) = e.applyTo (mapOf log) := List.foldl_append ..

namespace MOESICache

variable (c : MOESICache) (now : ℚ) {k key value ttl : Value}

/-- The key -> value map of the blocks that are not INVALID. -/
def live (k : Value) : Option Value := (c.cache.lookup k).bind CacheBlock.live?

theorem live_congr {k' : Value} (h : (k == k') = true) : c.live k = c.live k' := by
  rw [live, live, lookup_congr h]

theorem live_setItem {c' : MOESICache} {b : CacheBlock} (h : c'.cache = setItem c.cache k b) :
    c'.live = assign c.live k b.live? := by
  funext k'
  rw [live, h, lookup_setItem, assign]
  split <;> rfl

theorem live_delItem {c' : MOESICache} (h : c'.cache = delItem c.cache k) :
    c'.live = assign c.live k none := by
  funext k'
  rw [live, h, lookup_delItem, assign]
  split <;> rfl

theorem live_of_cache {c c' : MOESICache} (h : c'.cache = c.cache) : c'.live = c.live := by
  funext k'
  rw [live, live, h]

theorem assign_live {v : Option Value} (h : c.live k = v) : assign c.live k v = c.live := by
  funext k'
  by_cases hk : (k' == k) = true
  · rw [assign_self _ hk, ← h, live_congr c hk]
  · rw [assign_ne _ hk]

/-! ## Calls -/

/-- A call of `get` returns and leaves the blocks alone, drops an INVALID block, or invalidates an
expired one and waits. -/
theorem get_cases (key : Value) :
    ((c.get key now).1.cache = c.cache ∧ ∃ r, (c.get key now).2 = .done r) ∨
      (∃ b, c.cache.lookup key = some b ∧ b.state = .invalid ∧
        (c.get key now).1.cache = delItem c.cache key ∧
        (c.get key now).2 = .done (.get key .null)) ∨
      ∃ b, key.hashable = true ∧ c.cache.lookup key = some b ∧ b.state ≠ .invalid ∧
        (c.get key now).1.cache = setItem c.cache key { b with state := .invalid } ∧
        (c.get key now).2 = .append (.invalidateBlock key (.get key)) := by
  unfold get
  split
  · next hkey =>
    split
    · exact Or.inl ⟨rfl, _, rfl⟩
    · next b hb =>
      split
      · next hs => exact Or.inr (Or.inl ⟨b, hb, hs, rfl, rfl⟩)
      · next hs =>
        split
        · exact Or.inl ⟨rfl, _, rfl⟩
        · split
          · refine Or.inr (Or.inr ⟨b, hkey, hb, hs, ?_⟩)
            simp only [invalidateBlock, hb, and_self]
          · exact Or.inl ⟨rfl, _, rfl⟩
  · exact Or.inl ⟨rfl, _, rfl⟩

theorem put_fst : (c.put key value ttl now).1 = c := by
  unfold put
  split
  · dsimp only
    split <;> rfl
  · rfl

theorem handleInvalidation_cases (key : Value) (fromNode : String) :
    (c.handleInvalidation key fromNode).1 = c ∨
      (c.cache.lookup key).isSome = true ∧
        (c.handleInvalidation key fromNode).1.cache = delItem c.cache key := by
  unfold handleInvalidation
  split
  · split
    · exact Or.inl rfl
    · next hb =>
      split
      · exact Or.inr ⟨by rw [hb]; rfl, rfl⟩
      · exact Or.inl rfl
  · exact Or.inl rfl

/-- A call of `put` raises, goes on to its CACHE_PUT, or asks for ownership first. -/
theorem put_cases (key value ttl : Value) :
    (c.put key value ttl now).2 = .done .raised ∨
      (key.hashable = true ∧ ∃ nodeId ttl' block,
        (c.put key value ttl now).2 = .append (.replicate nodeId key value ttl' block)) ∨
      key.hashable = true ∧ ∃ nodeId ttl',
        (c.put key value ttl now).2 = .append (.acquireExclusive nodeId key value ttl') := by
  unfold put
  split
  · next hkey =>
    dsimp only
    split
    · exact Or.inr (Or.inl ⟨hkey, _, _, _, rfl⟩)
    · exact Or.inr (Or.inr ⟨hkey, _, _, rfl⟩)
  · exact Or.inl rfl

/-! ## Coroutines that go on -/

theorem evict_mem {p : LRUEvictionPolicy} {keys : List Value} {k : Value}
    (h : p.evict keys = some k) : k ∈ keys := by
  cases keys with
  | nil => cases h
  | cons k₀ keys =>
    obtain rfl := Option.some.inj h
    have key : ∀ (keys : List Value) (m : Value), keys.foldl
        (fun m k => if p.accessTime k < p.accessTime m then k else m) m ∈ m :: keys := by
      intro keys
      induction keys with
      | nil => exact fun m => List.mem_cons_self
      | cons k keys ih =>
        intro m
        rw [List.foldl_cons]
        split
        · exact List.mem_cons_of_mem _ (ih k)
        · rcases List.mem_cons.mp (ih m) with hm | hm
          · rw [hm]
            exact List.mem_cons_self
          · exact List.mem_cons_of_mem _ (List.mem_cons_of_mem _ hm)
    exact key keys k₀

theorem lookup_isSome_of_mem {d : List (Value × CacheBlock)} (h : k ∈ d.map Prod.fst) :
    ∃ b, d.lookup k = some b := by
  obtain ⟨p, hp, rfl⟩ := List.mem_map.mp h
  rcases hl : d.lookup p.1 with _ | b
  · have := lookup_eq_none_iff.mp hl p hp
    rw [BEq.rfl] at this
    cases this
  · exact ⟨b, rfl⟩

/-- A `put` stores its block. Then it returns, because the cache is not too large or the key to
evict is not truthy, or it invalidates another block and waits. -/
theorem store_cases (key value : Value) (block : CacheBlock) :
    ∃ c' : MOESICache, c'.cache = setItem c.cache key block ∧ c'.nodeId = c.nodeId ∧
      (c.store key value block now = (c', .done (.put key value true)) ∧
          ((c'.cache.length : ℤ) ≤ c.maxSize ∨
            ∃ victim ∈ c'.cache.map Prod.fst, victim.truthy = false) ∨
        ∃ victim b, victim.truthy = true ∧ c'.cache.lookup victim = some b ∧
          c.maxSize < c'.cache.length ∧ c.store key value block now =
            ({ c' with cache := setItem c'.cache victim { b with state := .invalid } },
              .append (.invalidateBlock victim (.put key value)))) := by
  refine ⟨{ c with cache := setItem c.cache key block,
                   evictionPolicy := c.evictionPolicy.access key now }, rfl, rfl, ?_⟩
  unfold store
  dsimp only
  split
  · next hlen =>
    split
    · next victim hv =>
      have hmem := evict_mem hv
      split
      · next ht =>
        obtain ⟨b, hb⟩ := lookup_isSome_of_mem hmem
        refine Or.inr ⟨victim, b, ht, hb, hlen, ?_⟩
        simp only [invalidateBlock, hb]
      · next ht => exact Or.inl ⟨rfl, Or.inr ⟨victim, hmem, Bool.not_eq_true _ ▸ ht⟩⟩
    · next hv =>
      have hnil : setItem c.cache key block = [] := by
        rcases h : setItem c.cache key block with _ | ⟨p, d⟩
        · rfl
        · rw [h] at hv
          cases hv
      have hself : (setItem c.cache key block).lookup key = some block := by
        rw [lookup_setItem, if_pos BEq.rfl]
      rw [hnil] at hself
      cases hself
  · next hlen => exact Or.inl ⟨rfl, Or.inl (not_lt.mp hlen)⟩

/-- An invalidation that is acknowledged leaves no block of the key, and ends. -/
theorem resume_invalidateBlock (key : Value) (caller : Caller) :
    (c.resume now (.invalidateBlock key caller) (.returned true)).1.live = assign c.live key none ∧
      (c.resume now (.invalidateBlock key caller) (.returned true)).2.frame? = none := by
  rcases hb : c.cache.lookup key with _ | b
  · have hres : c.resume now (.invalidateBlock key caller) (.returned true) =
        (c, .done .raised) := by
      simp [resume, hb]
    rw [hres]
    exact ⟨(c.assign_live (by rw [live, hb]; rfl)).symm, rfl⟩
  · constructor
    · exact live_delItem c (by simp [resume, hb])
    · simp [resume, hb, Outcome.frame?]

/-! ## Frames -/

/-- The calls of `append_entry` that a call begins with. -/
inductive Opens (c : MOESICache) : Op → Frame → Prop
  | acquire (key value ttl ttl' : Value) (h : ttl ≠ .null → ttl' = ttl) :
    Opens c (.put key value ttl) (.acquireExclusive c.nodeId key value ttl')
  | replicate (key value ttl ttl' : Value) (block : CacheBlock) (h : ttl ≠ .null → ttl' = ttl)
    (hb : block.ttl = ttl') :
    Opens c (.put key value ttl) (.replicate c.nodeId key value ttl' block)
  | expire (key : Value) : Opens c (.get key) (.invalidateBlock key (.get key))

theorem start_opens {op : Op} {f : Frame} (hf : f ∈ (c.start now op).2.frame?) :
    c.Opens op f := by
  cases op with
  | get key =>
    rcases c.get_cases now key with ⟨-, r, hr⟩ | ⟨b, -, -, -, hr⟩ | ⟨b, -, -, -, -, hr⟩
    all_goals
      rw [start, hr] at hf
      cases hf
    exact .expire key
  | put key value ttl =>
    change f ∈ (c.put key value ttl now).2.frame? at hf
    unfold put at hf
    split at hf
    · dsimp only at hf
      split at hf
      · cases hf
        refine .replicate key value ttl _ _ (fun h => ?_) rfl
        cases ttl <;> first | rfl | exact absurd rfl h
      · cases hf
        refine .acquire key value ttl _ fun h => ?_
        cases ttl <;> first | rfl | exact absurd rfl h
    · cases hf
  | handleInvalidation key fromNode =>
    change f ∈ (c.handleInvalidation key fromNode).2.frame? at hf
    unfold handleInvalidation at hf
    split at hf
    · split at hf
      · cases hf
      · split at hf <;> cases hf
    · cases hf

/-- The calls of `append_entry` of a `put`, one after the other. -/
inductive Frame.Next : Frame → Frame → Prop
  | broadcast (nodeId : String) (key value ttl : Value) :
    Next (.acquireExclusive nodeId key value ttl) (.broadcastInvalidation nodeId key value ttl)
  | replicate (nodeId : String) (key value ttl : Value) (block : CacheBlock)
      (hb : block.ttl = ttl) :
    Next (.broadcastInvalidation nodeId key value ttl) (.replicate nodeId key value ttl block)
  | evict (nodeId : String) (key value ttl : Value) (block : CacheBlock) (victim : Value) :
    Next (.replicate nodeId key value ttl block) (.invalidateBlock victim (.put key value))

theorem resume_next {frame f : Frame} {a : Appended}
    (hf : f ∈ (c.resume now frame a).2.frame?) : frame.Next f := by
  rcases a with ⟨success⟩ | _
  swap
  · cases frame <;> cases hf
  cases frame with
  | acquireExclusive nodeId key value ttl =>
    cases success <;> cases hf
    exact .broadcast ..
  | broadcastInvalidation nodeId key value ttl =>
    cases hf
    exact .replicate _ _ _ _ _ rfl
  | replicate nodeId key value ttl block =>
    cases success
    · cases hf
    · change f ∈ (c.store key value block now).2.frame? at hf
      obtain ⟨c', -, -, ⟨heq, -⟩ | ⟨victim, b, -, -, -, heq⟩⟩ := c.store_cases now key value block
      all_goals
        rw [heq] at hf
        cases hf
      exact .evict ..
  | invalidateBlock key caller =>
    cases success
    · cases hf
    · simp only [resume, if_true] at hf
      split at hf <;> cases hf

/-! ## Applied entries -/

theorem delItem_of_none {d : List (Value × CacheBlock)} (h : d.lookup k = none) :
    delItem d k = d := List.filter_eq_self.mpr fun p hp => by
  rw [lookup_eq_none_iff.mp h p hp]
  rfl

/-- An applied entry sets or deletes one item, unless it spares the node. -/
theorem handleCommit_cache (e : LogEntry) :
    (c.handleCommit now e).1.cache = if e.spares c.nodeId then c.cache else
      match e.cacheWrite now with
      | none => c.cache
      | some (k, some b) => setItem c.cache k b
      | some (k, none) => delItem c.cache k := by
  have hdrop : ∀ key, (c.dropBlock key).1.cache =
      if key.hashable then delItem c.cache key else c.cache := by
    intro key
    unfold dropBlock
    split
    · rcases hb : c.cache.lookup key with _ | b
      · exact (delItem_of_none hb).symm
      · rfl
    · rfl
  unfold handleCommit LogEntry.cacheWrite LogEntry.spares
  by_cases hput : e.command = "CACHE_PUT"
  · rw [if_pos hput, if_pos hput, hput, decide_eq_false (by decide), Bool.false_and,
      if_neg Bool.false_ne_true]
    rcases blockOf e.data now with _ | b
    · rfl
    · dsimp only [Option.bind_some]
      split <;> rfl
  · rw [if_neg hput, if_neg hput]
    by_cases hinv : e.command = "CACHE_INVALIDATE"
    · rw [if_pos hinv, if_pos (Or.inl hinv), hinv, decide_eq_false (by decide), Bool.false_and,
        if_neg Bool.false_ne_true]
      rcases e.data.lookup "key" with _ | key
      · rfl
      · rw [hdrop, Option.bind_some]
        split <;> rfl
    · rw [if_neg hinv]
      by_cases hall : e.command = "CACHE_INVALIDATE_ALL"
      · rw [if_pos hall, if_pos (Or.inr hall), hall, decide_eq_true rfl, Bool.true_and]
        rcases e.data.lookup "key" with _ | key
        · simp
        · dsimp only
          split
          · rfl
          · rw [hdrop, Option.bind_some]
            split <;> rfl
      · rw [if_neg hall, decide_eq_false hall, Bool.false_and, if_neg Bool.false_ne_true,
          if_neg (by simp [hinv, hall])]

theorem handleCommit_live (e : LogEntry) :
    (c.handleCommit now e).1.live =
      if e.spares c.nodeId then c.live else e.applyTo c.live := by
  have hcache := c.handleCommit_cache now e
  split at hcache
  · next hs => rw [if_pos hs, live_of_cache hcache]
  · next hs =>
    rw [if_neg hs, LogEntry.applyTo, LogEntry.cacheEffect_eq now]
    rcases hw : e.cacheWrite now with _ | ⟨k, _ | b⟩ <;> rw [hw] at hcache
    · exact live_of_cache hcache
    · exact live_delItem c hcache
    · exact live_setItem c hcache

/-! ## Entries of puts -/

theorem ofName?_upper (s : CacheState) : CacheState.ofName? (upper s.value) = some s := by
  cases s <;> decide

theorem blockOf_fields {data : Dict} {now : ℚ} {b : CacheBlock} (h : blockOf data now = some b) :
    data.lookup "owner" = some b.ownerNode ∧ data.lookup "ttl" = some b.ttl := by
  simp only [blockOf, Option.bind_eq_bind, Option.bind_eq_some_iff] at h
  obtain ⟨key, -, value, -, h⟩ := h
  split at h
  · simp only [Option.bind_eq_some_iff] at h
    obtain ⟨state, -, owner, howner, ttl, httl, h⟩ := h
    cases h
    exact ⟨howner, httl⟩
  · cases h

/-- The block of an entry that a call has logged is one of a `put` of the owner. -/
theorem put_of_request {e : LogEntry} {f : Frame} {now : ℚ} {key : Value} {b : CacheBlock}
    (he : (e.command, e.data) = request f) (hw : e.cacheWrite now = some (key, some b)) :
    ∃ nodeId key' value ttl block, f = .replicate nodeId key' value ttl block ∧
      b.ownerNode = .str nodeId ∧ b.ttl = ttl := by
  obtain ⟨hc, hd⟩ := Prod.mk.inj he
  unfold LogEntry.cacheWrite at hw
  split at hw
  · next hput =>
    obtain ⟨b', hb, hw⟩ := Option.bind_eq_some_iff.mp hw
    rw [Option.ite_none_right_eq_some] at hw
    obtain ⟨-, hw⟩ := hw
    cases hw
    cases f with
    | replicate nodeId key' value ttl block =>
      obtain ⟨howner, httl⟩ := blockOf_fields hb
      rw [hd] at howner httl
      simp only [lookup_cons, String.reduceBEq, Bool.false_eq_true, if_true, if_false,
        Option.some.injEq] at howner httl
      exact ⟨nodeId, key', value, ttl, block, rfl, howner.symm, httl.symm⟩
    | acquireExclusive | broadcastInvalidation | invalidateBlock => simp [hput] at hc
  · split at hw
    · obtain ⟨key', -, hw⟩ := Option.bind_eq_some_iff.mp hw
      rw [Option.ite_none_right_eq_some] at hw
      cases hw.2
    · cases hw

theorem cacheWrite_of_replicate {nodeId : String} {ttl : Value} {block : CacheBlock} {e : LogEntry}
    (he : (e.command, e.data) = request (.replicate nodeId k value ttl block)) (now : ℚ) :
    e.cacheWrite now = if k.hashable then
      some (k, some { key := k, value := value.logged, state := block.state,
                      ownerNode := .str nodeId, lastModified := now, ttl }) else none := by
  obtain ⟨hc, hd⟩ := Prod.mk.inj he
  simp [LogEntry.cacheWrite, hc, hd, blockOf, lookup_cons, ofName?_upper]

/-! ## The dictionary -/

/-- A property of the dictionary that calls keep when they mark and delete blocks. -/
structure Keeps (P : List (Value × CacheBlock) → Prop) : Prop where
  mark : ∀ {d k b}, P d → d.lookup k = some b → P (setItem d k { b with state := .invalid })
  delete : ∀ {d k}, P d → P (delItem d k)

section Blocks

variable {R : Value → CacheBlock → Prop} {d : List (Value × CacheBlock)} {b : CacheBlock}

theorem forall_setItem (h : ∀ k b, d.lookup k = some b → R k b)
    (hb : ∀ k', (k' == key) = true → R k' b) :
    ∀ k' b', (setItem d key b).lookup k' = some b' → R k' b' := by
  intro k' b' hb'
  rw [lookup_setItem] at hb'
  split at hb'
  · next hk =>
    rw [← Option.some.inj hb']
    exact hb k' hk
  · exact h k' b' hb'

/-- A property of single blocks that their marks do not change. -/
theorem keeps_forall (hmark : ∀ k b, R k b → R k { b with state := .invalid }) :
    Keeps fun d => ∀ k b, d.lookup k = some b → R k b where
  mark {d k b} h hb :=
    forall_setItem h fun k' hk => hmark k' b (h k' b ((lookup_congr hk).trans hb))
  delete h k b hb := by
    rw [lookup_delItem] at hb
    split at hb
    · cases hb
    · exact h k b hb

end Blocks

section Rules

variable {c now} {P : List (Value × CacheBlock) → Prop} (hP : Keeps P) (h : P c.cache)

include hP h

theorem Keeps.start (op : Op) : P (c.start now op).1.cache := by
  cases op with
  | get key =>
    rcases c.get_cases now key with ⟨hc, -⟩ | ⟨b, -, -, hc, -⟩ | ⟨b, -, hb, -, hc, -⟩ <;>
      rw [MOESICache.start, hc]
    · exact h
    · exact hP.delete h
    · exact hP.mark h hb
  | put key value ttl =>
    rw [MOESICache.start, put_fst]
    exact h
  | handleInvalidation key fromNode =>
    rcases c.handleInvalidation_cases key fromNode with hc | ⟨-, hc⟩ <;> rw [MOESICache.start, hc]
    · exact h
    · exact hP.delete h

theorem Keeps.resume {frame : Frame} {a : Appended}
    (hstore : ∀ nodeId key value ttl block, frame = .replicate nodeId key value ttl block →
      a = .returned true → P (setItem c.cache key block)) : P (c.resume now frame a).1.cache := by
  rcases a with ⟨_ | _⟩ | _
  · cases frame <;> exact h
  · cases frame with
    | acquireExclusive | broadcastInvalidation => exact h
    | replicate nodeId key value ttl block =>
      obtain ⟨c', hc, -, hend⟩ := c.store_cases now key value block
      have h' : P c'.cache := hc ▸ hstore _ _ _ _ _ rfl rfl
      show P (c.store key value block now).1.cache
      rcases hend with ⟨heq, -⟩ | ⟨victim, b, -, hb, -, heq⟩ <;> rw [heq]
      · exact h'
      · exact hP.mark h' hb
    | invalidateBlock key caller =>
      simp only [MOESICache.resume, if_true]
      split
      · exact hP.delete h
      · exact h
  · cases frame <;> exact h

theorem Keeps.commit {e : LogEntry}
    (hput : ∀ key b, e.cacheWrite now = some (key, some b) → P (setItem c.cache key b)) :
    P (c.handleCommit now e).1.cache := by
  rw [handleCommit_cache]
  split
  · exact h
  · rcases hw : e.cacheWrite now with _ | ⟨key, _ | b⟩
    · exact h
    · exact hP.delete h
    · exact hput key b hw

end Rules

end MOESICache

end DistributedSync
