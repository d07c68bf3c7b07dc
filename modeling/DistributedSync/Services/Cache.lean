import DistributedSync.Services.Interface

/-!
# The cache

`LRUEvictionPolicy` and `MOESICache` of `src/src/services/cache_service.py`. The code changes the
state of a block in place only while the block is in the cache and nothing else refers to it, so
blocks are values here.
-/

namespace DistributedSync

/-! ## Eviction -/

/-- Least Recently Used eviction policy. -/
structure LRUEvictionPolicy where
  accessTimes : List (Value × ℚ) := []

namespace LRUEvictionPolicy

/-- Record access time. -/
def access (p : LRUEvictionPolicy) (key : Value) (now : ℚ) : LRUEvictionPolicy :=
  { p with accessTimes := setItem p.accessTimes key now }

/-- The time `evict` compares: 0 for a key never accessed. -/
def accessTime (p : LRUEvictionPolicy) (key : Value) : ℚ := (p.accessTimes.lookup key).getD 0

/-- Evict least recently used item: the first key with the oldest access time. -/
def evict (p : LRUEvictionPolicy) : List Value → Option Value
  | [] => none
  | key :: keys => some (keys.foldl
      (fun minKey key => if p.accessTime key < p.accessTime minKey then key else minKey) key)

end LRUEvictionPolicy

/-! ## The cache -/

/-- Distributed cache with MOESI coherence protocol. `maxSize` and `defaultTtl` are the
configuration's `max_size` and `ttl`. -/
structure MOESICache where
  nodeId : String
  maxSize : ℤ
  defaultTtl : Value
  cache : List (Value × CacheBlock) := []
  evictionPolicy : LRUEvictionPolicy := {}
  hits : ℕ := 0
  misses : ℕ := 0
  invalidations : ℕ := 0
  pendingInvalidations : List Value := []

namespace MOESICache

/-- Coroutines that begin. A `ttl` of None is `null`. -/
inductive Op where
  | get (key : Value)
  | put (key value ttl : Value)
  | handleInvalidation (key : Value) (fromNode : String)

/-- The call that invalidates a block: a `get` that finds it expired, or a `put` that evicts it. -/
inductive Caller where
  | get (key : Value)
  | put (key value : Value)

/-- Coroutines at an `append_entry` call. -/
inductive Frame where
  | acquireExclusive (nodeId : String) (key value ttl : Value)
  | broadcastInvalidation (nodeId : String) (key value ttl : Value)
  | replicate (nodeId : String) (key value ttl : Value) (block : CacheBlock)
  | invalidateBlock (key : Value) (caller : Caller)

/-- What the calls return, with their arguments; None is `null`. -/
inductive Result where
  | get (key value : Value)
  | put (key value : Value) (success : Bool)
  | handleInvalidation (key : Value)
  | raised

/-- The `append_entry` call of a frame. -/
def request : Frame → String × Dict
  | .acquireExclusive nodeId key _ _ =>
    ("CACHE_ACQUIRE_EXCLUSIVE", [("key", key), ("owner", .str nodeId)])
  | .broadcastInvalidation nodeId key _ _ =>
    ("CACHE_INVALIDATE_ALL", [("key", key), ("except_node", .str nodeId)])
  | .replicate nodeId key value ttl block =>
    ("CACHE_PUT", [("key", key), ("value", value.logged), ("state", .str block.state.value),
      ("owner", .str nodeId), ("ttl", ttl)])
  | .invalidateBlock key _ => ("CACHE_INVALIDATE", [("key", key)])

/-- What the caller returns once the block is invalidated, or is not. -/
def Caller.result : Caller → Result
  | .get key => .get key .null
  | .put key value => .put key value true

variable (c : MOESICache)

/-- `_invalidate_block` up to its `append_entry` call. -/
def invalidateBlock (key : Value) (caller : Caller) : MOESICache × Outcome Frame Result :=
  match c.cache.lookup key with
  | none => (c, .done caller.result)
  | some block =>
    ({ c with cache := setItem c.cache key { block with state := .invalid } },
      .append (.invalidateBlock key caller))

/-- Get value from cache. -/
def get (key : Value) (now : ℚ) : MOESICache × Outcome Frame Result :=
  if key.hashable then
    match c.cache.lookup key with
    | none => ({ c with misses := c.misses + 1 }, .done (.get key .null))
    | some block =>
      if block.state = .invalid then
        ({ c with misses := c.misses + 1, cache := delItem c.cache key }, .done (.get key .null))
      else
        match block.ttl.num? with
        | none => (c, .done .raised)
        | some ttl =>
          if 0 < ttl ∧ ttl < now - block.lastModified then
            { c with misses := c.misses + 1 }.invalidateBlock key (.get key)
          else
            ({ c with evictionPolicy := c.evictionPolicy.access key now, hits := c.hits + 1 },
              .done (.get key block.value))
  else (c, .done .raised)

/-- `put` up to its first `append_entry` call. -/
def put (key value ttl : Value) (now : ℚ) : MOESICache × Outcome Frame Result :=
  if key.hashable then
    let ttl := match ttl with
      | .null => c.defaultTtl
      | ttl => ttl
    let owned := (c.cache.lookup key).any fun existing =>
      existing.state = .modified || existing.state = .owned
    if owned then
      (c, .append (.replicate c.nodeId key value ttl
        { key, value, state := .modified, ownerNode := .str c.nodeId, lastModified := now, ttl }))
    else (c, .append (.acquireExclusive c.nodeId key value ttl))
  else (c, .done .raised)

/-- The state of a block after an invalidation request: exclusive and modified blocks withstand a
request of their own node. -/
def invalidated (state : CacheState) (fromNode : String) : CacheState :=
  match state with
  | .exclusive | .modified => if fromNode ≠ c.nodeId then .invalid else state
  | .shared | .owned | .invalid => .invalid

/-- Handle invalidation request from other node. -/
def handleInvalidation (key : Value) (fromNode : String) : MOESICache × Outcome Frame Result :=
  if key.hashable then
    match c.cache.lookup key with
    | none => (c, .done (.handleInvalidation key))
    | some block =>
      if c.invalidated block.state fromNode = .invalid then
        ({ c with cache := delItem c.cache key, invalidations := c.invalidations + 1 },
          .done (.handleInvalidation key))
      else (c, .done (.handleInvalidation key))
  else (c, .done .raised)

/-- A coroutine begins. -/
def start (now : ℚ) : Op → MOESICache × Outcome Frame Result
  | .get key => c.get key now
  | .put key value ttl => c.put key value ttl now
  | .handleInvalidation key fromNode => c.handleInvalidation key fromNode

/-- The end of a `put` whose entry is replicated: evict one item when the cache is too large. A key
that is not truthy is not evicted. -/
def store (key value : Value) (block : CacheBlock) (now : ℚ) :
    MOESICache × Outcome Frame Result :=
  let c := { c with cache := setItem c.cache key block,
                    evictionPolicy := c.evictionPolicy.access key now }
  if c.maxSize < c.cache.length then
    match c.evictionPolicy.evict (c.cache.map Prod.fst) with
    | some keyToEvict =>
      if keyToEvict.truthy then c.invalidateBlock keyToEvict (.put key value)
      else (c, .done (.put key value true))
    | none => (c, .done (.put key value true))
  else (c, .done (.put key value true))

/-- A coroutine comes back from `append_entry`. -/
def resume (now : ℚ) : Frame → Appended → MOESICache × Outcome Frame Result
  | _, .raised => (c, .done .raised)
  | .acquireExclusive nodeId key value ttl, .returned success =>
    if success then (c, .append (.broadcastInvalidation nodeId key value ttl))
    else (c, .done (.put key value false))
  | .broadcastInvalidation nodeId key value ttl, .returned success =>
    ({ c with pendingInvalidations :=
                if success then addElem c.pendingInvalidations key else c.pendingInvalidations },
      .append (.replicate nodeId key value ttl
        { key, value, state := .exclusive, ownerNode := .str nodeId, lastModified := now, ttl }))
  | .replicate _ key value _ block, .returned success =>
    if success then c.store key value block now else (c, .done (.put key value false))
  | .invalidateBlock key caller, .returned success =>
    if success then
      if (c.cache.lookup key).isSome then
        ({ c with cache := delItem c.cache key, invalidations := c.invalidations + 1 },
          .done caller.result)
      else (c, .done .raised)
    else (c, .done caller.result)

/-- `data["state"].upper()`, for a string. -/
def upper (s : String) : String := String.ofList (s.toList.map Char.toUpper)

/-- The block of a CACHE_PUT entry; `none` when a key is missing or the state is unknown. -/
def blockOf (data : Dict) (now : ℚ) : Option CacheBlock := do
  let key ← data.lookup "key"
  let value ← data.lookup "value"
  let state ← match data.lookup "state" with
    | some (.str s) => CacheState.ofName? (upper s)
    | _ => none
  let ownerNode ← data.lookup "owner"
  let ttl ← data.lookup "ttl"
  return { key, value, state, ownerNode, lastModified := now, ttl }

/-- A committed invalidation: the block goes, if there is one. -/
def dropBlock (key : Value) : MOESICache × Bool :=
  if key.hashable then
    if (c.cache.lookup key).isSome then
      ({ c with cache := delItem c.cache key, invalidations := c.invalidations + 1 }, false)
    else (c, false)
  else (c, true)

/-- Handle committed log entry, and whether this raises. -/
def handleCommit (now : ℚ) (entry : LogEntry) : MOESICache × Bool :=
  if entry.command = "CACHE_PUT" then
    match blockOf entry.data now with
    | none => (c, true)
    | some block =>
      if block.key.hashable then ({ c with cache := setItem c.cache block.key block }, false)
      else (c, true)
  else if entry.command = "CACHE_INVALIDATE" then
    match entry.data.lookup "key" with
    | none => (c, true)
    | some key => c.dropBlock key
  else if entry.command = "CACHE_INVALIDATE_ALL" then
    match entry.data.lookup "key" with
    | none => (c, true)
    | some key =>
      if (entry.data.lookup "except_node").getD .null == .str c.nodeId then (c, false)
      else c.dropBlock key
  else (c, false)

end MOESICache

end DistributedSync
