import Mathlib.Data.Rat.Defs
import Mathlib.Data.List.Basic

/-!
# Data types of the system

The enumerations and dataclasses of `src/src/core/types.py`, and JSON-like values for the
`Dict[str, Any]` payloads. A timestamp is left out where no modelled function reads it. Clients send
values of any type, whatever the annotations say. The messages of Raft come from other nodes, and
their fields have the declared types: a null `sender_id`, say, is outside the model.

`getItem` and `sliceTo` are Python's `l[i]` and `l[:i]`, negative indices included.
-/

namespace DistributedSync

/-- The values a log entry or a message can carry: JSON values, with integers and floats kept
apart as Python keeps them. -/
inductive Value where
  | null
  | bool (b : Bool)
  | int (n : ℤ)
  | float (x : ℚ)
  | str (s : String)
  | list (l : List Value)
  | dict (fields : List (String × Value))
  deriving Inhabited

/-- `Dict[str, Any]`, in insertion order. -/
abbrev Dict := List (String × Value)

/-- Consensus message types. -/
inductive MessageType where
  | requestVote
  | voteResponse
  | appendEntries
  | appendResponse
  | lockRequest
  | lockGrant
  | queuePublish
  | cacheUpdate
  | cacheInvalidate
  | heartbeat
  deriving DecidableEq, Repr

/-- The member's name, as an f-string prints it after the class name. -/
def MessageType.name : MessageType → String
  | .requestVote => "REQUEST_VOTE"
  | .voteResponse => "VOTE_RESPONSE"
  | .appendEntries => "APPEND_ENTRIES"
  | .appendResponse => "APPEND_RESPONSE"
  | .lockRequest => "LOCK_REQUEST"
  | .lockGrant => "LOCK_GRANT"
  | .queuePublish => "QUEUE_PUBLISH"
  | .cacheUpdate => "CACHE_UPDATE"
  | .cacheInvalidate => "CACHE_INVALIDATE"
  | .heartbeat => "HEARTBEAT"

/-- Raft node states. -/
inductive NodeState where
  | follower
  | candidate
  | leader
  deriving DecidableEq, Repr

/-- Lock types. -/
inductive LockType where
  | shared
  | exclusive
  deriving DecidableEq, Repr

/-- `lock_type.value`. -/
def LockType.value : LockType → String
  | .shared => "shared"
  | .exclusive => "exclusive"

/-- `LockType(v)`; `none` for a `ValueError`. -/
def LockType.ofValue? : Value → Option LockType
  | .str s =>
    if s = "shared" then some .shared else if s = "exclusive" then some .exclusive else none
  | _ => none

/-- MOESI cache coherence states. -/
inductive CacheState where
  | modified
  | owned
  | exclusive
  | shared
  | invalid
  deriving DecidableEq, Repr

/-- `state.value`. -/
def CacheState.value : CacheState → String
  | .modified => "modified"
  | .owned => "owned"
  | .exclusive => "exclusive"
  | .shared => "shared"
  | .invalid => "invalid"

/-- `CacheState[name]`; `none` for a `KeyError`. -/
def CacheState.ofName? (name : String) : Option CacheState :=
  [("MODIFIED", CacheState.modified), ("OWNED", .owned), ("EXCLUSIVE", .exclusive),
    ("SHARED", .shared), ("INVALID", .invalid)].lookup name

/-- Consensus log entry. -/
structure LogEntry where
  term : ℤ
  index : ℤ
  command : String
  data : Dict
  deriving Inhabited

/-- What an entry says, its position apart. -/
def LogEntry.content (e : LogEntry) : ℤ × String × Dict := (e.term, e.command, e.data)

/-- Distributed lock. -/
structure Lock where
  lockId : Value
  resource : Value
  owner : Value
  lockType : LockType
  ttl : Value

/-- Message in distributed queue. -/
structure QueueMessage where
  msgId : Value
  payload : Value
  partitionId : Value
  timestamp : ℚ
  acked : Bool := false
  deliveryCount : ℕ := 0

/-- Cache block with MOESI state. -/
structure CacheBlock where
  key : Value
  value : Value
  state : CacheState
  ownerNode : Value
  lastModified : ℚ
  ttl : Value

/-- The `data` dictionary of a Raft message: each field is a key some handler looks up, `none`
when the key is missing. -/
structure MessageData where
  lastLogIndex : Option ℤ := none
  lastLogTerm : Option ℤ := none
  prevLogIndex : Option ℤ := none
  prevLogTerm : Option ℤ := none
  entries : Option (List LogEntry) := none
  leaderCommit : Option ℤ := none
  voteGranted : Option Bool := none
  success : Option Bool := none
  matchIndex : Option ℤ := none
  error : Option String := none

/-- Inter-node message. -/
structure Message where
  messageType : MessageType
  senderId : String
  term : ℤ
  data : MessageData

section Python

variable {α : Type*}

/-- `l[i]`, with `none` for an `IndexError`. -/
def getItem (l : List α) (i : ℤ) : Option α :=
  if 0 ≤ i then l[i.toNat]?
  else if 0 ≤ l.length + i then l[(l.length + i).toNat]? else none

/-- `l[:i]`. -/
def sliceTo (l : List α) (i : ℤ) : List α :=
  if 0 ≤ i then l.take i.toNat else l.take (l.length + i).toNat

@[simp] theorem getItem_natCast (l : List α) (k : ℕ) : getItem l (k : ℤ) = l[k]? := by
  simp [getItem]

@[simp] theorem sliceTo_natCast (l : List α) (k : ℕ) : sliceTo l (k : ℤ) = l.take k := by
  simp [sliceTo]

end Python

end DistributedSync
