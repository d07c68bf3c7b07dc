import DistributedSync.Core.JsonText
import DistributedSync.Raft.Node

/-!
# Messages on the wire

`message_to_dict` and `message_from_dict`, with the JSON text between them. A message whose entries
carry dictionaries with distinct keys arrives as it was sent (`deliver_eq`).
-/

namespace DistributedSync

open Json (Text FloatFormat)

variable {T : Type}

/-- `message_type.value`. -/
def MessageType.value : MessageType → String
  | .requestVote => "request_vote"
  | .voteResponse => "vote_response"
  | .appendEntries => "append_entries"
  | .appendResponse => "append_response"
  | .lockRequest => "lock_request"
  | .lockGrant => "lock_grant"
  | .queuePublish => "queue_publish"
  | .cacheUpdate => "cache_update"
  | .cacheInvalidate => "cache_invalidate"
  | .heartbeat => "heartbeat"

/-- `MessageType(v)`; `none` for a `ValueError`. -/
def MessageType.ofValue? : Value → Option MessageType
  | .str s => [MessageType.requestVote, .voteResponse, .appendEntries, .appendResponse,
      .lockRequest, .lockGrant, .queuePublish, .cacheUpdate, .cacheInvalidate, .heartbeat].find?
        fun t => t.value = s
  | _ => none

theorem MessageType.ofValue?_value (t : MessageType) : ofValue? (.str t.value) = some t := by
  cases t <;> decide

/-! ## Typed fields -/

namespace Value

/-- A string. -/
def string? : Value → Option String
  | .str s => some s
  | _ => none

/-- `int(v)`; `none` when it raises. -/
def int? : Value → Option ℤ
  | .bool b => some (if b then 1 else 0)
  | .int n => some n
  | .float x => some (if x < 0 then -(-x).floor else x.floor)
  | .str s => s.toInt?
  | _ => none

/-- A truth value. -/
def bool? : Value → Option Bool
  | .bool b => some b
  | _ => none

/-- A dictionary. -/
def dict? : Value → Option Dict
  | .dict d => some d
  | _ => none

end Value

/-- The items that are there. -/
def present (items : List (String × Option Value)) : Dict :=
  items.filterMap fun p => p.2.map (p.1, ·)

/-- A key that may be missing, with a value of one type. -/
def optionalKey {α : Type} (d : Dict) (k : String) (read : Value → Option α) :
    Option (Option α) :=
  match d.lookup k with
  | none => some none
  | some v => (read v).map some

/-! ## Messages -/

/-- An entry of `entries`. -/
def LogEntry.toDict (e : LogEntry) : Value :=
  .dict [("term", .int e.term), ("index", .int e.index), ("command", .str e.command),
    ("data", .dict e.data)]

/-- The entry `_handle_append_entries` makes of it; `none` where a key that every sender writes is
missing. -/
def LogEntry.ofDict (v : Value) : Option LogEntry :=
  v.dict?.bind fun d =>
    (d.lookup "term").bind fun term => term.int?.bind fun term =>
    (d.lookup "index").bind fun index => index.int?.bind fun index =>
    (d.lookup "command").bind fun command => command.string?.bind fun command =>
    ((d.lookup "data").getD (.dict [])).dict?.map fun data => { term, index, command, data }

/-- The list `entries`. -/
def entriesOf : List Value → Option (List LogEntry)
  | [] => some []
  | v :: l => (LogEntry.ofDict v).bind fun e => (entriesOf l).map (e :: ·)

def Value.entries? : Value → Option (List LogEntry)
  | .list l => entriesOf l
  | _ => none

/-- The items of `message.data`. -/
def MessageData.items (data : MessageData) : List (String × Option Value) :=
  [("last_log_index", data.lastLogIndex.map .int), ("last_log_term", data.lastLogTerm.map .int),
    ("prev_log_index", data.prevLogIndex.map .int), ("prev_log_term", data.prevLogTerm.map .int),
    ("entries", data.entries.map fun es => .list (es.map LogEntry.toDict)),
    ("leader_commit", data.leaderCommit.map .int), ("vote_granted", data.voteGranted.map .bool),
    ("success", data.success.map .bool), ("match_index", data.matchIndex.map .int),
    ("error", data.error.map .str)]

/-- The keys of `message.data` that some handler looks up. -/
def MessageData.ofDict (d : Dict) : Option MessageData :=
  (optionalKey d "last_log_index" Value.int?).bind fun lastLogIndex =>
  (optionalKey d "last_log_term" Value.int?).bind fun lastLogTerm =>
  (optionalKey d "prev_log_index" Value.int?).bind fun prevLogIndex =>
  (optionalKey d "prev_log_term" Value.int?).bind fun prevLogTerm =>
  (optionalKey d "entries" Value.entries?).bind fun entries =>
  (optionalKey d "leader_commit" Value.int?).bind fun leaderCommit =>
  (optionalKey d "vote_granted" Value.bool?).bind fun voteGranted =>
  (optionalKey d "success" Value.bool?).bind fun success =>
  (optionalKey d "match_index" Value.int?).bind fun matchIndex =>
  (optionalKey d "error" Value.string?).map fun error =>
    { lastLogIndex, lastLogTerm, prevLogIndex, prevLogTerm, entries, leaderCommit, voteGranted,
      success, matchIndex, error }

/-- What the wire leaves to the language: the texts of floats and of times. -/
structure Wire (T : Type) where
  floats : FloatFormat ℚ
  isoformat : T → String
  fromisoformat : String → Option T
  fromisoformat_isoformat : ∀ t, fromisoformat (isoformat t) = some t

/-- Serialize a Raft message for HTTP transport. -/
def messageToDict (wire : Wire T) (m : Message) (timestamp : T) : Value :=
  .dict [("message_type", .str m.messageType.value), ("sender_id", .str m.senderId),
    ("term", .int m.term), ("data", .dict (present m.data.items)),
    ("timestamp", .str (wire.isoformat timestamp))]

/-- `fromisoformat` on a timestamp that is there; `none` when it raises. -/
def readTimestamp (wire : Wire T) : Value → Option (Option T)
  | .null => some none
  | .str s => if s = "" then some none else (wire.fromisoformat s).map some
  | _ => none

/-- Deserialize a Raft message from HTTP transport; `none` when it raises, or when a value has a
type that no node sends. -/
def messageFromDict (wire : Wire T) (data : Value) : Option Message :=
  data.dict?.bind fun d =>
    (d.lookup "message_type").bind fun messageType =>
    (MessageType.ofValue? messageType).bind fun messageType =>
    (d.lookup "sender_id").bind fun senderId => senderId.string?.bind fun senderId =>
    (d.lookup "term").bind fun term => term.int?.bind fun term =>
    ((d.lookup "data").getD (.dict [])).dict?.bind fun data =>
    (MessageData.ofDict data).bind fun data =>
    (readTimestamp wire ((d.lookup "timestamp").getD .null)).map fun _ =>
      { messageType, senderId, term, data }

/-- The way of a message: to a dictionary, to its JSON text, and back. -/
def deliver (wire : Wire T) (m : Message) (timestamp : T) : Option Message :=
  (Value.jsonLoads wire.floats
    (Value.jsonDumps wire.floats (messageToDict wire m timestamp))).bind (messageFromDict wire)

/-! ## Round trips -/

theorem LogEntry.ofDict_toDict (e : LogEntry) : LogEntry.ofDict e.toDict = some e := rfl

theorem entriesOf_map (es : List LogEntry) : entriesOf (es.map LogEntry.toDict) = some es := by
  induction es with
  | nil => rfl
  | cons e es ih =>
    rw [List.map_cons, entriesOf, LogEntry.ofDict_toDict, ih]
    rfl

theorem lookup_present {items : List (String × Option Value)}
    (h : (items.map Prod.fst).Nodup) (k : String) :
    (present items).lookup k = (items.lookup k).join := by
  induction items with
  | nil => rfl
  | cons p items ih =>
    obtain ⟨k', v⟩ := p
    obtain ⟨hp, hnd⟩ := List.nodup_cons.mp h
    have ih := ih hnd
    by_cases hk : k = k'
    · subst hk
      rw [List.lookup_cons_self]
      cases v with
      | some v => exact List.lookup_cons_self
      | none =>
        show (present items).lookup k = none
        rw [ih, List.lookup_eq_none_iff.mpr, Option.join_none]
        intro q hq
        rw [bne_iff_ne]
        rintro rfl
        exact hp (List.mem_map.mpr ⟨q, hq, rfl⟩)
    · have hk' : (k == k') = false := beq_eq_false_iff_ne.mpr hk
      rw [List.lookup_cons, hk']
      cases v with
      | some v =>
        show ((k', v) :: present items).lookup k = _
        rw [List.lookup_cons, hk']
        exact ih
      | none => exact ih

theorem optionalKey_present {α : Type} {items : List (String × Option Value)} {k : String}
    {v : Option α} {write : α → Value} {read : Value → Option α}
    (h : (items.map Prod.fst).Nodup) (hk : items.lookup k = some (v.map write))
    (hread : ∀ a, read (write a) = some a) : optionalKey (present items) k read = some v := by
  unfold optionalKey
  rw [lookup_present h, hk]
  cases v with
  | none => rfl
  | some a =>
    show (read (write a)).map some = _
    rw [hread]
    rfl

theorem MessageData.items_nodup (data : MessageData) : (data.items.map Prod.fst).Nodup := by
  show ["last_log_index", "last_log_term", "prev_log_index", "prev_log_term", "entries",
    "leader_commit", "vote_granted", "success", "match_index", "error"].Nodup
  decide

theorem MessageData.ofDict_items (data : MessageData) :
    ofDict (present data.items) = some data := by
  have hkey : ∀ {α : Type} {k : String} {v : Option α} {write : α → Value}
      {read : Value → Option α}, data.items.lookup k = some (v.map write) →
      (∀ a, read (write a) = some a) → optionalKey (present data.items) k read = some v :=
    fun hk hread => optionalKey_present data.items_nodup hk hread
  unfold ofDict
  rw [hkey (k := "last_log_index") rfl (fun _ => rfl), Option.bind_some,
    hkey (k := "last_log_term") rfl (fun _ => rfl), Option.bind_some,
    hkey (k := "prev_log_index") rfl (fun _ => rfl), Option.bind_some,
    hkey (k := "prev_log_term") rfl (fun _ => rfl), Option.bind_some,
    hkey (k := "entries") rfl entriesOf_map, Option.bind_some,
    hkey (k := "leader_commit") rfl (fun _ => rfl), Option.bind_some,
    hkey (k := "vote_granted") rfl (fun _ => rfl), Option.bind_some,
    hkey (k := "success") rfl (fun _ => rfl), Option.bind_some,
    hkey (k := "match_index") rfl (fun _ => rfl), Option.bind_some,
    hkey (k := "error") rfl (fun _ => rfl)]
  rfl

theorem messageFromDict_messageToDict (wire : Wire T) (m : Message) (timestamp : T) :
    messageFromDict wire (messageToDict wire m timestamp) = some m := by
  have htime : ∃ o, readTimestamp wire (.str (wire.isoformat timestamp)) = some o := by
    unfold readTimestamp
    dsimp only
    split
    · exact ⟨_, rfl⟩
    · exact ⟨_, by rw [wire.fromisoformat_isoformat]; rfl⟩
  obtain ⟨o, ho⟩ := htime
  show (MessageType.ofValue? (.str m.messageType.value)).bind _ = _
  rw [MessageType.ofValue?_value, Option.bind_some]
  show (MessageData.ofDict (present m.data.items)).bind _ = _
  rw [MessageData.ofDict_items, Option.bind_some]
  show (readTimestamp wire (.str (wire.isoformat timestamp))).map _ = _
  rw [ho]
  rfl

/-! ## Distinct keys -/

theorem mem_present {items : List (String × Option Value)} {p : String × Value} :
    p ∈ present items ↔ (p.1, some p.2) ∈ items := by
  unfold present
  rw [List.mem_filterMap]
  constructor
  · rintro ⟨⟨k, v⟩, hq, h⟩
    obtain ⟨w, rfl, rfl⟩ := Option.map_eq_some_iff.mp h
    exact hq
  · intro h
    exact ⟨_, h, rfl⟩

theorem nodup_present {items : List (String × Option Value)} (h : (items.map Prod.fst).Nodup) :
    ((present items).map Prod.fst).Nodup := by
  have hsub : ((present items).map Prod.fst).Sublist (items.map Prod.fst) := by
    unfold present
    induction items with
    | nil => exact List.Sublist.refl _
    | cons p items ih =>
      have ih := ih (List.nodup_cons.mp h).2
      rcases p with ⟨k, _ | v⟩
      · exact ih.cons k
      · exact ih.cons_cons k
  exact h.sublist hsub

theorem LogEntry.distinctKeys_toDict {e : LogEntry} (h : (Value.dict e.data).DistinctKeys) :
    e.toDict.DistinctKeys := by
  refine Value.distinctKeys_dict.mpr ⟨?_, ?_⟩
  · show ["term", "index", "command", "data"].Nodup
    decide
  · simp only [List.mem_cons, List.not_mem_nil, or_false, forall_eq_or_imp, forall_eq]
    exact ⟨trivial, trivial, trivial, h⟩

theorem MessageData.distinctKeys_present {data : MessageData}
    (h : ∀ e ∈ data.entries.getD [], (Value.dict e.data).DistinctKeys) :
    (Value.dict (present data.items)).DistinctKeys := by
  refine Value.distinctKeys_dict.mpr ⟨nodup_present data.items_nodup, fun p hp => ?_⟩
  have hscalar : ∀ {α : Type} {v : Option α} {write : α → Value},
      some p.2 = v.map write → (∀ a, (write a).DistinctKeys) → p.2.DistinctKeys := by
    intro α v write hv hwrite
    obtain ⟨a, -, ha⟩ := Option.map_eq_some_iff.mp hv.symm
    exact ha ▸ hwrite a
  have hmem := mem_present.mp hp
  unfold items at hmem
  simp only [List.mem_cons, List.not_mem_nil, or_false, Prod.mk.injEq] at hmem
  rcases hmem with ⟨-, hv⟩ | ⟨-, hv⟩ | ⟨-, hv⟩ | ⟨-, hv⟩ | ⟨-, hv⟩ | ⟨-, hv⟩ | ⟨-, hv⟩ | ⟨-, hv⟩ |
    ⟨-, hv⟩ | ⟨-, hv⟩
  case inr.inr.inr.inr.inl =>
    obtain ⟨es, hes, hv⟩ := Option.map_eq_some_iff.mp hv.symm
    rw [← hv, Value.distinctKeys_list, List.forall_mem_map]
    rw [hes] at h
    exact fun e he => LogEntry.distinctKeys_toDict (h e he)
  all_goals exact hscalar hv fun _ => trivial

/-- The dictionary of a message has distinct keys where those of its entries do. -/
theorem distinctKeys_messageToDict {wire : Wire T} {m : Message} {timestamp : T}
    (h : ∀ e ∈ m.data.entries.getD [], (Value.dict e.data).DistinctKeys) :
    (messageToDict wire m timestamp).DistinctKeys := by
  refine Value.distinctKeys_dict.mpr ⟨?_, ?_⟩
  · show ["message_type", "sender_id", "term", "data", "timestamp"].Nodup
    decide
  · simp only [List.mem_cons, List.not_mem_nil, or_false, forall_eq_or_imp, forall_eq]
    exact ⟨trivial, trivial, trivial, MessageData.distinctKeys_present h, trivial⟩

/-- A message arrives as it was sent. -/
theorem deliver_eq {wire : Wire T} {m : Message} {timestamp : T}
    (h : ∀ e ∈ m.data.entries.getD [], (Value.dict e.data).DistinctKeys) :
    deliver wire m timestamp = some m := by
  unfold deliver
  rw [Value.jsonLoads_jsonDumps (distinctKeys_messageToDict h), Option.bind_some,
    messageFromDict_messageToDict]

end DistributedSync
