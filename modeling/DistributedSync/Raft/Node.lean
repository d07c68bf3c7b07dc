import DistributedSync.Core.Types
import Mathlib.Data.List.Sort

/-!
# The Raft node

`RaftNode` of `src/src/protocols/raft.py`, one definition per method, each covering the code
between two suspending awaits. Time is abstract: the election timer has no state here, and a
callback may raise at any log position (`raises`), which is all the node sees of `on_commit`.
-/

namespace DistributedSync

/-- Raft consensus node with log-based replication. `delivered` is the sequence of entries handed
to the `on_commit` callbacks; `heartbeatTimer` says whether `_heartbeat_timer` holds a task. -/
structure RaftNode where
  nodeId : String
  peers : List String
  currentTerm : ℤ := 0
  votedFor : Option String := none
  log : List LogEntry := []
  commitIndex : ℤ := -1
  lastApplied : ℤ := -1
  state : NodeState := .follower
  leaderId : Option String := none
  nextIndex : String → ℕ := fun _ => 0
  matchIndex : String → ℤ := fun _ => 0
  electionInProgress : Bool := false
  heartbeatTimer : Bool := false
  delivered : List LogEntry := []

/-- Where the callbacks raise: `raises k` when one of them does on the entry at position `k`. -/
abbrev Raises := ℤ → Bool

namespace RaftNode

/-- `__init__`. -/
def init (nodeId : String) (peers : List String) : RaftNode := { nodeId, peers }

/-- Return the number of votes/replicas required for quorum. -/
def quorumSize (n : RaftNode) : ℕ := (n.peers.length + 1) / 2 + 1

/-- `self.log[-1].term if self.log else 0`. -/
def lastLogTerm (n : RaftNode) : ℤ := (n.log.getLast?.map LogEntry.term).getD 0

/-- `len(self.log) - 1`. -/
def lastLogIndex (n : RaftNode) : ℤ := n.log.length - 1

/-! ## Elections -/

/-- `_become_follower`: step down to follower and reset election state. -/
def becomeFollower (n : RaftNode) (leaderId : Option String) : RaftNode :=
  { n with state := .follower, leaderId := leaderId, electionInProgress := false,
           heartbeatTimer := false }

/-- The term rule shared by `handle_message` and the two reply handlers: take over a larger term
and step down. -/
def adoptTerm (n : RaftNode) (term : ℤ) : RaftNode :=
  if n.currentTerm < term then
    { n with currentTerm := term, votedFor := none }.becomeFollower none
  else n

/-- `_start_election` up to the gather. -/
def startElection (n : RaftNode) : RaftNode :=
  if n.electionInProgress then n
  else { n with electionInProgress := true, currentTerm := n.currentTerm + 1,
                state := .candidate, votedFor := some n.nodeId }

/-- The REQUEST_VOTE built by `_request_vote_from_peer` when it first runs. -/
def requestVoteMessage (n : RaftNode) : Message where
  messageType := .requestVote
  senderId := n.nodeId
  term := n.currentTerm
  data := { lastLogIndex := some n.lastLogIndex, lastLogTerm := some n.lastLogTerm }

/-- `_request_vote_from_peer` once the response is there: the node, and the value returned. -/
def voteReply (n : RaftNode) (response : Message) : RaftNode × Bool :=
  (n.adoptTerm response.term, response.data.voteGranted.getD false)

/-- `_become_leader`, with the heartbeat task `_start_heartbeat` creates. -/
def becomeLeader (n : RaftNode) : RaftNode :=
  { n with electionInProgress := false, state := .leader, leaderId := some n.nodeId,
           nextIndex := fun p => if p ∈ n.peers then n.log.length else n.nextIndex p,
           matchIndex := fun p => if p ∈ n.peers then 0 else n.matchIndex p,
           heartbeatTimer := true }

/-- The `finally` clause of `_start_election`. -/
def endElection (n : RaftNode) : RaftNode := { n with electionInProgress := false }

/-- `_start_election` after the gather. -/
def finishElection (n : RaftNode) (votesReceived : ℕ) : RaftNode :=
  if n.state = .candidate ∧ n.quorumSize ≤ votesReceived then n.becomeLeader.endElection
  else n.endElection

/-! ## Applying and committing -/

/-- The loop of `_apply_committed_entries`, `k` rounds of it: the node, and whether the loop ran to
its end. It stops early when a callback raises, or when `self.log[self.last_applied]` does. -/
def applyLoop (raises : Raises) : ℕ → RaftNode → RaftNode × Bool
  | 0, n => (n, true)
  | k + 1, n =>
    let n := { n with lastApplied := n.lastApplied + 1 }
    match getItem n.log n.lastApplied with
    | none => (n, false)
    | some entry =>
      let n := { n with delivered := n.delivered ++ [entry] }
      if raises n.lastApplied then (n, false) else applyLoop raises k n

/-- `_apply_committed_entries`: every round raises `last_applied` by one and leaves `commit_index`
alone, so the number of rounds is known in advance. -/
def applyCommittedEntries (raises : Raises) (n : RaftNode) : RaftNode × Bool :=
  applyLoop raises (n.commitIndex - n.lastApplied).toNat n

/-- The index `_update_commit_index` tries: `match_indices[len(match_indices) // 2]`. -/
def commitCandidate (n : RaftNode) : ℤ :=
  let matchIndices := (n.peers.map n.matchIndex ++ [n.lastLogIndex]).insertionSort (· ≤ ·)
  matchIndices.getD (matchIndices.length / 2) 0

/-- The test of `_update_commit_index` on the index `k`. -/
def mayCommit (n : RaftNode) (k : ℤ) : Bool :=
  n.commitIndex < k && k < n.log.length &&
    (getItem n.log k).any fun e => e.term == n.currentTerm

/-- `_update_commit_index`, with whether it returned without raising. -/
def updateCommitIndex (raises : Raises) (n : RaftNode) : RaftNode × Bool :=
  if n.state ≠ .leader then (n, true)
  else if n.mayCommit n.commitCandidate then
    { n with commitIndex := n.commitCandidate }.applyCommittedEntries raises
  else (n, true)

/-! ## Sending entries -/

/-- `prev_log_index` in `_send_append_entries`. -/
def prevLogIndex (n : RaftNode) (peer : String) : ℤ := n.nextIndex peer - 1

/-- `prev_log_term` in `_send_append_entries`: 0 outside the log. -/
def prevLogTerm (n : RaftNode) (peer : String) : ℤ :=
  if 0 ≤ n.prevLogIndex peer ∧ n.prevLogIndex peer < n.log.length then
    ((getItem n.log (n.prevLogIndex peer)).map LogEntry.term).getD 0
  else 0

/-- The APPEND_ENTRIES built by `_send_append_entries` when it first runs. -/
def appendEntriesMessage (n : RaftNode) (peer : String) : Message where
  messageType := .appendEntries
  senderId := n.nodeId
  term := n.currentTerm
  data := { prevLogIndex := some (n.prevLogIndex peer), prevLogTerm := some (n.prevLogTerm peer),
            entries := some (n.log.drop (n.nextIndex peer)), leaderCommit := some n.commitIndex }

/-- `match_index` and `next_index` after a success reply to a request that covered the log up to
`last = prev_log_index + len(entries)`. -/
def recordMatch (n : RaftNode) (peer : String) (last : ℤ) : RaftNode :=
  { n with matchIndex := Function.update n.matchIndex peer (max (n.matchIndex peer) last),
           nextIndex := Function.update n.nextIndex peer
             (max (n.matchIndex peer) last + 1).toNat }

/-- The step back of `next_index` after a refusal. -/
def backOff (n : RaftNode) (peer : String) : RaftNode :=
  if 0 < n.nextIndex peer then
    { n with nextIndex := Function.update n.nextIndex peer (n.nextIndex peer - 1) }
  else n

/-- `_send_append_entries` once the response is there: the node, and the value returned. The
sender's locals enter through `last = prev_log_index + len(entries)`. -/
def appendReply (raises : Raises) (n : RaftNode) (peer : String) (last : ℤ) (response : Message) :
    RaftNode × Bool :=
  if response.data.success.getD false then
    (n.recordMatch peer last).updateCommitIndex raises
  else ((n.adoptTerm response.term).backOff peer, false)

/-! ## Handling messages -/

/-- `_handle_request_vote`. -/
def handleRequestVote (n : RaftNode) (m : Message) : RaftNode × Message :=
  let respond (n : RaftNode) (grant : Bool) : RaftNode × Message :=
    (n, { messageType := .voteResponse, senderId := n.nodeId, term := n.currentTerm,
          data := { voteGranted := some grant } })
  if m.term < n.currentTerm then respond n false
  else if m.term = n.currentTerm ∧ n.votedFor ≠ none ∧ n.votedFor ≠ some m.senderId then
    respond n false
  else if n.lastLogTerm < m.data.lastLogTerm.getD 0 ∨
      m.data.lastLogTerm.getD 0 = n.lastLogTerm ∧ n.lastLogIndex ≤ m.data.lastLogIndex.getD 0 then
    respond { n with votedFor := some m.senderId } true
  else respond n false

/-- The `prev_log` check of `_handle_append_entries`; `none` when `self.log[prev_log_index]`
raises. -/
def prevLogCheck (n : RaftNode) (prevLogIndex prevLogTerm : ℤ) : Option Bool :=
  if prevLogIndex < n.log.length then
    if prevLogIndex = -1 then some true
    else (getItem n.log prevLogIndex).map fun e => decide (e.term = prevLogTerm)
  else some false

/-- One round of the loop over `entries_data`, before the append: drop the log from `idx` on when
the entry there has another term; `none` when `self.log[idx]` raises. -/
def truncateConflict (idx : ℤ) (entry : LogEntry) (log : List LogEntry) : Option (List LogEntry) :=
  if idx < log.length then
    (getItem log idx).map fun e => if e.term ≠ entry.term then sliceTo log idx else log
  else some log

/-- The loop over `entries_data`, from position `idx` on: the log, and whether the loop ran to its
end. -/
def storeEntries : ℤ → List LogEntry → List LogEntry → List LogEntry × Bool
  | _, [], log => (log, true)
  | idx, entry :: entries, log =>
    match truncateConflict idx entry log with
    | none => (log, false)
    | some log =>
      storeEntries (idx + 1) entries (if log.length ≤ idx then log ++ [entry] else log)

/-- The last part of `_handle_append_entries`: follow the leader's commit index. -/
def followCommit (raises : Raises) (n : RaftNode) (leaderCommit : ℤ) : RaftNode × Bool :=
  if n.commitIndex < leaderCommit then
    { n with commitIndex := min leaderCommit n.lastLogIndex }.applyCommittedEntries raises
  else (n, true)

/-- The APPEND_RESPONSE of `_handle_append_entries`. -/
def appendResponse (n : RaftNode) (success : Bool) : Message where
  messageType := .appendResponse
  senderId := n.nodeId
  term := n.currentTerm
  data := { success := some success, matchIndex := some (if success then n.lastLogIndex else 0) }

/-- The first lines of `_handle_append_entries`: any sender is taken for the leader. -/
def acceptLeader (n : RaftNode) (sender : String) : RaftNode :=
  let n := if n.state ≠ .follower then n.becomeFollower (some sender) else n
  { n with leaderId := some sender }

/-- `_handle_append_entries`: the node, and the response unless something raised. -/
def handleAppendEntries (raises : Raises) (n : RaftNode) (m : Message) :
    RaftNode × Option Message :=
  let n := n.acceptLeader m.senderId
  let prev := m.data.prevLogIndex.getD 0
  match n.prevLogCheck prev (m.data.prevLogTerm.getD 0) with
  | none => (n, none)
  | some false => (n, some (n.appendResponse false))
  | some true =>
    let stored := storeEntries (prev + 1) (m.data.entries.getD []) n.log
    let n := { n with log := stored.1 }
    if stored.2 then
      let done := n.followCommit raises (m.data.leaderCommit.getD 0)
      (done.1, if done.2 then some (done.1.appendResponse true) else none)
    else (n, none)

/-- `handle_message`: the node, and the response unless something raised. -/
def handleMessage (raises : Raises) (n : RaftNode) (m : Message) : RaftNode × Option Message :=
  let n := n.adoptTerm m.term
  match m.messageType with
  | .requestVote => let r := n.handleRequestVote m; (r.1, some r.2)
  | .appendEntries => n.handleAppendEntries raises m
  | t => (n, some { messageType := t, senderId := n.nodeId, term := n.currentTerm, data :=
      { error := some s!"Unsupported message type: MessageType.{t.name}" } })

/-! ## Client requests -/

/-- The entry `append_entry` creates. -/
def newEntry (n : RaftNode) (command : String) (data : Dict) : LogEntry where
  term := n.currentTerm
  index := n.log.length
  command := command
  data := data

/-- `append_entry` up to its gather, on a leader: the node, and `some` result when the call is over
already (a single-node cluster commits at once), false standing for a callback that raised. -/
def appendEntry (raises : Raises) (n : RaftNode) (command : String) (data : Dict) :
    RaftNode × Option Bool :=
  let entry := n.newEntry command data
  let n := { n with log := n.log ++ [entry] }
  if n.peers = [] then
    let done := { n with commitIndex := entry.index }.applyCommittedEntries raises
    (done.1, some done.2)
  else (n, none)

end RaftNode

end DistributedSync
