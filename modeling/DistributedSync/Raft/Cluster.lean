import DistributedSync.Raft.Node
import DistributedSync.Library.Runs

/-!
# The cluster

Every node runs its coroutines, one at a time, each up to its next suspending await; the network
delays or loses any request and any reply. A coroutine that waits is a frame of the node that runs
it: the elections and `append_entry` calls in progress, and the round of the heartbeat loop. An RPC
is a record in `rpcs` that is never removed, so its index names it.

Handing a message to `_send_message_to_peer` counts as the sending; connecting and writing belong to
the network. The RPC coroutines of a gather are tasks of their own. They read the node when they
first run, not when the gather makes them, and a step of another coroutine can come in between.

What a caller of `append_entry` goes on to do is a parameter `κ`, stored with the call.
-/

namespace DistributedSync

/-- What has become of a request: still on its way (or lost), answered, or refused with an HTTP
error because the handler raised. -/
inductive RpcReply where
  | pending
  | answered (response : Message)
  | failed

/-- One RPC, from `_send_message_to_peer` on. -/
structure Rpc where
  sender : String
  receiver : String
  request : Message
  reply : RpcReply := .pending

/-- An RPC coroutine wrapped into a task by a gather: `rpc` is set when it first runs, `result`
when it returns. -/
structure RpcTask where
  peer : String
  rpc : Option ℕ := none
  result : Option Bool := none

/-- A `_start_election` coroutine at its gather. One run by the timer's own handler is cancelled
there, because `_reset_election_timer` has cancelled the task it runs in. -/
structure Election where
  cancelled : Bool
  tasks : List RpcTask

/-- An `append_entry` coroutine at its gather. -/
structure AppendCall (κ : Type) where
  entry : LogEntry
  caller : κ
  tasks : List RpcTask

/-- A node and its coroutines. `heartbeats` is the current round of the heartbeat loop. -/
structure Proc (κ : Type) where
  raft : RaftNode
  elections : List Election := []
  appendCalls : List (AppendCall κ) := []
  heartbeats : List RpcTask := []

/-- All nodes, by node id, and all RPCs ever sent. -/
structure Cluster (κ : Type) where
  proc : String → Proc κ
  rpcs : List Rpc := []

/-- The gather an APPEND_ENTRIES coroutine belongs to. -/
inductive TaskOwner where
  | heartbeat
  | append (j : ℕ)

/-- One step: node `i` runs one coroutine up to its next await. Elections, calls and tasks are
named by their positions. -/
inductive Event (κ : Type) where
  /-- `_election_timeout_handler` wakes up and starts an election. -/
  | electionTimeout (i : String)
  /-- `_raft_message_processor` starts an election. -/
  | raftProcessor (i : String)
  /-- `_request_vote_from_peer` runs for the first time. -/
  | requestVote (i : String) (j k : ℕ)
  /-- `_request_vote_from_peer` gets its response. -/
  | voteResponse (i : String) (j k : ℕ)
  /-- `_request_vote_from_peer` times out or gets an error. -/
  | voteTimeout (i : String) (j k : ℕ)
  /-- `_start_election` comes back from its gather. -/
  | finishElection (i : String) (j : ℕ)
  /-- `_heartbeat_loop` starts a round. -/
  | heartbeat (i : String)
  /-- A client calls `append_entry` on a leader. -/
  | appendEntry (i : String) (command : String) (data : Dict) (caller : κ) (raises : Raises)
  /-- `_send_append_entries` runs for the first time. -/
  | sendAppend (i : String) (owner : TaskOwner) (k : ℕ)
  /-- `_send_append_entries` gets its response. -/
  | appendResponse (i : String) (owner : TaskOwner) (k : ℕ) (raises : Raises)
  /-- `_send_append_entries` times out or gets an error. -/
  | appendTimeout (i : String) (owner : TaskOwner) (k : ℕ)
  /-- `append_entry` comes back from its gather and returns True. -/
  | returnAppend (i : String) (j : ℕ)
  /-- RPC `r` reaches its receiver, which runs `handle_message`. -/
  | handleMessage (r : ℕ) (raises : Raises)

variable {κ : Type}

/-! ## Coroutines of one node -/

/-- The tasks a gather makes of one coroutine per peer. -/
def gather (peers : List String) : List RpcTask := peers.map fun peer => { peer }

/-- Every coroutine of the gather has returned. -/
def allDone (tasks : List RpcTask) : Prop := ∀ t ∈ tasks, t.result ≠ none

instance (tasks : List RpcTask) : Decidable (allDone tasks) :=
  inferInstanceAs (Decidable (∀ t ∈ tasks, t.result ≠ none))

/-- `sum(1 for r in results if r is True)`. -/
def granted (tasks : List RpcTask) : ℕ := tasks.countP fun t => t.result = some true

/-- The last log position an APPEND_ENTRIES covers: `prev_log_index + len(entries)`. -/
def Message.lastCovered (m : Message) : ℤ :=
  m.data.prevLogIndex.getD 0 + (m.data.entries.getD []).length

namespace Proc

/-- The node takes a new state. Cancelling the heartbeat task cancels the round it waits for, and
a fresh task has no round yet. -/
def setRaft (p : Proc κ) (n : RaftNode) : Proc κ :=
  { p with raft := n,
           heartbeats := if p.raft.heartbeatTimer ∧ n.heartbeatTimer then p.heartbeats else [] }

/-- `_start_election` up to its gather, which suspends unless there are no peers. -/
def startElection (p : Proc κ) (cancelled : Bool) : Proc κ :=
  let n := p.raft.startElection
  if n.peers = [] then p.setRaft (n.finishElection 1)
  else
    let tasks := if cancelled then [] else gather n.peers
    { p.setRaft n with elections := p.elections ++ [{ cancelled, tasks }] }

/-- Task `k` of election `j` becomes `t`. -/
def setVoteTask (p : Proc κ) (j k : ℕ) (t : RpcTask) : Proc κ :=
  { p with elections := p.elections.modify j fun f => { f with tasks := f.tasks.set k t } }

/-- The APPEND_ENTRIES tasks of a gather. -/
def tasks (p : Proc κ) : TaskOwner → List RpcTask
  | .heartbeat => p.heartbeats
  | .append j => (p.appendCalls[j]?.map AppendCall.tasks).getD []

/-- Task `k` of the gather becomes `t`. -/
def setTask (p : Proc κ) (owner : TaskOwner) (k : ℕ) (t : RpcTask) : Proc κ :=
  match owner with
  | .heartbeat => { p with heartbeats := p.heartbeats.set k t }
  | .append j =>
    { p with appendCalls := p.appendCalls.modify j fun f => { f with tasks := f.tasks.set k t } }

end Proc

/-! ## Steps -/

namespace Cluster

/-- Node `i` becomes `p`. -/
def put (c : Cluster κ) (i : String) (p : Proc κ) : Cluster κ :=
  { c with proc := Function.update c.proc i p }

/-- Node `i` becomes `p` and sends a request. -/
def send (c : Cluster κ) (i : String) (p : Proc κ) (peer : String) (m : Message) : Cluster κ :=
  { c.put i p with rpcs := c.rpcs ++ [{ sender := i, receiver := peer, request := m }] }

/-- The RPC of a task that has run. -/
def rpcOf (c : Cluster κ) (t : RpcTask) : Option Rpc := t.rpc.bind fun r => c.rpcs[r]?

/-- The RPC of a task that waits for it. -/
def waitingRpc (c : Cluster κ) (t : RpcTask) : Option Rpc :=
  if t.result = none then c.rpcOf t else none

/-- The RPC and the response of a task that waits for it. -/
def arrived (c : Cluster κ) (t : RpcTask) : Option (Rpc × Message) :=
  (c.waitingRpc t).bind fun rpc =>
    match rpc.reply with
    | .answered response => some (rpc, response)
    | _ => none

/-- Task `k` of election `j` of node `i`. -/
def voteTask (c : Cluster κ) (i : String) (j k : ℕ) : Option RpcTask :=
  (c.proc i).elections[j]?.bind fun f => f.tasks[k]?

/-- One step of the cluster; `none` when the event is not possible. -/
def step (c : Cluster κ) : Event κ → Option (Cluster κ)
  | .electionTimeout i =>
    let p := c.proc i
    if p.raft.state ≠ .leader ∧ p.raft.electionInProgress = false then
      some (c.put i (p.startElection true))
    else none
  | .raftProcessor i =>
    let p := c.proc i
    if p.raft.state = .candidate ∧ p.raft.electionInProgress = false then
      some (c.put i (p.startElection false))
    else none
  | .requestVote i j k =>
    let p := c.proc i
    (c.voteTask i j k).bind fun t =>
      if t.rpc = none then
        some (c.send i (p.setVoteTask j k { t with rpc := some c.rpcs.length }) t.peer
          p.raft.requestVoteMessage)
      else none
  | .voteResponse i j k =>
    let p := c.proc i
    (c.voteTask i j k).bind fun t => (c.arrived t).map fun ra =>
      let r := p.raft.voteReply ra.2
      c.put i ((p.setVoteTask j k { t with result := some r.2 }).setRaft r.1)
  | .voteTimeout i j k =>
    (c.voteTask i j k).bind fun t => (c.waitingRpc t).map fun _ =>
      c.put i ((c.proc i).setVoteTask j k { t with result := some false })
  | .finishElection i j =>
    let p := c.proc i
    p.elections[j]?.bind fun f =>
      let p' := { p with elections := p.elections.eraseIdx j }
      if f.cancelled then some (c.put i (p'.setRaft p.raft.endElection))
      else if allDone f.tasks then
        some (c.put i (p'.setRaft (p.raft.finishElection (1 + granted f.tasks))))
      else none
  | .heartbeat i =>
    let p := c.proc i
    if p.raft.heartbeatTimer ∧ p.raft.state = .leader ∧ allDone p.heartbeats then
      some (c.put i { p with heartbeats := gather p.raft.peers })
    else none
  | .appendEntry i command data caller raises =>
    let p := c.proc i
    if p.raft.state = .leader then
      let r := p.raft.appendEntry raises command data
      match r.2 with
      | some _ => some (c.put i (p.setRaft r.1))
      | none =>
        let call :=
          { entry := p.raft.newEntry command data, caller, tasks := gather p.raft.peers }
        some (c.put i { p.setRaft r.1 with appendCalls := p.appendCalls ++ [call] })
    else none
  | .sendAppend i owner k =>
    let p := c.proc i
    (p.tasks owner)[k]?.bind fun t =>
      if t.rpc = none then
        some (c.send i (p.setTask owner k { t with rpc := some c.rpcs.length }) t.peer
          (p.raft.appendEntriesMessage t.peer))
      else none
  | .appendResponse i owner k raises =>
    let p := c.proc i
    (p.tasks owner)[k]?.bind fun t => (c.arrived t).map fun ra =>
      let r := p.raft.appendReply raises t.peer ra.1.request.lastCovered ra.2
      c.put i ((p.setTask owner k { t with result := some r.2 }).setRaft r.1)
  | .appendTimeout i owner k =>
    ((c.proc i).tasks owner)[k]?.bind fun t => (c.waitingRpc t).map fun _ =>
      c.put i ((c.proc i).setTask owner k { t with result := some false })
  | .returnAppend i j =>
    let p := c.proc i
    p.appendCalls[j]?.bind fun call =>
      if allDone call.tasks then
        some (c.put i { p with appendCalls := p.appendCalls.eraseIdx j })
      else none
  | .handleMessage r raises =>
    c.rpcs[r]?.bind fun rpc =>
      match rpc.reply with
      | .pending =>
        let p := c.proc rpc.receiver
        let res := p.raft.handleMessage raises rpc.request
        let reply := match res.2 with
          | some response => RpcReply.answered response
          | none => .failed
        some { c.put rpc.receiver (p.setRaft res.1) with
          rpcs := c.rpcs.set r { rpc with reply } }
      | _ => none

end Cluster

/-! ## Configurations and runs -/

/-- A cluster of nodes with distinct ids whose peers lists name exactly the other nodes. -/
structure ClusterConfig where
  nodes : List String
  peers : String → List String
  nodup : nodes.Nodup
  peers_nodup : ∀ i ∈ nodes, (peers i).Nodup
  mem_peers : ∀ i ∈ nodes, ∀ j, j ∈ peers i ↔ j ∈ nodes ∧ j ≠ i

namespace ClusterConfig

/-- The cluster of the given nodes, each peers list in the order of the nodes. -/
def ofNodes (nodes : List String) (nodup : nodes.Nodup) : ClusterConfig where
  nodes := nodes
  peers i := nodes.filter (· ≠ i)
  nodup := nodup
  peers_nodup _ _ := nodup.filter _
  mem_peers i _ j := by simp

/-- Every node fresh from `__init__`. -/
def init (cfg : ClusterConfig) : Cluster κ where
  proc i := { raft := .init i (cfg.peers i) }

/-- The node whose coroutine runs, where the event names it. -/
def actor : Event κ → Option String
  | .electionTimeout i | .raftProcessor i | .requestVote i _ _ | .voteResponse i _ _
  | .voteTimeout i _ _ | .finishElection i _ | .heartbeat i | .appendEntry i _ _ _ _
  | .sendAppend i _ _ | .appendResponse i _ _ _ | .appendTimeout i _ _ | .returnAppend i _ =>
    some i
  | .handleMessage _ _ => none

/-- A step of the cluster, run by one of its nodes. -/
def step (cfg : ClusterConfig) (c : Cluster κ) (ev : Event κ) : Option (Cluster κ) :=
  if ∀ i ∈ actor ev, i ∈ cfg.nodes then c.step ev else none

theorem step_some {cfg : ClusterConfig} {c c' : Cluster κ} {ev : Event κ}
    (h : cfg.step c ev = some c') : (∀ i ∈ actor ev, i ∈ cfg.nodes) ∧ c.step ev = some c' := by
  unfold step at h
  split at h
  · next hi => exact ⟨hi, h⟩
  · cases h

/-- The states a cluster reaches when every step satisfies `ok`. -/
abbrev Reach (cfg : ClusterConfig) (ok : Cluster κ → Event κ → Prop) : Cluster κ → Prop :=
  Runs.Reach cfg.step ok cfg.init

end ClusterConfig

def Cluster.runner (c : Cluster κ) : Event κ → Option String
  | .handleMessage r _ => c.rpcs[r]?.map Rpc.receiver
  | ev => ClusterConfig.actor ev

/-- Where the callbacks raise in the step. -/
def Event.raises : Event κ → Raises
  | .appendEntry _ _ _ _ raises | .appendResponse _ _ _ raises | .handleMessage _ raises => raises
  | _ => fun _ => false

end DistributedSync
