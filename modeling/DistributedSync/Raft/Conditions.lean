import DistributedSync.Raft.Wiring

/-!
# Conditions on steps

Each condition says of a step that it does not use one weakness of the code. They speak of the
state before the step, so a run of the cluster can be restricted to the steps that meet them.
-/

namespace DistributedSync

variable {κ : Type}

def Rpc.succeeded (rpc : Rpc) : Bool :=
  match rpc.reply with
  | .answered m => m.succeeded
  | _ => false

namespace Cluster

/-- The granted votes of `tasks` that answer a request of term `t`. -/
def grantedIn (c : Cluster κ) (t : ℤ) (tasks : List RpcTask) : ℕ :=
  tasks.countP fun task =>
    task.result = some true && (c.rpcOf task).any fun rpc => rpc.request.term == t

/-- The peers that have answered success to an APPEND_ENTRIES of node `i` and term `t` that covers
position `k`. -/
def backing (c : Cluster κ) (i : String) (t k : ℤ) : List String :=
  (c.proc i).raft.peers.filter fun p => c.rpcs.any fun rpc =>
    rpc.sender = i && rpc.receiver = p && rpc.request.messageType = .appendEntries &&
      rpc.request.term = t && k ≤ rpc.request.lastCovered && rpc.succeeded

end Cluster

/-- An election that is won has its quorum in votes of the current term. -/
def CurrentVotes (c : Cluster κ) : Event κ → Prop
  | .finishElection i j => ∀ f ∈ (c.proc i).elections[j]?,
      (c.proc i).raft.state = .candidate →
      (c.proc i).raft.quorumSize ≤ 1 + granted f.tasks →
      (c.proc i).raft.quorumSize ≤ 1 + c.grantedIn (c.proc i).raft.currentTerm f.tasks
  | _ => True

/-- An APPEND_ENTRIES of an earlier term fails the receiver's check of the previous entry. -/
def FencedAppend (c : Cluster κ) : Event κ → Prop
  | .handleMessage r _ => ∀ rpc ∈ c.rpcs[r]?, rpc.request.messageType = .appendEntries →
      rpc.request.term < (c.proc rpc.receiver).raft.currentTerm →
      (c.proc rpc.receiver).raft.prevLogCheck (rpc.request.data.prevLogIndex.getD 0)
        (rpc.request.data.prevLogTerm.getD 0) ≠ some true
  | _ => True

/-- An APPEND_ENTRIES is built by a leader. -/
def LeaderSends (c : Cluster κ) : Event κ → Prop
  | .sendAppend i _ _ => (c.proc i).raft.state = .leader
  | _ => True

/-- When a success reply makes the leader commit up to `n`, a quorum (with the leader) has answered
success to requests of its current term that cover `n`. -/
def BackedCommit (c : Cluster κ) : Event κ → Prop
  | .appendResponse i owner k _ => ∀ t ∈ ((c.proc i).tasks owner)[k]?, ∀ ra ∈ c.arrived t,
      ra.2.succeeded = true →
      let n := (c.proc i).raft.recordMatch t.peer ra.1.request.lastCovered
      n.state = .leader → n.mayCommit n.commitCandidate = true →
      n.quorumSize ≤ 1 + (c.backing i n.currentTerm n.commitCandidate).length
  | _ => True

/-- A success reply that reaches a leader answers a request of its current term. -/
def CurrentReply (c : Cluster κ) : Event κ → Prop
  | .appendResponse i owner k _ => ∀ t ∈ ((c.proc i).tasks owner)[k]?, ∀ ra ∈ c.arrived t,
      ra.2.succeeded = true → (c.proc i).raft.state = .leader →
      ra.1.request.term = (c.proc i).raft.currentTerm
  | _ => True

/-- A step that uses none of the weaknesses of elections, replication and commits. -/
def SafeStep (c : Cluster κ) (ev : Event κ) : Prop :=
  CurrentVotes c ev ∧ FencedAppend c ev ∧ LeaderSends c ev ∧ BackedCommit c ev

/-- A step that uses none of the weaknesses of elections and replication, and no success reply from
an earlier leadership. -/
def SoundReply (c : Cluster κ) (ev : Event κ) : Prop :=
  CurrentVotes c ev ∧ FencedAppend c ev ∧ LeaderSends c ev ∧ CurrentReply c ev

instance (c : Cluster κ) (ev : Event κ) : Decidable (CurrentVotes c ev) := by
  rcases ev <;> dsimp only [CurrentVotes] <;> infer_instance

instance (c : Cluster κ) (ev : Event κ) : Decidable (FencedAppend c ev) := by
  rcases ev <;> dsimp only [FencedAppend] <;> infer_instance

instance (c : Cluster κ) (ev : Event κ) : Decidable (LeaderSends c ev) := by
  rcases ev <;> dsimp only [LeaderSends] <;> infer_instance

instance (c : Cluster κ) (ev : Event κ) : Decidable (BackedCommit c ev) := by
  rcases ev <;> dsimp only [BackedCommit] <;> infer_instance

instance (c : Cluster κ) (ev : Event κ) : Decidable (CurrentReply c ev) := by
  rcases ev <;> dsimp only [CurrentReply] <;> infer_instance

instance (c : Cluster κ) (ev : Event κ) : Decidable (SafeStep c ev) :=
  inferInstanceAs (Decidable (_ ∧ _))

instance (c : Cluster κ) (ev : Event κ) : Decidable (SoundReply c ev) :=
  inferInstanceAs (Decidable (_ ∧ _))

end DistributedSync
