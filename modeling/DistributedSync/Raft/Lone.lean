import DistributedSync.Raft.Delivery

/-!
# Clusters of one node

A node without peers waits for nobody: its gathers are empty, and it never sends an RPC (`Lone`).
Nothing else is applied between two calls of `append_entry`, each of which applies its own entry
(`RaftNode.appendEntry_caughtUp`), and a leader stays one (`Lone.quiet`).
-/

namespace DistributedSync

namespace RaftNode

structure CaughtUp (n : RaftNode) : Prop where
  commitIndex : n.commitIndex = n.lastLogIndex
  lastApplied : n.lastApplied = n.lastLogIndex

variable {n : RaftNode}

theorem appendEntry_caughtUp (h : n.CaughtUp) (hp : n.peers = []) (raises : Raises)
    (command : String) (data : Dict) :
    n.appendEntry raises command data =
      ({ n with log := n.log ++ [n.newEntry command data], commitIndex := n.log.length,
                lastApplied := n.log.length,
                delivered := n.delivered ++ [n.newEntry command data] },
        some !raises n.log.length) := by
  have hla : n.lastApplied + 1 = n.log.length := by
    rw [h.lastApplied, lastLogIndex]
    omega
  have hrounds : ((n.log.length : ℤ) - n.lastApplied).toNat = 1 := by omega
  unfold appendEntry
  dsimp only
  rw [if_pos hp]
  unfold applyCommittedEntries
  dsimp only [newEntry]
  rw [hrounds]
  simp only [applyLoop, hla, getItem_natCast, List.getElem?_concat_length]
  cases raises n.log.length <;> rfl

theorem CaughtUp.appendEntry (h : n.CaughtUp) (hp : n.peers = []) (raises : Raises)
    (command : String) (data : Dict) : (n.appendEntry raises command data).1.CaughtUp := by
  rw [appendEntry_caughtUp h hp]
  constructor <;> simp [lastLogIndex]

end RaftNode

variable {κ : Type} {cfg : ClusterConfig} {c c' : Cluster κ} {ev : Event κ} {i : String}

/-- The node has no peers, and nobody waits. -/
structure Lone (c : Cluster κ) (i : String) : Prop where
  peers : (c.proc i).raft.peers = []
  caughtUp : (c.proc i).raft.CaughtUp
  elections : (c.proc i).elections = []
  appendCalls : (c.proc i).appendCalls = []
  heartbeats : (c.proc i).heartbeats = []
  rpcs : c.rpcs = []

namespace Lone

theorem init (hnodes : cfg.nodes = [i]) : Lone (cfg.init : Cluster κ) i where
  peers := List.eq_nil_iff_forall_not_mem.mpr fun j hj => by
    have hmem := (cfg.mem_peers i (by simp [hnodes]) j).mp hj
    simp [hnodes] at hmem
  caughtUp := ⟨rfl, rfl⟩
  elections := rfl
  appendCalls := rfl
  heartbeats := rfl
  rpcs := rfl

theorem tasks (h : Lone c i) (owner : TaskOwner) : (c.proc i).tasks owner = [] := by
  cases owner with
  | heartbeat => exact h.heartbeats
  | append j => simp [Proc.tasks, h.appendCalls]

theorem voteTask (h : Lone c i) (j k : ℕ) : c.voteTask i j k = none := by
  simp [Cluster.voteTask, h.elections]

/-- What a lone node does: elections, rounds of heartbeats, and calls of `append_entry`. -/
inductive Step (c : Cluster κ) (i : String) : Event κ → Cluster κ → Prop
  | electionTimeout (hs : (c.proc i).raft.state ≠ .leader) :
    Step c i (.electionTimeout i) (c.put i ((c.proc i).startElection true))
  | raftProcessor (hs : (c.proc i).raft.state ≠ .leader) :
    Step c i (.raftProcessor i) (c.put i ((c.proc i).startElection false))
  | heartbeat : Step c i (.heartbeat i)
      (c.put i { c.proc i with heartbeats := gather (c.proc i).raft.peers })
  | appendEntry (command : String) (data : Dict) (caller : κ) (raises : Raises)
    (hs : (c.proc i).raft.state = .leader) :
    Step c i (.appendEntry i command data caller raises)
      (c.put i ((c.proc i).setRaft ((c.proc i).raft.appendEntry raises command data).1))

theorem step_cases (h : Lone c i) (hnodes : cfg.nodes = [i]) (hs : cfg.step c ev = some c') :
    Step c i ev c' := by
  have hactor : ∀ j ∈ ClusterConfig.actor ev, j = i := by
    intro j hj
    simpa [hnodes] using (ClusterConfig.step_some hs).1 j hj
  cases cfg.transition hs with
  | electionTimeout j hl =>
    obtain rfl := hactor j rfl
    exact .electionTimeout hl
  | raftProcessor j hc =>
    obtain rfl := hactor j rfl
    exact .raftProcessor (by simp [hc])
  | heartbeat j =>
    obtain rfl := hactor j rfl
    exact .heartbeat
  | commitEntry j command data caller raises hl =>
    obtain rfl := hactor j rfl
    exact .appendEntry command data caller raises hl
  | appendEntry j command data caller raises hl hp =>
    obtain rfl := hactor j rfl
    exact absurd h.peers hp
  | requestVote j k l t ht | voteResponse j k l t rpc response ht | voteTimeout j k l t rpc ht =>
    obtain rfl := hactor j rfl
    rw [h.voteTask] at ht
    cases ht
  | cancelElection j k f hf | finishElection j k f hf =>
    obtain rfl := hactor j rfl
    simp [h.elections] at hf
  | sendAppend j owner k t ht | appendResponse j owner k raises t rpc response ht
  | appendTimeout j owner k t rpc ht =>
    obtain rfl := hactor j rfl
    simp [h.tasks] at ht
  | returnAppend j k call hcall =>
    obtain rfl := hactor j rfl
    simp [h.appendCalls] at hcall
  | handleMessage r raises rpc hr => simp [h.rpcs] at hr

theorem startElection (h : Lone c i) (b : Bool) :
    Lone (c.put i ((c.proc i).startElection b)) i := by
  obtain ⟨hlog, hcommit, happlied, -⟩ := (c.proc i).startElection_sameLog b
  have hpeers : (c.proc i).raft.startElection.peers = [] := by
    rw [(RaftNode.startElection_quiet _).peers, h.peers]
  have heq : (c.proc i).startElection b =
      (c.proc i).setRaft ((c.proc i).raft.startElection.finishElection 1) := if_pos hpeers
  refine ⟨?_, ⟨?_, ?_⟩, ?_, ?_, ?_, h.rpcs⟩ <;> rw [Cluster.put_proc_self]
  · rw [heq, Proc.setRaft_raft, (RaftNode.finishElection_quiet _ 1).peers, hpeers]
  · rw [hcommit, h.caughtUp.commitIndex, RaftNode.lastLogIndex, RaftNode.lastLogIndex, hlog]
  · rw [happlied, h.caughtUp.lastApplied, RaftNode.lastLogIndex, RaftNode.lastLogIndex, hlog]
  · rw [heq, Proc.setRaft_elections, h.elections]
  · rw [heq, Proc.setRaft_appendCalls, h.appendCalls]
  · rw [heq, Proc.setRaft, h.heartbeats, ite_self]

theorem step (h : Lone c i) (hnodes : cfg.nodes = [i]) (hs : cfg.step c ev = some c') :
    Lone c' i := by
  cases h.step_cases hnodes hs with
  | electionTimeout | raftProcessor => exact h.startElection _
  | heartbeat =>
    refine ⟨?_, ?_, ?_, ?_, ?_, h.rpcs⟩ <;> rw [Cluster.put_proc_self]
    · exact h.peers
    · exact h.caughtUp
    · exact h.elections
    · exact h.appendCalls
    · simp [h.peers, gather]
  | appendEntry command data caller raises =>
    refine ⟨?_, ?_, ?_, ?_, ?_, h.rpcs⟩ <;> rw [Cluster.put_proc_self]
    · rw [Proc.setRaft_raft, RaftNode.appendEntry_caughtUp h.caughtUp h.peers]
      exact h.peers
    · exact h.caughtUp.appendEntry h.peers raises command data
    · exact h.elections
    · exact h.appendCalls
    · rw [Proc.setRaft, h.heartbeats, ite_self]

theorem reach (hnodes : cfg.nodes = [i]) {ok : Cluster κ → Event κ → Prop} (hr : cfg.Reach ok c) :
    Lone c i :=
  hr.invariant (P := fun c => Lone c i) (Lone.init hnodes) fun _ _ _ h _ hs => h.step hnodes hs

theorem leader (h : Lone c i) (hnodes : cfg.nodes = [i]) (hs : cfg.step c ev = some c')
    (hl : (c.proc i).raft.state = .leader) : (c'.proc i).raft.state = .leader := by
  cases h.step_cases hnodes hs with
  | electionTimeout hne | raftProcessor hne => exact absurd hl hne
  | heartbeat =>
    rw [Cluster.put_proc_self]
    exact hl
  | appendEntry command data caller raises =>
    rw [Cluster.put_proc_self, Proc.setRaft_raft, RaftNode.appendEntry_caughtUp h.caughtUp h.peers]
    exact hl

/-- Entries are applied in calls of `append_entry` only. -/
theorem delivered (h : Lone c i) (hnodes : cfg.nodes = [i]) (hs : cfg.step c ev = some c')
    (hev : ∀ command data caller raises, ev ≠ .appendEntry i command data caller raises) :
    (c'.proc i).raft.delivered = (c.proc i).raft.delivered := by
  cases h.step_cases hnodes hs with
  | electionTimeout | raftProcessor =>
    rw [Cluster.put_proc_self]
    exact (Proc.startElection_sameLog _ _).delivered
  | heartbeat => rw [Cluster.put_proc_self]
  | appendEntry command data caller raises => exact absurd rfl (hev command data caller raises)

theorem exists_append (h : Lone c i) (hnodes : cfg.nodes = [i])
    (hl : (c.proc i).raft.state = .leader) (command : String) (data : Dict) (caller : κ)
    (raises : Raises) : ∃ c', cfg.step c (.appendEntry i command data caller raises) = some c' := by
  simp [ClusterConfig.step, ClusterConfig.actor, hnodes, Cluster.step, hl,
    RaftNode.appendEntry_caughtUp h.caughtUp h.peers]

theorem delivered_append (h : Lone c i) (hnodes : cfg.nodes = [i]) {command : String} {data : Dict}
    {caller : κ} {raises : Raises}
    (hs : cfg.step c (.appendEntry i command data caller raises) = some c') :
    (c'.proc i).raft.delivered =
      (c.proc i).raft.delivered ++ [(c.proc i).raft.newEntry command data] := by
  cases h.step_cases hnodes hs with
  | appendEntry =>
    rw [Cluster.put_proc_self, Proc.setRaft_raft, RaftNode.appendEntry_caughtUp h.caughtUp h.peers]

end Lone

end DistributedSync
