import DistributedSync.Raft.Tenure

/-!
# The leader that a node reports

What the endpoints for readiness and for Raft answer with. A node reports itself exactly when it is
in state LEADER. Another node that it reports has been LEADER at an earlier moment, in a term that
is not larger (`leader_reported`): a gather is made by a leader, so every APPEND_ENTRIES comes from
a node that was one.
-/

namespace DistributedSync

open Cluster

variable {κ : Type} {cfg : ClusterConfig} {c c' : Cluster κ} {ev : Event κ} {i j l : String}
  {t t' : ℤ}

/-! ## Answers -/

namespace RaftNode

variable {n n' : RaftNode}

/-- Check if node is leader. -/
def isLeader (n : RaftNode) : Bool := n.state = .leader

structure Readyz where
  ready : Bool
  nodeId : String
  isLeader : Bool

/-- `_handle_readyz`: true if the node can serve requests. -/
def handleReadyz (n : RaftNode) : Readyz where
  ready := n.isLeader
  nodeId := n.nodeId
  isLeader := n.isLeader

structure RaftInfo where
  nodeId : String
  currentTerm : ℤ
  state : NodeState
  leaderId : Option String
  logSize : ℕ
  commitIndex : ℤ
  lastApplied : ℤ
  votedFor : Option String
  peers : List String

def handleRaftInfo (n : RaftNode) : RaftInfo where
  nodeId := n.nodeId
  currentTerm := n.currentTerm
  state := n.state
  leaderId := n.leaderId
  logSize := n.log.length
  commitIndex := n.commitIndex
  lastApplied := n.lastApplied
  votedFor := n.votedFor
  peers := n.peers

/-! ## One step of a node -/

/-- What a step does to the leader that a node reports, unless it takes one from a message. -/
inductive Reports (n n' : RaftNode) : Prop
  | keeps (hl : n'.leaderId = n.leaderId) (hs : n'.state = .leader ↔ n.state = .leader)
  | forgets (hl : n'.leaderId = none) (hs : n'.state ≠ .leader)
  | elected (hl : n'.leaderId = some n.nodeId) (hs : n'.state = .leader)

theorem Reports.refl : Reports n n := .keeps rfl Iff.rfl

theorem Reports.of_eq (hl : n'.leaderId = n.leaderId) (hs : n'.state = n.state) :
    Reports n n' := .keeps hl (by rw [hs])

theorem adoptTerm_reports (n : RaftNode) (t : ℤ) : Reports n (n.adoptTerm t) := by
  rcases n.adoptTerm_cases t with ⟨-, h⟩ | ⟨-, h⟩ <;> rw [h]
  · exact .refl
  · exact .forgets rfl fun hs => NodeState.noConfusion hs

theorem finishElection_reports (n : RaftNode) (v : ℕ) : Reports n (n.finishElection v) := by
  rcases n.finishElection_cases v with h | ⟨-, -, h⟩ <;> rw [h]
  · exact .of_eq rfl rfl
  · exact .elected rfl rfl

theorem appendEntry_reports (n : RaftNode) (raises : Raises) (command : String) (data : Dict) :
    Reports n (n.appendEntry raises command data).1 := by
  by_cases hp : n.peers = []
  · obtain ⟨a, d, b, h⟩ := appendEntry_commits hp raises command data
    rw [h]
    exact .of_eq rfl rfl
  · rw [appendEntry_waits hp]
    exact .of_eq rfl rfl

theorem appendReply_reports (n : RaftNode) (raises : Raises) (peer : String) (last : ℤ)
    (response : Message) : Reports n (n.appendReply raises peer last response).1 := by
  rcases n.appendReply_cases raises peer last response with ⟨-, h⟩ | ⟨-, h⟩ <;> rw [h]
  · obtain ⟨k, a, d, hf⟩ := (n.recordMatch peer last).updateCommitIndex_frame raises
    rw [hf]
    exact .of_eq rfl rfl
  · have hback : ((n.adoptTerm response.term).backOff peer).leaderId =
        (n.adoptTerm response.term).leaderId ∧ ((n.adoptTerm response.term).backOff peer).state =
        (n.adoptTerm response.term).state := by
      unfold backOff
      split <;> exact ⟨rfl, rfl⟩
    rcases n.adoptTerm_reports response.term with ⟨hl, hs⟩ | ⟨hl, hs⟩ | ⟨hl, hs⟩
    · exact .keeps (hback.1.trans hl) (by rw [hback.2, hs])
    · exact .forgets (hback.1.trans hl) (by rwa [hback.2])
    · exact .elected (hback.1.trans hl) (hback.2.trans hs)

theorem startElection_reports (hs : n.state ≠ .leader) :
    n.startElection.leaderId = n.leaderId ∧ n.startElection.nodeId = n.nodeId ∧
      n.startElection.state ≠ .leader := by
  unfold startElection
  split
  · exact ⟨rfl, rfl, hs⟩
  · exact ⟨rfl, rfl, fun h => NodeState.noConfusion h⟩

theorem handleAppendEntries_leaderId (n : RaftNode) (raises : Raises) (m : Message) :
    (n.handleAppendEntries raises m).1.leaderId = some m.senderId := by
  unfold handleAppendEntries
  dsimp only
  split
  · rfl
  · rfl
  · generalize storeEntries (m.data.prevLogIndex.getD 0 + 1) (m.data.entries.getD [])
      (n.acceptLeader m.senderId).log = stored
    split
    · rcases followCommit_cases { n.acceptLeader m.senderId with log := stored.1 } raises
        (m.data.leaderCommit.getD 0) with ⟨-, h⟩ | ⟨-, h⟩ <;> rw [h]
      · rfl
      · obtain ⟨a, d, hf⟩ := applyCommittedEntries_frame raises
          { n.acceptLeader m.senderId with
            log := stored.1
            commitIndex := min (m.data.leaderCommit.getD 0)
              (lastLogIndex { n.acceptLeader m.senderId with log := stored.1 }) }
        rw [hf]
        rfl
    · rfl

/-- A node that handles APPEND_ENTRIES takes the sender for the leader, and other messages leave the
report alone but for the term rule. -/
theorem handleMessage_reports (n : RaftNode) (raises : Raises) (m : Message) :
    Reports n (n.handleMessage raises m).1 ∨ m.messageType = .appendEntries ∧
      (n.handleMessage raises m).1.leaderId = some m.senderId ∧
      (n.handleMessage raises m).1.state = .follower := by
  by_cases hv : m.messageType = .requestVote
  · rw [handleMessage_requestVote hv]
    left
    rcases (n.adoptTerm m.term).handleRequestVote_cases m with ⟨h, -⟩ | ⟨-, -, -, h, -⟩ <;>
      dsimp only <;> rw [h]
    · exact n.adoptTerm_reports m.term
    · rcases n.adoptTerm_reports m.term with ⟨hl, hs⟩ | ⟨hl, hs⟩ | ⟨hl, hs⟩
      · exact .keeps hl hs
      · exact .forgets hl hs
      · exact .elected hl hs
  by_cases ha : m.messageType = .appendEntries
  · rw [handleMessage_appendEntries ha]
    exact Or.inr ⟨ha, handleAppendEntries_leaderId _ raises m,
      (handleAppendEntries_sameRole _ raises m).state.trans (acceptLeader_state _ _)⟩
  · rw [(handleMessage_other hv ha).1]
    exact Or.inl (n.adoptTerm_reports m.term)

end RaftNode

/-! ## One step of the cluster -/

open RaftNode

/-- A step changes the report of a node by one of its methods, or the node takes the sender of an
APPEND_ENTRIES for the leader. -/
theorem Transition.reports (ht : Transition c ev c') (i : String) :
    Reports (c.proc i).raft (c'.proc i).raft ∨ ∃ rpc ∈ c.rpcs, rpc.receiver = i ∧
      rpc.request.messageType = .appendEntries ∧
      (c'.proc i).raft.leaderId = some rpc.request.senderId ∧
      (c'.proc i).raft.state = .follower ∧ rpc.request.term ≤ (c'.proc i).raft.currentTerm := by
  have hput : ∀ {j : String} {p : Proc κ}, c'.proc = Function.update c.proc j p →
      Reports (c.proc j).raft p.raft → Reports (c.proc i).raft (c'.proc i).raft :=
    fun hproc hp => forall_put (P := fun i p => Reports (c.proc i).raft p.raft) hproc hp
      (fun _ _ => .refl) i
  have hstart : ∀ (p : Proc κ) (b : Bool), p.raft.state ≠ .leader →
      Reports p.raft (p.startElection b).raft := by
    intro p b hs
    obtain ⟨hleader, hid, hstate⟩ := startElection_reports hs
    rw [Proc.startElection_raft]
    split
    · rcases finishElection_reports p.raft.startElection 1 with ⟨hl, hs'⟩ | ⟨hl, hs'⟩ | ⟨hl, hs'⟩
      · exact .keeps (hl.trans hleader) (hs'.trans (iff_of_false hstate hs))
      · exact .forgets hl hs'
      · exact .elected (hid ▸ hl) hs'
    · exact .keeps hleader (iff_of_false hstate hs)
  cases ht with
  | electionTimeout j hs => exact Or.inl (hput rfl (hstart _ _ hs))
  | raftProcessor j hs =>
    exact Or.inl (hput rfl (hstart _ _ fun hl => by rw [hs] at hl; cases hl))
  | requestVote j | voteTimeout j | heartbeat j | returnAppend j => exact Or.inl (hput rfl .refl)
  | voteResponse j k l t rpc response => exact Or.inl (hput rfl (adoptTerm_reports _ _))
  | cancelElection j => exact Or.inl (hput rfl (.of_eq rfl rfl))
  | finishElection j => exact Or.inl (hput rfl (finishElection_reports _ _))
  | commitEntry j | appendEntry j => exact Or.inl (hput rfl (appendEntry_reports _ _ _ _))
  | sendAppend j owner k t | appendTimeout j owner k t =>
    refine Or.inl (hput rfl ?_)
    rw [Proc.setTask_raft]
    exact .refl
  | appendResponse j => exact Or.inl (hput rfl (appendReply_reports _ _ _ _ _))
  | handleMessage r raises rpc hr =>
    rcases handleMessage_reports (c.proc rpc.receiver).raft raises rpc.request with
      h | ⟨htype, hl, hs⟩
    · exact Or.inl (hput rfl h)
    · by_cases hi : i = rpc.receiver
      · subst hi
        refine Or.inr ⟨rpc, List.mem_of_getElem? hr, rfl, htype, ?_⟩
        simp only [Cluster.put_proc_self, Proc.setRaft_raft]
        refine ⟨hl, hs, ?_⟩
        rw [handleMessage_appendEntries htype,
          (handleAppendEntries_sameRole _ raises rpc.request).currentTerm, acceptLeader_currentTerm]
        exact le_adoptTerm _ _
      · left
        show Reports _ (Function.update c.proc rpc.receiver _ i).raft
        rw [Function.update_of_ne hi]
        exact .refl

/-- The node has heartbeats or calls of `append_entry` under way. -/
def Proc.Replicates (p : Proc κ) : Prop := p.heartbeats ≠ [] ∨ p.appendCalls ≠ []

theorem Proc.Replicates.of_setRaft {p : Proc κ} {n : RaftNode} (h : (p.setRaft n).Replicates) :
    p.Replicates := by
  refine h.imp_left fun hne hnil => hne ?_
  show (if p.raft.heartbeatTimer ∧ n.heartbeatTimer then p.heartbeats else []) = []
  rw [hnil, ite_self]

theorem Proc.Replicates.of_setTask {p : Proc κ} {owner : TaskOwner} {k : ℕ} {t : RpcTask}
    (h : (p.setTask owner k t).Replicates) : p.Replicates := by
  cases owner with
  | heartbeat => exact h.imp_left fun hne hnil => hne (by simp [Proc.setTask, hnil])
  | append j => exact h.imp_right fun hne hnil => hne (by simp [Proc.setTask, hnil])

theorem Proc.Replicates.of_startElection {p : Proc κ} {b : Bool}
    (h : (p.startElection b).Replicates) : p.Replicates := by
  unfold Proc.startElection at h
  dsimp only at h
  split at h
  · exact h.of_setRaft
  · exact Proc.Replicates.of_setRaft (n := p.raft.startElection) h

theorem Proc.Replicates.of_task {p : Proc κ} {owner : TaskOwner} {k : ℕ} {t : RpcTask}
    (h : (p.tasks owner)[k]? = some t) : p.Replicates := by
  cases owner with
  | heartbeat => exact Or.inl fun hnil => by simp [Proc.tasks, hnil] at h
  | append j => exact Or.inr fun hnil => by simp [Proc.tasks, hnil] at h

theorem Transition.replicates (ht : Transition c ev c') (i : String)
    (h : (c'.proc i).Replicates) : (c.proc i).Replicates ∨ (c.proc i).raft.state = .leader := by
  have hput : ∀ {j : String} {p : Proc κ}, c'.proc = Function.update c.proc j p →
      (p.Replicates → (c.proc j).Replicates ∨ (c.proc j).raft.state = .leader) →
      (c.proc i).Replicates ∨ (c.proc i).raft.state = .leader := by
    intro j p hproc hp
    exact forall_put (c := c) (P := fun i p => p.Replicates → (c.proc i).Replicates ∨
      (c.proc i).raft.state = .leader) hproc hp (fun _ _ => Or.inl) i h
  cases ht with
  | electionTimeout j | raftProcessor j => exact hput rfl fun h => Or.inl h.of_startElection
  | requestVote j | voteTimeout j => exact hput rfl fun h => Or.inl h
  | voteResponse j | commitEntry j | handleMessage r =>
    exact hput rfl fun h => Or.inl h.of_setRaft
  | cancelElection j | finishElection j =>
    have hsame : ∀ {es : List Election} {n : RaftNode},
        ({ c.proc j with elections := es }.setRaft n).Replicates → (c.proc j).Replicates :=
      fun h => h.of_setRaft
    exact hput rfl fun h => Or.inl (hsame h)
  | heartbeat j htimer hl | appendEntry j command data caller raises hl =>
    exact hput rfl fun _ => Or.inr hl
  | sendAppend j | appendTimeout j => exact hput rfl fun h => Or.inl h.of_setTask
  | appendResponse j => exact hput rfl fun h => Or.inl h.of_setRaft.of_setTask
  | returnAppend j =>
    refine hput rfl fun h => Or.inl (h.imp_right fun hne hnil => hne ?_)
    show (c.proc j).appendCalls.eraseIdx _ = []
    rw [hnil]
    rfl

/-! ## Reported leaders have led -/

/-- At an earlier moment of a run to `c`, `i` has been LEADER of the term `t`. -/
def Led (cfg : ClusterConfig) (c : Cluster κ) (i : String) (t : ℤ) : Prop :=
  ∃ c₀ : Cluster κ, cfg.Reach Runs.Any c₀ ∧ Runs.Reach cfg.step Runs.Any c₀ c ∧ c₀.LeaderIn i t

theorem Led.step (h : Led cfg c i t) (hs : cfg.step c ev = some c') : Led cfg c' i t := by
  obtain ⟨c₀, hr, hr', hl⟩ := h
  exact ⟨c₀, hr, hr'.tail ev trivial hs, hl⟩

/-- Up to the term `t`, `i` has led. -/
def LedUpTo (cfg : ClusterConfig) (c : Cluster κ) (i : String) (t : ℤ) : Prop :=
  ∃ t₀ ≤ t, Led cfg c i t₀

theorem LedUpTo.step (h : LedUpTo cfg c i t) (hs : cfg.step c ev = some c') (hle : t ≤ t') :
    LedUpTo cfg c' i t' := by
  obtain ⟨t₀, hle₀, h⟩ := h
  exact ⟨t₀, hle₀.trans hle, h.step hs⟩

/-- What a node reports, what it sends, and what is under way. -/
structure Known (cfg : ClusterConfig) (c : Cluster κ) : Prop where
  self : ∀ i, (c.proc i).raft.leaderId = some i ↔ (c.proc i).raft.state = .leader
  report : ∀ i l, (c.proc i).raft.leaderId = some l →
    LedUpTo cfg c l (c.proc i).raft.currentTerm
  gather : ∀ i, (c.proc i).Replicates → LedUpTo cfg c i (c.proc i).raft.currentTerm
  request : ∀ rpc ∈ c.rpcs, rpc.request.messageType = .appendEntries →
    rpc.request.senderId = rpc.sender ∧ rpc.receiver ≠ rpc.sender ∧
      LedUpTo cfg c rpc.sender rpc.request.term

theorem Known.init (cfg : ClusterConfig) : Known cfg (cfg.init : Cluster κ) where
  self i := by simp [ClusterConfig.init, RaftNode.init]
  report i l h := by simp [ClusterConfig.init, RaftNode.init] at h
  gather i h := by simp [ClusterConfig.init, Proc.Replicates] at h
  request rpc h := by simp [ClusterConfig.init] at h

theorem currentTerm_le_step (ht : Transition c ev c') (i : String) :
    (c.proc i).raft.currentTerm ≤ (c'.proc i).raft.currentTerm := by
  rcases ht.roleOrder i with h | ⟨h, -⟩ <;> omega

theorem Known.step (h : Known cfg c) (hr : cfg.Reach Runs.Any c) (hw : Wired cfg c)
    (hs : cfg.step c ev = some c') : Known cfg c' := by
  have ht := cfg.transition hs
  have hle := currentTerm_le_step ht
  -- a leader has led its own term
  have hled : ∀ i, (c'.proc i).raft.state = .leader →
      LedUpTo cfg c' i (c'.proc i).raft.currentTerm := fun i hl =>
    ⟨_, le_rfl, c', hr.tail ev trivial hs, .refl, hl, rfl⟩
  refine ⟨fun i => ?_, fun i l hl => ?_, fun i hg => ?_, ?_⟩
  · rcases ht.reports i with (⟨hl, hst⟩ | ⟨hl, hst⟩ | ⟨hl, hst⟩) | ⟨rpc, hmem, hreceiver, htype,
      hl, hst, -⟩
    · rw [hl, hst]
      exact h.self i
    · rw [hl]
      exact iff_of_false (fun heq => nomatch heq) hst
    · rw [hl, hw.nodeId]
      exact iff_of_true rfl hst
    · obtain ⟨hsender, hne, -⟩ := h.request rpc hmem htype
      rw [hl, hst, hsender]
      refine iff_of_false (fun heq => hne ?_) fun heq => NodeState.noConfusion heq
      rw [hreceiver, Option.some.inj heq]
  · rcases ht.reports i with (⟨hl', -⟩ | ⟨hl', -⟩ | ⟨hl', hst⟩) | ⟨rpc, hmem, -, htype, hl', -,
      hterm⟩
    · exact (h.report i l (hl' ▸ hl)).step hs (hle i)
    · rw [hl'] at hl
      cases hl
    · rw [hl', hw.nodeId] at hl
      cases hl
      exact hled i hst
    · obtain ⟨hsender, -, hrequest⟩ := h.request rpc hmem htype
      rw [hl', hsender] at hl
      cases hl
      exact hrequest.step hs hterm
  · rcases ht.replicates i hg with hold | hleader
    · exact (h.gather i hold).step hs (hle i)
    · exact LedUpTo.step ⟨_, le_rfl, c, hr, .refl, hleader, rfl⟩ hs (hle i)
  · have hkept : ∀ rpc ∈ c.rpcs, rpc.request.messageType = .appendEntries →
        rpc.request.senderId = rpc.sender ∧ rpc.receiver ≠ rpc.sender ∧
          LedUpTo cfg c' rpc.sender rpc.request.term := fun rpc hmem htype => by
      obtain ⟨hsender, hne, hrequest⟩ := h.request rpc hmem htype
      exact ⟨hsender, hne, hrequest.step hs le_rfl⟩
    obtain ⟨hactor, -⟩ := cfg.step_some hs
    cases ht with
    | requestVote i j k t =>
      exact forall_send hkept fun htype => MessageType.noConfusion htype
    | sendAppend i owner k t htask =>
      refine forall_send hkept fun _ => ⟨hw.nodeId i, fun heq => ?_,
        (h.gather i (.of_task htask)).step hs le_rfl⟩
      have howned := (hw.proc i).owned owner
      have hpeer : t.peer ∈ cfg.peers i := by
        rw [← hw.peers i]
        rcases howned.peers with hnil | hpeers
        · rw [hnil] at htask
          cases htask
        · exact hpeers ▸ List.mem_map_of_mem (List.mem_of_getElem? htask)
      exact ((cfg.mem_peers i (hactor i rfl) t.peer).mp hpeer).2 heq
    | handleMessage r raises rpc hrpc =>
      exact forall_answer hkept (hkept rpc (List.mem_of_getElem? hrpc))
    | _ => exact hkept

theorem known_of_reach (hr : cfg.Reach Runs.Any c) : Wired cfg c ∧ Known cfg c := by
  induction hr with
  | refl => exact ⟨.init cfg, .init cfg⟩
  | tail ev hr _ hs ih =>
    exact ⟨ih.1.step (cfg.transition hs), ih.2.step hr ih.1 hs⟩

/-- In every state of every run: a node reports itself as the leader exactly when it is ready, and
whoever it reports has been LEADER at an earlier moment, in a term not larger than its own. -/
theorem leader_reported (hr : cfg.Reach Runs.Any c) (i : String) :
    ((c.proc i).raft.handleRaftInfo.leaderId = some i ↔
        (c.proc i).raft.handleReadyz.ready = true) ∧
      ∀ l, (c.proc i).raft.handleRaftInfo.leaderId = some l →
        ∃ t ≤ (c.proc i).raft.handleRaftInfo.currentTerm, Led cfg c l t := by
  obtain ⟨-, h⟩ := known_of_reach hr
  exact ⟨(h.self i).trans decide_eq_true_iff.symm, h.report i⟩

/-- `a` is elected, and `b` hears from it. -/
theorem leader_reported_heartbeat : ∃ c : Cluster Unit, threeNodes.Reach Runs.Any c ∧
    (c.proc "b").raft.handleRaftInfo.leaderId = some "a" ∧
    ∃ t ≤ (c.proc "b").raft.handleRaftInfo.currentTerm, Led threeNodes c "a" t := by
  obtain ⟨c, hr, hb⟩ := Runs.exists_of_runList threeNodes.step threeNodes.init
    (electA ++ [.heartbeat "a", .sendAppend "a" .heartbeat 0, .handleMessage 2 never])
    (fun c : Cluster Unit => (c.proc "b").raft.handleRaftInfo.leaderId = some "a")
    (by decide +kernel)
  exact ⟨c, hr, hb, (leader_reported hr "b").2 "a" hb⟩

end DistributedSync
