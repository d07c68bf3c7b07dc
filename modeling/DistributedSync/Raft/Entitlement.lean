import DistributedSync.Raft.StateMachineSafety

/-!
# Who speaks for a term

`_become_follower` cancels the heartbeat task, but not the RPC coroutines that an election or an
`append_entry` has handed to its gather. Those that have not run yet build their message from
whatever the node is when they do. `entitledSends`: as long as a node keeps its role while such a
coroutine waits for its first run, only leaders send APPEND_ENTRIES and only candidates that vote
for themselves send REQUEST_VOTE. A message is sent when it is handed to `_send_message_to_peer`:
what that does with it, to connect and to write, is the network.
-/

namespace DistributedSync

open Cluster

variable {κ : Type} {cfg : ClusterConfig} {c c' : Cluster κ} {ev : Event κ} {i : String}

/-! ## Roles -/

namespace RaftNode

variable {n m : RaftNode}

/-- The heartbeat task belongs to a leader, and a candidate has voted for itself. -/
structure RoleOk (n : RaftNode) : Prop where
  timer : n.heartbeatTimer = true → n.state = .leader
  own : n.state = .candidate → n.votedFor = some n.nodeId

theorem SameRole.roleOk (h : SameRole n m) (hn : n.RoleOk) : m.RoleOk where
  timer ht := by
    rw [h.state]
    exact hn.timer (by rw [← h.heartbeatTimer, ht])
  own hs := by
    rw [h.votedFor, h.nodeId]
    exact hn.own (by rw [← h.state, hs])

theorem becomeFollower_roleOk (n : RaftNode) (leader : Option String) :
    (n.becomeFollower leader).RoleOk where
  timer ht := by cases ht
  own hs := by cases hs

theorem adoptTerm_roleOk (hn : n.RoleOk) (t : ℤ) : (n.adoptTerm t).RoleOk := by
  rcases n.adoptTerm_cases t with ⟨_, h⟩ | ⟨_, h⟩ <;> rw [h]
  · exact hn
  · exact becomeFollower_roleOk _ _

theorem acceptLeader_roleOk (hn : n.RoleOk) (sender : String) :
    (n.acceptLeader sender).RoleOk := by
  unfold acceptLeader
  split
  · exact ⟨fun ht => Bool.noConfusion ht, fun hs => NodeState.noConfusion hs⟩
  · exact ⟨hn.timer, hn.own⟩

theorem startElection_roleOk (hn : n.RoleOk) (hl : n.state ≠ .leader) :
    n.startElection.RoleOk := by
  unfold startElection
  split
  · exact hn
  · exact ⟨fun ht => absurd (hn.timer ht) hl, fun _ => rfl⟩

theorem finishElection_roleOk (hn : n.RoleOk) (v : ℕ) : (n.finishElection v).RoleOk := by
  rcases n.finishElection_cases v with h | ⟨_, _, h⟩ <;> rw [h]
  · exact ⟨hn.timer, hn.own⟩
  · exact ⟨fun _ => rfl, fun hs => by cases hs⟩

theorem appendReply_roleOk (hn : n.RoleOk) (raises : Raises) (peer : String) (last : ℤ)
    (response : Message) : (n.appendReply raises peer last response).1.RoleOk := by
  rcases n.appendReply_sameRole raises peer last response with h | h
  · exact h.roleOk ⟨hn.timer, hn.own⟩
  · exact h.roleOk (adoptTerm_roleOk hn _)

theorem handleMessage_roleOk (hn : n.RoleOk) (raises : Raises) (msg : Message) :
    (n.handleMessage raises msg).1.RoleOk := by
  have ha := adoptTerm_roleOk hn msg.term
  rcases n.handleMessage_role raises msg with h | h | ⟨hvote, h⟩
  · exact h.roleOk (acceptLeader_roleOk ha _)
  · rwa [h]
  · rw [h]
    refine ⟨ha.timer, fun hs => ?_⟩
    -- a candidate grants its vote to nobody but itself
    have hown := ha.own hs
    rcases hvote with hnone | hsome
    · rw [hown] at hnone
      cases hnone
    · exact hsome.symm.trans hown

end RaftNode

/-! ## Coroutines that have not run yet -/

/-- Some RPC coroutine of an election or an `append_entry` waits for its first run. -/
def Proc.AwaitsFirstRun (p : Proc κ) : Prop :=
  (∃ f ∈ p.elections, ∃ t ∈ f.tasks, t.rpc = none) ∨
    ∃ f ∈ p.appendCalls, ∃ t ∈ f.tasks, t.rpc = none

instance (p : Proc κ) : Decidable p.AwaitsFirstRun := inferInstanceAs (Decidable (_ ∨ _))

/-- A node does not change its role while an RPC coroutine waits for its first run. -/
def KeepsRole (c : Cluster κ) (ev : Event κ) : Prop :=
  ∀ i ∈ c.runner ev, (c.proc i).AwaitsFirstRun → ∀ c' ∈ c.step ev,
    (c'.proc i).raft.state = (c.proc i).raft.state

instance (c : Cluster κ) (ev : Event κ) : Decidable (KeepsRole c ev) :=
  inferInstanceAs (Decidable (∀ _ ∈ _, _))

/-- Waiting coroutines of elections belong to a candidate, those of `append_entry` calls and of
the heartbeat to a leader. -/
structure Speaks (p : Proc κ) : Prop where
  role : p.raft.RoleOk
  heartbeat : p.heartbeats ≠ [] → p.raft.heartbeatTimer = true
  election : ∀ f ∈ p.elections, ∀ t ∈ f.tasks, t.rpc = none → p.raft.state = .candidate
  append : ∀ f ∈ p.appendCalls, ∀ t ∈ f.tasks, t.rpc = none → p.raft.state = .leader

section Frames

variable {p : Proc κ} {n : RaftNode} {t t' : RpcTask}

theorem setRaft_heartbeats (p : Proc κ) (n : RaftNode) :
    (p.setRaft n).heartbeats ≠ [] → n.heartbeatTimer = true := by
  intro h
  by_contra hn
  refine h ?_
  show (if p.raft.heartbeatTimer ∧ n.heartbeatTimer then p.heartbeats else []) = []
  rw [if_neg fun hb => hn hb.2]

theorem Speaks.setRaft (h : Speaks p) (hn : n.RoleOk)
    (hkeep : p.AwaitsFirstRun → n.state = p.raft.state) : Speaks (p.setRaft n) where
  role := hn
  heartbeat := setRaft_heartbeats p n
  election f hf t ht hr :=
    (hkeep (Or.inl ⟨f, hf, t, ht, hr⟩)).trans (h.election f hf t ht hr)
  append f hf t ht hr := (hkeep (Or.inr ⟨f, hf, t, ht, hr⟩)).trans (h.append f hf t ht hr)

theorem mem_set_unsent {tasks : List RpcTask} {k : ℕ} (ht' : t'.rpc ≠ none)
    (ht : t ∈ tasks.set k t')
    (hr : t.rpc = none) : t ∈ tasks := by
  rcases List.mem_or_eq_of_mem_set ht with h | rfl
  · exact h
  · exact absurd hr ht'

theorem Speaks.setVoteTask (h : Speaks p) {j k : ℕ} (ht' : t'.rpc ≠ none) :
    Speaks (p.setVoteTask j k t') := by
  refine ⟨h.role, h.heartbeat, fun g hg t ht hr => ?_, h.append⟩
  rcases mem_modify hg with hg | ⟨f, hf, rfl⟩
  · exact h.election g hg t ht hr
  · exact h.election f (List.mem_of_getElem? hf) t (mem_set_unsent ht' ht hr) hr

theorem Speaks.setTask (h : Speaks p) {owner : TaskOwner} {k : ℕ} (ht' : t'.rpc ≠ none) :
    Speaks (p.setTask owner k t') := by
  cases owner with
  | heartbeat =>
    refine ⟨h.role, fun hne => h.heartbeat fun hnil => hne ?_, h.election, h.append⟩
    show p.heartbeats.set k t' = []
    rw [hnil]
    rfl
  | append j =>
    refine ⟨h.role, h.heartbeat, h.election, fun g hg t ht hr => ?_⟩
    rcases mem_modify hg with hg | ⟨f, hf, rfl⟩
    · exact h.append g hg t ht hr
    · exact h.append f (List.mem_of_getElem? hf) t (mem_set_unsent ht' ht hr) hr

/-- Before and after a change of its tasks that sends some of them, a node awaits the same or fewer
first runs. -/
theorem awaits_of_setVoteTask {j k : ℕ} (ht' : t'.rpc ≠ none)
    (ha : (p.setVoteTask j k t').AwaitsFirstRun) : p.AwaitsFirstRun := by
  rcases ha with ⟨g, hg, t, ht, hr⟩ | ha
  · rcases mem_modify hg with hg | ⟨f, hf, rfl⟩
    · exact Or.inl ⟨g, hg, t, ht, hr⟩
    · exact Or.inl ⟨f, List.mem_of_getElem? hf, t, mem_set_unsent ht' ht hr, hr⟩
  · exact Or.inr ha

theorem awaits_of_setTask {owner : TaskOwner} {k : ℕ} (ht' : t'.rpc ≠ none)
    (ha : (p.setTask owner k t').AwaitsFirstRun) : p.AwaitsFirstRun := by
  cases owner with
  | heartbeat => exact ha
  | append j =>
    rcases ha with ha | ⟨g, hg, t, ht, hr⟩
    · exact Or.inl ha
    · rcases mem_modify hg with hg | ⟨f, hf, rfl⟩
      · exact Or.inr ⟨g, hg, t, ht, hr⟩
      · exact Or.inr ⟨f, List.mem_of_getElem? hf, t, mem_set_unsent ht' ht hr, hr⟩

theorem Speaks.startElection (h : Speaks p) (hl : p.raft.state ≠ .leader)
    (he : p.raft.electionInProgress = false) (b : Bool)
    (hkeep : p.AwaitsFirstRun → (p.startElection b).raft.state = p.raft.state) :
    Speaks (p.startElection b) := by
  have hrole := RaftNode.startElection_roleOk h.role hl
  unfold Proc.startElection at hkeep ⊢
  dsimp only at hkeep ⊢
  split
  · next hp =>
    rw [if_pos hp] at hkeep
    exact h.setRaft (RaftNode.finishElection_roleOk hrole 1) hkeep
  · next hp =>
    rw [if_neg hp] at hkeep
    have hs := h.setRaft hrole hkeep
    refine ⟨hs.role, hs.heartbeat, fun f hf t ht hr => ?_, hs.append⟩
    show p.raft.startElection.state = .candidate
    rw [RaftNode.startElection_eq he]

end Frames

/-! ## The invariant -/

theorem Speaks.init (cfg : ClusterConfig) (i : String) :
    Speaks ((cfg.init : Cluster κ).proc i) where
  role := ⟨fun h => Bool.noConfusion h, fun h => NodeState.noConfusion h⟩
  heartbeat h := absurd rfl h
  election f hf := by simp [ClusterConfig.init] at hf
  append f hf := by simp [ClusterConfig.init] at hf

theorem waitingRpc_sent {t : RpcTask} {rpc : Rpc} (h : c.waitingRpc t = some rpc)
    (result : Option Bool) : { t with result }.rpc ≠ none := by
  obtain ⟨-, r, hr, -⟩ := waitingRpc_some h
  show t.rpc ≠ none
  rw [hr]
  exact Option.some_ne_none r

theorem Speaks.step (h : ∀ i, Speaks (c.proc i)) (hk : KeepsRole c ev) (ht : Transition c ev c')
    (hs : c.step ev = some c') (i : String) : Speaks (c'.proc i) := by
  have hput : ∀ {i p}, c'.proc = Function.update c.proc i p → Speaks p → ∀ j, Speaks (c'.proc j) :=
    fun hproc hp => forall_put (P := fun _ p => Speaks p) hproc hp fun j _ => h j
  -- the node that runs keeps its role if it awaits a first run
  have hrole : ∀ {i p}, i ∈ c.runner ev → c'.proc = Function.update c.proc i p →
      (c.proc i).AwaitsFirstRun → p.raft.state = (c.proc i).raft.state := by
    intro i p hi hproc ha
    have := hk i hi ha c' hs
    rwa [hproc, Function.update_self] at this
  cases ht with
  | electionTimeout i hst he =>
    exact hput rfl ((h i).startElection hst he true (hrole rfl rfl)) _
  | raftProcessor i hst he =>
    refine hput rfl ((h i).startElection (fun hl => ?_) he false (hrole rfl rfl)) _
    rw [hst] at hl
    cases hl
  | requestVote i j k t htask hr => exact hput rfl ((h i).setVoteTask (by simp)) _
  | voteResponse i j k t rpc response htask ha =>
    have hsent := waitingRpc_sent (arrived_some ha).1
    exact hput rfl (((h i).setVoteTask (hsent _)).setRaft
      (RaftNode.adoptTerm_roleOk (h i).role response.term)
      fun ha => hrole rfl rfl (awaits_of_setVoteTask (hsent _) ha)) _
  | voteTimeout i j k t rpc htask hw =>
    exact hput rfl ((h i).setVoteTask (waitingRpc_sent hw _)) _
  | cancelElection i j f hf hc =>
    refine hput rfl (Speaks.setRaft (p := { c.proc i with elections := _ }) ?_ ?_ ?_) _
    · exact ⟨(h i).role, (h i).heartbeat,
        fun f hf => (h i).election f (List.mem_of_mem_eraseIdx hf), (h i).append⟩
    · exact ⟨(h i).role.timer, (h i).role.own⟩
    · exact fun _ => rfl
  | finishElection i j f hf hc hd =>
    refine hput rfl (Speaks.setRaft (p := { c.proc i with elections := _ }) ?_ ?_ ?_) _
    · exact ⟨(h i).role, (h i).heartbeat,
        fun f hf => (h i).election f (List.mem_of_mem_eraseIdx hf), (h i).append⟩
    · exact RaftNode.finishElection_roleOk (h i).role _
    · refine fun ha => hrole rfl rfl (ha.imp_left ?_)
      rintro ⟨g, hg, t, htg, hr⟩
      exact ⟨g, List.mem_of_mem_eraseIdx hg, t, htg, hr⟩
  | heartbeat i htm hl hd =>
    exact hput rfl ⟨(h i).role, fun _ => htm, (h i).election, (h i).append⟩ _
  | commitEntry i command data caller raises hl hp =>
    have hsame := (c.proc i).raft.appendEntry_sameRole raises command data
    exact hput rfl ((h i).setRaft (hsame.roleOk (h i).role) fun _ => hsame.state) _
  | appendEntry i command data caller raises hl hp =>
    have hsame := (c.proc i).raft.appendEntry_sameRole raises command data
    have hset := (h i).setRaft (hsame.roleOk (h i).role) fun _ => hsame.state
    refine hput rfl ⟨hset.role, hset.heartbeat, hset.election, fun f hf t ht hr => ?_⟩ _
    exact hsame.state.trans hl
  | sendAppend i owner k t htask hr => exact hput rfl ((h i).setTask (by simp)) _
  | appendResponse i owner k raises t rpc response htask ha =>
    have hsent := waitingRpc_sent (arrived_some ha).1
    refine hput rfl (((h i).setTask (hsent _)).setRaft
      (RaftNode.appendReply_roleOk (h i).role raises _ _ response) fun ha => ?_) _
    rw [Proc.setTask_raft]
    exact hrole rfl rfl (awaits_of_setTask (hsent _) ha)
  | appendTimeout i owner k t rpc htask hw =>
    exact hput rfl ((h i).setTask (waitingRpc_sent hw _)) _
  | returnAppend i j call hcall hd =>
    exact hput rfl ⟨(h i).role, (h i).heartbeat, (h i).election,
      fun f hf => (h i).append f (List.mem_of_mem_eraseIdx hf)⟩ _
  | handleMessage r raises rpc hr hp reply hreply =>
    refine hput rfl ((h rpc.receiver).setRaft
      (RaftNode.handleMessage_roleOk (h rpc.receiver).role raises rpc.request)
      (hrole (Option.map_eq_some_iff.mpr ⟨rpc, hr, rfl⟩) rfl)) _

/-- The RPCs sent between `c` and `c'` come from nodes entitled to send them. -/
def Cluster.Entitled (c c' : Cluster κ) : Prop :=
  ∀ rpc ∈ c'.rpcs.drop c.rpcs.length,
    (rpc.request.messageType = .appendEntries →
      (c.proc rpc.sender).raft.state = .leader ∧
        (c.proc rpc.sender).raft.currentTerm = rpc.request.term) ∧
    (rpc.request.messageType = .requestVote →
      (c.proc rpc.sender).raft.state = .candidate ∧
        (c.proc rpc.sender).raft.currentTerm = rpc.request.term ∧
        (c.proc rpc.sender).raft.votedFor = some rpc.sender)

/-- An APPEND_ENTRIES task that has not run yet belongs to a leader. -/
theorem Speaks.leader {p : Proc κ} (h : Speaks p) {owner : TaskOwner} {k : ℕ} {t : RpcTask}
    (ht : (p.tasks owner)[k]? = some t) (hr : t.rpc = none) : p.raft.state = .leader := by
  cases owner with
  | heartbeat =>
    refine h.role.timer (h.heartbeat fun hnil => ?_)
    simp [Proc.tasks, hnil] at ht
  | append j =>
    rcases hj : p.appendCalls[j]? with _ | f
    · simp [Proc.tasks, hj] at ht
    · simp only [Proc.tasks, hj, Option.map_some, Option.getD_some] at ht
      exact h.append f (List.mem_of_getElem? hj) t (List.mem_of_getElem? ht) hr

theorem entitledSends (hr : cfg.Reach KeepsRole c) (hs : cfg.step c ev = some c') :
    c.Entitled c' := by
  obtain ⟨hspeak, hwired⟩ := hr.invariant
    (P := fun c => (∀ i, Speaks (c.proc i)) ∧ Wired cfg c)
    ⟨Speaks.init cfg, .init cfg⟩ fun c ev c' h hk hs =>
      ⟨Speaks.step h.1 hk (cfg.transition hs) (cfg.step_some hs).2, h.2.step (cfg.transition hs)⟩
  have hold : ∀ rpcs : List Rpc, rpcs.length = c.rpcs.length →
      ∀ rpc : Rpc, rpc ∉ rpcs.drop c.rpcs.length := by
    intro rpcs hlen rpc hmem
    rw [List.drop_of_length_le hlen.le] at hmem
    cases hmem
  intro rpc hmem
  cases cfg.transition hs with
  | requestVote i j k t htask hrun =>
    have hrpc : rpc = ⟨i, t.peer, (c.proc i).raft.requestVoteMessage, .pending⟩ := by
      simpa [Cluster.send] using hmem
    subst hrpc
    refine ⟨fun h => MessageType.noConfusion h, fun _ => ?_⟩
    obtain ⟨f, hf, hft⟩ := voteTask_some htask
    have hcand := (hspeak i).election f (List.mem_of_getElem? hf) t (List.mem_of_getElem? hft) hrun
    have hvote := (hspeak i).role.own hcand
    rw [hwired.nodeId i] at hvote
    exact ⟨hcand, rfl, hvote⟩
  | sendAppend i owner k t htask hrun =>
    have hrpc : rpc = ⟨i, t.peer, (c.proc i).raft.appendEntriesMessage t.peer, .pending⟩ := by
      simpa [Cluster.send] using hmem
    subst hrpc
    exact ⟨fun _ => ⟨(hspeak i).leader htask hrun, rfl⟩, fun h => MessageType.noConfusion h⟩
  | handleMessage r raises rpc' hr' hp reply hreply =>
    exact absurd hmem (hold _ (List.length_set ..) rpc)
  | _ => exact absurd hmem (hold _ rfl rpc)

/-- The step in which the leader `a` sends its first entry to `b`. -/
theorem entitledSends_append : ∃ c c' : Cluster Unit, threeNodes.Reach KeepsRole c ∧
    threeNodes.step c (.sendAppend "a" (.append 0) 0) = some c' ∧
    c'.rpcs.length = c.rpcs.length + 1 ∧ c.Entitled c' := by
  obtain ⟨c, hr, hs⟩ := Runs.exists_of_checked threeNodes.step KeepsRole
    threeNodes.init (electA ++ [submit "a" "x"])
    (fun c => (threeNodes.step c (.sendAppend "a" (.append 0) 0)).any
      (fun c' => c'.rpcs.length = c.rpcs.length + 1) = true) (by decide +kernel)
  obtain ⟨c', hs, hlen⟩ := (Option.any_eq_true _ _).mp hs
  exact ⟨c, c', hr, hs, of_decide_eq_true hlen, entitledSends hr hs⟩

theorem entitledSends_fails : ¬ ∀ (cfg : ClusterConfig) (c c' : Cluster Unit) (ev : Event Unit),
    cfg.Reach Runs.Any c → cfg.step c ev = some c' → c.Entitled c' := by
  intro h
  -- `a` handles a request of term 3 before the coroutines of its `append_entry` run
  obtain ⟨c, hr, hst, hs⟩ := Runs.exists_of_runList threeNodes.step
    threeNodes.init
    (electA ++ [.electionTimeout "c", .finishElection "c" 0] ++ stand "c" ++
      [.requestVote "c" 0 0, submit "a" "x", .handleMessage 2 never])
    (fun c => (c.proc "a").raft.state = .follower ∧
      (threeNodes.step c (.sendAppend "a" (.append 0) 0)).any (fun c' =>
        (c'.rpcs.drop c.rpcs.length).any fun rpc =>
          rpc.request.messageType = .appendEntries && rpc.sender = "a") = true) (by decide +kernel)
  obtain ⟨c', hs, hany⟩ := (Option.any_eq_true _ _).mp hs
  obtain ⟨rpc, hmem, hrpc⟩ := List.any_eq_true.mp hany
  simp only [Bool.and_eq_true, decide_eq_true_eq] at hrpc
  have := ((h threeNodes c c' _ hr hs rpc hmem).1 hrpc.1).1
  rw [hrpc.2, hst] at this
  cases this

end DistributedSync
