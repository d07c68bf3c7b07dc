import DistributedSync.Raft.StateMachineSafety
import DistributedSync.Raft.Leadership
import DistributedSync.Raft.Voting

/-!
# The tenure of a leader

A node goes through the roles of a term in one order, candidate, leader, follower
(`roleOrder_of_reach`), so it leads a term at most once. While it does, it only appends entries of
the term to its log, whatever the other nodes send (`leader_appendOnly`). With safe steps, the
leader of a term has every entry that a node of an earlier term has committed
(`leader_complete`).
-/

namespace DistributedSync

open Replication Cluster

variable {κ : Type} {cfg : ClusterConfig} {c c' : Cluster κ} {ev : Event κ} {i j : String} {t : ℤ}

/-! ## The roles of a term -/

/-- The place of a role in a term. -/
def NodeState.stage : NodeState → ℕ
  | .candidate => 0
  | .leader => 1
  | .follower => 2

namespace RaftNode

variable {n n' n'' : RaftNode}

/-- `n'` is in a later term, or at the same place or a later one of the same term. -/
def RoleOrder (n n' : RaftNode) : Prop :=
  n.currentTerm < n'.currentTerm ∨
    n'.currentTerm = n.currentTerm ∧ n.state.stage ≤ n'.state.stage

theorem RoleOrder.refl : RoleOrder n n := Or.inr ⟨rfl, le_rfl⟩

theorem RoleOrder.of_eq (ht : n'.currentTerm = n.currentTerm) (hs : n'.state = n.state) :
    RoleOrder n n' :=
  Or.inr ⟨ht, hs ▸ le_rfl⟩

theorem RoleOrder.of_follower (ht : n'.currentTerm = n.currentTerm) (hs : n'.state = .follower) :
    RoleOrder n n' := by
  refine Or.inr ⟨ht, ?_⟩
  rw [hs]
  cases n.state <;> decide

theorem RoleOrder.trans (h : RoleOrder n n') (h' : RoleOrder n' n'') : RoleOrder n n'' := by
  unfold RoleOrder at *
  omega

theorem SameRole.roleOrder (h : SameRole n n') : RoleOrder n n' := .of_eq h.currentTerm h.state

theorem adoptTerm_roleOrder (n : RaftNode) (t : ℤ) : RoleOrder n (n.adoptTerm t) := by
  rcases n.adoptTerm_cases t with ⟨-, h⟩ | ⟨hlt, h⟩ <;> rw [h]
  · exact .refl
  · exact Or.inl hlt

theorem startElection_roleOrder (n : RaftNode) : RoleOrder n n.startElection := by
  unfold startElection
  split
  · exact .refl
  · exact Or.inl (Int.lt_succ _)

theorem finishElection_roleOrder (n : RaftNode) (v : ℕ) : RoleOrder n (n.finishElection v) := by
  rcases n.finishElection_cases v with h | ⟨hc, -, h⟩ <;> rw [h]
  · exact .of_eq rfl rfl
  · refine Or.inr ⟨rfl, ?_⟩
    rw [hc]
    exact Nat.zero_le _

theorem appendReply_roleOrder (n : RaftNode) (raises : Raises) (peer : String) (last : ℤ)
    (response : Message) : RoleOrder n (n.appendReply raises peer last response).1 := by
  rcases n.appendReply_sameRole raises peer last response with h | h
  · exact .of_eq h.currentTerm h.state
  · exact (n.adoptTerm_roleOrder response.term).trans h.roleOrder

theorem handleMessage_roleOrder (n : RaftNode) (raises : Raises) (m : Message) :
    RoleOrder n (n.handleMessage raises m).1 := by
  refine (n.adoptTerm_roleOrder m.term).trans ?_
  rcases n.handleMessage_role raises m with h | h | ⟨-, h⟩
  · refine .of_follower (h.currentTerm.trans ?_) (h.state.trans (acceptLeader_state _ _))
    unfold acceptLeader
    split <;> rfl
  · rw [h]
    exact .refl
  · rw [h]
    exact .of_eq rfl rfl

end RaftNode

open RaftNode

theorem Transition.roleOrder (ht : Transition c ev c') (i : String) :
    RoleOrder (c.proc i).raft (c'.proc i).raft := by
  have hput : ∀ {j : String} {p : Proc κ}, c'.proc = Function.update c.proc j p →
      RoleOrder (c.proc j).raft p.raft → RoleOrder (c.proc i).raft (c'.proc i).raft :=
    fun hproc hp => forall_put (P := fun i p => RoleOrder (c.proc i).raft p.raft) hproc hp
      (fun _ _ => .refl) i
  have hstart : ∀ (p : Proc κ) (b : Bool), RoleOrder p.raft (p.startElection b).raft := by
    intro p b
    rw [Proc.startElection_raft]
    split
    · exact (startElection_roleOrder _).trans (finishElection_roleOrder _ 1)
    · exact startElection_roleOrder _
  cases ht with
  | electionTimeout j | raftProcessor j => exact hput rfl (hstart _ _)
  | requestVote j | voteTimeout j | heartbeat j | returnAppend j => exact hput rfl .refl
  | voteResponse j k l t rpc response => exact hput rfl (adoptTerm_roleOrder _ _)
  | cancelElection j => exact hput rfl (.of_eq rfl rfl)
  | finishElection j => exact hput rfl (finishElection_roleOrder _ _)
  | commitEntry j command data caller raises | appendEntry j command data caller raises =>
    exact hput rfl (appendEntry_sameRole _ _ _ _).roleOrder
  | sendAppend j owner k t | appendTimeout j owner k t =>
    refine hput rfl ?_
    rw [Proc.setTask_raft]
    exact .refl
  | appendResponse j => exact hput rfl (appendReply_roleOrder _ _ _ _ _)
  | handleMessage r raises rpc => exact hput rfl (handleMessage_roleOrder _ _ _)

/-- Along a run, a node takes the roles of a term in order. -/
theorem roleOrder_of_reach {ok : Cluster κ → Event κ → Prop} (h : Runs.Reach cfg.step ok c c')
    (i : String) : RoleOrder (c.proc i).raft (c'.proc i).raft :=
  h.invariant (P := fun u => RoleOrder (c.proc i).raft (u.proc i).raft) .refl
    fun _ _ _ hu _ hs => hu.trans ((cfg.transition hs).roleOrder i)

/-! ## Leaders only append -/

/-- Whatever happens between two moments at which a node leads one term, it has appended entries of
the term to its log and done nothing else to it. -/
theorem leader_appendOnly (h : Runs.Reach cfg.step Runs.Any c c') (hi : c.LeaderIn i t)
    (hi' : c'.LeaderIn i t) :
    ∃ new, (c'.proc i).raft.log = (c.proc i).raft.log ++ new ∧ ∀ e ∈ new, e.term = t := by
  induction h with
  | refl => exact ⟨[], (List.append_nil _).symm, List.forall_mem_nil _⟩
  | @tail u v ev hu _ hs ih =>
    have ht := cfg.transition hs
    have horder := roleOrder_of_reach hu i
    -- the node has not been a candidate of the term since, so it led the term one step before
    rcases ht.leader i hi'.1 with hstill | helected | ⟨owner, k, raises, task, rpc, response, -, -,
      -, -, hraft⟩
    · have hu : u.LeaderIn i t := ⟨hstill.state, hstill.currentTerm.symm.trans hi'.2⟩
      obtain ⟨new, hlog, hnew⟩ := ih hu
      obtain ⟨new', hlog', hnew'⟩ := hstill.log
      refine ⟨new ++ new', by rw [hlog', hlog, List.append_assoc], ?_⟩
      exact List.forall_mem_append.mpr ⟨hnew, fun e he => (hnew' e he).trans hu.2⟩
    · exfalso
      have hterm := hi'.2
      have hterm' := hi.2
      rcases helected.term with hlt | ⟨hc, heq⟩
      · rcases horder with hlt' | ⟨heq', -⟩ <;> omega
      · rcases horder with hlt' | ⟨-, hstage⟩
        · omega
        · rw [hi.1, hc] at hstage
          exact absurd hstage (by decide)
    · have hrole := updateCommitIndex_sameRole
        ((u.proc i).raft.recordMatch task.peer rpc.request.lastCovered) raises
      rw [← hraft] at hrole
      obtain ⟨new, hlog, hnew⟩ := ih ⟨hrole.state.symm.trans hi'.1,
        hrole.currentTerm.symm.trans hi'.2⟩
      refine ⟨new, ?_, hnew⟩
      obtain ⟨k, a, d, hframe⟩ := updateCommitIndex_frame
        ((u.proc i).raft.recordMatch task.peer rpc.request.lastCovered) raises
      rw [hraft, hframe]
      exact hlog

/-- `a` gets a command and sends it to `b`. -/
theorem leader_appendOnly_submit : ∃ c c' : Cluster Unit,
    Runs.Reach threeNodes.step Runs.Any c c' ∧ c.LeaderIn "a" 2 ∧ c'.LeaderIn "a" 2 ∧
    (c'.proc "a").raft.log ≠ [] ∧
    ∃ new, (c'.proc "a").raft.log = (c.proc "a").raft.log ++ new ∧ ∀ e ∈ new, e.term = 2 := by
  obtain ⟨c, -, hl, hrun⟩ := Runs.exists_of_runList threeNodes.step threeNodes.init electA
    (fun c => c.LeaderIn "a" 2 ∧ ((Runs.runList threeNodes.step c
      ([submit "a" "x"] ++ push "a" (.append 0) 0 2)).any fun c' =>
        c'.LeaderIn "a" 2 ∧ (c'.proc "a").raft.log ≠ []) = true) (by decide +kernel)
  obtain ⟨c', hr, hl', hlog⟩ := Runs.exists_of_runList _ _ _ _ hrun
  exact ⟨c, c', hr, hl, hl', hlog, leader_appendOnly hr hl hl'⟩

/-! ## Leaders have what is committed -/

/-- What is committed in a state of the protocol is in the log of the leaders of later states. -/
theorem Sim.leader_has {admits : List LogEntry → LogEntry → Prop}
    {s s' : World String LogEntry ℤ} (hs : Sim cfg (Rules.full admits) c s)
    (hm : Moves ((Rules.full admits).protocol cfg) s s') (hs' : Sim cfg (Rules.full admits) c' s')
    (hl : (c'.proc i).raft.state = .leader)
    (ht : (c.proc j).raft.currentTerm ≤ (c'.proc i).raft.currentTerm) :
    (c.proc j).raft.log.take ((c.proc j).raft.commitIndex + 1).toNat <+: (c'.proc i).raft.log := by
  have hsettled := Moves.settled cfg.start_start hs.run trivial hm
    (hs.committed.member j) le_rfl
  have hrole : (s'.member i).role = .leader := by
    rw [hs'.member i]
    show (c'.proc i).raft.state.role = _
    rw [hl]
    rfl
  have hbook := hs'.matched.leader_book i hrole
  have hwon := hs'.elected.leader_won i hrole
  rw [hs'.member i] at hbook hwon
  rw [hs.member j] at hsettled
  have := hs'.safe.settled_book hsettled hwon ht
  rwa [hbook] at this

/-- What a node of an earlier term, or of the same one, has committed at any moment is in the log
of every later leader. -/
theorem leader_complete (hr : cfg.Reach SafeStep c) (hr' : Runs.Reach cfg.step SafeStep c c')
    (hl : (c'.proc i).raft.state = .leader)
    (ht : (c.proc j).raft.currentTerm ≤ (c'.proc i).raft.currentTerm) :
    (c.proc j).raft.log.take ((c.proc j).raft.commitIndex + 1).toNat <+: (c'.proc i).raft.log := by
  obtain ⟨s, hs, -⟩ := Sim.of_safe (admitted_any hr)
  obtain ⟨s', hm, hs'⟩ := hs.reach
    (hr'.mono fun _ ev h => obeys_full h (by cases ev <;> trivial))
  exact hs.leader_has hm hs' hl ht

/-- `a` commits its entry in term 2, and `b` leads term 4. -/
theorem leader_complete_next : ∃ c c' : Cluster Unit, threeNodes.Reach SafeStep c ∧
    Runs.Reach threeNodes.step SafeStep c c' ∧ (c.proc "a").raft.commitIndex = 0 ∧
    (c'.proc "b").raft.state = .leader ∧ (c'.proc "b").raft.currentTerm = 4 ∧
    (c.proc "a").raft.log.take 1 <+: (c'.proc "b").raft.log := by
  obtain ⟨c, hr, hc, ⟨ht, hr'⟩⟩ := Runs.exists_of_checked threeNodes.step SafeStep
    threeNodes.init (electA ++ [submit "a" "x"] ++ push "a" (.append 0) 0 2)
    (fun c => (c.proc "a").raft.commitIndex = 0 ∧ (c.proc "a").raft.currentTerm = 2 ∧
      ((Runs.runList (Runs.checked threeNodes.step SafeStep) c
        (stand "b" ++ ask "b" 0 1 3 ++ askInVain "b" 0 0 ++ [.finishElection "b" 0])).any
          fun c' => (c'.proc "b").raft.state = .leader ∧
            (c'.proc "b").raft.currentTerm = 4) = true) (by decide +kernel)
  obtain ⟨c', hr', hl', ht'⟩ := Runs.exists_of_checked _ _ _ _ _ hr'
  refine ⟨c, c', hr, hr', hc, hl', ht', ?_⟩
  have := leader_complete hr hr' hl' (j := "a") (by rw [ht, ht']; decide)
  rwa [hc] at this

end DistributedSync
