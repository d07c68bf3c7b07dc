import DistributedSync.Raft.Wiring

/-!
# Leaders from step to step

A node that leads after a step has led its term before, with its log and its commit index only
growing (`StillLeads`), or it has just been elected (`Elected`). What it knows of its peers changes
with a success reply only (`Transition.leader`).
-/

namespace DistributedSync

open Cluster

variable {κ : Type} {c c' : Cluster κ} {ev : Event κ}

namespace RaftNode

variable {n n' : RaftNode}

/-- `n'` leads the term that `n` leads. Its log and its commit index have not gone back, and it
knows the same of its peers. -/
structure StillLeads (n n' : RaftNode) : Prop where
  state : n.state = .leader
  currentTerm : n'.currentTerm = n.currentTerm
  matchIndex : n'.matchIndex = n.matchIndex
  log : ∃ new, n'.log = n.log ++ new ∧ ∀ e ∈ new, e.term = n.currentTerm
  commitIndex : n.peers ≠ [] → n.commitIndex ≤ n'.commitIndex

/-- `n'` has just become a leader, in a term in which `n` was no follower. -/
structure Elected (n n' : RaftNode) : Prop where
  term : n.currentTerm < n'.currentTerm ∨
    n.state = .candidate ∧ n'.currentTerm = n.currentTerm
  matchIndex : ∀ p ∈ n.peers, n'.matchIndex p = 0

theorem StillLeads.refl (hl : n.state = .leader) : StillLeads n n :=
  ⟨hl, rfl, rfl, ⟨[], by simp, by simp⟩, fun _ => le_rfl⟩

theorem adoptTerm_leader {t : ℤ} (h : (n.adoptTerm t).state = .leader) : n.adoptTerm t = n := by
  rcases n.adoptTerm_cases t with ⟨_, hn⟩ | ⟨_, hn⟩
  · exact hn
  · rw [hn] at h
    cases h

theorem handleMessage_stillLeads {raises : Raises} {m : Message}
    (hl : (n.handleMessage raises m).1.state = .leader) :
    StillLeads n (n.handleMessage raises m).1 := by
  rcases n.handleMessage_role raises m with h | h | ⟨_, h⟩
  · rw [h.state, acceptLeader_state] at hl
    cases hl
  · rw [h] at hl ⊢
    have hadopt := adoptTerm_leader hl
    rw [hadopt] at hl ⊢
    exact .refl hl
  · rw [h] at hl ⊢
    have hadopt := adoptTerm_leader hl
    rw [hadopt] at hl ⊢
    exact ⟨hl, rfl, rfl, ⟨[], by simp, by simp⟩, fun _ => le_rfl⟩

theorem backOff_stillLeads {t : ℤ} {peer : String}
    (hl : ((n.adoptTerm t).backOff peer).state = .leader) :
    StillLeads n ((n.adoptTerm t).backOff peer) := by
  rw [(backOff_sameRole _ peer).state] at hl
  have hadopt := adoptTerm_leader hl
  rw [hadopt] at hl ⊢
  unfold backOff
  split <;> exact ⟨hl, rfl, rfl, ⟨[], by simp, by simp⟩, fun _ => le_rfl⟩

theorem appendEntry_stillLeads {raises : Raises} {command : String} {data : Dict}
    (hl : n.state = .leader) : StillLeads n (n.appendEntry raises command data).1 := by
  have hrole := n.appendEntry_sameRole raises command data
  refine ⟨hl, hrole.currentTerm, hrole.matchIndex, ⟨_, n.appendEntry_log .., fun e he => ?_⟩,
    fun hp => ?_⟩
  · rw [List.mem_singleton.mp he]
    rfl
  · rw [appendEntry_waits hp]

theorem finishElection_leader {v : ℕ} (h : (n.finishElection v).state = .leader) :
    StillLeads n (n.finishElection v) ∨ Elected n (n.finishElection v) := by
  rcases n.finishElection_cases v with hn | ⟨hc, _, hn⟩ <;> rw [hn] at h ⊢
  · exact Or.inl ⟨h, rfl, rfl, ⟨[], by simp [endElection], by simp⟩, fun _ => le_rfl⟩
  · exact Or.inr ⟨Or.inr ⟨hc, rfl⟩, fun q hq => if_pos hq⟩

end RaftNode

open RaftNode

/-- A node without peers wins the election that it starts, in a new term. -/
theorem Proc.startElection_leader {p : Proc κ} {b : Bool}
    (he : p.raft.electionInProgress = false) (h : (p.startElection b).raft.state = .leader) :
    Elected p.raft (p.startElection b).raft := by
  rw [Proc.startElection_raft, startElection_eq he] at h ⊢
  split at h
  · next hp =>
    rcases finishElection_leader h with hs | hf
    · exact absurd hs.state (by simp)
    · rw [if_pos hp]
      refine ⟨Or.inl ?_, hf.matchIndex⟩
      rcases hf.term with ht | ⟨-, ht⟩
      · exact (Int.lt_succ _).trans ht
      · rw [ht]
        exact Int.lt_succ _
  · cases h

/-- A leader after a step was the leader of its term before, or has just been elected; what it
knows of its peers changes with a success reply only. -/
theorem Transition.leader (ht : Transition c ev c') (i : String)
    (hl : (c'.proc i).raft.state = .leader) :
    StillLeads (c.proc i).raft (c'.proc i).raft ∨ Elected (c.proc i).raft (c'.proc i).raft ∨
      ∃ owner k raises t rpc response, ev = .appendResponse i owner k raises ∧
        ((c.proc i).tasks owner)[k]? = some t ∧ c.arrived t = some (rpc, response) ∧
        response.succeeded = true ∧ (c'.proc i).raft =
          (((c.proc i).raft.recordMatch t.peer rpc.request.lastCovered).updateCommitIndex
            raises).1 := by
  have hself : ∀ {j : String} {p : Proc κ}, c'.proc = Function.update c.proc j p →
      (i = j → p.raft.state = .leader → StillLeads (c.proc i).raft p.raft) →
      StillLeads (c.proc i).raft (c'.proc i).raft := by
    intro j p hproc hp
    rw [hproc] at hl ⊢
    by_cases hij : i = j
    · subst hij
      rw [Function.update_self] at hl ⊢
      exact hp rfl hl
    · rw [Function.update_of_ne hij] at hl ⊢
      exact .refl hl
  -- the node of the step, where it may have won
  have hwin : ∀ {j : String} {p : Proc κ}, c'.proc = Function.update c.proc j p →
      (i = j → p.raft.state = .leader →
        StillLeads (c.proc i).raft p.raft ∨ Elected (c.proc i).raft p.raft) →
      StillLeads (c.proc i).raft (c'.proc i).raft ∨
        Elected (c.proc i).raft (c'.proc i).raft := by
    intro j p hproc hp
    by_cases hij : i = j
    · subst hij
      rw [hproc, Function.update_self] at hl ⊢
      exact hp rfl hl
    · exact Or.inl (hself hproc fun h => absurd h hij)
  have hsend : ∀ {p : Proc κ} {owner : TaskOwner} {k : ℕ} {t : RpcTask},
      (p.setTask owner k t).raft.state = .leader →
      StillLeads p.raft (p.setTask owner k t).raft := by
    intro p owner k t h
    rw [Proc.setTask_raft] at h ⊢
    exact .refl h
  cases ht with
  | electionTimeout j hst he | raftProcessor j hst he =>
    refine (hwin rfl fun hij h => Or.inr ?_).imp_right Or.inl
    subst hij
    exact Proc.startElection_leader he h
  | requestVote j k l t htask hr =>
    exact Or.inl (hself rfl fun hij h => by subst hij; exact .refl h)
  | voteResponse j k l t rpc response htask ha =>
    refine Or.inl (hself rfl fun hij h => ?_)
    subst hij
    change ((c.proc i).raft.adoptTerm response.term).state = .leader at h
    show StillLeads _ ((c.proc i).raft.adoptTerm response.term)
    have hadopt := adoptTerm_leader h
    rw [hadopt] at h ⊢
    exact .refl h
  | voteTimeout j k l t rpc htask hw =>
    exact Or.inl (hself rfl fun hij h => by subst hij; exact .refl h)
  | cancelElection j k f hf hc =>
    exact Or.inl (hself rfl fun hij h => by
      subst hij
      exact ⟨h, rfl, rfl, ⟨[], by simp [endElection], by simp⟩, fun _ => le_rfl⟩)
  | finishElection j k f hf hc hd =>
    refine (hwin rfl fun hij h => ?_).imp_right Or.inl
    subst hij
    exact finishElection_leader h
  | heartbeat j htm hl' hd =>
    exact Or.inl (hself rfl fun hij h => by subst hij; exact .refl h)
  | commitEntry j command data caller raises hl' hp
  | appendEntry j command data caller raises hl' hp =>
    refine Or.inl (hself rfl fun hij h => ?_)
    subst hij
    exact appendEntry_stillLeads hl'
  | sendAppend j owner k t htask hr =>
    exact Or.inl (hself rfl fun hij h => by subst hij; exact hsend h)
  | appendTimeout j owner k t rpc htask hw =>
    exact Or.inl (hself rfl fun hij h => by subst hij; exact hsend h)
  | returnAppend j k call hcall hd =>
    exact Or.inl (hself rfl fun hij h => by subst hij; exact .refl h)
  | handleMessage r raises rpc hr hp reply hreply =>
    exact Or.inl (hself rfl fun hij h => by rw [hij]; exact handleMessage_stillLeads h)
  | appendResponse j owner k raises t rpc response htask ha =>
    by_cases hij : i = j
    swap
    · exact Or.inl (hself rfl fun h => absurd h hij)
    subst hij
    rcases (c.proc i).raft.appendReply_cases raises t.peer rpc.request.lastCovered response with
      ⟨hs, h⟩ | ⟨_, h⟩
    · refine Or.inr (Or.inr ⟨owner, k, raises, t, rpc, response, rfl, htask, ha, hs, ?_⟩)
      rw [put_proc_self, Proc.setRaft_raft, h]
    · refine Or.inl (hself rfl fun _ hl => ?_)
      rw [Proc.setRaft_raft, h] at hl ⊢
      exact backOff_stillLeads hl

end DistributedSync
