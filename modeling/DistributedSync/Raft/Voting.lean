import DistributedSync.Raft.NodeSpec
import DistributedSync.Library.Runs

/-!
# One vote per term

A single node in any environment: elections, messages with any contents of the declared types and
replies with any terms come in any order (`NodeEvent`). `current_term` and `voted_for` are written
in five places, and all of them keep `KeepsVote`: within a term a vote is never taken back. So the
votes of a term name one candidate (`oneVotePerTerm`).
-/

namespace DistributedSync

/-- What can happen to a node: one piece of a coroutine between two awaits. -/
inductive NodeEvent where
  | startElection
  | voteReply (response : Message)
  | finishElection (votesReceived : ℕ)
  | endElection
  | appendReply (raises : Raises) (peer : String) (last : ℤ) (response : Message)
  | appendEntry (raises : Raises) (command : String) (data : Dict)
  | handleMessage (raises : Raises) (m : Message)

/-- A VOTE_RESPONSE with `vote_granted = True`. -/
def Message.GrantsVote (m : Message) : Prop :=
  m.messageType = .voteResponse ∧ m.data.voteGranted = some true

instance (m : Message) : Decidable m.GrantsVote := inferInstanceAs (Decidable (_ ∧ _))

namespace RaftNode

variable {n n' n'' : RaftNode}

def after (n : RaftNode) : NodeEvent → RaftNode
  | .startElection => n.startElection
  | .voteReply response => (n.voteReply response).1
  | .finishElection votesReceived => n.finishElection votesReceived
  | .endElection => n.endElection
  | .appendReply raises peer last response => (n.appendReply raises peer last response).1
  | .appendEntry raises command data => (n.appendEntry raises command data).1
  | .handleMessage raises m => (n.handleMessage raises m).1

/-- The vote given in the event, with its term: the candidacy of `_start_election`, or the vote in
the response to a message. -/
def voteIn (n : RaftNode) : NodeEvent → Option (ℤ × String)
  | .startElection =>
    if n.electionInProgress then none else some (n.startElection.currentTerm, n.nodeId)
  | .handleMessage raises m =>
    (n.handleMessage raises m).2.bind fun response =>
      if response.GrantsVote then some (response.term, m.senderId) else none
  | _ => none

/-- A step of a node, with the list of all votes it has given. -/
def voteStep : RaftNode × List (ℤ × String) → NodeEvent → Option (RaftNode × List (ℤ × String))
  | (n, votes), ev => some (n.after ev, votes ++ (n.voteIn ev).toList)

/-! ## What one step does to term and vote -/

/-- The term grows, and within a term the vote is kept. -/
structure KeepsVote (n n' : RaftNode) : Prop where
  term_le : n.currentTerm ≤ n'.currentTerm
  vote : n'.currentTerm = n.currentTerm → ∀ v, n.votedFor = some v → n'.votedFor = some v

theorem KeepsVote.of_eq (ht : n'.currentTerm = n.currentTerm) (hv : n'.votedFor = n.votedFor) :
    KeepsVote n n' :=
  ⟨ht.ge, fun _ v h => by rw [hv, h]⟩

theorem KeepsVote.of_lt (h : n.currentTerm < n'.currentTerm) : KeepsVote n n' :=
  ⟨h.le, fun heq => absurd heq h.ne'⟩

theorem KeepsVote.trans (h : KeepsVote n n') (h' : KeepsVote n' n'') : KeepsVote n n'' where
  term_le := h.term_le.trans h'.term_le
  vote heq v hv := by
    have hle := h.term_le
    have hle' := h'.term_le
    exact h'.vote (by omega) v (h.vote (by omega) v hv)

theorem adoptTerm_keepsVote (n : RaftNode) (t : ℤ) : KeepsVote n (n.adoptTerm t) := by
  rcases n.adoptTerm_cases t with ⟨_, h⟩ | ⟨hlt, h⟩ <;> rw [h]
  · exact .of_eq rfl rfl
  · exact .of_lt hlt

theorem SameRole.keepsVote (h : SameRole n n') : KeepsVote n n' :=
  .of_eq h.currentTerm h.votedFor

theorem appendReply_keepsVote (n : RaftNode) (raises : Raises) (peer : String) (last : ℤ)
    (response : Message) : KeepsVote n (n.appendReply raises peer last response).1 := by
  rcases n.appendReply_sameRole raises peer last response with h | h
  · exact .of_eq h.currentTerm h.votedFor
  · exact (n.adoptTerm_keepsVote response.term).trans h.keepsVote

/-- A vote goes to a request of the term the node is in by then. -/
theorem handleMessage_keepsVote (n : RaftNode) (raises : Raises) (m : Message) :
    KeepsVote n (n.handleMessage raises m).1 := by
  refine (n.adoptTerm_keepsVote m.term).trans ?_
  rcases n.handleMessage_role raises m with h | h | ⟨hvote, h⟩
  · refine KeepsVote.trans ?_ h.keepsVote
    unfold acceptLeader
    split <;> exact .of_eq rfl rfl
  · rw [h]
    exact .of_eq rfl rfl
  · rw [h]
    refine ⟨le_rfl, fun _ v hv => ?_⟩
    rcases hvote with hnone | hsome
    · rw [hv] at hnone
      cases hnone
    · rw [← hv, hsome]

theorem after_keepsVote (n : RaftNode) (ev : NodeEvent) : KeepsVote n (n.after ev) := by
  cases ev with
  | startElection =>
    show KeepsVote n n.startElection
    unfold startElection
    split
    · exact .of_eq rfl rfl
    · exact .of_lt (show n.currentTerm < n.currentTerm + 1 by omega)
  | voteReply response => exact n.adoptTerm_keepsVote response.term
  | finishElection v =>
    show KeepsVote n (n.finishElection v)
    rcases n.finishElection_cases v with h | ⟨_, _, h⟩ <;> rw [h] <;> exact .of_eq rfl rfl
  | endElection => exact .of_eq rfl rfl
  | appendReply raises peer last response => exact n.appendReply_keepsVote raises peer last response
  | appendEntry raises command data => exact (n.appendEntry_sameRole raises command data).keepsVote
  | handleMessage raises m => exact n.handleMessage_keepsVote raises m

/-- A granted vote: the request is of the node's new term, the vote is on record, and the
request's log is at least as up to date. -/
theorem handleMessage_grants {raises : Raises} {m r : Message}
    (hr : (n.handleMessage raises m).2 = some r) (hg : r.GrantsVote) :
    r.term = (n.handleMessage raises m).1.currentTerm ∧
      (n.handleMessage raises m).1.votedFor = some m.senderId ∧
      (n.lastLogTerm < m.data.lastLogTerm.getD 0 ∨
        m.data.lastLogTerm.getD 0 = n.lastLogTerm ∧
          n.lastLogIndex ≤ m.data.lastLogIndex.getD 0) := by
  by_cases hm : m.messageType = .requestVote
  · rw [handleMessage_requestVote hm] at hr ⊢
    have hterm := (n.adoptTerm m.term).handleRequestVote_term m
    have hcases := (n.adoptTerm m.term).handleRequestVote_cases m
    have hlog := n.adoptTerm_log m.term
    cases hr
    rcases hcases with ⟨_, hv⟩ | ⟨_, _, hcmp, hn, _⟩
    · rw [hg.2] at hv
      cases hv
    · refine ⟨hterm, by rw [hn], ?_⟩
      unfold lastLogTerm lastLogIndex at hcmp ⊢
      rwa [hlog] at hcmp
  · by_cases hm' : m.messageType = .appendEntries
    · rw [handleMessage_appendEntries hm'] at hr
      have := hg.1
      rw [handleAppendEntries_type hr] at this
      cases this
    · have := ((handleMessage_other hm hm').2 r hr).1
      rw [hg.2] at this
      cases this

/-! ## The history of votes -/

/-- The votes given so far, against what the node remembers. -/
structure Voted (n : RaftNode) (votes : List (ℤ × String)) : Prop where
  term_le : ∀ v ∈ votes, v.1 ≤ n.currentTerm
  current : ∀ v ∈ votes, v.1 = n.currentTerm → n.votedFor = some v.2
  unique : ∀ v ∈ votes, ∀ w ∈ votes, v.1 = w.1 → v.2 = w.2

theorem voteIn_current {ev : NodeEvent} {v : ℤ × String} (h : v ∈ n.voteIn ev) :
    v.1 = (n.after ev).currentTerm ∧ (n.after ev).votedFor = some v.2 := by
  cases ev with
  | startElection =>
    obtain ⟨he, hv⟩ := Option.ite_none_left_eq_some.mp h
    cases hv
    refine ⟨rfl, ?_⟩
    show n.startElection.votedFor = some n.nodeId
    rw [startElection_eq (by simpa using he)]
  | handleMessage raises m =>
    obtain ⟨r, hr, h⟩ := Option.bind_eq_some_iff.mp h
    obtain ⟨hg, hv⟩ := Option.ite_none_right_eq_some.mp h
    cases hv
    obtain ⟨hterm, hvote, -⟩ := handleMessage_grants hr hg
    exact ⟨hterm, hvote⟩
  | _ => cases h

theorem Voted.step {votes : List (ℤ × String)} (h : Voted n votes) (ev : NodeEvent) :
    Voted (n.after ev) (votes ++ (n.voteIn ev).toList) := by
  have hkeep := n.after_keepsVote ev
  have hold : ∀ v ∈ votes, v.1 = (n.after ev).currentTerm →
      (n.after ev).votedFor = some v.2 := by
    intro v hv heq
    have hterm : v.1 = n.currentTerm :=
      le_antisymm (h.term_le v hv) (by rw [heq]; exact hkeep.term_le)
    exact hkeep.vote (by omega) _ (h.current v hv hterm)
  have hcases : ∀ v ∈ votes ++ (n.voteIn ev).toList, v ∈ votes ∨
      v.1 = (n.after ev).currentTerm ∧ (n.after ev).votedFor = some v.2 := by
    intro v hv
    exact (List.mem_append.mp hv).imp_right fun hv => voteIn_current (Option.mem_toList.mp hv)
  constructor
  case term_le =>
    intro v hv
    rcases hcases v hv with hv | ⟨ht, _⟩
    · exact (h.term_le v hv).trans hkeep.term_le
    · exact ht.le
  case current =>
    intro v hv heq
    rcases hcases v hv with hv | ⟨_, hvote⟩
    · exact hold v hv heq
    · exact hvote
  case unique =>
    intro v hv w hw heq
    rcases hcases v hv with hv | ⟨hvt, hvv⟩ <;> rcases hcases w hw with hw | ⟨hwt, hwv⟩
    · exact h.unique v hv w hw heq
    · rw [hold v hv (by omega)] at hwv
      exact Option.some.inj hwv
    · rw [hold w hw (by omega)] at hvv
      exact (Option.some.inj hvv).symm
    · rw [hvv] at hwv
      exact Option.some.inj hwv

end RaftNode

open RaftNode

/-- In every run of a node its term never goes back, its votes in a term all name one candidate,
and it grants its vote only to a request whose last entry is at least as up to date as its own. -/
theorem oneVotePerTerm {n₀ n₁ n₂ : RaftNode} {votes₁ votes₂ : List (ℤ × String)}
    (h₁ : Runs.Reach voteStep Runs.Any (n₀, []) (n₁, votes₁))
    (h₂ : Runs.Reach voteStep Runs.Any (n₁, votes₁) (n₂, votes₂)) :
    n₁.currentTerm ≤ n₂.currentTerm ∧
      (∀ t a b, (t, a) ∈ votes₂ → (t, b) ∈ votes₂ → a = b) ∧
      ∀ raises m r, (n₂.handleMessage raises m).2 = some r → r.GrantsVote →
        n₂.lastLogTerm < m.data.lastLogTerm.getD 0 ∨
          m.data.lastLogTerm.getD 0 = n₂.lastLogTerm ∧
            n₂.lastLogIndex ≤ m.data.lastLogIndex.getD 0 := by
  refine ⟨?_, ?_, fun raises m r hr hg => (handleMessage_grants hr hg).2.2⟩
  · refine h₂.invariant (P := fun s => n₁.currentTerm ≤ s.1.currentTerm) le_rfl ?_
    rintro ⟨n, votes⟩ ev u hle - hs
    cases hs
    exact hle.trans (n.after_keepsVote ev).term_le
  · have hv : Voted n₂ votes₂ := by
      refine (h₁.trans h₂).invariant (P := fun s => Voted s.1 s.2) ⟨?_, ?_, ?_⟩ ?_
      · simp
      · simp
      · simp
      · rintro ⟨n, votes⟩ ev u h - hs
        cases hs
        exact h.step ev
    exact fun t a b ha hb => hv.unique (t, a) ha (t, b) hb rfl

def emptyBallot (sender : String) (t : ℤ) : Message where
  messageType := .requestVote
  senderId := sender
  term := t
  data := { lastLogIndex := some (-1), lastLogTerm := some 0 }

theorem oneVotePerTerm_granted : ∃ n votes,
    Runs.Reach voteStep Runs.Any (.init "a" ["b", "c"], []) (n, votes) ∧
      votes = [(1, "a"), (2, "b"), (2, "b")] ∧ 0 ≤ n.currentTerm ∧
      ∀ t x y, (t, x) ∈ votes → (t, y) ∈ votes → x = y := by
  -- a candidacy, then a vote for `b` granted twice and refused to `c`
  obtain ⟨⟨n, votes⟩, hr, hv⟩ := Runs.exists_of_runList voteStep
    (.init "a" ["b", "c"], [])
    [.startElection, .handleMessage (fun _ => false) (emptyBallot "b" 2),
     .handleMessage (fun _ => false) (emptyBallot "b" 2),
     .handleMessage (fun _ => false) (emptyBallot "c" 2)]
    (fun s => s.2 = [(1, "a"), (2, "b"), (2, "b")]) (by decide +kernel)
  obtain ⟨hterm, hunique, -⟩ := oneVotePerTerm .refl hr
  exact ⟨n, votes, hr, hv, hterm, hunique⟩

end DistributedSync
