import DistributedSync.Raft.Conditions
import DistributedSync.Library.Replication.Invariants

/-!
# The cluster refines the replicated log

A step of the cluster is a number of protocol steps of the node that runs (`Sim.step`). A member
shows the node's term, vote, role, log and commit index (`RaftNode.abs`); a REQUEST_VOTE is a
ballot, and an APPEND_ENTRIES an offer that carries the sender's whole log. An APPEND_ENTRIES built
with a `next_index` past the end of the log corresponds to nothing: every receiver refuses it.

`Rules` says which of the optional rules of the protocol a run obeys. Obeying one is a condition on
the steps of the cluster (`Obeys`).
-/

namespace DistributedSync

open Replication Replication.World TermLog Quorum

variable {κ : Type}

/-! ## The abstraction -/

def NodeState.role : NodeState → Role
  | .follower => .follower
  | .candidate => .candidate
  | .leader => .leader

/-- What the protocol sees of a node. -/
def RaftNode.abs (n : RaftNode) : Member String LogEntry ℤ where
  term := n.currentTerm
  vote := n.votedFor
  role := n.state.role
  log := n.log
  commit := (n.commitIndex + 1).toNat

/-- The rules a run of the cluster may obey. Commits are backed only where the other two rules
hold. -/
structure Rules where
  fenced : Prop
  entitled : Prop
  backed : Prop
  admits : List LogEntry → LogEntry → Prop
  strict : backed → fenced ∧ entitled

/-- The appended entry, if any, is admitted. -/
def Admitted (admits : List LogEntry → LogEntry → Prop) (c : Cluster κ) : Event κ → Prop
  | .appendEntry i command data _ _ =>
    admits (c.proc i).raft.log ((c.proc i).raft.newEntry command data)
  | _ => True

/-- The step obeys the rules, and no election is won with votes of another term. -/
structure Obeys (R : Rules) (c : Cluster κ) (ev : Event κ) : Prop where
  votes : CurrentVotes c ev
  fenced : R.fenced → FencedAppend c ev
  entitled : R.entitled → LeaderSends c ev
  backed : R.backed → BackedCommit c ev
  admits : Admitted R.admits c ev

/-- The protocol of a cluster. Entries carry terms of leaders, which are positive. -/
def Rules.protocol (R : Rules) (cfg : ClusterConfig) : Protocol String LogEntry ℤ where
  members := cfg.nodes.toFinset
  term := LogEntry.term
  fenced := R.fenced
  entitled := R.entitled
  backed := R.backed
  admits := fun l e => 1 ≤ e.term ∧ R.admits l e

def ClusterConfig.start (cfg : ClusterConfig) : World String LogEntry ℤ where
  member i := (RaftNode.init i (cfg.peers i)).abs
  ballots := ∅
  votes := ∅
  offers := ∅
  acks := ∅
  won _ := none
  book _ := []

theorem ClusterConfig.start_start (cfg : ClusterConfig) : Start cfg.start :=
  ⟨fun _ => rfl, fun _ => rfl, fun _ => rfl, rfl, rfl, rfl, rfl, fun _ => rfl, fun _ => rfl⟩

/-- The term of the last entry, 0 without one. -/
def lastTerm (l : List LogEntry) : ℤ := (l.getLast?.map LogEntry.term).getD 0

/-- The REQUEST_VOTE of a ballot. -/
def ballotMessage (b : Ballot String LogEntry ℤ) : Message where
  messageType := .requestVote
  senderId := b.candidate
  term := b.term
  data := { lastLogIndex := some (b.log.length - 1), lastLogTerm := some (lastTerm b.log) }

/-- The APPEND_ENTRIES of an offer. -/
def offerMessage (a : Offer String LogEntry ℤ) : Message where
  messageType := .appendEntries
  senderId := a.leader
  term := a.term
  data :=
    { prevLogIndex := some (a.prev - 1)
      prevLogTerm := some (if a.prev = 0 then 0
        else (a.log[a.prev - 1]?.map LogEntry.term).getD 0)
      entries := some (a.log.drop a.prev)
      leaderCommit := some (a.commit - 1) }

/-- An RPC stands for a ballot or an offer, and a positive answer is on record; or it can have no
positive answer. -/
inductive RpcSim (s : World String LogEntry ℤ) (rpc : Rpc) : Prop
  | ballot (b : Ballot String LogEntry ℤ) (hb : b ∈ s.ballots) (hs : b.candidate = rpc.sender)
    (hm : rpc.request = ballotMessage b)
    (hv : ∀ m, rpc.reply = .answered m → m.granted = true → (rpc.receiver, b) ∈ s.votes)
  | offer (a : Offer String LogEntry ℤ) (ha : a ∈ s.offers) (hs : a.leader = rpc.sender)
    (hm : rpc.request = offerMessage a)
    (hk : ∀ m, rpc.reply = .answered m → m.succeeded = true → (rpc.receiver, a) ∈ s.acks)
  | dud (hm : rpc.request.messageType = .appendEntries) (k : ℕ)
    (hi : rpc.request.data.prevLogIndex = some (k : ℤ))
    (ht : rpc.request.data.prevLogTerm = some 0)
    (hr : ∀ m, rpc.reply = .answered m → m.succeeded = false)

/-- The cluster in state `c` has behaved as the protocol in state `s`. -/
structure Sim (cfg : ClusterConfig) (R : Rules) (c : Cluster κ) (s : World String LogEntry ℤ) :
    Prop where
  run : Moves (R.protocol cfg) cfg.start s
  member : ∀ i, s.member i = (c.proc i).raft.abs
  commit_ge : ∀ i, -1 ≤ (c.proc i).raft.commitIndex
  wired : Wired cfg c
  rpc : ∀ rpc ∈ c.rpcs, RpcSim s rpc

variable {cfg : ClusterConfig} {R : Rules} {c c' : Cluster κ} {ev : Event κ}
  {s s' s₁ s₂ : World String LogEntry ℤ} {i : String} {n : RaftNode}

theorem RpcSim.extends {rpc : Rpc} (h : RpcSim s rpc) (he : s.Extends s') : RpcSim s' rpc := by
  cases h with
  | ballot b hb hs hm hv =>
    exact .ballot b (he.ballots hb) hs hm fun m hr hg => he.votes (hv m hr hg)
  | offer a ha hs hm hk =>
    exact .offer a (he.offers ha) hs hm fun m hr hg => he.acks (hk m hr hg)
  | dud hm k hi ht hr => exact .dud hm k hi ht hr

theorem Sim.init (cfg : ClusterConfig) (R : Rules) :
    Sim cfg R (cfg.init : Cluster κ) cfg.start where
  run := .refl
  member _ := rfl
  commit_ge _ := le_rfl
  wired := .init cfg
  rpc rpc h := by simp [ClusterConfig.init] at h

/-! ## What the protocol's invariants say of the nodes -/

section Facts

variable (h : Sim cfg R c s)

include h

theorem Sim.elected : Elected (R.protocol cfg) s := Moves.elected cfg.start_start h.run

theorem Sim.matched : Matched (R.protocol cfg) s := Moves.matched cfg.start_start h.run

theorem Sim.term_pos (hs : (c.proc i).raft.state ≠ .follower) :
    1 ≤ (c.proc i).raft.currentTerm := by
  have hrole : (s.member i).role ≠ .follower := by
    rw [h.member i]
    show (c.proc i).raft.state.role ≠ .follower
    revert hs
    cases (c.proc i).raft.state <;> simp [NodeState.role]
  have := Moves.role_term cfg.start_start h.run 0 (fun _ => le_rfl) i hrole
  rw [h.member i] at this
  exact this

theorem Sim.entry_pos (i : String) : ∀ e ∈ (c.proc i).raft.log, 1 ≤ e.term := by
  have hkept := Moves.kept cfg.start_start h.run (Q := fun l => ∀ e ∈ l, 1 ≤ e.term)
    (by simp) fun l e hl ha =>
      List.forall_mem_append.mpr ⟨hl, List.forall_mem_singleton.mpr ha.1⟩
  have := hkept.member i
  rwa [h.member i] at this

end Facts

/-! ## Steps of one node -/

/-- Protocol steps that change member `i` only, into `m`. -/
structure Leads (P : Protocol String LogEntry ℤ) (s : World String LogEntry ℤ) (i : String)
    (m : Member String LogEntry ℤ) (s' : World String LogEntry ℤ) : Prop where
  moves : Moves P s s'
  member : s'.member = (s.set i m).member

section Leads

variable {P : Protocol String LogEntry ℤ} {m m' : Member String LogEntry ℤ}

theorem Leads.refl (h : s.member i = m) : Leads P s i m s := by
  refine ⟨.refl, ?_⟩
  subst h
  exact (Function.update_eq_self i s.member).symm

theorem Leads.move (hm : Move P s s') (h : s'.member = (s.set i m).member) : Leads P s i m s' :=
  ⟨.single hm, h⟩

theorem Leads.trans (h : Leads P s i m s₁) (h' : Leads P s₁ i m' s₂) : Leads P s i m' s₂ := by
  refine ⟨h.moves.trans h'.moves, ?_⟩
  rw [h'.member]
  show Function.update s₁.member i m' = Function.update s.member i m'
  rw [h.member]
  exact Function.update_idem ..

theorem Leads.self (h : Leads P s i m s') : s'.member i = m := by
  rw [h.member, set_member_self]

variable (hm : s.member i = n.abs)

include hm

theorem adoptTerm_leads (t : ℤ) : ∃ s', Leads P s i (n.adoptTerm t).abs s' := by
  rcases n.adoptTerm_cases t with ⟨_, h⟩ | ⟨hlt, h⟩ <;> rw [h]
  · exact ⟨s, .refl hm⟩
  · refine ⟨_, .move (.observe i t (by rw [hm]; exact hlt)) ?_⟩
    rw [hm]
    rfl

theorem startElection_leads (hid : n.nodeId = i) (h : n.electionInProgress = false) :
    ∃ s', Leads P s i n.startElection.abs s' := by
  rw [RaftNode.startElection_eq h]
  have hlt : (s.member i).term < n.currentTerm + 1 := by
    rw [hm]
    show n.currentTerm < n.currentTerm + 1
    omega
  refine ⟨_, .move (.stand i _ hlt) ?_⟩
  rw [hm, ← hid]
  rfl

theorem becomeLeader_leads (hs : n.state = .candidate) (hc : s.Carried P i n.currentTerm) :
    ∃ s', Leads P s i n.becomeLeader.endElection.abs s' := by
  have hr : (s.member i).role = .candidate := by
    rw [hm]
    show n.state.role = _
    rw [hs]
    rfl
  have hc' : s.Carried P i (s.member i).term := by
    rw [hm]
    exact hc
  refine ⟨_, .move (.win i hr hc') ?_⟩
  rw [hm]
  rfl

theorem append_leads (hs : n.state = .leader) {e : LogEntry} (ht : P.term e = n.currentTerm)
    (ha : P.admits n.log e) : ∃ s', Leads P s i { n with log := n.log ++ [e] }.abs s' := by
  refine ⟨_, .move (.append i e ?_ ?_ ?_) ?_⟩
  · rw [hm]
    show n.state.role = _
    rw [hs]
    rfl
  · rw [hm]
    exact ht
  · rw [hm]
    exact ha
  · rw [hm]
    rfl

theorem commit_leads (hs : n.state = .leader) {k : ℕ} {e : LogEntry} (hget : n.log[k]? = some e)
    (ht : P.term e = n.currentTerm) (hlt : P.backed → n.commitIndex < k)
    (hb : P.backed → ∃ Q, Majority P.members Q ∧ ∀ j ∈ Q, j = i ∨ s.Acked j n.currentTerm k) :
    ∃ s', Leads P s i { n with commitIndex := k }.abs s' := by
  refine ⟨_, .move (.commit i k e ?_ ?_ ?_ ?_ ?_) ?_⟩
  · rw [hm]
    show n.state.role = _
    rw [hs]
    rfl
  · rw [hm]
    exact hget
  · rw [hm]
    exact ht
  · intro hP
    have := hlt hP
    rw [hm]
    show (n.commitIndex + 1).toNat ≤ k
    omega
  · rw [hm]
    exact hb
  · rw [hm]
    rfl

end Leads

/-! ## The methods as protocol steps -/

theorem abs_applyCommittedEntries (raises : Raises) (n : RaftNode) :
    (n.applyCommittedEntries raises).1.abs = n.abs := by
  obtain ⟨a, d, h⟩ := RaftNode.applyCommittedEntries_frame raises n
  rw [h]
  rfl

theorem requestVoteMessage_eq (n : RaftNode) :
    n.requestVoteMessage = ballotMessage ⟨n.nodeId, n.currentTerm, n.log⟩ := rfl

theorem appendEntriesMessage_eq {peer : String} (h : n.nextIndex peer ≤ n.log.length)
    (hc : -1 ≤ n.commitIndex) :
    n.appendEntriesMessage peer = offerMessage
      ⟨n.nodeId, n.currentTerm, n.log, n.nextIndex peer, (n.commitIndex + 1).toNat⟩ := by
  have hterm : n.prevLogTerm peer = if n.nextIndex peer = 0 then 0
      else (n.log[n.nextIndex peer - 1]?.map LogEntry.term).getD 0 := by
    unfold RaftNode.prevLogTerm RaftNode.prevLogIndex
    by_cases h0 : n.nextIndex peer = 0
    · rw [if_pos h0, if_neg (by omega)]
    · have hcast : (n.nextIndex peer : ℤ) - 1 = ((n.nextIndex peer - 1 : ℕ) : ℤ) := by omega
      rw [if_neg h0, if_pos (by omega), hcast, getItem_natCast]
  have hcommit : n.commitIndex = ((n.commitIndex + 1).toNat : ℤ) - 1 := by omega
  unfold RaftNode.appendEntriesMessage offerMessage RaftNode.prevLogIndex
  rw [hterm]
  simp only [← hcommit]

/-- Past the end of the log, `prev_log_term` is 0. -/
theorem appendEntriesMessage_past {peer : String} (h : n.log.length < n.nextIndex peer) :
    (n.appendEntriesMessage peer).data.prevLogIndex = some ((n.nextIndex peer - 1 : ℕ) : ℤ) ∧
      (n.appendEntriesMessage peer).data.prevLogTerm = some 0 := by
  have hcast : (n.nextIndex peer : ℤ) - 1 = ((n.nextIndex peer - 1 : ℕ) : ℤ) := by omega
  refine ⟨congrArg some hcast, congrArg some ?_⟩
  unfold RaftNode.prevLogTerm RaftNode.prevLogIndex
  rw [if_neg (by omega)]

/-- The comparison of `_handle_request_vote` is the protocol's. -/
theorem upToDate_of_compare {l l' : List LogEntry} (hpos : ∀ e ∈ l, 1 ≤ e.term)
    (h : lastTerm l < lastTerm l' ∨
      lastTerm l' = lastTerm l ∧ (l.length : ℤ) - 1 ≤ (l'.length : ℤ) - 1) :
    UpToDate LogEntry.term l' l := by
  intro e he
  have hl : lastTerm l = e.term := by
    unfold lastTerm
    rw [he]
    rfl
  have he1 := hpos e (List.mem_of_getLast? he)
  rcases hl' : l'.getLast? with _ | e'
  · have : lastTerm l' = 0 := by
      unfold lastTerm
      rw [hl']
      rfl
    omega
  · have : lastTerm l' = e'.term := by
      unfold lastTerm
      rw [hl']
      rfl
    exact ⟨e', rfl, by omega⟩

/-- The check of the previous entry is the protocol's. -/
theorem fits_iff_prevLogCheck {P : Protocol String LogEntry ℤ} (hP : P.term = LogEntry.term)
    {a : Offer String LogEntry ℤ} (hp : a.prev ≤ a.log.length) :
    n.prevLogCheck ((a.prev : ℤ) - 1) (if a.prev = 0 then 0
      else (a.log[a.prev - 1]?.map LogEntry.term).getD 0) = some true ↔ Fits P a n.log := by
  rw [RaftNode.prevLogCheck_pred]
  unfold Fits
  rw [hP]
  by_cases h0 : a.prev = 0
  · simp [h0]
  · have hlt : a.prev - 1 < a.log.length := by omega
    simp only [h0, false_or, if_false, List.getElem?_eq_getElem hlt, Option.map_some,
      Option.getD_some, Option.some.injEq]
    constructor
    · rintro ⟨e, he, ht⟩
      exact ⟨e, _, he, rfl, ht⟩
    · rintro ⟨e, e', he, rfl, ht⟩
      exact ⟨e, he, ht⟩

theorem abs_acceptLeader (n : RaftNode) (sender : String) :
    (n.acceptLeader sender).abs = { n.abs with role := .follower } := by
  unfold RaftNode.acceptLeader
  by_cases h : n.state = .follower
  · rw [if_neg (not_not.mpr h)]
    unfold RaftNode.abs
    rw [h]
    rfl
  · rw [if_pos h]
    rfl

/-- Storing the entries and following the commit index is the protocol's `store`. -/
theorem abs_followCommit {P : Protocol String LogEntry ℤ} (hP : P.term = LogEntry.term)
    (raises : Raises) (hc : -1 ≤ n.commitIndex) (sender : String)
    (a : Offer String LogEntry ℤ) :
    ({ n.acceptLeader sender with
        log := overlay LogEntry.term n.log a.prev (a.log.drop a.prev) }.followCommit
      raises ((a.commit : ℤ) - 1)).1.abs = store P n.abs a := by
  have habs := abs_acceptLeader n sender
  have hci : (n.acceptLeader sender).commitIndex = n.commitIndex := by
    unfold RaftNode.acceptLeader
    split <;> rfl
  generalize n.acceptLeader sender = k at habs hci ⊢
  generalize hl : overlay LogEntry.term n.log a.prev (a.log.drop a.prev) = l
  have hstore : store P n.abs a =
      { n.abs with role := .follower, log := l, commit :=
          if (n.commitIndex + 1).toNat < a.commit then min a.commit l.length
          else (n.commitIndex + 1).toNat } := by
    subst hl
    unfold store
    rw [hP]
    rfl
  have hfields : k.currentTerm = n.currentTerm ∧ k.votedFor = n.votedFor ∧
      k.state.role = .follower :=
    ⟨congrArg Member.term habs, congrArg Member.vote habs, congrArg Member.role habs⟩
  rw [hstore]
  rcases RaftNode.followCommit_cases { k with log := l } raises ((a.commit : ℤ) - 1) with
    ⟨hle, h⟩ | ⟨hlt, h⟩ <;> rw [h]
  · change (a.commit : ℤ) - 1 ≤ k.commitIndex at hle
    rw [if_neg (by omega)]
    unfold RaftNode.abs
    simp only [hfields, hci]
  · change k.commitIndex < (a.commit : ℤ) - 1 at hlt
    rw [abs_applyCommittedEntries, if_pos (by omega)]
    unfold RaftNode.abs RaftNode.lastLogIndex
    simp only [hfields]
    congr 1
    omega

end DistributedSync
