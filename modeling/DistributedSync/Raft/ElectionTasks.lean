import DistributedSync.Library.Tasks
import DistributedSync.Raft.NodeSpec

/-!
# The task an election runs in

`_start_election` runs in one of two tasks: in the election timer's own, called by
`_election_timeout_handler`, or in the one of `_raft_message_processor`. It calls
`_reset_election_timer` before its gather, which cancels the task `_election_timer` holds. When that
is the running task, its gather is cancelled with it: no vote request is sent, and the node stays a
candidate (`timerElection`). In another task each peer gets its request (`processorElection`), and
the node becomes leader when enough of them grant it (`processorElection_leader`).
-/

namespace DistributedSync

open Tasks

namespace RaftNode

variable {n n' : RaftNode} {replies : String → Option Message} {timer : Option ℕ} {task : ℕ}

/-! ## Elections as gathers -/

/-- What the vote tasks of one election share: the node, and the requests sent so far. -/
structure Ballot where
  node : RaftNode
  sent : List (String × Message) := []

/-- `_request_vote_from_peer`, when the peers answer as in `replies` (`none` is a timeout): the
request goes out before the first await. -/
def requestVoteFromPeer (replies : String → Option Message) : Program Ballot String Bool where
  first b peer := { b with sent := b.sent ++ [(peer, b.node.requestVoteMessage)] }
  resume b peer :=
    match replies peer with
    | none => (b, false)
    | some response =>
      let r := b.node.voteReply response
      ({ b with node := r.1 }, r.2)

/-- `_start_election` in the task `task`, up to its gather, with `timer` the task in
`_election_timer`: `_reset_election_timer` calls `cancel()` on that one. -/
def electionGather (n : RaftNode) (timer : Option ℕ) (task : ℕ) : Gather Ballot String Bool :=
  .start (timer == some task) { node := n.startElection } n.peers

/-- `_start_election` from its gather on. A CancelledError leaves through the `finally` clause. -/
def afterGather (g : Gather Ballot String Bool) : RaftNode :=
  match g.outcome with
  | none => g.shared.node.endElection
  | some results => g.shared.node.finishElection (1 + results.count (some true))

/-- `_start_election` run in `task` to its end: the requests sent, and the node. -/
def StartsElection (replies : String → Option Message) (n : RaftNode) (timer : Option ℕ) (task : ℕ)
    (sent : List (String × Message)) (n' : RaftNode) : Prop :=
  if n.electionInProgress then sent = [] ∧ n' = n
  else ∃ g, Runs.Reach (Gather.step (requestVoteFromPeer replies)) Runs.Any
    (n.electionGather timer task) g ∧ g.Complete ∧ g.shared.sent = sent ∧ n' = afterGather g

theorem exists_startsElection (n : RaftNode) (replies : String → Option Message)
    (timer : Option ℕ) (task : ℕ) : ∃ sent n', StartsElection replies n timer task sent n' := by
  unfold StartsElection
  by_cases he : n.electionInProgress
  · exact ⟨[], n, by rw [if_pos he]; exact ⟨rfl, rfl⟩⟩
  · obtain ⟨g, hg, hc⟩ := Gather.exists_complete (requestVoteFromPeer replies)
      (n.electionGather timer task)
    exact ⟨_, _, by rw [if_neg he]; exact ⟨g, hg, hc, rfl, rfl⟩⟩

/-- `_election_timeout_handler` when its sleep is over. It runs in the task `_election_timer`
holds: a handler whose timer has been reset was cancelled in its sleep. -/
def TimesOut (replies : String → Option Message) (n : RaftNode) (task : ℕ)
    (sent : List (String × Message)) (n' : RaftNode) : Prop :=
  if n.state ≠ .leader ∧ n.electionInProgress = false then
    StartsElection replies n (some task) task sent n'
  else sent = [] ∧ n' = n

/-! ## The timer's own task -/

/-- The run by the timer's task: no request goes out, and the node stays a candidate of its new
term. So an election of the cluster that its timer started has no vote tasks
(`Election.cancelled`). -/
theorem timerElection {sent : List (String × Message)} (hs : n.state ≠ .leader)
    (he : n.electionInProgress = false) (h : TimesOut replies n task sent n') :
    sent = [] ∧ n' = n.startElection.endElection := by
  unfold TimesOut StartsElection at h
  rw [if_pos ⟨hs, he⟩, he, if_neg Bool.false_ne_true] at h
  obtain ⟨g, hg, -, rfl, rfl⟩ := h
  unfold electionGather at hg
  rw [beq_self_eq_true] at hg
  obtain ⟨hshared, hcancel, -⟩ := Gather.cancelled hg
  unfold afterGather Gather.outcome
  rw [if_pos hcancel, hshared]
  exact ⟨rfl, rfl⟩

theorem exists_timerElection (replies : String → Option Message) (task : ℕ)
    (hs : n.state ≠ .leader) (he : n.electionInProgress = false) :
    TimesOut replies n task [] n.startElection.endElection := by
  obtain ⟨sent, n', h⟩ := n.exists_startsElection replies (some task) task
  have ht : TimesOut replies n task sent n' := by
    unfold TimesOut
    rwa [if_pos ⟨hs, he⟩]
  obtain ⟨rfl, rfl⟩ := timerElection hs he ht
  exact ht

/-! ## Another task -/

/-- The vote a reply stands for. -/
def peerVote (replies : String → Option Message) (peer : String) : Bool :=
  (replies peer).any fun response => response.data.voteGranted.getD false

theorem keeps_requestVote (replies : String → Option Message) :
    Gather.Keeps (requestVoteFromPeer replies) (fun _ => True)
      (fun b peer => ∃ m, (peer, m) ∈ b.sent) (fun peer vote => vote = peerVote replies peer) where
  first _ := ⟨trivial, _, List.mem_append_right _ (List.mem_singleton.mpr rfl)⟩
  resume {b peer} _ := by
    refine ⟨trivial, ?_⟩
    unfold requestVoteFromPeer peerVote
    dsimp only
    split
    · next h => rw [h]; rfl
    · next h => rw [h]; rfl
  keep {b peer peer'} h := by
    obtain ⟨m, hm⟩ := h
    refine ⟨⟨m, List.mem_append_left _ hm⟩, m, ?_⟩
    unfold requestVoteFromPeer
    dsimp only
    split <;> exact hm

theorem keeps_node (hterm : ∀ p r, replies p = some r → r.term ≤ n.currentTerm) :
    Gather.Keeps (requestVoteFromPeer replies) (fun b => b.node = n) (fun _ _ => True)
      (fun _ _ => True) where
  first h := ⟨h, trivial⟩
  resume {b peer} h := by
    refine ⟨?_, trivial⟩
    unfold requestVoteFromPeer
    dsimp only
    split
    · exact h
    · next r hr =>
      show b.node.adoptTerm r.term = n
      rw [h, adoptTerm_of_le (hterm peer r hr)]
  keep _ := ⟨trivial, trivial⟩

/-- The run by another task: every peer gets a request, and the votes are counted. -/
theorem processorElection {sent : List (String × Message)} (he : n.electionInProgress = false)
    (ht : timer ≠ some task) (h : StartsElection replies n timer task sent n') :
    (∀ p ∈ n.peers, ∃ m, (p, m) ∈ sent) ∧
      ((∀ p r, replies p = some r → r.term ≤ n.currentTerm + 1) →
        n' = n.startElection.finishElection (1 + n.peers.countP (peerVote replies))) := by
  unfold StartsElection at h
  rw [he, if_neg Bool.false_ne_true] at h
  obtain ⟨g, hg, hc, rfl, rfl⟩ := h
  unfold electionGather at hg
  rw [beq_eq_false_iff_ne.mpr ht] at hg
  obtain ⟨-, hcancel, hall⟩ := Gather.rule (keeps_requestVote replies) trivial hg
  have hkeys : g.children.map Prod.fst = n.peers := by
    rw [Gather.keys hg]
    simp [Gather.start, Function.comp_def]
  have hdone : ∀ c ∈ g.children, (∃ m, (c.1, m) ∈ g.shared.sent) ∧
      Gather.result c = some (peerVote replies c.1) := by
    intro c hmem
    obtain ⟨r, hr⟩ := hc c hmem
    rcases hall c hmem with hready | ⟨hsent, hsus | ⟨v, rfl, hv⟩⟩
    · simp [hready] at hr
    · simp [hsus] at hr
    · refine ⟨hsent, ?_⟩
      unfold Gather.result
      rw [hv]
  constructor
  · intro p hp
    rw [← hkeys] at hp
    obtain ⟨c, hmem, rfl⟩ := List.mem_map.mp hp
    exact (hdone c hmem).1
  · intro hterm
    have hnode : g.shared.node = n.startElection := by
      refine (Gather.rule (keeps_node ?_) rfl hg).1
      rw [startElection_eq he]
      exact hterm
    have hresults : g.children.map Gather.result =
        n.peers.map fun p => some (peerVote replies p) := by
      rw [← hkeys, List.map_map]
      exact List.map_congr_left fun c hmem => (hdone c hmem).2
    unfold afterGather Gather.outcome
    rw [hcancel, if_neg Bool.false_ne_true, hnode, hresults]
    dsimp only
    rw [List.count_eq_countP, List.countP_map]
    congr 2
    refine List.countP_congr fun p _ => ?_
    simp

theorem processorElection_leader {sent : List (String × Message)}
    (he : n.electionInProgress = false) (ht : timer ≠ some task)
    (h : StartsElection replies n timer task sent n')
    (hterm : ∀ p r, replies p = some r → r.term ≤ n.currentTerm + 1)
    (hq : n.quorumSize - 1 ≤ n.peers.countP (peerVote replies)) : n'.state = .leader := by
  rw [(processorElection he ht h).2 hterm, startElection_eq he]
  unfold finishElection
  rw [if_pos]
  · rfl
  · refine ⟨rfl, ?_⟩
    show n.quorumSize ≤ _
    omega

end RaftNode

open RaftNode

/-- The two triggers of an election do the same: with the replies of the peers given, they send the
same requests and end in the same role, term, vote and leader, and both make a leader of a node
that enough peers vote for. -/
def TriggersAgree (replies : String → Option Message) (n : RaftNode) : Prop :=
  ∀ timer task sent₁ n₁ sent₂ n₂, task ≠ timer →
    TimesOut replies n timer sent₁ n₁ → StartsElection replies n (some timer) task sent₂ n₂ →
      sent₁.Perm sent₂ ∧ n₁.state = n₂.state ∧ n₁.currentTerm = n₂.currentTerm ∧
        n₁.votedFor = n₂.votedFor ∧ n₁.leaderId = n₂.leaderId ∧
        (n.quorumSize - 1 ≤ n.peers.countP (peerVote replies) →
          n₁.state = .leader ∧ n₂.state = .leader)

/-- The two triggers never do the same: the timer's election sends no request at all. -/
theorem triggers_never_agree {n : RaftNode} (replies : String → Option Message)
    (hp : n.peers ≠ []) (hs : n.state ≠ .leader) (he : n.electionInProgress = false) :
    ¬ TriggersAgree replies n := by
  intro hagree
  obtain ⟨sent, n', h⟩ := n.exists_startsElection replies (some 0) 1
  obtain ⟨hperm, -⟩ := hagree 0 1 _ _ _ _ Nat.one_ne_zero (exists_timerElection replies 0 hs he) h
  obtain ⟨p, hpeer⟩ := List.exists_mem_of_ne_nil _ hp
  obtain ⟨m, hm⟩ := (processorElection he (by simp) h).1 p hpeer
  rw [List.nil_perm.mp hperm] at hm
  cases hm

theorem triggers_never_agree_timeouts :
    ¬ TriggersAgree (fun _ => none) (.init "node_1" ["node_2", "node_3"]) :=
  triggers_never_agree _ (by decide) (by decide) rfl

def voteForFirst (peer : String) : Message where
  messageType := .voteResponse
  senderId := peer
  term := 1
  data := { voteGranted := some true }

/-- With the votes of both peers, the timer's election leaves a candidate and the other one makes a
leader. -/
theorem triggers_differ_on_votes :
    (∀ sent n', TimesOut (fun p => some (voteForFirst p)) (.init "node_1" ["node_2", "node_3"]) 0
        sent n' → sent = [] ∧ n'.state = .candidate) ∧
      (∀ sent n', StartsElection (fun p => some (voteForFirst p))
        (.init "node_1" ["node_2", "node_3"]) (some 0) 1 sent n' → n'.state = .leader) ∧
      ¬ TriggersAgree (fun p => some (voteForFirst p)) (.init "node_1" ["node_2", "node_3"]) := by
  have htimer : ∀ sent n', TimesOut (fun p => some (voteForFirst p))
      (.init "node_1" ["node_2", "node_3"]) 0 sent n' → sent = [] ∧ n'.state = .candidate := by
    intro sent n' h
    obtain ⟨rfl, rfl⟩ := timerElection (by decide) rfl h
    exact ⟨rfl, rfl⟩
  have hother : ∀ sent n', StartsElection (fun p => some (voteForFirst p))
      (.init "node_1" ["node_2", "node_3"]) (some 0) 1 sent n' → n'.state = .leader := by
    intro sent n' h
    refine processorElection_leader rfl (by decide) h (fun p r hr => ?_) (by decide)
    cases hr
    exact le_rfl
  refine ⟨htimer, hother, fun hagree => ?_⟩
  obtain ⟨sent, n', h⟩ := exists_startsElection (.init "node_1" ["node_2", "node_3"])
    (fun p => some (voteForFirst p)) (some 0) 1
  have ht := exists_timerElection (fun p => some (voteForFirst p)) 0
    (n := .init "node_1" ["node_2", "node_3"]) (by decide) rfl
  obtain ⟨-, hstate, -⟩ := hagree 0 1 _ _ _ _ (by decide) ht h
  rw [(htimer _ _ ht).2, hother _ _ h] at hstate
  cases hstate

end DistributedSync
