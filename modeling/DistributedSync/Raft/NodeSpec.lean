import DistributedSync.Raft.Node
import DistributedSync.Library.TermLog
import Mathlib.Tactic.Cases

/-!
# What the methods of a node do

One spec lemma for each method that later modules reason about. `Evolves` says what all of them
have in common: the id and the peers stay, and entries reach the callbacks only in a last call of
`_apply_committed_entries`, which keeps `Applied`: the delivered entries are the log up to
`last_applied`.
-/

namespace DistributedSync

namespace RaftNode

variable {n m n' : RaftNode} {raises : Raises}

/-! ## Terms and roles -/

theorem adoptTerm_cases (n : RaftNode) (t : ℤ) :
    t ≤ n.currentTerm ∧ n.adoptTerm t = n ∨
      n.currentTerm < t ∧
        n.adoptTerm t = { n with currentTerm := t, votedFor := none }.becomeFollower none := by
  unfold adoptTerm
  by_cases h : n.currentTerm < t
  · rw [if_pos h]
    exact Or.inr ⟨h, rfl⟩
  · rw [if_neg h]
    exact Or.inl ⟨by omega, rfl⟩

theorem adoptTerm_of_le {t : ℤ} (h : t ≤ n.currentTerm) : n.adoptTerm t = n := by
  unfold adoptTerm
  rw [if_neg (by omega)]

@[simp] theorem adoptTerm_log (n : RaftNode) (t : ℤ) : (n.adoptTerm t).log = n.log := by
  rcases n.adoptTerm_cases t with ⟨_, h⟩ | ⟨_, h⟩ <;> rw [h]
  rfl

theorem le_adoptTerm (n : RaftNode) (t : ℤ) : t ≤ (n.adoptTerm t).currentTerm := by
  rcases n.adoptTerm_cases t with ⟨hle, h⟩ | ⟨_, h⟩ <;> rw [h]
  · exact hle
  · exact le_rfl

theorem startElection_eq (h : n.electionInProgress = false) :
    n.startElection = { n with electionInProgress := true, currentTerm := n.currentTerm + 1,
                               state := .candidate, votedFor := some n.nodeId } := by
  unfold startElection
  rw [h]
  rfl

theorem finishElection_cases (n : RaftNode) (v : ℕ) :
    n.finishElection v = n.endElection ∨
      n.state = .candidate ∧ n.quorumSize ≤ v ∧
        n.finishElection v = n.becomeLeader.endElection := by
  unfold finishElection
  split
  · next h => exact Or.inr ⟨h.1, h.2, rfl⟩
  · exact Or.inl rfl

/-! ## Votes -/

/-- A vote is given to a request of the node's own term, by a node that has no other candidate and
a log that is no more up to date; nothing else changes the node. -/
theorem handleRequestVote_cases (n : RaftNode) (m : Message) :
    ((n.handleRequestVote m).1 = n ∧ (n.handleRequestVote m).2.data.voteGranted = some false) ∨
      n.currentTerm ≤ m.term ∧
      (m.term = n.currentTerm → n.votedFor = none ∨ n.votedFor = some m.senderId) ∧
      (n.lastLogTerm < m.data.lastLogTerm.getD 0 ∨
        m.data.lastLogTerm.getD 0 = n.lastLogTerm ∧
          n.lastLogIndex ≤ m.data.lastLogIndex.getD 0) ∧
      (n.handleRequestVote m).1 = { n with votedFor := some m.senderId } ∧
      (n.handleRequestVote m).2.data.voteGranted = some true := by
  unfold handleRequestVote
  by_cases hterm : m.term < n.currentTerm
  · rw [if_pos hterm]
    exact Or.inl ⟨rfl, rfl⟩
  rw [if_neg hterm]
  by_cases hvoted : m.term = n.currentTerm ∧ n.votedFor ≠ none ∧ n.votedFor ≠ some m.senderId
  · rw [if_pos hvoted]
    exact Or.inl ⟨rfl, rfl⟩
  rw [if_neg hvoted]
  split
  · next hlog =>
    refine Or.inr ⟨by omega, fun heq => ?_, hlog, rfl, rfl⟩
    by_cases hn : n.votedFor = none
    · exact Or.inl hn
    · exact Or.inr (by_contra fun hs => hvoted ⟨heq, hn, hs⟩)
  · exact Or.inl ⟨rfl, rfl⟩

theorem handleRequestVote_term (n : RaftNode) (m : Message) :
    (n.handleRequestVote m).2.term = (n.handleRequestVote m).1.currentTerm := by
  unfold handleRequestVote
  dsimp only
  split
  · rfl
  split
  · rfl
  split <;> rfl

/-! ## Storing entries -/

/-- From a position that is not negative, the loop over the entries writes over the log. -/
theorem storeEntries_eq (p : ℕ) (es log : List LogEntry) :
    storeEntries p es log = (TermLog.overlay LogEntry.term log p es, true) := by
  induction es generalizing p log with
  | nil => rfl
  | cons e es ih =>
    have hcast : (p : ℤ) + 1 = ((p + 1 : ℕ) : ℤ) := by omega
    rw [storeEntries, TermLog.overlay, truncateConflict, hcast]
    by_cases hlt : p < log.length
    · have hget := List.getElem?_eq_getElem hlt
      rw [if_pos (by omega), getItem_natCast, hget]
      by_cases ht : log[p].term = e.term
      · rw [Option.map_some, if_neg (not_not.mpr ht)]
        show storeEntries _ es (if (log.length : ℤ) ≤ p then log ++ [e] else log) = _
        rw [if_neg (by omega), ih]
        simp only [ht, if_true]
      · rw [Option.map_some, if_pos ht, sliceTo_natCast]
        show storeEntries _ es (if ((log.take p).length : ℤ) ≤ p then log.take p ++ [e]
          else log.take p) = _
        rw [if_pos (by rw [List.length_take]; omega), ih]
        simp only [ht, if_false]
    · rw [if_neg (by omega), List.getElem?_eq_none (by omega)]
      show storeEntries _ es (if (log.length : ℤ) ≤ p then log ++ [e] else log) = _
      rw [if_pos (by omega), ih]

@[simp] theorem acceptLeader_log (n : RaftNode) (s : String) :
    (n.acceptLeader s).log = n.log := by
  unfold acceptLeader
  split <;> rfl

@[simp] theorem acceptLeader_currentTerm (n : RaftNode) (s : String) :
    (n.acceptLeader s).currentTerm = n.currentTerm := by
  unfold acceptLeader
  split <;> rfl

theorem prevLogCheck_congr (h : m.log = n.log) (i t : ℤ) :
    m.prevLogCheck i t = n.prevLogCheck i t := by
  unfold prevLogCheck
  rw [h]

/-- The check on position `p - 1`: the log has an entry of the term there, or `p` is 0. -/
theorem prevLogCheck_pred {p : ℕ} {t : ℤ} :
    n.prevLogCheck ((p : ℤ) - 1) t = some true ↔
      p = 0 ∨ ∃ e, n.log[p - 1]? = some e ∧ e.term = t := by
  unfold prevLogCheck
  rcases Nat.eq_zero_or_pos p with rfl | hp
  · rw [if_pos (by simp; omega), if_pos (by simp)]
    simp
  · have hcast : (p : ℤ) - 1 = ((p - 1 : ℕ) : ℤ) := by omega
    have hp0 : p ≠ 0 := by omega
    rw [hcast]
    by_cases hlt : p - 1 < n.log.length
    · rw [if_pos (by omega), if_neg (by omega), getItem_natCast, List.getElem?_eq_getElem hlt]
      simp [hp0]
    · rw [if_neg (by omega), List.getElem?_eq_none (by omega)]
      simp [hp0]

theorem prevLogCheck_isSome (n : RaftNode) (p : ℕ) (t : ℤ) :
    ∃ b, n.prevLogCheck ((p : ℤ) - 1) t = some b := by
  unfold prevLogCheck
  split
  · next hlt =>
    split
    · exact ⟨true, rfl⟩
    · have hcast : (p : ℤ) - 1 = ((p - 1 : ℕ) : ℤ) := by omega
      rw [hcast] at hlt ⊢
      rw [getItem_natCast, List.getElem?_eq_getElem (by omega)]
      exact ⟨_, rfl⟩
  · exact ⟨false, rfl⟩

/-- A refused request changes the role and the known leader at most. -/
theorem handleAppendEntries_refused (raises : Raises) {msg : Message}
    (h : n.prevLogCheck (msg.data.prevLogIndex.getD 0) (msg.data.prevLogTerm.getD 0) ≠
      some true) :
    (n.handleAppendEntries raises msg).1 = n.acceptLeader msg.senderId ∧
      ∀ r, (n.handleAppendEntries raises msg).2 = some r → r.data.success = some false := by
  unfold handleAppendEntries
  dsimp only
  rw [prevLogCheck_congr (acceptLeader_log n msg.senderId)]
  rcases hc : n.prevLogCheck (msg.data.prevLogIndex.getD 0) (msg.data.prevLogTerm.getD 0) with
    _ | _ | _
  · exact ⟨rfl, fun r hr => by simp at hr⟩
  · refine ⟨rfl, fun r hr => ?_⟩
    cases hr
    rfl
  · exact absurd hc h

/-- A request that passes the check has its entries stored and its commit index followed. -/
theorem handleAppendEntries_stored {msg : Message} {p : ℕ}
    (hp : msg.data.prevLogIndex.getD 0 = (p : ℤ) - 1)
    (h : n.prevLogCheck (msg.data.prevLogIndex.getD 0) (msg.data.prevLogTerm.getD 0) =
      some true) :
    (n.handleAppendEntries raises msg).1 =
      ({ n.acceptLeader msg.senderId with
          log := TermLog.overlay LogEntry.term n.log p (msg.data.entries.getD []) }.followCommit
        raises (msg.data.leaderCommit.getD 0)).1 := by
  unfold handleAppendEntries
  dsimp only
  rw [prevLogCheck_congr (acceptLeader_log n msg.senderId), h]
  have hidx : msg.data.prevLogIndex.getD 0 + 1 = (p : ℤ) := by omega
  dsimp only
  rw [hidx, storeEntries_eq, acceptLeader_log]
  rfl

theorem handleAppendEntries_type {msg r : Message}
    (h : (n.handleAppendEntries raises msg).2 = some r) : r.messageType = .appendResponse := by
  unfold handleAppendEntries at h
  dsimp only at h
  split at h
  · cases h
  · cases h
    rfl
  · split at h
    · dsimp only at h
      split at h <;> cases h
      rfl
    · cases h

theorem handleMessage_requestVote {msg : Message} (h : msg.messageType = .requestVote) :
    n.handleMessage raises msg = (((n.adoptTerm msg.term).handleRequestVote msg).1,
      some ((n.adoptTerm msg.term).handleRequestVote msg).2) := by
  unfold handleMessage
  rw [h]

theorem handleMessage_appendEntries {msg : Message} (h : msg.messageType = .appendEntries) :
    n.handleMessage raises msg = (n.adoptTerm msg.term).handleAppendEntries raises msg := by
  unfold handleMessage
  rw [h]

theorem handleMessage_other {msg : Message} (h : msg.messageType ≠ .requestVote)
    (h' : msg.messageType ≠ .appendEntries) :
    (n.handleMessage raises msg).1 = n.adoptTerm msg.term ∧
      ∀ r, (n.handleMessage raises msg).2 = some r →
        r.data.voteGranted = none ∧ r.data.success = none := by
  unfold handleMessage
  dsimp only
  split
  · next heq => exact absurd heq h
  · next heq => exact absurd heq h'
  · refine ⟨rfl, fun r hr => ?_⟩
    cases hr
    exact ⟨rfl, rfl⟩

/-! ## Committing -/

theorem updateCommitIndex_cases (n : RaftNode) (raises : Raises) :
    n.updateCommitIndex raises = (n, true) ∨
      n.state = .leader ∧ n.mayCommit n.commitCandidate = true ∧
        n.updateCommitIndex raises =
          { n with commitIndex := n.commitCandidate }.applyCommittedEntries raises := by
  unfold updateCommitIndex
  by_cases hl : n.state = .leader
  · rw [if_neg (not_not.mpr hl)]
    split
    · next h => exact Or.inr ⟨hl, h, rfl⟩
    · exact Or.inl rfl
  · rw [if_pos hl]
    exact Or.inl rfl

/-- An index that may be committed is new, inside the log and holds an entry of the own term. -/
theorem mayCommit_iff {k : ℤ} :
    n.mayCommit k = true ↔ n.commitIndex < k ∧ k < n.log.length ∧
      ∃ e, getItem n.log k = some e ∧ e.term = n.currentTerm := by
  unfold mayCommit
  simp only [Bool.and_eq_true, decide_eq_true_eq, and_assoc, Option.any_eq_true, beq_iff_eq]

theorem followCommit_cases (n : RaftNode) (raises : Raises) (k : ℤ) :
    k ≤ n.commitIndex ∧ n.followCommit raises k = (n, true) ∨
      n.commitIndex < k ∧ n.followCommit raises k =
        { n with commitIndex := min k n.lastLogIndex }.applyCommittedEntries raises := by
  unfold followCommit
  by_cases h : n.commitIndex < k
  · rw [if_pos h]
    exact Or.inr ⟨h, rfl⟩
  · rw [if_neg h]
    exact Or.inl ⟨by omega, rfl⟩

/-! ## Applying -/

theorem applyLoop_frame (raises : Raises) (k : ℕ) (n : RaftNode) :
    ∃ a d, (applyLoop raises k n).1 = { n with lastApplied := a, delivered := d } := by
  induction k generalizing n with
  | zero => exact ⟨_, _, rfl⟩
  | succ k ih =>
    rw [applyLoop]
    dsimp only
    rcases getItem n.log (n.lastApplied + 1) with _ | e
    · exact ⟨_, _, rfl⟩
    · dsimp only
      split
      · exact ⟨_, _, rfl⟩
      · obtain ⟨a, d, h⟩ := ih { n with lastApplied := n.lastApplied + 1,
                                        delivered := n.delivered ++ [e] }
        exact ⟨a, d, h⟩

theorem applyCommittedEntries_frame (raises : Raises) (n : RaftNode) :
    ∃ a d, (n.applyCommittedEntries raises).1 = { n with lastApplied := a, delivered := d } :=
  applyLoop_frame raises _ n

/-- Inside the log, with callbacks that do not raise, `k` rounds of the loop deliver the next `k`
entries. -/
theorem applyLoop_eq (hr : ∀ i, raises i = false) {p k : ℕ} (hp : (p : ℤ) = n.lastApplied + 1)
    (hk : p + k ≤ n.log.length) :
    applyLoop raises k n = ({ n with
      lastApplied := n.lastApplied + k
      delivered := n.delivered ++ (n.log.drop p).take k }, true) := by
  induction k generalizing n p with
  | zero => simp [applyLoop]
  | succ k ih =>
    have hlt : p < n.log.length := by omega
    rw [applyLoop]
    dsimp only
    rw [← hp, getItem_natCast, List.getElem?_eq_getElem hlt]
    dsimp only
    rw [hr, if_neg Bool.false_ne_true, ih (p := p + 1) (by simp) (by simp; omega)]
    simp only [List.append_assoc, List.singleton_append, List.drop_eq_getElem_cons hlt,
      List.take_succ_cons]
    rw [hp, show n.lastApplied + 1 + (k : ℤ) = n.lastApplied + ((k + 1 : ℕ) : ℤ) by omega]

theorem updateCommitIndex_frame (n : RaftNode) (raises : Raises) :
    ∃ c a d, (n.updateCommitIndex raises).1 =
      { n with commitIndex := c, lastApplied := a, delivered := d } := by
  rcases n.updateCommitIndex_cases raises with h | ⟨_, _, h⟩ <;> rw [h]
  · exact ⟨_, _, _, rfl⟩
  · obtain ⟨a, d, hf⟩ :=
      applyCommittedEntries_frame raises { n with commitIndex := n.commitCandidate }
    exact ⟨_, a, d, hf⟩

@[simp] theorem updateCommitIndex_log (n : RaftNode) (raises : Raises) :
    (n.updateCommitIndex raises).1.log = n.log := by
  obtain ⟨c, a, d, hf⟩ := n.updateCommitIndex_frame raises
  rw [hf]

@[simp] theorem followCommit_log (n : RaftNode) (raises : Raises) (k : ℤ) :
    (n.followCommit raises k).1.log = n.log := by
  rcases n.followCommit_cases raises k with ⟨_, h⟩ | ⟨_, h⟩ <;> rw [h]
  obtain ⟨a, d, hf⟩ :=
    applyCommittedEntries_frame raises { n with commitIndex := min k n.lastLogIndex }
  rw [hf]

theorem appendEntry_waits (hp : n.peers ≠ []) (raises : Raises) (command : String) (data : Dict) :
    n.appendEntry raises command data =
      ({ n with log := n.log ++ [n.newEntry command data] }, none) := by
  unfold appendEntry
  dsimp only
  rw [if_neg hp]

theorem appendEntry_commits (hp : n.peers = []) (raises : Raises) (command : String)
    (data : Dict) :
    ∃ a d b, n.appendEntry raises command data =
      ({ n with log := n.log ++ [n.newEntry command data], commitIndex := n.log.length,
                lastApplied := a, delivered := d }, some b) := by
  obtain ⟨a, d, h⟩ := applyCommittedEntries_frame raises
    { n with log := n.log ++ [n.newEntry command data], commitIndex := n.log.length }
  unfold appendEntry
  dsimp only
  rw [if_pos hp]
  exact ⟨a, d, _, Prod.ext h rfl⟩

@[simp] theorem appendEntry_log (n : RaftNode) (raises : Raises) (command : String)
    (data : Dict) :
    (n.appendEntry raises command data).1.log = n.log ++ [n.newEntry command data] := by
  by_cases hp : n.peers = []
  · obtain ⟨a, d, b, h⟩ := appendEntry_commits hp raises command data
    rw [h]
  · rw [appendEntry_waits hp]

/-- The delivered entries are the log up to `last_applied`, inside the committed part. -/
structure Applied (n : RaftNode) : Prop where
  ge : -1 ≤ n.lastApplied
  le : n.lastApplied ≤ n.commitIndex
  lt : n.commitIndex < n.log.length
  delivered : n.delivered = n.log.take (n.lastApplied + 1).toNat

theorem init_applied (nodeId : String) (peers : List String) : (init nodeId peers).Applied :=
  ⟨le_rfl, le_rfl, by simp [init], rfl⟩

theorem applyLoop_applied {k : ℕ} (h : n.Applied) (hk : n.lastApplied + k ≤ n.commitIndex) :
    (applyLoop raises k n).1.Applied := by
  induction k generalizing n with
  | zero => exact h
  | succ k ih =>
    obtain ⟨hge, hle, hlt, hdel⟩ := h
    obtain ⟨p, hp⟩ : ∃ p : ℕ, n.lastApplied + 1 = p := ⟨(n.lastApplied + 1).toNat, by omega⟩
    have hplt : p < n.log.length := by omega
    have hget : getItem n.log (n.lastApplied + 1) = some n.log[p] := by
      rw [hp, getItem_natCast, List.getElem?_eq_getElem hplt]
    have hstep : Applied { n with lastApplied := n.lastApplied + 1,
                                  delivered := n.delivered ++ [n.log[p]] } := by
      refine ⟨by simp; omega, by simp; omega, hlt, ?_⟩
      show n.delivered ++ [n.log[p]] = n.log.take (n.lastApplied + 1 + 1).toNat
      rw [hdel, hp, show ((p : ℤ) + 1).toNat = p + 1 by omega,
        TermLog.take_succ_eq (List.getElem?_eq_getElem hplt)]
      rfl
    rw [applyLoop]
    dsimp only
    rw [hget]
    dsimp only
    split
    · exact hstep
    · exact ih hstep (by simp; omega)

theorem applyCommittedEntries_applied (h : n.Applied) :
    (n.applyCommittedEntries raises).1.Applied := by
  have := h.le
  exact applyLoop_applied h (by omega)

/-! ## What every method keeps -/

/-- `m` comes from `n` without a call of the callbacks. -/
structure Quiet (n m : RaftNode) : Prop where
  nodeId : m.nodeId = n.nodeId
  peers : m.peers = n.peers
  lastApplied : m.lastApplied = n.lastApplied
  delivered : m.delivered = n.delivered
  commit_ge : -1 ≤ n.commitIndex → -1 ≤ m.commitIndex

/-- `n'` comes from `n`, the callbacks being called last, if at all. -/
def Evolves (n n' : RaftNode) : Prop :=
  ∃ m, Quiet n m ∧ (n' = m ∨ ∃ raises, n' = (m.applyCommittedEntries raises).1)

theorem Quiet.refl : Quiet n n := ⟨rfl, rfl, rfl, rfl, id⟩

theorem Quiet.trans (h : Quiet n m) (h' : Quiet m n') : Quiet n n' :=
  ⟨h'.nodeId.trans h.nodeId, h'.peers.trans h.peers, h'.lastApplied.trans h.lastApplied,
    h'.delivered.trans h.delivered, fun hc => h'.commit_ge (h.commit_ge hc)⟩

theorem Quiet.evolves (h : Quiet n m) : Evolves n m := ⟨m, h, Or.inl rfl⟩

theorem Evolves.refl : Evolves n n := Quiet.refl.evolves

theorem Evolves.of_quiet (h : Quiet n m) (h' : Evolves m n') : Evolves n n' := by
  obtain ⟨m', hm, hn⟩ := h'
  exact ⟨m', h.trans hm, hn⟩

theorem Evolves.frame (h : Evolves n n') :
    ∃ m a d, Quiet n m ∧ n' = { m with lastApplied := a, delivered := d } := by
  obtain ⟨m, hm, rfl | ⟨raises, rfl⟩⟩ := h
  · exact ⟨n', _, _, hm, rfl⟩
  · obtain ⟨a, d, hf⟩ := applyCommittedEntries_frame raises m
    exact ⟨m, a, d, hm, hf⟩

theorem Evolves.nodeId (h : Evolves n n') : n'.nodeId = n.nodeId := by
  obtain ⟨m, a, d, hm, rfl⟩ := h.frame
  exact hm.nodeId

theorem Evolves.peers (h : Evolves n n') : n'.peers = n.peers := by
  obtain ⟨m, a, d, hm, rfl⟩ := h.frame
  exact hm.peers

theorem Evolves.commit_ge (h : Evolves n n') (hc : -1 ≤ n.commitIndex) : -1 ≤ n'.commitIndex := by
  obtain ⟨m, a, d, hm, rfl⟩ := h.frame
  exact hm.commit_ge hc

/-- A method that keeps the committed part of the log keeps `Applied`. -/
theorem Evolves.applied (h : Evolves n n') (ha : n.Applied) (hc : n.commitIndex ≤ n'.commitIndex)
    (hlt : n'.commitIndex < n'.log.length)
    (hlog : n.log.take (n.commitIndex + 1).toNat <+: n'.log) : n'.Applied := by
  have key : ∀ m : RaftNode, Quiet n m → m.commitIndex = n'.commitIndex → m.log = n'.log →
      m.Applied := by
    intro m hm hmc hml
    obtain ⟨hge, hle, hlt', hdel⟩ := ha
    refine ⟨by rw [hm.lastApplied]; exact hge, by rw [hm.lastApplied]; omega,
      by rw [hmc, hml]; exact hlt, ?_⟩
    rw [hm.delivered, hdel, hm.lastApplied, hml]
    have htake := TermLog.prefix_take hlog (k := (n.lastApplied + 1).toNat)
      (by rw [List.length_take]; omega)
    rw [List.take_take, min_eq_left (by omega)] at htake
    exact htake
  obtain ⟨m, hm, rfl | ⟨raises, rfl⟩⟩ := h
  · exact key n' hm rfl rfl
  · obtain ⟨a, d, hf⟩ := applyCommittedEntries_frame raises m
    exact applyCommittedEntries_applied (key m hm (by rw [hf]) (by rw [hf]))

theorem applyLoop_delivered (raises : Raises) (k : ℕ) (n : RaftNode) :
    n.delivered <+: (applyLoop raises k n).1.delivered := by
  induction k generalizing n with
  | zero => exact List.prefix_refl _
  | succ k ih =>
    rw [applyLoop]
    dsimp only
    rcases getItem n.log (n.lastApplied + 1) with _ | e
    · exact List.prefix_refl _
    · dsimp only
      split
      · exact List.prefix_append ..
      · exact (List.prefix_append n.delivered [e]).trans
          (ih { n with lastApplied := n.lastApplied + 1, delivered := n.delivered ++ [e] })

theorem Evolves.delivered (h : Evolves n n') : n.delivered <+: n'.delivered := by
  obtain ⟨m, hm, rfl | ⟨raises, rfl⟩⟩ := h
  · rw [hm.delivered]
  · rw [← hm.delivered]
    exact applyLoop_delivered ..

theorem applyLoop_lastApplied (raises : Raises) (k : ℕ) (n : RaftNode) :
    n.lastApplied ≤ (applyLoop raises k n).1.lastApplied := by
  induction k generalizing n with
  | zero => exact le_rfl
  | succ k ih =>
    have hstep : n.lastApplied ≤ n.lastApplied + 1 := by omega
    rw [applyLoop]
    dsimp only
    rcases getItem n.log (n.lastApplied + 1) with _ | e
    · exact hstep
    · dsimp only
      split
      · exact hstep
      · exact hstep.trans (ih { n with lastApplied := n.lastApplied + 1,
                                       delivered := n.delivered ++ [e] })

theorem Evolves.lastApplied_le (h : Evolves n n') : n.lastApplied ≤ n'.lastApplied := by
  obtain ⟨m, hm, rfl | ⟨raises, rfl⟩⟩ := h
  · exact hm.lastApplied.ge
  · rw [← hm.lastApplied]
    exact applyLoop_lastApplied ..

theorem applyCommittedEntries_evolves (raises : Raises) (n : RaftNode) :
    Evolves n (n.applyCommittedEntries raises).1 :=
  ⟨n, Quiet.refl, Or.inr ⟨raises, rfl⟩⟩

theorem adoptTerm_quiet (n : RaftNode) (t : ℤ) : Quiet n (n.adoptTerm t) := by
  rcases n.adoptTerm_cases t with ⟨_, h⟩ | ⟨_, h⟩ <;> rw [h]
  · exact Quiet.refl
  · exact ⟨rfl, rfl, rfl, rfl, id⟩

theorem startElection_quiet (n : RaftNode) : Quiet n n.startElection := by
  unfold startElection
  split
  · exact Quiet.refl
  · exact ⟨rfl, rfl, rfl, rfl, id⟩

theorem finishElection_quiet (n : RaftNode) (v : ℕ) : Quiet n (n.finishElection v) := by
  unfold finishElection
  split <;> exact ⟨rfl, rfl, rfl, rfl, id⟩

theorem acceptLeader_quiet (n : RaftNode) (s : String) : Quiet n (n.acceptLeader s) := by
  unfold acceptLeader
  split <;> exact ⟨rfl, rfl, rfl, rfl, id⟩

theorem backOff_quiet (n : RaftNode) (p : String) : Quiet n (n.backOff p) := by
  unfold backOff
  split
  · exact ⟨rfl, rfl, rfl, rfl, id⟩
  · exact Quiet.refl

theorem updateCommitIndex_evolves (n : RaftNode) (raises : Raises) :
    Evolves n (n.updateCommitIndex raises).1 := by
  rcases n.updateCommitIndex_cases raises with h | ⟨_, hmay, h⟩ <;> rw [h]
  · exact Evolves.refl
  · obtain ⟨hlt, -⟩ := mayCommit_iff.mp hmay
    refine Evolves.of_quiet (m := { n with commitIndex := n.commitCandidate })
      ⟨rfl, rfl, rfl, rfl, fun hc => ?_⟩ (applyCommittedEntries_evolves raises _)
    show -1 ≤ n.commitCandidate
    omega

theorem followCommit_evolves (n : RaftNode) (raises : Raises) (k : ℤ) :
    Evolves n (n.followCommit raises k).1 := by
  rcases n.followCommit_cases raises k with ⟨_, h⟩ | ⟨hlt, h⟩ <;> rw [h]
  · exact Evolves.refl
  · refine Evolves.of_quiet (m := { n with commitIndex := min k n.lastLogIndex })
      ⟨rfl, rfl, rfl, rfl, fun hc => ?_⟩ (applyCommittedEntries_evolves raises _)
    show -1 ≤ min k n.lastLogIndex
    unfold lastLogIndex
    omega

theorem appendReply_evolves (n : RaftNode) (raises : Raises) (p : String) (last : ℤ)
    (response : Message) : Evolves n (n.appendReply raises p last response).1 := by
  unfold appendReply
  split
  · exact Evolves.of_quiet (m := n.recordMatch p last) ⟨rfl, rfl, rfl, rfl, id⟩
      (updateCommitIndex_evolves _ _)
  · exact ((n.adoptTerm_quiet _).trans (backOff_quiet _ p)).evolves

theorem appendEntry_evolves (n : RaftNode) (raises : Raises) (command : String) (data : Dict) :
    Evolves n (n.appendEntry raises command data).1 := by
  unfold appendEntry
  dsimp only
  split
  · refine Evolves.of_quiet (m := { n with log := n.log ++ [n.newEntry command data],
                                           commitIndex := (n.newEntry command data).index })
      ⟨rfl, rfl, rfl, rfl, fun _ => ?_⟩ (applyCommittedEntries_evolves raises _)
    show (-1 : ℤ) ≤ n.log.length
    omega
  · exact Quiet.evolves ⟨rfl, rfl, rfl, rfl, id⟩

theorem handleRequestVote_quiet (n : RaftNode) (m : Message) :
    Quiet n (n.handleRequestVote m).1 := by
  rcases n.handleRequestVote_cases m with ⟨h, _⟩ | ⟨_, _, _, h, _⟩ <;> rw [h]
  · exact Quiet.refl
  · exact ⟨rfl, rfl, rfl, rfl, id⟩

theorem handleAppendEntries_evolves (n : RaftNode) (raises : Raises) (m : Message) :
    Evolves n (n.handleAppendEntries raises m).1 := by
  have hq := n.acceptLeader_quiet m.senderId
  unfold handleAppendEntries
  dsimp only
  generalize n.acceptLeader m.senderId = k at hq ⊢
  split
  · exact hq.evolves
  · exact hq.evolves
  · generalize storeEntries (m.data.prevLogIndex.getD 0 + 1) (m.data.entries.getD []) k.log = st
    have hst : Quiet k { k with log := st.1 } := ⟨rfl, rfl, rfl, rfl, id⟩
    refine Evolves.of_quiet (hq.trans hst) ?_
    split
    · exact followCommit_evolves _ raises _
    · exact Evolves.refl

theorem handleMessage_evolves (n : RaftNode) (raises : Raises) (m : Message) :
    Evolves n (n.handleMessage raises m).1 := by
  unfold handleMessage
  refine Evolves.of_quiet (n.adoptTerm_quiet m.term) ?_
  dsimp only
  split
  · exact (handleRequestVote_quiet _ m).evolves
  · exact handleAppendEntries_evolves _ raises m
  · exact Evolves.refl

/-! ## Term, vote and role

Storing, applying and committing leave them alone, so they change in few places. -/

/-- Term, vote and role are the same, and what a leader knows of its peers. -/
structure SameRole (n m : RaftNode) : Prop where
  nodeId : m.nodeId = n.nodeId
  currentTerm : m.currentTerm = n.currentTerm
  votedFor : m.votedFor = n.votedFor
  state : m.state = n.state
  heartbeatTimer : m.heartbeatTimer = n.heartbeatTimer
  matchIndex : m.matchIndex = n.matchIndex

theorem SameRole.refl : SameRole n n := ⟨rfl, rfl, rfl, rfl, rfl, rfl⟩

theorem SameRole.apply (raises : Raises) (h : SameRole n m) :
    SameRole n (m.applyCommittedEntries raises).1 := by
  obtain ⟨a, d, hf⟩ := applyCommittedEntries_frame raises m
  rw [hf]
  exact ⟨h.nodeId, h.currentTerm, h.votedFor, h.state, h.heartbeatTimer, h.matchIndex⟩

theorem updateCommitIndex_sameRole (n : RaftNode) (raises : Raises) :
    SameRole n (n.updateCommitIndex raises).1 := by
  rcases n.updateCommitIndex_cases raises with h | ⟨_, _, h⟩ <;> rw [h]
  · exact .refl
  · exact SameRole.apply raises ⟨rfl, rfl, rfl, rfl, rfl, rfl⟩

/-- A success reply is recorded, any other one can only raise the term and step back. -/
theorem appendReply_cases (n : RaftNode) (raises : Raises) (peer : String) (last : ℤ)
    (response : Message) :
    response.data.success.getD false = true ∧ n.appendReply raises peer last response =
        (n.recordMatch peer last).updateCommitIndex raises ∨
      response.data.success.getD false = false ∧ n.appendReply raises peer last response =
        ((n.adoptTerm response.term).backOff peer, false) := by
  unfold appendReply
  split
  · next h => exact Or.inl ⟨h, rfl⟩
  · next h => exact Or.inr ⟨Bool.eq_false_of_not_eq_true h, rfl⟩

theorem backOff_sameRole (n : RaftNode) (peer : String) : SameRole n (n.backOff peer) := by
  unfold backOff
  split <;> exact ⟨rfl, rfl, rfl, rfl, rfl, rfl⟩

theorem appendReply_sameRole (n : RaftNode) (raises : Raises) (peer : String) (last : ℤ)
    (response : Message) :
    SameRole (n.recordMatch peer last) (n.appendReply raises peer last response).1 ∨
      SameRole (n.adoptTerm response.term) (n.appendReply raises peer last response).1 := by
  rcases n.appendReply_cases raises peer last response with ⟨_, h⟩ | ⟨_, h⟩ <;> rw [h]
  · exact Or.inl (updateCommitIndex_sameRole _ _)
  · exact Or.inr (backOff_sameRole _ _)

theorem appendEntry_sameRole (n : RaftNode) (raises : Raises) (command : String) (data : Dict) :
    SameRole n (n.appendEntry raises command data).1 := by
  unfold appendEntry
  dsimp only
  split
  · exact SameRole.apply raises ⟨rfl, rfl, rfl, rfl, rfl, rfl⟩
  · exact ⟨rfl, rfl, rfl, rfl, rfl, rfl⟩

theorem handleAppendEntries_sameRole (n : RaftNode) (raises : Raises) (msg : Message) :
    SameRole (n.acceptLeader msg.senderId) (n.handleAppendEntries raises msg).1 := by
  unfold handleAppendEntries
  dsimp only
  generalize n.acceptLeader msg.senderId = k
  split
  · exact .refl
  · exact .refl
  · generalize storeEntries (msg.data.prevLogIndex.getD 0 + 1) (msg.data.entries.getD []) k.log = st
    split
    · rcases followCommit_cases { k with log := st.1 } raises (msg.data.leaderCommit.getD 0) with
        ⟨_, h⟩ | ⟨_, h⟩ <;> rw [h]
      · exact ⟨rfl, rfl, rfl, rfl, rfl, rfl⟩
      · exact SameRole.apply raises ⟨rfl, rfl, rfl, rfl, rfl, rfl⟩
    · exact ⟨rfl, rfl, rfl, rfl, rfl, rfl⟩

theorem acceptLeader_state (n : RaftNode) (sender : String) :
    (n.acceptLeader sender).state = .follower := by
  unfold acceptLeader
  split
  · rfl
  · next h => exact not_not.mp h

/-- What a message does to term, vote and role: after `adoptTerm` it makes the node a follower,
gives its vote, or does nothing. -/
theorem handleMessage_role (n : RaftNode) (raises : Raises) (msg : Message) :
    SameRole ((n.adoptTerm msg.term).acceptLeader msg.senderId) (n.handleMessage raises msg).1 ∨
      (n.handleMessage raises msg).1 = n.adoptTerm msg.term ∨
      ((n.adoptTerm msg.term).votedFor = none ∨
          (n.adoptTerm msg.term).votedFor = some msg.senderId) ∧
        (n.handleMessage raises msg).1 =
          { n.adoptTerm msg.term with votedFor := some msg.senderId } := by
  by_cases h : msg.messageType = .requestVote
  · rw [handleMessage_requestVote h]
    rcases (n.adoptTerm msg.term).handleRequestVote_cases msg with ⟨hn, _⟩ |
      ⟨hle, hvote, _, hn, _⟩ <;> dsimp only <;> rw [hn]
    · exact Or.inr (Or.inl rfl)
    · exact Or.inr (Or.inr ⟨hvote (le_antisymm (n.le_adoptTerm msg.term) hle), rfl⟩)
  · by_cases h' : msg.messageType = .appendEntries
    · rw [handleMessage_appendEntries h']
      exact Or.inl (handleAppendEntries_sameRole _ raises msg)
    · exact Or.inr (Or.inl (handleMessage_other h h').1)

end RaftNode

end DistributedSync
