import DistributedSync.Raft.Voting

/-!
# Retransmission of APPEND_ENTRIES

A second delivery of the same APPEND_ENTRIES changes nothing and gets the same reply
(`handleMessage_twice`), and a request whose entries the log already has leaves the log alone
(`handleMessage_covered`). Each of the stages the message goes through leaves a state that the same
stage maps to itself: the term is adopted, the sender is followed, the entries are in the log, the
commit index is as far as it gets.
-/

namespace DistributedSync

namespace RaftNode

variable {n : RaftNode} {raises : Raises} {m : Message} {p : ℕ}

/-! ## The stages -/

theorem acceptLeader_of_follower {s : String} (hs : n.state = .follower)
    (hl : n.leaderId = some s) : n.acceptLeader s = n := by
  unfold acceptLeader
  rw [if_neg (not_not.mpr hs), ← hl]

theorem applyCommittedEntries_eq (hr : ∀ i, raises i = false) (hla : -1 ≤ n.lastApplied)
    (hc : n.commitIndex < n.log.length) :
    ∃ d, n.applyCommittedEntries raises =
      ({ n with lastApplied := max n.lastApplied n.commitIndex, delivered := d }, true) := by
  obtain ⟨p, hp⟩ := Int.eq_ofNat_of_zero_le (show 0 ≤ n.lastApplied + 1 by omega)
  unfold applyCommittedEntries
  rcases le_total n.commitIndex n.lastApplied with hle | hle
  · refine ⟨n.delivered, ?_⟩
    rw [show (n.commitIndex - n.lastApplied).toNat = 0 by omega, max_eq_left hle]
    rfl
  · rw [applyLoop_eq hr hp.symm (by omega), max_eq_right hle,
      show n.lastApplied + ((n.commitIndex - n.lastApplied).toNat : ℤ) = n.commitIndex by omega]
    exact ⟨_, rfl⟩

theorem followCommit_eq (hr : ∀ i, raises i = false) (hla : -1 ≤ n.lastApplied) (k : ℤ) :
    ∃ c a d, n.followCommit raises k =
      ({ n with commitIndex := c, lastApplied := a, delivered := d }, true) ∧
      (k ≤ c ∨ c = min k n.lastLogIndex ∧ c ≤ a) := by
  rcases n.followCommit_cases raises k with ⟨hle, h⟩ | ⟨hlt, h⟩
  · exact ⟨n.commitIndex, n.lastApplied, n.delivered, h, Or.inl hle⟩
  · obtain ⟨d, hd⟩ := applyCommittedEntries_eq (n := { n with
        commitIndex := min k n.lastLogIndex }) hr hla (by
      show min k n.lastLogIndex < n.log.length
      unfold lastLogIndex
      omega)
    rw [h, hd]
    exact ⟨_, _, _, rfl, Or.inr ⟨rfl, le_max_right _ _⟩⟩

theorem followCommit_of_followed {k : ℤ}
    (h : k ≤ n.commitIndex ∨ n.commitIndex = min k n.lastLogIndex ∧
      n.commitIndex ≤ n.lastApplied) : n.followCommit raises k = (n, true) := by
  unfold followCommit
  split
  · next hlt =>
    obtain ⟨hc, hle⟩ := h.resolve_left (by omega)
    rw [← hc]
    unfold applyCommittedEntries
    rw [show (n.commitIndex - n.lastApplied).toNat = 0 by omega]
    rfl
  · rfl

/-! ## The handler -/

/-- It is enough to look at followers of the sender. -/
theorem handleAppendEntries_acceptLeader (n : RaftNode) (raises : Raises) (m : Message) :
    (n.acceptLeader m.senderId).handleAppendEntries raises m = n.handleAppendEntries raises m := by
  have hidem : (n.acceptLeader m.senderId).acceptLeader m.senderId = n.acceptLeader m.senderId :=
    acceptLeader_of_follower (n.acceptLeader_state _) rfl
  unfold handleAppendEntries
  dsimp only
  rw [hidem]

theorem handleAppendEntries_of_refused (raises : Raises) (hl : n.acceptLeader m.senderId = n)
    (h : n.prevLogCheck (m.data.prevLogIndex.getD 0) (m.data.prevLogTerm.getD 0) = some false) :
    n.handleAppendEntries raises m = (n, some (n.appendResponse false)) := by
  unfold handleAppendEntries
  dsimp only
  rw [hl, h]

theorem handleAppendEntries_of_passed {c : RaftNode × Bool} (hl : n.acceptLeader m.senderId = n)
    (hp : m.data.prevLogIndex.getD 0 = (p : ℤ) - 1)
    (h : n.prevLogCheck ((p : ℤ) - 1) (m.data.prevLogTerm.getD 0) = some true)
    (hc : { n with
        log := TermLog.overlay LogEntry.term n.log p (m.data.entries.getD []) }.followCommit raises
      (m.data.leaderCommit.getD 0) = c) :
    n.handleAppendEntries raises m =
      (c.1, if c.2 then some (c.1.appendResponse true) else none) := by
  unfold handleAppendEntries
  dsimp only
  rw [hl, hp, h]
  have hidx : (p : ℤ) - 1 + 1 = (p : ℤ) := by omega
  dsimp only
  rw [hidx, storeEntries_eq, ← hc]
  rfl

theorem le_length_of_prevLogCheck {t : ℤ} (h : n.prevLogCheck ((p : ℤ) - 1) t = some true) :
    p ≤ n.log.length := by
  rcases prevLogCheck_pred.mp h with rfl | ⟨e, he, -⟩
  · exact Nat.zero_le _
  · have := (List.getElem?_eq_some_iff.mp he).1
    omega

theorem prevLogCheck_overlay {t : ℤ} {es : List LogEntry} {n' : RaftNode}
    (h : n.prevLogCheck ((p : ℤ) - 1) t = some true)
    (hlog : n'.log = TermLog.overlay LogEntry.term n.log p es) :
    n'.prevLogCheck ((p : ℤ) - 1) t = some true := by
  have htake := TermLog.take_overlay LogEntry.term es
    (le_length_of_prevLogCheck h)
  rcases prevLogCheck_pred.mp h with rfl | ⟨e, he, ht⟩
  · exact prevLogCheck_pred.mpr (Or.inl rfl)
  · rcases Nat.eq_zero_or_pos p with rfl | hp
    · exact prevLogCheck_pred.mpr (Or.inl rfl)
    · refine prevLogCheck_pred.mpr (Or.inr ⟨e, ?_, ht⟩)
      rw [hlog, ← List.getElem?_take_of_lt (Nat.sub_lt hp one_pos), htake,
        List.getElem?_take_of_lt (Nat.sub_lt hp one_pos), he]

/-! ## Twice and covered -/

theorem handleAppendEntries_twice (hr : ∀ i, raises i = false) (hla : -1 ≤ n.lastApplied)
    (hl : n.acceptLeader m.senderId = n) (hp : m.data.prevLogIndex.getD 0 = (p : ℤ) - 1) :
    ∃ n' r, n.handleAppendEntries raises m = (n', some r) ∧
      n'.handleAppendEntries raises m = (n', some r) ∧ n'.currentTerm = n.currentTerm := by
  obtain ⟨b, hb⟩ := n.prevLogCheck_isSome p (m.data.prevLogTerm.getD 0)
  cases b with
  | false =>
    rw [← hp] at hb
    have h := handleAppendEntries_of_refused raises hl hb
    exact ⟨_, _, h, h, rfl⟩
  | true =>
    have hlen := le_length_of_prevLogCheck hb
    obtain ⟨c, a, d, hf, hdone⟩ := followCommit_eq (n := { n with
      log := TermLog.overlay LogEntry.term n.log p (m.data.entries.getD []) }) hr hla
      (m.data.leaderCommit.getD 0)
    refine ⟨_, _, handleAppendEntries_of_passed hl hp hb hf, ?_, rfl⟩
    refine handleAppendEntries_of_passed (c := (_, true)) ?_ hp (prevLogCheck_overlay hb rfl) ?_
    · exact acceptLeader_of_follower (hl ▸ n.acceptLeader_state _) (hl ▸ rfl)
    · dsimp only
      rw [TermLog.overlay_overlay hlen]
      exact followCommit_of_followed hdone

/-- Handling a message twice is handling it once: the same node, with the same log, terms, role,
commit index and deliveries, and the same reply. -/
theorem handleMessage_twice (hr : ∀ i, raises i = false) (hm : m.messageType = .appendEntries)
    (hprev : -1 ≤ m.data.prevLogIndex.getD 0) (hla : -1 ≤ n.lastApplied) :
    (n.handleMessage raises m).2.isSome ∧
      (n.handleMessage raises m).1.handleMessage raises m = n.handleMessage raises m := by
  obtain ⟨p, hp⟩ := Int.eq_ofNat_of_zero_le (show 0 ≤ m.data.prevLogIndex.getD 0 + 1 by omega)
  have hquiet := (n.adoptTerm_quiet m.term).trans (acceptLeader_quiet _ m.senderId)
  obtain ⟨n', r, h, h', hterm⟩ := handleAppendEntries_twice (m := m) (p := p)
    (n := (n.adoptTerm m.term).acceptLeader m.senderId) hr (by rw [hquiet.lastApplied]; exact hla)
    (acceptLeader_of_follower (acceptLeader_state _ _) rfl) (by omega)
  rw [handleAppendEntries_acceptLeader] at h
  rw [acceptLeader_currentTerm] at hterm
  have hle : m.term ≤ n'.currentTerm := by
    rw [hterm]
    exact n.le_adoptTerm m.term
  rw [handleMessage_appendEntries hm, h]
  dsimp only
  rw [handleMessage_appendEntries hm, adoptTerm_of_le hle, h']
  exact ⟨rfl, rfl⟩

/-- Where the log holds entries of the terms the message lists, it stays. -/
theorem handleMessage_covered (hm : m.messageType = .appendEntries)
    (hprev : -1 ≤ m.data.prevLogIndex.getD 0)
    (hcover : TermLog.HoldsTerms LogEntry.term n.log (m.data.prevLogIndex.getD 0 + 1).toNat
      (m.data.entries.getD [])) :
    (n.handleMessage raises m).1.log = n.log := by
  obtain ⟨p, hp⟩ := Int.eq_ofNat_of_zero_le (show 0 ≤ m.data.prevLogIndex.getD 0 + 1 by omega)
  rw [handleMessage_appendEntries hm]
  by_cases hcheck : (n.adoptTerm m.term).prevLogCheck (m.data.prevLogIndex.getD 0)
      (m.data.prevLogTerm.getD 0) = some true
  · rw [handleAppendEntries_stored (p := p) (by omega) hcheck]
    rw [hp, Int.toNat_natCast] at hcover
    rw [followCommit_log, adoptTerm_log]
    exact hcover.overlay_eq
  · rw [(handleAppendEntries_refused raises hcheck).1, acceptLeader_log, adoptTerm_log]

theorem after_evolves (n : RaftNode) (ev : NodeEvent) : Evolves n (n.after ev) := by
  cases ev with
  | startElection => exact n.startElection_quiet.evolves
  | voteReply response => exact (n.adoptTerm_quiet response.term).evolves
  | finishElection v => exact (n.finishElection_quiet v).evolves
  | endElection => exact (show Quiet n n.endElection from ⟨rfl, rfl, rfl, rfl, id⟩).evolves
  | appendReply raises peer last response => exact n.appendReply_evolves raises peer last response
  | appendEntry raises command data => exact n.appendEntry_evolves raises command data
  | handleMessage raises m => exact n.handleMessage_evolves raises m

/-- No event takes `last_applied` back, so it is never below the -1 a node starts with. -/
theorem neg_one_le_lastApplied {nodeId : String} {peers : List String}
    {votes : List (ℤ × String)}
    (h : Runs.Reach voteStep Runs.Any (init nodeId peers, []) (n, votes)) : -1 ≤ n.lastApplied := by
  refine h.invariant (P := fun s => -1 ≤ s.1.lastApplied) le_rfl ?_
  rintro ⟨n, votes⟩ ev u hle - hs
  cases hs
  exact hle.trans (n.after_evolves ev).lastApplied_le

end RaftNode

open RaftNode

/-- Retransmission is harmless: in every state a node gets into, a second delivery of the message
leaves the node as the first one left it and gets the same reply, and a message that covers only
entries the log has leaves the log alone. -/
theorem retransmission_harmless {n : RaftNode} {raises : Raises} {m : Message}
    (hr : ∀ i, raises i = false) (hm : m.messageType = .appendEntries)
    (hprev : -1 ≤ m.data.prevLogIndex.getD 0) (hla : -1 ≤ n.lastApplied) :
    (n.handleMessage raises m).2.isSome ∧
      (n.handleMessage raises m).1.handleMessage raises m = n.handleMessage raises m ∧
      (TermLog.HoldsTerms LogEntry.term n.log (m.data.prevLogIndex.getD 0 + 1).toNat
        (m.data.entries.getD []) → (n.handleMessage raises m).1.log = n.log) :=
  ⟨(handleMessage_twice hr hm hprev hla).1, (handleMessage_twice hr hm hprev hla).2,
    handleMessage_covered hm hprev⟩

/-- Entries of term 2 after a first one of term 1, all but one committed. -/
def conflictingAppend : Message where
  messageType := .appendEntries
  senderId := "b"
  term := 2
  data := { prevLogIndex := some 0, prevLogTerm := some 1, leaderCommit := some 1,
            entries := some [{ term := 2, index := 1, command := "second", data := [] },
              { term := 2, index := 2, command := "third", data := [] }] }

def deposedLeader : RaftNode :=
  { RaftNode.init "a" ["b", "c"] with
      currentTerm := 1, votedFor := some "a", state := .leader, leaderId := some "a",
      log := [{ term := 1, index := 0, command := "first", data := [] },
        { term := 1, index := 1, command := "lost", data := [] }] }

/-- The first delivery replaces the second entry and delivers two; the second one does nothing. -/
theorem retransmission_harmless_conflict :
    ((deposedLeader.handleMessage (fun _ => false) conflictingAppend).1.log.map LogEntry.command =
        ["first", "second", "third"]) ∧
      (deposedLeader.handleMessage (fun _ => false) conflictingAppend).1.delivered.length = 2 ∧
      (deposedLeader.handleMessage (fun _ => false) conflictingAppend).1.handleMessage
          (fun _ => false) conflictingAppend =
        deposedLeader.handleMessage (fun _ => false) conflictingAppend :=
  ⟨by decide, by decide, (retransmission_harmless (fun _ => rfl) rfl (by decide) (by decide)).2.1⟩

end DistributedSync
