import DistributedSync.Raft.Wiring

/-!
# Stale leaders

`_handle_request_vote` refuses a request of an earlier term, `_handle_append_entries` does not look
at the term at all: whatever passes the check of the previous entry is stored, and any sender is
taken for the leader. `fenced_iff` says when the exchange with a stale leader is harmless all the
same.
-/

namespace DistributedSync

namespace RaftNode

/-- The receiver after the APPEND_ENTRIES that `l` builds for `peer`, and its response. -/
def receiveFrom (r l : RaftNode) (peer : String) (raises : Raises) : RaftNode × Option Message :=
  r.handleMessage raises (l.appendEntriesMessage peer)

/-- The sender after the response. -/
def learnFrom (l : RaftNode) (peer : String) (raises : Raises) (response : Message) : RaftNode :=
  (l.appendReply raises peer (l.appendEntriesMessage peer).lastCovered response).1

/-- One exchange leaves the receiver as it was, is refused, and turns the sender into a follower of
the receiver's term. -/
structure Fenced (l r : RaftNode) (peer : String) (raises raises' : Raises) : Prop where
  log : (r.receiveFrom l peer raises).1.log = r.log
  commitIndex : (r.receiveFrom l peer raises).1.commitIndex = r.commitIndex
  lastApplied : (r.receiveFrom l peer raises).1.lastApplied = r.lastApplied
  state : (r.receiveFrom l peer raises).1.state = r.state
  leaderId : (r.receiveFrom l peer raises).1.leaderId = r.leaderId
  currentTerm : (r.receiveFrom l peer raises).1.currentTerm = r.currentTerm
  votedFor : (r.receiveFrom l peer raises).1.votedFor = r.votedFor
  delivered : (r.receiveFrom l peer raises).1.delivered = r.delivered
  answer : ∃ response, (r.receiveFrom l peer raises).2 = some response ∧
    response.data.success = some false ∧
    (l.learnFrom peer raises' response).state = .follower ∧
    (l.learnFrom peer raises' response).currentTerm = r.currentTerm

/-- The log of `r` fits the previous entry of the APPEND_ENTRIES that `l` builds for `peer`. -/
def FitsPrevious (l r : RaftNode) (peer : String) : Prop :=
  l.nextIndex peer = 0 ∨
    ∃ e, r.log[l.nextIndex peer - 1]? = some e ∧ e.term = l.prevLogTerm peer

variable {l r : RaftNode} {peer : String} {raises raises' : Raises}

/-- A stored APPEND_ENTRIES is answered with success, if at all. -/
theorem handleAppendEntries_succeeds {n : RaftNode} {msg : Message}
    (h : n.prevLogCheck (msg.data.prevLogIndex.getD 0) (msg.data.prevLogTerm.getD 0) = some true)
    {response : Message} (hr : (n.handleAppendEntries raises msg).2 = some response) :
    response.data.success = some true := by
  unfold handleAppendEntries at hr
  dsimp only at hr
  rw [prevLogCheck_congr (acceptLeader_log n msg.senderId), h] at hr
  dsimp only at hr
  split at hr
  · dsimp only at hr
    split at hr <;> cases hr
    rfl
  · cases hr

theorem receiveFrom_stale (h : l.currentTerm < r.currentTerm) :
    r.receiveFrom l peer raises = r.handleAppendEntries raises (l.appendEntriesMessage peer) := by
  unfold receiveFrom
  rw [handleMessage_appendEntries rfl,
    adoptTerm_of_le (show (l.appendEntriesMessage peer).term ≤ _ from h.le)]

theorem fitsPrevious_iff :
    FitsPrevious l r peer ↔ r.prevLogCheck ((l.appendEntriesMessage peer).data.prevLogIndex.getD 0)
      ((l.appendEntriesMessage peer).data.prevLogTerm.getD 0) = some true :=
  prevLogCheck_pred.symm

theorem receiveFrom_refused (raises : Raises)
    (h : l.currentTerm < r.currentTerm) (hf : ¬ FitsPrevious l r peer) :
    r.receiveFrom l peer raises = (r.acceptLeader l.nodeId,
      some ((r.acceptLeader l.nodeId).appendResponse false)) := by
  rw [fitsPrevious_iff] at hf
  rw [receiveFrom_stale h]
  unfold handleAppendEntries
  dsimp only
  rw [prevLogCheck_congr (acceptLeader_log r _)]
  have hsome : r.prevLogCheck ((l.appendEntriesMessage peer).data.prevLogIndex.getD 0)
      ((l.appendEntriesMessage peer).data.prevLogTerm.getD 0) = some false := by
    obtain ⟨b, hb⟩ := r.prevLogCheck_isSome (l.nextIndex peer) (l.prevLogTerm peer)
    change r.prevLogCheck _ _ ≠ some true at hf
    cases b with
    | false => exact hb
    | true => exact absurd hb hf
  rw [hsome]
  rfl

end RaftNode

open RaftNode

/-- The exchange with a stale leader is fenced exactly when the receiver already follows it and its
log does not fit the previous entry. -/
theorem fenced_iff {l r : RaftNode} (h : l.currentTerm < r.currentTerm) (peer : String)
    (raises raises' : Raises) :
    Fenced l r peer raises raises' ↔
      r.state = .follower ∧ r.leaderId = some l.nodeId ∧ ¬ FitsPrevious l r peer := by
  constructor
  · intro hf
    have hfits : ¬ FitsPrevious l r peer := by
      intro hfits
      obtain ⟨response, hr, hs, -⟩ := hf.answer
      rw [receiveFrom_stale h] at hr
      rw [handleAppendEntries_succeeds (fitsPrevious_iff.mp hfits) hr] at hs
      cases hs
    have hstate := hf.state
    have hleader := hf.leaderId
    rw [receiveFrom_refused _ h hfits] at hstate hleader
    change (r.acceptLeader l.nodeId).state = r.state at hstate
    have hfol : (r.acceptLeader l.nodeId).state = .follower := by
      unfold acceptLeader
      split
      · rfl
      · next hs => exact not_not.mp hs
    exact ⟨hstate ▸ hfol, hleader.symm, hfits⟩
  · rintro ⟨hstate, hleader, hfits⟩
    have hself : r.acceptLeader l.nodeId = r := by
      unfold acceptLeader
      rw [if_neg (not_not.mpr hstate), ← hleader]
    have hreceive := receiveFrom_refused raises h hfits
    rw [hself] at hreceive
    have hlearn : l.learnFrom peer raises' (r.appendResponse false) =
        ({ l with currentTerm := r.currentTerm, votedFor := none }.becomeFollower
          none).backOff peer := by
      unfold learnFrom appendReply
      rw [if_neg (by simp [appendResponse])]
      unfold adoptTerm
      rw [if_pos (show l.currentTerm < (r.appendResponse false).term from h)]
      rfl
    refine ⟨?_, ?_, ?_, ?_, ?_, ?_, ?_, ?_, r.appendResponse false, by rw [hreceive], rfl, ?_⟩
    all_goals first
      | rw [hreceive]
      | skip
    rw [hlearn]
    unfold backOff
    split <;> exact ⟨rfl, rfl⟩

/-- A leader of term 1 with one entry, and the `next_index` it keeps for `b`. -/
def staleLeader (next : ℕ) : RaftNode :=
  { RaftNode.init "a" ["b"] with
    currentTerm := 1, state := .leader, nextIndex := fun _ => next,
    log := [{ term := 1, index := 0, command := "x", data := [] }] }

def laterFollower : RaftNode :=
  { RaftNode.init "b" ["a"] with currentTerm := 2, leaderId := some "a" }

theorem fenced_iff_refused :
    Fenced (staleLeader 1) laterFollower "b" (fun _ => false) (fun _ => false) := by
  refine (fenced_iff (by decide) "b" _ _).mpr ⟨rfl, rfl, ?_⟩
  rintro (h | ⟨e, he, -⟩)
  · cases h
  · cases he

theorem fenced_fails : ¬ ∀ (l r : RaftNode) (peer : String) (raises raises' : Raises),
    l.state = .leader → l.currentTerm < r.currentTerm → Fenced l r peer raises raises' := by
  intro h
  -- with `next_index = 0` the entry of term 1 is stored
  have hlog := (h (staleLeader 0) laterFollower "b" (fun _ => false) (fun _ => false) rfl
    (by decide)).log
  exact absurd (congrArg List.length hlog) (by decide)

end DistributedSync
