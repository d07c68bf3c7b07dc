import DistributedSync.Raft.Delivery

/-!
# Callbacks that turn out not to raise

`_apply_committed_entries` asks a callback about the positions that it delivers and about no other.
A step whose callbacks raise at none of these is a step of a run in which they never raise
(`step_silenced`).
-/

namespace DistributedSync

namespace RaftNode

variable {n m n' : RaftNode} {raises : Raises}

/-! ## One node -/

/-- The callbacks do not raise at the positions that are delivered from `n` to `n'`. -/
def Unraised (raises : Raises) (n n' : RaftNode) : Prop :=
  ∀ j : ℕ, n.delivered.length + j < n'.delivered.length → raises (n.lastApplied + 1 + j) = false

theorem SameLog.unraised (hs : SameLog n m) (h : Unraised raises n n') : Unraised raises m n' := by
  unfold Unraised
  rwa [hs.delivered, hs.lastApplied]

theorem applyLoop_silenced {k : ℕ} (h : Unraised raises n (applyLoop raises k n).1) :
    applyLoop raises k n = applyLoop never k n := by
  induction k generalizing n with
  | zero => rfl
  | succ k ih =>
    unfold applyLoop at h ⊢
    dsimp only at h ⊢
    rcases he : getItem n.log (n.lastApplied + 1) with _ | entry
    · rfl
    · rw [he] at h
      dsimp only at h ⊢
      cases hraise : raises (n.lastApplied + 1)
      · rw [hraise, if_neg Bool.false_ne_true] at h
        refine ih fun j hj => ?_
        have hidx : n.lastApplied + 1 + ((j + 1 : ℕ) : ℤ) = n.lastApplied + 1 + 1 + j := by omega
        rw [← hidx]
        exact h (j + 1) (by simpa [Nat.add_assoc, Nat.add_comm 1] using hj)
      · -- the entry is delivered before its callbacks raise
        rw [hraise, if_pos rfl] at h
        have hidx : n.lastApplied + 1 + ((0 : ℕ) : ℤ) = n.lastApplied + 1 := by omega
        have hsilent := h 0 (by simp)
        rw [hidx, hraise] at hsilent
        cases hsilent

theorem applyCommittedEntries_silenced (h : Unraised raises n (n.applyCommittedEntries raises).1) :
    n.applyCommittedEntries raises = n.applyCommittedEntries never := applyLoop_silenced h

theorem updateCommitIndex_silenced (h : Unraised raises n (n.updateCommitIndex raises).1) :
    n.updateCommitIndex raises = n.updateCommitIndex never := by
  unfold updateCommitIndex at h ⊢
  split
  · rfl
  · next hl =>
    rw [if_neg hl] at h
    split
    · next hmay =>
      rw [if_pos hmay] at h
      exact applyCommittedEntries_silenced h
    · rfl

theorem appendReply_silenced {peer : String} {last : ℤ} {response : Message}
    (h : Unraised raises n (n.appendReply raises peer last response).1) :
    n.appendReply raises peer last response = n.appendReply never peer last response := by
  unfold appendReply at h ⊢
  split
  · next hs =>
    rw [if_pos hs] at h
    exact updateCommitIndex_silenced h
  · rfl

theorem followCommit_silenced {k : ℤ} (h : Unraised raises n (n.followCommit raises k).1) :
    n.followCommit raises k = n.followCommit never k := by
  unfold followCommit at h ⊢
  split
  · next hk =>
    rw [if_pos hk] at h
    exact applyCommittedEntries_silenced h
  · rfl

theorem handleAppendEntries_silenced {msg : Message}
    (h : Unraised raises n (n.handleAppendEntries raises msg).1) :
    n.handleAppendEntries raises msg = n.handleAppendEntries never msg := by
  unfold handleAppendEntries at h ⊢
  have hs := n.acceptLeader_sameLog msg.senderId
  generalize n.acceptLeader msg.senderId = m at h hs ⊢
  dsimp only at h ⊢
  split
  · rfl
  · rfl
  · next hprev =>
    rw [hprev] at h
    dsimp only at h
    split
    · next hstored =>
      rw [if_pos hstored] at h
      have hq := hs.unraised h
      rw [followCommit_silenced (n := { m with log := _ }) hq]
    · rfl

theorem handleMessage_silenced {msg : Message}
    (h : Unraised raises n (n.handleMessage raises msg).1) :
    n.handleMessage raises msg = n.handleMessage never msg := by
  by_cases ha : msg.messageType = .appendEntries
  · rw [handleMessage_appendEntries ha] at h ⊢
    rw [handleMessage_appendEntries ha]
    exact handleAppendEntries_silenced ((n.adoptTerm_sameLog msg.term).unraised h)
  · unfold handleMessage
    dsimp only
    split
    · rfl
    · next h' => exact absurd h' ha
    · rfl

theorem appendEntry_silenced {command : String} {data : Dict}
    (h : Unraised raises n (n.appendEntry raises command data).1) :
    n.appendEntry raises command data = n.appendEntry never command data := by
  unfold appendEntry at h ⊢
  dsimp only at h ⊢
  split
  · next hp =>
    rw [if_pos hp] at h
    rw [applyCommittedEntries_silenced h]
  · rfl

end RaftNode

open Cluster RaftNode

/-! ## The cluster -/

variable {κ : Type} {cfg : ClusterConfig} {c c' : Cluster κ} {ev : Event κ}

def Event.silenced : Event κ → Event κ
  | .appendEntry i command data caller _ => .appendEntry i command data caller never
  | .appendResponse i owner k _ => .appendResponse i owner k never
  | .handleMessage r _ => .handleMessage r never
  | ev => ev

theorem silent_silenced (c : Cluster κ) (ev : Event κ) : Silent c ev.silenced := by
  intro p
  cases ev <;> rfl

theorem step_silenced (hs : cfg.step c ev = some c')
    (h : ∀ i, c.runner ev = some i → Unraised ev.raises (c.proc i).raft (c'.proc i).raft) :
    cfg.step c ev.silenced = some c' := by
  obtain ⟨hnodes, hstep⟩ := ClusterConfig.step_some hs
  have ht := cfg.transition hs
  cases ev with
  | appendEntry i command data caller raises =>
    have hq := h i rfl
    have heq : (c.proc i).raft.appendEntry raises command data =
        (c.proc i).raft.appendEntry never command data := by
      refine appendEntry_silenced ?_
      cases ht <;> simp only [put, Function.update_self, Event.raises] at hq <;> exact hq
    rw [← hstep]
    refine (if_pos hnodes).trans ?_
    simp only [Cluster.step, Event.silenced]
    rw [heq]
  | appendResponse i owner k raises =>
    have hq := h i rfl
    cases ht with
    | appendResponse _ _ _ _ t rpc response ht ha =>
      simp only [put, Function.update_self, Event.raises] at hq
      refine (if_pos hnodes).trans ?_
      simp only [Cluster.step, Event.silenced, ht, ha, Option.bind_some, Option.map_some]
      rw [appendReply_silenced hq]
  | handleMessage r raises =>
    cases ht with
    | handleMessage _ _ rpc hr hp reply hreply =>
      have hq := h rpc.receiver (by rw [Cluster.runner, hr]; rfl)
      simp only [put, Function.update_self, Event.raises] at hq
      rw [← hstep]
      refine (if_pos hnodes).trans ?_
      simp only [Cluster.step, Event.silenced, hr, hp, Option.bind_some]
      rw [handleMessage_silenced hq]
  | _ => exact hs

end DistributedSync
