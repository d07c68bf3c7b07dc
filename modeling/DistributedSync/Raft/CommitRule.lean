import DistributedSync.Library.Quorum
import DistributedSync.Raft.NodeSpec

/-!
# The commit rule and the majority

What a majority of the members has stored is the greatest index that `_quorum_size` of them reach.
`_update_commit_index` tries the element in the middle of the sorted indices instead, and that is
the greatest index half of the members reach. For an odd number of members the two are the same;
for an even number, half of the members is one short of a quorum.
-/

namespace DistributedSync

namespace RaftNode

variable {n : RaftNode} {raises : Raises} {M N : ℤ}

/-! ## What the members have stored -/

/-- The indices `_update_commit_index` collects: one for each peer and the leader's own. -/
def memberIndices (n : RaftNode) : List ℤ := n.peers.map n.matchIndex ++ [n.lastLogIndex]

@[simp] theorem length_memberIndices (n : RaftNode) :
    n.memberIndices.length = n.peers.length + 1 := by
  simp [memberIndices]

/-- The number of members that have reached index `k`. -/
def reachedBy (n : RaftNode) (k : ℤ) : ℕ := n.memberIndices.countP (k ≤ ·)

/-- `N` is the greatest index a quorum has reached. -/
def QuorumIndex (n : RaftNode) (N : ℤ) : Prop := IsGreatest {k | n.quorumSize ≤ n.reachedBy k} N

/-- `M` is the greatest index at least half of the members have reached. -/
def HalfIndex (n : RaftNode) (M : ℤ) : Prop :=
  IsGreatest {k | n.peers.length + 1 ≤ 2 * n.reachedBy k} M

/-- Position `k` of the sorted indices, counted from the low end. -/
def sortedIndex (n : RaftNode) (k : ℕ) : ℤ := (n.memberIndices.insertionSort (· ≤ ·)).getD k 0

theorem isGreatest_sortedIndex {k : ℕ} (hk : k ≤ n.peers.length) :
    IsGreatest {x | n.peers.length + 1 - k ≤ n.reachedBy x} (n.sortedIndex k) := by
  have h := Quorum.isGreatest_getD_insertionSort (l := n.memberIndices) (k := k)
    (by rw [length_memberIndices]; omega) 0
  rw [length_memberIndices] at h
  exact h

/-- Every cluster has an index that a quorum has reached. -/
theorem quorumIndex_sortedIndex (n : RaftNode) :
    n.QuorumIndex (n.sortedIndex (n.peers.length + 1 - n.quorumSize)) := by
  have h := isGreatest_sortedIndex (n := n) (k := n.peers.length + 1 - n.quorumSize)
    (by unfold quorumSize; omega)
  have hq : n.peers.length + 1 - (n.peers.length + 1 - n.quorumSize) = n.quorumSize := by
    unfold quorumSize
    omega
  rw [hq] at h
  exact h

theorem halfIndex_commitCandidate (n : RaftNode) : n.HalfIndex n.commitCandidate := by
  have h := isGreatest_sortedIndex (n := n) (k := (n.peers.length + 1) / 2) (by omega)
  have heq : n.commitCandidate = n.sortedIndex ((n.peers.length + 1) / 2) := by
    unfold commitCandidate sortedIndex memberIndices
    simp only [List.length_insertionSort, List.length_append, List.length_map,
      List.length_singleton]
  have hset : ∀ x, n.peers.length + 1 - (n.peers.length + 1) / 2 ≤ n.reachedBy x ↔
      n.peers.length + 1 ≤ 2 * n.reachedBy x := by
    intro x
    omega
  simp only [hset] at h
  rw [heq]
  exact h

/-! ## The rule -/

/-- From `n` to `n'`, the commit index follows the majority: it becomes the greatest index a quorum
has reached when that is new, in the log and of the current term, and else stays; in particular, it
never moves to an index fewer members have reached. -/
structure FollowsMajority (n n' : RaftNode) : Prop where
  commits : ∀ N, n.QuorumIndex N →
    n'.commitIndex = if n.commitIndex < N ∧ N < n.log.length ∧
      (getItem n.log N).map LogEntry.term = some n.currentTerm then N else n.commitIndex
  reached : n'.commitIndex ≠ n.commitIndex → n.quorumSize ≤ n.reachedBy n'.commitIndex

theorem mayCommit_eq_true {k : ℤ} :
    n.mayCommit k = true ↔ n.commitIndex < k ∧ k < n.log.length ∧
      (getItem n.log k).map LogEntry.term = some n.currentTerm := by
  rw [mayCommit_iff]
  simp only [Option.map_eq_some_iff]

/-- Whether or not the callbacks raise, the commit index is the candidate if that passes the
test. -/
theorem updateCommitIndex_commitIndex (hl : n.state = .leader) (raises : Raises) :
    (n.updateCommitIndex raises).1.commitIndex =
      if n.mayCommit n.commitCandidate then n.commitCandidate else n.commitIndex := by
  unfold updateCommitIndex
  rw [if_neg (not_not.mpr hl)]
  by_cases h : n.mayCommit n.commitCandidate
  · obtain ⟨a, d, hf⟩ :=
      applyCommittedEntries_frame raises { n with commitIndex := n.commitCandidate }
    rw [if_pos h, if_pos h, hf]
  · rw [if_neg h, if_neg h]

/-- The commit index follows the majority if and only if half of the members have reached no more
than a quorum, or neither index passes the test. -/
theorem followsMajority_updateCommitIndex (raises : Raises) (hl : n.state = .leader)
    (hN : n.QuorumIndex N) (hM : n.HalfIndex M) :
    FollowsMajority n (n.updateCommitIndex raises).1 ↔
      M = N ∨ n.mayCommit M = false ∧ n.mayCommit N = false := by
  obtain rfl := hM.unique (halfIndex_commitCandidate n)
  have hnew : ∀ {k}, n.mayCommit k = true → k ≠ n.commitIndex := by
    intro k hk
    have := (mayCommit_iff.mp hk).1
    omega
  constructor
  · intro h
    have hc := h.commits N hN
    simp only [← mayCommit_eq_true] at hc
    rw [updateCommitIndex_commitIndex hl] at hc
    split at hc <;> split at hc
    · exact Or.inl hc
    · next hM' _ => exact absurd hc (hnew hM')
    · next _ hN' => exact absurd hc.symm (hnew hN')
    · next hM' hN' => exact Or.inr ⟨Bool.eq_false_iff.mpr hM', Bool.eq_false_iff.mpr hN'⟩
  · intro h
    constructor
    · intro N' hN'
      obtain rfl := hN.unique hN'
      simp only [← mayCommit_eq_true]
      rw [updateCommitIndex_commitIndex hl]
      rcases h with rfl | ⟨hM', hN'⟩
      · rfl
      · simp only [hM', hN', Bool.false_eq_true, if_false]
    · rw [updateCommitIndex_commitIndex hl]
      intro hne
      rcases h with rfl | ⟨hM', -⟩
      · split at hne
        · next hmay =>
          rw [if_pos hmay]
          exact hN.1
        · exact absurd rfl hne
      · rw [hM'] at hne
        exact absurd rfl hne

/-- A leader of four, whose second entry one peer has. -/
def leaderOfFour : RaftNode where
  nodeId := "node_1"
  peers := ["node_2", "node_3", "node_4"]
  currentTerm := 1
  log := [{ term := 1, index := 0, command := "publish", data := [] },
    { term := 1, index := 1, command := "publish", data := [] }]
  commitIndex := 0
  lastApplied := 0
  state := .leader
  matchIndex := fun p => if p = "node_2" then 1 else 0

/-- Two of four members make the commit index move. -/
theorem leaderOfFour_commits_early :
    leaderOfFour.state = .leader ∧
      (leaderOfFour.updateCommitIndex fun _ => false).1.commitIndex = 1 ∧
      leaderOfFour.reachedBy 1 = 2 ∧ leaderOfFour.quorumSize = 3 ∧
      ¬ FollowsMajority leaderOfFour (leaderOfFour.updateCommitIndex fun _ => false).1 := by
  refine ⟨rfl, by decide, by decide, by decide, fun h => ?_⟩
  exact absurd (h.reached (by decide)) (by decide)

/-- The same leader once two peers have the entry. -/
def leaderOfFourReady : RaftNode :=
  { leaderOfFour with matchIndex := fun p => if p = "node_2" ∨ p = "node_3" then 1 else 0 }

theorem followsMajority_leaderOfFourReady :
    FollowsMajority leaderOfFourReady (leaderOfFourReady.updateCommitIndex fun _ => false).1 :=
  (followsMajority_updateCommitIndex (fun _ => false) rfl
    (quorumIndex_sortedIndex leaderOfFourReady) (halfIndex_commitCandidate leaderOfFourReady)).mpr
    (Or.inl (by decide))

end RaftNode

end DistributedSync
