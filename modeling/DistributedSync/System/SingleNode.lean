import DistributedSync.System.LruCache
import DistributedSync.System.MutualExclusion

/-!
# A node alone

On a cluster of one node `append_entry` applies its entry before it returns, with no step of another
coroutine in between (`commits_alone`). So nothing comes between the test of a lock and its entry in
the table, and locks exclude each other in every reachable state, with no condition on the steps
(`locksExclusive_alone`).
-/

namespace DistributedSync

open DistributedNode DistributedSystem

variable {md5 : String → ℕ} {config : SystemConfig} {cfg : ClusterConfig} {i : String}
  {s s' : DistributedSystem (services md5 config cfg.peers)}

theorem lone_of_reach (hnodes : cfg.nodes = [i]) (hr : Reach cfg Runs.Any s) :
    Lone s.cluster i := by
  have hcluster : cfg.Reach Runs.Any s.cluster :=
    Reach.cluster (hr.mono fun _ _ _ _ _ => trivial)
  exact Lone.reach hnodes hcluster

section Alone

variable {S : Services} {t t₁ : DistributedSystem S} {now : ℚ} {e : Event S.Frame} {j : String}
  (hnodes : cfg.nodes = [i]) (h : Lone t.cluster i)

include hnodes h

theorem node_alone (hj : t.cluster.runner e = some j) (hs : t.raftStep cfg j now e = some t₁) :
    j = i := by
  obtain ⟨c, state, hc, -, -⟩ := raftStep_some hs
  cases h.step_cases hnodes hc <;> exact (Option.some.inj hj).symm

theorem state_append {command : String} {data : Dict} {caller : S.Frame} {raises : Raises}
    (hs : t.raftStep cfg i now (.appendEntry i command data caller raises) = some t₁) :
    t₁.state = Function.update t.state i
      (S.handleCommit now ((t.cluster.proc i).raft.newEntry command data) (t.state i)).1 := by
  obtain ⟨c, state, hc, hd, rfl⟩ := raftStep_some hs
  rw [h.delivered_append hnodes hc, List.drop_left] at hd
  obtain ⟨-, rfl⟩ := deliver_singleton hd
  rfl

theorem state_other (he : isAppendEntry e = false) (hj : t.cluster.runner e = some j)
    (hs : t.raftStep cfg j now e = some t₁) : t₁.state = t.state := by
  obtain rfl := node_alone hnodes h hj hs
  obtain ⟨c, state, hc, hd, rfl⟩ := raftStep_some hs
  have hdelivered : (c.proc j).raft.delivered = (t.cluster.proc j).raft.delivered := by
    refine h.delivered hnodes hc fun command data caller raises hev => ?_
    rw [hev] at he
    cases he
  rw [hdelivered, List.drop_length] at hd
  obtain rfl := Option.some.inj hd
  exact Function.update_eq_self ..

end Alone

/-! ## Locks -/

def TablesExclusive (s : DistributedSystem (services md5 config cfg.peers)) : Prop :=
  ∀ j, LockTable.Exclusive (lockManagerOf s j).locks

theorem TablesExclusive.update (h : TablesExclusive s) {j : String}
    {n : (services md5 config cfg.peers).State}
    (hn : LockTable.Exclusive (DistributedNode.lockManager n).locks)
    (hs : s'.state = Function.update s.state j n) : TablesExclusive s' := by
  intro k
  rw [lockManagerOf, hs]
  by_cases hk : k = j
  · rw [hk, Function.update_self]
    exact hn
  · rw [Function.update_of_ne hk]
    exact h k

theorem exclusive_resume {j : String} (h : TablesExclusive s) (now : ℚ)
    (frame : DistributedNode.Frame) (a : Appended) :
    LockTable.Exclusive (DistributedNode.lockManager
      ((services md5 config cfg.peers).resume now frame a (s.state j)).1).locks := by
  have hlocks := (replicates_locks md5 config cfg.peers).resume now frame a (s.state j)
  exact (congrArg LockTable.Exclusive hlocks).mpr (h j)

theorem exclusive_commit {j : String} (h : TablesExclusive s) {frame : DistributedNode.Frame}
    (ht : Tested (s.state j) frame) (now : ℚ) (r : RaftNode) :
    LockTable.Exclusive (DistributedNode.lockManager ((services md5 config cfg.peers).handleCommit
      now (r.newEntry (request frame).1 (request frame).2) (s.state j)).1).locks := by
  have hlocks := (replicates_locks md5 config cfg.peers).handleCommit now
    (r.newEntry (request frame).1 (request frame).2) (s.state j)
  refine (congrArg LockTable.Exclusive hlocks).mpr ((h j).apply fun l hl p hp _ => ?_)
  obtain ⟨a, ha, rfl⟩ := granted?_request hl
  exact LockTable.not_conflict_of_tryAcquire (l := a.lock) (ht a ha) hp

theorem TablesExclusive.step (h : TablesExclusive s) (hnodes : cfg.nodes = [i])
    (hr : Reach cfg Runs.Any s) {ev : SystemEvent (services md5 config cfg.peers)}
    (hs : s.step cfg ev = some s') : TablesExclusive s' := by
  have hlone := lone_of_reach hnodes hr
  cases step_cases hs with
  | call j now op r hj hstart =>
    refine h.update ?_ (react_state ..)
    have hlocks := (replicates_locks md5 config cfg.peers).start hstart
    exact (congrArg LockTable.Exclusive hlocks).mpr (h j)
  | refused j now raises frame hf hl =>
    exact h.update (exclusive_resume h now frame _) (react_state ..)
  | appends j now raises frame s₁ hf hl hp hs₁ =>
    obtain rfl := node_alone hnodes hlone rfl hs₁
    exact absurd hlone.peers hp
  | commits j now raises frame s₁ b hf hl hb hs₁ =>
    obtain rfl := node_alone hnodes hlone rfl hs₁
    have ht := (tests_locks md5 config cfg.peers).reach hr j frame hf
    have hcommit : TablesExclusive s₁ :=
      h.update (exclusive_commit h ht now _) (state_append hnodes hlone hs₁)
    exact hcommit.update (exclusive_resume hcommit now frame _) (react_state ..)
  | returns j now k call s₁ hj hc hs₁ =>
    obtain rfl := node_alone hnodes hlone rfl hs₁
    simp [hlone.appendCalls] at hc
  | raft j now e s₁ hj hrun he hret hs₁ =>
    intro j'
    rw [lockManagerOf, state_other hnodes hlone he hj hs₁]
    exact h j'

/-- On a cluster of one node locks exclude each other, whatever the clients do: in every reachable
state, a resource with an exclusive lock has no other lock. -/
theorem locksExclusive_alone (hnodes : cfg.nodes = [i]) (hr : Reach cfg Runs.Any s) :
    LocksExclusive s := by
  have h : TablesExclusive s := by
    induction hr with
    | refl => exact fun j => List.Pairwise.nil
    | tail ev hr _ hs ih => exact ih.step hnodes hr hs
  exact fun j r l hl hx => (h j).alone hl hx

/-- Two clients ask at the same time; the second one waits. -/
theorem locksExclusive_alone_two : ∃ s : DistributedSystem twoBlocks,
    (lockManagerOf s "a").locks.length = 1 ∧ LocksExclusive s := by
  obtain ⟨s, hr, hl⟩ := Runs.exists_of_runList (step oneNode)
    (DistributedSystem.init twoBlocks oneNode)
    [.raft 0 (.electionTimeout "a"),
      .call "a" 0 (.lock (.acquireLock ⟨.str "r", .exclusive, .str "x", .int 30, "l"⟩)),
      .append "a" 0 never,
      .call "a" 0 (.lock (.acquireLock ⟨.str "r", .exclusive, .str "y", .int 30, "m"⟩))]
    (fun s => (lockManagerOf s "a").locks.length = 1) (by decide +kernel)
  exact ⟨s, hl, locksExclusive_alone rfl hr⟩

end DistributedSync
