import DistributedSync.Raft.Simulation

/-!
# Election safety

Every term has at most one leader over a whole run, as long as each election is won with votes of
its own term (`electionSafety`). The code does not see to that: `_become_follower` clears
`_election_in_progress` while a `_start_election` coroutine still waits for its gather, and when
the coroutine comes back it counts its old votes for whatever term the node is in by then
(`electionSafety_fails`).
-/

namespace DistributedSync

open Replication Cluster

variable {κ : Type} {cfg : ClusterConfig} {c c' : Cluster κ} {i j : String} {t : ℤ}

def Rules.free : Rules := ⟨False, False, False, fun _ _ => True, False.elim⟩

theorem obeys_free {ev : Event κ} (h : CurrentVotes c ev) : Obeys Rules.free c ev where
  votes := h
  fenced := False.elim
  entitled := False.elim
  backed := False.elim
  admits := by cases ev <;> trivial

/-- A run without stale votes is a run of the protocol without optional rules. -/
theorem Sim.of_currentVotes (hr : cfg.Reach CurrentVotes c) :
    ∃ s, Sim cfg Rules.free c s := by
  obtain ⟨s, -, hs⟩ := (Sim.init cfg Rules.free).reach (hr.mono fun _ _ => obeys_free)
  exact ⟨s, hs⟩

/-- `i` is in state LEADER with current term `t`. -/
def Cluster.LeaderIn (c : Cluster κ) (i : String) (t : ℤ) : Prop :=
  (c.proc i).raft.state = .leader ∧ (c.proc i).raft.currentTerm = t

instance : Decidable (c.LeaderIn i t) := inferInstanceAs (Decidable (_ ∧ _))

theorem Sim.leader_won {R : Rules} {s : World String LogEntry ℤ} (h : Sim cfg R c s)
    (hi : c.LeaderIn i t) : s.won t = some i := by
  have hr : (s.member i).role = .leader := by
    rw [h.member i]
    show (c.proc i).raft.state.role = _
    rw [hi.1]
    rfl
  have := h.elected.leader_won i hr
  rw [h.member i] at this
  rw [← hi.2]
  exact this

/-- Two leaders of one term, at any two moments of a run, are one node. -/
theorem electionSafety (hr : cfg.Reach CurrentVotes c)
    (hr' : Runs.Reach cfg.step CurrentVotes c c') (hi : c.LeaderIn i t) (hj : c'.LeaderIn j t) :
    i = j := by
  obtain ⟨s, hs⟩ := Sim.of_currentVotes hr
  obtain ⟨s', hm, hs'⟩ := hs.reach (hr'.mono fun _ _ => obeys_free)
  have hwi := Moves.won_mono cfg.start_start hs.run hm (hs.leader_won hi)
  rw [hs'.leader_won hj, Option.some.injEq] at hwi
  exact hwi.symm

/-! ## Concrete runs -/

def threeNodes : ClusterConfig := .ofNodes ["a", "b", "c"] (by decide)

def never : Raises := fun _ => false

/-- An election timeout, whose own election is cancelled, and the election started in the next term
by the message processor. -/
def stand (i : String) : List (Event κ) :=
  [.electionTimeout i, .finishElection i 0, .raftProcessor i]

/-- Task `k` of election `j` asks its peer, with RPC `r`, and gets the answer. -/
def ask (i : String) (j k r : ℕ) : List (Event κ) :=
  [.requestVote i j k, .handleMessage r never, .voteResponse i j k]

def askInVain (i : String) (j k : ℕ) : List (Event κ) :=
  [.requestVote i j k, .voteTimeout i j k]

/-- In a fresh cluster of three nodes, `a` becomes the leader of term 2 with the vote of `b`. -/
def electA : List (Event κ) :=
  stand "a" ++ ask "a" 0 0 0 ++ askInVain "a" 0 1 ++ [.finishElection "a" 0]

theorem electionSafety_leader : ∃ c c' : Cluster Unit, threeNodes.Reach CurrentVotes c ∧
    Runs.Reach threeNodes.step CurrentVotes c c' ∧ c.LeaderIn "a" 2 ∧ c'.LeaderIn "a" 2 ∧
    ∀ j, c'.LeaderIn j 2 → "a" = j := by
  obtain ⟨c, hr, hl⟩ := Runs.exists_of_checked threeNodes.step CurrentVotes
    threeNodes.init electA
    (fun c : Cluster Unit => c.LeaderIn "a" 2) (by decide +kernel)
  exact ⟨c, c, hr, .refl, hl, hl, fun j hj => electionSafety hr .refl hl hj⟩

/-- Two leaders of term 4. `a` has the vote of `b` in term 2 and waits for `c`, when a request of
term 3 makes it step down; `b` wins term 4 with the vote of `c`; `a` stands in term 4 on its
election timeout, and then the election of term 2 comes back with two votes. -/
def twoLeaders : List (Event Unit) :=
  stand "a" ++ ask "a" 0 0 0 ++ [.requestVote "a" 0 1] ++
    [.electionTimeout "c", .finishElection "c" 0] ++ stand "c" ++ ask "c" 0 0 2 ++
    stand "b" ++ ask "b" 0 1 3 ++ askInVain "b" 0 0 ++ [.finishElection "b" 0] ++
    [.electionTimeout "a", .voteTimeout "a" 0 1, .finishElection "a" 0]

theorem electionSafety_fails : ¬ ∀ (cfg : ClusterConfig) (c c' : Cluster Unit) (i j : String)
    (t : ℤ), cfg.Reach Runs.Any c → Runs.Reach cfg.step Runs.Any c c' → c.LeaderIn i t →
    c'.LeaderIn j t → i = j := by
  intro h
  obtain ⟨c, hr, ha, hb⟩ := Runs.exists_of_runList threeNodes.step
    threeNodes.init twoLeaders
    (fun c => c.LeaderIn "a" 4 ∧ c.LeaderIn "b" 4) (by decide +kernel)
  exact absurd (h threeNodes c c "a" "b" 4 hr .refl ha hb) (by decide)

end DistributedSync
