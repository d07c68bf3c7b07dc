import DistributedSync.Raft.ElectionSafety

/-!
# Log matching

Two logs with entries of one term at one index agree up to this index. It rests on election safety
alone (`logMatching`): a term has one leader, so its entries have one author, and the check of the
previous entry does the rest, also for stale APPEND_ENTRIES and for those of nodes that lead
nothing any more. Two leaders of one term break it (`logMatching_fails`).
-/

namespace DistributedSync

open Replication Cluster

variable {κ : Type} {cfg : ClusterConfig} {c : Cluster κ}

/-- Where two nodes' logs hold entries of one term at one index, they agree up to there. -/
def Cluster.LogsMatch (c : Cluster κ) : Prop :=
  ∀ (i j : String) (n : ℕ) (e e' : LogEntry), (c.proc i).raft.log[n]? = some e →
    (c.proc j).raft.log[n]? = some e' → e.term = e'.term → ∀ k ≤ n,
      (c.proc i).raft.log[k]?.map LogEntry.content = (c.proc j).raft.log[k]?.map LogEntry.content

theorem logMatching (hr : cfg.Reach CurrentVotes c) : c.LogsMatch := by
  intro i j n e e' hi hj ht k hk
  obtain ⟨s, hs⟩ := Sim.of_currentVotes hr
  have htake : (s.member i).log.take (n + 1) = (s.member j).log.take (n + 1) :=
    hs.matched.log_matching (by rw [hs.member]; exact hi) (by rw [hs.member]; exact hj) ht
  rw [hs.member i, hs.member j] at htake
  have hget := congrArg (fun l : List LogEntry => l[k]?) htake
  simp only [List.getElem?_take_of_lt (show k < n + 1 by omega)] at hget
  exact congrArg (Option.map LogEntry.content) hget

/-- A task sends its APPEND_ENTRIES, with RPC `r`, and gets the answer. -/
def push (i : String) (owner : TaskOwner) (k r : ℕ) : List (Event κ) :=
  [.sendAppend i owner k, .handleMessage r never, .appendResponse i owner k never]

def submit (i command : String) : Event Unit := .appendEntry i command [] () never

theorem logMatching_replicated : ∃ c : Cluster Unit, threeNodes.Reach CurrentVotes c ∧
    ((c.proc "a").raft.log.length = 1 ∧ (c.proc "b").raft.log.length = 1) ∧ c.LogsMatch := by
  obtain ⟨c, hr, hl⟩ := Runs.exists_of_checked threeNodes.step CurrentVotes
    threeNodes.init (electA ++ [submit "a" "x"] ++ push "a" (.append 0) 0 2)
    (fun c => (c.proc "a").raft.log.length = 1 ∧ (c.proc "b").raft.log.length = 1)
    (by decide +kernel)
  exact ⟨c, hr, hl, logMatching hr⟩

theorem logMatching_fails :
    ¬ ∀ (cfg : ClusterConfig) (c : Cluster Unit), cfg.Reach Runs.Any c → c.LogsMatch := by
  intro h
  -- both leaders of term 4 append an entry at index 0
  obtain ⟨c, hr, ha, hb⟩ := Runs.exists_of_runList threeNodes.step
    threeNodes.init (twoLeaders ++ [submit "a" "x", submit "b" "y"])
    (fun c => (c.proc "a").raft.log[0]?.map (fun e => (e.term, e.command)) = some (4, "x") ∧
      (c.proc "b").raft.log[0]?.map (fun e => (e.term, e.command)) = some (4, "y"))
    (by decide +kernel)
  obtain ⟨e, he, hx⟩ := Option.map_eq_some_iff.mp ha
  obtain ⟨e', he', hy⟩ := Option.map_eq_some_iff.mp hb
  rw [Prod.mk.injEq] at hx hy
  have := h threeNodes c hr "a" "b" 0 e e' he he' (by rw [hx.1, hy.1]) 0 le_rfl
  rw [he, he'] at this
  have hcommand : e.command = e'.command := congrArg (fun p => p.2.1) (Option.some.inj this)
  rw [hx.2, hy.2] at hcommand
  exact absurd hcommand (by decide)

end DistributedSync
