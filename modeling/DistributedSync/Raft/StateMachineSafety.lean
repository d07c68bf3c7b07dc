import DistributedSync.Raft.LogMatching

/-!
# Commits and delivered entries

With safe steps only, commit indices never go back, committed entries stay in place
(`committed_stable`), and the sequences delivered to the callbacks are prefixes of one another
(`stateMachineSafety`). The code takes unsafe steps: a heartbeat answered before the first entry of
a term makes the leader commit that entry alone, `match_index` starting at 0.
-/

namespace DistributedSync

open Replication Cluster

variable {κ : Type} {cfg : ClusterConfig} {c c' : Cluster κ} {ev : Event κ}
  {admits : List LogEntry → LogEntry → Prop} {s s' : World String LogEntry ℤ}

/-- All optional rules, with a check on appended entries. -/
def Rules.full (admits : List LogEntry → LogEntry → Prop) : Rules :=
  ⟨True, True, True, admits, fun _ => ⟨trivial, trivial⟩⟩

theorem obeys_full (h : SafeStep c ev) (ha : Admitted admits c ev) :
    Obeys (Rules.full admits) c ev where
  votes := h.1
  fenced _ := h.2.1
  entitled _ := h.2.2.1
  backed _ := h.2.2.2
  admits := ha

section Keep

variable (h : Sim cfg (Rules.full admits) c s)

include h

theorem Sim.safe : Safe ((Rules.full admits).protocol cfg) s :=
  Moves.safe cfg.start_start h.run trivial trivial

theorem Sim.committed : Committed ((Rules.full admits).protocol cfg) s :=
  Moves.committed cfg.start_start h.run trivial trivial trivial

theorem Sim.commit_lt (i : String) :
    (c.proc i).raft.commitIndex < (c.proc i).raft.log.length := by
  have hle := h.committed.member_le i
  rw [h.member i] at hle
  change ((c.proc i).raft.commitIndex + 1).toNat ≤ (c.proc i).raft.log.length at hle
  omega

theorem Sim.keep (h' : Sim cfg (Rules.full admits) c' s')
    (hm : Moves ((Rules.full admits).protocol cfg) s s') (i : String) :
    (c.proc i).raft.commitIndex ≤ (c'.proc i).raft.commitIndex ∧
      (c.proc i).raft.log.take ((c.proc i).raft.commitIndex + 1).toNat <+:
        (c'.proc i).raft.log := by
  obtain ⟨hle, hpre⟩ := Moves.keep cfg.start_start h.run trivial trivial trivial hm i
  rw [h.member i, h'.member i] at hle hpre
  have hge := h.commit_ge i
  have hge' := h'.commit_ge i
  change ((c.proc i).raft.commitIndex + 1).toNat ≤ ((c'.proc i).raft.commitIndex + 1).toNat at hle
  exact ⟨by omega, hpre⟩

/-- A step that obeys the rules keeps the delivered entries in step with the log. -/
theorem Sim.step_applied (ha : ∀ i, (c.proc i).raft.Applied)
    (hok : Obeys (Rules.full admits) c ev) (hs : cfg.step c ev = some c') :
    ∃ s', Moves ((Rules.full admits).protocol cfg) s s' ∧
      Sim cfg (Rules.full admits) c' s' ∧ ∀ i, (c'.proc i).raft.Applied := by
  obtain ⟨s', hm, h'⟩ := h.step hok hs
  refine ⟨s', hm, h', fun i => ?_⟩
  obtain ⟨hle, hpre⟩ := h.keep h' hm i
  exact ((cfg.transition hs).evolves i).applied (ha i) hle (h'.commit_lt i) hpre

end Keep

/-- A run of safe steps is a run of the protocol with all rules in force. -/
theorem Sim.of_safe
    (hr : cfg.Reach (fun c ev => SafeStep c ev ∧ Admitted admits c ev) c) :
    ∃ s, Sim cfg (Rules.full admits) c s ∧ ∀ i, (c.proc i).raft.Applied := by
  obtain ⟨s, -, hs⟩ := hr.simulate
    (fun c s => Sim cfg (Rules.full admits) c s ∧ ∀ i, (c.proc i).raft.Applied)
    (fun _ _ => True) cfg.start (fun _ => trivial) (fun _ _ _ _ _ => trivial)
    (fun t e u s hR hok hs => by
      obtain ⟨s', -, h'⟩ := hR.1.step_applied hR.2 (obeys_full hok.1 hok.2) hs
      exact ⟨s', trivial, h'⟩)
    ⟨Sim.init cfg _, fun i => RaftNode.init_applied i (cfg.peers i)⟩
  exact ⟨s, hs⟩

theorem admitted_any (hr : cfg.Reach SafeStep c) :
    cfg.Reach (fun c ev => SafeStep c ev ∧ Admitted (fun _ _ => True) c ev) c :=
  hr.mono fun _ ev h => ⟨h, by cases ev <;> trivial⟩

/-! ## Delivered entries -/

/-- Of the delivered sequences of any two nodes, one is a prefix of the other. -/
def Cluster.Agree (c : Cluster κ) : Prop :=
  ∀ i j : String,
    (c.proc i).raft.delivered.map LogEntry.content <+:
        (c.proc j).raft.delivered.map LogEntry.content ∨
      (c.proc j).raft.delivered.map LogEntry.content <+:
        (c.proc i).raft.delivered.map LogEntry.content

/-- What a node has delivered lies in the committed part of its log. -/
theorem Sim.delivered_prefix (hs : Sim cfg (Rules.full admits) c s)
    (happ : ∀ i, (c.proc i).raft.Applied) (i : String) :
    (c.proc i).raft.delivered <+: (s.member i).log.take (s.member i).commit := by
  obtain ⟨hge, hle, -, hdel⟩ := happ i
  rw [hs.member i, hdel]
  exact List.take_prefix_take_left (show _ ≤ ((c.proc i).raft.commitIndex + 1).toNat by omega)

theorem delivered_comparable (hr : cfg.Reach SafeStep c) (i j : String) :
    (c.proc i).raft.delivered <+: (c.proc j).raft.delivered ∨
      (c.proc j).raft.delivered <+: (c.proc i).raft.delivered := by
  obtain ⟨s, hs, happ⟩ := Sim.of_safe (admitted_any hr)
  have hpre := hs.delivered_prefix happ
  rcases hs.committed.comparable hs.safe hs.matched i j with h | h
  · exact List.prefix_or_prefix_of_prefix ((hpre i).trans h) (hpre j)
  · exact List.prefix_or_prefix_of_prefix (hpre i) ((hpre j).trans h)

theorem delivered_eq (hr : cfg.Reach SafeStep c) {i j : String}
    (h : (c.proc i).raft.lastApplied = (c.proc j).raft.lastApplied) :
    (c.proc i).raft.delivered = (c.proc j).raft.delivered := by
  obtain ⟨s, hs, happ⟩ := Sim.of_safe (admitted_any hr)
  have hlen : ∀ i, (c.proc i).raft.delivered.length = ((c.proc i).raft.lastApplied + 1).toNat := by
    intro i
    obtain ⟨-, hle, hlt, hdel⟩ := happ i
    rw [hdel, List.length_take, min_eq_left (by omega)]
  have hij : (c.proc i).raft.delivered.length = (c.proc j).raft.delivered.length := by
    rw [hlen, hlen, h]
  rcases delivered_comparable hr i j with hp | hp
  · exact hp.eq_of_length hij
  · exact (hp.eq_of_length hij.symm).symm

theorem stateMachineSafety (hr : cfg.Reach SafeStep c) : c.Agree := fun i j =>
  (delivered_comparable hr i j).imp (fun h => h.map _) fun h => h.map _

theorem stateMachineSafety_delivered : ∃ c : Cluster Unit, threeNodes.Reach SafeStep c ∧
    ((c.proc "a").raft.delivered.length = 1 ∧ (c.proc "b").raft.delivered.length = 1) ∧
    c.Agree := by
  obtain ⟨c, hr, hl⟩ := Runs.exists_of_checked threeNodes.step SafeStep
    threeNodes.init
    (electA ++ [submit "a" "x"] ++ push "a" (.append 0) 0 2 ++ [.heartbeat "a"] ++
      push "a" .heartbeat 0 3)
    (fun c => (c.proc "a").raft.delivered.length = 1 ∧
      (c.proc "b").raft.delivered.length = 1) (by decide +kernel)
  exact ⟨c, hr, hl, stateMachineSafety hr⟩

/-- The leader `a` of term 2 appends an entry while the answer of `b` to a heartbeat is under way,
and commits it on this answer. The leader `b` of term 4, elected by `c`, does not have the entry
and commits another one. -/
def lonelyCommit : List (Event Unit) :=
  electA ++ [.heartbeat "a", .sendAppend "a" .heartbeat 0, .handleMessage 2 never,
    submit "a" "x", .appendResponse "a" .heartbeat 0 never] ++
    stand "b" ++ ask "b" 0 1 3 ++ askInVain "b" 0 0 ++ [.finishElection "b" 0] ++
    [submit "b" "y"] ++ push "b" (.append 0) 1 5

theorem stateMachineSafety_fails :
    ¬ ∀ (cfg : ClusterConfig) (c : Cluster Unit), cfg.Reach Runs.Any c → c.Agree := by
  intro h
  obtain ⟨c, hr, ha, hb⟩ := Runs.exists_of_runList threeNodes.step
    threeNodes.init lonelyCommit
    (fun c => (c.proc "a").raft.delivered.map LogEntry.command = ["x"] ∧
      (c.proc "b").raft.delivered.map LogEntry.command = ["y"]) (by decide +kernel)
  have hcommand : ∀ l : List LogEntry,
      (l.map LogEntry.content).map (fun p => p.2.1) = l.map LogEntry.command := by
    intro l
    rw [List.map_map]
    rfl
  rcases h threeNodes c hr "a" "b" with hp | hp <;>
  · have := hp.map fun p : ℤ × String × Dict => p.2.1
    rw [hcommand, hcommand, ha, hb] at this
    exact absurd this (by decide)

/-! ## Committed entries -/

/-- `-1 <= last_applied <= commit_index <= len(log) - 1` on every node. -/
def Cluster.InBounds (c : Cluster κ) : Prop :=
  ∀ i, -1 ≤ (c.proc i).raft.lastApplied ∧
    (c.proc i).raft.lastApplied ≤ (c.proc i).raft.commitIndex ∧
    (c.proc i).raft.commitIndex ≤ (c.proc i).raft.log.length - 1

/-- From `c` to `c'` no commit index goes back, and the entries committed in `c` stay in place. -/
def Cluster.Stable (c c' : Cluster κ) : Prop :=
  ∀ i, (c.proc i).raft.commitIndex ≤ (c'.proc i).raft.commitIndex ∧
    ∀ k : ℕ, (k : ℤ) ≤ (c.proc i).raft.commitIndex →
      (c'.proc i).raft.log[k]? = (c.proc i).raft.log[k]?

theorem committed_stable (hr : cfg.Reach SafeStep c) (hok : SafeStep c ev)
    (hs : cfg.step c ev = some c') : c.InBounds ∧ c'.InBounds ∧ c.Stable c' := by
  obtain ⟨s, hsim, happ⟩ := Sim.of_safe (admitted_any hr)
  obtain ⟨s', hm, hsim', happ'⟩ :=
    hsim.step_applied happ (obeys_full hok (by cases ev <;> trivial)) hs
  have hbounds : ∀ {c : Cluster κ}, (∀ i, (c.proc i).raft.Applied) → c.InBounds := by
    intro c h i
    obtain ⟨hge, hle, hlt, -⟩ := h i
    exact ⟨hge, hle, by omega⟩
  refine ⟨hbounds happ, hbounds happ', fun i => ?_⟩
  obtain ⟨hle, hpre⟩ := hsim.keep hsim' hm i
  refine ⟨hle, fun k hk => ?_⟩
  have hlt := (happ i).lt
  have hget : ((c.proc i).raft.log.take ((c.proc i).raft.commitIndex + 1).toNat)[k]? =
      (c.proc i).raft.log[k]? := List.getElem?_take_of_lt (by omega)
  rw [← hget]
  have hklt : k < ((c.proc i).raft.log.take ((c.proc i).raft.commitIndex + 1).toNat).length := by
    rw [List.length_take]
    omega
  rw [List.getElem?_eq_getElem hklt]
  exact TermLog.prefix_getElem? hpre (List.getElem?_eq_getElem hklt)

/-- The run of the delivered entries, before the follower `b` learns of the commit. -/
theorem committed_stable_follow : ∃ c c' : Cluster Unit, threeNodes.Reach SafeStep c ∧
    SafeStep c (.handleMessage 3 never) ∧
    threeNodes.step c (.handleMessage 3 never) = some c' ∧
    (c.proc "a").raft.commitIndex = 0 ∧ c.InBounds ∧ c'.InBounds ∧ c.Stable c' := by
  obtain ⟨c, hr, hc, hok, hs⟩ := Runs.exists_of_checked threeNodes.step
    SafeStep threeNodes.init
    (electA ++ [submit "a" "x"] ++ push "a" (.append 0) 0 2 ++
      [.heartbeat "a", .sendAppend "a" .heartbeat 0])
    (fun c => (c.proc "a").raft.commitIndex = 0 ∧ SafeStep c (.handleMessage 3 never) ∧
      (threeNodes.step c (.handleMessage 3 never)).isSome = true) (by decide +kernel)
  obtain ⟨c', hs⟩ := Option.isSome_iff_exists.mp hs
  exact ⟨c, c', hr, hok, hs, hc, committed_stable hr hok hs⟩

theorem committed_stable_fails : ¬ ∀ (cfg : ClusterConfig) (c c' : Cluster Unit)
    (ev : Event Unit), cfg.Reach Runs.Any c → cfg.step c ev = some c' →
    c.InBounds ∧ c'.InBounds ∧ c.Stable c' := by
  intro h
  -- `b` replicates its entry to `a`, which has committed another one at index 0
  obtain ⟨c, hr, hc, ha, hb⟩ := Runs.exists_of_runList threeNodes.step
    threeNodes.init (lonelyCommit ++ [.sendAppend "b" (.append 0) 0])
    (fun c => (c.proc "a").raft.commitIndex = 0 ∧
      (c.proc "a").raft.log[0]?.map LogEntry.command = some "x" ∧
      ((threeNodes.step c (.handleMessage 6 never)).bind fun c' =>
        (c'.proc "a").raft.log[0]?.map LogEntry.command) = some "y") (by decide +kernel)
  obtain ⟨c', hs, hb⟩ := Option.bind_eq_some_iff.mp hb
  have := ((h threeNodes c c' _ hr hs).2.2 "a").2 0 (by rw [hc]; rfl)
  rw [this, ha] at hb
  exact absurd hb (by decide)

end DistributedSync
