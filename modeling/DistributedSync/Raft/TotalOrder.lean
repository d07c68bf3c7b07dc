import DistributedSync.Library.Broadcast
import DistributedSync.Raft.LogOrder
import DistributedSync.Raft.StateMachineSafety

/-!
# The cluster as a broadcast

What clients append to leaders is submitted to a total order broadcast, and what the callbacks get
is its deliveries: a run of safe steps is, up to these two, a run of the service of
`DistributedSync.Library.Broadcast` (`refinesBroadcast`). So there is one order of entries for the
whole run and all nodes, whatever leaders there are, with each entry in it at most as often as it
was appended.
-/

namespace DistributedSync

open RaftNode Cluster

variable {κ : Type} {cfg : ClusterConfig}

/-- The entries that a step submits. -/
def Cluster.appended (c : Cluster κ) : Event κ → Multiset LogEntry
  | .appendEntry i command data _ _ => {(c.proc i).raft.newEntry command data}
  | _ => 0

def Cluster.delivered (c : Cluster κ) (i : String) : List LogEntry := (c.proc i).raft.delivered

theorem Cluster.AllEntries.mono {P Q : LogEntry → Prop} {c : Cluster κ} (hPQ : ∀ e, P e → Q e)
    (h : c.AllEntries P) : c.AllEntries Q where
  node i := ⟨fun e he => hPQ e ((h.node i).log e he),
    fun e he => hPQ e ((h.node i).delivered e he)⟩
  rpc rpc hrpc e he := hPQ e (h.rpc rpc hrpc e he)

theorem allEntries_appended {ok : Cluster κ → Event κ → Prop} {p : Cluster κ × Multiset LogEntry}
    (hr : Runs.Recorded cfg.step ok Cluster.appended cfg.init p) : p.1.AllEntries (· ∈ p.2) := by
  induction hr with
  | refl => exact .reach .refl
  | @tail p q ev _ _ hs ih =>
    obtain ⟨c, hc, rfl⟩ := Runs.record_some hs
    refine (ih.mono fun e he => Multiset.mem_add.mpr (Or.inl he)).step ?_ (cfg.transition hc)
    cases ev with
    | appendEntry i command data caller raises =>
      exact Multiset.mem_add.mpr (Or.inr (Multiset.mem_singleton_self _))
    | _ => trivial

theorem nodup_delivered {c : Cluster κ} (hr : cfg.Reach SafeStep c) (i : String) :
    (c.delivered i).Nodup := by
  obtain ⟨s, -, happ⟩ := Sim.of_safe (admitted_any hr)
  obtain ⟨-, -, -, hdel⟩ := happ i
  rw [Cluster.delivered, hdel]
  exact (((OrderedLogs.reach hr).node i).numbered.of_prefix (List.take_prefix ..)).nodup

/-- With safe steps, the cluster is a total order broadcast. -/
theorem implements (cfg : ClusterConfig) : Broadcast.Implements (cfg.step (κ := κ)) SafeStep
    cfg.init Cluster.appended Cluster.delivered where
  init _ := rfl
  grows c ev c' _ hs := by
    obtain ⟨i, p, -, hproc, hev, -⟩ := (cfg.transition hs).one_node
    obtain ⟨new, hnew⟩ := hev.delivered
    refine ⟨i, new, Function.eq_update_iff.mpr ⟨?_, fun j hj => ?_⟩⟩ <;>
      unfold Cluster.delivered <;> rw [hproc]
    · rw [Function.update_self, hnew]
    · rw [Function.update_of_ne hj]
  agree c hr := delivered_comparable hr
  submitted p hr i := by
    have hall := (allEntries_appended hr).node i
    exact (Multiset.le_iff_subset (Multiset.coe_nodup.mpr (nodup_delivered hr.reach i))).mpr
      hall.delivered

/-- No entry is delivered on a node more often than it was appended. -/
theorem delivered_le_appended {p : Cluster κ × Multiset LogEntry}
    (hr : Runs.Recorded cfg.step SafeStep appended cfg.init p) (i : String) :
    ↑(p.1.delivered i) ≤ p.2 := by
  obtain ⟨b, hb, hmatch⟩ := (implements cfg).refines hr
  rw [← hmatch.delivered, ← hmatch.submitted]
  exact Broadcast.delivered_le hb i

/-- A run of safe steps is matched by a run of the broadcast with the same submissions and the same
deliveries. -/
theorem refinesBroadcast {p : Cluster κ × Multiset LogEntry}
    (hr : Runs.Recorded cfg.step SafeStep appended cfg.init p) :
    ∃ b, Runs.Reach Broadcast.step Runs.Any {} b ∧ b.submitted = p.2 ∧
      ∀ i, b.delivered i = p.1.delivered i := by
  obtain ⟨b, hb, hmatch⟩ := (implements cfg).refines hr
  exact ⟨b, hb, hmatch.submitted, hmatch.delivered⟩

/-- Leader `a` submits two entries; `a` has delivered both, and `b` the first of them. -/
theorem refinesBroadcast_behind : ∃ p : Cluster Unit × Multiset LogEntry,
    ((p.1.delivered "a").map LogEntry.command = ["x", "y"] ∧
      (p.1.delivered "b").map LogEntry.command = ["x"]) ∧
    ∃ b, Runs.Reach Broadcast.step Runs.Any {} b ∧ b.submitted = p.2 ∧
      ∀ i, b.delivered i = p.1.delivered i := by
  obtain ⟨p, hr, hp⟩ := Runs.exists_of_checked (Runs.record threeNodes.step appended)
    (fun p ev => SafeStep p.1 ev) (threeNodes.init, 0)
    (electA ++ [submit "a" "x"] ++ push "a" (.append 0) 0 2 ++ [submit "a" "y"] ++
      push "a" (.append 1) 0 3)
    (fun p => (p.1.delivered "a").map LogEntry.command = ["x", "y"] ∧
      (p.1.delivered "b").map LogEntry.command = ["x"]) (by decide +kernel)
  exact ⟨p, hp, refinesBroadcast hr⟩

end DistributedSync
