import DistributedSync.Services.HashRing
import DistributedSync.Services.QueueHistory

/-!
# Failure of a node

`recover_from_failure` takes the failed node off the ring and stores nothing: the loop over the
messages looks up their replicas for a line of the log. Without collisions, the replicas of a key
are afterwards those it had, less the failed node, and the next node of the walk in its place
(`recoverFromFailure_replicas`).
-/

namespace DistributedSync

open HashRing

namespace DistributedQueue

variable (md5 : String → ℕ)

/-- Recover messages from failed node. -/
def recoverFromFailure (q : DistributedQueue) (failedNode : String) : DistributedQueue :=
  { q with hashRing := q.hashRing.removeNode md5 failedNode }

end DistributedQueue

namespace ConsistentHashRing

variable {md5 : String → ℕ} {virtualNodes : ℕ} {names : List String} {s : Finset String}
  {r : ConsistentHashRing}

theorem owners_removeNode (hnc : NoCollision md5 virtualNodes names)
    (h : History md5 virtualNodes names s r) (node : String) (x : ℕ) :
    owners (points md5 (r.removeNode md5 node).nodes virtualNodes)
        (owner md5 (r.removeNode md5 node).nodes virtualNodes) x =
      (owners (points md5 r.nodes virtualNodes) (owner md5 r.nodes virtualNodes) x).erase node := by
  have hb := h.built
  have hb' := (h.removeNode node).built
  have hmem : ∀ n, n ∈ (r.removeNode md5 node).nodes ↔ n ≠ node ∧ n ∈ r.nodes := fun n => by
    rw [← List.mem_toFinset, hb'.nodes, ← hb.nodes, Finset.mem_erase, List.mem_toFinset]
  have hold : ∀ n ∈ (r.removeNode md5 node).nodes, n ∈ r.nodes := fun n hn => ((hmem n).mp hn).2
  refine owners_erase (points_subset hold) (owner_congr hnc hb'.names hb.names hold)
    (fun p hp => ?_) x
  obtain ⟨n, hn, i, hi, rfl⟩ := mem_points_iff.mp hp
  rw [owner_eq hnc hb.names hn hi]
  constructor
  · intro hp'
    obtain ⟨n', hn', i', hi', heq⟩ := mem_points_iff.mp hp'
    -- the label of the point tells its node
    have hlabel := hnc n' (hb'.names n' hn') i' hi' n (hb.names n hn) i hi heq
    rw [← (label_inj hlabel).1]
    exact ((hmem n').mp hn').1
  · exact fun hne => mem_points_iff.mpr ⟨n, (hmem n).mpr ⟨hne, hn⟩, i, hi, rfl⟩

theorem getReplicas_removeNode (hnc : NoCollision md5 virtualNodes names)
    (h : History md5 virtualNodes names s r) (node key : String) (count : ℕ) :
    (r.removeNode md5 node).getReplicas md5 key count =
      ((r.getReplicas md5 key (count + 1 : ℕ)).erase node).take count := by
  rw [getReplicas_eq (h.removeNode node).built.points, getReplicas_eq h.built.points,
    owners_removeNode hnc h, take_erase]

end ConsistentHashRing

open ConsistentHashRing

/-- After the recovery from the failure of a node, the replicas of a key are those it had, in the
same order, with the failed node left out and at most one node added at the end. The failed node is
no replica, and the messages are where they were. -/
structure Replaces (md5 : String → ℕ) (q : DistributedQueue) (failedNode key : String)
    (count : ℕ) : Prop where
  replicas : (q.recoverFromFailure md5 failedNode).hashRing.getReplicas md5 key count =
    ((q.hashRing.getReplicas md5 key (count + 1 : ℕ)).erase failedNode).take count
  gone : failedNode ∉ (q.recoverFromFailure md5 failedNode).hashRing.getReplicas md5 key count
  kept : (q.hashRing.getReplicas md5 key count).erase failedNode <+:
    (q.recoverFromFailure md5 failedNode).hashRing.getReplicas md5 key count
  unaffected : failedNode ∉ q.hashRing.getReplicas md5 key count →
    (q.recoverFromFailure md5 failedNode).hashRing.getReplicas md5 key count =
      q.hashRing.getReplicas md5 key count
  messages : (q.recoverFromFailure md5 failedNode).available = q.available

theorem recoverFromFailure_replicas {md5 : String → ℕ} {virtualNodes : ℕ} {names : List String}
    {s : Finset String} {q : DistributedQueue} (hnc : NoCollision md5 virtualNodes names)
    (h : History md5 virtualNodes names s q.hashRing) (failedNode key : String) (count : ℕ) :
    Replaces md5 q failedNode key count := by
  have heq := getReplicas_removeNode hnc h failedNode key count
  obtain ⟨walk, hnd, hwalk⟩ : ∃ walk : List String, walk.Nodup ∧
      ∀ n : ℕ, q.hashRing.getReplicas md5 key n = walk.take n :=
    ⟨_, nodup_eraseDups _, getReplicas_eq h.built.points⟩
  rw [hwalk, ← take_erase] at heq
  refine ⟨?_, ?_, ?_, fun hno => ?_, rfl⟩
  · rw [hwalk, ← take_erase]
    exact heq
  · show failedNode ∉ (q.hashRing.removeNode md5 failedNode).getReplicas md5 key count
    rw [heq]
    exact fun hmem => hnd.not_mem_erase (List.mem_of_mem_take hmem)
  · show _ <+: (q.hashRing.removeNode md5 failedNode).getReplicas md5 key count
    rw [heq, hwalk]
    exact erase_take_prefix walk failedNode count
  · show (q.hashRing.removeNode md5 failedNode).getReplicas md5 key count = _
    rw [hwalk] at hno
    rw [heq, hwalk, take_erase_of_notMem hno]

def threeRing : DistributedQueue where
  hashRing := ConsistentHashRing.init hashlibMd5 ["a", "b", "c"] 2
  replicationFactor := 2
  persistenceEnabled := true

theorem recoverFromFailure_replicas_b : Replaces hashlibMd5 threeRing "b" "orders:0" 2 := by
  have hnc : NoCollision hashlibMd5 2 ["a", "b", "c"] := by
    unfold NoCollision
    decide +kernel
  exact recoverFromFailure_replicas hnc (.init (by decide) (by decide)) "b" "orders:0" 2

end DistributedSync
