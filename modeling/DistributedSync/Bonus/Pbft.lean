import DistributedSync.Core.Types
import DistributedSync.Library.Quorum
import Mathlib.Data.Fintype.Card

/-!
# PBFT quorums

`PBFTCoordinator` of `src/src/bonus/features.py`. The number of faults that it tolerates is rounded
down from a third of the replicas, and the quorum is computed from that number alone. Quorums of
this size meet in a correct replica only if no replica was lost in the rounding
(`byzantineQuorums_iff`).
-/

namespace DistributedSync

structure PBFTResult where
  requestId : String
  status : String
  quorum : ℕ
  replicas : ℕ
  prepareVotes : ℤ
  commitVotes : ℤ
  committedValue : Dict

/-- PBFT-style request simulator for bonus validation and demonstration. -/
structure PBFTCoordinator where
  nodeId : String
  replicas : List String
  requestLog : List PBFTResult := []

namespace PBFTCoordinator

def init (nodeId : String) (replicas : List String) : PBFTCoordinator where
  nodeId := nodeId
  replicas := if nodeId ∈ replicas then replicas else nodeId :: replicas

variable (c : PBFTCoordinator)

def faultTolerance : ℕ := max 1 ((c.replicas.length - 1) / 3)

def quorum : ℕ := 2 * c.faultTolerance + 1

/-- `submit_request`, with the id drawn for the request. -/
def submitRequest (requestId : String) (payload : Dict) (faultyNodes : ℤ := 0) :
    PBFTResult × PBFTCoordinator :=
  let activeReplicas := max 0 (c.replicas.length - max 0 faultyNodes)
  let prepareVotes := activeReplicas
  let commitVotes := activeReplicas
  let status := if c.quorum ≤ prepareVotes ∧ c.quorum ≤ commitVotes then "committed" else "partial"
  let result := { requestId, status, quorum := c.quorum, replicas := c.replicas.length,
                  prepareVotes, commitVotes, committedValue := payload }
  (result, { c with requestLog := c.requestLog ++ [result] })

/-- What PBFT asks of a quorum. The replicas are the positions of the list. -/
structure ByzantineQuorums : Prop where
  intersect : ∀ A B : Finset (Fin c.replicas.length), A.card = c.quorum → B.card = c.quorum →
    c.faultTolerance + 1 ≤ (A ∩ B).card
  bound : (c.faultTolerance : ℤ) + 1 ≤ 2 * c.quorum - c.replicas.length
  available : (c.quorum : ℤ) ≤ c.replicas.length - c.faultTolerance
  committed : ∀ requestId payload (k : ℤ), 0 ≤ k →
    ((c.submitRequest requestId payload k).1.status = "committed" ↔ k ≤ c.faultTolerance)

variable {c}

theorem faultTolerance_eq (h : 4 ≤ c.replicas.length) :
    c.faultTolerance = (c.replicas.length - 1) / 3 := by
  unfold faultTolerance
  omega

/-- A request commits exactly if the replicas that are not faulty make up a quorum. -/
theorem submitRequest_committed {requestId : String} {payload : Dict} {k : ℤ} (hk : 0 ≤ k) :
    (c.submitRequest requestId payload k).1.status = "committed" ↔
      (c.quorum : ℤ) ≤ c.replicas.length - k := by
  have hquorum : (0 : ℤ) < c.quorum := by
    unfold quorum
    omega
  unfold submitRequest
  dsimp only
  split
  · next h => exact iff_of_true rfl (by omega)
  · next h => exact iff_of_false (by decide) (by omega)

/-- The quorums of four replicas or more are those of PBFT exactly if their number is one more than
a multiple of three. -/
theorem byzantineQuorums_iff (c : PBFTCoordinator) (h : 4 ≤ c.replicas.length) :
    c.ByzantineQuorums ↔ c.replicas.length % 3 = 1 := by
  have hf := faultTolerance_eq h
  have hq : c.quorum = 2 * c.faultTolerance + 1 := rfl
  constructor
  · intro hb
    have := hb.bound
    omega
  · intro hmod
    have hbound : c.faultTolerance + 1 + c.replicas.length ≤ 2 * c.quorum := by omega
    refine ⟨fun A B hA hB => ?_, by omega, by omega, fun requestId payload k hk => ?_⟩
    · have hcard : (Finset.univ : Finset (Fin c.replicas.length)).card = c.replicas.length :=
        Finset.card_fin _
      refine (Quorum.le_card_inter_iff (U := Finset.univ) (q := c.quorum) ?_ ?_).mpr ?_
        A A.subset_univ B B.subset_univ hA hB
      · omega
      · omega
      · omega
    · rw [submitRequest_committed hk]
      omega

theorem byzantineQuorums_four : (init "a" ["a", "b", "c", "d"]).ByzantineQuorums :=
  (byzantineQuorums_iff (init "a" ["a", "b", "c", "d"]) (by decide)).mpr (by decide)

/-- With five replicas, of which two are faulty, a request commits. -/
theorem byzantineQuorums_fails :
    ¬∀ c : PBFTCoordinator, 4 ≤ c.replicas.length → c.ByzantineQuorums := by
  intro h
  have hfive := h (init "a" ["a", "b", "c", "d", "e"]) (by decide)
  have := (hfive.committed "request" [] 2 (by decide)).mp (by decide +kernel)
  revert this
  decide

end PBFTCoordinator

end DistributedSync
