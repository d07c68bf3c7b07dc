import DistributedSync.Raft.Leadership
import DistributedSync.Raft.StateMachineSafety

/-!
# What a leader knows of its peers

`match_index[p] = k`, once it is not 0, means that `p` has acknowledged the leader's log up to `k`
in the leader's term (`Knows`). As long as `p` has not gone on to a later term it still has these
entries (`matchIndex_sound`). A later leader may replace them, and the deposed leader does not hear
of it (`matchIndex_outdated`).
-/

namespace DistributedSync

open Replication Replication.World TermLog Cluster

variable {κ : Type} {cfg : ClusterConfig} {R : Rules} {c c' : Cluster κ} {ev : Event κ}
  {s s' : World String LogEntry ℤ} {i p : String}

/-- The rules of replication, without the one on commits. -/
def Rules.replication : Rules := ⟨True, True, False, fun _ _ => True, False.elim⟩

theorem obeys_replication (h : SoundReply c ev) : Obeys Rules.replication c ev where
  votes := h.1
  fenced _ := h.2.1
  entitled _ := h.2.2.1
  backed := False.elim
  admits := by cases ev <;> trivial

/-- Every `match_index` of a leader is 0 or stands for an acknowledgement in the leader's term. -/
def Knows (cfg : ClusterConfig) (c : Cluster κ) (s : World String LogEntry ℤ) : Prop :=
  ∀ i, (c.proc i).raft.state = .leader → ∀ p ∈ cfg.peers i,
    (c.proc i).raft.matchIndex p = 0 ∨ ∃ k : ℕ, (c.proc i).raft.matchIndex p = k ∧
      s.Acked p (c.proc i).raft.currentTerm k

/-- The success reply that a task of node `i` waits for is an acknowledgement of its peer, up to
the last entry that the request covers. -/
theorem Sim.reply_acked (h : Sim cfg R c s) {owner : TaskOwner} {k : ℕ} {t : RpcTask} {rpc : Rpc}
    {response : Message} (ht : ((c.proc i).tasks owner)[k]? = some t)
    (ha : c.arrived t = some (rpc, response)) (hs : response.succeeded = true) {n : ℕ}
    (hn : rpc.request.lastCovered = n) : s.Acked t.peer rpc.request.term n := by
  obtain ⟨hw, hreply⟩ := arrived_some ha
  obtain ⟨-, r, htr, hget⟩ := waitingRpc_some hw
  obtain ⟨rpc', hget', hsender, hrec, hkind, -⟩ :=
    (((h.wired.proc i).owned owner).task t (List.mem_of_getElem? ht)).sent r htr
  rw [hget, Option.some.injEq] at hget'
  subst hget'
  cases h.rpc rpc (List.mem_of_getElem? hget) with
  | ballot b hb hs' hreq hv =>
    rw [hreq] at hkind
    cases hkind
  | offer a ha' hs' hreq hack =>
    have hprev := h.matched.offer_prev a ha'
    refine ⟨a, hrec ▸ hack response hreply hs, by rw [hreq]; rfl, ?_⟩
    rw [hreq] at hn
    change ((a.prev : ℤ) - 1) + (a.log.drop a.prev).length = n at hn
    rw [List.length_drop] at hn
    omega
  | dud hreq j hi' ht' hr' =>
    rw [hr' response hreply] at hs
    cases hs

theorem Knows.step (h : Knows cfg c s) (hsim : Sim cfg R c s) (hext : s.Extends s')
    (hcur : CurrentReply c ev) (ht : Transition c ev c') : Knows cfg c' s' := by
  intro i hl p hp
  have hacked : ∀ {t : ℤ} {k : ℕ}, s.Acked p t k → s'.Acked p t k := by
    rintro t k ⟨a, ha, hat, hk⟩
    exact ⟨a, hext.acks ha, hat, hk⟩
  have hkeep : (c.proc i).raft.state = .leader →
      (c'.proc i).raft.currentTerm = (c.proc i).raft.currentTerm →
      (c'.proc i).raft.matchIndex p = (c.proc i).raft.matchIndex p →
      (c'.proc i).raft.matchIndex p = 0 ∨ ∃ k : ℕ, (c'.proc i).raft.matchIndex p = k ∧
        s'.Acked p (c'.proc i).raft.currentTerm k := by
    intro hl hterm hmatch
    rw [hterm, hmatch]
    exact (h i hl p hp).imp_right fun ⟨k, hk, hak⟩ => ⟨k, hk, hacked hak⟩
  rcases ht.leader i hl with hstill | hfresh | ⟨owner, k, raises, t, rpc, response, rfl, htask,
    harr, hsucc, hraft⟩
  · exact hkeep hstill.state hstill.currentTerm (congrFun hstill.matchIndex p)
  · have := hfresh.matchIndex
    rw [hsim.wired.peers i] at this
    exact Or.inl (this p hp)
  · have hrole := RaftNode.updateCommitIndex_sameRole
      ((c.proc i).raft.recordMatch t.peer rpc.request.lastCovered) raises
    rw [← hraft] at hrole
    have hlead : (c.proc i).raft.state = .leader := hrole.state ▸ hl
    by_cases hpt : p = t.peer
    swap
    · refine hkeep hlead hrole.currentTerm ?_
      rw [hrole.matchIndex]
      exact Function.update_of_ne hpt ..
    subst hpt
    have hnew : (c'.proc i).raft.matchIndex t.peer =
        max ((c.proc i).raft.matchIndex t.peer) rpc.request.lastCovered := by
      rw [hrole.matchIndex]
      exact Function.update_self ..
    rcases le_or_gt rpc.request.lastCovered ((c.proc i).raft.matchIndex t.peer) with hle | hlt
    · refine hkeep hlead hrole.currentTerm ?_
      rw [hnew, max_eq_left hle]
    · -- the index grows to what the request covered, and the request is of the current term
      have hnonneg : 0 ≤ (c.proc i).raft.matchIndex t.peer := by
        rcases h i hlead t.peer hp with h0 | ⟨k, hk, -⟩ <;> omega
      obtain ⟨n, hn⟩ := Int.eq_ofNat_of_zero_le (hnonneg.trans hlt.le)
      have hterm : rpc.request.term = (c.proc i).raft.currentTerm :=
        hcur t htask (rpc, response) harr hsucc hlead
      refine Or.inr ⟨n, by rw [hnew, max_eq_right hlt.le, hn], ?_⟩
      have := hsim.reply_acked htask harr hsucc hn
      rw [hterm] at this
      rw [hrole.currentTerm]
      exact hacked this

theorem Sim.of_soundReply (hr : cfg.Reach SoundReply c) :
    ∃ s, Sim cfg Rules.replication c s ∧ Knows cfg c s := by
  obtain ⟨s, -, hs⟩ := hr.simulate
    (fun c s => Sim cfg Rules.replication c s ∧ Knows cfg c s) (fun _ _ => True) cfg.start
    (fun _ => trivial) (fun _ _ _ _ _ => trivial)
    (fun t e u s hR hok hs => by
      obtain ⟨s', hm, h'⟩ := hR.1.step (obeys_replication hok) hs
      exact ⟨s', trivial, h', hR.2.step hR.1 hm.extends hok.2.2.2 (cfg.transition hs)⟩)
    ⟨Sim.init cfg _, fun i hl => NodeState.noConfusion hl⟩
  exact ⟨s, hs⟩

/-- `p` has the first `k + 1` entries of the log of `i`. -/
def Cluster.Holds (c : Cluster κ) (i p : String) (k : ℕ) : Prop :=
  k + 1 ≤ (c.proc p).raft.log.length ∧ ∀ j ≤ k,
    (c.proc p).raft.log[j]?.map LogEntry.content = (c.proc i).raft.log[j]?.map LogEntry.content

/-- A positive `match_index` is right about every peer that is not in a later term. -/
theorem matchIndex_sound (hr : cfg.Reach SoundReply c) (hl : (c.proc i).raft.state = .leader)
    (hp : p ∈ cfg.peers i) (hterm : (c.proc p).raft.currentTerm ≤ (c.proc i).raft.currentTerm)
    {k : ℕ} (hk : (c.proc i).raft.matchIndex p = k) (hk0 : k ≠ 0) : c.Holds i p k := by
  obtain ⟨s, hs, hknows⟩ := Sim.of_soundReply hr
  have hhonest : Honest (Rules.replication.protocol cfg) s :=
    Moves.honest cfg.start_start hs.run trivial trivial
  obtain ⟨n, hn, hack⟩ := (hknows i hl p hp).resolve_left (by omega)
  obtain rfl : n = k := by omega
  -- the acknowledgement is of the term that `p` is still in
  have hsame : (s.member p).term = (c.proc i).raft.currentTerm := by
    obtain ⟨a, ha, hat, -⟩ := hack
    have hle := (hhonest.ack_offer p a ha).2
    rw [hat] at hle
    refine le_antisymm ?_ hle
    rw [hs.member p]
    exact hterm
  have hbook : s.book (c.proc i).raft.currentTerm = (c.proc i).raft.log := by
    have hrole : (s.member i).role = .leader := by
      rw [hs.member i]
      show (c.proc i).raft.state.role = _
      rw [hl]
      rfl
    have := hs.matched.leader_book i hrole
    rwa [hs.member i] at this
  have hpre := hhonest.acked_prefix (hsame.symm ▸ hack)
  rw [hsame, hbook, hs.member p] at hpre
  change (c.proc i).raft.log.take (n + 1) <+: (c.proc p).raft.log at hpre
  have hlen : n < (c.proc i).raft.log.length := by
    obtain ⟨a, ha, hat, hna⟩ := hack
    have := (hhonest.offer_book a (hhonest.ack_offer p a ha).1).2.length_le
    rw [hat, hbook] at this
    omega
  have htake : ((c.proc i).raft.log.take (n + 1)).length = n + 1 := by
    rw [List.length_take]
    omega
  refine ⟨htake ▸ hpre.length_le, fun j hj => ?_⟩
  have hget : ((c.proc i).raft.log.take (n + 1))[j]? = (c.proc i).raft.log[j]? :=
    List.getElem?_take_of_lt (by omega)
  have hlt : j < ((c.proc i).raft.log.take (n + 1)).length := by
    rw [htake]
    omega
  rw [← hget, List.getElem?_eq_getElem hlt]
  exact congrArg _ (TermLog.prefix_getElem? hpre (List.getElem?_eq_getElem hlt))

theorem matchIndex_sound_replicated : ∃ c : Cluster Unit, threeNodes.Reach SoundReply c ∧
    (c.proc "a").raft.state = .leader ∧ (c.proc "a").raft.matchIndex "b" = (1 : ℕ) ∧
    c.Holds "a" "b" 1 := by
  obtain ⟨c, hr, hl, ht, hk⟩ := Runs.exists_of_checked threeNodes.step
    SoundReply threeNodes.init
    (electA ++ [submit "a" "x"] ++ push "a" (.append 0) 0 2 ++ [submit "a" "y"] ++
      push "a" (.append 1) 0 3)
    (fun c => (c.proc "a").raft.state = .leader ∧
      (c.proc "b").raft.currentTerm ≤ (c.proc "a").raft.currentTerm ∧
      (c.proc "a").raft.matchIndex "b" = (1 : ℕ)) (by decide +kernel)
  exact ⟨c, hr, hl, hk, matchIndex_sound hr hl (by decide) ht hk (by decide)⟩

/-! ## A deposed leader -/

def fiveNodes : ClusterConfig := .ofNodes ["a", "b", "c", "d", "e"] (by decide)

/-- The APPEND_ENTRIES of task `k`, RPC `r`, arrives and its answer is lost. -/
def pushUnheard (i : String) (owner : TaskOwner) (k r : ℕ) : List (Event Unit) :=
  [.sendAppend i owner k, .handleMessage r never, .appendTimeout i owner k]

/-- Leader `e` of term 2 gives all nodes a first entry, leader `a` of term 4 gives `b` a second one,
and leader `c` of term 6, elected by `d` and `e`, replaces it on `b`. -/
def deposed : List (Event Unit) :=
  stand "e" ++ ask "e" 0 0 0 ++ ask "e" 0 1 1 ++ askInVain "e" 0 2 ++ askInVain "e" 0 3 ++
    [.finishElection "e" 0, submit "e" "z"] ++ pushUnheard "e" (.append 0) 0 4 ++
    pushUnheard "e" (.append 0) 1 5 ++ pushUnheard "e" (.append 0) 2 6 ++
    pushUnheard "e" (.append 0) 3 7 ++
    stand "a" ++ ask "a" 0 0 8 ++ ask "a" 0 1 9 ++ askInVain "a" 0 2 ++ askInVain "a" 0 3 ++
    [.finishElection "a" 0, submit "a" "x"] ++ push "a" (.append 0) 0 12 ++
    stand "c" ++ ask "c" 0 2 13 ++ ask "c" 0 3 14 ++ askInVain "c" 0 0 ++ askInVain "c" 0 1 ++
    [.finishElection "c" 0, submit "c" "y"] ++ push "c" (.append 0) 1 17

/-- Even without stale replies, and with safe steps only, a leader can be wrong about a peer. -/
theorem matchIndex_outdated : ¬ ∀ (cfg : ClusterConfig) (c : Cluster Unit) (i p : String) (k : ℕ),
    cfg.Reach (fun c ev => SafeStep c ev ∧ SoundReply c ev) c →
    (c.proc i).raft.state = .leader → p ∈ cfg.peers i → (c.proc i).raft.matchIndex p = k →
    c.Holds i p k := by
  intro h
  obtain ⟨c, hr, hl, hk, ha, hb⟩ := Runs.exists_of_checked fiveNodes.step
    (fun c ev => SafeStep c ev ∧ SoundReply c ev) fiveNodes.init deposed
    (fun c => (c.proc "a").raft.state = .leader ∧
      (c.proc "a").raft.matchIndex "b" = (1 : ℕ) ∧
      (c.proc "a").raft.log[1]?.map LogEntry.command = some "x" ∧
      (c.proc "b").raft.log[1]?.map LogEntry.command = some "y") (by decide +kernel)
  have hlog := (h fiveNodes c "a" "b" 1 hr hl (by decide) hk).2 1 le_rfl
  have hcommand := congrArg (Option.map fun p : ℤ × String × Dict => p.2.1) hlog
  rw [Option.map_map, Option.map_map] at hcommand
  change (c.proc "b").raft.log[1]?.map LogEntry.command =
    (c.proc "a").raft.log[1]?.map LogEntry.command at hcommand
  rw [ha, hb] at hcommand
  exact absurd hcommand (by decide)

end DistributedSync
