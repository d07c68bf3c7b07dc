import DistributedSync.Raft.Campaign
import DistributedSync.Raft.LogOrder
import Mathlib.Data.Finset.Max
import Mathlib.Data.Prod.Lex

/-!
# A leader can always be elected

Whatever has happened to the cluster, safe steps lead on to a leader that all other nodes follow
(`electable`). Elections in progress end by timeouts (`endCampaigns`); if all nodes lead, one of
them steps down (`stepDown`); a candidate of a term above all others makes everybody else a
follower (`campaign`); and then the node with the most up-to-date log gets all votes.
-/

namespace DistributedSync

open Cluster Runs

variable {κ : Type} {cfg : ClusterConfig} {c c' : Cluster κ} {i j p : String}

/-! ## The voter -/

namespace RaftNode

variable {n m : RaftNode}

/-- The log of `n` is no more up to date than the one of `m`. -/
def NotNewer (n m : RaftNode) : Prop :=
  n.lastLogTerm < m.lastLogTerm ∨
    n.lastLogTerm = m.lastLogTerm ∧ n.lastLogIndex ≤ m.lastLogIndex

/-- `f` comes from `n` by a request for votes of term `t`. -/
structure Polled (n f : RaftNode) (t : ℤ) : Prop where
  currentTerm : f.currentTerm = t
  state : f.state = .follower
  log : f.log = n.log

/-- A node that has not voted votes for a candidate whose log is up to date. -/
theorem handleRequestVote_free {msg : Message} (hv : n.votedFor = none)
    (ht : n.currentTerm ≤ msg.term)
    (hlog : n.lastLogTerm < msg.data.lastLogTerm.getD 0 ∨
      msg.data.lastLogTerm.getD 0 = n.lastLogTerm ∧
        n.lastLogIndex ≤ msg.data.lastLogIndex.getD 0) :
    (n.handleRequestVote msg).2.granted = true := by
  unfold handleRequestVote
  dsimp only
  rw [if_neg (not_lt.mpr ht), if_neg fun h => h.2.1 hv, if_pos hlog]
  rfl

theorem handleMessage_candidate (raises : Raises) (h : n.currentTerm < m.currentTerm) :
    ∃ f r, n.handleMessage raises m.requestVoteMessage = (f, some r) ∧
      Polled n f m.currentTerm ∧ r.term = m.currentTerm ∧ (NotNewer n m → r.granted = true) := by
  obtain ⟨k, hk⟩ : ∃ k, k = n.adoptTerm m.currentTerm := ⟨_, rfl⟩
  have hadopt : k = { n with currentTerm := m.currentTerm, votedFor := none }.becomeFollower none :=
    hk.trans (if_pos h)
  have hpolled : Polled n (k.handleRequestVote m.requestVoteMessage).1 m.currentTerm := by
    rcases k.handleRequestVote_cases m.requestVoteMessage with ⟨heq, -⟩ | ⟨-, -, -, heq, -⟩ <;>
      rw [heq, hadopt] <;> exact ⟨rfl, rfl, rfl⟩
  refine ⟨_, _, handleMessage_requestVote rfl, ?_⟩
  rw [show n.adoptTerm m.requestVoteMessage.term = k from hk.symm]
  refine ⟨hpolled, (handleRequestVote_term _ _).trans hpolled.currentTerm, fun hn => ?_⟩
  refine handleRequestVote_free (by rw [hadopt]; rfl) (by rw [hadopt]; exact le_rfl) ?_
  rw [hadopt]
  exact hn.imp_right fun hn => ⟨hn.1.symm, hn.2⟩

theorem adoptTerm_self {t : ℤ} (h : t = n.currentTerm) : n.adoptTerm t = n :=
  adoptTerm_of_le h.le

/-- The nodes are ordered by how up to date their logs are. -/
theorem exists_notNewer {nodes : List String} (hne : nodes ≠ []) (raft : String → RaftNode) :
    ∃ w ∈ nodes, ∀ k ∈ nodes, NotNewer (raft k) (raft w) := by
  obtain ⟨k₀, hk₀⟩ := List.exists_mem_of_ne_nil nodes hne
  obtain ⟨w, hw, hmax⟩ := nodes.toFinset.exists_max_image
    (fun k => toLex ((raft k).lastLogTerm, (raft k).lastLogIndex))
    ⟨k₀, List.mem_toFinset.mpr hk₀⟩
  refine ⟨w, List.mem_toFinset.mp hw, fun k hk => ?_⟩
  exact Prod.Lex.toLex_le_toLex.mp (hmax k (List.mem_toFinset.mpr hk))

theorem NotNewer.congr {n' m' : RaftNode} (h : NotNewer n m) (hn : n'.log = n.log)
    (hm : m'.log = m.log) : NotNewer n' m' := by
  unfold NotNewer lastLogTerm lastLogIndex at *
  rwa [hn, hm]

end RaftNode

open RaftNode

/-! ## Frames of the steps -/

theorem reach_any {ok : Cluster κ → Event κ → Prop} (hr : cfg.Reach Any c)
    (h : Runs.Reach cfg.step ok c c') : cfg.Reach Any c' :=
  hr.trans (h.mono fun _ _ _ => trivial)

theorem Cluster.send_proc_self (c : Cluster κ) (i : String) (q : Proc κ) (peer : String)
    (m : Message) : (c.send i q peer m).proc i = q := Function.update_self ..

theorem Cluster.send_proc_of_ne (h : j ≠ i) (q : Proc κ) (peer : String) (m : Message) :
    (c.send i q peer m).proc j = c.proc j := Function.update_of_ne h ..

theorem Proc.startElection_waits {q : Proc κ} (h : q.raft.peers ≠ []) (b : Bool) :
    q.startElection b = { q.setRaft q.raft.startElection with
      elections := q.elections ++
        [{ cancelled := b, tasks := if b then [] else gather q.raft.peers }] } := by
  have hpeers : q.raft.startElection.peers = q.raft.peers := (startElection_quiet q.raft).peers
  unfold Proc.startElection
  dsimp only
  rw [hpeers, if_neg h]

theorem arrive (cfg : ClusterConfig) (hpi : p ≠ i) (q : Proc κ) {m : Message} {f : RaftNode}
    {r : Message} (hhandle : (c.proc p).raft.handleMessage never m = (f, some r)) :
    ∃ u, cfg.step (c.send i q p m) (.handleMessage c.rpcs.length never) = some u ∧
      u.proc i = q ∧ (u.proc p).raft = f ∧ (∀ k, k ≠ i → k ≠ p → u.proc k = c.proc k) ∧
      u.rpcs[c.rpcs.length]? = some ⟨i, p, m, .answered r⟩ := by
  have hrpc : (c.send i q p m).rpcs[c.rpcs.length]? =
      some { sender := i, receiver := p, request := m } := List.getElem?_concat_length
  have hp : (c.send i q p m).proc p = c.proc p := send_proc_of_ne hpi ..
  refine ⟨_, (Transition.handleMessage _ never _ hrpc rfl _ rfl).possible (by
    simp [ClusterConfig.actor]), ?_⟩
  rw [hp, hhandle]
  refine ⟨?_, ?_, fun k hki hkp => ?_, ?_⟩
  · exact (Function.update_of_ne hpi.symm ..).trans (send_proc_self ..)
  · exact congrArg Proc.raft (put_proc_self (c.send i q p m) p ((c.proc p).setRaft f))
  · exact (Function.update_of_ne hkp ..).trans (send_proc_of_ne hki ..)
  · exact List.getElem?_set_self (List.getElem?_eq_some_iff.mp hrpc).1

/-! ## Leaders step down -/

theorem stepDown (hr : cfg.Reach Any c) (hi : i ∈ cfg.nodes) (hj : j ∈ cfg.nodes) (hij : j ≠ i)
    (hl : (c.proc i).raft.state = .leader)
    (hle : (c.proc j).raft.currentTerm ≤ (c.proc i).raft.currentTerm) :
    CanReach cfg.step CleanStep c fun c' => (c'.proc j).raft.state = .follower := by
  refine (endRound hr hi hl).bind ?_
  rintro t ht ⟨⟨hother, hraft⟩, hd⟩
  have hwired := wired_of_reach (reach_any hr ht)
  have hl' : (t.proc i).raft.state = .leader := by rw [hraft, hl]
  have hactor : ∀ k ∈ (some i : Option String), k ∈ cfg.nodes := by simpa using hi
  -- a new round, its task for `j`, and the arrival there
  refine .of_step (.heartbeat i) ⟨⟨trivial, trivial, trivial, trivial⟩, fun _ => rfl⟩
    ((Transition.heartbeat i ((beats_of_reach (reach_any hr ht) i).mpr hl') hl' hd).possible
      hactor) ?_
  obtain ⟨u, hu⟩ : ∃ u, u = t.put i { t.proc i with heartbeats := gather (t.proc i).raft.peers } :=
    ⟨_, rfl⟩
  have hself : u.proc i = { t.proc i with heartbeats := gather (t.proc i).raft.peers } := by
    rw [hu, put_proc_self]
  have huj : (u.proc j).raft.currentTerm ≤ (u.proc i).raft.currentTerm := by
    rw [hself, hu, put_proc_of_ne hij, hother j hij]
    exact hraft ▸ hle
  rw [← hu]
  obtain ⟨k, hk⟩ := List.mem_iff_getElem?.mp
    ((hwired.peers i).symm ▸ (cfg.mem_peers i hi j).mpr ⟨hj, hij⟩ : j ∈ (t.proc i).raft.peers)
  have htask : ((u.proc i).tasks .heartbeat)[k]? = some { peer := j } := by
    rw [hself]
    show (gather (t.proc i).raft.peers)[k]? = _
    unfold gather
    rw [List.getElem?_map, hk]
    rfl
  have hlead : (u.proc i).raft.state = .leader := by rw [hself]; exact hl'
  refine .of_step (.sendAppend i .heartbeat k) ⟨⟨trivial, trivial, hlead, trivial⟩, fun _ => rfl⟩
    ((Transition.sendAppend i .heartbeat k _ htask rfl).possible hactor) ?_
  obtain ⟨v, hv⟩ : ∃ v, v = u.send i ((u.proc i).setTask .heartbeat k
    { peer := j, rpc := some u.rpcs.length }) j ((u.proc i).raft.appendEntriesMessage j) := ⟨_, rfl⟩
  have hrpc : v.rpcs[u.rpcs.length]? = some
      { sender := i, receiver := j, request := (u.proc i).raft.appendEntriesMessage j } := by
    rw [hv]
    exact List.getElem?_concat_length
  show CanReach cfg.step CleanStep (u.send i _ j _) _
  rw [← hv]
  refine .of_step (.handleMessage u.rpcs.length never) ⟨⟨trivial, ?_, trivial, trivial⟩,
    fun _ => rfl⟩ ((Transition.handleMessage _ never _ hrpc rfl _ rfl).possible (by
      simp [ClusterConfig.actor])) (.here ?_)
  · intro rpc hmem _ hlt
    rw [hrpc] at hmem
    cases hmem
    have hvj : v.proc j = u.proc j := by rw [hv, send_proc_of_ne hij]
    rw [hvj] at hlt
    exact absurd hlt (not_lt.mpr huj)
  · show ((Function.update v.proc j _) j).raft.state = .follower
    rw [Function.update_self]
    show ((v.proc j).raft.handleMessage never _).1.state = _
    rw [handleMessage_appendEntries rfl]
    exact (handleAppendEntries_sameRole _ never _).state.trans (acceptLeader_state _ _)

theorem exists_idle (hr : cfg.Reach Any c) (hi : i ∈ cfg.nodes) (hj : j ∈ cfg.nodes)
    (hij : i ≠ j) :
    CanReach cfg.step CleanStep c fun c' => ∃ k ∈ cfg.nodes, (c'.proc k).raft.Idle := by
  refine (endCampaigns hr).bind fun t ht hquiet => ?_
  by_cases hall : ∀ k ∈ cfg.nodes, (t.proc k).raft.state = .leader
  · -- the leader of the largest term makes another one step down
    obtain ⟨a, ha, hmax⟩ := cfg.nodes.toFinset.exists_max_image
      (fun k => (t.proc k).raft.currentTerm) ⟨i, List.mem_toFinset.mpr hi⟩
    rw [List.mem_toFinset] at ha
    obtain ⟨b, hb, hba⟩ : ∃ b ∈ cfg.nodes, b ≠ a := by
      by_cases hia : i = a
      · exact ⟨j, hj, fun h => hij (hia.trans h.symm)⟩
      · exact ⟨i, hi, hia⟩
    refine (stepDown (reach_any hr ht) ha hb hba (hall a ha)
      (hmax b (List.mem_toFinset.mpr hb))).imp fun u hu hs => ⟨b, hb, ?_⟩
    exact idle_of_follower (reach_any (reach_any hr ht) hu) hs
  · simp only [not_forall] at hall
    obtain ⟨k, hk, hs⟩ := hall
    exact .here ⟨k, hk, hs, hquiet k hk⟩

/-! ## Terms can be raised -/

section Lift

variable (hi : i ∈ cfg.nodes) (hp : cfg.peers i ≠ [])

include hi hp

theorem timeout (hr : cfg.Reach Any c) (hidle : (c.proc i).raft.Idle) :
    CanReach cfg.step CleanStep c fun c' => (∀ k, k ≠ i → c'.proc k = c.proc k) ∧
      (c'.proc i).raft = (c.proc i).raft.startElection.endElection := by
  have hne : (c.proc i).raft.peers ≠ [] := by rwa [(wired_of_reach hr).peers]
  have hactor : ∀ k ∈ (some i : Option String), k ∈ cfg.nodes := by simpa using hi
  refine .of_step (.electionTimeout i) ⟨⟨trivial, trivial, trivial, trivial⟩, fun _ => rfl⟩
    ((Transition.electionTimeout i hidle.notLeader hidle.electionInProgress).possible hactor) ?_
  obtain ⟨q, hq⟩ : ∃ q, q = (c.proc i).startElection true := ⟨_, rfl⟩
  rw [← hq]
  rw [Proc.startElection_waits hne] at hq
  have hf : ((c.put i q).proc i).elections[(c.proc i).elections.length]? =
      some { cancelled := true, tasks := [] } := by
    rw [put_proc_self, hq]
    exact List.getElem?_concat_length
  refine .of_step (.finishElection i _) ⟨⟨?_, trivial, trivial, trivial⟩, fun _ => rfl⟩
    ((Transition.cancelElection i _ _ hf rfl).possible hactor) (.here ⟨fun k hk => ?_, ?_⟩)
  · intro f hmem _ hquorum
    rw [hf] at hmem
    cases hmem
    exact hquorum
  · rw [put_proc_of_ne hk, put_proc_of_ne hk]
  · rw [put_proc_self, put_proc_self, hq]
    rfl

/-- An idle node becomes a candidate of a term as large as one likes. -/
theorem raiseTerm (hr : cfg.Reach Any c) (hidle : (c.proc i).raft.Idle) (bound : ℤ) :
    CanReach cfg.step CleanStep c fun c' => ((∀ k, k ≠ i → c'.proc k = c.proc k) ∧
      (c'.proc i).raft.state = .candidate ∧ (c'.proc i).raft.electionInProgress = false ∧
      (c'.proc i).raft.log = (c.proc i).raft.log) ∧ bound ≤ (c'.proc i).raft.currentTerm := by
  have honce : ∀ t, cfg.Reach Any t → (t.proc i).raft.Idle →
      (∀ k, k ≠ i → t.proc k = c.proc k) → (t.proc i).raft.log = (c.proc i).raft.log →
      CanReach cfg.step CleanStep t fun u =>
        ((∀ k, k ≠ i → u.proc k = c.proc k) ∧ (u.proc i).raft.state = .candidate ∧
          (u.proc i).raft.electionInProgress = false ∧
          (u.proc i).raft.log = (c.proc i).raft.log) ∧
        (u.proc i).raft.currentTerm = (t.proc i).raft.currentTerm + 1 := by
    intro t ht hidle hother hlog
    refine (timeout hi hp ht hidle).imp ?_
    rintro u - ⟨hother', hraft⟩
    rw [startElection_eq hidle.electionInProgress] at hraft
    rw [hraft]
    exact ⟨⟨fun k hk => (hother' k hk).trans (hother k hk), rfl, rfl, hlog⟩, rfl⟩
  refine (honce c hr hidle (fun _ _ => rfl) rfl).bind ?_
  rintro t ht ⟨hcand, -⟩
  refine CanReach.descend (fun u => (bound - (u.proc i).raft.currentTerm).toNat) hcand ?_
  rintro u hu ⟨hother, hs, he, hlog⟩
  by_cases hle : bound ≤ (u.proc i).raft.currentTerm
  · exact Or.inl hle
  · refine Or.inr ((honce u (reach_any (reach_any hr ht) hu) ⟨by simp [hs], he⟩ hother
      hlog).imp ?_)
    rintro v - ⟨hcand, hterm⟩
    exact ⟨hcand, by omega⟩

end Lift

/-! ## Campaigns -/

theorem gather_cons (p : String) (rest : List String) :
    gather (p :: rest) = { peer := p } :: gather rest := rfl

theorem getElem?_asked (asked : List RpcTask) (t : RpcTask) (rest : List RpcTask) :
    (asked ++ t :: rest)[asked.length]? = some t := by
  rw [List.getElem?_append_right le_rfl, Nat.sub_self]
  rfl

theorem set_asked (asked : List RpcTask) (t t' : RpcTask) (rest : List RpcTask) :
    (asked ++ t :: rest).set asked.length t' = asked ++ t' :: rest := by
  rw [List.set_append_right _ _ le_rfl, Nat.sub_self]
  rfl

theorem ask_one (hi : i ∈ cfg.nodes) {e : ℕ} {asked : List RpcTask} {rest : List String}
    (hpi : p ≠ i)
    (hf : (c.proc i).elections[e]? = some ⟨false, asked ++ gather (p :: rest)⟩)
    (ht : (c.proc p).raft.currentTerm < (c.proc i).raft.currentTerm) :
    CanReach cfg.step CleanStep c fun c' => (c'.proc i).raft = (c.proc i).raft ∧
      (c'.proc i).elections.length = (c.proc i).elections.length ∧
      (∃ task, (c'.proc i).elections[e]? = some ⟨false, (asked ++ [task]) ++ gather rest⟩ ∧
        task.result ≠ none ∧
        (NotNewer (c.proc p).raft (c.proc i).raft → task.result = some true)) ∧
      Polled (c.proc p).raft (c'.proc p).raft (c.proc i).raft.currentTerm ∧
      ∀ k, k ≠ i → k ≠ p → c'.proc k = c.proc k := by
  obtain ⟨f, r, hhandle, hpolled, hterm, hgrant⟩ := handleMessage_candidate never ht
  have hactor : ∀ k ∈ (some i : Option String), k ∈ cfg.nodes := by simpa using hi
  rw [gather_cons] at hf
  -- the request goes out
  have htask : c.voteTask i e asked.length = some { peer := p } := by
    unfold voteTask
    rw [hf, Option.bind_some]
    exact getElem?_asked ..
  refine .of_step (.requestVote i e asked.length) ⟨⟨trivial, trivial, trivial, trivial⟩,
    fun _ => rfl⟩ ((Transition.requestVote i e _ _ htask rfl).possible hactor) ?_
  -- it arrives
  obtain ⟨u, hs, hui, hup, huk, hrpc⟩ := arrive cfg hpi
    ((c.proc i).setVoteTask e asked.length { peer := p, rpc := some c.rpcs.length }) hhandle
  refine .of_step (.handleMessage c.rpcs.length never) ⟨⟨trivial, ?_, trivial, trivial⟩,
    fun _ => rfl⟩ hs ?_
  · intro rpc hmem htype
    rw [show (c.send i _ p _).rpcs[c.rpcs.length]? = _ from List.getElem?_concat_length] at hmem
    cases hmem
    cases htype
  -- the answer comes back
  have helec := Proc.setVoteTask_elections (k := asked.length) hf
    { peer := p, rpc := some c.rpcs.length }
  rw [set_asked, ← hui] at helec
  have htask' : u.voteTask i e asked.length = some { peer := p, rpc := some c.rpcs.length } := by
    unfold voteTask
    rw [helec, Option.bind_some]
    exact getElem?_asked ..
  have harr : u.arrived { peer := p, rpc := some c.rpcs.length } =
      some (⟨i, p, (c.proc i).raft.requestVoteMessage, .answered r⟩, r) := by
    unfold arrived waitingRpc rpcOf
    rw [if_pos rfl, Option.bind_some, hrpc]
    rfl
  have hraft : (u.proc i).raft = (c.proc i).raft := by
    rw [hui]
    rfl
  have hsame : ((u.proc i).raft.voteReply r).1 = (c.proc i).raft := by
    rw [hraft]
    exact adoptTerm_self hterm
  refine .of_step (.voteResponse i e asked.length) ⟨⟨trivial, trivial, trivial, trivial⟩,
    fun _ => rfl⟩ ((Transition.voteResponse i e _ _ _ r htask' harr).possible hactor)
    (.here ⟨?_, ?_, ?_, ?_, fun k hki hkp => ?_⟩)
  · rw [put_proc_self, Proc.setRaft_raft, hsame]
  · rw [put_proc_self, Proc.setRaft_elections, hui]
    exact (List.length_modify ..).trans (List.length_modify ..)
  · have := Proc.setVoteTask_elections (k := asked.length) helec
      { peer := p, rpc := some c.rpcs.length, result := some ((u.proc i).raft.voteReply r).2 }
    rw [set_asked] at this
    rw [put_proc_self, Proc.setRaft_elections, this]
    refine ⟨_, by rw [List.append_assoc]; rfl, by simp, fun hn => ?_⟩
    exact congrArg some (hgrant hn)
  · rw [put_proc_of_ne hpi, hup]
    exact hpolled
  · rw [put_proc_of_ne hki, huk k hki hkp]

/-- What the polls of the peers in `polled` leave behind, those in `rest` being still to come. -/
structure PolledSo (c : Cluster κ) (i : String) (e : ℕ) (polled rest : List String)
    (c' : Cluster κ) : Prop where
  raft : (c'.proc i).raft = (c.proc i).raft
  length : (c'.proc i).elections.length = (c.proc i).elections.length
  frame : ∃ asked, (c'.proc i).elections[e]? = some ⟨false, asked ++ gather rest⟩ ∧
    allDone asked ∧ ((∀ p ∈ polled, NotNewer (c.proc p).raft (c.proc i).raft) →
      granted asked = polled.length)
  voters : ∀ p ∈ polled, Polled (c.proc p).raft (c'.proc p).raft (c.proc i).raft.currentTerm
  others : ∀ k, k ≠ i → k ∉ polled → c'.proc k = c.proc k

theorem PolledSo.next (hi : i ∈ cfg.nodes) {e : ℕ} {polled rest : List String} {t : Cluster κ}
    (hpeers : i ∉ polled ++ p :: rest) (hnodup : (polled ++ p :: rest).Nodup)
    (hlt : (c.proc p).raft.currentTerm < (c.proc i).raft.currentTerm)
    (h : PolledSo c i e polled (p :: rest) t) :
    CanReach cfg.step CleanStep t (PolledSo c i e (polled ++ [p]) rest) := by
  have hpi : p ≠ i := fun h => hpeers (h ▸ List.mem_append_right _ List.mem_cons_self)
  have hp : p ∉ polled := fun h => (List.nodup_append.mp hnodup).2.2 p h p List.mem_cons_self rfl
  have hsame : (t.proc p).raft = (c.proc p).raft := by rw [h.others p hpi hp]
  obtain ⟨asked, hf, hasked, hgrant⟩ := h.frame
  refine (ask_one hi hpi hf (by rwa [hsame, h.raft])).imp ?_
  rintro u - ⟨hraft, hlen, ⟨task, hf', hdone, hvote⟩, hpolled, hother⟩
  rw [hsame, h.raft] at hvote hpolled
  refine ⟨hraft.trans h.raft, hlen.trans h.length, ⟨asked ++ [task], hf', ?_, fun hn => ?_⟩,
    fun k hk => ?_, fun k hki hk => ?_⟩
  · exact List.forall_mem_append.mpr ⟨hasked, List.forall_mem_singleton.mpr hdone⟩
  · obtain ⟨hn, hnp⟩ := List.forall_mem_append.mp hn
    have hcount : granted (asked ++ [task]) = granted asked + 1 := by
      unfold granted
      rw [List.countP_append, List.countP_singleton, hvote (hnp p (List.mem_singleton_self p))]
      rfl
    rw [hcount, hgrant hn, List.length_append, List.length_singleton]
  · rcases List.mem_append.mp hk with hk | hk
    · rw [hother k (fun h => hpeers (h ▸ List.mem_append_left _ hk)) fun h => hp (h ▸ hk)]
      exact h.voters k hk
    · rw [List.mem_singleton.mp hk]
      exact hpolled
  · rw [List.mem_append, List.mem_singleton, not_or] at hk
    rw [hother k hki hk.2]
    exact h.others k hki hk.1

/-- What a candidate's election in the next term leaves behind. -/
structure Campaigned (cfg : ClusterConfig) (c : Cluster κ) (i : String) (c' : Cluster κ) :
    Prop where
  raft : ∃ votes, (c'.proc i).raft = (c.proc i).raft.startElection.finishElection votes ∧
    ((∀ p ∈ cfg.peers i, NotNewer (c.proc p).raft (c.proc i).raft) →
      votes = 1 + (cfg.peers i).length)
  heartbeats : (c'.proc i).heartbeats = []
  voters : ∀ p ∈ cfg.peers i,
    Polled (c.proc p).raft (c'.proc p).raft ((c.proc i).raft.currentTerm + 1)

/-- A candidate that no peer is ahead of makes all peers followers of the next term. -/
theorem campaign (hr : cfg.Reach Any c) (hi : i ∈ cfg.nodes) (hp : cfg.peers i ≠ [])
    (hs : (c.proc i).raft.state = .candidate)
    (he : (c.proc i).raft.electionInProgress = false)
    (hle : ∀ p ∈ cfg.peers i, (c.proc p).raft.currentTerm ≤ (c.proc i).raft.currentTerm) :
    CanReach cfg.step CleanStep c (Campaigned cfg c i) := by
  have hwired := wired_of_reach hr
  have hpeers := hwired.peers i
  have hactor : ∀ k ∈ (some i : Option String), k ∈ cfg.nodes := by simpa using hi
  have hself : i ∉ cfg.peers i := fun h => ((cfg.mem_peers i hi i).mp h).2 rfl
  have hstep : cfg.step c (.raftProcessor i) = some (c.put i ((c.proc i).startElection false)) :=
    (Transition.raftProcessor i hs he).possible hactor
  refine .of_step (.raftProcessor i) ⟨⟨trivial, trivial, trivial, trivial⟩, fun _ => rfl⟩ hstep ?_
  have hreach : cfg.Reach Any (c.put i ((c.proc i).startElection false)) :=
    hr.tail _ trivial hstep
  obtain ⟨t, ht⟩ : ∃ t, t = c.put i ((c.proc i).startElection false) := ⟨_, rfl⟩
  rw [← ht] at hreach ⊢
  have hti : t.proc i = (c.proc i).startElection false := by rw [ht, put_proc_self]
  rw [Proc.startElection_waits (by rwa [hpeers])] at hti
  have htk : ∀ k, k ≠ i → t.proc k = c.proc k := fun k hk => by rw [ht, put_proc_of_ne hk]
  have hraft : (t.proc i).raft = (c.proc i).raft.startElection := by rw [hti]; rfl
  have hterm : (t.proc i).raft.currentTerm = (c.proc i).raft.currentTerm + 1 := by
    rw [hraft, startElection_eq he]
  have hlen : (t.proc i).elections.length = (c.proc i).elections.length + 1 := by
    rw [hti]
    exact List.length_append
  -- all peers are polled
  refine (CanReach.each (l := cfg.peers i) (I := PolledSo t i (c.proc i).elections.length) ?_
    ?_).bind ?_
  · intro polled p rest u hl _ hI
    have hmem : p ∈ cfg.peers i := hl ▸ List.mem_append_right polled List.mem_cons_self
    refine hI.next hi (by rwa [hl]) (hl ▸ cfg.peers_nodup i hi) ?_
    rw [htk p fun h => hself (h ▸ hmem), hterm]
    exact Int.lt_add_one_of_le (hle p hmem)
  · refine ⟨rfl, rfl, ⟨[], ?_, List.forall_mem_nil _, fun _ => rfl⟩, List.forall_mem_nil _,
      fun _ _ _ => rfl⟩
    rw [hti, ← hpeers]
    exact List.getElem?_concat_length
  · -- and the votes are counted
    rintro u hu ⟨hraft', hlen', ⟨asked, hf, hasked, hgrant⟩, hvoters, -⟩
    rw [show gather [] = [] from rfl, List.append_nil] at hf
    have hru := reach_any hreach hu
    have hactor' : ∀ k ∈ ClusterConfig.actor
        (.finishElection i (c.proc i).elections.length : Event κ), k ∈ cfg.nodes := hactor
    refine .of_step (.finishElection i _) ⟨⟨?_, trivial, trivial, trivial⟩, fun _ => rfl⟩
      ((Transition.finishElection i _ _ hf rfl hasked).possible hactor') (.here ⟨?_, ?_, ?_⟩)
    · intro f hmem _ hq
      rw [hf] at hmem
      cases hmem
      have heu : (u.proc i).raft.electionInProgress = true := by
        rw [hraft', hraft, startElection_eq he]
      obtain ⟨g, hg, hsent⟩ := (AllCampaign.reach hru i heu).last
      rw [List.getLast?_eq_getElem?, hlen', hlen, Nat.add_sub_cancel, hf] at hg
      cases hg
      have hwu := (((wired_of_reach hru).proc i).election _ (List.mem_of_getElem? hf)).task
      rwa [grantedIn_eq hsent fun task hmem => (hwu task hmem).unsent]
    · refine ⟨1 + granted asked, ?_, fun hn => ?_⟩
      · rw [put_proc_self, Proc.setRaft_raft, hraft', hraft]
      · rw [hgrant fun p hp => ?_]
        have hpi : p ≠ i := fun h => hself (h ▸ hp)
        rw [htk p hpi, hraft]
        refine (hn p hp).congr rfl ?_
        rw [startElection_eq he]
    · rw [put_proc_self]
      show (if (u.proc i).raft.heartbeatTimer ∧ _ then (u.proc i).heartbeats else []) = []
      refine if_neg fun hb => ?_
      have hlead := (beats_of_reach hru i).mp hb.1
      rw [hraft', hraft, startElection_eq he] at hlead
      cases hlead
    · intro p hp
      have hpi : p ≠ i := fun h => hself (h ▸ hp)
      have := hvoters p hp
      rw [htk p hpi, hterm] at this
      rwa [put_proc_of_ne hpi]

/-! ## The election -/

/-- Node `i` leads, all other nodes follow in its term, and no log is ahead of its own. -/
structure Commands (cfg : ClusterConfig) (c : Cluster κ) (i : String) : Prop where
  leader : (c.proc i).raft.state = .leader
  followers : ∀ j ∈ cfg.nodes, j ≠ i → (c.proc j).raft.state = .follower ∧
    (c.proc j).raft.currentTerm = (c.proc i).raft.currentTerm
  upToDate : ∀ j ∈ cfg.nodes, NotNewer (c.proc j).raft (c.proc i).raft

structure NewLeader (cfg : ClusterConfig) (c : Cluster κ) (i : String) : Prop extends
    Commands cfg c i where
  earlier : ∀ j ∈ cfg.nodes, ∀ e ∈ (c.proc j).raft.log, e.term < (c.proc i).raft.currentTerm
  nextIndex : ∀ p ∈ cfg.peers i, (c.proc i).raft.nextIndex p = (c.proc i).raft.log.length
  matchIndex : ∀ p ∈ cfg.peers i, (c.proc i).raft.matchIndex p = 0
  heartbeats : (c.proc i).heartbeats = []

theorem RaftNode.NotNewer.refl (n : RaftNode) : NotNewer n n := Or.inr ⟨rfl, le_rfl⟩

/-- The candidate with the most up-to-date log wins. -/
theorem Campaigned.won (h : Campaigned cfg c i c') (hr : cfg.Reach Any c) (hi : i ∈ cfg.nodes)
    (hp : cfg.peers i ≠ []) (he : (c.proc i).raft.electionInProgress = false)
    (hle : ∀ p ∈ cfg.peers i, (c.proc p).raft.currentTerm ≤ (c.proc i).raft.currentTerm)
    (hn : ∀ p ∈ cfg.peers i, NotNewer (c.proc p).raft (c.proc i).raft) : NewLeader cfg c' i := by
  have hpeers := (wired_of_reach hr).peers i
  obtain ⟨votes, hraft, hvotes⟩ := h.raft
  have hquorum : (c.proc i).raft.startElection.quorumSize ≤ 1 + (cfg.peers i).length := by
    have hpos := List.length_pos_iff.mpr hp
    unfold quorumSize
    rw [(startElection_quiet _).peers, hpeers]
    omega
  rw [hvotes hn] at hraft
  unfold finishElection at hraft
  rw [if_pos ⟨by rw [startElection_eq he], hquorum⟩, startElection_eq he] at hraft
  have hlog : (c'.proc i).raft.log = (c.proc i).raft.log := by rw [hraft]; rfl
  have hterm : (c'.proc i).raft.currentTerm = (c.proc i).raft.currentTerm + 1 := by rw [hraft]; rfl
  have hvoter : ∀ j ∈ cfg.nodes, j ≠ i → j ∈ cfg.peers i := fun j hj hji =>
    (cfg.mem_peers i hi j).mpr ⟨hj, hji⟩
  have hordered := fun j => (OrderedLogs.reach hr).node j
  refine ⟨⟨by rw [hraft]; rfl, fun j hj hji => ?_, fun j hj => ?_⟩, fun j hj e he => ?_,
    fun p hp => ?_, fun p hp => ?_, h.heartbeats⟩
  · have hv := h.voters j (hvoter j hj hji)
    exact ⟨hv.state, hv.currentTerm.trans hterm.symm⟩
  · by_cases hji : j = i
    · rw [hji]
      exact .refl _
    · exact (hn j (hvoter j hj hji)).congr (h.voters j (hvoter j hj hji)).log hlog
  · rw [hterm]
    refine Int.lt_add_one_of_le ?_
    by_cases hji : j = i
    · rw [hji, hlog] at he
      exact (hordered i).le e he
    · rw [(h.voters j (hvoter j hj hji)).log] at he
      exact ((hordered j).le e he).trans (hle j (hvoter j hj hji))
  · rw [hraft]
    exact if_pos (by rwa [hpeers])
  · rw [hraft]
    exact if_pos (by rwa [hpeers])

theorem Campaigned.currentTerm (h : Campaigned cfg c i c')
    (he : (c.proc i).raft.electionInProgress = false) :
    (c'.proc i).raft.currentTerm = (c.proc i).raft.currentTerm + 1 ∧
      (c'.proc i).raft.log = (c.proc i).raft.log := by
  obtain ⟨votes, hraft, -⟩ := h.raft
  rw [startElection_eq he] at hraft
  rw [hraft, (finishElection_sameLog _ votes).log]
  refine ⟨?_, rfl⟩
  rcases finishElection_cases _ votes with heq | ⟨-, -, heq⟩ <;> rw [heq] <;> rfl

/-- A node that is idle brings everybody into one term, in which the best log can win. -/
theorem electFrom (hr : cfg.Reach Any c) (hi : i ∈ cfg.nodes) (hidle : (c.proc i).raft.Idle)
    (hp : ∀ j ∈ cfg.nodes, cfg.peers j ≠ []) :
    CanReach cfg.step CleanStep c fun c' => ∃ w ∈ cfg.nodes, NewLeader cfg c' w := by
  have hmem : ∀ {j p : String}, j ∈ cfg.nodes → p ∈ cfg.peers j → p ∈ cfg.nodes ∧ p ≠ j :=
    fun hj hp => (cfg.mem_peers _ hj _).mp hp
  obtain ⟨a, ha, hmax⟩ := cfg.nodes.toFinset.exists_max_image
    (fun k => (c.proc k).raft.currentTerm) ⟨i, List.mem_toFinset.mpr hi⟩
  refine (raiseTerm hi (hp i hi) hr hidle (c.proc a).raft.currentTerm).bind ?_
  rintro t ht ⟨⟨hother, hs, he, -⟩, hle⟩
  have hrt := reach_any hr ht
  have hterms : ∀ p ∈ cfg.peers i,
      (t.proc p).raft.currentTerm ≤ (t.proc i).raft.currentTerm := by
    intro p hmemp
    obtain ⟨hpn, hpi⟩ := hmem hi hmemp
    rw [hother p hpi]
    exact (hmax p (List.mem_toFinset.mpr hpn)).trans hle
  refine (campaign hrt hi (hp i hi) hs he hterms).bind fun u hu hc => ?_
  obtain ⟨hterm, hlog⟩ := hc.currentTerm he
  have hru := reach_any hrt hu
  have hall : ∀ j ∈ cfg.nodes, (u.proc j).raft.currentTerm = (t.proc i).raft.currentTerm + 1 := by
    intro j hj
    by_cases hji : j = i
    · rw [hji]
      exact hterm
    · exact (hc.voters j ((cfg.mem_peers i hi j).mpr ⟨hj, hji⟩)).currentTerm
  obtain ⟨w, hw, hbest⟩ := exists_notNewer (List.ne_nil_of_mem hi) fun k => (u.proc k).raft
  by_cases hwi : w = i
  · -- the candidate itself had the best log
    subst hwi
    refine .here ⟨w, hw, hc.won hrt hw (hp w hw) he hterms fun p hmemp => ?_⟩
    exact (hbest p (hmem hw hmemp).1).congr (hc.voters p hmemp).log.symm hlog.symm
  · have hvoter := hc.voters w ((cfg.mem_peers i hi w).mpr ⟨hw, hwi⟩)
    refine (raiseTerm hw (hp w hw) hru (idle_of_follower hru hvoter.state)
      ((t.proc i).raft.currentTerm + 1)).bind ?_
    rintro v hv ⟨⟨hother', hs', he', hlog'⟩, hle'⟩
    have hrv := reach_any hru hv
    have hterms' : ∀ p ∈ cfg.peers w,
        (v.proc p).raft.currentTerm ≤ (v.proc w).raft.currentTerm := by
      intro p hmemp
      obtain ⟨hpn, hpw⟩ := hmem hw hmemp
      rw [hother' p hpw, hall p hpn]
      exact hle'
    refine (campaign hrv hw (hp w hw) hs' he' hterms').imp fun x _ hc' => ?_
    refine ⟨w, hw, hc'.won hrv hw (hp w hw) he' hterms' fun p hmemp => ?_⟩
    obtain ⟨hpn, hpw⟩ := hmem hw hmemp
    exact (hbest p hpn).congr (by rw [hother' p hpw]) hlog'

/-- In a cluster of at least two nodes a new leader can always be elected. -/
theorem exists_newLeader (hr : cfg.Reach Any c) (hi : i ∈ cfg.nodes) (hj : j ∈ cfg.nodes)
    (hij : i ≠ j) :
    CanReach cfg.step CleanStep c fun c' => ∃ w ∈ cfg.nodes, NewLeader cfg c' w := by
  have hp : ∀ k ∈ cfg.nodes, cfg.peers k ≠ [] := by
    intro k hk
    by_cases hki : k = i
    · exact List.ne_nil_of_mem ((cfg.mem_peers k hk j).mpr ⟨hj, fun h => hij (hki ▸ h.symm)⟩)
    · exact List.ne_nil_of_mem ((cfg.mem_peers k hk i).mpr ⟨hi, fun h => hki h.symm⟩)
  refine (exists_idle hr hi hj hij).bind ?_
  rintro t ht ⟨k, hk, hidle⟩
  exact electFrom (reach_any hr ht) hk hidle hp

theorem electLone (hr : cfg.Reach Any c) (hi : i ∈ cfg.nodes) (hp : cfg.peers i = []) :
    CanReach cfg.step CleanStep c (Commands cfg · i) := by
  have hlone : ∀ j ∈ cfg.nodes, j = i := by
    intro j hj
    by_contra hji
    have := (cfg.mem_peers i hi j).mpr ⟨hj, hji⟩
    rw [hp] at this
    cases this
  have hdone : ∀ {u : Cluster κ}, (u.proc i).raft.state = .leader → Commands cfg u i := fun hl =>
    ⟨hl, fun j hj hji => absurd (hlone j hj) hji, fun j hj => hlone j hj ▸ .refl _⟩
  refine (endCampaigns hr).bind fun t ht hquiet => ?_
  by_cases hl : (t.proc i).raft.state = .leader
  · exact .here (hdone hl)
  · have hactor : ∀ k ∈ (some i : Option String), k ∈ cfg.nodes := by simpa using hi
    have hpeers : (t.proc i).raft.startElection.peers = [] := by
      rw [(startElection_quiet _).peers, (wired_of_reach (reach_any hr ht)).peers, hp]
    refine .of_step (.electionTimeout i) ⟨⟨trivial, trivial, trivial, trivial⟩, fun _ => rfl⟩
      ((Transition.electionTimeout i hl (hquiet i hi)).possible hactor) (.here (hdone ?_))
    rw [put_proc_self, Proc.startElection_raft, if_pos hpeers]
    unfold finishElection quorumSize
    rw [hpeers, startElection_eq (hquiet i hi), if_pos ⟨rfl, le_rfl⟩]
    rfl

/-- From every state that a cluster reaches, whatever messages were lost, late or refused on the
way there, safe steps lead on to a leader that all other nodes follow. -/
theorem electable (hr : cfg.Reach Any c) (hne : cfg.nodes ≠ []) :
    CanReach cfg.step CleanStep c fun c' => ∃ w ∈ cfg.nodes, Commands cfg c' w := by
  obtain ⟨i, hi⟩ := List.exists_mem_of_ne_nil _ hne
  by_cases hp : cfg.peers i = []
  · exact (electLone hr hi hp).imp fun u _ h => ⟨i, hi, h⟩
  · obtain ⟨j, hj⟩ := List.exists_mem_of_ne_nil _ hp
    obtain ⟨hj, hji⟩ := (cfg.mem_peers i hi j).mp hj
    exact (exists_newLeader hr hi hj hji.symm).imp fun u _ ⟨w, hw, h⟩ => ⟨w, hw, h.toCommands⟩

/-- Also where two nodes lead one term. -/
theorem electable_twoLeaders : ∃ c : Cluster Unit, threeNodes.Reach Any c ∧
    (c.LeaderIn "a" 4 ∧ c.LeaderIn "b" 4) ∧
    CanReach threeNodes.step CleanStep c fun c' => ∃ w ∈ threeNodes.nodes,
      Commands threeNodes c' w := by
  obtain ⟨c, hr, hl⟩ := exists_of_runList threeNodes.step threeNodes.init twoLeaders
    (fun c => c.LeaderIn "a" 4 ∧ c.LeaderIn "b" 4) (by decide +kernel)
  exact ⟨c, hr, hl, electable hr (by decide)⟩

end DistributedSync
