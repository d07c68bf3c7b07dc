import DistributedSync.Library.Quorum
import DistributedSync.Raft.Leadership
import DistributedSync.Raft.LogMatching

/-!
# Acknowledged entries

`append_entry` returns True after its round of RPCs, whatever their results, and without a look at
the node it returns to. `acknowledged_committed`: the entry is committed when the node is still the
leader of the entry's term and a quorum of the round has succeeded, as long as no success reply
covers more than the leader's log.
-/

namespace DistributedSync

open Cluster RaftNode

variable {κ : Type} {cfg : ClusterConfig} {c c' : Cluster κ} {ev : Event κ} {i : String}

/-! ## Returns and conditions -/

namespace Cluster

/-- The node on which the step returns True from `append_entry`, and the entry of the call. -/
def acknowledged (c : Cluster κ) : Event κ → Option (String × LogEntry)
  | .appendEntry i command data _ raises =>
    if ((c.proc i).raft.appendEntry raises command data).2 = some true then
      some (i, (c.proc i).raft.newEntry command data)
    else none
  | .returnAppend i j => (c.proc i).appendCalls[j]?.map fun call => (i, call.entry)
  | _ => none

/-- Entry `e` is at its index in the log of node `i`, and committed there. -/
def Committed (c : Cluster κ) (i : String) (e : LogEntry) : Prop :=
  0 ≤ e.index ∧ getItem (c.proc i).raft.log e.index = some e ∧
    e.index ≤ (c.proc i).raft.commitIndex

end Cluster

/-- A success reply that reaches a leader covers no position beyond its log. -/
def CoveredReply (c : Cluster κ) : Event κ → Prop
  | .appendResponse i owner k _ => ∀ t ∈ ((c.proc i).tasks owner)[k]?, ∀ ra ∈ c.arrived t,
      ra.2.succeeded = true → (c.proc i).raft.state = .leader →
      ra.1.request.lastCovered < (c.proc i).raft.log.length
  | _ => True

/-- `append_entry` returns to the leader of the entry's term, and with the leader a quorum has
answered its round with success. -/
def QuorumReturn (c : Cluster κ) : Event κ → Prop
  | .returnAppend i j => ∀ call ∈ (c.proc i).appendCalls[j]?,
      (c.proc i).raft.state = .leader ∧ (c.proc i).raft.currentTerm = call.entry.term ∧
      (c.proc i).raft.quorumSize ≤ 1 + granted call.tasks
  | _ => True

/-- A step that acknowledges a replicated entry, if it acknowledges one. -/
def SoundReturn (c : Cluster κ) (ev : Event κ) : Prop := CoveredReply c ev ∧ QuorumReturn c ev

instance (c : Cluster κ) (ev : Event κ) : Decidable (CoveredReply c ev) := by
  rcases ev <;> dsimp only [CoveredReply] <;> infer_instance

instance (c : Cluster κ) (ev : Event κ) : Decidable (QuorumReturn c ev) := by
  rcases ev <;> dsimp only [QuorumReturn] <;> infer_instance

instance (c : Cluster κ) (ev : Event κ) : Decidable (SoundReturn c ev) :=
  inferInstanceAs (Decidable (_ ∧ _))

/-! ## The commit rule -/

namespace RaftNode

variable {n n' : RaftNode} {idx : ℤ} {raises : Raises}

theorem le_commitCandidate (hself : idx ≤ n.lastLogIndex)
    (hq : n.quorumSize ≤ 1 + n.peers.countP fun p => idx ≤ n.matchIndex p) :
    idx ≤ n.commitCandidate := by
  have hcount : (n.peers.map n.matchIndex ++ [n.lastLogIndex]).countP (idx ≤ ·) =
      (n.peers.countP fun p => idx ≤ n.matchIndex p) + 1 := by
    rw [List.countP_append, List.countP_map, List.countP_singleton,
      if_pos (decide_eq_true hself)]
    rfl
  have hlen : (n.peers.map n.matchIndex ++ [n.lastLogIndex]).length = n.peers.length + 1 := by
    rw [List.length_append, List.length_map, List.length_singleton]
  unfold quorumSize at hq
  unfold commitCandidate
  dsimp only
  rw [List.length_insertionSort]
  exact Quorum.le_getD_insertionSort (by omega) _ (by omega)

theorem commitCandidate_lt (h : ∀ p ∈ n.peers, n.matchIndex p < n.log.length) :
    n.commitCandidate < n.log.length := by
  unfold commitCandidate
  dsimp only
  rw [List.getD_eq_getElem _ _ (by simp; omega)]
  have hmem := (List.mem_insertionSort (· ≤ ·)).mp
    (List.getElem_mem (l := (n.peers.map n.matchIndex ++ [n.lastLogIndex]).insertionSort (· ≤ ·))
      (n := ((n.peers.map n.matchIndex ++ [n.lastLogIndex]).insertionSort (· ≤ ·)).length / 2)
      (by simp; omega))
  rcases List.mem_append.mp hmem with hmem | hmem
  · obtain ⟨p, hp, hpk⟩ := List.mem_map.mp hmem
    rw [← hpk]
    exact h p hp
  · rw [List.mem_singleton.mp hmem]
    unfold lastLogIndex
    omega

/-- A leader that a quorum has followed up to `idx`, from where on all entries are its own, has
committed `idx` after `_update_commit_index`. -/
theorem le_updateCommitIndex {k : ℕ} (hl : n.state = .leader) (hk : k < n.log.length)
    (hown : ∀ j e, k ≤ j → n.log[j]? = some e → e.term = n.currentTerm)
    (hlt : ∀ p ∈ n.peers, n.matchIndex p < n.log.length)
    (hq : n.quorumSize ≤ 1 + n.peers.countP fun p => (k : ℤ) ≤ n.matchIndex p) :
    (k : ℤ) ≤ (n.updateCommitIndex raises).1.commitIndex := by
  have hle : (k : ℤ) ≤ n.commitCandidate := le_commitCandidate (by unfold lastLogIndex; omega) hq
  unfold updateCommitIndex
  rw [if_neg (not_not.mpr hl)]
  split
  · obtain ⟨a, d, hf⟩ :=
      applyCommittedEntries_frame raises { n with commitIndex := n.commitCandidate }
    rw [hf]
    exact hle
  · next hmay =>
    -- the rule does not fire, so the candidate was committed before
    by_contra hcommit
    obtain ⟨j, hj⟩ := Int.eq_ofNat_of_zero_le (show 0 ≤ n.commitCandidate by omega)
    have hjlt : j < n.log.length := by
      have := commitCandidate_lt hlt
      omega
    have hget := List.getElem?_eq_getElem hjlt
    refine hmay (mayCommit_iff.mpr ⟨?_, by omega, n.log[j], ?_, hown j _ (by omega) hget⟩)
    · dsimp only at hcommit
      omega
    · rw [hj]
      exact (getItem_natCast _ _).trans hget

/-! ## From step to step -/

/-- The term does not go back, and only a new term makes a candidate. -/
structure Advances (n n' : RaftNode) : Prop where
  term : n.currentTerm ≤ n'.currentTerm
  candidate : n'.state = .candidate → n.state = .candidate ∨ n.currentTerm < n'.currentTerm

theorem Advances.refl : Advances n n := ⟨le_rfl, Or.inl⟩

theorem Advances.of_sameRole {m : RaftNode} (h : Advances n m) (h' : SameRole m n') :
    Advances n n' where
  term := h'.currentTerm ▸ h.term
  candidate hc := h'.currentTerm ▸ h.candidate (h'.state ▸ hc)

theorem adoptTerm_advances (n : RaftNode) (t : ℤ) : Advances n (n.adoptTerm t) := by
  rcases n.adoptTerm_cases t with ⟨_, h⟩ | ⟨hlt, h⟩ <;> rw [h]
  · exact .refl
  · exact ⟨hlt.le, fun hc => NodeState.noConfusion hc⟩

theorem finishElection_advances (n : RaftNode) (v : ℕ) : Advances n (n.finishElection v) := by
  rcases n.finishElection_cases v with h | ⟨_, _, h⟩ <;> rw [h]
  · exact ⟨le_rfl, Or.inl⟩
  · exact ⟨le_rfl, fun hc => NodeState.noConfusion hc⟩

theorem handleMessage_advances (n : RaftNode) (raises : Raises) (m : Message) :
    Advances n (n.handleMessage raises m).1 := by
  have hadopt := n.adoptTerm_advances m.term
  rcases n.handleMessage_role raises m with h | h | ⟨_, h⟩
  · refine Advances.of_sameRole ⟨?_, fun hc => ?_⟩ h
    · rw [acceptLeader_currentTerm]
      exact hadopt.term
    · rw [acceptLeader_state] at hc
      cases hc
  · rwa [h]
  · rw [h]
    exact ⟨hadopt.term, hadopt.candidate⟩

theorem appendReply_advances (n : RaftNode) (raises : Raises) (peer : String) (last : ℤ)
    (response : Message) : Advances n (n.appendReply raises peer last response).1 := by
  rcases n.appendReply_sameRole raises peer last response with h | h
  · exact Advances.of_sameRole (m := n.recordMatch peer last) ⟨le_rfl, Or.inl⟩ h
  · exact (n.adoptTerm_advances _).of_sameRole h

end RaftNode

theorem Transition.advances (ht : Transition c ev c') (i : String) :
    Advances (c.proc i).raft (c'.proc i).raft := by
  have hput : ∀ {j p}, c'.proc = Function.update c.proc j p →
      Advances (c.proc j).raft p.raft → Advances (c.proc i).raft (c'.proc i).raft :=
    fun hproc hp => forall_put (P := fun i p => Advances (c.proc i).raft p.raft) hproc hp
      (fun _ _ => .refl) i
  have hstart : ∀ (j : String) (b : Bool), (c.proc j).raft.electionInProgress = false →
      Advances (c.proc j).raft ((c.proc j).startElection b).raft := by
    intro j b he
    rw [Proc.startElection_raft, startElection_eq he]
    have hlt : (c.proc j).raft.currentTerm < (c.proc j).raft.currentTerm + 1 := Int.lt_succ _
    split
    · have := finishElection_advances { (c.proc j).raft with
        electionInProgress := true, currentTerm := (c.proc j).raft.currentTerm + 1,
        state := .candidate, votedFor := some (c.proc j).raft.nodeId } 1
      exact ⟨hlt.le.trans this.term, fun _ => Or.inr (hlt.trans_le this.term)⟩
    · exact ⟨hlt.le, fun _ => Or.inr hlt⟩
  cases ht with
  | electionTimeout j hs he | raftProcessor j hs he => exact hput rfl (hstart j _ he)
  | voteResponse j k l t rpc response => exact hput rfl (adoptTerm_advances _ _)
  | cancelElection j k f => exact hput rfl ⟨le_rfl, Or.inl⟩
  | finishElection j k f => exact hput rfl (finishElection_advances _ _)
  | commitEntry j command data caller raises | appendEntry j command data caller raises =>
    exact hput rfl (Advances.refl.of_sameRole (appendEntry_sameRole _ _ _ _))
  | appendResponse j owner k raises t rpc response =>
    exact hput rfl (appendReply_advances _ _ _ _ _)
  | handleMessage r raises rpc => exact hput rfl (handleMessage_advances _ _ _)
  | sendAppend j owner k t | appendTimeout j owner k t =>
    refine hput rfl ?_
    rw [Proc.setTask_raft]
    exact .refl
  | requestVote j | voteTimeout j | heartbeat j | returnAppend j => exact hput rfl .refl

/-! ## Calls in progress -/

section Calls

variable {n n' : RaftNode} {f : AppendCall κ} {rpcs rpcs' : List Rpc}

/-- A leader knows no match beyond its log, the initial value 0 apart. -/
def RaftNode.Bounded (n : RaftNode) : Prop :=
  n.state = .leader → ∀ p ∈ n.peers, n.matchIndex p = 0 ∨ n.matchIndex p < n.log.length

/-- The entry of the call is in the leader's log, followed by entries of the leader's term only,
and the RPCs of its round cover it. -/
structure Replicates (rpcs : List Rpc) (n : RaftNode) (f : AppendCall κ) : Prop where
  stored : ∃ k : ℕ, f.entry.index = k ∧ n.log[k]? = some f.entry ∧
    ∀ j e, k ≤ j → n.log[j]? = some e → e.term = n.currentTerm
  sent : ∀ t ∈ f.tasks, ∀ r, t.rpc = some r →
    ∃ rpc, rpcs[r]? = some rpc ∧ f.entry.index ≤ rpc.request.lastCovered
  matched : ∀ t ∈ f.tasks, t.result = some true → f.entry.index ≤ n.matchIndex t.peer
  committed : n.quorumSize ≤ 1 + granted f.tasks → f.entry.index ≤ n.commitIndex

/-- A call belongs to a term that its node has led, and that a candidate has left. -/
structure CallOk (rpcs : List Rpc) (n : RaftNode) (f : AppendCall κ) : Prop where
  peers : n.peers ≠ []
  term_le : f.entry.term ≤ n.currentTerm
  candidate : n.state = .candidate → f.entry.term < n.currentTerm
  led : n.state = .leader → f.entry.term = n.currentTerm → Replicates rpcs n f

theorem quorumSize_congr (h : n'.peers = n.peers) : n'.quorumSize = n.quorumSize := by
  unfold quorumSize
  rw [h]

theorem Replicates.stillLeads (h : Replicates rpcs n f) (hs : StillLeads n n')
    (hp : n'.peers = n.peers) (hne : n.peers ≠ []) (hl : Later rpcs rpcs') :
    Replicates rpcs' n' f := by
  obtain ⟨k, hk, hget, hown⟩ := h.stored
  obtain ⟨new, hlog, hnew⟩ := hs.log
  refine ⟨⟨k, hk, ?_, fun j e hj he => ?_⟩, fun t ht r hr => ?_, ?_, ?_⟩
  · rw [hlog, List.getElem?_append_left (List.getElem?_eq_some_iff.mp hget).1]
    exact hget
  · rw [hs.currentTerm]
    rw [hlog] at he
    rcases lt_or_ge j n.log.length with hlt | hge
    · rw [List.getElem?_append_left hlt] at he
      exact hown j e hj he
    · rw [List.getElem?_append_right hge] at he
      exact hnew e (List.mem_of_getElem? he)
  · obtain ⟨rpc, hrpc, hcov⟩ := h.sent t ht r hr
    obtain ⟨rpc', hrpc', -, -, hreq, -⟩ := hl r rpc hrpc
    exact ⟨rpc', hrpc', by rw [hreq]; exact hcov⟩
  · rw [hs.matchIndex]
    exact h.matched
  · rw [quorumSize_congr hp]
    exact fun hq => (h.committed hq).trans (hs.commitIndex hne)

theorem CallOk.carry (h : CallOk rpcs n f) (ha : Advances n n') (hp : n'.peers = n.peers)
    (hlead : n'.state = .leader → StillLeads n n' ∨ Elected n n') (hl : Later rpcs rpcs') :
    CallOk rpcs' n' f := by
  refine ⟨hp ▸ h.peers, h.term_le.trans ha.term, fun hc => ?_, fun hs ht => ?_⟩
  · rcases ha.candidate hc with hc | hlt
    · exact (h.candidate hc).trans_le ha.term
    · exact h.term_le.trans_lt hlt
  · rcases hlead hs with hs | he
    · exact (h.led hs.state (ht.trans hs.currentTerm)).stillLeads hs hp h.peers hl
    · -- a new leader has no calls of its own term yet
      have := h.term_le
      rcases he.term with hlt | ⟨hc, heq⟩
      · omega
      · have := h.candidate hc
        omega

theorem granted_set_le {tasks : List RpcTask} {k : ℕ} {t t' : RpcTask} (ht : tasks[k]? = some t)
    (hr : t'.result = some true → t.result = some true) :
    granted (tasks.set k t') ≤ granted tasks := by
  obtain ⟨hk, rfl⟩ := List.getElem?_eq_some_iff.mp ht
  unfold granted
  rw [List.countP_set hk]
  by_cases h' : t'.result = some true
  · have hpos : 0 < tasks.countP fun t => decide (t.result = some true) :=
      List.countP_pos_iff.mpr ⟨tasks[k], List.getElem_mem hk, decide_eq_true (hr h')⟩
    rw [if_pos (decide_eq_true (hr h')), if_pos (decide_eq_true h')]
    omega
  · rw [if_neg (show ¬ decide (t'.result = some true) = true by simpa using h')]
    omega

theorem CallOk.new {raises : Raises} {command : String} {data : Dict} {caller : κ}
    (hl : n.state = .leader) (hp : n.peers ≠ []) :
    CallOk rpcs (n.appendEntry raises command data).1
      { entry := n.newEntry command data, caller, tasks := gather n.peers } := by
  rw [appendEntry_waits hp]
  refine ⟨hp, le_rfl, fun hc => ?_, fun _ _ => ⟨⟨n.log.length, rfl, ?_, ?_⟩, ?_, ?_, fun hq => ?_⟩⟩
  · rw [show n.state = .candidate from hc] at hl
    cases hl
  · exact List.getElem?_concat_length
  · intro k e hk he
    change (n.log ++ [n.newEntry command data])[k]? = some e at he
    rw [List.getElem?_append_right hk] at he
    rw [List.mem_singleton.mp (List.mem_of_getElem? he)]
    rfl
  · intro t ht r hr
    obtain ⟨p, -, rfl⟩ := List.mem_map.mp ht
    cases hr
  · intro t ht hr
    obtain ⟨p, -, rfl⟩ := List.mem_map.mp ht
    cases hr
  · -- nobody has answered yet
    have hzero : granted (gather n.peers) = 0 := by
      refine List.countP_eq_zero.mpr fun t ht => ?_
      obtain ⟨p, -, rfl⟩ := List.mem_map.mp ht
      simp
    have hpos := List.length_pos_iff.mpr hp
    change (n.peers.length + 1) / 2 + 1 ≤ 1 + granted (gather n.peers) at hq
    omega

theorem CallOk.setTask (h : CallOk rpcs n f) {k : ℕ} {t t' : RpcTask} (ht : f.tasks[k]? = some t)
    (hp : t'.peer = t.peer) (hr : t'.result = some true → t.result = some true)
    (hsent : n.state = .leader → f.entry.index < n.log.length → ∀ r, t'.rpc = some r →
      t.rpc = some r ∨ ∃ rpc, rpcs[r]? = some rpc ∧ f.entry.index ≤ rpc.request.lastCovered) :
    CallOk rpcs n { f with tasks := f.tasks.set k t' } := by
  refine ⟨h.peers, h.term_le, h.candidate, fun hs hterm => ?_⟩
  have hrep := h.led hs hterm
  have hmem := List.mem_of_getElem? ht
  refine ⟨hrep.stored, fun u hu r hur => ?_, fun u hu hur => ?_, fun hq => hrep.committed ?_⟩
  · rcases List.mem_or_eq_of_mem_set hu with hu | rfl
    · exact hrep.sent u hu r hur
    · obtain ⟨k, hk, hget, -⟩ := hrep.stored
      have hlt := (List.getElem?_eq_some_iff.mp hget).1
      exact (hsent hs (by omega) r hur).elim (hrep.sent t hmem r) id
  · rcases List.mem_or_eq_of_mem_set hu with hu | rfl
    · exact hrep.matched u hu hur
    · show f.entry.index ≤ n.matchIndex u.peer
      rw [hp]
      exact hrep.matched t hmem (hr hur)
  · have := granted_set_le ht hr
    exact hq.trans (by dsimp only at *; omega)

/-- An APPEND_ENTRIES covers the whole log of its sender. -/
theorem le_lastCovered (n : RaftNode) (peer : String) :
    (n.log.length : ℤ) - 1 ≤ (n.appendEntriesMessage peer).lastCovered := by
  change _ ≤ (n.nextIndex peer : ℤ) - 1 + (n.log.drop (n.nextIndex peer)).length
  rw [List.length_drop]
  omega

/-- The success reply of `peer`, up to position `last`, is recorded. Some tasks of the call wait for
this reply. -/
theorem Replicates.record {raises : Raises} {peer : String} {last : ℤ} {tasks : List RpcTask}
    (h : Replicates rpcs n f) (hl : n.state = .leader) (hb : n.Bounded)
    (hlast : last < n.log.length) (hpeers : tasks = [] ∨ tasks.map RpcTask.peer = n.peers)
    (htasks : ∀ t ∈ tasks, t ∈ f.tasks ∨ t.peer = peer ∧ f.entry.index ≤ last ∧
      ∀ r, t.rpc = some r → ∃ rpc, rpcs[r]? = some rpc ∧ f.entry.index ≤ rpc.request.lastCovered) :
    Replicates rpcs ((n.recordMatch peer last).updateCommitIndex raises).1
      { f with tasks := tasks } := by
  have hrole := (n.recordMatch peer last).updateCommitIndex_sameRole raises
  have hev := (n.recordMatch peer last).updateCommitIndex_evolves raises
  obtain ⟨k, hk, hget, hown⟩ := h.stored
  have hklt := (List.getElem?_eq_some_iff.mp hget).1
  have hlog : ((n.recordMatch peer last).updateCommitIndex raises).1.log = n.log :=
    updateCommitIndex_log _ _
  have hmatch : ∀ t ∈ tasks, t.result = some true →
      f.entry.index ≤ (n.recordMatch peer last).matchIndex t.peer := by
    intro t ht hr
    change _ ≤ Function.update n.matchIndex peer (max (n.matchIndex peer) last) t.peer
    rcases htasks t ht with ht | ⟨hp, hle, -⟩
    · have := h.matched t ht hr
      by_cases hp : t.peer = peer
      · rw [hp, Function.update_self]
        rw [hp] at this
        exact this.trans (le_max_left ..)
      · rwa [Function.update_of_ne hp]
    · rw [hp, Function.update_self]
      exact hle.trans (le_max_right ..)
  refine ⟨⟨k, hk, by rw [hlog]; exact hget, ?_⟩, fun t ht r hr => ?_, fun t ht hr => ?_,
    fun hq => ?_⟩
  · rw [hlog, hrole.currentTerm]
    exact hown
  · rcases htasks t ht with ht | ⟨-, -, hsent⟩
    · exact h.sent t ht r hr
    · exact hsent r hr
  · rw [hrole.matchIndex]
    exact hmatch t ht hr
  · show f.entry.index ≤ _
    rw [hk] at hmatch ⊢
    rw [quorumSize_congr hev.peers] at hq
    refine le_updateCommitIndex (n := n.recordMatch peer last) hl hklt hown (fun p hp => ?_) ?_
    · -- all matches lie in the log, which is not empty
      change Function.update n.matchIndex peer (max (n.matchIndex peer) last) p < (n.log.length : ℤ)
      have hold : ∀ q ∈ n.peers, n.matchIndex q < n.log.length := by
        intro q hq
        rcases hb hl q hq with h0 | hlt <;> omega
      by_cases hpp : p = peer
      · subst hpp
        rw [Function.update_self]
        exact max_lt (hold p hp) hlast
      · rw [Function.update_of_ne hpp]
        exact hold p hp
    · refine hq.trans (Nat.add_le_add_left ?_ 1)
      rcases hpeers with rfl | hpeers
      · exact Nat.zero_le _
      · change _ ≤ n.peers.countP _
        rw [← hpeers, List.countP_map]
        exact List.countP_mono_left fun t ht hr =>
          decide_eq_true (hmatch t ht (of_decide_eq_true hr))

theorem CallOk.record {raises : Raises} {r : ℕ} {t : RpcTask} {rpc : Rpc} {tasks : List RpcTask}
    (h : CallOk rpcs n f) (hb : n.Bounded) (hr : t.rpc = some r) (hrpc : rpcs[r]? = some rpc)
    (hlast : n.state = .leader → rpc.request.lastCovered < n.log.length)
    (hpeers : tasks = [] ∨ tasks.map RpcTask.peer = n.peers)
    (htasks : ∀ u ∈ tasks, u ∈ f.tasks ∨ t ∈ f.tasks ∧ u.peer = t.peer ∧ u.rpc = t.rpc) :
    CallOk rpcs ((n.recordMatch t.peer rpc.request.lastCovered).updateCommitIndex raises).1
      { f with tasks := tasks } := by
  have hrole := (n.recordMatch t.peer rpc.request.lastCovered).updateCommitIndex_sameRole raises
  have hev := (n.recordMatch t.peer rpc.request.lastCovered).updateCommitIndex_evolves raises
  refine ⟨by rw [hev.peers]; exact h.peers, by rw [hrole.currentTerm]; exact h.term_le,
    by rw [hrole.state, hrole.currentTerm]; exact h.candidate, fun hl hterm => ?_⟩
  rw [hrole.state] at hl
  rw [hrole.currentTerm] at hterm
  have hrep := h.led hl hterm
  refine hrep.record hl hb (hlast hl) hpeers fun u hu => (htasks u hu).imp_right ?_
  rintro ⟨ht, hp, hurpc⟩
  obtain ⟨rpc', hrpc', hle⟩ := hrep.sent t ht r hr
  rw [hrpc, Option.some.injEq] at hrpc'
  subst hrpc'
  refine ⟨hp, hle, fun r' hr' => ?_⟩
  rw [hurpc, hr, Option.some.injEq] at hr'
  exact ⟨rpc, hr' ▸ hrpc, hle⟩

end Calls

theorem mem_setTask_calls {p : Proc κ} {owner : TaskOwner} {k : ℕ} {t t' : RpcTask}
    {f : AppendCall κ} (ht : (p.tasks owner)[k]? = some t)
    (hf : f ∈ (p.setTask owner k t').appendCalls) :
    f ∈ p.appendCalls ∨ ∃ f₀ ∈ p.appendCalls, f₀.tasks[k]? = some t ∧
      f = { f₀ with tasks := f₀.tasks.set k t' } := by
  cases owner with
  | heartbeat => exact Or.inl hf
  | append j =>
    rcases mem_modify hf with hf | ⟨f₀, hf₀, rfl⟩
    · exact Or.inl hf
    · simp only [Proc.tasks, hf₀, Option.map_some, Option.getD_some] at ht
      exact Or.inr ⟨f₀, List.mem_of_getElem? hf₀, ht, rfl⟩

@[simp] theorem startElection_appendCalls (p : Proc κ) (b : Bool) :
    (p.startElection b).appendCalls = p.appendCalls := by
  unfold Proc.startElection
  dsimp only
  split <;> rfl

/-- The calls of a node after a step: those it had, with the same entry and caller, and a new one.
-/
theorem Transition.mem_appendCalls {f : AppendCall κ} (ht : Transition c ev c')
    (hf : f ∈ (c'.proc i).appendCalls) :
    (∃ f₀ ∈ (c.proc i).appendCalls, f₀.entry = f.entry ∧ f₀.caller = f.caller) ∨
      ∃ raises, ev = .appendEntry i f.entry.command f.entry.data f.caller raises := by
  have hput : ∀ {j p}, c'.proc = Function.update c.proc j p →
      (f ∈ p.appendCalls → (∃ f₀ ∈ (c.proc j).appendCalls, f₀.entry = f.entry ∧
        f₀.caller = f.caller) ∨
        ∃ raises, ev = .appendEntry j f.entry.command f.entry.data f.caller raises) →
      (∃ f₀ ∈ (c.proc i).appendCalls, f₀.entry = f.entry ∧ f₀.caller = f.caller) ∨
        ∃ raises, ev = .appendEntry i f.entry.command f.entry.data f.caller raises := by
    intro j p hproc hp
    exact forall_put (P := fun i p => f ∈ p.appendCalls →
      (∃ f₀ ∈ (c.proc i).appendCalls, f₀.entry = f.entry ∧ f₀.caller = f.caller) ∨
        ∃ raises, ev = .appendEntry i f.entry.command f.entry.data f.caller raises) hproc hp
      (fun _ _ h => Or.inl ⟨f, h, rfl, rfl⟩) i hf
  cases ht with
  | electionTimeout j | raftProcessor j =>
    refine hput rfl fun h => Or.inl ⟨f, ?_, rfl, rfl⟩
    rwa [startElection_appendCalls] at h
  | requestVote j | voteResponse j | voteTimeout j | cancelElection j | finishElection j
  | heartbeat j | commitEntry j | handleMessage r =>
    exact hput rfl fun h => Or.inl ⟨f, h, rfl, rfl⟩
  | returnAppend j k call hcall hd =>
    exact hput rfl fun h => Or.inl ⟨f, List.mem_of_mem_eraseIdx h, rfl, rfl⟩
  | appendEntry j command data caller raises hl hp =>
    refine hput rfl fun h => ?_
    rcases List.mem_append.mp h with h | h
    · exact Or.inl ⟨f, h, rfl, rfl⟩
    · rw [List.mem_singleton.mp h]
      exact Or.inr ⟨raises, rfl⟩
  | sendAppend j owner k t htask hr | appendTimeout j owner k t rpc htask hw
  | appendResponse j owner k raises t rpc response htask harr =>
    refine hput rfl fun h => ?_
    rcases mem_setTask_calls htask h with h | ⟨f₀, hf₀, -, rfl⟩
    · exact Or.inl ⟨f, h, rfl, rfl⟩
    · exact Or.inl ⟨f₀, hf₀, rfl, rfl⟩

/-- The invariant behind acknowledgements. -/
structure Acks (cfg : ClusterConfig) (c : Cluster κ) : Prop where
  wired : Wired cfg c
  bounded : ∀ i, (c.proc i).raft.Bounded
  calls : ∀ i, ∀ f ∈ (c.proc i).appendCalls, CallOk c.rpcs (c.proc i).raft f

theorem Acks.init (cfg : ClusterConfig) : Acks cfg (cfg.init : Cluster κ) where
  wired := .init cfg
  bounded i hl := by cases hl
  calls i f hf := by cases hf

/-- Where success replies cover the log at most, so do the records of a leader. -/
theorem Transition.bounded (hb : ∀ i, (c.proc i).raft.Bounded) (hcov : CoveredReply c ev)
    (ht : Transition c ev c') (i : String) : (c'.proc i).raft.Bounded := by
  intro hl p hp
  rw [(ht.evolves i).peers] at hp
  rcases ht.leader i hl with hs | he | ⟨owner, k, raises, t, rpc, response, rfl, htask, harr,
    hsucc, hraft⟩
  · obtain ⟨new, hlog, -⟩ := hs.log
    rw [hs.matchIndex, hlog, List.length_append]
    refine (hb i hs.state p hp).imp_right fun hlt => ?_
    omega
  · exact Or.inl (he.matchIndex p hp)
  · have hrole := updateCommitIndex_sameRole
      ((c.proc i).raft.recordMatch t.peer rpc.request.lastCovered) raises
    have hlead : (c.proc i).raft.state = .leader := by
      rw [hraft, hrole.state] at hl
      exact hl
    have hold := hb i hlead p hp
    have hlast : rpc.request.lastCovered < (c.proc i).raft.log.length :=
      hcov t htask (rpc, response) harr hsucc hlead
    rw [hraft, updateCommitIndex_log, hrole.matchIndex]
    show Function.update (c.proc i).raft.matchIndex t.peer _ p = 0 ∨
      Function.update (c.proc i).raft.matchIndex t.peer _ p < ((c.proc i).raft.log.length : ℤ)
    by_cases hpp : p = t.peer
    · subst hpp
      rw [Function.update_self]
      omega
    · rwa [Function.update_of_ne hpp]

theorem Acks.carry (h : Acks cfg c) (ht : Transition c ev c')
    (hev : ∀ owner k raises t rpc response, ev = .appendResponse i owner k raises →
      ((c.proc i).tasks owner)[k]? = some t → c.arrived t = some (rpc, response) →
      response.succeeded = false) :
    ∀ f ∈ (c.proc i).appendCalls, CallOk c'.rpcs (c'.proc i).raft f := by
  intro f hf
  refine (h.calls i f hf).carry (ht.advances i) (ht.evolves i).peers (fun hl => ?_) ht.later
  rcases ht.leader i hl with hs | he | ⟨owner, k, raises, t, rpc, response, hev', htask, harr,
    hsucc, -⟩
  · exact Or.inl hs
  · exact Or.inr he
  · rw [hev owner k raises t rpc response hev' htask harr] at hsucc
    cases hsucc

theorem Acks.step (h : Acks cfg c) (hcov : CoveredReply c ev) (ht : Transition c ev c') :
    Acks cfg c' := by
  refine ⟨h.wired.step ht, ht.bounded h.bounded hcov, ?_⟩
  have hlater := ht.later
  have hcarry := fun i => h.carry ht (i := i)
  have hput : ∀ {j p}, c'.proc = Function.update c.proc j p →
      (∀ f ∈ p.appendCalls, CallOk c'.rpcs p.raft f) →
      ∀ i, ∀ f ∈ (c'.proc i).appendCalls, CallOk c'.rpcs (c'.proc i).raft f :=
    fun hproc hp => forall_put (P := fun _ p => ∀ f ∈ p.appendCalls, CallOk c'.rpcs p.raft f)
      hproc hp fun i _ f hf =>
        (h.calls i f hf).carry .refl rfl (fun hl => Or.inl (.refl hl)) hlater
  have hkeep : ∀ {j p}, c'.proc = Function.update c.proc j p →
      (∀ owner k raises, ev ≠ .appendResponse j owner k raises) →
      p.appendCalls = (c.proc j).appendCalls →
      ∀ i, ∀ f ∈ (c'.proc i).appendCalls, CallOk c'.rpcs (c'.proc i).raft f := by
    intro j p hproc hev hcalls
    refine hput hproc fun f hf => ?_
    have := hcarry j (fun owner k raises _ _ _ h => absurd h (hev owner k raises)) f (hcalls ▸ hf)
    rwa [hproc, Function.update_self] at this
  cases ht with
  | electionTimeout j | raftProcessor j =>
    exact hkeep rfl (fun _ _ _ h => by cases h) (startElection_appendCalls _ _)
  | requestVote j | voteResponse j | voteTimeout j | cancelElection j | finishElection j
  | heartbeat j | commitEntry j | handleMessage r =>
    exact hkeep rfl (fun _ _ _ h => by cases h) rfl
  | returnAppend j k call hcall hd =>
    refine hput rfl fun f hf => ?_
    have := hcarry j (fun _ _ _ _ _ _ h => by cases h) f (List.mem_of_mem_eraseIdx hf)
    rwa [put_proc_self] at this
  | appendEntry j command data caller raises hl hp =>
    refine hput rfl fun f hf => ?_
    rcases List.mem_append.mp hf with hf | hf
    · have := hcarry j (fun _ _ _ _ _ _ h => by cases h) f hf
      rwa [put_proc_self] at this
    · rw [List.mem_singleton.mp hf]
      exact .new hl hp
  | sendAppend j owner k t htask hr =>
    refine hput rfl fun f hf => ?_
    have hold := hcarry j (fun _ _ _ _ _ _ h => by cases h)
    rw [show (c.send j ((c.proc j).setTask owner k { t with rpc := some c.rpcs.length }) t.peer
      ((c.proc j).raft.appendEntriesMessage t.peer)).proc j = _ from put_proc_self ..,
      Proc.setTask_raft] at hold
    rw [Proc.setTask_raft]
    rcases mem_setTask_calls htask hf with hf | ⟨f₀, hf₀, ht₀, rfl⟩
    · exact hold f hf
    · refine (hold f₀ hf₀).setTask ht₀ rfl id fun _ hlt r hr' => Or.inr ?_
      cases hr'
      have := le_lastCovered (c.proc j).raft t.peer
      exact ⟨_, List.getElem?_concat_length, by dsimp only; omega⟩
  | appendTimeout j owner k t rpc htask hw =>
    refine hput rfl fun f hf => ?_
    have hold := hcarry j (fun _ _ _ _ _ _ h => by cases h)
    rw [put_proc_self, Proc.setTask_raft] at hold
    rw [Proc.setTask_raft]
    rcases mem_setTask_calls htask hf with hf | ⟨f₀, hf₀, ht₀, rfl⟩
    · exact hold f hf
    · exact (hold f₀ hf₀).setTask ht₀ rfl (fun h => by cases h) fun _ _ r hr => Or.inl hr
  | appendResponse j owner k raises t rpc response htask harr =>
    have hwired := h.wired.step (.appendResponse j owner k raises t rpc response htask harr)
    refine hput rfl fun f hf => ?_
    have hpeersf := ((hwired.proc j).append f (by rw [put_proc_self]; exact hf)).peers
    rw [hwired.peers j, ← h.wired.peers j] at hpeersf
    obtain ⟨hwait, -⟩ := arrived_some harr
    obtain ⟨-, r, hr, hrpc⟩ := waitingRpc_some hwait
    rcases (c.proc j).raft.appendReply_cases raises t.peer rpc.request.lastCovered response with
      ⟨hs, heq⟩ | ⟨hs, heq⟩
    · rw [Proc.setRaft_raft, heq]
      have hlast := fun hl => hcov t htask (rpc, response) harr hs hl
      rcases mem_setTask_calls htask hf with hf₀ | ⟨f₀, hf₀, ht₀, rfl⟩
      · exact (h.calls j f hf₀).record (h.bounded j) hr hrpc hlast hpeersf fun u hu => Or.inl hu
      · refine (h.calls j f₀ hf₀).record (h.bounded j) hr hrpc hlast hpeersf fun u hu => ?_
        rcases List.mem_or_eq_of_mem_set hu with hu | rfl
        · exact Or.inl hu
        · exact Or.inr ⟨List.mem_of_getElem? ht₀, rfl, rfl⟩
    · have hold := hcarry j fun owner' k' raises' t' rpc' response' hev htask' harr' => by
        cases hev
        rw [htask, Option.some.injEq] at htask'
        subst htask'
        rw [harr, Option.some.injEq, Prod.mk.injEq] at harr'
        exact harr'.2 ▸ hs
      rw [put_proc_self] at hold
      rcases mem_setTask_calls htask hf with hf₀ | ⟨f₀, hf₀, ht₀, rfl⟩
      · exact hold f hf₀
      · refine (hold f₀ hf₀).setTask ht₀ rfl (fun hres => ?_) fun _ _ r hr => Or.inl hr
        rw [heq] at hres
        cases hres

theorem Acks.of_covered (hr : cfg.Reach CoveredReply c) : Acks cfg c :=
  hr.invariant (P := Acks cfg) (.init cfg) fun _ _ _ h hok hs => h.step hok (cfg.transition hs)

/-- What `append_entry` acknowledges is committed at that moment. -/
theorem committed_of_acknowledged {e : LogEntry} (hr : cfg.Reach CoveredReply c)
    (hok : QuorumReturn c ev) (hs : cfg.step c ev = some c')
    (ha : c.acknowledged ev = some (i, e)) : c'.Committed i e := by
  have hacks := Acks.of_covered hr
  cases cfg.transition hs with
  | commitEntry j command data caller raises hl hp =>
    dsimp only [Cluster.acknowledged] at ha
    split at ha <;> cases ha
    obtain ⟨a, d, b, heq⟩ := appendEntry_commits hp raises command data
    unfold Cluster.Committed
    rw [put_proc_self, Proc.setRaft_raft, heq]
    exact ⟨Int.natCast_nonneg _, (getItem_natCast _ _).trans List.getElem?_concat_length, le_rfl⟩
  | appendEntry j command data caller raises hl hp =>
    dsimp only [Cluster.acknowledged] at ha
    rw [if_neg (by rw [appendEntry_waits hp]; simp)] at ha
    cases ha
  | returnAppend j k call hcall hd =>
    obtain ⟨hl, hterm, hq⟩ := hok call hcall
    dsimp only [Cluster.acknowledged] at ha
    rw [hcall] at ha
    cases ha
    have hrep := (hacks.calls i call (List.mem_of_getElem? hcall)).led hl hterm.symm
    obtain ⟨n, hn, hget, -⟩ := hrep.stored
    have hcommit := hrep.committed hq
    unfold Cluster.Committed
    rw [put_proc_self, hn]
    exact ⟨Int.natCast_nonneg _, (getItem_natCast _ _).trans hget, hn ▸ hcommit⟩
  | _ => cases ha

end DistributedSync
