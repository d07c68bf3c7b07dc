import DistributedSync.Raft.Entries
import DistributedSync.Raft.LogRepair
import DistributedSync.Raft.Tenure

/-!
# The order of a log

On every node, in every run, the log is numbered from 0 on and its terms do not decrease, between 1
and the node's own term (`log_wellFormed`). No step is excluded: the requests may be stale, come
from nodes that lead nothing, or cut the log anywhere. What carries the proof is the same
order of the entries on the wire (`OrderedRequest`).
-/

namespace DistributedSync

open TermLog Cluster

structure RaftNode.WellFormedLog (n : RaftNode) : Prop where
  numbered : Numbered LogEntry.index 0 n.log
  ascending : Ascending LogEntry.term n.log
  pos : ∀ e ∈ n.log, 1 ≤ e.term
  le : ∀ e ∈ n.log, e.term ≤ n.currentTerm

/-- The entries of an APPEND_ENTRIES are in order, from the position after `prev_log_index` and
from `prev_log_term` on. -/
structure OrderedRequest (m : Message) (p : ℕ) : Prop where
  prevLogIndex : m.data.prevLogIndex = some ((p : ℤ) - 1)
  numbered : Numbered LogEntry.index p (m.data.entries.getD [])
  ascending : Ascending LogEntry.term (m.data.entries.getD [])
  pos : ∀ e ∈ m.data.entries.getD [], 1 ≤ e.term
  le : ∀ e ∈ m.data.entries.getD [], e.term ≤ m.term
  prev : p ≠ 0 → ∀ e ∈ m.data.entries.getD [], m.data.prevLogTerm.getD 0 ≤ e.term

namespace RaftNode

variable {n m : RaftNode} {raises : Raises}

/-! ## One node -/

theorem WellFormedLog.of_log_eq (h : n.WellFormedLog) (hlog : m.log = n.log)
    (ht : n.currentTerm ≤ m.currentTerm) : m.WellFormedLog where
  numbered := hlog ▸ h.numbered
  ascending := hlog ▸ h.ascending
  pos := hlog ▸ h.pos
  le e he := (h.le e (hlog ▸ he)).trans ht

theorem RoleOrder.term_le (h : RoleOrder n m) : n.currentTerm ≤ m.currentTerm := by
  rcases h with h | ⟨h, -⟩ <;> omega

theorem WellFormedLog.roleOrder (h : n.WellFormedLog) (hlog : m.log = n.log)
    (ho : RoleOrder n m) : m.WellFormedLog :=
  h.of_log_eq hlog ho.term_le

theorem appendReply_log (n : RaftNode) (raises : Raises) (peer : String) (last : ℤ)
    (response : Message) : (n.appendReply raises peer last response).1.log = n.log := by
  rcases n.appendReply_cases raises peer last response with ⟨-, h⟩ | ⟨-, h⟩ <;> rw [h]
  · exact updateCommitIndex_log _ raises
  · exact ((n.adoptTerm_sameLog _).trans (backOff_sameLog _ peer)).log

theorem WellFormedLog.appendEntry (h : n.WellFormedLog) (ht : 1 ≤ n.currentTerm) (command : String)
    (data : Dict) : (n.appendEntry raises command data).1.WellFormedLog := by
  have hlog := n.appendEntry_log raises command data
  have hterm := (n.appendEntry_sameRole raises command data).currentTerm
  constructor <;> rw [hlog]
  · exact h.numbered.concat (by simp [newEntry])
  · exact h.ascending.concat h.le
  · exact List.forall_mem_append.mpr ⟨h.pos, List.forall_mem_singleton.mpr ht⟩
  · rw [hterm]
    exact List.forall_mem_append.mpr ⟨h.le, List.forall_mem_singleton.mpr le_rfl⟩

/-- The entries below the position that the check admits do not have later terms than those of the
request. -/
theorem WellFormedLog.le_of_prevLogCheck (h : n.WellFormedLog) {msg : Message} {p : ℕ}
    (hmsg : OrderedRequest msg p)
    (hok : n.prevLogCheck ((p : ℤ) - 1) (msg.data.prevLogTerm.getD 0) = some true) :
    p ≤ n.log.length ∧
      ∀ d ∈ n.log.take p, ∀ e ∈ msg.data.entries.getD [], d.term ≤ e.term := by
  rcases prevLogCheck_pred.mp hok with rfl | ⟨e', he', ht⟩
  · refine ⟨Nat.zero_le _, fun d hd => ?_⟩
    simp at hd
  · rcases Nat.eq_zero_or_pos p with rfl | hp
    · refine ⟨Nat.zero_le _, fun d hd => ?_⟩
      simp at hd
    · have hlt := (List.getElem?_eq_some_iff.mp he').1
      have hle := h.ascending.le_of_mem_take he'
      rw [Nat.sub_add_cancel hp] at hle
      exact ⟨by omega, fun d hd e he => (hle d hd).trans (ht.le.trans (hmsg.prev hp.ne' e he))⟩

theorem WellFormedLog.handleAppendEntries (h : n.WellFormedLog) {msg : Message} {p : ℕ}
    (hmsg : OrderedRequest msg p) (ht : msg.term ≤ n.currentTerm) :
    (n.handleAppendEntries raises msg).1.WellFormedLog := by
  have hprev : msg.data.prevLogIndex.getD 0 = (p : ℤ) - 1 := by
    rw [hmsg.prevLogIndex, Option.getD_some]
  have hterm : (n.handleAppendEntries raises msg).1.currentTerm = n.currentTerm :=
    (handleAppendEntries_sameRole n raises msg).currentTerm.trans
      (acceptLeader_currentTerm n msg.senderId)
  by_cases hok : n.prevLogCheck (msg.data.prevLogIndex.getD 0) (msg.data.prevLogTerm.getD 0) =
      some true
  · have hlog : (n.handleAppendEntries raises msg).1.log =
        overlay LogEntry.term n.log p (msg.data.entries.getD []) := by
      rw [handleAppendEntries_stored hprev hok, followCommit_log]
    rw [hprev] at hok
    obtain ⟨hple, hbelow⟩ := h.le_of_prevLogCheck hmsg hok
    have hmem : ∀ e ∈ overlay LogEntry.term n.log p (msg.data.entries.getD []),
        e ∈ n.log ∨ e ∈ msg.data.entries.getD [] := by
      intro e he
      refine mem_storeEntries (k := (p : ℤ)) ?_
      rwa [storeEntries_eq]
    refine ⟨?_, ?_, ?_, ?_⟩ <;> rw [hlog]
    · exact h.numbered.overlay hple hmsg.numbered
    · exact h.ascending.overlay hple hmsg.ascending hbelow
    · exact fun e he => (hmem e he).elim (h.pos e) (hmsg.pos e)
    · rw [hterm]
      exact fun e he => (hmem e he).elim (h.le e) fun he => (hmsg.le e he).trans ht
  · rw [(handleAppendEntries_refused raises hok).1]
    exact h.of_log_eq (acceptLeader_log _ _) (acceptLeader_currentTerm _ _).ge

theorem WellFormedLog.handleMessage (h : n.WellFormedLog) {msg : Message}
    (hmsg : msg.messageType = .appendEntries → ∃ p, OrderedRequest msg p) :
    (n.handleMessage raises msg).1.WellFormedLog := by
  have hs := h.roleOrder (n.adoptTerm_log msg.term) (n.adoptTerm_roleOrder msg.term)
  by_cases hv : msg.messageType = .requestVote
  · rw [handleMessage_requestVote hv]
    rcases (n.adoptTerm msg.term).handleRequestVote_cases msg with ⟨heq, -⟩ | ⟨-, -, -, heq, -⟩ <;>
      dsimp only <;> rw [heq]
    · exact hs
    · exact hs.of_log_eq rfl le_rfl
  by_cases ha : msg.messageType = .appendEntries
  · obtain ⟨p, hp⟩ := hmsg ha
    rw [handleMessage_appendEntries ha]
    exact hs.handleAppendEntries hp (n.le_adoptTerm msg.term)
  · rw [(handleMessage_other hv ha).1]
    exact hs

theorem WellFormedLog.request (h : n.WellFormedLog) (peer : String) :
    OrderedRequest (n.appendEntriesMessage peer) (n.nextIndex peer) where
  prevLogIndex := rfl
  numbered := h.numbered.drop _
  ascending := h.ascending.drop _
  pos e he := h.pos e (List.mem_of_mem_drop he)
  le e he := h.le e (List.mem_of_mem_drop he)
  prev hp e he := by
    have hmem : e ∈ n.log.drop (n.nextIndex peer) := he
    have hlt : n.nextIndex peer < n.log.length := by
      by_contra hge
      rw [List.drop_of_length_le (by omega)] at hmem
      cases hmem
    obtain ⟨q, hq⟩ := Nat.exists_eq_succ_of_ne_zero hp
    rw [Nat.succ_eq_add_one] at hq
    have hget := List.getElem?_eq_getElem (show q < n.log.length by omega)
    show n.prevLogTerm peer ≤ e.term
    rw [prevLogTerm_eq hq hget]
    rw [hq, List.mem_iff_getElem?] at hmem
    obtain ⟨k, hk⟩ := hmem
    rw [List.getElem?_drop] at hk
    obtain ⟨hklt, rfl⟩ := List.getElem?_eq_some_iff.mp hk
    exact List.pairwise_iff_getElem.mp h.ascending q (q + 1 + k) _ _ (by omega)

end RaftNode

open RaftNode

variable {κ : Type} {cfg : ClusterConfig} {c c' : Cluster κ} {ev : Event κ}

/-! ## The cluster -/

/-- Terms are not negative, and a node that has stood for election has one above 0. -/
theorem stood_of_reach {ok : Cluster κ → Event κ → Prop} (hr : cfg.Reach ok c) (i : String) :
    0 ≤ (c.proc i).raft.currentTerm ∧
      ((c.proc i).raft.state ≠ .follower → 1 ≤ (c.proc i).raft.currentTerm) := by
  rcases roleOrder_of_reach hr i with h | ⟨heq, hstage⟩
  · have hpos : 0 < (c.proc i).raft.currentTerm := h
    exact ⟨hpos.le, fun _ => hpos⟩
  · refine ⟨heq.ge, fun hs => absurd ?_ hs⟩
    cases hstate : (c.proc i).raft.state with
    | follower => rfl
    | candidate =>
      rw [hstate] at hstage
      exact absurd (show 2 ≤ 0 from hstage) (by decide)
    | leader =>
      rw [hstate] at hstage
      exact absurd (show 2 ≤ 1 from hstage) (by decide)

/-- All logs are in order, and so is what is on the wire. -/
structure Cluster.OrderedLogs (c : Cluster κ) : Prop where
  node : ∀ i, (c.proc i).raft.WellFormedLog
  rpc : ∀ rpc ∈ c.rpcs, rpc.request.messageType = .appendEntries →
    ∃ p, OrderedRequest rpc.request p

theorem Cluster.OrderedLogs.step (h : c.OrderedLogs)
    (hlead : ∀ i, (c.proc i).raft.state = .leader → 1 ≤ (c.proc i).raft.currentTerm)
    (hs : Transition c ev c') : c'.OrderedLogs := by
  have hput : ∀ {i : String} {p : Proc κ}, c'.proc = Function.update c.proc i p →
      p.raft.WellFormedLog → (∀ rpc ∈ c'.rpcs, rpc.request.messageType = .appendEntries →
        ∃ p, OrderedRequest rpc.request p) → c'.OrderedLogs := fun hproc hp hrpc =>
    ⟨forall_put (P := fun _ p => p.raft.WellFormedLog) hproc hp fun j _ => h.node j, hrpc⟩
  -- the steps that leave the log of the node alone
  have hsame : ∀ {i : String} {n : RaftNode}, n.log = (c.proc i).raft.log →
      RoleOrder (c.proc i).raft n → n.WellFormedLog := fun hlog ho => (h.node _).roleOrder hlog ho
  have horder := hs.roleOrder
  cases hs with
  | electionTimeout i | raftProcessor i =>
    have := horder i
    rw [put_proc_self] at this
    exact hput rfl (hsame (Proc.startElection_sameLog _ _).log this) h.rpc
  | requestVote i j k t ht hr =>
    exact hput rfl (h.node i) (forall_send h.rpc fun hm => MessageType.noConfusion hm)
  | voteResponse i j k t rpc response ht ha =>
    exact hput rfl (hsame (adoptTerm_log _ _) (adoptTerm_roleOrder _ _)) h.rpc
  | voteTimeout i | heartbeat i | returnAppend i => exact hput rfl (h.node i) h.rpc
  | cancelElection i j f hf hc => exact hput rfl (hsame rfl (.of_eq rfl rfl)) h.rpc
  | finishElection i j f hf hc hd =>
    exact hput rfl (hsame (finishElection_sameLog _ _).log (finishElection_roleOrder _ _)) h.rpc
  | commitEntry i command data caller raises hl hp
  | appendEntry i command data caller raises hl hp =>
    exact hput rfl ((h.node i).appendEntry (hlead i hl) command data) h.rpc
  | sendAppend i owner k t ht hr =>
    refine hput rfl ?_ (forall_send h.rpc fun _ => ⟨_, (h.node i).request t.peer⟩)
    rw [Proc.setTask_raft]
    exact h.node i
  | appendResponse i owner k raises t rpc response ht ha =>
    exact hput rfl (hsame (appendReply_log ..) (appendReply_roleOrder ..)) h.rpc
  | appendTimeout i owner k t rpc ht hw =>
    refine hput rfl ?_ h.rpc
    rw [Proc.setTask_raft]
    exact h.node i
  | handleMessage r raises rpc hr hp reply hreply =>
    have hrpc := h.rpc rpc (List.mem_of_getElem? hr)
    exact hput rfl ((h.node rpc.receiver).handleMessage hrpc) (forall_answer h.rpc hrpc)

theorem Cluster.OrderedLogs.reach {ok : Cluster κ → Event κ → Prop} (hr : cfg.Reach ok c) :
    c.OrderedLogs := by
  induction hr with
  | refl =>
    refine ⟨fun i => ⟨numbered_nil, List.Pairwise.nil, ?_, ?_⟩, ?_⟩ <;>
      simp [ClusterConfig.init, RaftNode.init]
  | tail ev hr _ hs ih =>
    exact ih.step (fun i hl => (stood_of_reach hr i).2 (by simp [hl])) (cfg.transition hs)

/-- In every run, each node's log is numbered from 0 on, and its terms do not decrease, from 1 to
the node's own term. -/
theorem log_wellFormed (hr : cfg.Reach Runs.Any c) (i : String) : (c.proc i).raft.WellFormedLog :=
  (OrderedLogs.reach hr).node i

/-- The two leaders of term 4 have different entries, and both logs are in order. -/
theorem log_wellFormed_twoLeaders : ∃ c : Cluster Unit, threeNodes.Reach Runs.Any c ∧
    ((c.proc "a").raft.log.map LogEntry.command = ["x", "y"] ∧
      (c.proc "b").raft.log.map LogEntry.command = ["z"]) ∧
    (c.proc "a").raft.WellFormedLog ∧ (c.proc "b").raft.WellFormedLog := by
  obtain ⟨c, hr, hlog⟩ := Runs.exists_of_runList threeNodes.step threeNodes.init
    (twoLeaders ++ [submit "a" "x", submit "a" "y", submit "b" "z"])
    (fun c => (c.proc "a").raft.log.map LogEntry.command = ["x", "y"] ∧
      (c.proc "b").raft.log.map LogEntry.command = ["z"]) (by decide +kernel)
  exact ⟨c, hr, hlog, log_wellFormed hr "a", log_wellFormed hr "b"⟩

end DistributedSync
