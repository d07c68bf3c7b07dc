import DistributedSync.Raft.LogMatching

/-!
# Delivery of entries

Over every run in which the callbacks do not raise, the entries delivered on a node are those of the
positions 0, 1, ..., `last_applied`, each once and each carrying its position as its index
(`delivered_exactly_once`). The log is free to change below `last_applied`. What carries the proof
is that entries are numbered by their positions, in the logs and on the wire (`NumberedRpc`), and
that a new commit index lies inside the log (`Ready`).
-/

namespace DistributedSync

open TermLog

namespace RaftNode

variable {n m n' : RaftNode} {raises : Raises}

/-! ## One node -/

/-- Everything up to `last_applied` has been delivered, and nothing is waiting. -/
structure InStep (n : RaftNode) : Prop where
  log : Numbered LogEntry.index 0 n.log
  delivered : Numbered LogEntry.index 0 n.delivered
  count : (n.delivered.length : ℤ) = n.lastApplied + 1
  commit_le : n.commitIndex ≤ n.lastApplied

/-- From `n` to `n'` the entries after `last_applied` have been delivered, up to the new
`last_applied`. The loop raises `last_applied` before it reads the log there, so `inRange` speaks of
all its accesses. -/
structure Delivers (n n' : RaftNode) : Prop where
  inStep : n'.InStep
  new : ∃ new, n'.delivered = n.delivered ++ new ∧
    ∀ (k : ℕ) (e : LogEntry), new[k]? = some e → n'.log[n.delivered.length + k]? = some e
  inRange : ∀ p, n.lastApplied < p → p ≤ n'.lastApplied → 0 ≤ p ∧ p < n'.log.length

/-- The state `m` of a method that started in `n`, before it calls the callbacks, if it does. -/
structure Ready (n m : RaftNode) : Prop where
  lastApplied : m.lastApplied = n.lastApplied
  delivered : m.delivered = n.delivered
  log : Numbered LogEntry.index 0 m.log
  commit : m.commitIndex = n.commitIndex ∨ m.commitIndex < m.log.length

theorem Ready.apply (hr : ∀ p, raises p = false) (h : n.InStep) (hm : Ready n m) :
    Delivers n (m.applyCommittedEntries raises).1 := by
  obtain ⟨-, hdel, hcount, hle⟩ := h
  obtain ⟨k, hk⟩ : ∃ k, k = (m.commitIndex - m.lastApplied).toNat := ⟨_, rfl⟩
  have hla := hm.lastApplied
  have hlen : n.delivered.length + k ≤ m.log.length ∨ k = 0 := by
    rcases hm.commit with hc | hc <;> omega
  have heq : (m.applyCommittedEntries raises).1 = { m with
      lastApplied := n.lastApplied + k
      delivered := n.delivered ++ (m.log.drop n.delivered.length).take k } := by
    unfold applyCommittedEntries
    rw [← hk, ← hm.delivered, ← hla]
    rcases hlen with hlen | rfl
    · rw [applyLoop_eq hr (p := n.delivered.length) (by rw [hcount, hla]) hlen, hm.delivered]
    · simp [applyLoop]
  have hnew : ((m.log.drop n.delivered.length).take k).length = k := by
    rw [List.length_take, List.length_drop]
    omega
  rw [heq]
  refine ⟨⟨hm.log, ?_, ?_, ?_⟩, ⟨_, rfl, fun j e hj => ?_⟩, fun p hp hp' => ?_⟩
  · intro j e hj
    rcases Nat.lt_or_ge j n.delivered.length with hlt | hge
    · exact hdel j e (by rwa [List.getElem?_append_left hlt] at hj)
    · rw [List.getElem?_append_right hge] at hj
      have := TermLog.Numbered.of_prefix (hm.log.drop n.delivered.length) (List.take_prefix k _)
        _ e hj
      omega
  · simp only [List.length_append, hnew]
    omega
  · show m.commitIndex ≤ n.lastApplied + k
    omega
  · have hlt : j < k := hnew ▸ (List.getElem?_eq_some_iff.mp hj).1
    rwa [List.getElem?_take_of_lt hlt, List.getElem?_drop] at hj
  · replace hp' : p ≤ n.lastApplied + k := hp'
    show 0 ≤ p ∧ p < m.log.length
    omega

theorem Ready.stay (h : n.InStep) (hm : Ready n m) (hc : m.commitIndex = n.commitIndex) :
    Delivers n m := by
  obtain ⟨-, hdel, hcount, hle⟩ := h
  refine ⟨⟨hm.log, ?_, ?_, ?_⟩, ⟨[], ?_, fun k e hk => by simp at hk⟩, fun p hp hp' => ?_⟩
  · rw [hm.delivered]
    exact hdel
  · rw [hm.delivered, hm.lastApplied, hcount]
  · rw [hc, hm.lastApplied]
    exact hle
  · rw [hm.delivered, List.append_nil]
  · rw [hm.lastApplied] at hp'
    omega

/-! ## The methods -/

/-- The method leaves log, commit index and deliveries alone. -/
structure SameLog (n m : RaftNode) : Prop where
  log : m.log = n.log
  commitIndex : m.commitIndex = n.commitIndex
  lastApplied : m.lastApplied = n.lastApplied
  delivered : m.delivered = n.delivered

theorem SameLog.refl : SameLog n n := ⟨rfl, rfl, rfl, rfl⟩

theorem SameLog.trans (h : SameLog n m) (h' : SameLog m n') : SameLog n n' :=
  ⟨h'.log.trans h.log, h'.commitIndex.trans h.commitIndex, h'.lastApplied.trans h.lastApplied,
    h'.delivered.trans h.delivered⟩

theorem SameLog.ready (h : SameLog n m) (hn : n.InStep) : Ready n m :=
  ⟨h.lastApplied, h.delivered, h.log ▸ hn.log, Or.inl h.commitIndex⟩

theorem SameLog.delivers (h : SameLog n m) (hn : n.InStep) : Delivers n m :=
  (h.ready hn).stay hn h.commitIndex

theorem SameLog.inStep (h : SameLog n m) (hn : n.InStep) : m.InStep := (h.delivers hn).inStep

theorem SameLog.trans_delivers (h : SameLog n m) (hd : Delivers m n') : Delivers n n' := by
  obtain ⟨hi, hnew, hrange⟩ := hd
  rw [h.delivered] at hnew
  rw [h.lastApplied] at hrange
  exact ⟨hi, hnew, hrange⟩

theorem adoptTerm_sameLog (n : RaftNode) (t : ℤ) : SameLog n (n.adoptTerm t) := by
  unfold adoptTerm
  split <;> exact ⟨rfl, rfl, rfl, rfl⟩

theorem startElection_sameLog (n : RaftNode) : SameLog n n.startElection := by
  unfold startElection
  split <;> exact ⟨rfl, rfl, rfl, rfl⟩

theorem finishElection_sameLog (n : RaftNode) (v : ℕ) : SameLog n (n.finishElection v) := by
  unfold finishElection
  split <;> exact ⟨rfl, rfl, rfl, rfl⟩

theorem backOff_sameLog (n : RaftNode) (peer : String) : SameLog n (n.backOff peer) := by
  unfold backOff
  split <;> exact ⟨rfl, rfl, rfl, rfl⟩

theorem acceptLeader_sameLog (n : RaftNode) (sender : String) :
    SameLog n (n.acceptLeader sender) := by
  unfold acceptLeader
  split <;> exact ⟨rfl, rfl, rfl, rfl⟩

theorem handleRequestVote_sameLog (n : RaftNode) (msg : Message) :
    SameLog n (n.handleRequestVote msg).1 := by
  rcases n.handleRequestVote_cases msg with ⟨h, _⟩ | ⟨_, _, _, h, _⟩ <;> rw [h] <;>
    exact ⟨rfl, rfl, rfl, rfl⟩

section Silent

variable (hr : ∀ p, raises p = false)

include hr

theorem updateCommitIndex_delivers (h : n.InStep) : Delivers n (n.updateCommitIndex raises).1 := by
  rcases n.updateCommitIndex_cases raises with heq | ⟨-, hmay, heq⟩ <;> rw [heq]
  · exact SameLog.refl.delivers h
  · exact Ready.apply hr h ⟨rfl, rfl, h.log, Or.inr (mayCommit_iff.mp hmay).2.1⟩

theorem appendReply_delivers (h : n.InStep) (peer : String) (last : ℤ) (response : Message) :
    Delivers n (n.appendReply raises peer last response).1 := by
  rcases n.appendReply_cases raises peer last response with ⟨-, heq⟩ | ⟨-, heq⟩ <;> rw [heq]
  · have hs : SameLog n (n.recordMatch peer last) := ⟨rfl, rfl, rfl, rfl⟩
    exact hs.trans_delivers (updateCommitIndex_delivers hr (hs.inStep h))
  · exact ((n.adoptTerm_sameLog _).trans (backOff_sameLog _ peer)).delivers h

theorem appendEntry_delivers (h : n.InStep) (command : String) (data : Dict) :
    Delivers n (n.appendEntry raises command data).1 := by
  have hlog : Numbered LogEntry.index 0 (n.log ++ [n.newEntry command data]) :=
    h.log.concat (by simp [newEntry])
  unfold appendEntry
  dsimp only
  split
  · refine Ready.apply hr h ⟨rfl, rfl, hlog, Or.inr ?_⟩
    show (n.log.length : ℤ) < (n.log ++ [n.newEntry command data]).length
    rw [List.length_append, List.length_singleton]
    omega
  · exact Ready.stay h ⟨rfl, rfl, hlog, Or.inl rfl⟩ rfl

/-- Stored entries must carry their positions. -/
theorem handleAppendEntries_delivers (h : n.InStep) {msg : Message} {p : ℕ}
    (hp : msg.data.prevLogIndex = some ((p : ℤ) - 1))
    (hes : Numbered LogEntry.index p (msg.data.entries.getD [])) :
    Delivers n (n.handleAppendEntries raises msg).1 := by
  have hprev : msg.data.prevLogIndex.getD 0 = (p : ℤ) - 1 := by rw [hp, Option.getD_some]
  by_cases hok : n.prevLogCheck (msg.data.prevLogIndex.getD 0) (msg.data.prevLogTerm.getD 0) =
      some true
  · rw [handleAppendEntries_stored hprev hok]
    have hple : p ≤ n.log.length := by
      rw [hprev] at hok
      rcases prevLogCheck_pred.mp hok with rfl | ⟨e, he, -⟩
      · omega
      · have := (List.getElem?_eq_some_iff.mp he).1
        omega
    have hs := n.acceptLeader_sameLog msg.senderId
    generalize n.acceptLeader msg.senderId = k at hs
    have hlog : TermLog.Numbered LogEntry.index 0
        (TermLog.overlay LogEntry.term n.log p (msg.data.entries.getD [])) := h.log.overlay hple hes
    generalize TermLog.overlay LogEntry.term n.log p (msg.data.entries.getD []) = log at hlog
    rcases followCommit_cases { k with log } raises (msg.data.leaderCommit.getD 0) with
      ⟨-, heq⟩ | ⟨-, heq⟩ <;> rw [heq]
    · exact Ready.stay h ⟨hs.lastApplied, hs.delivered, hlog, Or.inl hs.commitIndex⟩
        hs.commitIndex
    · refine Ready.apply hr h ⟨hs.lastApplied, hs.delivered, hlog, Or.inr ?_⟩
      show min _ ((log.length : ℤ) - 1) < log.length
      omega
  · rw [(handleAppendEntries_refused raises hok).1]
    exact (n.acceptLeader_sameLog _).delivers h

theorem handleMessage_delivers (h : n.InStep) {msg : Message}
    (hmsg : msg.messageType = .appendEntries → ∃ p : ℕ,
      msg.data.prevLogIndex = some ((p : ℤ) - 1) ∧
        Numbered LogEntry.index p (msg.data.entries.getD [])) :
    Delivers n (n.handleMessage raises msg).1 := by
  have hs := n.adoptTerm_sameLog msg.term
  by_cases hv : msg.messageType = .requestVote
  · rw [handleMessage_requestVote hv]
    exact (hs.trans (handleRequestVote_sameLog _ msg)).delivers h
  by_cases ha : msg.messageType = .appendEntries
  · obtain ⟨p, hp, hes⟩ := hmsg ha
    rw [handleMessage_appendEntries ha]
    exact hs.trans_delivers (handleAppendEntries_delivers hr (hs.inStep h) hp hes)
  · rw [(handleMessage_other hv ha).1]
    exact hs.delivers h

end Silent

end RaftNode

open Cluster RaftNode

variable {κ : Type} {cfg : ClusterConfig} {c c' : Cluster κ} {ev : Event κ}

/-! ## The cluster -/

theorem Proc.startElection_sameLog (p : Proc κ) (cancelled : Bool) :
    SameLog p.raft (p.startElection cancelled).raft := by
  rw [Proc.startElection_raft]
  split
  · exact (RaftNode.startElection_sameLog _).trans (finishElection_sameLog _ 1)
  · exact RaftNode.startElection_sameLog _

def Silent (_ : Cluster κ) (ev : Event κ) : Prop := ∀ p, ev.raises p = false

/-- An APPEND_ENTRIES carries the entries of the positions after `prev_log_index`. -/
def NumberedRpc (rpc : Rpc) : Prop :=
  rpc.request.messageType = .appendEntries → ∃ p : ℕ,
    rpc.request.data.prevLogIndex = some ((p : ℤ) - 1) ∧
      Numbered LogEntry.index p (rpc.request.data.entries.getD [])

theorem numberedRpc_send {n : RaftNode} (h : n.InStep) (i peer : String) :
    NumberedRpc { sender := i, receiver := peer, request := n.appendEntriesMessage peer } :=
  fun _ => ⟨n.nextIndex peer, rfl, h.log.drop _⟩

structure Cluster.InStep (c : Cluster κ) : Prop where
  node : ∀ i, (c.proc i).raft.InStep
  rpc : ∀ rpc ∈ c.rpcs, NumberedRpc rpc

theorem Cluster.InStep.init (cfg : ClusterConfig) : (cfg.init : Cluster κ).InStep where
  node _ := ⟨numbered_nil, numbered_nil, rfl, le_rfl⟩
  rpc _ h := by simp [ClusterConfig.init] at h

theorem Cluster.InStep.step (h : c.InStep) (hok : Silent c ev) (hs : Transition c ev c') :
    c'.InStep ∧ ∀ i, Delivers (c.proc i).raft (c'.proc i).raft := by
  have hput : ∀ {i : String} {p : Proc κ}, c'.proc = Function.update c.proc i p →
      Delivers (c.proc i).raft p.raft → (∀ rpc ∈ c'.rpcs, NumberedRpc rpc) →
      c'.InStep ∧ ∀ i, Delivers (c.proc i).raft (c'.proc i).raft := by
    intro i p hproc hd hrpc
    have hall := forall_put (P := fun i p => Delivers (c.proc i).raft p.raft) hproc hd
      fun j _ => SameLog.refl.delivers (h.node j)
    exact ⟨⟨fun i => (hall i).inStep, hrpc⟩, hall⟩
  have hsame : ∀ {i : String} {n : RaftNode}, SameLog (c.proc i).raft n →
      Delivers (c.proc i).raft n := fun {i} _ hn => hn.delivers (h.node i)
  cases hs with
  | electionTimeout i | raftProcessor i =>
    exact hput rfl (hsame (Proc.startElection_sameLog _ _)) h.rpc
  | requestVote i j k t ht hr =>
    exact hput rfl (hsame .refl) (forall_send h.rpc fun hm => MessageType.noConfusion hm)
  | voteResponse i j k t rpc response ht ha =>
    exact hput rfl (hsame (adoptTerm_sameLog _ _)) h.rpc
  | voteTimeout i j k t rpc ht hw => exact hput rfl (hsame .refl) h.rpc
  | cancelElection i j f hf hc => exact hput rfl (hsame ⟨rfl, rfl, rfl, rfl⟩) h.rpc
  | finishElection i j f hf hc hd => exact hput rfl (hsame (finishElection_sameLog _ _)) h.rpc
  | heartbeat i ht hl hd => exact hput rfl (hsame .refl) h.rpc
  | commitEntry i command data caller raises hl hp
  | appendEntry i command data caller raises hl hp =>
    exact hput rfl (appendEntry_delivers hok (h.node i) command data) h.rpc
  | sendAppend i owner k t ht hr =>
    refine hput rfl (hsame ?_) (forall_send h.rpc (numberedRpc_send (h.node i) i t.peer))
    rw [Proc.setTask_raft]
    exact .refl
  | appendResponse i owner k raises t rpc response ht ha =>
    exact hput rfl (appendReply_delivers hok (h.node i) _ _ _) h.rpc
  | appendTimeout i owner k t rpc ht hw =>
    refine hput rfl (hsame ?_) h.rpc
    rw [Proc.setTask_raft]
    exact .refl
  | returnAppend i j call hcall hd => exact hput rfl (hsame .refl) h.rpc
  | handleMessage r raises rpc hr hp reply hreply =>
    have hrpc := h.rpc rpc (List.mem_of_getElem? hr)
    exact hput rfl (handleMessage_delivers hok (h.node rpc.receiver) hrpc)
      (forall_answer h.rpc hrpc)

/-- In every run the entries delivered on a node are those of the positions up to `last_applied`,
in order and each once, and no access to the log is out of range. -/
theorem delivered_exactly_once (hr : cfg.Reach Silent c) (hok : Silent c ev)
    (hs : cfg.step c ev = some c') (i : String) :
    (c.proc i).raft.InStep ∧ Delivers (c.proc i).raft (c'.proc i).raft := by
  have h : c.InStep := hr.invariant (.init cfg) fun _ _ _ hin hsilent hstep =>
    (hin.step hsilent (cfg.transition hstep)).1
  exact ⟨h.node i, (h.step hok (cfg.transition hs)).2 i⟩

/-- Leader `a` has two entries on `b` and delivers both when `b` answers. -/
theorem delivered_exactly_once_two : ∃ c c' : Cluster Unit, threeNodes.Reach Silent c ∧
    threeNodes.step c (.appendResponse "a" (.append 1) 0 never) = some c' ∧
    (c'.proc "a").raft.delivered.length = 2 ∧
    ((c.proc "a").raft.InStep ∧ Delivers (c.proc "a").raft (c'.proc "a").raft) := by
  obtain ⟨c, hr, hs⟩ := Runs.exists_of_forall threeNodes.step Silent threeNodes.init
    (electA ++ [submit "a" "x", submit "a" "y", .sendAppend "a" (.append 1) 0,
      .handleMessage 2 never])
    (fun c => (threeNodes.step c (.appendResponse "a" (.append 1) 0 never)).any
      (fun c' => (c'.proc "a").raft.delivered.length = 2) = true)
    (by simp [electA, stand, ask, askInVain, submit, Silent, Event.raises, never])
    (by decide +kernel)
  obtain ⟨c', hs, hlen⟩ := (Option.any_eq_true _ _).mp hs
  exact ⟨c, c', hr, hs, of_decide_eq_true hlen,
    delivered_exactly_once hr (fun _ => rfl) hs "a"⟩

end DistributedSync
