import DistributedSync.Raft.Delivery

/-!
# Where entries come from

A node makes no entry of its own: what it logs and delivers comes from `append_entry` or from a
request. So a property that all appended entries have is one of every log, every request and every
delivered entry (`Cluster.AllEntries.reach`).
-/

namespace DistributedSync

namespace RaftNode

variable {P : LogEntry → Prop} {n m : RaftNode} {raises : Raises}

/-! ## One node -/

/-- Every entry that the node has logged or delivered has the property. -/
structure AllEntries (P : LogEntry → Prop) (n : RaftNode) : Prop where
  log : ∀ e ∈ n.log, P e
  delivered : ∀ e ∈ n.delivered, P e

theorem SameLog.allEntries (h : SameLog n m) (hn : n.AllEntries P) : m.AllEntries P where
  log := h.log ▸ hn.log
  delivered := h.delivered ▸ hn.delivered

theorem mem_of_getItem {l : List LogEntry} {k : ℤ} {e : LogEntry} (h : getItem l k = some e) :
    e ∈ l := by
  unfold getItem at h
  split at h
  · exact List.mem_of_getElem? h
  · split at h
    · exact List.mem_of_getElem? h
    · cases h

theorem mem_of_mem_sliceTo {l : List LogEntry} {k : ℤ} {e : LogEntry} (h : e ∈ sliceTo l k) :
    e ∈ l := by
  unfold sliceTo at h
  split at h <;> exact List.mem_of_mem_take h

theorem AllEntries.applyLoop (h : n.AllEntries P) (k : ℕ) :
    (applyLoop raises k n).1.AllEntries P := by
  induction k generalizing n with
  | zero => exact h
  | succ k ih =>
    rw [RaftNode.applyLoop]
    dsimp only
    rcases he : getItem n.log (n.lastApplied + 1) with _ | e
    · exact ⟨h.log, h.delivered⟩
    · have hnew : ∀ e' ∈ n.delivered ++ [e], P e' := List.forall_mem_append.mpr
        ⟨h.delivered, List.forall_mem_singleton.mpr (h.log e (mem_of_getItem he))⟩
      dsimp only
      split
      · exact ⟨h.log, hnew⟩
      · exact ih ⟨h.log, hnew⟩

theorem AllEntries.applyCommittedEntries (h : n.AllEntries P) :
    (n.applyCommittedEntries raises).1.AllEntries P := h.applyLoop _

theorem AllEntries.updateCommitIndex (h : n.AllEntries P) :
    (n.updateCommitIndex raises).1.AllEntries P := by
  rcases n.updateCommitIndex_cases raises with heq | ⟨-, -, heq⟩ <;> rw [heq]
  · exact h
  · exact AllEntries.applyCommittedEntries ⟨h.log, h.delivered⟩

theorem AllEntries.appendReply (h : n.AllEntries P) (peer : String) (last : ℤ)
    (response : Message) :
    (n.appendReply raises peer last response).1.AllEntries P := by
  rcases n.appendReply_cases raises peer last response with ⟨-, heq⟩ | ⟨-, heq⟩ <;> rw [heq]
  · exact AllEntries.updateCommitIndex ⟨h.log, h.delivered⟩
  · exact ((n.adoptTerm_sameLog _).trans (backOff_sameLog _ peer)).allEntries h

theorem AllEntries.appendEntry (h : n.AllEntries P) {command : String} {data : Dict}
    (hnew : P (n.newEntry command data)) : (n.appendEntry raises command data).1.AllEntries P := by
  have hlog : ∀ e ∈ n.log ++ [n.newEntry command data], P e :=
    List.forall_mem_append.mpr ⟨h.log, List.forall_mem_singleton.mpr hnew⟩
  unfold RaftNode.appendEntry
  dsimp only
  split
  · exact AllEntries.applyCommittedEntries ⟨hlog, h.delivered⟩
  · exact ⟨hlog, h.delivered⟩

/-- The loop over the entries keeps entries of the log and adds some that it is given. -/
theorem mem_storeEntries {k : ℤ} {es log : List LogEntry} {e : LogEntry}
    (h : e ∈ (storeEntries k es log).1) : e ∈ log ∨ e ∈ es := by
  induction es generalizing k log with
  | nil => exact Or.inl h
  | cons e' es ih =>
    unfold storeEntries at h
    rcases ht : truncateConflict k e' log with _ | log' <;> rw [ht] at h
    · exact Or.inl h
    · have hlog' : ∀ x ∈ log', x ∈ log := by
        unfold truncateConflict at ht
        split at ht
        · obtain ⟨x, -, hx⟩ := Option.map_eq_some_iff.mp ht
          split at hx <;> subst hx
          · exact fun x hx => mem_of_mem_sliceTo hx
          · exact fun x hx => hx
        · cases ht
          exact fun x hx => hx
      rcases ih h with h | h
      · split at h
        · rcases List.mem_append.mp h with h | h
          · exact Or.inl (hlog' e h)
          · rw [List.mem_singleton.mp h]
            exact Or.inr List.mem_cons_self
        · exact Or.inl (hlog' e h)
      · exact Or.inr (List.mem_cons_of_mem _ h)

theorem AllEntries.handleAppendEntries (h : n.AllEntries P) {msg : Message}
    (hes : ∀ e ∈ msg.data.entries.getD [], P e) :
    (n.handleAppendEntries raises msg).1.AllEntries P := by
  have ha : (n.acceptLeader msg.senderId).AllEntries P := (n.acceptLeader_sameLog _).allEntries h
  unfold RaftNode.handleAppendEntries
  dsimp only
  split
  · exact ha
  · exact ha
  · have hlog : ∀ e ∈ (storeEntries (msg.data.prevLogIndex.getD 0 + 1) (msg.data.entries.getD [])
        (n.acceptLeader msg.senderId).log).1, P e :=
      fun e he => (mem_storeEntries he).elim (ha.log e) (hes e)
    split
    · dsimp only [followCommit]
      split
      · exact AllEntries.applyCommittedEntries ⟨hlog, ha.delivered⟩
      · exact ⟨hlog, ha.delivered⟩
    · exact ⟨hlog, ha.delivered⟩

theorem AllEntries.handleMessage (h : n.AllEntries P) {msg : Message}
    (hes : ∀ e ∈ msg.data.entries.getD [], P e) : (n.handleMessage raises msg).1.AllEntries P := by
  have hs := (n.adoptTerm_sameLog msg.term).allEntries h
  by_cases hv : msg.messageType = .requestVote
  · rw [handleMessage_requestVote hv]
    exact (handleRequestVote_sameLog _ msg).allEntries hs
  by_cases ha : msg.messageType = .appendEntries
  · rw [handleMessage_appendEntries ha]
    exact AllEntries.handleAppendEntries hs hes
  · rw [(handleMessage_other hv ha).1]
    exact hs

end RaftNode

open Cluster RaftNode

variable {κ : Type} {P : LogEntry → Prop} {cfg : ClusterConfig} {c c' : Cluster κ} {ev : Event κ}

/-! ## The cluster -/

structure Cluster.AllEntries (P : LogEntry → Prop) (c : Cluster κ) : Prop where
  node : ∀ i, (c.proc i).raft.AllEntries P
  rpc : ∀ rpc ∈ c.rpcs, ∀ e ∈ rpc.request.data.entries.getD [], P e

def Appends (P : LogEntry → Prop) (c : Cluster κ) : Event κ → Prop
  | .appendEntry i command data _ _ => P ((c.proc i).raft.newEntry command data)
  | _ => True

theorem Cluster.AllEntries.step (h : c.AllEntries P) (hok : Appends P c ev)
    (hs : Transition c ev c') : c'.AllEntries P := by
  have hput : ∀ {i : String} {p : Proc κ}, c'.proc = Function.update c.proc i p →
      p.raft.AllEntries P → (∀ rpc ∈ c'.rpcs, ∀ e ∈ rpc.request.data.entries.getD [], P e) →
      c'.AllEntries P := fun hproc hp hrpc =>
    ⟨forall_put (P := fun _ p => p.raft.AllEntries P) hproc hp fun j _ => h.node j, hrpc⟩
  cases hs with
  | electionTimeout i | raftProcessor i =>
    exact hput rfl ((Proc.startElection_sameLog _ _).allEntries (h.node i)) h.rpc
  | requestVote i j k t ht hr =>
    exact hput rfl (h.node i) (forall_send h.rpc fun e he => by simp [requestVoteMessage] at he)
  | voteResponse i j k t rpc response ht ha =>
    exact hput rfl ((adoptTerm_sameLog _ _).allEntries (h.node i)) h.rpc
  | voteTimeout i | heartbeat i | returnAppend i => exact hput rfl (h.node i) h.rpc
  | cancelElection i j f hf hc =>
    have hsame : SameLog (c.proc i).raft (c.proc i).raft.endElection := ⟨rfl, rfl, rfl, rfl⟩
    exact hput rfl (hsame.allEntries (h.node i)) h.rpc
  | finishElection i j f hf hc hd =>
    exact hput rfl ((finishElection_sameLog _ _).allEntries (h.node i)) h.rpc
  | commitEntry i command data caller raises hl hp
  | appendEntry i command data caller raises hl hp =>
    exact hput rfl ((h.node i).appendEntry hok) h.rpc
  | sendAppend i owner k t ht hr =>
    refine hput rfl ?_ (forall_send h.rpc fun e he => (h.node i).log e (List.mem_of_mem_drop he))
    rw [Proc.setTask_raft]
    exact h.node i
  | appendResponse i owner k raises t rpc response ht ha =>
    exact hput rfl ((h.node i).appendReply ..) h.rpc
  | appendTimeout i owner k t rpc ht hw =>
    refine hput rfl ?_ h.rpc
    rw [Proc.setTask_raft]
    exact h.node i
  | handleMessage r raises rpc hr hp reply hreply =>
    have hrpc := h.rpc rpc (List.mem_of_getElem? hr)
    exact hput rfl ((h.node rpc.receiver).handleMessage hrpc) (forall_answer h.rpc hrpc)

theorem Cluster.AllEntries.reach (hr : cfg.Reach (Appends P) c) : c.AllEntries P := by
  refine hr.invariant ?_ fun _ _ _ h hok hs => h.step hok (cfg.transition hs)
  refine ⟨fun i => ⟨?_, ?_⟩, ?_⟩ <;> simp [ClusterConfig.init, RaftNode.init]

end DistributedSync
