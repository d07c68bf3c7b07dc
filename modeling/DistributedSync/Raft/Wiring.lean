import DistributedSync.Raft.Transition

/-!
# The frames and their RPCs

`Wired` is the invariant of the coroutines: every task belongs to a peer of its node, waits for an
RPC that its node has sent to this peer, and returns true only if the reply does. It holds in
every reachable state, whatever the messages say.
-/

namespace DistributedSync

open Cluster

variable {κ : Type} {c c' : Cluster κ} {ev : Event κ} {i : String} {rpcs rpcs' : List Rpc}
  {kind : MessageType} {accepts : Message → Bool} {tasks : List RpcTask} {t t' : RpcTask}

def Message.granted (m : Message) : Bool := m.data.voteGranted.getD false

def Message.succeeded (m : Message) : Bool := m.data.success.getD false

/-- A task of node `i` with a request of the given kind; it returns true only when the reply
`accepts` it. -/
structure WiredTask (kind : MessageType) (accepts : Message → Bool) (rpcs : List Rpc) (i : String)
    (t : RpcTask) : Prop where
  unsent : t.rpc = none → t.result = none
  sent : ∀ r, t.rpc = some r → ∃ rpc, rpcs[r]? = some rpc ∧ rpc.sender = i ∧
    rpc.receiver = t.peer ∧ rpc.request.messageType = kind ∧
    (t.result = some true → ∃ m, rpc.reply = .answered m ∧ accepts m = true)

/-- The tasks of one gather of node `i`: one for each peer, or none when it was cancelled. -/
structure WiredTasks (kind : MessageType) (accepts : Message → Bool) (rpcs : List Rpc) (i : String)
    (peers : List String) (tasks : List RpcTask) : Prop where
  peers : tasks = [] ∨ tasks.map RpcTask.peer = peers
  task : ∀ t ∈ tasks, WiredTask kind accepts rpcs i t

/-- The frames of node `i`. -/
structure WiredProc (rpcs : List Rpc) (i : String) (p : Proc κ) : Prop where
  election : ∀ f ∈ p.elections,
    WiredTasks .requestVote Message.granted rpcs i p.raft.peers f.tasks
  append : ∀ f ∈ p.appendCalls,
    WiredTasks .appendEntries Message.succeeded rpcs i p.raft.peers f.tasks
  heartbeat : WiredTasks .appendEntries Message.succeeded rpcs i p.raft.peers p.heartbeats

/-- Every node has its id and its peers, and its frames are in order. -/
structure Wired (cfg : ClusterConfig) (c : Cluster κ) : Prop where
  nodeId : ∀ i, (c.proc i).raft.nodeId = i
  peers : ∀ i, (c.proc i).raft.peers = cfg.peers i
  proc : ∀ i, WiredProc c.rpcs i (c.proc i)

theorem WiredTask.later (h : WiredTask kind accepts rpcs i t) (hl : Later rpcs rpcs') :
    WiredTask kind accepts rpcs' i t where
  unsent := h.unsent
  sent r hr := by
    obtain ⟨rpc, hrpc, hs, hrec, hk, hres⟩ := h.sent r hr
    obtain ⟨rpc', hrpc', hs', hrec', hq, ha⟩ := hl r rpc hrpc
    refine ⟨rpc', hrpc', by rw [hs', hs], by rw [hrec', hrec], by rw [hq, hk], fun ht => ?_⟩
    obtain ⟨m, hm, haccepts⟩ := hres ht
    exact ⟨m, ha m hm, haccepts⟩

theorem WiredTasks.later {peers : List String} (h : WiredTasks kind accepts rpcs i peers tasks)
    (hl : Later rpcs rpcs') : WiredTasks kind accepts rpcs' i peers tasks :=
  ⟨h.peers, fun t ht => (h.task t ht).later hl⟩

theorem WiredProc.later {p : Proc κ} (h : WiredProc rpcs i p) (hl : Later rpcs rpcs') :
    WiredProc rpcs' i p :=
  ⟨fun f hf => (h.election f hf).later hl, fun f hf => (h.append f hf).later hl,
    h.heartbeat.later hl⟩

/-! ## Tasks -/

theorem WiredTasks.nil {peers : List String} : WiredTasks kind accepts rpcs i peers [] :=
  ⟨Or.inl rfl, fun t ht => by simp at ht⟩

theorem WiredTasks.gather (peers : List String) :
    WiredTasks kind accepts rpcs i peers (gather peers) := by
  refine ⟨Or.inr ?_, fun t ht => ?_⟩
  · unfold DistributedSync.gather
    rw [List.map_map]
    exact List.map_id _
  · obtain ⟨p, -, rfl⟩ := List.mem_map.mp ht
    exact ⟨fun _ => rfl, fun r hr => by simp at hr⟩

theorem WiredTasks.set {peers : List String} {k : ℕ}
    (h : WiredTasks kind accepts rpcs i peers tasks)
    (ht : tasks[k]? = some t) (hp : t'.peer = t.peer) (ht' : WiredTask kind accepts rpcs i t') :
    WiredTasks kind accepts rpcs i peers (tasks.set k t') := by
  refine ⟨?_, fun u hu => ?_⟩
  · rcases h.peers with rfl | hpeers
    · exact Or.inl rfl
    · refine Or.inr ?_
      rw [List.map_set, hp, ← hpeers]
      refine List.ext_getElem? fun q => ?_
      by_cases hq : k = q
      · subst hq
        have hlt := (List.getElem?_eq_some_iff.mp ht).1
        rw [List.getElem?_set_self (by rwa [List.length_map]), List.getElem?_map, ht]
        rfl
      · rw [List.getElem?_set_ne hq]
  · rcases List.mem_or_eq_of_mem_set hu with hu | rfl
    · exact h.task u hu
    · exact ht'

theorem WiredTask.send {m : Message} (h : WiredTask kind accepts rpcs i t) (hr : t.rpc = none)
    (hm : m.messageType = kind) :
    WiredTask kind accepts (rpcs ++ [{ sender := i, receiver := t.peer, request := m }]) i
      { t with rpc := some rpcs.length } where
  unsent := by simp
  sent r hr' := by
    cases hr'
    refine ⟨_, List.getElem?_concat_length, rfl, rfl, hm, fun ht => ?_⟩
    simp [h.unsent hr] at ht

theorem WiredTask.return {rpc : Rpc} {b : Bool} (h : WiredTask kind accepts c.rpcs i t)
    (hw : c.waitingRpc t = some rpc)
    (hb : b = true → ∃ m, rpc.reply = .answered m ∧ accepts m = true) :
    WiredTask kind accepts c.rpcs i { t with result := some b } := by
  obtain ⟨-, r, hr, hrpc⟩ := waitingRpc_some hw
  refine ⟨fun hn => ?_, fun r' hr' => ?_⟩
  · simp [hr] at hn
  · obtain ⟨rpc', hrpc', hs, hrec, hk, -⟩ := h.sent r' hr'
    refine ⟨rpc', hrpc', hs, hrec, hk, fun hres => ?_⟩
    change t.rpc = some r' at hr'
    rw [hr, Option.some.injEq] at hr'
    subst hr'
    rw [hrpc, Option.some.injEq] at hrpc'
    subst hrpc'
    exact hb (by simpa using hres)

theorem mem_modify {α : Type*} {l : List α} {j : ℕ} {g : α → α} {x : α} (hx : x ∈ l.modify j g) :
    x ∈ l ∨ ∃ y, l[j]? = some y ∧ x = g y := by
  obtain ⟨k, hk⟩ := List.mem_iff_getElem?.mp hx
  rw [List.getElem?_modify] at hk
  obtain ⟨y, hl, rfl⟩ := Option.map_eq_some_iff.mp hk
  by_cases hjk : j = k
  · subst hjk
    exact Or.inr ⟨y, hl, if_pos rfl⟩
  · refine Or.inl ?_
    rw [if_neg hjk]
    exact List.mem_of_getElem? hl

/-! ## Frames -/

section Frames

variable {p : Proc κ} {n : RaftNode} (h : WiredProc rpcs i p)

include h

theorem WiredProc.setRaft (hn : n.peers = p.raft.peers) : WiredProc rpcs i (p.setRaft n) := by
  refine ⟨fun f hf => ?_, fun f hf => ?_, ?_⟩
  · rw [Proc.setRaft_raft, hn]
    exact h.election f hf
  · rw [Proc.setRaft_raft, hn]
    exact h.append f hf
  · rw [Proc.setRaft_raft, hn]
    show WiredTasks _ _ _ _ _ (if _ then p.heartbeats else [])
    split
    · exact h.heartbeat
    · exact .nil

theorem WiredProc.startElection (b : Bool) : WiredProc rpcs i (p.startElection b) := by
  have hq := RaftNode.startElection_quiet p.raft
  unfold Proc.startElection
  dsimp only
  split
  · exact h.setRaft ((RaftNode.finishElection_quiet _ 1).peers.trans hq.peers)
  · have hp := h.setRaft hq.peers
    refine ⟨fun f hf => ?_, hp.append, hp.heartbeat⟩
    rcases List.mem_append.mp hf with hf | hf
    · exact hp.election f hf
    · rw [List.mem_singleton.mp hf]
      dsimp only
      split
      · exact .nil
      · exact .gather _

theorem WiredProc.setVoteTask {j k : ℕ} {f : Election} (hf : p.elections[j]? = some f)
    (ht : f.tasks[k]? = some t) (hp : t'.peer = t.peer)
    (ht' : WiredTask .requestVote Message.granted rpcs i t') :
    WiredProc rpcs i (p.setVoteTask j k t') := by
  refine ⟨fun g hg => ?_, h.append, h.heartbeat⟩
  rcases mem_modify hg with hg | ⟨f', hf', rfl⟩
  · exact h.election g hg
  · rw [hf, Option.some.injEq] at hf'
    subst hf'
    exact (h.election f (List.mem_of_getElem? hf)).set ht hp ht'

theorem WiredProc.setTask {owner : TaskOwner} {k : ℕ} (ht : (p.tasks owner)[k]? = some t)
    (hp : t'.peer = t.peer) (ht' : WiredTask .appendEntries Message.succeeded rpcs i t') :
    WiredProc rpcs i (p.setTask owner k t') := by
  cases owner with
  | heartbeat => exact ⟨h.election, h.append, h.heartbeat.set ht hp ht'⟩
  | append j =>
    refine ⟨h.election, fun g hg => ?_, h.heartbeat⟩
    rcases mem_modify hg with hg | ⟨f', hf', rfl⟩
    · exact h.append g hg
    · simp only [Proc.tasks, hf', Option.map_some, Option.getD_some] at ht
      exact (h.append f' (List.mem_of_getElem? hf')).set ht hp ht'

theorem WiredProc.owned (owner : TaskOwner) :
    WiredTasks .appendEntries Message.succeeded rpcs i p.raft.peers (p.tasks owner) := by
  cases owner with
  | heartbeat => exact h.heartbeat
  | append j =>
    rcases hj : p.appendCalls[j]? with _ | f
    · simp only [Proc.tasks, hj]
      exact .nil
    · simp only [Proc.tasks, hj]
      exact h.append f (List.mem_of_getElem? hj)

theorem WiredProc.eraseElection (j : ℕ) :
    WiredProc rpcs i { p with elections := p.elections.eraseIdx j } :=
  ⟨fun f hf => h.election f (List.mem_of_mem_eraseIdx hf), h.append, h.heartbeat⟩

theorem WiredProc.eraseCall (j : ℕ) :
    WiredProc rpcs i { p with appendCalls := p.appendCalls.eraseIdx j } :=
  ⟨h.election, fun f hf => h.append f (List.mem_of_mem_eraseIdx hf), h.heartbeat⟩

end Frames

/-! ## The invariant -/

theorem Wired.init (cfg : ClusterConfig) : Wired cfg (cfg.init : Cluster κ) where
  nodeId _ := rfl
  peers _ := rfl
  proc _ := ⟨fun f hf => by simp [ClusterConfig.init] at hf,
    fun f hf => by simp [ClusterConfig.init] at hf, .nil⟩

theorem voteTask_some {j k : ℕ} (h : c.voteTask i j k = some t) :
    ∃ f, (c.proc i).elections[j]? = some f ∧ f.tasks[k]? = some t :=
  Option.bind_eq_some_iff.mp h

theorem appendReply_succeeded {n : RaftNode} {raises : Raises} {peer : String} {last : ℤ}
    {response : Message} (h : (n.appendReply raises peer last response).2 = true) :
    response.succeeded = true := by
  unfold RaftNode.appendReply at h
  split at h
  · next hs => exact hs
  · cases h

theorem Wired.step {cfg : ClusterConfig} (h : Wired cfg c) (ht : Transition c ev c') :
    Wired cfg c' := by
  have hlater := ht.later
  have hnode : ∀ i, (c'.proc i).raft.nodeId = i := fun i => by
    rw [(ht.evolves i).nodeId, h.nodeId]
  have hpeers : ∀ i, (c'.proc i).raft.peers = cfg.peers i := fun i => by
    rw [(ht.evolves i).peers, h.peers]
  -- only the frames of the node that runs are left to check
  have hput : ∀ {i p}, c'.proc = Function.update c.proc i p → WiredProc c'.rpcs i p →
      Wired cfg c' := fun hproc hp =>
    ⟨hnode, hpeers, forall_put (P := fun i p => WiredProc c'.rpcs i p) hproc hp
      fun j _ => (h.proc j).later hlater⟩
  cases ht with
  | electionTimeout i | raftProcessor i => exact hput rfl ((h.proc i).startElection _)
  | requestVote i j k t ht hr =>
    obtain ⟨f, hf, hft⟩ := voteTask_some ht
    have htask := ((h.proc i).election f (List.mem_of_getElem? hf)).task t
      (List.mem_of_getElem? hft)
    exact hput rfl (((h.proc i).later hlater).setVoteTask hf hft rfl (htask.send hr rfl))
  | voteResponse i j k t rpc response ht ha =>
    obtain ⟨f, hf, hft⟩ := voteTask_some ht
    obtain ⟨hw, hreply⟩ := arrived_some ha
    have htask := ((h.proc i).election f (List.mem_of_getElem? hf)).task t
      (List.mem_of_getElem? hft)
    refine hput rfl (WiredProc.setRaft ((h.proc i).setVoteTask hf hft rfl
      (htask.return hw fun hb => ⟨response, hreply, hb⟩)) ?_)
    exact (RaftNode.adoptTerm_quiet _ _).peers
  | voteTimeout i j k t rpc ht hw =>
    obtain ⟨f, hf, hft⟩ := voteTask_some ht
    have htask := ((h.proc i).election f (List.mem_of_getElem? hf)).task t
      (List.mem_of_getElem? hft)
    exact hput rfl ((h.proc i).setVoteTask hf hft rfl (htask.return hw (by simp)))
  | cancelElection i j f => exact hput rfl (((h.proc i).eraseElection j).setRaft rfl)
  | finishElection i j f =>
    exact hput rfl (((h.proc i).eraseElection j).setRaft (RaftNode.finishElection_quiet _ _).peers)
  | heartbeat i => exact hput rfl ⟨(h.proc i).election, (h.proc i).append, .gather _⟩
  | commitEntry i command data caller raises =>
    exact hput rfl ((h.proc i).setRaft (RaftNode.appendEntry_evolves _ _ _ _).peers)
  | appendEntry i command data caller raises =>
    have hev := RaftNode.appendEntry_evolves (c.proc i).raft raises command data
    have hp := (h.proc i).setRaft hev.peers
    refine hput rfl ⟨hp.election, fun f hf => ?_, hp.heartbeat⟩
    rcases List.mem_append.mp hf with hf | hf
    · exact hp.append f hf
    · rw [List.mem_singleton.mp hf]
      show WiredTasks _ _ _ _ ((c.proc i).raft.appendEntry raises command data).1.peers _
      rw [hev.peers]
      exact .gather _
  | sendAppend i owner k t ht hr =>
    have htask := ((h.proc i).owned owner).task t (List.mem_of_getElem? ht)
    exact hput rfl (((h.proc i).later hlater).setTask ht rfl (htask.send hr rfl))
  | appendResponse i owner k raises t rpc response ht ha =>
    obtain ⟨hw, hreply⟩ := arrived_some ha
    have htask := ((h.proc i).owned owner).task t (List.mem_of_getElem? ht)
    refine hput rfl (WiredProc.setRaft ((h.proc i).setTask ht rfl
      (htask.return hw fun hb => ⟨response, hreply, appendReply_succeeded hb⟩)) ?_)
    rw [Proc.setTask_raft]
    exact (RaftNode.appendReply_evolves _ _ _ _ _).peers
  | appendTimeout i owner k t rpc ht hw =>
    have htask := ((h.proc i).owned owner).task t (List.mem_of_getElem? ht)
    exact hput rfl ((h.proc i).setTask ht rfl (htask.return hw (by simp)))
  | returnAppend i j => exact hput rfl ((h.proc i).eraseCall j)
  | handleMessage r raises rpc hr hp reply =>
    exact hput rfl (((h.proc _).later hlater).setRaft (RaftNode.handleMessage_evolves _ _ _).peers)

end DistributedSync
