import DistributedSync.Raft.Cluster
import DistributedSync.Raft.NodeSpec

/-!
# What a step of the cluster does

`Transition` lists, event by event, when a step is possible and what it yields (`step_cases`).
Every step changes one node by one of its methods, and may send an RPC or fill in a reply
(`Transition.one_node`); RPCs are never removed, and an answer is final (`Later`).
-/

namespace DistributedSync

open Cluster

variable {κ : Type} {c c' : Cluster κ} {ev : Event κ} {i : String}

inductive Transition (c : Cluster κ) : Event κ → Cluster κ → Prop
  | electionTimeout (i : String) (hs : (c.proc i).raft.state ≠ .leader)
    (he : (c.proc i).raft.electionInProgress = false) :
    Transition c (.electionTimeout i) (c.put i ((c.proc i).startElection true))
  | raftProcessor (i : String) (hs : (c.proc i).raft.state = .candidate)
    (he : (c.proc i).raft.electionInProgress = false) :
    Transition c (.raftProcessor i) (c.put i ((c.proc i).startElection false))
  | requestVote (i : String) (j k : ℕ) (t : RpcTask) (ht : c.voteTask i j k = some t)
    (hr : t.rpc = none) :
    Transition c (.requestVote i j k)
      (c.send i ((c.proc i).setVoteTask j k { t with rpc := some c.rpcs.length }) t.peer
        (c.proc i).raft.requestVoteMessage)
  | voteResponse (i : String) (j k : ℕ) (t : RpcTask) (rpc : Rpc) (response : Message)
    (ht : c.voteTask i j k = some t) (ha : c.arrived t = some (rpc, response)) :
    Transition c (.voteResponse i j k)
      (c.put i (((c.proc i).setVoteTask j k
        { t with result := some ((c.proc i).raft.voteReply response).2 }).setRaft
        ((c.proc i).raft.voteReply response).1))
  | voteTimeout (i : String) (j k : ℕ) (t : RpcTask) (rpc : Rpc)
    (ht : c.voteTask i j k = some t) (hw : c.waitingRpc t = some rpc) :
    Transition c (.voteTimeout i j k)
      (c.put i ((c.proc i).setVoteTask j k { t with result := some false }))
  | cancelElection (i : String) (j : ℕ) (f : Election) (hf : (c.proc i).elections[j]? = some f)
    (hc : f.cancelled = true) :
    Transition c (.finishElection i j)
      (c.put i ({ c.proc i with elections := (c.proc i).elections.eraseIdx j }.setRaft
        (c.proc i).raft.endElection))
  | finishElection (i : String) (j : ℕ) (f : Election) (hf : (c.proc i).elections[j]? = some f)
    (hc : f.cancelled = false) (hd : allDone f.tasks) :
    Transition c (.finishElection i j)
      (c.put i ({ c.proc i with elections := (c.proc i).elections.eraseIdx j }.setRaft
        ((c.proc i).raft.finishElection (1 + granted f.tasks))))
  | heartbeat (i : String) (ht : (c.proc i).raft.heartbeatTimer = true)
    (hl : (c.proc i).raft.state = .leader) (hd : allDone (c.proc i).heartbeats) :
    Transition c (.heartbeat i)
      (c.put i { c.proc i with heartbeats := gather (c.proc i).raft.peers })
  | commitEntry (i : String) (command : String) (data : Dict) (caller : κ) (raises : Raises)
    (hl : (c.proc i).raft.state = .leader) (hp : (c.proc i).raft.peers = []) :
    Transition c (.appendEntry i command data caller raises)
      (c.put i ((c.proc i).setRaft ((c.proc i).raft.appendEntry raises command data).1))
  | appendEntry (i : String) (command : String) (data : Dict) (caller : κ) (raises : Raises)
    (hl : (c.proc i).raft.state = .leader) (hp : (c.proc i).raft.peers ≠ []) :
    Transition c (.appendEntry i command data caller raises)
      (c.put i { (c.proc i).setRaft ((c.proc i).raft.appendEntry raises command data).1 with
        appendCalls := (c.proc i).appendCalls ++
          [{ entry := (c.proc i).raft.newEntry command data, caller,
             tasks := gather (c.proc i).raft.peers }] })
  | sendAppend (i : String) (owner : TaskOwner) (k : ℕ) (t : RpcTask)
    (ht : ((c.proc i).tasks owner)[k]? = some t) (hr : t.rpc = none) :
    Transition c (.sendAppend i owner k)
      (c.send i ((c.proc i).setTask owner k { t with rpc := some c.rpcs.length }) t.peer
        ((c.proc i).raft.appendEntriesMessage t.peer))
  | appendResponse (i : String) (owner : TaskOwner) (k : ℕ) (raises : Raises) (t : RpcTask)
    (rpc : Rpc) (response : Message) (ht : ((c.proc i).tasks owner)[k]? = some t)
    (ha : c.arrived t = some (rpc, response)) :
    Transition c (.appendResponse i owner k raises)
      (c.put i (((c.proc i).setTask owner k { t with result := some ((c.proc i).raft.appendReply
        raises t.peer rpc.request.lastCovered response).2 }).setRaft
        ((c.proc i).raft.appendReply raises t.peer rpc.request.lastCovered response).1))
  | appendTimeout (i : String) (owner : TaskOwner) (k : ℕ) (t : RpcTask) (rpc : Rpc)
    (ht : ((c.proc i).tasks owner)[k]? = some t) (hw : c.waitingRpc t = some rpc) :
    Transition c (.appendTimeout i owner k)
      (c.put i ((c.proc i).setTask owner k { t with result := some false }))
  | returnAppend (i : String) (j : ℕ) (call : AppendCall κ)
    (hcall : (c.proc i).appendCalls[j]? = some call) (hd : allDone call.tasks) :
    Transition c (.returnAppend i j)
      (c.put i { c.proc i with appendCalls := (c.proc i).appendCalls.eraseIdx j })
  | handleMessage (r : ℕ) (raises : Raises) (rpc : Rpc) (hr : c.rpcs[r]? = some rpc)
    (hp : rpc.reply = .pending) (reply : RpcReply)
    (hreply : reply = match ((c.proc rpc.receiver).raft.handleMessage raises rpc.request).2 with
      | some response => .answered response
      | none => .failed) :
    Transition c (.handleMessage r raises)
      { c.put rpc.receiver ((c.proc rpc.receiver).setRaft
          ((c.proc rpc.receiver).raft.handleMessage raises rpc.request).1) with
        rpcs := c.rpcs.set r { rpc with reply } }

namespace Cluster

theorem arrived_some {t : RpcTask} {rpc : Rpc} {response : Message}
    (h : c.arrived t = some (rpc, response)) :
    c.waitingRpc t = some rpc ∧ rpc.reply = .answered response := by
  obtain ⟨rpc', hw, h⟩ := Option.bind_eq_some_iff.mp h
  rcases hr : rpc'.reply with _ | m | _ <;> rw [hr] at h <;> cases h
  exact ⟨hw, hr⟩

theorem waitingRpc_some {t : RpcTask} {rpc : Rpc} (h : c.waitingRpc t = some rpc) :
    t.result = none ∧ ∃ r, t.rpc = some r ∧ c.rpcs[r]? = some rpc := by
  unfold waitingRpc at h
  split at h
  · next hn => exact ⟨hn, Option.bind_eq_some_iff.mp h⟩
  · cases h

theorem step_cases (h : c.step ev = some c') : Transition c ev c' := by
  cases ev with
  | electionTimeout i =>
    simp only [step, Option.ite_none_right_eq_some, Option.some.injEq] at h
    obtain ⟨⟨hs, he⟩, rfl⟩ := h
    exact .electionTimeout i hs he
  | raftProcessor i =>
    simp only [step, Option.ite_none_right_eq_some, Option.some.injEq] at h
    obtain ⟨⟨hs, he⟩, rfl⟩ := h
    exact .raftProcessor i hs he
  | requestVote i j k =>
    simp only [step, Option.bind_eq_some_iff, Option.ite_none_right_eq_some,
      Option.some.injEq] at h
    obtain ⟨t, ht, hr, rfl⟩ := h
    exact .requestVote i j k t ht hr
  | voteResponse i j k =>
    simp only [step, Option.bind_eq_some_iff, Option.map_eq_some_iff] at h
    obtain ⟨t, ht, ⟨rpc, response⟩, ha, rfl⟩ := h
    exact .voteResponse i j k t rpc response ht ha
  | voteTimeout i j k =>
    simp only [step, Option.bind_eq_some_iff, Option.map_eq_some_iff] at h
    obtain ⟨t, ht, rpc, hw, rfl⟩ := h
    exact .voteTimeout i j k t rpc ht hw
  | finishElection i j =>
    simp only [step, Option.bind_eq_some_iff] at h
    obtain ⟨f, hf, h⟩ := h
    rcases hc : f.cancelled with _ | _
    · rw [hc, if_neg Bool.false_ne_true, Option.ite_none_right_eq_some, Option.some.injEq] at h
      obtain ⟨hd, rfl⟩ := h
      exact .finishElection i j f hf hc hd
    · rw [hc, if_pos rfl, Option.some.injEq] at h
      subst h
      exact .cancelElection i j f hf hc
  | heartbeat i =>
    simp only [step, Option.ite_none_right_eq_some, Option.some.injEq] at h
    obtain ⟨⟨ht, hl, hd⟩, rfl⟩ := h
    exact .heartbeat i ht hl hd
  | appendEntry i command data caller raises =>
    simp only [step, Option.ite_none_right_eq_some] at h
    obtain ⟨hl, h⟩ := h
    by_cases hp : (c.proc i).raft.peers = []
    · obtain ⟨a, d, b, hb⟩ := RaftNode.appendEntry_commits hp raises command data
      rw [congrArg Prod.snd hb, Option.some.injEq] at h
      subst h
      exact .commitEntry i command data caller raises hl hp
    · rw [congrArg Prod.snd (RaftNode.appendEntry_waits hp raises command data),
        Option.some.injEq] at h
      subst h
      exact .appendEntry i command data caller raises hl hp
  | sendAppend i owner k =>
    simp only [step, Option.bind_eq_some_iff, Option.ite_none_right_eq_some,
      Option.some.injEq] at h
    obtain ⟨t, ht, hr, rfl⟩ := h
    exact .sendAppend i owner k t ht hr
  | appendResponse i owner k raises =>
    simp only [step, Option.bind_eq_some_iff, Option.map_eq_some_iff] at h
    obtain ⟨t, ht, ⟨rpc, response⟩, ha, rfl⟩ := h
    exact .appendResponse i owner k raises t rpc response ht ha
  | appendTimeout i owner k =>
    simp only [step, Option.bind_eq_some_iff, Option.map_eq_some_iff] at h
    obtain ⟨t, ht, rpc, hw, rfl⟩ := h
    exact .appendTimeout i owner k t rpc ht hw
  | returnAppend i j =>
    simp only [step, Option.bind_eq_some_iff, Option.ite_none_right_eq_some,
      Option.some.injEq] at h
    obtain ⟨call, hcall, hd, rfl⟩ := h
    exact .returnAppend i j call hcall hd
  | handleMessage r raises =>
    simp only [step, Option.bind_eq_some_iff] at h
    obtain ⟨rpc, hr, h⟩ := h
    rcases hp : rpc.reply with _ | m | _ <;> rw [hp] at h <;> dsimp only at h
    · rw [Option.some.injEq] at h
      subst h
      exact .handleMessage r raises rpc hr hp _ rfl
    · cases h
    · cases h

end Cluster

theorem Transition.step_eq (h : Transition c ev c') : c.step ev = some c' := by
  cases h with
  | electionTimeout i hs he | raftProcessor i hs he => exact if_pos ⟨hs, he⟩
  | requestVote i j k t ht hr =>
    simp only [Cluster.step, ht, Option.bind_some, hr, if_true]
  | voteResponse i j k t rpc response ht ha =>
    simp only [Cluster.step, ht, Option.bind_some, ha, Option.map_some]
  | voteTimeout i j k t rpc ht hw =>
    simp only [Cluster.step, ht, Option.bind_some, hw, Option.map_some]
  | cancelElection i j f hf hc =>
    simp only [Cluster.step, hf, Option.bind_some, hc, if_true]
  | finishElection i j f hf hc hd =>
    simp only [Cluster.step, hf, Option.bind_some, hc, Bool.false_eq_true, if_false, hd, if_true]
  | heartbeat i ht hl hd => exact if_pos ⟨ht, hl, hd⟩
  | commitEntry i command data caller raises hl hp =>
    obtain ⟨a, d, b, hb⟩ := RaftNode.appendEntry_commits hp raises command data
    simp only [Cluster.step, hl, if_true, hb]
  | appendEntry i command data caller raises hl hp =>
    simp only [Cluster.step, hl, if_true, RaftNode.appendEntry_waits hp raises command data]
  | sendAppend i owner k t ht hr =>
    simp only [Cluster.step, ht, Option.bind_some, hr, if_true]
  | appendResponse i owner k raises t rpc response ht ha =>
    simp only [Cluster.step, ht, Option.bind_some, ha, Option.map_some]
  | appendTimeout i owner k t rpc ht hw =>
    simp only [Cluster.step, ht, Option.bind_some, hw, Option.map_some]
  | returnAppend i j call hcall hd =>
    simp only [Cluster.step, hcall, Option.bind_some, hd, if_true]
  | handleMessage r raises rpc hr hp reply hreply =>
    subst hreply
    simp only [Cluster.step, hr, Option.bind_some]
    cases rpc
    cases hp
    rfl

/-- A node of the cluster can take every step there is. -/
theorem Transition.possible {cfg : ClusterConfig} (h : Transition c ev c')
    (hi : ∀ i ∈ ClusterConfig.actor ev, i ∈ cfg.nodes) : cfg.step c ev = some c' := by
  unfold ClusterConfig.step
  rw [if_pos hi]
  exact h.step_eq

theorem ClusterConfig.transition {cfg : ClusterConfig} (h : cfg.step c ev = some c') :
    Transition c ev c' := Cluster.step_cases (ClusterConfig.step_some h).2

/-! ## Locality -/

/-- RPCs are kept, and an answer is final. -/
def Later (rpcs rpcs' : List Rpc) : Prop :=
  ∀ (r : ℕ) (rpc : Rpc), rpcs[r]? = some rpc → ∃ rpc' : Rpc, rpcs'[r]? = some rpc' ∧
    rpc'.sender = rpc.sender ∧ rpc'.receiver = rpc.receiver ∧ rpc'.request = rpc.request ∧
    ∀ m, rpc.reply = .answered m → rpc'.reply = .answered m

theorem Later.refl (rpcs : List Rpc) : Later rpcs rpcs :=
  fun _ rpc h => ⟨rpc, h, rfl, rfl, rfl, fun _ hm => hm⟩

theorem Later.append (rpcs new : List Rpc) : Later rpcs (rpcs ++ new) := by
  intro r rpc h
  refine ⟨rpc, ?_, rfl, rfl, rfl, fun _ hm => hm⟩
  rwa [List.getElem?_append_left (List.getElem?_eq_some_iff.mp h).1]

theorem Later.reply {rpcs : List Rpc} {r : ℕ} {rpc : Rpc} (hr : rpcs[r]? = some rpc)
    (hp : rpc.reply = .pending) (reply : RpcReply) :
    Later rpcs (rpcs.set r { rpc with reply }) := by
  intro q rpc' h
  by_cases hq : q = r
  · subst hq
    rw [hr, Option.some.injEq] at h
    subst h
    refine ⟨_, List.getElem?_set_self (List.getElem?_eq_some_iff.mp hr).1, rfl, rfl, rfl, ?_⟩
    intro m hm
    rw [hp] at hm
    cases hm
  · refine ⟨rpc', ?_, rfl, rfl, rfl, fun _ hm => hm⟩
    rwa [List.getElem?_set_ne (Ne.symm hq)]

namespace Cluster

@[simp] theorem put_proc_self (c : Cluster κ) (i : String) (p : Proc κ) :
    (c.put i p).proc i = p := Function.update_self ..

theorem forall_put {P : String → Proc κ → Prop} {p : Proc κ}
    (hproc : c'.proc = Function.update c.proc i p) (hi : P i p)
    (h : ∀ j, j ≠ i → P j (c.proc j)) (j : String) : P j (c'.proc j) := by
  rw [hproc]
  by_cases hj : j = i
  · subst hj
    rwa [Function.update_self]
  · rw [Function.update_of_ne hj]
    exact h j hj

theorem forall_send {P : Rpc → Prop} {rpcs : List Rpc} {rpc : Rpc} (h : ∀ r ∈ rpcs, P r)
    (hr : P rpc) : ∀ r ∈ rpcs ++ [rpc], P r :=
  List.forall_mem_append.mpr ⟨h, List.forall_mem_singleton.mpr hr⟩

theorem forall_answer {P : Rpc → Prop} {rpcs : List Rpc} {rpc : Rpc} {k : ℕ}
    (h : ∀ r ∈ rpcs, P r) (hr : P rpc) : ∀ r ∈ rpcs.set k rpc, P r := by
  intro r hmem
  rcases List.mem_or_eq_of_mem_set hmem with hmem | rfl
  · exact h r hmem
  · exact hr

end Cluster

namespace Proc

variable (p : Proc κ) (n : RaftNode) (j k : ℕ) (owner : TaskOwner) (t : RpcTask)

@[simp] theorem setRaft_raft : (p.setRaft n).raft = n := rfl
@[simp] theorem setRaft_elections : (p.setRaft n).elections = p.elections := rfl
@[simp] theorem setRaft_appendCalls : (p.setRaft n).appendCalls = p.appendCalls := rfl
@[simp] theorem setVoteTask_raft : (p.setVoteTask j k t).raft = p.raft := rfl

@[simp] theorem setTask_raft : (p.setTask owner k t).raft = p.raft := by
  cases owner <;> rfl

theorem startElection_raft (b : Bool) : (p.startElection b).raft =
    if p.raft.startElection.peers = [] then p.raft.startElection.finishElection 1
    else p.raft.startElection := by
  unfold startElection
  dsimp only
  split <;> rfl

end Proc

/-- A step runs one method on one node, and touches the RPCs as `Later` says. -/
theorem Transition.one_node (h : Transition c ev c') :
    ∃ i p, c.runner ev = some i ∧ c'.proc = Function.update c.proc i p ∧
      (c.proc i).raft.Evolves p.raft ∧ Later c.rpcs c'.rpcs := by
  have hstart : ∀ i b, (c.proc i).raft.Evolves ((c.proc i).startElection b).raft := by
    intro i b
    rw [Proc.startElection_raft]
    split
    · exact ((RaftNode.startElection_quiet _).trans (RaftNode.finishElection_quiet _ 1)).evolves
    · exact (RaftNode.startElection_quiet _).evolves
  cases h with
  | electionTimeout i | raftProcessor i => exact ⟨i, _, rfl, rfl, hstart i _, .refl _⟩
  | requestVote i j k t => exact ⟨i, _, rfl, rfl, .refl, .append _ _⟩
  | voteResponse i j k t rpc response =>
    exact ⟨i, _, rfl, rfl, (RaftNode.adoptTerm_quiet _ _).evolves, .refl _⟩
  | voteTimeout i j k t => exact ⟨i, _, rfl, rfl, .refl, .refl _⟩
  | cancelElection i j f =>
    exact ⟨i, _, rfl, rfl, RaftNode.Quiet.evolves ⟨rfl, rfl, rfl, rfl, id⟩, .refl _⟩
  | finishElection i j f =>
    exact ⟨i, _, rfl, rfl, (RaftNode.finishElection_quiet _ _).evolves, .refl _⟩
  | heartbeat i => exact ⟨i, _, rfl, rfl, .refl, .refl _⟩
  | commitEntry i command data caller raises | appendEntry i command data caller raises =>
    exact ⟨i, _, rfl, rfl, RaftNode.appendEntry_evolves _ _ _ _, .refl _⟩
  | sendAppend i owner k t =>
    refine ⟨i, _, rfl, rfl, ?_, .append _ _⟩
    rw [Proc.setTask_raft]
    exact .refl
  | appendResponse i owner k raises t rpc response =>
    exact ⟨i, _, rfl, rfl, RaftNode.appendReply_evolves _ _ _ _ _, .refl _⟩
  | appendTimeout i owner k t =>
    refine ⟨i, _, rfl, rfl, ?_, .refl _⟩
    rw [Proc.setTask_raft]
    exact .refl
  | returnAppend i j => exact ⟨i, _, rfl, rfl, .refl, .refl _⟩
  | handleMessage r raises rpc hr hp reply =>
    exact ⟨_, _, congrArg (Option.map Rpc.receiver) hr, rfl, RaftNode.handleMessage_evolves _ _ _,
      .reply hr hp reply⟩

theorem Transition.evolves (h : Transition c ev c') (i : String) :
    (c.proc i).raft.Evolves (c'.proc i).raft := by
  obtain ⟨j, p, -, hproc, hp, -⟩ := h.one_node
  exact Cluster.forall_put (P := fun i p => (c.proc i).raft.Evolves p.raft) hproc hp
    (fun _ _ => .refl) i

theorem Transition.later (h : Transition c ev c') : Later c.rpcs c'.rpcs := by
  obtain ⟨-, -, -, -, -, hl⟩ := h.one_node
  exact hl

end DistributedSync
