import DistributedSync.Raft.Delivery
import DistributedSync.Raft.Entitlement
import DistributedSync.Raft.Tenure

/-!
# Elections in progress

While `election_in_progress` is set, the node is a candidate, and its last election is one of its
current term (`Campaigns`). So what is in progress can always be ended by timeouts alone: the last
election (`endCampaign`), and the round of heartbeats of a leader (`endRound`).
-/

namespace DistributedSync

open Cluster Runs

variable {κ : Type} {cfg : ClusterConfig} {c c' : Cluster κ} {ev : Event κ} {i : String}
  {rpcs rpcs' : List Rpc} {p : Proc κ}

/-! ## One node -/

namespace RaftNode

variable {n m n' : RaftNode} {raises : Raises}

/-- An election in progress on `n'` is the one in progress on `n`. -/
def Continues (n n' : RaftNode) : Prop :=
  n'.electionInProgress = true → n.electionInProgress = true ∧ n'.state = n.state ∧
    n'.currentTerm = n.currentTerm

theorem Continues.of_eq (he : n'.electionInProgress = n.electionInProgress)
    (hs : n'.state = n.state) (ht : n'.currentTerm = n.currentTerm) : Continues n n' :=
  fun h => ⟨he ▸ h, hs, ht⟩

theorem Continues.over (h : n'.electionInProgress = false) : Continues n n' := by
  intro h'
  rw [h] at h'
  cases h'

theorem Continues.trans (h : Continues n m) (h' : Continues m n') : Continues n n' := by
  intro he
  obtain ⟨he, hs, ht⟩ := h' he
  obtain ⟨he, hs', ht'⟩ := h he
  exact ⟨he, hs.trans hs', ht.trans ht'⟩

theorem Continues.apply (raises : Raises) (h : Continues n m) :
    Continues n (m.applyCommittedEntries raises).1 := by
  obtain ⟨a, d, hf⟩ := applyCommittedEntries_frame raises m
  rw [hf]
  exact h

theorem adoptTerm_continues (n : RaftNode) (t : ℤ) : Continues n (n.adoptTerm t) := by
  rcases n.adoptTerm_cases t with ⟨-, h⟩ | ⟨-, h⟩ <;> rw [h]
  · exact .of_eq rfl rfl rfl
  · exact .over rfl

theorem appendReply_continues (n : RaftNode) (raises : Raises) (peer : String) (last : ℤ)
    (response : Message) : Continues n (n.appendReply raises peer last response).1 := by
  rcases n.appendReply_cases raises peer last response with ⟨-, h⟩ | ⟨-, h⟩ <;> rw [h]
  · obtain ⟨c, a, d, hf⟩ := (n.recordMatch peer last).updateCommitIndex_frame raises
    rw [hf]
    exact .of_eq rfl rfl rfl
  · refine (n.adoptTerm_continues response.term).trans ?_
    unfold backOff
    split <;> exact .of_eq rfl rfl rfl

theorem appendEntry_continues (n : RaftNode) (raises : Raises) (command : String) (data : Dict) :
    Continues n (n.appendEntry raises command data).1 := by
  unfold appendEntry
  dsimp only
  split
  · exact Continues.apply raises (.of_eq rfl rfl rfl)
  · exact .of_eq rfl rfl rfl

theorem acceptLeader_continues (n : RaftNode) (sender : String) :
    Continues n (n.acceptLeader sender) := by
  unfold acceptLeader
  split
  · exact .over rfl
  · exact .of_eq rfl rfl rfl

theorem handleAppendEntries_continues (n : RaftNode) (raises : Raises) (msg : Message) :
    Continues n (n.handleAppendEntries raises msg).1 := by
  have ha := n.acceptLeader_continues msg.senderId
  unfold handleAppendEntries
  dsimp only
  generalize n.acceptLeader msg.senderId = k at ha ⊢
  split
  · exact ha
  · exact ha
  · generalize storeEntries (msg.data.prevLogIndex.getD 0 + 1) (msg.data.entries.getD []) k.log = st
    split
    · rcases followCommit_cases { k with log := st.1 } raises (msg.data.leaderCommit.getD 0) with
        ⟨_, h⟩ | ⟨_, h⟩ <;> rw [h]
      · exact ha
      · exact Continues.apply raises ha
    · exact ha

theorem handleMessage_continues (n : RaftNode) (raises : Raises) (msg : Message) :
    Continues n (n.handleMessage raises msg).1 := by
  refine (n.adoptTerm_continues msg.term).trans ?_
  by_cases hv : msg.messageType = .requestVote
  · rw [handleMessage_requestVote hv]
    rcases (n.adoptTerm msg.term).handleRequestVote_cases msg with ⟨heq, -⟩ | ⟨-, -, -, heq, -⟩ <;>
      dsimp only <;> rw [heq]
    · exact .of_eq rfl rfl rfl
    · exact .of_eq rfl rfl rfl
  by_cases ha : msg.messageType = .appendEntries
  · rw [handleMessage_appendEntries ha]
    exact handleAppendEntries_continues _ raises msg
  · rw [(handleMessage_other hv ha).1]
    exact .of_eq rfl rfl rfl

/-- A node that is no leader and has no election in progress: its timer can start one. -/
structure Idle (n : RaftNode) : Prop where
  notLeader : n.state ≠ .leader
  electionInProgress : n.electionInProgress = false

end RaftNode

open RaftNode

/-! ## The last election -/

/-- What the tasks have sent so far are requests of term `t`. -/
def SentIn (rpcs : List Rpc) (t : ℤ) (tasks : List RpcTask) : Prop :=
  ∀ task ∈ tasks, ∀ r, task.rpc = some r → ∃ rpc, rpcs[r]? = some rpc ∧ rpc.request.term = t

/-- The node is a candidate, and its last election is one of its current term. -/
structure Campaigns (rpcs : List Rpc) (p : Proc κ) : Prop where
  candidate : p.raft.state = .candidate
  last : ∃ f, p.elections.getLast? = some f ∧ SentIn rpcs p.raft.currentTerm f.tasks

theorem SentIn.later {t : ℤ} {tasks : List RpcTask} (h : SentIn rpcs t tasks)
    (hl : Later rpcs rpcs') : SentIn rpcs' t tasks := by
  intro task ht r hr
  obtain ⟨rpc, hrpc, hterm⟩ := h task ht r hr
  obtain ⟨rpc', hrpc', -, -, hreq, -⟩ := hl r rpc hrpc
  exact ⟨rpc', hrpc', hreq ▸ hterm⟩

theorem Campaigns.later (h : Campaigns rpcs p) (hl : Later rpcs rpcs') : Campaigns rpcs' p := by
  obtain ⟨f, hf, hsent⟩ := h.last
  exact ⟨h.candidate, f, hf, hsent.later hl⟩

theorem Campaigns.of_eq {q : Proc κ} (h : Campaigns rpcs p) (hs : q.raft.state = p.raft.state)
    (ht : q.raft.currentTerm = p.raft.currentTerm) (hq : q.elections = p.elections) :
    Campaigns rpcs q := by
  obtain ⟨f, hf, hsent⟩ := h.last
  exact ⟨hs.trans h.candidate, f, hq ▸ hf, ht ▸ hsent⟩

theorem getLast?_modify {α : Type*} (l : List α) (j : ℕ) (g : α → α) :
    (l.modify j g).getLast? = l.getLast?.map fun x => if j = l.length - 1 then g x else x := by
  rw [List.getLast?_eq_getElem?, List.getLast?_eq_getElem?, List.length_modify,
    List.getElem?_modify]
  rfl

/-- A task of an election goes on: a task that has sent its request has done so in the term. -/
theorem Campaigns.setVoteTask {j k : ℕ} {t : RpcTask} (h : Campaigns rpcs p)
    (ht : ∀ f ∈ p.elections[j]?, SentIn rpcs p.raft.currentTerm f.tasks →
      SentIn rpcs p.raft.currentTerm [t]) :
    Campaigns rpcs (p.setVoteTask j k t) := by
  obtain ⟨f, hf, hsent⟩ := h.last
  refine ⟨h.candidate, ?_⟩
  show ∃ f, (p.elections.modify j _).getLast? = some f ∧ _
  rw [getLast?_modify, hf]
  refine ⟨_, rfl, ?_⟩
  split
  · next hj =>
    rw [List.getLast?_eq_getElem?, ← hj] at hf
    intro task hmem
    rcases List.mem_or_eq_of_mem_set hmem with hmem | rfl
    · exact hsent task hmem
    · exact ht f hf hsent task (List.mem_singleton_self task)
  · exact hsent

theorem Proc.setTask_elections (p : Proc κ) (owner : TaskOwner) (k : ℕ) (t : RpcTask) :
    (p.setTask owner k t).elections = p.elections := by
  cases owner <;> rfl

/-- Every node with an election in progress is a candidate, with an election of its term. -/
def Cluster.AllCampaign (c : Cluster κ) : Prop :=
  ∀ i, (c.proc i).raft.electionInProgress = true → Campaigns c.rpcs (c.proc i)

theorem Cluster.AllCampaign.step (h : c.AllCampaign) (hs : Transition c ev c') :
    c'.AllCampaign := by
  have hlater := hs.later
  have hput : ∀ {i : String} {p : Proc κ}, c'.proc = Function.update c.proc i p →
      (p.raft.electionInProgress = true → Campaigns c'.rpcs p) → c'.AllCampaign := by
    intro i p hproc hp
    exact forall_put (P := fun _ p => p.raft.electionInProgress = true → Campaigns c'.rpcs p) hproc
      hp fun j _ hj => (h j hj).later hlater
  -- steps that leave the elections of the node alone
  have hkeep : ∀ {i : String} {p : Proc κ}, p.elections = (c.proc i).elections →
      Continues (c.proc i).raft p.raft → p.raft.electionInProgress = true →
      Campaigns c'.rpcs p := by
    intro i p hel hcont hp
    obtain ⟨he, hst, ht⟩ := hcont hp
    exact ((h i he).of_eq hst ht hel).later hlater
  have hstart : ∀ (i : String) (b : Bool), (c.proc i).raft.electionInProgress = false →
      ((c.proc i).startElection b).raft.electionInProgress = true →
      Campaigns c'.rpcs ((c.proc i).startElection b) := by
    intro i b he hp
    unfold Proc.startElection at hp ⊢
    dsimp only at hp ⊢
    split at hp
    · rw [Proc.setRaft_raft] at hp
      rcases finishElection_cases (c.proc i).raft.startElection 1 with heq | ⟨-, -, heq⟩ <;>
        rw [heq] at hp <;> cases hp
    · next hne =>
      rw [if_neg hne]
      refine ⟨?_, _, List.getLast?_concat, fun t ht r hr => ?_⟩
      · show (c.proc i).raft.startElection.state = .candidate
        rw [startElection_eq he]
      · exfalso
        dsimp only at ht
        split at ht
        · cases ht
        · obtain ⟨q, -, rfl⟩ := List.mem_map.mp ht
          cases hr
  cases hs with
  | electionTimeout i hst he | raftProcessor i hst he => exact hput rfl (hstart i _ he)
  | requestVote i j k t ht hr =>
    refine hput rfl fun hp => ((h i hp).later hlater).setVoteTask fun f hf _ task hmem r' hr' => ?_
    rw [List.mem_singleton.mp hmem] at hr'
    cases hr'
    exact ⟨_, List.getElem?_concat_length, rfl⟩
  | voteResponse i j k t rpc response ht ha =>
    obtain ⟨f, hf, hft⟩ := voteTask_some ht
    refine hput rfl fun hp => ?_
    obtain ⟨he, hst, hterm⟩ := adoptTerm_continues (c.proc i).raft response.term hp
    refine Campaigns.of_eq (q := Proc.setRaft _ _) ((h i he).setVoteTask (k := k)
      (t := ⟨t.peer, t.rpc, some ((c.proc i).raft.voteReply response).2⟩)
      fun f' hf' hsent task hmem r hr => ?_) hst hterm rfl
    rw [hf] at hf'
    cases hf'
    rw [List.mem_singleton.mp hmem] at hr
    exact hsent t (List.mem_of_getElem? hft) r hr
  | voteTimeout i j k t rpc ht hw =>
    obtain ⟨f, hf, hft⟩ := voteTask_some ht
    refine hput rfl fun hp => (h i hp).setVoteTask fun f' hf' hsent task hmem r hr => ?_
    rw [hf] at hf'
    cases hf'
    rw [List.mem_singleton.mp hmem] at hr
    exact hsent t (List.mem_of_getElem? hft) r hr
  | cancelElection i j f hf hc => exact hput rfl fun hp => Bool.noConfusion hp
  | finishElection i j f hf hc hd =>
    refine hput rfl fun hp => ?_
    rw [Proc.setRaft_raft] at hp
    rcases (c.proc i).raft.finishElection_cases (1 + granted f.tasks) with heq | ⟨-, -, heq⟩ <;>
      rw [heq] at hp <;> cases hp
  | heartbeat i | returnAppend i => exact hput rfl (hkeep rfl (.of_eq rfl rfl rfl))
  | commitEntry i command data caller raises | appendEntry i command data caller raises =>
    exact hput rfl (hkeep rfl (appendEntry_continues _ raises command data))
  | sendAppend i owner k t | appendTimeout i owner k t =>
    refine hput rfl (hkeep (i := i) (Proc.setTask_elections ..) ?_)
    rw [Proc.setTask_raft]
    exact .of_eq rfl rfl rfl
  | appendResponse i owner k raises t rpc response =>
    exact hput rfl (hkeep (i := i) (Proc.setTask_elections ..)
      (appendReply_continues _ raises _ _ response))
  | handleMessage r raises rpc hr hp reply =>
    exact hput rfl (hkeep rfl (handleMessage_continues _ raises _))

theorem Cluster.AllCampaign.reach {ok : Cluster κ → Event κ → Prop} (hr : cfg.Reach ok c) :
    c.AllCampaign :=
  hr.invariant (fun _ h => Bool.noConfusion h) fun _ _ _ h _ hs => h.step (cfg.transition hs)

theorem idle_of_follower (hr : cfg.Reach Any c) (hs : (c.proc i).raft.state = .follower) :
    (c.proc i).raft.Idle := by
  refine ⟨by simp [hs], ?_⟩
  by_contra he
  have := (AllCampaign.reach hr i (by simpa using he)).candidate
  rw [hs] at this
  cases this

/-! ## Leaders have their timer -/

def RaftNode.Beats (n : RaftNode) : Prop := n.heartbeatTimer = true ↔ n.state = .leader

namespace RaftNode

variable {n m : RaftNode}

theorem SameRole.beats (h : SameRole n m) (hn : n.Beats) : m.Beats := by
  unfold Beats
  rw [h.heartbeatTimer, h.state]
  exact hn

theorem becomeFollower_beats (n : RaftNode) (leader : Option String) :
    (n.becomeFollower leader).Beats :=
  ⟨fun h => Bool.noConfusion h, fun h => NodeState.noConfusion h⟩

theorem adoptTerm_beats (hn : n.Beats) (t : ℤ) : (n.adoptTerm t).Beats := by
  rcases n.adoptTerm_cases t with ⟨_, h⟩ | ⟨_, h⟩ <;> rw [h]
  · exact hn
  · exact becomeFollower_beats _ _

theorem acceptLeader_beats (hn : n.Beats) (sender : String) : (n.acceptLeader sender).Beats := by
  unfold acceptLeader
  split
  · exact becomeFollower_beats n _
  · exact hn

theorem startElection_beats (hn : n.Beats) (hl : n.state ≠ .leader) : n.startElection.Beats := by
  unfold startElection
  split
  · exact hn
  · exact ⟨fun h => absurd (hn.mp h) hl, fun h => NodeState.noConfusion h⟩

theorem finishElection_beats (hn : n.Beats) (v : ℕ) : (n.finishElection v).Beats := by
  rcases n.finishElection_cases v with h | ⟨_, _, h⟩ <;> rw [h]
  · exact hn
  · exact ⟨fun _ => rfl, fun _ => rfl⟩

theorem handleMessage_beats (hn : n.Beats) (raises : Raises) (msg : Message) :
    (n.handleMessage raises msg).1.Beats := by
  have ha := adoptTerm_beats hn msg.term
  rcases n.handleMessage_role raises msg with h | h | ⟨-, h⟩
  · exact h.beats (acceptLeader_beats ha _)
  · rwa [h]
  · rw [h]
    exact ha

end RaftNode

theorem Transition.beats (ht : Transition c ev c') (h : ∀ i, (c.proc i).raft.Beats) (i : String) :
    (c'.proc i).raft.Beats := by
  have hput : ∀ {j : String} {p : Proc κ}, c'.proc = Function.update c.proc j p → p.raft.Beats →
      (c'.proc i).raft.Beats :=
    fun hproc hp => forall_put (P := fun _ p => p.raft.Beats) hproc hp (fun j _ => h j) i
  have hstart : ∀ (j : String) (b : Bool), (c.proc j).raft.state ≠ .leader →
      ((c.proc j).startElection b).raft.Beats := by
    intro j b hl
    rw [Proc.startElection_raft]
    split
    · exact finishElection_beats (startElection_beats (h j) hl) 1
    · exact startElection_beats (h j) hl
  cases ht with
  | electionTimeout j hl => exact hput rfl (hstart j _ hl)
  | raftProcessor j hc => exact hput rfl (hstart j _ (by simp [hc]))
  | requestVote j | voteTimeout j | heartbeat j | returnAppend j => exact hput rfl (h j)
  | voteResponse j k l t rpc response => exact hput rfl (adoptTerm_beats (h j) _)
  | cancelElection j => exact hput rfl (h j)
  | finishElection j => exact hput rfl (finishElection_beats (h j) _)
  | commitEntry j command data caller raises | appendEntry j command data caller raises =>
    exact hput rfl ((appendEntry_sameRole _ raises command data).beats (h j))
  | sendAppend j owner k t | appendTimeout j owner k t =>
    refine hput rfl ?_
    rw [Proc.setTask_raft]
    exact h j
  | appendResponse j owner k raises t rpc response =>
    rcases (c.proc j).raft.appendReply_sameRole raises t.peer rpc.request.lastCovered response with
      hs | hs
    · exact hput rfl (hs.beats (h j))
    · exact hput rfl (hs.beats (adoptTerm_beats (h j) _))
  | handleMessage r raises rpc => exact hput rfl (handleMessage_beats (h _) raises _)

theorem beats_of_reach {ok : Cluster κ → Event κ → Prop} (hr : cfg.Reach ok c) (i : String) :
    (c.proc i).raft.Beats :=
  hr.invariant (P := fun c => ∀ i, (c.proc i).raft.Beats)
    (fun _ => ⟨fun h => Bool.noConfusion h, fun h => NodeState.noConfusion h⟩)
    (fun _ _ _ h _ hs => (cfg.transition hs).beats h) i

/-! ## Ending what is in progress -/

def CleanStep (c : Cluster κ) (ev : Event κ) : Prop := SafeStep c ev ∧ Silent c ev

/-- The runs and returns that the tasks of a gather have before them. -/
def unsettled (tasks : List RpcTask) : ℕ :=
  tasks.countP (fun t => t.rpc.isNone) + tasks.countP (fun t => t.result.isNone)

section Unsettled

variable {tasks : List RpcTask} {t : RpcTask} {k : ℕ}

theorem countP_set_eq (f : RpcTask → Bool) (u : RpcTask) (ht : tasks[k]? = some t) :
    (tasks.set k u).countP f + (if f t then 1 else 0) =
      tasks.countP f + (if f u then 1 else 0) := by
  obtain ⟨hk, rfl⟩ := List.getElem?_eq_some_iff.mp ht
  rw [List.countP_set hk]
  split
  · next hf =>
    have := List.countP_pos_iff.mpr ⟨tasks[k], List.getElem_mem hk, hf⟩
    omega
  · omega

theorem unsettled_send (ht : tasks[k]? = some t) (hr : t.rpc = none) (r : ℕ) :
    unsettled (tasks.set k { t with rpc := some r }) < unsettled tasks := by
  have hsent := countP_set_eq (fun t => t.rpc.isNone) { t with rpc := some r } ht
  have hdone := countP_set_eq (fun t => t.result.isNone) { t with rpc := some r } ht
  simp only [hr, Option.isNone_none, Option.isNone_some, if_true, Bool.false_eq_true,
    if_false] at hsent hdone
  unfold unsettled
  omega

theorem unsettled_return (ht : tasks[k]? = some t) (hn : t.result = none) (b : Bool) :
    unsettled (tasks.set k { t with result := some b }) < unsettled tasks := by
  have hsent := countP_set_eq (fun t => t.rpc.isNone) { t with result := some b } ht
  have hdone := countP_set_eq (fun t => t.result.isNone) { t with result := some b } ht
  simp only [hn, Option.isNone_none, Option.isNone_some, if_true, Bool.false_eq_true,
    if_false] at hsent hdone
  unfold unsettled
  omega

theorem exists_unsettled (h : ¬ allDone tasks) :
    ∃ (k : ℕ) (t : RpcTask), tasks[k]? = some t ∧ t.result = none := by
  simp only [allDone, not_forall, not_not] at h
  obtain ⟨t, ht, hn⟩ := h
  obtain ⟨k, hk⟩ := List.mem_iff_getElem?.mp ht
  exact ⟨k, t, hk, hn⟩

theorem exists_waitingRpc {kind : MessageType} {accepts : Message → Bool} {r : ℕ}
    (h : WiredTask kind accepts c.rpcs i t) (hn : t.result = none) (hr : t.rpc = some r) :
    ∃ rpc, c.waitingRpc t = some rpc := by
  obtain ⟨rpc, hrpc, -⟩ := h.sent r hr
  refine ⟨rpc, ?_⟩
  unfold waitingRpc rpcOf
  rw [if_pos hn, hr, Option.bind_some, hrpc]

/-- The votes of tasks whose requests are all of one term count in that term. -/
theorem grantedIn_eq {term : ℤ} (hs : SentIn c.rpcs term tasks)
    (hw : ∀ t ∈ tasks, t.rpc = none → t.result = none) :
    c.grantedIn term tasks = granted tasks := by
  refine List.countP_congr fun t ht => ?_
  simp only [Bool.and_eq_true, decide_eq_true_eq, and_iff_left_iff_imp]
  intro hres
  rcases hr : t.rpc with _ | r
  · rw [hw t ht hr] at hres
    cases hres
  · obtain ⟨rpc, hrpc, hterm⟩ := hs t ht r hr
    simp [rpcOf, hr, hrpc, hterm]

end Unsettled

theorem wired_of_reach {ok : Cluster κ → Event κ → Prop} (hr : cfg.Reach ok c) : Wired cfg c :=
  hr.invariant (Wired.init cfg) fun _ _ _ h _ hs => h.step (cfg.transition hs)

theorem Cluster.put_proc_of_ne {j : String} (h : j ≠ i) (p : Proc κ) :
    (c.put i p).proc j = c.proc j := Function.update_of_ne h ..

theorem Proc.setVoteTask_elections {j k : ℕ} {f : Election} (hf : p.elections[j]? = some f)
    (t : RpcTask) :
    (p.setVoteTask j k t).elections[j]? = some { f with tasks := f.tasks.set k t } := by
  show (p.elections.modify j _)[j]? = _
  rw [List.getElem?_modify_eq, hf]
  rfl

/-- An election of node `i` can be brought to the end of its gather, by timeouts alone. -/
theorem settleElection (hr : cfg.Reach Any c) (hi : i ∈ cfg.nodes) {j : ℕ} {f : Election}
    (hf : (c.proc i).elections[j]? = some f) :
    CanReach cfg.step CleanStep c fun c' => ((∀ k, k ≠ i → c'.proc k = c.proc k) ∧
      (c'.proc i).raft = (c.proc i).raft ∧
      (c'.proc i).elections.length = (c.proc i).elections.length ∧
      ∃ f', (c'.proc i).elections[j]? = some f') ∧
        ∀ f' ∈ (c'.proc i).elections[j]?, allDone f'.tasks := by
  refine CanReach.descend (fun c' => (((c'.proc i).elections[j]?.map Election.tasks).map
    unsettled).getD 0) ⟨fun _ _ => rfl, rfl, rfl, f, hf⟩ ?_
  rintro t ht ⟨hother, hraft, hlen, f', hf'⟩
  have hwired := wired_of_reach (hr.trans (ht.mono fun _ _ _ => trivial))
  by_cases hd : allDone f'.tasks
  · refine Or.inl fun g hg => ?_
    rw [hf'] at hg
    exact Option.some.inj hg ▸ hd
  obtain ⟨k, task, htask, hn⟩ := exists_unsettled hd
  have hvote : t.voteTask i j k = some task := by
    unfold voteTask
    rw [hf', Option.bind_some, htask]
  -- either way only the task changes
  have hset : ∀ {task' : RpcTask} {u : Cluster κ},
      u.proc = Function.update t.proc i ((t.proc i).setVoteTask j k task') →
      unsettled (f'.tasks.set k task') < unsettled f'.tasks →
      ((∀ k, k ≠ i → u.proc k = c.proc k) ∧ (u.proc i).raft = (c.proc i).raft ∧
        (u.proc i).elections.length = (c.proc i).elections.length ∧
        ∃ f', (u.proc i).elections[j]? = some f') ∧
      (((u.proc i).elections[j]?.map Election.tasks).map unsettled).getD 0 <
        (((t.proc i).elections[j]?.map Election.tasks).map unsettled).getD 0 := by
    intro task' u hu hlt
    have hself : u.proc i = (t.proc i).setVoteTask j k task' := by rw [hu, Function.update_self]
    have hnew := Proc.setVoteTask_elections (k := k) hf' task'
    rw [hself]
    refine ⟨⟨fun l hl => ?_, hraft, ?_, _, hnew⟩, ?_⟩
    · rw [hu, Function.update_of_ne hl]
      exact hother l hl
    · rw [← hlen]
      exact List.length_modify ..
    · rw [hnew, hf']
      exact hlt
  have hwtask := ((hwired.proc i).election f' (List.mem_of_getElem? hf')).task task
    (List.mem_of_getElem? htask)
  refine Or.inr ?_
  rcases hrpc : task.rpc with _ | r
  · have hs := Transition.requestVote i j k task hvote hrpc
    exact .of_step (.requestVote i j k) ⟨⟨trivial, trivial, trivial, trivial⟩, fun _ => rfl⟩
      (hs.possible (by simpa [ClusterConfig.actor] using hi))
      (.here (hset rfl (unsettled_send htask hrpc _)))
  · obtain ⟨rpc, hw⟩ := exists_waitingRpc hwtask hn hrpc
    have hs := Transition.voteTimeout i j k task rpc hvote hw
    exact .of_step (.voteTimeout i j k) ⟨⟨trivial, trivial, trivial, trivial⟩, fun _ => rfl⟩
      (hs.possible (by simpa [ClusterConfig.actor] using hi))
      (.here (hset rfl (unsettled_return htask hn _)))

theorem finishElection_electionInProgress (n : RaftNode) (v : ℕ) :
    (n.finishElection v).electionInProgress = false := by
  rcases n.finishElection_cases v with h | ⟨-, -, h⟩ <;> rw [h] <;> rfl

/-- The election in progress on node `i` can be ended, whatever becomes of `i` by that. -/
theorem endCampaign (hr : cfg.Reach Any c) (hi : i ∈ cfg.nodes)
    (he : (c.proc i).raft.electionInProgress = true) :
    CanReach cfg.step CleanStep c fun c' =>
      (∀ k, k ≠ i → c'.proc k = c.proc k) ∧ (c'.proc i).raft.electionInProgress = false := by
  obtain ⟨f, hf, -⟩ := (AllCampaign.reach hr i he).last
  rw [List.getLast?_eq_getElem?] at hf
  refine (settleElection hr hi hf).bind ?_
  rintro t ht ⟨⟨hother, hraft, hlen, f', hf'⟩, hdone⟩
  have hrt := hr.trans (ht.mono fun _ _ _ => trivial)
  rw [hf'] at hdone
  have hd : allDone f'.tasks := hdone f' rfl
  have hend : ∀ {p : Proc κ}, p.raft.electionInProgress = false →
      (∀ k, k ≠ i → (t.put i p).proc k = c.proc k) ∧
        ((t.put i p).proc i).raft.electionInProgress = false := by
    intro p hp
    refine ⟨fun k hk => ?_, by rwa [put_proc_self]⟩
    rw [put_proc_of_ne hk]
    exact hother k hk
  have hclean : CleanStep t (.finishElection i ((c.proc i).elections.length - 1)) := by
    refine ⟨⟨?_, trivial, trivial, trivial⟩, fun _ => rfl⟩
    intro g hg _ hq
    rw [hf'] at hg
    cases hg
    -- the election is the last one, so its votes are of the current term
    obtain ⟨g, hg, hsent⟩ := (AllCampaign.reach hrt i (by rwa [hraft])).last
    rw [List.getLast?_eq_getElem?, hlen, hf'] at hg
    cases hg
    have hwired := (((wired_of_reach hrt).proc i).election f' (List.mem_of_getElem? hf')).task
    rwa [grantedIn_eq hsent fun task hmem => (hwired task hmem).unsent]
  have hactor : ∀ k ∈ ClusterConfig.actor
      (.finishElection i ((c.proc i).elections.length - 1) : Event κ), k ∈ cfg.nodes := by
    simpa [ClusterConfig.actor] using hi
  rcases hc : f'.cancelled with _ | _
  · exact .of_step _ hclean ((Transition.finishElection i _ f' hf' hc hd).possible hactor)
      (.here (hend (finishElection_electionInProgress _ _)))
  · exact .of_step _ hclean ((Transition.cancelElection i _ f' hf' hc).possible hactor)
      (.here (hend rfl))

theorem endCampaigns (hr : cfg.Reach Any c) :
    CanReach cfg.step CleanStep c fun c' =>
      ∀ i ∈ cfg.nodes, (c'.proc i).raft.electionInProgress = false := by
  refine CanReach.imp (CanReach.each (l := cfg.nodes)
    (I := fun done _ c' => ∀ i ∈ done, (c'.proc i).raft.electionInProgress = false) ?_
    (List.forall_mem_nil _)) fun _ _ h => h
  intro done i rest t hl ht hdone
  have hi : i ∈ cfg.nodes := hl ▸ List.mem_append_right done List.mem_cons_self
  by_cases he : (t.proc i).raft.electionInProgress = true
  · refine (endCampaign (hr.trans (ht.mono fun _ _ _ => trivial)) hi he).imp ?_
    rintro u - ⟨hother, hu⟩ k hk
    by_cases hki : k = i
    · rwa [hki]
    · rw [hother k hki]
      exact hdone k ((List.mem_append.mp hk).resolve_right fun h => hki (List.mem_singleton.mp h))
  · exact .here (List.forall_mem_append.mpr
      ⟨hdone, List.forall_mem_singleton.mpr (by simpa using he)⟩)

theorem endRound (hr : cfg.Reach Any c) (hi : i ∈ cfg.nodes)
    (hl : (c.proc i).raft.state = .leader) :
    CanReach cfg.step CleanStep c fun c' => ((∀ k, k ≠ i → c'.proc k = c.proc k) ∧
      (c'.proc i).raft = (c.proc i).raft) ∧ allDone (c'.proc i).heartbeats := by
  refine CanReach.descend (fun c' => unsettled (c'.proc i).heartbeats) ⟨fun _ _ => rfl, rfl⟩ ?_
  rintro t ht ⟨hother, hraft⟩
  by_cases hd : allDone (t.proc i).heartbeats
  · exact Or.inl hd
  obtain ⟨k, task, htask, hn⟩ := exists_unsettled hd
  have hset : ∀ {task' : RpcTask} {u : Cluster κ},
      u.proc = Function.update t.proc i ((t.proc i).setTask .heartbeat k task') →
      unsettled ((t.proc i).heartbeats.set k task') < unsettled (t.proc i).heartbeats →
      ((∀ k, k ≠ i → u.proc k = c.proc k) ∧ (u.proc i).raft = (c.proc i).raft) ∧
        unsettled (u.proc i).heartbeats < unsettled (t.proc i).heartbeats := by
    intro task' u hu hlt
    have hself : u.proc i = (t.proc i).setTask .heartbeat k task' := by
      rw [hu, Function.update_self]
    rw [hself, Proc.setTask_raft]
    refine ⟨⟨fun l hl => ?_, hraft⟩, hlt⟩
    rw [hu, Function.update_of_ne hl]
    exact hother l hl
  have hwired := wired_of_reach (hr.trans (ht.mono fun _ _ _ => trivial))
  have hwtask := (hwired.proc i).heartbeat.task task (List.mem_of_getElem? htask)
  refine Or.inr ?_
  rcases hrpc : task.rpc with _ | r
  · have hs := Transition.sendAppend (c := t) i .heartbeat k task htask hrpc
    have hlead : (t.proc i).raft.state = .leader := by rw [hraft, hl]
    exact .of_step (.sendAppend i .heartbeat k) ⟨⟨trivial, trivial, hlead, trivial⟩, fun _ => rfl⟩
      (hs.possible (by simpa [ClusterConfig.actor] using hi))
      (.here (hset rfl (unsettled_send htask hrpc _)))
  · obtain ⟨rpc, hw⟩ := exists_waitingRpc hwtask hn hrpc
    have hs := Transition.appendTimeout i .heartbeat k task rpc htask hw
    exact .of_step (.appendTimeout i .heartbeat k) ⟨⟨trivial, trivial, trivial, trivial⟩,
      fun _ => rfl⟩ (hs.possible (by simpa [ClusterConfig.actor] using hi))
      (.here (hset rfl (unsettled_return htask hn _)))

end DistributedSync
