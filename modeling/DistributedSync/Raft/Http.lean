import DistributedSync.Raft.Entries
import DistributedSync.Raft.Transport

/-!
# Raft over HTTP

The cluster with the network as it is: a request is the JSON text that `_send_message_to_peer`
posts, the endpoint `_handle_raft_message` reads it, handles the message and answers with a text or
an error, and the sender reads the answer. The cluster of messages does the same steps
(`HttpCluster.step_rel`), so the two have the same runs (`sameOverHttp`).
-/

namespace DistributedSync

open Json (Text)
open Cluster
open Runs (rel_bind rel_map rel_self)

variable {T κ : Type}

/-! ## The endpoint -/

/-- The text of a message made at the given moment. -/
def Message.body (wire : Wire T) (m : Message) (timestamp : T) : Text :=
  Value.jsonDumps wire.floats (messageToDict wire m timestamp)

/-- `message_from_dict` of the JSON in a text; `none` when one of the two raises. -/
def readBody (wire : Wire T) (body : Text) : Option Message :=
  (Value.jsonLoads wire.floats body).bind (messageFromDict wire)

/-- What has become of a post: nothing yet, an answer with status 200, or one with status 500. The
text of an error is never read: `raise_for_status` raises first. -/
inductive HttpReply where
  | pending
  | ok (body : Text)
  | serverError

/-- `_handle_raft_message`: handle incoming Raft RPC message from a peer. -/
def RaftNode.handleRaftMessage (wire : Wire T) (raises : Raises) (n : RaftNode) (body : Text)
    (timestamp : T) : RaftNode × HttpReply :=
  match readBody wire body with
  | none => (n, .serverError)
  | some message =>
    let res := n.handleMessage raises message
    (res.1, match res.2 with
      | some response => .ok (response.body wire timestamp)
      | none => .serverError)

/-! ## The cluster -/

/-- A request on the network. `covered` is a local of the coroutine that sends it:
`prev_log_index + len(entries)`. -/
structure Post where
  sender : String
  receiver : String
  body : Text
  covered : ℤ
  reply : HttpReply := .pending

/-- All nodes, by node id, and all requests ever sent. -/
structure HttpCluster (κ : Type) where
  proc : String → Proc κ
  posts : List Post := []

namespace HttpCluster

/-- Node `i` becomes `p`. -/
def put (s : HttpCluster κ) (i : String) (p : Proc κ) : HttpCluster κ :=
  { s with proc := Function.update s.proc i p }

/-- Node `i` becomes `p` and posts a request. -/
def send (wire : Wire T) (s : HttpCluster κ) (i : String) (p : Proc κ) (peer : String)
    (m : Message) (timestamp : T) : HttpCluster κ :=
  { s.put i p with posts := s.posts ++ [{ sender := i, receiver := peer
                                          body := m.body wire timestamp
                                          covered := m.lastCovered }] }

def voteTask (s : HttpCluster κ) (i : String) (j k : ℕ) : Option RpcTask :=
  (s.proc i).elections[j]?.bind fun f => f.tasks[k]?

/-- The post of a task that waits for it. -/
def waitingPost (s : HttpCluster κ) (t : RpcTask) : Option Post :=
  if t.result = none then t.rpc.bind fun r => s.posts[r]? else none

/-- The post of a task that waits for it, and the answer. -/
def arrived (s : HttpCluster κ) (t : RpcTask) : Option (Post × Text) :=
  (s.waitingPost t).bind fun post =>
    match post.reply with
    | .ok body => some (post, body)
    | _ => none

/-- One step, in which the clock shows `now`; `none` when the event is not possible. An answer that
cannot be read raises in the RPC coroutine, which returns False. -/
def step (wire : Wire T) (s : HttpCluster κ) (ev : Event κ) (now : T) : Option (HttpCluster κ) :=
  match ev with
  | .requestVote i j k =>
    let p := s.proc i
    (s.voteTask i j k).bind fun t =>
      if t.rpc = none then
        some (s.send wire i (p.setVoteTask j k { t with rpc := some s.posts.length }) t.peer
          p.raft.requestVoteMessage now)
      else none
  | .voteResponse i j k =>
    let p := s.proc i
    (s.voteTask i j k).bind fun t => (s.arrived t).map fun pb =>
      match readBody wire pb.2 with
      | some response =>
        let r := p.raft.voteReply response
        s.put i ((p.setVoteTask j k { t with result := some r.2 }).setRaft r.1)
      | none => s.put i (p.setVoteTask j k { t with result := some false })
  | .voteTimeout i j k =>
    (s.voteTask i j k).bind fun t => (s.waitingPost t).map fun _ =>
      s.put i ((s.proc i).setVoteTask j k { t with result := some false })
  | .sendAppend i owner k =>
    let p := s.proc i
    (p.tasks owner)[k]?.bind fun t =>
      if t.rpc = none then
        some (s.send wire i (p.setTask owner k { t with rpc := some s.posts.length }) t.peer
          (p.raft.appendEntriesMessage t.peer) now)
      else none
  | .appendResponse i owner k raises =>
    let p := s.proc i
    (p.tasks owner)[k]?.bind fun t => (s.arrived t).map fun pb =>
      match readBody wire pb.2 with
      | some response =>
        let r := p.raft.appendReply raises t.peer pb.1.covered response
        s.put i ((p.setTask owner k { t with result := some r.2 }).setRaft r.1)
      | none => s.put i (p.setTask owner k { t with result := some false })
  | .appendTimeout i owner k =>
    ((s.proc i).tasks owner)[k]?.bind fun t => (s.waitingPost t).map fun _ =>
      s.put i ((s.proc i).setTask owner k { t with result := some false })
  | .handleMessage r raises =>
    s.posts[r]?.bind fun post =>
      match post.reply with
      | .pending =>
        let p := s.proc post.receiver
        let res := p.raft.handleRaftMessage wire raises post.body now
        some { s.put post.receiver (p.setRaft res.1) with
          posts := s.posts.set r { post with reply := res.2 } }
      | _ => none
  -- The other coroutines do not touch the network.
  | ev => (({ proc := s.proc } : Cluster κ).step ev).map fun c => { s with proc := c.proc }

end HttpCluster

namespace ClusterConfig

/-- A step of the cluster over HTTP, run by one of its nodes. -/
def httpStep (wire : Wire T) (cfg : ClusterConfig) (s : HttpCluster κ) (ev : Event κ × T) :
    Option (HttpCluster κ) :=
  if ∀ i ∈ actor ev.1, i ∈ cfg.nodes then s.step wire ev.1 ev.2 else none

def httpInit (cfg : ClusterConfig) : HttpCluster κ where
  proc i := { raft := .init i (cfg.peers i) }

end ClusterConfig

/-- The data of an entry is a Python dictionary, and so is every one inside it. -/
def Event.DistinctData : Event κ → Prop
  | .appendEntry _ _ data _ _ => (Value.dict data).DistinctKeys
  | _ => True

/-- The states that the cluster over HTTP reaches. -/
abbrev HttpReach (wire : Wire T) (cfg : ClusterConfig) : HttpCluster κ → Prop :=
  Runs.Reach (cfg.httpStep wire) (fun _ ev => ev.1.DistinctData) cfg.httpInit

/-- The states that the cluster of messages reaches. -/
abbrev MessageReach (cfg : ClusterConfig) : Cluster κ → Prop :=
  cfg.Reach fun _ ev => ev.DistinctData

/-! ## Texts and messages -/

def LogEntry.Distinct (e : LogEntry) : Prop := (Value.dict e.data).DistinctKeys

/-- An answer says what the response of the message does. -/
inductive HttpReply.Says (wire : Wire T) : HttpReply → RpcReply → Prop
  | pending : Says wire .pending .pending
  | ok {body : Text} {response : Message} (h : readBody wire body = some response) :
    Says wire (.ok body) (.answered response)
  | serverError : Says wire .serverError .failed

/-- A post brings the request of an RPC. -/
structure Post.Brings (wire : Wire T) (post : Post) (rpc : Rpc) : Prop where
  sender : post.sender = rpc.sender
  receiver : post.receiver = rpc.receiver
  body : readBody wire post.body = some rpc.request
  covered : post.covered = rpc.request.lastCovered
  reply : post.reply.Says wire rpc.reply

/-- The nodes are in the same state, and the network carries the messages as texts. -/
structure HttpCluster.Carries (wire : Wire T) (s : HttpCluster κ) (c : Cluster κ) : Prop where
  proc : s.proc = c.proc
  posts : List.Forall₂ (Post.Brings wire) s.posts c.rpcs

theorem readBody_body {wire : Wire T} {m : Message} {timestamp : T}
    (h : ∀ e ∈ m.data.entries.getD [], e.Distinct) :
    readBody wire (m.body wire timestamp) = some m := deliver_eq h

theorem RaftNode.handleMessage_entries {n : RaftNode} {raises : Raises} {m r : Message}
    (h : (n.handleMessage raises m).2 = some r) : r.data.entries = none := by
  unfold handleMessage at h
  dsimp only at h
  split at h
  · cases h
    unfold handleRequestVote
    dsimp only
    split_ifs
    all_goals rfl
  · unfold handleAppendEntries at h
    dsimp only at h
    split at h
    · cases h
    · cases h
      rfl
    · split_ifs at h
      cases h
      rfl
  · cases h
    rfl

/-- The endpoint does with the text of a message what the node does with the message. -/
theorem RaftNode.handleRaftMessage_of_readBody {wire : Wire T} {body : Text} {m : Message}
    (h : readBody wire body = some m) (n : RaftNode) (raises : Raises) (timestamp : T) :
    (n.handleRaftMessage wire raises body timestamp).1 = (n.handleMessage raises m).1 ∧
      (n.handleRaftMessage wire raises body timestamp).2.Says wire
        (match (n.handleMessage raises m).2 with
          | some response => .answered response
          | none => .failed) := by
  unfold handleRaftMessage
  rw [h]
  refine ⟨rfl, ?_⟩
  dsimp only
  rcases hr : (n.handleMessage raises m).2 with _ | response
  · exact .serverError
  · refine .ok (readBody_body ?_)
    rw [handleMessage_entries hr]
    exact fun e he => nomatch he

/-! ## The same steps -/

namespace HttpCluster

variable {wire : Wire T} {s : HttpCluster κ} {c : Cluster κ} {i : String} {t : RpcTask}

theorem forall₂_set {α β : Type} {R : α → β → Prop} {l : List α} {l' : List β}
    (h : List.Forall₂ R l l') (r : ℕ) {a : α} {b : β} (hab : R a b) :
    List.Forall₂ R (l.set r a) (l'.set r b) := by
  induction h generalizing r with
  | nil => exact .nil
  | cons hxy htl ih =>
    cases r with
    | zero => exact .cons hab htl
    | succ r => exact .cons hxy (ih r)

theorem Carries.put (h : s.Carries wire c) (i : String) (p : Proc κ) :
    (s.put i p).Carries wire (c.put i p) where
  proc := by
    show Function.update s.proc i p = Function.update c.proc i p
    rw [h.proc]
  posts := h.posts

theorem Carries.send (h : s.Carries wire c) (i : String) (p : Proc κ) (peer : String)
    {m : Message} (hm : ∀ e ∈ m.data.entries.getD [], e.Distinct) (timestamp : T) :
    (s.send wire i p peer m timestamp).Carries wire (c.send i p peer m) where
  proc := (h.put i p).proc
  posts := List.rel_append h.posts <| .cons ⟨rfl, rfl, readBody_body hm, rfl, .pending⟩ .nil

theorem Carries.getElem? (h : s.Carries wire c) (r : ℕ) :
    Option.Rel (Post.Brings wire) s.posts[r]? c.rpcs[r]? := by
  have hlen := h.posts.length_eq
  by_cases hr : r < s.posts.length
  · rw [List.getElem?_eq_getElem hr, List.getElem?_eq_getElem (hlen ▸ hr)]
    exact .some (h.posts.get hr (hlen ▸ hr))
  · rw [List.getElem?_eq_none (by omega), List.getElem?_eq_none (by omega)]
    exact .none

theorem Carries.waitingPost (h : s.Carries wire c) (t : RpcTask) :
    Option.Rel (Post.Brings wire) (s.waitingPost t) (c.waitingRpc t) := by
  unfold HttpCluster.waitingPost waitingRpc rpcOf
  split
  · cases t.rpc with
    | none => exact .none
    | some r => exact h.getElem? r
  · exact .none

/-- A task gets an answer with the text of the response. -/
theorem Carries.arrived (h : s.Carries wire c) (t : RpcTask) :
    Option.Rel (fun pb ra => pb.1.covered = ra.1.request.lastCovered ∧
      readBody wire pb.2 = some ra.2) (s.arrived t) (c.arrived t) := by
  refine rel_bind (h.waitingPost t) fun post rpc hb => ?_
  rcases hpost : post.reply with _ | body | _ <;> rcases hrpc : rpc.reply with _ | response | _ <;>
    have hreply := hb.reply <;> rw [hpost, hrpc] at hreply
  all_goals try cases hreply
  · exact .none
  · next hbody => exact .some ⟨hb.covered, hbody⟩
  · exact .none

theorem Carries.offline (h : s.Carries wire c) {ev : Event κ} {step : Option (Cluster κ)}
    (hstep : (({ proc := c.proc } : Cluster κ).step ev).map (fun d => { c with proc := d.proc }) =
      step) :
    Option.Rel (Carries wire) ((({ proc := s.proc } : Cluster κ).step ev).map
      fun d => { s with proc := d.proc }) step := by
  subst hstep
  rw [h.proc]
  exact rel_map (rel_self _) fun d d' heq => ⟨by rw [heq], h.posts⟩

theorem step_rel (h : s.Carries wire c) (hc : c.AllEntries LogEntry.Distinct) (ev : Event κ)
    (now : T) : Option.Rel (Carries wire) (s.step wire ev now) (c.step ev) := by
  have hvote : ∀ i j k, s.voteTask i j k = c.voteTask i j k := fun i j k => by
    rw [HttpCluster.voteTask, h.proc, Cluster.voteTask]
  cases ev with
  | electionTimeout i | raftProcessor i | heartbeat i =>
    refine h.offline ?_
    simp only [Cluster.step]
    split_ifs <;> rfl
  | finishElection i j =>
    refine h.offline ?_
    simp only [Cluster.step]
    rcases (c.proc i).elections[j]? with _ | f
    · rfl
    · simp only [Option.bind_some]
      split_ifs <;> rfl
  | appendEntry i command data caller raises =>
    refine h.offline ?_
    simp only [Cluster.step]
    split_ifs
    · rcases ((c.proc i).raft.appendEntry raises command data).2 with _ | _ <;> rfl
    · rfl
  | returnAppend i j =>
    refine h.offline ?_
    simp only [Cluster.step]
    rcases (c.proc i).appendCalls[j]? with _ | call
    · rfl
    · simp only [Option.bind_some]
      split_ifs <;> rfl
  | requestVote i j k =>
    simp only [HttpCluster.step, Cluster.step, hvote, h.proc, h.posts.length_eq]
    refine rel_bind (rel_self _) fun t _ heq => heq ▸ ?_
    split_ifs
    · refine .some (h.send i _ _ (fun e he => ?_) now)
      simp [RaftNode.requestVoteMessage] at he
    · exact .none
  | sendAppend i owner k =>
    simp only [HttpCluster.step, Cluster.step, h.proc, h.posts.length_eq]
    refine rel_bind (rel_self _) fun t _ heq => heq ▸ ?_
    split_ifs
    · refine .some (h.send i _ _ (fun e he => ?_) now)
      exact (hc.node i).log e (List.mem_of_mem_drop he)
    · exact .none
  | voteResponse i j k =>
    simp only [HttpCluster.step, Cluster.step, hvote, h.proc]
    refine rel_bind (rel_self _) fun t _ heq => heq ▸ rel_map (h.arrived t) ?_
    rintro ⟨post, body⟩ ⟨rpc, response⟩ ⟨-, hbody⟩
    dsimp only at hbody ⊢
    rw [hbody]
    exact h.put i _
  | appendResponse i owner k raises =>
    simp only [HttpCluster.step, Cluster.step, h.proc]
    refine rel_bind (rel_self _) fun t _ heq => heq ▸ rel_map (h.arrived t) ?_
    rintro ⟨post, body⟩ ⟨rpc, response⟩ ⟨hcovered, hbody⟩
    dsimp only at hcovered hbody ⊢
    rw [hbody, hcovered]
    exact h.put i _
  | voteTimeout i j k =>
    simp only [HttpCluster.step, Cluster.step, hvote, h.proc]
    exact rel_bind (rel_self _) fun t _ heq => heq ▸ rel_map (h.waitingPost t) fun _ _ _ =>
      h.put i _
  | appendTimeout i owner k =>
    simp only [HttpCluster.step, Cluster.step, h.proc]
    exact rel_bind (rel_self _) fun t _ heq => heq ▸ rel_map (h.waitingPost t) fun _ _ _ =>
      h.put i _
  | handleMessage r raises =>
    simp only [HttpCluster.step, Cluster.step]
    refine rel_bind (h.getElem? r) fun post rpc hb => ?_
    obtain ⟨hfst, hsnd⟩ := RaftNode.handleRaftMessage_of_readBody hb.body
      (c.proc rpc.receiver).raft raises now
    rcases hpost : post.reply with _ | body | _ <;>
      rcases hrpc : rpc.reply with _ | response | _ <;>
      have hreply := hb.reply <;> rw [hpost, hrpc] at hreply
    all_goals try cases hreply
    · rw [h.proc, hb.receiver]
      refine .some ⟨?_, forall₂_set h.posts r ⟨hb.sender, rfl, hb.body, hb.covered, hsnd⟩⟩
      show Function.update s.proc _ _ = Function.update c.proc _ _
      rw [h.proc, hfst]
    · exact .none
    · exact .none

end HttpCluster

/-! ## The same runs -/

open HttpCluster

variable {wire : Wire T} {cfg : ClusterConfig}

theorem appends_of_distinctData {c : Cluster κ} {ev : Event κ} (h : ev.DistinctData) :
    Appends LogEntry.Distinct c ev := by
  cases ev <;> exact h

theorem MessageReach.distinct {c : Cluster κ} (h : MessageReach cfg c) :
    c.AllEntries LogEntry.Distinct :=
  .reach (h.mono fun _ _ => appends_of_distinctData)

theorem carries_init : (cfg.httpInit : HttpCluster κ).Carries wire cfg.init := ⟨rfl, .nil⟩

theorem httpStep_rel {s : HttpCluster κ} {c : Cluster κ} (h : s.Carries wire c)
    (hc : MessageReach cfg c) (ev : Event κ) (now : T) :
    Option.Rel (Carries wire) (cfg.httpStep wire s (ev, now)) (cfg.step c ev) := by
  unfold ClusterConfig.httpStep ClusterConfig.step
  split
  · exact step_rel h hc.distinct ev now
  · exact .none

/-- What the nodes do over HTTP they do when the network carries messages, and the other way round:
the two clusters reach the same states of the nodes, with the texts of the messages under way. -/
theorem sameOverHttp [Inhabited T] (wire : Wire T) (cfg : ClusterConfig) :
    (∀ s : HttpCluster κ, HttpReach wire cfg s → ∃ c, MessageReach cfg c ∧ s.Carries wire c) ∧
      ∀ c : Cluster κ, MessageReach cfg c → ∃ s, HttpReach wire cfg s ∧ s.Carries wire c := by
  constructor
  · intro s hs
    refine hs.follow (Carries wire) carries_init fun s c ev s' hc h hok hstep => ?_
    have hrel := httpStep_rel h hc ev.1 ev.2
    rw [hstep] at hrel
    rcases hc' : cfg.step c ev.1 with _ | c' <;> rw [hc'] at hrel <;> cases hrel
    exact ⟨ev.1, c', hok, hc', by assumption⟩
  · intro c hc
    have hfollow : ∃ s, HttpReach wire cfg s ∧ MessageReach cfg c ∧ s.Carries wire c := by
      refine hc.follow (fun c (s : HttpCluster κ) => MessageReach cfg c ∧ s.Carries wire c)
        ⟨.refl, carries_init⟩ fun c s ev c' _ ⟨hc, h⟩ hok hstep => ?_
      have hrel := httpStep_rel h hc ev default
      rw [hstep] at hrel
      rcases hs' : cfg.httpStep wire s (ev, default) with _ | s' <;> rw [hs'] at hrel <;>
        cases hrel
      exact ⟨(ev, default), s', hok, hs', hc.tail ev hok hstep, by assumption⟩
    obtain ⟨s, hs, -, h⟩ := hfollow
    exact ⟨s, hs, h⟩

end DistributedSync
