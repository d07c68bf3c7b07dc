import DistributedSync.Raft.Refinement

/-!
# The simulation

`Sim.step`: a step of the cluster that obeys the rules is followed by protocol steps. So every
state reached by such steps is a protocol state (`Sim.reach`), with all invariants of the protocol.
-/

namespace DistributedSync

open Replication Replication.World TermLog Quorum Cluster

variable {κ : Type} {cfg : ClusterConfig} {R : Rules} {c c' : Cluster κ} {ev : Event κ}
  {s s' : World String LogEntry ℤ} {i : String}

/-! ## Quorums -/

/-- A node together with enough of its peers is a majority of the nodes. -/
theorem majority_peers (hi : i ∈ cfg.nodes) {ps : List String} (hnd : ps.Nodup)
    (hsub : ∀ p ∈ ps, p ∈ cfg.peers i)
    (hq : ((cfg.peers i).length + 1) / 2 + 1 ≤ 1 + ps.length) :
    Majority cfg.nodes.toFinset (i :: ps).toFinset := by
  have hmem := cfg.mem_peers i hi
  have hcard : cfg.nodes.toFinset.card = (cfg.peers i).length + 1 := by
    have herase : (cfg.peers i).toFinset = cfg.nodes.toFinset.erase i := by
      ext j
      simp [hmem, and_comm]
    have hpos := Finset.card_pos.mpr ⟨i, List.mem_toFinset.mpr hi⟩
    have := Finset.card_erase_of_mem (List.mem_toFinset.mpr hi)
    rw [← herase, List.toFinset_card_of_nodup (cfg.peers_nodup i hi)] at this
    omega
  refine majority_of_list (List.nodup_cons.mpr ⟨fun h => ?_, hnd⟩) (fun j hj => ?_) ?_
  · exact ((hmem i).mp (hsub i h)).2 rfl
  · rcases List.mem_cons.mp hj with rfl | hj
    · exact List.mem_toFinset.mpr hi
    · exact List.mem_toFinset.mpr ((hmem j).mp (hsub j hj)).1
  · rw [hcard, List.length_cons]
    omega

section Counts

variable (h : Sim cfg R c s) (hi : i ∈ cfg.nodes)

include h

theorem Sim.quorumSize (i : String) :
    (c.proc i).raft.quorumSize = ((cfg.peers i).length + 1) / 2 + 1 := by
  unfold RaftNode.quorumSize
  rw [h.wired.peers i]

/-- A granted task stands for a vote of its peer in the term of its request. -/
theorem Sim.granted_vote {f : Election} (hf : f ∈ (c.proc i).elections) {t : RpcTask}
    (ht : t ∈ f.tasks) (hr : t.result = some true) {rpc : Rpc} (hrpc : c.rpcOf t = some rpc) :
    s.Granted i t.peer rpc.request.term := by
  obtain ⟨r, htr, hget⟩ := Option.bind_eq_some_iff.mp hrpc
  obtain ⟨rpc', hget', hsender, hrec, hkind, hres⟩ :=
    (((h.wired.proc i).election f hf).task t ht).sent r htr
  rw [hget, Option.some.injEq] at hget'
  subst hget'
  obtain ⟨m, hm, hg⟩ := hres hr
  cases h.rpc rpc (List.mem_of_getElem? hget) with
  | ballot b hb hs hreq hv =>
    rw [hreq, ← hrec]
    exact ⟨b, hv m hm hg, hs.trans hsender, rfl⟩
  | offer a ha hs hreq hk =>
    rw [hreq] at hkind
    cases hkind
  | dud hreq k hi' ht' hr' =>
    rw [hreq] at hkind
    cases hkind

include hi

theorem Sim.carried {f : Election} (hf : f ∈ (c.proc i).elections)
    (hq : (c.proc i).raft.quorumSize ≤
      1 + c.grantedIn (c.proc i).raft.currentTerm f.tasks) :
    s.Carried (R.protocol cfg) i (c.proc i).raft.currentTerm := by
  have hwired := (h.wired.proc i).election f hf
  unfold grantedIn at hq
  rw [List.countP_eq_length_filter] at hq
  generalize hvotes : f.tasks.filter _ = votes at hq
  have hsub : (votes.map RpcTask.peer).Sublist (cfg.peers i) := by
    rw [← hvotes, ← h.wired.peers i]
    rcases hwired.peers with hnil | hpeers
    · rw [hnil]
      exact List.nil_sublist _
    · rw [← hpeers]
      exact List.filter_sublist.map _
  refine ⟨_, majority_peers hi (hsub.nodup (cfg.peers_nodup i hi)) (fun p hp => hsub.subset hp)
    ?_, fun j hj => ?_⟩
  · rw [h.quorumSize] at hq
    rwa [List.length_map]
  · rcases List.mem_cons.mp (List.mem_toFinset.mp hj) with hji | hj
    · exact Or.inl hji
    · obtain ⟨t, ht, rfl⟩ := List.mem_map.mp hj
      rw [← hvotes, List.mem_filter, Bool.and_eq_true, decide_eq_true_eq,
        Option.any_eq_true] at ht
      obtain ⟨htask, hres, rpc, hrpc, hterm⟩ := ht
      rw [beq_iff_eq] at hterm
      rw [← hterm]
      exact Or.inr (h.granted_vote hf htask hres hrpc)

omit hi in
/-- A peer that backs a position has acknowledged it. -/
theorem Sim.backing_acked {t : ℤ} {k : ℕ} {p : String} (hp : p ∈ c.backing i t k) :
    s.Acked p t k := by
  unfold backing at hp
  obtain ⟨-, hp⟩ := List.mem_filter.mp hp
  obtain ⟨rpc, hrpc, hp⟩ := List.any_eq_true.mp hp
  simp only [Bool.and_eq_true, decide_eq_true_eq] at hp
  obtain ⟨⟨⟨⟨⟨_, hrec⟩, hkind⟩, hterm⟩, hk⟩, hsucc⟩ := hp
  obtain ⟨m, hm, hs⟩ : ∃ m, rpc.reply = .answered m ∧ m.succeeded = true := by
    unfold Rpc.succeeded at hsucc
    rcases hreply : rpc.reply with _ | m | _ <;> rw [hreply] at hsucc
    · cases hsucc
    · exact ⟨m, rfl, hsucc⟩
    · cases hsucc
  cases h.rpc rpc hrpc with
  | ballot b hb hs' hreq hv =>
    rw [hreq] at hkind
    cases hkind
  | offer a ha hs' hreq hack =>
    have hprev := h.matched.offer_prev a ha
    refine ⟨a, hrec ▸ hack m hm hs, ?_, ?_⟩
    · rw [← hterm, hreq]
      rfl
    · rw [hreq] at hk
      change (k : ℤ) ≤ ((a.prev : ℤ) - 1) + (a.log.drop a.prev).length at hk
      rw [List.length_drop] at hk
      omega
  | dud hreq j hi' ht' hr' =>
    rw [hr' m hm] at hs
    cases hs

theorem Sim.backed {t : ℤ} {k : ℕ}
    (hq : (c.proc i).raft.quorumSize ≤ 1 + (c.backing i t k).length) :
    ∃ Q, Majority (R.protocol cfg).members Q ∧ ∀ j ∈ Q, j = i ∨ s.Acked j t k := by
  have hsub : (c.backing i t k).Sublist (cfg.peers i) := by
    rw [← h.wired.peers i]
    exact List.filter_sublist
  rw [h.quorumSize] at hq
  refine ⟨_, majority_peers hi (hsub.nodup (cfg.peers_nodup i hi)) (fun p hp => hsub.subset hp)
    hq, fun j hj => ?_⟩
  rcases List.mem_cons.mp (List.mem_toFinset.mp hj) with hji | hj
  · exact Or.inl hji
  · exact Or.inr (h.backing_acked hj)

end Counts

/-! ## Messages -/

theorem answered_of_match {r : Option Message} {reply : RpcReply} {m : Message}
    (h : reply = match r with
      | some response => .answered response
      | none => .failed) (hm : reply = .answered m) : r = some m := by
  rcases r with _ | response <;> rw [hm] at h <;> cases h
  rfl

theorem Sim.handle_ballot (h : Sim cfg R c s) {rpc : Rpc} {b : Ballot String LogEntry ℤ}
    (hb : b ∈ s.ballots) (hs : b.candidate = rpc.sender) (hm : rpc.request = ballotMessage b)
    {reply : RpcReply} (raises : Raises)
    (hreply : reply =
      match ((c.proc rpc.receiver).raft.handleMessage raises rpc.request).2 with
      | some response => .answered response
      | none => .failed) :
    ∃ s', Leads (R.protocol cfg) s rpc.receiver
        ((c.proc rpc.receiver).raft.handleMessage raises rpc.request).1.abs s' ∧
      RpcSim s' { rpc with reply } := by
  obtain ⟨s₁, h₁⟩ := adoptTerm_leads (P := R.protocol cfg) (h.member rpc.receiver) b.term
  have hmem := h₁.self
  have hb₁ := h₁.moves.extends.ballots hb
  have hle := (c.proc rpc.receiver).raft.le_adoptTerm b.term
  have hlog := (c.proc rpc.receiver).raft.adoptTerm_log b.term
  have hpos := h.entry_pos rpc.receiver
  rw [hm, RaftNode.handleMessage_requestVote (show (ballotMessage b).messageType = _ from rfl)]
    at hreply ⊢
  change ∃ s', Leads _ _ _ (((c.proc rpc.receiver).raft.adoptTerm b.term).handleRequestVote
    (ballotMessage b)).1.abs s' ∧ _
  change reply = .answered (((c.proc rpc.receiver).raft.adoptTerm b.term).handleRequestVote
    (ballotMessage b)).2 at hreply
  rw [← hlog] at hpos
  generalize (c.proc rpc.receiver).raft.adoptTerm b.term = n at *
  rcases n.handleRequestVote_cases (ballotMessage b) with ⟨hn, hv⟩ | ⟨hterm, hvote, hcmp, hn, _⟩
  · rw [hn]
    refine ⟨s₁, h₁, .ballot b hb₁ hs rfl fun m hr hg => ?_⟩
    rw [hreply] at hr
    cases hr
    unfold Message.granted at hg
    rw [hv] at hg
    cases hg
  · rw [hn]
    have ht : b.term = n.currentTerm := le_antisymm hle hterm
    have hmove : Move (R.protocol cfg) s₁ _ := .grant rpc.receiver b hb₁ (by rw [hmem]; exact ht)
      (by rw [hmem]; exact hvote ht) (by rw [hmem]; exact upToDate_of_compare hpos hcmp)
    have h₂ := h₁.trans (Leads.move hmove rfl)
    rw [hmem] at h₂
    exact ⟨_, h₂, .ballot b (hmove.extends.ballots hb₁) hs rfl fun m hr hg => Or.inl rfl⟩

theorem Sim.handle_offer (h : Sim cfg R c s) {rpc : Rpc} {a : Offer String LogEntry ℤ}
    (ha : a ∈ s.offers) (hs : a.leader = rpc.sender) (hm : rpc.request = offerMessage a)
    {reply : RpcReply} (raises : Raises)
    (hfence : R.fenced → a.term < (c.proc rpc.receiver).raft.currentTerm →
      (c.proc rpc.receiver).raft.prevLogCheck (rpc.request.data.prevLogIndex.getD 0)
        (rpc.request.data.prevLogTerm.getD 0) ≠ some true)
    (hreply : reply =
      match ((c.proc rpc.receiver).raft.handleMessage raises rpc.request).2 with
      | some response => .answered response
      | none => .failed) :
    ∃ s', Leads (R.protocol cfg) s rpc.receiver
        ((c.proc rpc.receiver).raft.handleMessage raises rpc.request).1.abs s' ∧
      RpcSim s' { rpc with reply } := by
  obtain ⟨s₁, h₁⟩ := adoptTerm_leads (P := R.protocol cfg) (h.member rpc.receiver) a.term
  have hmem := h₁.self
  have ha₁ := h₁.moves.extends.offers ha
  have hle := (c.proc rpc.receiver).raft.le_adoptTerm a.term
  have hc := ((c.proc rpc.receiver).raft.adoptTerm_quiet a.term).commit_ge
    (h.commit_ge rpc.receiver)
  have hcur : a.term < ((c.proc rpc.receiver).raft.adoptTerm a.term).currentTerm →
      a.term < (c.proc rpc.receiver).raft.currentTerm := by
    rcases (c.proc rpc.receiver).raft.adoptTerm_cases a.term with ⟨_, hn⟩ | ⟨_, hn⟩ <;> rw [hn]
    · exact id
    · exact fun hlt => absurd hlt (lt_irrefl _)
  have hcheck := RaftNode.prevLogCheck_congr ((c.proc rpc.receiver).raft.adoptTerm_log a.term)
    (rpc.request.data.prevLogIndex.getD 0) (rpc.request.data.prevLogTerm.getD 0)
  rw [← hcheck] at hfence
  rw [hm, RaftNode.handleMessage_appendEntries (show (offerMessage a).messageType = _ from rfl)]
    at hreply ⊢
  rw [hm] at hfence
  change ∃ s', Leads _ _ _ (((c.proc rpc.receiver).raft.adoptTerm a.term).handleAppendEntries
    raises (offerMessage a)).1.abs s' ∧ _
  change reply = match (((c.proc rpc.receiver).raft.adoptTerm a.term).handleAppendEntries
    raises (offerMessage a)).2 with | some response => _ | none => _ at hreply
  clear hcheck
  generalize (c.proc rpc.receiver).raft.adoptTerm a.term = n at *
  by_cases hok : n.prevLogCheck ((offerMessage a).data.prevLogIndex.getD 0)
      ((offerMessage a).data.prevLogTerm.getD 0) = some true
  · have hfit := (fits_iff_prevLogCheck (P := R.protocol cfg) rfl
      (h.matched.offer_prev a ha)).mp hok
    have hmove : Move (R.protocol cfg) s₁ _ := .accept rpc.receiver a ha₁
      (by rw [hmem]; exact hle)
      (fun hf => by
        rw [hmem]
        refine le_antisymm hle (not_lt.mp fun hlt => hfence hf (hcur hlt) hok))
      (by rw [hmem]; exact hfit)
    have h₂ := h₁.trans (Leads.move hmove rfl)
    rw [hmem, ← abs_followCommit rfl raises hc (offerMessage a).senderId a] at h₂
    rw [RaftNode.handleAppendEntries_stored rfl hok]
    exact ⟨_, h₂, .offer a (hmove.extends.offers ha₁) hs rfl fun m hr hk => Or.inl rfl⟩
  · obtain ⟨hn, hno⟩ := RaftNode.handleAppendEntries_refused raises hok
    have h₂ := h₁.trans (Leads.move (P := R.protocol cfg) (.stepDown rpc.receiver) rfl)
    rw [hmem, ← abs_acceptLeader n (offerMessage a).senderId] at h₂
    rw [hn]
    refine ⟨_, h₂, .offer a ha₁ hs rfl fun m hr hk => ?_⟩
    have := hno m (answered_of_match hreply hr)
    unfold Message.succeeded at hk
    rw [this] at hk
    cases hk

theorem Sim.handle_dud (h : Sim cfg R c s) {rpc : Rpc}
    (hm : rpc.request.messageType = .appendEntries) {k : ℕ}
    (hi : rpc.request.data.prevLogIndex = some (k : ℤ))
    (ht : rpc.request.data.prevLogTerm = some 0) {reply : RpcReply} (raises : Raises)
    (hreply : reply =
      match ((c.proc rpc.receiver).raft.handleMessage raises rpc.request).2 with
      | some response => .answered response
      | none => .failed) :
    ∃ s', Leads (R.protocol cfg) s rpc.receiver
        ((c.proc rpc.receiver).raft.handleMessage raises rpc.request).1.abs s' ∧
      RpcSim s' { rpc with reply } := by
  obtain ⟨s₁, h₁⟩ := adoptTerm_leads (P := R.protocol cfg) (h.member rpc.receiver)
    rpc.request.term
  have hmem := h₁.self
  have hpos := h.entry_pos rpc.receiver
  rw [← (c.proc rpc.receiver).raft.adoptTerm_log rpc.request.term] at hpos
  rw [RaftNode.handleMessage_appendEntries hm] at hreply ⊢
  generalize (c.proc rpc.receiver).raft.adoptTerm rpc.request.term = n at *
  -- an entry of term 0 is in no log
  have hok : n.prevLogCheck (rpc.request.data.prevLogIndex.getD 0)
      (rpc.request.data.prevLogTerm.getD 0) ≠ some true := by
    rw [hi, ht]
    have hcast : ((k : ℕ) : ℤ) = ((k + 1 : ℕ) : ℤ) - 1 := by omega
    show n.prevLogCheck (k : ℤ) 0 ≠ some true
    rw [hcast]
    intro hok
    rcases RaftNode.prevLogCheck_pred.mp hok with h0 | ⟨e, he, het⟩
    · omega
    · have := hpos e (List.mem_of_getElem? he)
      omega
  obtain ⟨hn, hno⟩ := RaftNode.handleAppendEntries_refused raises hok
  have h₂ := h₁.trans (Leads.move (P := R.protocol cfg) (.stepDown rpc.receiver) rfl)
  rw [hmem, ← abs_acceptLeader n rpc.request.senderId] at h₂
  rw [hn]
  refine ⟨_, h₂, .dud hm k hi ht fun m hr => ?_⟩
  have := hno m (answered_of_match hreply hr)
  unfold Message.succeeded
  rw [this]
  rfl

/-! ## Steps -/

section Steps

variable (h : Sim cfg R c s)

include h

/-- The steps of one node carry over once its protocol steps and the new RPCs are known. -/
theorem Sim.put (ht : Transition c ev c') {p : Proc κ}
    (hproc : c'.proc = Function.update c.proc i p) (hl : Leads (R.protocol cfg) s i p.raft.abs s')
    (hrpc : ∀ rpc ∈ c'.rpcs, rpc ∈ c.rpcs ∨ RpcSim s' rpc) :
    Moves (R.protocol cfg) s s' ∧ Sim cfg R c' s' where
  left := hl.moves
  right :=
    { run := h.run.trans hl.moves
      member := by
        rw [hl.member]
        refine forall_put (P := fun j p => (s.set i _).member j = p.raft.abs) hproc
          set_member_self fun j hj => ?_
        rw [set_member_ne hj, h.member j]
      commit_ge := fun j => (ht.evolves j).commit_ge (h.commit_ge j)
      wired := h.wired.step ht
      rpc := fun rpc hmem =>
        (hrpc rpc hmem).elim (fun hold => (h.rpc rpc hold).extends hl.moves.extends) id }

theorem Sim.startElection (hi : i ∈ cfg.nodes)
    (he : (c.proc i).raft.electionInProgress = false) (b : Bool) :
    ∃ s', Leads (R.protocol cfg) s i ((c.proc i).startElection b).raft.abs s' := by
  obtain ⟨s₁, h₁⟩ := startElection_leads (P := R.protocol cfg) (h.member i) (h.wired.nodeId i) he
  have hpeers := (RaftNode.startElection_quiet (c.proc i).raft).peers
  rw [Proc.startElection_raft, hpeers, h.wired.peers i]
  by_cases hp : cfg.peers i = []
  swap
  · rw [if_neg hp]
    exact ⟨s₁, h₁⟩
  rw [if_pos hp]
  rcases (c.proc i).raft.startElection.finishElection_cases 1 with hf | ⟨hs, _, hf⟩ <;> rw [hf]
  · exact ⟨s₁, h₁⟩
  · -- without peers, the node's own vote is a majority
    have hcarried : s₁.Carried (R.protocol cfg) i
        (c.proc i).raft.startElection.currentTerm := by
      refine ⟨_, majority_peers hi List.nodup_nil (by simp) (by simp [hp]), fun j hj => Or.inl ?_⟩
      simpa using hj
    obtain ⟨s₂, h₂⟩ := becomeLeader_leads h₁.self hs hcarried
    exact ⟨s₂, h₁.trans h₂⟩

theorem Sim.finishElection (hi : i ∈ cfg.nodes) {f : Election}
    (hf : f ∈ (c.proc i).elections)
    (hq : (c.proc i).raft.state = .candidate →
      (c.proc i).raft.quorumSize ≤ 1 + granted f.tasks →
      (c.proc i).raft.quorumSize ≤ 1 + c.grantedIn (c.proc i).raft.currentTerm f.tasks) :
    ∃ s', Leads (R.protocol cfg) s i
      ((c.proc i).raft.finishElection (1 + granted f.tasks)).abs s' := by
  rcases (c.proc i).raft.finishElection_cases (1 + granted f.tasks) with hn | ⟨hs, hv, hn⟩ <;>
    rw [hn]
  · exact ⟨s, .refl (h.member i)⟩
  · exact becomeLeader_leads (h.member i) hs (h.carried hi hf (hq hs hv))

theorem Sim.appendEntry (hi : i ∈ cfg.nodes) {command : String} {data : Dict} (raises : Raises)
    (hl : (c.proc i).raft.state = .leader)
    (ha : R.admits (c.proc i).raft.log ((c.proc i).raft.newEntry command data)) :
    ∃ s', Leads (R.protocol cfg) s i
      ((c.proc i).raft.appendEntry raises command data).1.abs s' := by
  have hpos := h.term_pos (i := i) (by simp [hl])
  have hm := h.member i
  have hpeers := h.wired.peers i
  have hcommit : R.backed → ((c.proc i).raft.commitIndex + 1).toNat ≤
      (c.proc i).raft.log.length := by
    intro hb
    have := (Moves.committed cfg.start_start h.run (R.strict hb).1 (R.strict hb).2 hb).member_le i
    rwa [hm] at this
  have hge := h.commit_ge i
  generalize (c.proc i).raft = n at *
  obtain ⟨s₁, h₁⟩ := append_leads (P := R.protocol cfg) hm hl (e := n.newEntry command data) rfl
    ⟨hpos, ha⟩
  unfold RaftNode.appendEntry
  dsimp only
  split
  · next hp =>
    rw [abs_applyCommittedEntries]
    obtain ⟨s₂, h₂⟩ := commit_leads (P := R.protocol cfg) h₁.self hl (k := n.log.length)
      (e := n.newEntry command data) (by simp) rfl
      (fun hb => by have := hcommit hb; show n.commitIndex < _; omega)
      (fun _ => ⟨_, majority_peers hi List.nodup_nil (by simp) (by simp [← hpeers, hp]),
        fun j hj => Or.inl (by simpa using hj)⟩)
    exact ⟨s₂, h₁.trans h₂⟩
  · exact ⟨s₁, h₁⟩

theorem Sim.appendReply (hi : i ∈ cfg.nodes) (peer : String) (last : ℤ) (response : Message)
    (raises : Raises)
    (hb : R.backed → response.succeeded = true →
      let n := (c.proc i).raft.recordMatch peer last
      n.state = .leader → n.mayCommit n.commitCandidate = true →
      n.quorumSize ≤ 1 + (c.backing i n.currentTerm n.commitCandidate).length) :
    ∃ s', Leads (R.protocol cfg) s i
      ((c.proc i).raft.appendReply raises peer last response).1.abs s' := by
  unfold RaftNode.appendReply
  split
  · next hsucc =>
    have hm : s.member i = ((c.proc i).raft.recordMatch peer last).abs := h.member i
    have hge := h.commit_ge i
    rcases ((c.proc i).raft.recordMatch peer last).updateCommitIndex_cases raises with
      hn | ⟨hl, hmay, hn⟩ <;> rw [hn]
    · exact ⟨s, .refl hm⟩
    · obtain ⟨hlt, -, e, hget, het⟩ := RaftNode.mayCommit_iff.mp hmay
      have hquorum := fun hR => hb hR hsucc hl hmay
      change (c.proc i).raft.commitIndex < _ at hlt
      rw [abs_applyCommittedEntries]
      obtain ⟨k, hk⟩ := Int.eq_ofNat_of_zero_le (a := RaftNode.commitCandidate _)
        (by omega : 0 ≤ ((c.proc i).raft.recordMatch peer last).commitCandidate)
      rw [hk] at hget hlt hquorum ⊢
      rw [getItem_natCast] at hget
      exact commit_leads hm hl hget het (fun _ => hlt) fun hR => h.backed hi (hquorum hR)
  · obtain ⟨s₁, h₁⟩ := adoptTerm_leads (P := R.protocol cfg) (h.member i) response.term
    refine ⟨s₁, ?_⟩
    have habs : ∀ n : RaftNode, (n.backOff peer).abs = n.abs := by
      intro n
      unfold RaftNode.backOff
      split <;> rfl
    rw [habs]
    exact h₁

end Steps

/-- Every step that obeys the rules is followed by the protocol. -/
theorem Sim.step (h : Sim cfg R c s) (hok : Obeys R c ev) (hs : cfg.step c ev = some c') :
    ∃ s', Moves (R.protocol cfg) s s' ∧ Sim cfg R c' s' := by
  obtain ⟨hactor, hs⟩ := cfg.step_some hs
  have ht := step_cases hs
  have hstay : ∀ i, Leads (R.protocol cfg) s i (c.proc i).raft.abs s := fun i => .refl (h.member i)
  have ht' := ht
  cases ht' with
  | electionTimeout i hst he | raftProcessor i hst he =>
    obtain ⟨s', h'⟩ := h.startElection (hactor i rfl) he _
    exact ⟨s', h.put ht rfl h' fun _ => Or.inl⟩
  | requestVote i j k t htask hr =>
    have hmove : Move (R.protocol cfg) s _ := .canvass i
    refine ⟨_, h.put ht rfl ((hstay i).trans (.move hmove ?_)) fun rpc hrpc => ?_⟩
    · exact ((hstay i).member)
    · refine (List.mem_append.mp hrpc).imp_right fun hrpc => ?_
      rw [List.mem_singleton.mp hrpc]
      refine .ballot _ (Set.mem_insert _ _) rfl ?_ fun m hm => by cases hm
      rw [h.member i]
      show (c.proc i).raft.requestVoteMessage = _
      rw [requestVoteMessage_eq, h.wired.nodeId i]
      rfl
  | voteResponse i j k t rpc response htask ha =>
    obtain ⟨s', h'⟩ := adoptTerm_leads (P := R.protocol cfg) (h.member i) response.term
    exact ⟨s', h.put ht rfl h' fun _ => Or.inl⟩
  | voteTimeout i j k t rpc htask hw => exact ⟨s, h.put ht rfl (hstay i) fun _ => Or.inl⟩
  | cancelElection i j f hf hc => exact ⟨s, h.put ht rfl (hstay i) fun _ => Or.inl⟩
  | finishElection i j f hf hc hd =>
    obtain ⟨s', h'⟩ := h.finishElection (hactor i rfl) (List.mem_of_getElem? hf)
      (hok.votes f hf)
    exact ⟨s', h.put ht rfl h' fun _ => Or.inl⟩
  | heartbeat i htm hl hd => exact ⟨s, h.put ht rfl (hstay i) fun _ => Or.inl⟩
  | commitEntry i command data caller raises hl hp
  | appendEntry i command data caller raises hl hp =>
    obtain ⟨s', h'⟩ := h.appendEntry (hactor i rfl) raises hl hok.admits
    exact ⟨s', h.put ht rfl h' fun _ => Or.inl⟩
  | sendAppend i owner k t htask hr =>
    have hraft : ((c.proc i).setTask owner k { t with rpc := some c.rpcs.length }).raft =
        (c.proc i).raft := Proc.setTask_raft ..
    by_cases hnext : (c.proc i).raft.nextIndex t.peer ≤ (c.proc i).raft.log.length
    · have hmove : Move (R.protocol cfg) s _ := .offer i ((c.proc i).raft.nextIndex t.peer)
        (fun hR => by
          rw [h.member i]
          show (c.proc i).raft.state.role = _
          rw [hok.entitled hR]
          rfl)
        (by rw [h.member i]; exact hnext)
      refine ⟨_, h.put ht rfl ((hstay i).trans (.move hmove ?_)) fun rpc hrpc => ?_⟩
      · rw [hraft]
        exact (hstay i).member
      · refine (List.mem_append.mp hrpc).imp_right fun hrpc => ?_
        rw [List.mem_singleton.mp hrpc]
        refine .offer _ (Set.mem_insert _ _) rfl ?_ fun m hm => by cases hm
        rw [h.member i]
        show (c.proc i).raft.appendEntriesMessage t.peer = _
        rw [appendEntriesMessage_eq hnext (h.commit_ge i), h.wired.nodeId i]
        rfl
    · refine ⟨s, h.put ht rfl (hraft ▸ hstay i) fun rpc hrpc => ?_⟩
      refine (List.mem_append.mp hrpc).imp_right fun hrpc => ?_
      rw [List.mem_singleton.mp hrpc]
      obtain ⟨hidx, hterm⟩ := appendEntriesMessage_past (not_le.mp hnext)
      exact .dud rfl _ hidx hterm fun m hm => by cases hm
  | appendResponse i owner k raises t rpc response htask ha =>
    obtain ⟨s', h'⟩ := h.appendReply (hactor i rfl) t.peer rpc.request.lastCovered
      response raises
      fun hR hsucc => hok.backed hR t htask (rpc, response) ha hsucc
    exact ⟨s', h.put ht rfl h' fun _ => Or.inl⟩
  | appendTimeout i owner k t rpc htask hw =>
    have hraft : ((c.proc i).setTask owner k { t with result := some false }).raft =
        (c.proc i).raft := Proc.setTask_raft ..
    exact ⟨s, h.put ht rfl (hraft ▸ hstay i) fun _ => Or.inl⟩
  | returnAppend i j call hcall hd => exact ⟨s, h.put ht rfl (hstay i) fun _ => Or.inl⟩
  | handleMessage r raises rpc hr hp reply hreply =>
    have hsim : ∃ s', Leads (R.protocol cfg) s rpc.receiver
        ((c.proc rpc.receiver).raft.handleMessage raises rpc.request).1.abs s' ∧
        RpcSim s' { rpc with reply } := by
      cases h.rpc rpc (List.mem_of_getElem? hr) with
      | ballot b hb hs' hm hv => exact h.handle_ballot hb hs' hm raises hreply
      | offer a ha hs' hm hk =>
        refine h.handle_offer ha hs' hm raises (fun hR hlt => ?_) hreply
        refine hok.fenced hR rpc hr (by rw [hm]; rfl) ?_
        rw [hm]
        exact hlt
      | dud hm k hi htm hr' => exact h.handle_dud hm hi htm raises hreply
    obtain ⟨s', h', hrpc⟩ := hsim
    refine ⟨s', h.put ht rfl h' fun rpc' hrpc' => ?_⟩
    rcases List.mem_or_eq_of_mem_set hrpc' with hold | rfl
    · exact Or.inl hold
    · exact Or.inr hrpc

/-- Every state reached by steps that obey the rules is a state of the protocol. -/
theorem Sim.reach (h : Sim cfg R c s) (hr : Runs.Reach cfg.step (Obeys R) c c') :
    ∃ s', Moves (R.protocol cfg) s s' ∧ Sim cfg R c' s' :=
  hr.simulate (Sim cfg R) (Moves (R.protocol cfg)) s (fun _ => .refl)
    (fun _ _ _ => .trans) (fun _ _ _ _ hR hok hs => hR.step hok hs) h

end DistributedSync
