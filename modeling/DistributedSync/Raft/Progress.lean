import DistributedSync.Raft.CommitRule
import DistributedSync.Raft.Electability

/-!
# A command can always be committed

From every state that safe steps lead to, there is a run at whose end a new command is committed and
delivered on all nodes (`progress`). A new leader appends it, in a term above all others; each round
of heartbeats takes `next_index` one step back or brings a follower's log up to the leader's
(`exchange_pair`), so after as many rounds as the log is long all logs are the same; one more round
commits the entry on the leader, and a last one on the others.
-/

namespace DistributedSync

open Cluster Runs

variable {κ : Type} {cfg : ClusterConfig} {c c' : Cluster κ} {i j p : String}

namespace RaftNode

variable {n f : RaftNode} {raises : Raises} {log : List LogEntry} {t : ℤ}

/-! ## The leader and its followers -/

/-- A leader of term `t` with the log `log`, whose last entry is of its term. -/
structure LeadsWith (log : List LogEntry) (t : ℤ) (n : RaftNode) : Prop where
  state : n.state = .leader
  heartbeatTimer : n.heartbeatTimer = true
  currentTerm : n.currentTerm = t
  log_eq : n.log = log
  last : ∃ e, log.getLast? = some e ∧ e.term = t
  applied : n.Applied
  caughtUp : n.commitIndex = log.length - 1 → n.lastApplied = log.length - 1
  nextIndex : ∀ p ∈ n.peers, n.nextIndex p ≤ log.length
  matchIndex : ∀ p ∈ n.peers, n.matchIndex p ≤ log.length - 1

/-- A node of that term whose log is the leader's, or one of earlier terms whose committed part the
leader has. -/
structure Trails (log : List LogEntry) (t : ℤ) (f : RaftNode) : Prop where
  currentTerm : f.currentTerm = t
  applied : f.Applied
  committed : f.log.take (f.commitIndex + 1).toNat <+: log
  caughtUp : f.commitIndex = log.length - 1 → f.lastApplied = log.length - 1
  log : f.log = log ∨ LogMatching f.log log ∧ ∀ e ∈ f.log, e.term < t

theorem LeadsWith.length_pos (h : LeadsWith log t n) : 0 < log.length := by
  obtain ⟨e, he, -⟩ := h.last
  exact List.length_pos_of_mem (List.mem_of_getLast? he)

/-- Where nothing raises, applying brings `last_applied` up to the commit index. -/
theorem apply_caughtUp (hr : ∀ k, raises k = false) (h : n.Applied) :
    (n.applyCommittedEntries raises).1.commitIndex = n.commitIndex ∧
      (n.applyCommittedEntries raises).1.lastApplied = n.commitIndex ∧
      (n.applyCommittedEntries raises).2 = true := by
  obtain ⟨d, hd⟩ := applyCommittedEntries_eq hr h.ge h.lt
  rw [hd]
  exact ⟨rfl, max_eq_right h.le, rfl⟩

theorem Applied.delivered_eq_log (h : n.Applied) (hn : n.lastApplied = n.log.length - 1) :
    n.delivered = n.log := by
  rw [h.delivered, hn, show ((n.log.length : ℤ) - 1 + 1).toNat = n.log.length by omega,
    List.take_length]

/-! ## What a request does to a follower -/

theorem Trails.overlay (hn : LeadsWith log t n) (hf : Trails log t f)
    (hnext : n.nextIndex p ≤ log.length)
    (h : f.prevLogCheck (n.prevLogIndex p) (n.prevLogTerm p) = some true) :
    TermLog.overlay LogEntry.term f.log (n.nextIndex p) (log.drop (n.nextIndex p)) = log := by
  have hlog := hn.log_eq
  have hmatch : LogMatching f.log n.log := by
    rw [hlog]
    rcases hf.log with heq | ⟨hm, -⟩
    · rw [heq]
      intro k e e' he he' _
      rfl
    · exact hm
  have htake := take_eq_of_prevLogCheck hmatch (hlog.symm ▸ hnext) h
  rw [hlog] at htake hmatch
  rcases TermLog.overlay_eq hnext htake hmatch with ⟨hext, heq⟩ | ⟨-, heq⟩ <;> rw [heq]
  rcases hf.log with hsame | ⟨-, hlt⟩
  · exact hsame
  · -- a log of earlier terms does not extend one that ends in this term
    obtain ⟨e, he, ht⟩ := hn.last
    have := hlt e (hext.subset (List.mem_of_getLast? he))
    omega

theorem LeadsWith.prevLogCheck (hn : LeadsWith log t n) (hnext : n.nextIndex p ≤ log.length)
    (hf : f.log = log) : f.prevLogCheck (n.prevLogIndex p) (n.prevLogTerm p) = some true := by
  refine prevLogCheck_pred.mpr ?_
  rcases Nat.eq_zero_or_pos (n.nextIndex p) with h0 | hpos
  · exact Or.inl h0
  · obtain ⟨q, hq⟩ := Nat.exists_eq_succ_of_ne_zero hpos.ne'
    rw [Nat.succ_eq_add_one] at hq
    have hlt : q < log.length := by omega
    have hget : n.log[q]? = some log[q] := by rw [hn.log_eq, List.getElem?_eq_getElem hlt]
    refine Or.inr ⟨log[q], ?_, (prevLogTerm_eq hq hget).symm⟩
    rw [hf, hq, Nat.add_sub_cancel, List.getElem?_eq_getElem hlt]

theorem Trails.follow (hr : ∀ k, raises k = false) (hn : LeadsWith log t n) (hf : Trails log t f)
    (hlog : f.log = log) :
    ∃ f', f.followCommit raises n.commitIndex = (f', true) ∧ Trails log t f' ∧ f'.log = log ∧
      n.commitIndex ≤ f'.commitIndex := by
  have hlt := hn.applied.lt
  rw [hn.log_eq] at hlt
  rcases followCommit_cases f raises n.commitIndex with ⟨hge, heq⟩ | ⟨hless, heq⟩
  · exact ⟨_, heq, hf, hlog, hge⟩
  · have hmin : min n.commitIndex f.lastLogIndex = n.commitIndex := by
      unfold lastLogIndex
      rw [hlog]
      omega
    obtain ⟨m, hm⟩ : ∃ m : RaftNode, m = { f with commitIndex := n.commitIndex } := ⟨_, rfl⟩
    rw [hmin, ← hm] at heq
    have hge := hf.applied.ge
    have hle := hf.applied.le
    have hmlog : m.log = log := by rw [hm, ← hlog]
    have hmcommit : m.commitIndex = n.commitIndex := by rw [hm]
    have hmapplied : m.lastApplied = f.lastApplied := by rw [hm]
    have happ : m.Applied := by
      refine ⟨by omega, by omega, by rwa [hmcommit, hmlog], ?_⟩
      rw [hm]
      exact hf.applied.delivered
    obtain ⟨hcommit, hlast, hok⟩ := apply_caughtUp hr happ
    obtain ⟨a, d, hframe⟩ := applyCommittedEntries_frame raises m
    have hlog' : (m.applyCommittedEntries raises).1.log = log := by rw [hframe, hmlog]
    refine ⟨(m.applyCommittedEntries raises).1, heq.trans (Prod.ext rfl hok),
      ⟨?_, applyCommittedEntries_applied happ,
      hlog' ▸ List.take_prefix _ _, fun hc => ?_, Or.inl hlog'⟩, hlog', ?_⟩
    · rw [hframe, hm]
      exact hf.currentTerm
    · rw [hlast, ← hcommit, hc]
    · rw [hcommit, hmcommit]

theorem Trails.store (hn : LeadsWith log t n) (hf : Trails log t f) :
    Trails log t { f with log } := by
  have hle := hf.committed.length_le
  have hpos := hn.length_pos
  obtain ⟨hge, hlec, hlt, hdel⟩ := hf.applied
  rw [List.length_take] at hle
  refine ⟨hf.currentTerm, ⟨hge, hlec, by show f.commitIndex < log.length; omega, ?_⟩,
    List.take_prefix _ _, hf.caughtUp, Or.inl rfl⟩
  show f.delivered = log.take (f.lastApplied + 1).toNat
  have htake := TermLog.prefix_take hf.committed (k := (f.lastApplied + 1).toNat)
    (by rw [List.length_take]; omega)
  rw [List.take_take, min_eq_left (by omega)] at htake
  rw [hdel, htake]

/-- A follower refuses the request and keeps its log, or takes over log and commit index of the
leader. -/
theorem Trails.handle (hr : ∀ k, raises k = false) (hn : LeadsWith log t n) (hf : Trails log t f)
    (hnext : n.nextIndex p ≤ log.length) :
    ∃ f' r, f.handleMessage raises (n.appendEntriesMessage p) = (f', some r) ∧ r.term = t ∧
      Trails log t f' ∧
      (r.data.success = some false ∧ 0 < n.nextIndex p ∧ f.log ≠ log ∧ f'.log = f.log ∨
        r.data.success = some true ∧ f'.log = log ∧ n.commitIndex ≤ f'.commitIndex) := by
  obtain ⟨g, hg⟩ : ∃ g, g = f.acceptLeader n.nodeId := ⟨_, rfl⟩
  have hsame := f.acceptLeader_sameLog n.nodeId
  rw [← hg] at hsame
  have hgterm : g.currentTerm = t := by
    rw [hg, acceptLeader_currentTerm, hf.currentTerm]
  have hgtrails : Trails log t g := by
    obtain ⟨hla, hcommit, hge, hdel⟩ := hsame
    obtain ⟨-, ⟨h1, h2, h3, h4⟩, h5, h6, h7⟩ := hf
    constructor
    · exact hgterm
    · exact ⟨hge ▸ h1, hge ▸ hcommit ▸ h2, hla ▸ hcommit ▸ h3, by rw [hdel, hla, hge, h4]⟩
    · rwa [hla, hcommit]
    · rwa [hcommit, hge]
    · rwa [hla]
  have hl : g.acceptLeader (n.appendEntriesMessage p).senderId = g :=
    acceptLeader_of_follower (hg ▸ acceptLeader_state _ _) (hg ▸ rfl)
  have hhandle : f.handleMessage raises (n.appendEntriesMessage p) =
      g.handleAppendEntries raises (n.appendEntriesMessage p) := by
    have hadopt : f.adoptTerm (n.appendEntriesMessage p).term = f :=
      adoptTerm_of_le (hn.currentTerm.trans hf.currentTerm.symm).le
    rw [handleMessage_appendEntries rfl, hg, hadopt]
    exact (handleAppendEntries_acceptLeader _ raises _).symm
  rw [hhandle]
  obtain ⟨b, hb⟩ := g.prevLogCheck_isSome (n.nextIndex p) (n.prevLogTerm p)
  cases b with
  | false =>
    refine ⟨_, _, handleAppendEntries_of_refused raises hl hb, hgterm, hgtrails,
      Or.inl ⟨rfl, ?_, fun heq => ?_, hsame.log⟩⟩
    · by_contra h0
      have hpass : g.prevLogCheck ((n.nextIndex p : ℤ) - 1) (n.prevLogTerm p) = some true :=
        prevLogCheck_pred.mpr (Or.inl (by omega))
      rw [hpass] at hb
      cases hb
    · have hpass : g.prevLogCheck ((n.nextIndex p : ℤ) - 1) (n.prevLogTerm p) = some true :=
        hn.prevLogCheck hnext (hsame.log.trans heq)
      rw [hpass] at hb
      cases hb
  | true =>
    have hover := hgtrails.overlay hn hnext hb
    obtain ⟨f', hf', htrails, hlog, hcommit⟩ := (hgtrails.store hn).follow hr hn rfl
    rw [← hn.log_eq] at hover
    refine ⟨f', _, handleAppendEntries_of_passed hl rfl hb (c := (f', true)) ?_,
      htrails.currentTerm, htrails, Or.inr ⟨rfl, hlog, hcommit⟩⟩
    show followCommit raises { g with log := TermLog.overlay _ g.log _ (n.log.drop _) } _ = _
    rw [hover, hn.log_eq]
    exact hf'

/-! ## What an answer does to the leader -/

theorem commitCandidate_mem (n : RaftNode) : n.commitCandidate ∈ n.memberIndices := by
  have hlt : (n.memberIndices.insertionSort (· ≤ ·)).length / 2 <
      (n.memberIndices.insertionSort (· ≤ ·)).length := by
    rw [List.length_insertionSort, length_memberIndices]
    omega
  have heq : n.commitCandidate = (n.memberIndices.insertionSort (· ≤ ·)).getD
      ((n.memberIndices.insertionSort (· ≤ ·)).length / 2) 0 := rfl
  rw [heq, List.getD_eq_getElem _ _ hlt]
  exact (List.mem_insertionSort _).mp (List.getElem_mem hlt)

theorem LeadsWith.getItem_last (h : LeadsWith log t n) :
    ∃ e, getItem n.log (log.length - 1) = some e ∧ e.term = n.currentTerm := by
  obtain ⟨e, he, ht⟩ := h.last
  refine ⟨e, ?_, ht.trans h.currentTerm.symm⟩
  rw [show ((log.length : ℤ) - 1) = ((log.length - 1 : ℕ) : ℤ) by have := h.length_pos; omega,
    getItem_natCast, h.log_eq, ← List.getLast?_eq_getElem?, he]

/-- Committing keeps the leader in step, and commits all of the log once all peers have it. -/
theorem LeadsWith.commit (hr : ∀ k, raises k = false) (h : LeadsWith log t n) :
    LeadsWith log t (n.updateCommitIndex raises).1 ∧
      n.commitIndex ≤ (n.updateCommitIndex raises).1.commitIndex ∧
      ((∀ q ∈ n.peers, n.matchIndex q = log.length - 1) →
        (n.updateCommitIndex raises).1.commitIndex = log.length - 1) := by
  have hlt := h.applied.lt
  rw [h.log_eq] at hlt
  refine ⟨?_, ?_, fun hall => ?_⟩
  · rcases n.updateCommitIndex_cases raises with heq | ⟨-, hmay, heq⟩ <;> rw [heq]
    · exact h
    · obtain ⟨hless, hlen, -⟩ := mayCommit_iff.mp hmay
      obtain ⟨m, hm⟩ : ∃ m : RaftNode, m = { n with commitIndex := n.commitCandidate } := ⟨_, rfl⟩
      rw [← hm]
      have hle := h.applied.le
      have happ : m.Applied := by
        rw [hm]
        exact ⟨h.applied.ge, by show n.lastApplied ≤ n.commitCandidate; omega, hlen,
          h.applied.delivered⟩
      obtain ⟨hcommit, hlast, -⟩ := apply_caughtUp hr happ
      have happ' : (m.applyCommittedEntries raises).1.Applied := applyCommittedEntries_applied happ
      obtain ⟨a, d, hframe⟩ := applyCommittedEntries_frame raises m
      rw [hframe] at hcommit hlast happ' ⊢
      rw [hm] at hcommit hlast happ' ⊢
      exact ⟨h.state, h.heartbeatTimer, h.currentTerm, h.log_eq, h.last, happ',
        fun hc => hlast.trans hc, h.nextIndex, h.matchIndex⟩
  · rw [updateCommitIndex_commitIndex h.state]
    split
    · next hmay => exact (mayCommit_iff.mp hmay).1.le
    · exact le_rfl
  · have hcand : n.commitCandidate = log.length - 1 := by
      rcases List.mem_append.mp n.commitCandidate_mem with hmem | hmem
      · obtain ⟨q, hq, heq⟩ := List.mem_map.mp hmem
        rw [← heq, hall q hq]
      · rw [List.mem_singleton.mp hmem]
        unfold lastLogIndex
        rw [h.log_eq]
    rw [updateCommitIndex_commitIndex h.state, hcand]
    split
    · rfl
    · next hmay =>
      rw [mayCommit_iff, h.log_eq] at hmay
      have hlast := h.getItem_last
      rw [h.log_eq] at hlast
      by_contra hne
      exact hmay ⟨by omega, by omega, hlast⟩

theorem LeadsWith.record (h : LeadsWith log t n) (hp : p ∈ n.peers) :
    LeadsWith log t (n.recordMatch p (log.length - 1)) ∧
      (n.recordMatch p (log.length - 1)).matchIndex p = log.length - 1 := by
  have hmax : max (n.matchIndex p) (log.length - 1) = (log.length : ℤ) - 1 :=
    max_eq_right (h.matchIndex p hp)
  have hself : (n.recordMatch p (log.length - 1)).matchIndex p = log.length - 1 := by
    show Function.update n.matchIndex p _ p = _
    rw [Function.update_self, hmax]
  refine ⟨⟨h.state, h.heartbeatTimer, h.currentTerm, h.log_eq, h.last, ⟨h.applied.ge, h.applied.le,
    h.applied.lt, h.applied.delivered⟩, h.caughtUp, fun q hq => ?_, fun q hq => ?_⟩, hself⟩
  · show Function.update n.nextIndex p _ q ≤ _
    by_cases hqp : q = p
    · rw [hqp, Function.update_self, hmax]
      omega
    · rw [Function.update_of_ne hqp]
      exact h.nextIndex q hq
  · by_cases hqp : q = p
    · rw [hqp, hself]
    · show Function.update n.matchIndex p _ q ≤ _
      rw [Function.update_of_ne hqp]
      exact h.matchIndex q hq

theorem LeadsWith.lastCovered (h : LeadsWith log t n) (hp : p ∈ n.peers) :
    (n.appendEntriesMessage p).lastCovered = log.length - 1 := by
  have := h.nextIndex p hp
  show (n.prevLogIndex p) + ((n.log.drop (n.nextIndex p)).length : ℤ) = _
  unfold prevLogIndex
  rw [List.length_drop, h.log_eq]
  omega

/-! ## Exchanges -/

/-- What an exchange with `p` does to leader and follower: a refusal, or the leader's log on the
follower. -/
structure Exchanged (log : List LogEntry) (p : String) (n f n' f' : RaftNode) : Prop where
  others : ∀ q, q ≠ p → n'.matchIndex q = n.matchIndex q ∧ n'.nextIndex q = n.nextIndex q
  commitIndex : n.commitIndex ≤ n'.commitIndex
  outcome : f.log ≠ log ∧ n'.nextIndex p + 1 = n.nextIndex p ∨
    f'.log = log ∧ n'.matchIndex p = log.length - 1 ∧ n.commitIndex ≤ f'.commitIndex ∧
      ((∀ q ∈ n.peers, q ≠ p → n.matchIndex q = log.length - 1) →
        n'.commitIndex = log.length - 1)

theorem exchange_pair (hr : ∀ k, raises k = false) (hn : LeadsWith log t n) (hf : Trails log t f)
    (hp : p ∈ n.peers) :
    ∃ f' r, f.handleMessage raises (n.appendEntriesMessage p) = (f', some r) ∧ Trails log t f' ∧
      LeadsWith log t
        (n.appendReply raises p (n.appendEntriesMessage p).lastCovered r).1 ∧
      Exchanged log p n f
        (n.appendReply raises p (n.appendEntriesMessage p).lastCovered r).1 f' := by
  obtain ⟨f', r, hhandle, hterm, htrails, hcase⟩ := hf.handle hr hn (hn.nextIndex p hp)
  refine ⟨f', r, hhandle, htrails, ?_⟩
  rw [hn.lastCovered hp]
  rcases hcase with ⟨hfalse, hpos, hne, -⟩ | ⟨htrue, hlog, hcommit⟩
  · rw [appendReply_refused hfalse (hterm.trans hn.currentTerm.symm).le, backOff_eq hpos]
    have hnext : ∀ q, Function.update n.nextIndex p (n.nextIndex p - 1) q ≤ n.nextIndex q := by
      intro q
      by_cases hqp : q = p
      · rw [hqp, Function.update_self]
        exact Nat.sub_le _ _
      · rw [Function.update_of_ne hqp]
    refine ⟨⟨hn.state, hn.heartbeatTimer, hn.currentTerm, hn.log_eq, hn.last, ⟨hn.applied.ge,
      hn.applied.le, hn.applied.lt, hn.applied.delivered⟩, hn.caughtUp,
      fun q hq => (hnext q).trans (hn.nextIndex q hq), hn.matchIndex⟩,
      fun q hqp => ⟨rfl, Function.update_of_ne hqp ..⟩, le_rfl, Or.inl ⟨hne, ?_⟩⟩
    show Function.update n.nextIndex p _ p + 1 = _
    rw [Function.update_self]
    omega
  · have heq : n.appendReply raises p (log.length - 1) r =
        (n.recordMatch p (log.length - 1)).updateCommitIndex raises := by
      unfold appendReply
      rw [htrue]
      rfl
    obtain ⟨hm, hself⟩ := hn.record hp
    obtain ⟨hlead, hle, hall⟩ := hm.commit hr
    rw [heq]
    obtain ⟨c, a, d, hframe⟩ := (n.recordMatch p (log.length - 1)).updateCommitIndex_frame raises
    refine ⟨hlead, fun q hqp => ?_, hle, Or.inr ⟨hlog, ?_, hcommit, fun hq => hall fun q hqm => ?_⟩⟩
    · rw [hframe]
      exact ⟨Function.update_of_ne hqp .., Function.update_of_ne hqp ..⟩
    · rw [hframe]
      exact hself
    · by_cases hqp : q = p
      · rw [hqp, hself]
      · exact (Function.update_of_ne hqp ..).trans (hq q hqm hqp)

end RaftNode

open RaftNode

/-! ## Rounds -/

/-- The callbacks do not raise in the steps from here on. -/
theorem never_raises : ∀ k, never k = false := fun _ => rfl

theorem Proc.setRaft_keeps {q : Proc κ} {n : RaftNode} (h : q.raft.heartbeatTimer = true)
    (h' : n.heartbeatTimer = true) : (q.setRaft n).heartbeats = q.heartbeats :=
  if_pos ⟨h, h'⟩

theorem runTask (hi : i ∈ cfg.nodes) {asked : List RpcTask} {rest : List String} (hpi : p ≠ i)
    (ht : (c.proc i).heartbeats = asked ++ gather (p :: rest)) {f n : RaftNode} {r : Message}
    (hhandle : (c.proc p).raft.handleMessage never ((c.proc i).raft.appendEntriesMessage p) =
      (f, some r))
    (hn : n = ((c.proc i).raft.appendReply never p
      ((c.proc i).raft.appendEntriesMessage p).lastCovered r).1)
    (htimer : (c.proc i).raft.heartbeatTimer = true) (htimer' : n.heartbeatTimer = true) :
    CanReach cfg.step Silent c fun c' => (c'.proc i).raft = n ∧
      (∃ task, (c'.proc i).heartbeats = (asked ++ [task]) ++ gather rest ∧ task.result ≠ none) ∧
      (c'.proc p).raft = f ∧ ∀ k, k ≠ i → k ≠ p → c'.proc k = c.proc k := by
  have hactor : ∀ k ∈ (some i : Option String), k ∈ cfg.nodes := by simpa using hi
  rw [gather_cons] at ht
  have htask : ((c.proc i).tasks .heartbeat)[asked.length]? = some { peer := p } := by
    show (c.proc i).heartbeats[asked.length]? = _
    rw [ht]
    exact getElem?_asked ..
  refine .of_step (.sendAppend i .heartbeat asked.length) (fun _ => rfl)
    ((Transition.sendAppend i .heartbeat _ _ htask rfl).possible hactor) ?_
  obtain ⟨u, hs, hui, hup, huk, hrpc⟩ := arrive cfg hpi ((c.proc i).setTask .heartbeat asked.length
    { peer := p, rpc := some c.rpcs.length }) hhandle
  refine .of_step (.handleMessage c.rpcs.length never) (fun _ => rfl) hs ?_
  have hbeats : (u.proc i).heartbeats =
      asked ++ { peer := p, rpc := some c.rpcs.length } :: gather rest := by
    rw [hui]
    show (c.proc i).heartbeats.set _ _ = _
    rw [ht, set_asked]
  have hraft : (u.proc i).raft = (c.proc i).raft := by
    rw [hui]
    rfl
  have htask' : ((u.proc i).tasks .heartbeat)[asked.length]? =
      some { peer := p, rpc := some c.rpcs.length } := by
    show (u.proc i).heartbeats[asked.length]? = _
    rw [hbeats]
    exact getElem?_asked ..
  have harr : u.arrived { peer := p, rpc := some c.rpcs.length } =
      some (⟨i, p, (c.proc i).raft.appendEntriesMessage p, .answered r⟩, r) := by
    unfold arrived waitingRpc rpcOf
    rw [if_pos rfl, Option.bind_some, hrpc]
    rfl
  refine .of_step (.appendResponse i .heartbeat asked.length never) (fun _ => rfl)
    ((Transition.appendResponse i .heartbeat _ never _ _ r htask' harr).possible hactor)
    (.here ⟨?_, ?_, ?_, fun k hki hkp => ?_⟩)
  · rw [put_proc_self, Proc.setRaft_raft, hraft, hn]
  · rw [put_proc_self]
    refine ⟨⟨p, some c.rpcs.length, some ((u.proc i).raft.appendReply never p
      ((c.proc i).raft.appendEntriesMessage p).lastCovered r).2⟩, ?_, Option.some_ne_none _⟩
    rw [Proc.setRaft_keeps (by rw [Proc.setTask_raft, hraft]; exact htimer)
      (by rw [hraft]; exact hn ▸ htimer')]
    show (u.proc i).heartbeats.set _ _ = _
    rw [hbeats, set_asked, List.append_assoc]
    rfl
  · rw [put_proc_of_ne hpi, hup]
  · rw [put_proc_of_ne hki, huk k hki hkp]

/-- What holds during the replication: one leader, and the others on the way to its log. -/
structure Replicating (cfg : ClusterConfig) (log : List LogEntry) (t : ℤ) (i : String)
    (c : Cluster κ) : Prop where
  peers : (c.proc i).raft.peers = cfg.peers i
  leader : LeadsWith log t (c.proc i).raft
  trails : ∀ p ∈ cfg.peers i, Trails log t (c.proc p).raft

section Round

variable {log : List LogEntry} {t : ℤ} (hi : i ∈ cfg.nodes)

include hi

/-- A round of heartbeats: what each exchange does holds for all peers in the end. -/
theorem round (hr : cfg.Reach Any c) {J : List String → Cluster κ → Prop}
    (hd : allDone (c.proc i).heartbeats) (hrep : Replicating cfg log t i c)
    (h0 : ∀ u : Cluster κ, (∀ k, (u.proc k).raft = (c.proc k).raft) → J [] u)
    (hJ : ∀ done p rest (u v : Cluster κ), done ++ p :: rest = cfg.peers i →
      Replicating cfg log t i u → J done u →
      Exchanged log p (u.proc i).raft (u.proc p).raft (v.proc i).raft (v.proc p).raft →
      (∀ k, k ≠ i → k ≠ p → v.proc k = u.proc k) → Replicating cfg log t i v →
      J (done ++ [p]) v) :
    CanReach cfg.step Silent c fun c' => allDone (c'.proc i).heartbeats ∧
      Replicating cfg log t i c' ∧ J (cfg.peers i) c' := by
  have hpeers : ∀ {u : Cluster κ}, cfg.Reach Any u → (u.proc i).raft.peers = cfg.peers i :=
    fun hu => (wired_of_reach hu).peers i
  have hactor : ∀ k ∈ (some i : Option String), k ∈ cfg.nodes := by simpa using hi
  have hstep : cfg.step c (.heartbeat i) = some _ :=
    (Transition.heartbeat i hrep.leader.heartbeatTimer hrep.leader.state hd).possible hactor
  refine .of_step (.heartbeat i) (fun _ => rfl) hstep ?_
  have hreach := hr.tail _ trivial hstep
  obtain ⟨u, hu⟩ : ∃ u, u = c.put i { c.proc i with heartbeats := gather (c.proc i).raft.peers } :=
    ⟨_, rfl⟩
  rw [← hu] at hreach ⊢
  have hsame : ∀ k, (u.proc k).raft = (c.proc k).raft := by
    intro k
    rw [hu]
    by_cases hk : k = i
    · rw [hk, put_proc_self]
    · rw [put_proc_of_ne hk]
  refine (CanReach.each (l := cfg.peers i) (I := fun done rest v =>
    (∃ asked, (v.proc i).heartbeats = asked ++ gather rest ∧ allDone asked) ∧
      Replicating cfg log t i v ∧ J done v) ?_ ?_).imp ?_
  · rintro done p rest v hl hv ⟨⟨asked, hbeats, hasked⟩, hrv, hJv⟩
    have hmem : p ∈ cfg.peers i := hl ▸ List.mem_append_right done List.mem_cons_self
    have hpi := ((cfg.mem_peers i hi p).mp hmem).2
    obtain ⟨f, r, hhandle, htrails, hlead, hex⟩ := exchange_pair never_raises hrv.leader
      (hrv.trails p hmem) (hrv.peers.symm ▸ hmem)
    refine (runTask hi hpi hbeats hhandle rfl hrv.leader.heartbeatTimer hlead.heartbeatTimer).imp ?_
    rintro w hw ⟨hwi, ⟨task, hbeats', hdone⟩, hwp, hother⟩
    rw [← hwi] at hlead hex
    rw [← hwp] at htrails hex
    have hrw : Replicating cfg log t i w := by
      refine ⟨hpeers (reach_any (reach_any hreach hv) hw), hlead, fun q hq => ?_⟩
      by_cases hqp : q = p
      · rwa [hqp]
      · rw [hother q ((cfg.mem_peers i hi q).mp hq).2 hqp]
        exact hrv.trails q hq
    exact ⟨⟨_, hbeats', List.forall_mem_append.mpr ⟨hasked, List.forall_mem_singleton.mpr hdone⟩⟩,
      hrw, hJ done p rest v w hl hrv hJv hex hother hrw⟩
  · refine ⟨⟨[], ?_, List.forall_mem_nil _⟩, ⟨hsame i ▸ hrep.peers, hsame i ▸ hrep.leader,
      fun p hp => ?_⟩, h0 u hsame⟩
    · rw [hu, put_proc_self, ← hpeers hr]
      rfl
    · rw [hsame]
      exact hrep.trails p hp
  · rintro v - ⟨⟨asked, hbeats, hasked⟩, hrv, hJv⟩
    rw [show gather [] = [] from rfl, List.append_nil] at hbeats
    exact ⟨hbeats ▸ hasked, hrv, hJv⟩

/-! ## Replication -/

/-- The leader knows that `p` has its log, or it is fewer than `k` steps from the start of its own
log with `p`. -/
def Within (log : List LogEntry) (i : String) (k : ℕ) (c : Cluster κ) (p : String) : Prop :=
  (c.proc p).raft.log = log ∧ (c.proc i).raft.matchIndex p = log.length - 1 ∨
    (c.proc i).raft.nextIndex p < k

omit hi in
theorem Within.other {k : ℕ} {u v : Cluster κ} {q : String} (h : Within log i k u q) (hqp : q ≠ p)
    (hex : Exchanged log p (u.proc i).raft (u.proc p).raft (v.proc i).raft (v.proc p).raft)
    (hq : v.proc q = u.proc q) : Within log i k v q := by
  obtain ⟨hmatch, hnext⟩ := hex.others q hqp
  unfold Within
  rwa [hq, hmatch, hnext]

omit hi in
/-- One exchange takes one step back, or is the last one needed. -/
theorem Within.exchange {k : ℕ} {u v : Cluster κ} (h : Within log i (k + 1) u p)
    (hex : Exchanged log p (u.proc i).raft (u.proc p).raft (v.proc i).raft (v.proc p).raft) :
    Within log i k v p := by
  rcases hex.outcome with ⟨hne, hnext⟩ | ⟨hlog, hmatch, -⟩
  · have := h.resolve_left fun h => hne h.1
    exact Or.inr (by omega)
  · exact Or.inl ⟨hlog, hmatch⟩

omit hi in
theorem Within.exchange_zero {u v : Cluster κ} (h : Within log i 0 u p)
    (hex : Exchanged log p (u.proc i).raft (u.proc p).raft (v.proc i).raft (v.proc p).raft) :
    Within log i 0 v p ∧ (u.proc i).raft.commitIndex ≤ (v.proc p).raft.commitIndex ∧
      ((∀ q ∈ (u.proc i).raft.peers, q ≠ p → (u.proc i).raft.matchIndex q = log.length - 1) →
        (v.proc i).raft.commitIndex = log.length - 1) := by
  obtain ⟨hlog, -⟩ := h.resolve_right (Nat.not_lt_zero _)
  rcases hex.outcome with ⟨hne, -⟩ | ⟨hlog', hmatch, hle, hcommit⟩
  · exact absurd hlog hne
  · exact ⟨Or.inl ⟨hlog', hmatch⟩, hle, hcommit⟩

theorem closer (hr : cfg.Reach Any c) {k : ℕ} (hd : allDone (c.proc i).heartbeats)
    (hrep : Replicating cfg log t i c) (h : ∀ p ∈ cfg.peers i, Within log i (k + 1) c p) :
    CanReach cfg.step Silent c fun c' => allDone (c'.proc i).heartbeats ∧
      Replicating cfg log t i c' ∧ ∀ p ∈ cfg.peers i, Within log i k c' p := by
  refine (round hi hr (J := fun done u => (∀ p ∈ done, Within log i k u p) ∧
    ∀ p ∈ cfg.peers i, p ∉ done → Within log i (k + 1) u p) hd hrep
    (fun u hu => ⟨List.forall_mem_nil _, fun p hp _ => ?_⟩) ?_).imp
    fun u _ ⟨hd, hrep, hJ, _⟩ => ⟨hd, hrep, hJ⟩
  · unfold Within
    rw [hu, hu]
    exact h p hp
  · rintro done p rest u v hl - ⟨hdone, hrest⟩ hex hother -
    have hmem : p ∈ cfg.peers i := hl ▸ List.mem_append_right done List.mem_cons_self
    have hnodup := List.nodup_append.mp (hl ▸ cfg.peers_nodup i hi)
    have hpd : p ∉ done := fun h => hnodup.2.2 p h p List.mem_cons_self rfl
    have hi' : ∀ q ∈ cfg.peers i, q ≠ i := fun q hq => ((cfg.mem_peers i hi q).mp hq).2
    refine ⟨fun q hq => ?_, fun q hq hqd => ?_⟩
    · rcases List.mem_append.mp hq with hq | hq
      · have hqp : q ≠ p := fun h => hpd (h ▸ hq)
        exact (hdone q hq).other hqp hex
          (hother q (hi' q (hl ▸ List.mem_append_left _ hq)) hqp)
      · rw [List.mem_singleton.mp hq]
        exact (hrest p hmem hpd).exchange hex
    · rw [List.mem_append, List.mem_singleton, not_or] at hqd
      exact (hrest q hq hqd.1).other hqd.2 hex (hother q (hi' q hq) hqd.2)

/-- After as many rounds as needed, all nodes have the leader's log. -/
theorem replicate (hr : cfg.Reach Any c) (hd : allDone (c.proc i).heartbeats)
    (hrep : Replicating cfg log t i c) {k : ℕ} (h : ∀ p ∈ cfg.peers i, Within log i k c p) :
    CanReach cfg.step Silent c fun c' => allDone (c'.proc i).heartbeats ∧
      Replicating cfg log t i c' ∧ ∀ p ∈ cfg.peers i, Within log i 0 c' p := by
  induction k generalizing c with
  | zero => exact .here ⟨hd, hrep, h⟩
  | succ k ih =>
    exact (closer hi hr hd hrep h).bind fun u hu ⟨hd, hrep, h⟩ => ih (reach_any hr hu) hd hrep h

theorem commitLeader (hr : cfg.Reach Any c) (hp : cfg.peers i ≠ [])
    (hd : allDone (c.proc i).heartbeats) (hrep : Replicating cfg log t i c)
    (h : ∀ p ∈ cfg.peers i, Within log i 0 c p) :
    CanReach cfg.step Silent c fun c' => allDone (c'.proc i).heartbeats ∧
      Replicating cfg log t i c' ∧ (∀ p ∈ cfg.peers i, Within log i 0 c' p) ∧
        (c'.proc i).raft.commitIndex = log.length - 1 := by
  refine (round hi hr (J := fun done u => (∀ p ∈ cfg.peers i, Within log i 0 u p) ∧
    (done ≠ [] → (u.proc i).raft.commitIndex = log.length - 1)) hd hrep
    (fun u hu => ⟨fun p hp => ?_, fun h => absurd rfl h⟩) ?_).imp
    fun u _ ⟨hd, hrep, hJ⟩ => ⟨hd, hrep, hJ.1, hJ.2 hp⟩
  · unfold Within
    rw [hu, hu]
    exact h p hp
  · rintro done p rest u v hl hru ⟨hw, -⟩ hex hother -
    have hmem : p ∈ cfg.peers i := hl ▸ List.mem_append_right done List.mem_cons_self
    obtain ⟨hwp, -, hcommit⟩ := (hw p hmem).exchange_zero hex
    refine ⟨fun q hq => ?_, fun _ => hcommit fun q hq _ => ?_⟩
    · by_cases hqp : q = p
      · rwa [hqp]
      · exact (hw q hq).other hqp hex (hother q ((cfg.mem_peers i hi q).mp hq).2 hqp)
    · exact ((hw q (hru.peers ▸ hq)).resolve_right (Nat.not_lt_zero _)).2

theorem commitAll (hr : cfg.Reach Any c) (hd : allDone (c.proc i).heartbeats)
    (hrep : Replicating cfg log t i c) (h : ∀ p ∈ cfg.peers i, Within log i 0 c p)
    (hc : (c.proc i).raft.commitIndex = log.length - 1) :
    CanReach cfg.step Silent c fun c' => Replicating cfg log t i c' ∧
      (∀ p ∈ cfg.peers i, Within log i 0 c' p) ∧
        (c'.proc i).raft.commitIndex = log.length - 1 ∧
        ∀ p ∈ cfg.peers i, (log.length : ℤ) - 1 ≤ (c'.proc p).raft.commitIndex := by
  refine (round hi hr (J := fun done u => (∀ p ∈ cfg.peers i, Within log i 0 u p) ∧
    (u.proc i).raft.commitIndex = log.length - 1 ∧
    ∀ p ∈ done, (log.length : ℤ) - 1 ≤ (u.proc p).raft.commitIndex) hd hrep
    (fun u hu => ⟨fun p hp => ?_, by rw [hu, hc], List.forall_mem_nil _⟩) ?_).imp
    fun u _ ⟨_, hrep, hJ⟩ => ⟨hrep, hJ⟩
  · unfold Within
    rw [hu, hu]
    exact h p hp
  · rintro done p rest u v hl - ⟨hw, hcu, hdone⟩ hex hother hrv
    have hmem : p ∈ cfg.peers i := hl ▸ List.mem_append_right done List.mem_cons_self
    have hi' : ∀ q ∈ cfg.peers i, q ≠ i := fun q hq => ((cfg.mem_peers i hi q).mp hq).2
    obtain ⟨hwp, hle, -⟩ := (hw p hmem).exchange_zero hex
    refine ⟨fun q hq => ?_, ?_, fun q hq => ?_⟩
    · by_cases hqp : q = p
      · rwa [hqp]
      · exact (hw q hq).other hqp hex (hother q (hi' q hq) hqp)
    · have hle' := hex.commitIndex
      have hlt := hrv.leader.applied.lt
      rw [hrv.leader.log_eq] at hlt
      omega
    · by_cases hqp : q = p
      · rw [hqp]
        omega
      · have hqd : q ∈ done :=
          (List.mem_append.mp hq).resolve_right fun h => hqp (List.mem_singleton.mp h)
        rw [hother q (hi' q (hl ▸ List.mem_append_left _ hqd)) hqp]
        exact hdone q hqd

end Round

/-! ## Progress -/

structure Everywhere (cfg : ClusterConfig) (log : List LogEntry) (c : Cluster κ) : Prop where
  log_eq : ∀ j ∈ cfg.nodes, (c.proc j).raft.log = log
  commitIndex : ∀ j ∈ cfg.nodes, (c.proc j).raft.commitIndex = log.length - 1
  delivered : ∀ j ∈ cfg.nodes, (c.proc j).raft.delivered = log

theorem Replicating.everywhere {log : List LogEntry} {t : ℤ} (hi : i ∈ cfg.nodes)
    (hrep : Replicating cfg log t i c) (h : ∀ p ∈ cfg.peers i, Within log i 0 c p)
    (hc : (c.proc i).raft.commitIndex = log.length - 1)
    (hall : ∀ p ∈ cfg.peers i, (log.length : ℤ) - 1 ≤ (c.proc p).raft.commitIndex) :
    Everywhere cfg log c := by
  have hnode : ∀ j ∈ cfg.nodes, (c.proc j).raft.log = log ∧
      (c.proc j).raft.commitIndex = log.length - 1 ∧ (c.proc j).raft.delivered = log := by
    intro j hj
    by_cases hji : j = i
    · have hlog := hrep.leader.log_eq
      have hdel := hrep.leader.applied.delivered_eq_log (by
        rw [hrep.leader.caughtUp hc, hlog])
      rw [hji]
      exact ⟨hlog, hc, hdel.trans hlog⟩
    · have hp := (cfg.mem_peers i hi j).mpr ⟨hj, hji⟩
      obtain ⟨hlog, -⟩ := (h j hp).resolve_right (Nat.not_lt_zero _)
      have htrails := hrep.trails j hp
      have hlt := htrails.applied.lt
      have hle := hall j hp
      rw [hlog] at hlt
      have hcj : (c.proc j).raft.commitIndex = log.length - 1 := by omega
      have hdel := htrails.applied.delivered_eq_log (by rw [htrails.caughtUp hcj, hlog])
      exact ⟨hlog, hcj, hdel.trans hlog⟩
  exact ⟨fun j hj => (hnode j hj).1, fun j hj => (hnode j hj).2.1, fun j hj => (hnode j hj).2.2⟩

theorem RaftNode.LeadsWith.of_append {n : RaftNode} (hs : n.state = .leader)
    (hb : n.heartbeatTimer = true) (happ : n.Applied)
    (hnext : ∀ p ∈ n.peers, n.nextIndex p = n.log.length)
    (hmatch : ∀ p ∈ n.peers, n.matchIndex p = 0) (command : String) (data : Dict) :
    LeadsWith (n.log ++ [n.newEntry command data]) n.currentTerm
      { n with log := n.log ++ [n.newEntry command data] } := by
  obtain ⟨hge, hle, hlt, hdel⟩ := happ
  have hlen : (n.log ++ [n.newEntry command data]).length = n.log.length + 1 := List.length_append
  refine ⟨hs, hb, rfl, rfl, ⟨_, List.getLast?_concat, rfl⟩, ⟨hge, hle, ?_, ?_⟩, fun hc => ?_,
    fun p hp => ?_, fun p hp => ?_⟩
  · show n.commitIndex < (n.log ++ [n.newEntry command data]).length
    omega
  · show n.delivered = (n.log ++ [n.newEntry command data]).take (n.lastApplied + 1).toNat
    rw [List.take_append_of_le_length (by omega)]
    exact hdel
  · replace hc : n.commitIndex = _ := hc
    omega
  · rw [hlen]
    exact (hnext p hp).le.trans (Nat.le_succ _)
  · show n.matchIndex p ≤ _
    rw [hmatch p hp, hlen]
    omega

/-- A follower whose log has entries of earlier terms only, before it gets the new one. -/
theorem RaftNode.Trails.of_append {f : RaftNode} {log : List LogEntry} {t : ℤ} {e : LogEntry}
    (hf : f.currentTerm = t) (happ : f.Applied)
    (hcommit : f.log.take (f.commitIndex + 1).toNat <+: log) (hmatch : LogMatching f.log log)
    (hearlier : ∀ e ∈ f.log, e.term < t) (he : e.term = t) : Trails (log ++ [e]) t f := by
  have hle := hcommit.length_le
  have hlt := happ.lt
  have hge := happ.ge
  have hge' := happ.le
  rw [List.length_take] at hle
  refine ⟨hf, happ, hcommit.trans (List.prefix_append ..), fun hc => ?_,
    Or.inr ⟨fun k d d' hd hd' hterm => ?_, hearlier⟩⟩
  · rw [List.length_append, List.length_singleton] at hc
    omega
  · rcases Nat.lt_or_ge k log.length with hk | hk
    · rw [List.getElem?_append_left hk] at hd'
      rw [List.take_append_of_le_length (by omega)]
      exact hmatch k d d' hd hd' hterm
    · -- the new entry is of a term that the follower does not have
      rw [List.getElem?_append_right hk] at hd'
      have hlt := hearlier d (List.mem_of_getElem? hd)
      rw [hterm, List.mem_singleton.mp (List.mem_of_getElem? hd'), he] at hlt
      exact absurd hlt (lt_irrefl t)

/-- A new leader appends a command, and the replication can begin. -/
theorem NewLeader.append (h : NewLeader cfg c i) (hr : cfg.Reach SafeStep c) (hi : i ∈ cfg.nodes)
    (hp : cfg.peers i ≠ []) (command : String) (data : Dict) (caller : κ) :
    CanReach cfg.step Silent c fun c' => allDone (c'.proc i).heartbeats ∧
      Replicating cfg ((c.proc i).raft.log ++ [(c.proc i).raft.newEntry command data])
        (c.proc i).raft.currentTerm i c' ∧
      ∀ p ∈ cfg.peers i, (c'.proc i).raft.nextIndex p = (c.proc i).raft.log.length := by
  obtain ⟨s, hsim, happ⟩ := Sim.of_safe (admitted_any hr)
  have hpeers := (wired_of_reach hr).peers i
  have hactor : ∀ k ∈ (some i : Option String), k ∈ cfg.nodes := by simpa using hi
  have hne : (c.proc i).raft.peers ≠ [] := by rwa [hpeers]
  refine .of_step (.appendEntry i command data caller never) (fun _ => rfl)
    ((Transition.appendEntry i command data caller never h.leader hne).possible hactor) (.here ?_)
  rw [appendEntry_waits hne]
  refine ⟨?_, ⟨?_, ?_, fun p hmem => ?_⟩, ?_⟩
  · rw [put_proc_self]
    show allDone (if _ then (c.proc i).heartbeats else [])
    rw [h.heartbeats, ite_self]
    exact List.forall_mem_nil _
  · rw [put_proc_self]
    exact hpeers
  · rw [put_proc_self]
    exact .of_append h.leader ((beats_of_reach hr i).mpr h.leader) (happ i)
      (by rw [hpeers]; exact h.nextIndex) (by rw [hpeers]; exact h.matchIndex) command data
  · obtain ⟨hpn, hpi⟩ := (cfg.mem_peers i hi p).mp hmem
    have hterm := (h.followers p hpn hpi).2
    rw [put_proc_of_ne hpi]
    refine .of_append hterm (happ p) (hsim.leader_has .refl hsim h.leader hterm.le) ?_
      (h.earlier p hpn) rfl
    intro k e e' he he' ht
    have htake : (s.member p).log.take (k + 1) = (s.member i).log.take (k + 1) :=
      hsim.matched.log_matching (by rw [hsim.member]; exact he) (by rw [hsim.member]; exact he') ht
    rwa [hsim.member, hsim.member] at htake
  · rw [put_proc_self]
    exact h.nextIndex

theorem appendLone (hr : cfg.Reach SafeStep c) (hi : i ∈ cfg.nodes) (hp : cfg.peers i = [])
    (hl : (c.proc i).raft.state = .leader) (command : String) (data : Dict) (caller : κ) :
    CanReach cfg.step Silent c
      (Everywhere cfg ((c.proc i).raft.log ++ [(c.proc i).raft.newEntry command data])) := by
  obtain ⟨-, -, happ⟩ := Sim.of_safe (admitted_any hr)
  have hpeers := (wired_of_reach hr).peers i
  have hactor : ∀ k ∈ (some i : Option String), k ∈ cfg.nodes := by simpa using hi
  have hlone : ∀ j ∈ cfg.nodes, j = i := by
    intro j hj
    by_contra hji
    have := (cfg.mem_peers i hi j).mpr ⟨hj, hji⟩
    rw [hp] at this
    cases this
  refine .of_step (.appendEntry i command data caller never) (fun _ => rfl)
    ((Transition.commitEntry i command data caller never hl (hpeers.trans hp)).possible hactor)
    (.here ?_)
  obtain ⟨n, hn⟩ : ∃ n, n = (c.proc i).raft := ⟨_, rfl⟩
  obtain ⟨hge, hle, hlt, hdel⟩ := happ i
  rw [← hn] at hge hle hlt hdel hpeers ⊢
  -- the entry is committed, and nothing stops it from being applied
  obtain ⟨m, hm⟩ : ∃ m : RaftNode, m = { n with
    log := n.log ++ [n.newEntry command data], commitIndex := n.log.length } := ⟨_, rfl⟩
  have hmlen : (m.log.length : ℤ) = n.log.length + 1 := by
    rw [hm]
    exact_mod_cast List.length_append
  have hmcommit : m.commitIndex = n.log.length := by rw [hm]
  have hmapp : m.Applied := by
    refine ⟨hm ▸ hge, ?_, by omega, ?_⟩
    · rw [hm]
      show n.lastApplied ≤ n.log.length
      omega
    · rw [hm]
      show n.delivered = (n.log ++ [n.newEntry command data]).take (n.lastApplied + 1).toNat
      rw [List.take_append_of_le_length (by omega)]
      exact hdel
  obtain ⟨hcommit, hlast, -⟩ := apply_caughtUp never_raises hmapp
  have happ' : (m.applyCommittedEntries never).1.Applied := applyCommittedEntries_applied hmapp
  obtain ⟨a, d, hframe⟩ := applyCommittedEntries_frame never m
  have hlog : (m.applyCommittedEntries never).1.log = n.log ++ [n.newEntry command data] := by
    rw [hframe, hm]
  have heq : (n.appendEntry never command data).1 = (m.applyCommittedEntries never).1 := by
    unfold appendEntry
    dsimp only
    rw [if_pos (hpeers.trans hp), hm]
    rfl
  have hlen : ((n.log ++ [n.newEntry command data]).length : ℤ) - 1 = n.log.length := by
    rw [List.length_append, List.length_singleton]
    push_cast
    omega
  have hdel' := happ'.delivered_eq_log (by rw [hlast, hmcommit, hlog, hlen])
  refine ⟨fun j hj => ?_, fun j hj => ?_, fun j hj => ?_⟩ <;>
    rw [hlone j hj, put_proc_self, Proc.setRaft_raft, heq]
  · exact hlog
  · rw [hcommit, hmcommit, hlen]
  · exact hdel'.trans hlog

/-- From every state that safe steps lead to there is a run, with callbacks that do not raise, at
whose end a given command is the last entry of one log that all nodes have, committed and delivered
to the last entry. -/
theorem progress (hr : cfg.Reach SafeStep c) (hne : cfg.nodes ≠ []) (command : String)
    (data : Dict) (caller : κ) :
    CanReach cfg.step Silent c fun c' => ∃ log e, log.getLast? = some e ∧ e.command = command ∧
      e.data = data ∧ Everywhere cfg log c' := by
  obtain ⟨i, hi⟩ := List.exists_mem_of_ne_nil _ hne
  have hany : ∀ {u : Cluster κ}, cfg.Reach SafeStep u → cfg.Reach Any u :=
    fun hu => hu.mono fun _ _ _ => trivial
  have hsafe : ∀ {u : Cluster κ}, Runs.Reach cfg.step CleanStep c u → cfg.Reach SafeStep u :=
    fun hu => hr.trans (hu.mono fun _ _ h => h.1)
  by_cases hp : cfg.peers i = []
  · obtain ⟨t, ht, hcmd⟩ := electLone (hany hr) hi hp
    obtain ⟨u, hu, hall⟩ := appendLone (hsafe ht) hi hp hcmd.leader command data caller
    exact ⟨u, (ht.mono fun _ _ h => h.2).trans hu, _, _, List.getLast?_concat, rfl, rfl, hall⟩
  · obtain ⟨j, hj⟩ := List.exists_mem_of_ne_nil _ hp
    obtain ⟨hj, hji⟩ := (cfg.mem_peers i hi j).mp hj
    obtain ⟨t, ht, w, hw, hnew⟩ := exists_newLeader (hany hr) hi hj hji.symm
    have hpw : cfg.peers w ≠ [] := by
      by_cases hwi : w = i
      · rwa [hwi]
      · exact List.ne_nil_of_mem ((cfg.mem_peers w hw i).mpr ⟨hi, fun h => hwi h.symm⟩)
    have hrt := hsafe ht
    obtain ⟨u, hu, hgoal⟩ : CanReach cfg.step Silent t fun c' => Everywhere cfg
        ((t.proc w).raft.log ++ [(t.proc w).raft.newEntry command data]) c' := by
      refine (hnew.append hrt hw hpw command data caller).bind fun u hu ⟨hd, hrep, hnext⟩ => ?_
      have hru := reach_any (hany hrt) hu
      refine (replicate hw hru hd hrep (k := (t.proc w).raft.log.length + 1)
        fun p hmem => Or.inr (by rw [hnext p hmem]; exact Nat.lt_succ_self _)).bind
        fun v hv ⟨hd, hrep, hw0⟩ => ?_
      have hrv := reach_any hru hv
      refine (commitLeader hw hrv hpw hd hrep hw0).bind fun x hx ⟨hd, hrep, hw0, hc⟩ => ?_
      exact (commitAll hw (reach_any hrv hx) hd hrep hw0 hc).imp
        fun y _ ⟨hrep, hw0, hc, hall⟩ => hrep.everywhere hw hw0 hc hall
    exact ⟨u, (ht.mono fun _ _ h => h.2).trans hu, _, _, List.getLast?_concat, rfl, rfl, hgoal⟩

/-- The old leader `a` has an entry that nobody else has, when `b` leads term 4. -/
theorem progress_deposed : ∃ c : Cluster Unit, threeNodes.Reach SafeStep c ∧
    ((c.proc "a").raft.log.map LogEntry.command = ["x"] ∧ (c.proc "a").raft.state = .leader ∧
      (c.proc "b").raft.log = [] ∧ (c.proc "b").raft.state = .leader) ∧
    CanReach threeNodes.step Silent c fun c' => ∃ log e, log.getLast? = some e ∧
      e.command = "z" ∧ e.data = [] ∧ Everywhere threeNodes log c' := by
  obtain ⟨c, hr, hc⟩ := Runs.exists_of_checked threeNodes.step SafeStep threeNodes.init
    (electA ++ [submit "a" "x"] ++ stand "b" ++ ask "b" 0 1 2 ++ askInVain "b" 0 0 ++
      [.finishElection "b" 0])
    (fun c => (c.proc "a").raft.log.map LogEntry.command = ["x"] ∧
      (c.proc "a").raft.state = .leader ∧ (c.proc "b").raft.log = [] ∧
      (c.proc "b").raft.state = .leader) (by decide +kernel)
  exact ⟨c, hr, hc, progress hr (by decide) "z" [] ()⟩

end DistributedSync
