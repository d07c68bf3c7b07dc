import DistributedSync.Raft.Retransmission
import DistributedSync.Raft.Transport
import Mathlib.Data.Rat.Encodable

/-!
# Log repair

The exchanges by which a leader brings a follower's log up to its own: a refusal takes `next_index`
one step back, a success leaves the follower with the leader's log below its length
(`exchange_cases`). At `next_index` 0 nothing can be refused, so `next_index + 1` exchanges are
enough (`log_repair_converges`).
-/

namespace DistributedSync

open RaftNode

variable {T : Type}

/-- One exchange with `peer`: the request of `_send_append_entries`, the handler of the other node,
and the reply. An exception on the way is caught by the sender. `times` are those of the two
messages; the result says what `_send_append_entries` returns. -/
def exchange (wire : Wire T) (raises raises' : Raises) (peer : String) (times : T × T)
    (leader follower : RaftNode) : (RaftNode × RaftNode) × Bool :=
  let last := leader.prevLogIndex peer + (leader.log.drop (leader.nextIndex peer)).length
  match deliver wire (leader.appendEntriesMessage peer) times.1 with
  | none => ((leader, follower), false)
  | some request =>
    let handled := follower.handleMessage raises' request
    match handled.2.bind fun response => deliver wire response times.2 with
    | none => ((leader, handled.1), false)
    | some response =>
      let done := leader.appendReply raises peer last response
      ((done.1, handled.1), done.2)

/-- At most `k` exchanges, up to the first success; `none` when there is none. -/
def repair (wire : Wire T) (raises raises' : Raises) (peer : String) :
    ℕ → (ℕ → T × T) → RaftNode → RaftNode → Option (RaftNode × RaftNode)
  | 0, _, _, _ => none
  | k + 1, times, leader, follower =>
    let done := exchange wire raises raises' peer (times 0) leader follower
    if done.2 then some done.1
    else repair wire raises raises' peer k (fun i => times (i + 1)) done.1.1 done.1.2

/-- Two logs with entries of one term at one index agree up to there. -/
def LogMatching (l l' : List LogEntry) : Prop :=
  ∀ (k : ℕ) (e e' : LogEntry), l[k]? = some e → l'[k]? = some e' → e.term = e'.term →
    l.take (k + 1) = l'.take (k + 1)

namespace RaftNode

variable {n leader follower : RaftNode} {raises raises' : Raises} {peer : String}

/-! ## The handler's side -/

theorem adoptTerm_currentTerm {t : ℤ} (h : n.currentTerm ≤ t) :
    (n.adoptTerm t).currentTerm = t := by
  rcases n.adoptTerm_cases t with ⟨hle, heq⟩ | ⟨_, heq⟩ <;> rw [heq]
  · omega
  · rfl

theorem prevLogTerm_eq {p : ℕ} {e : LogEntry} (hp : n.nextIndex peer = p + 1)
    (he : n.log[p]? = some e) : n.prevLogTerm peer = e.term := by
  have hlt := (List.getElem?_eq_some_iff.mp he).1
  have hprev : n.prevLogIndex peer = p := by
    unfold prevLogIndex
    omega
  unfold prevLogTerm
  rw [hprev, if_pos (by omega), getItem_natCast, he]
  rfl

/-- What the check compares means that the logs agree below `next_index`. -/
theorem take_eq_of_prevLogCheck (hmatch : LogMatching n.log leader.log)
    (hnext : leader.nextIndex peer ≤ leader.log.length)
    (h : n.prevLogCheck (leader.prevLogIndex peer) (leader.prevLogTerm peer) = some true) :
    n.log.take (leader.nextIndex peer) = leader.log.take (leader.nextIndex peer) := by
  rcases prevLogCheck_pred.mp h with h0 | ⟨e, he, ht⟩
  · rw [h0, List.take_zero, List.take_zero]
  · rcases Nat.eq_zero_or_pos (leader.nextIndex peer) with h0 | hpos
    · rw [h0, List.take_zero, List.take_zero]
    · obtain ⟨p, hp⟩ := Nat.exists_eq_succ_of_ne_zero hpos.ne'
      rw [Nat.succ_eq_add_one] at hp
      rw [hp, Nat.add_sub_cancel] at he
      have he' := List.getElem?_eq_getElem (show p < leader.log.length by omega)
      rw [prevLogTerm_eq hp he'] at ht
      rw [hp]
      exact hmatch p e _ he he' ht

theorem take_overlay_drop (hmatch : LogMatching n.log leader.log) {p : ℕ}
    (hp : p ≤ leader.log.length) (htake : n.log.take p = leader.log.take p) :
    (TermLog.overlay LogEntry.term n.log p (leader.log.drop p)).take leader.log.length =
      leader.log := by
  rcases TermLog.overlay_eq hp htake hmatch with ⟨hext, h⟩ | ⟨_, h⟩ <;> rw [h]
  · exact (List.prefix_iff_eq_take.mp hext).symm
  · exact List.take_length

/-- A request of the leader is refused without a change of the log, or stored. -/
theorem handleMessage_request (hr : ∀ i, raises' i = false) (hla : -1 ≤ follower.lastApplied)
    (hterm : follower.currentTerm ≤ leader.currentTerm)
    (hmatch : LogMatching follower.log leader.log)
    (hnext : leader.nextIndex peer ≤ leader.log.length) :
    ∃ (f : RaftNode) (r : Message),
      follower.handleMessage raises' (leader.appendEntriesMessage peer) = (f, some r) ∧
      r.term = leader.currentTerm ∧ r.data.entries = none ∧
      (r.data.success = some false ∧ 0 < leader.nextIndex peer ∧ f.log = follower.log ∧
          f.currentTerm = leader.currentTerm ∧ f.lastApplied = follower.lastApplied ∨
        r.data.success = some true ∧ f.log.take leader.log.length = leader.log) := by
  have hquiet := (follower.adoptTerm_quiet leader.currentTerm).trans
    (acceptLeader_quiet _ leader.nodeId)
  obtain ⟨n, hn⟩ : ∃ n, n = (follower.adoptTerm leader.currentTerm).acceptLeader leader.nodeId :=
    ⟨_, rfl⟩
  have hlog : n.log = follower.log := by rw [hn, acceptLeader_log, adoptTerm_log]
  have hnterm : n.currentTerm = leader.currentTerm := by
    rw [hn, acceptLeader_currentTerm, adoptTerm_currentTerm hterm]
  have hnla : n.lastApplied = follower.lastApplied := by rw [hn]; exact hquiet.lastApplied
  have hl : n.acceptLeader (leader.appendEntriesMessage peer).senderId = n := by
    rw [hn]
    exact acceptLeader_of_follower (acceptLeader_state _ _) rfl
  have hhandle : follower.handleMessage raises' (leader.appendEntriesMessage peer) =
      n.handleAppendEntries raises' (leader.appendEntriesMessage peer) := by
    rw [handleMessage_appendEntries rfl, hn]
    exact (handleAppendEntries_acceptLeader _ raises' _).symm
  rw [hhandle]
  obtain ⟨b, hb⟩ := n.prevLogCheck_isSome (leader.nextIndex peer) (leader.prevLogTerm peer)
  cases b with
  | false =>
    refine ⟨_, _, handleAppendEntries_of_refused raises' hl hb, hnterm, rfl, Or.inl ⟨rfl, ?_, hlog,
      hnterm, hnla⟩⟩
    -- at 0 the check passes
    by_contra h0
    have hpass : n.prevLogCheck ((leader.nextIndex peer : ℤ) - 1) (leader.prevLogTerm peer) =
        some true := prevLogCheck_pred.mpr (Or.inl (by omega))
    rw [hpass] at hb
    cases hb
  | true =>
    obtain ⟨c, a, d, hf, -⟩ := followCommit_eq (n := { n with
      log := TermLog.overlay LogEntry.term n.log (leader.nextIndex peer)
        (leader.log.drop (leader.nextIndex peer)) }) hr (by show -1 ≤ n.lastApplied; omega)
      leader.commitIndex
    rw [← hlog] at hmatch
    refine ⟨_, _, handleAppendEntries_of_passed hl rfl hb hf, hnterm, rfl, Or.inr ⟨rfl, ?_⟩⟩
    exact take_overlay_drop hmatch hnext (take_eq_of_prevLogCheck hmatch hnext hb)

/-! ## The leader's side -/

theorem updateCommitIndex_returns (hr : ∀ i, raises i = false) (hla : -1 ≤ n.lastApplied) :
    (n.updateCommitIndex raises).2 = true := by
  rcases n.updateCommitIndex_cases raises with h | ⟨_, hmay, h⟩ <;> rw [h]
  have hlt := (mayCommit_iff.mp hmay).2.1
  obtain ⟨d, hd⟩ := applyCommittedEntries_eq (n := { n with commitIndex := n.commitCandidate })
    hr hla hlt
  rw [hd]

theorem appendReply_success (hr : ∀ i, raises i = false) (hla : -1 ≤ n.lastApplied) {last : ℤ}
    {response : Message} (h : response.data.success = some true)
    (hm : n.matchIndex peer ≤ last) :
    (n.appendReply raises peer last response).2 = true ∧
      (n.appendReply raises peer last response).1.log = n.log ∧
      (n.appendReply raises peer last response).1.matchIndex peer = last ∧
      (n.appendReply raises peer last response).1.nextIndex peer = (last + 1).toNat := by
  have heq : n.appendReply raises peer last response =
      (n.recordMatch peer last).updateCommitIndex raises := by
    unfold appendReply
    rw [h]
    rfl
  have hmax : max (n.matchIndex peer) last = last := max_eq_right hm
  obtain ⟨c, a, d, hf⟩ := (n.recordMatch peer last).updateCommitIndex_frame raises
  rw [heq]
  refine ⟨updateCommitIndex_returns hr hla, ?_⟩
  rw [hf]
  refine ⟨rfl, ?_, ?_⟩
  · show Function.update n.matchIndex peer _ peer = last
    rw [Function.update_self, hmax]
  · show Function.update n.nextIndex peer _ peer = (last + 1).toNat
    rw [Function.update_self, hmax]

theorem appendReply_refused {last : ℤ} {response : Message}
    (h : response.data.success = some false) (hterm : response.term ≤ n.currentTerm) :
    n.appendReply raises peer last response = (n.backOff peer, false) := by
  unfold appendReply
  rw [h, adoptTerm_of_le hterm]
  rfl

theorem backOff_eq (h : 0 < n.nextIndex peer) : n.backOff peer =
    { n with nextIndex := Function.update n.nextIndex peer (n.nextIndex peer - 1) } :=
  if_pos h

end RaftNode

/-! ## Exchanges -/

/-- What the exchanges rely on, and keep. -/
structure Repairable (peer : String) (leader follower : RaftNode) : Prop where
  distinct : ∀ e ∈ leader.log, (Value.dict e.data).DistinctKeys
  term : follower.currentTerm ≤ leader.currentTerm
  matching : LogMatching follower.log leader.log
  next : leader.nextIndex peer ≤ leader.log.length
  matchIndex : leader.matchIndex peer ≤ leader.log.length - 1
  leaderApplied : -1 ≤ leader.lastApplied
  followerApplied : -1 ≤ follower.lastApplied

/-- What a success leaves behind. -/
structure Repaired (log : List LogEntry) (peer : String) (leader follower : RaftNode) : Prop where
  leaderLog : leader.log = log
  followerLog : follower.log.take log.length = log
  matchIndex : leader.matchIndex peer = log.length - 1
  nextIndex : leader.nextIndex peer = log.length

variable {raises raises' : Raises} {peer : String} {leader follower : RaftNode}

/-- An exchange succeeds, or takes `next_index` one step back from a position above 0. -/
theorem exchange_cases (wire : Wire T) (hraises : ∀ i, raises i = false)
    (hr' : ∀ i, raises' i = false) (h : Repairable peer leader follower) (times : T × T) :
    ∃ l f b, exchange wire raises raises' peer times leader follower = ((l, f), b) ∧
      (b = true ∧ Repaired leader.log peer l f ∨
        b = false ∧ Repairable peer l f ∧ l.log = leader.log ∧
          l.nextIndex peer + 1 = leader.nextIndex peer) := by
  obtain ⟨f, r, hhandle, hterm, hentries, hr⟩ :=
    handleMessage_request hr' h.followerApplied h.term h.matching h.next
  have hrequest : deliver wire (leader.appendEntriesMessage peer) times.1 =
      some (leader.appendEntriesMessage peer) :=
    deliver_eq fun e he => h.distinct e (List.mem_of_mem_drop he)
  have hresponse : deliver wire r times.2 = some r :=
    deliver_eq (by rw [hentries]; exact fun e he => nomatch he)
  have hexchange : exchange wire raises raises' peer times leader follower =
      (((leader.appendReply raises peer (leader.log.length - 1) r).1, f),
        (leader.appendReply raises peer (leader.log.length - 1) r).2) := by
    have hlast : leader.prevLogIndex peer + ((leader.log.drop (leader.nextIndex peer)).length : ℤ) =
        leader.log.length - 1 := by
      have := h.next
      unfold prevLogIndex
      rw [List.length_drop]
      omega
    unfold exchange
    dsimp only
    rw [hrequest]
    dsimp only
    rw [hhandle]
    dsimp only
    rw [Option.bind_some, hresponse, hlast]
  rw [hexchange]
  rcases hr with ⟨hfalse, hpos, hlog, hfterm, hfla⟩ | ⟨htrue, htake⟩
  · rw [appendReply_refused hfalse hterm.le, backOff_eq hpos]
    refine ⟨_, _, _, rfl, Or.inr ⟨rfl, ⟨h.distinct, hfterm.le, ?_, ?_, h.matchIndex,
      h.leaderApplied, ?_⟩, rfl, ?_⟩⟩
    · rw [hlog]
      exact h.matching
    · show Function.update leader.nextIndex peer _ peer ≤ _
      rw [Function.update_self]
      exact (Nat.sub_le _ _).trans h.next
    · rw [hfla]
      exact h.followerApplied
    · show Function.update leader.nextIndex peer _ peer + 1 = _
      rw [Function.update_self]
      omega
  · obtain ⟨hok, hlog, hmatch, hnext⟩ := appendReply_success hraises
      h.leaderApplied htrue h.matchIndex
    exact ⟨_, _, _, rfl, Or.inl ⟨hok, hlog, htake, hmatch, by rw [hnext]; omega⟩⟩

/-- Log repair converges: at most `next_index + 1` exchanges reach a success reply, after which the
follower's log is the leader's below its length, and the leader knows it. -/
theorem log_repair_converges {wire : Wire T} (hr : ∀ i, raises i = false)
    (hr' : ∀ i, raises' i = false) (h : Repairable peer leader follower) (times : ℕ → T × T) :
    ∃ l f, repair wire raises raises' peer (leader.nextIndex peer + 1) times leader follower =
      some (l, f) ∧ Repaired leader.log peer l f := by
  obtain ⟨k, hk⟩ : ∃ k, leader.nextIndex peer = k := ⟨_, rfl⟩
  rw [hk]
  induction k generalizing leader follower times with
  | zero =>
    obtain ⟨l, f, b, heq, ⟨rfl, hdone⟩ | ⟨-, -, -, hnext⟩⟩ :=
      exchange_cases wire hr hr' h (times 0)
    · refine ⟨l, f, ?_, hdone⟩
      unfold repair
      rw [heq]
      rfl
    · omega
  | succ k ih =>
    obtain ⟨l, f, b, heq, ⟨rfl, hdone⟩ | ⟨rfl, hagain, hlog, hnext⟩⟩ :=
      exchange_cases wire hr hr' h (times 0)
    · refine ⟨l, f, ?_, hdone⟩
      unfold repair
      rw [heq]
      rfl
    · obtain ⟨l', f', hrepair, hdone⟩ := ih hagain (fun i => times (i + 1)) (by omega)
      refine ⟨l', f', ?_, by rw [← hlog]; exact hdone⟩
      unfold repair
      rw [heq]
      dsimp only
      rw [if_neg Bool.false_ne_true]
      exact hrepair

def sampleWire : Wire Unit where
  floats := Json.FloatFormat.ofEncodable ℚ
  isoformat _ := "2024-01-01T00:00:00"
  fromisoformat _ := some ()
  fromisoformat_isoformat _ := rfl

def repairingLeader : RaftNode :=
  { RaftNode.init "a" ["b", "c"] with
      currentTerm := 3, votedFor := some "a", state := .leader, leaderId := some "a",
      log := [{ term := 1, index := 0, command := "first", data := [("n", .int 1)] },
        { term := 3, index := 1, command := "second", data := [] }]
      nextIndex := fun _ => 2 }

def divergingFollower : RaftNode :=
  { RaftNode.init "b" ["a", "c"] with
      currentTerm := 2
      log := [{ term := 1, index := 0, command := "first", data := [("n", .int 1)] },
        { term := 2, index := 1, command := "lost", data := [] },
        { term := 2, index := 2, command := "lost", data := [] }] }

/-- Three exchanges are enough for a leader whose `next_index` is 2. -/
theorem log_repair_converges_diverging :
    ∃ l f, repair sampleWire (fun _ => false) (fun _ => false) "b" 3 (fun _ => ((), ()))
        repairingLeader divergingFollower = some (l, f) ∧
      Repaired repairingLeader.log "b" l f := by
  refine log_repair_converges (fun _ => rfl) (fun _ => rfl) ⟨?_, by decide, ?_, by decide,
    by decide, by decide, by decide⟩ fun _ => ((), ())
  · intro e he
    rcases List.mem_cons.mp he with rfl | he
    · refine Value.distinctKeys_dict.mpr ⟨List.nodup_singleton _, fun f hf => ?_⟩
      rw [List.mem_singleton.mp hf]
      trivial
    · rw [List.mem_singleton.mp he]
      exact Value.distinctKeys_dict.mpr ⟨List.nodup_nil, fun f hf => nomatch hf⟩
  · intro k e e' hk hk' ht
    match k with
    | 0 => rfl
    | 1 =>
      cases hk
      cases hk'
      cases ht
    | k + 2 => cases hk'

end DistributedSync
