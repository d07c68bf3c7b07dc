import DistributedSync.Raft.Acknowledgement
import DistributedSync.Raft.Entries
import DistributedSync.System.Runs
import Mathlib.Data.List.InsertIdx

/-!
# What a node sees of a run

A node sees the state of its services, its coroutines that are at an `append_entry` call, and the
entries it has delivered (`NodeView`). A step of the system is a list of acts of one node on its
view (`DistributedSystem.step_view`), so a property of views that the acts keep, under a condition
on each of them, holds along the run (`Reach.view`).
-/

namespace DistributedSync

variable {S : Services}

/-! ## The callers of a node -/

/-- The frames of the coroutines that wait for their rounds. -/
def Proc.callers {κ : Type} (p : Proc κ) : List κ := p.appendCalls.map AppendCall.caller

theorem Proc.startElection_callers {κ : Type} (p : Proc κ) (b : Bool) :
    (p.startElection b).callers = p.callers := by
  rw [callers, startElection_appendCalls, callers]

theorem Proc.setTask_callers {κ : Type} (p : Proc κ) (owner : TaskOwner) (k : ℕ) (t : RpcTask) :
    (p.setTask owner k t).callers = p.callers := by
  cases owner with
  | heartbeat => rfl
  | append j =>
    refine List.ext_getElem? fun q => ?_
    simp only [setTask, callers, List.getElem?_map, List.getElem?_modify]
    rcases p.appendCalls[q]? with _ | f
    · rfl
    · by_cases hq : j = q <;> simp [hq]

/-- The callers of a node after a step of Raft: `append_entry` adds its caller when there are peers
to wait for, and a call that returns drops it. -/
def Proc.callersAfter {κ : Type} (p : Proc κ) : Event κ → List κ
  | .appendEntry _ _ _ caller _ => p.callers ++ if p.raft.peers = [] then [] else [caller]
  | .returnAppend _ j => p.callers.eraseIdx j
  | _ => p.callers

theorem Transition.callers {κ : Type} {c c' : Cluster κ} {e : Event κ} {i : String}
    (h : Transition c e c') (hr : c.runner e = some i) :
    (c'.proc i).callers = (c.proc i).callersAfter e := by
  have hput : ∀ {i p}, c'.proc = Function.update c.proc i p → (c'.proc i).callers = p.callers := by
    intro i p hp
    rw [hp, Function.update_self]
  cases h with
  | electionTimeout i' | raftProcessor i' =>
    cases hr
    exact (hput rfl).trans (Proc.startElection_callers ..)
  | requestVote i' | voteResponse i' | voteTimeout i' | cancelElection i' | finishElection i'
  | heartbeat i' =>
    cases hr
    exact (hput rfl).trans rfl
  | commitEntry i' command data caller raises hl hp =>
    cases hr
    rw [hput rfl, Proc.callersAfter, if_pos hp, List.append_nil]
    rfl
  | appendEntry i' command data caller raises hl hp =>
    cases hr
    rw [hput rfl, Proc.callersAfter, if_neg hp]
    exact List.map_append
  | sendAppend i' owner k t | appendResponse i' owner k raises t | appendTimeout i' owner k t =>
    cases hr
    exact (hput rfl).trans (Proc.setTask_callers ..)
  | returnAppend i' j =>
    cases hr
    rw [hput rfl]
    exact (List.eraseIdx_map ..).symm
  | handleMessage r raises rpc hrpc =>
    rw [Cluster.runner, hrpc] at hr
    cases hr
    exact (hput rfl).trans rfl

/-! ## Views and acts -/

/-- What the services of a node do in a step: a coroutine begins or wakes up, a delivered entry
reaches the callbacks, the coroutine at position `k` comes back from `append_entry`, or the first
one waits for its round. -/
inductive Act (S : Services) where
  | start (now : ℚ) (op : S.Op)
  | commit (now : ℚ) (entry : LogEntry)
  | resume (now : ℚ) (k : ℕ) (a : Appended)
  | wait

/-- What a node sees. The coroutine that is about to call `append_entry` is the first of the frames,
those that wait for their round follow. -/
structure NodeView (S : Services) where
  state : S.State
  frames : List S.Frame
  delivered : List LogEntry

/-- An act of the node. -/
def NodeView.act (v : NodeView S) : Act S → NodeView S
  | .start now op =>
    match S.start now op v.state with
    | some r => { v with state := r.1, frames := r.2.frame?.toList ++ v.frames }
    | none => v
  | .commit now entry =>
    { v with state := (S.handleCommit now entry v.state).1, delivered := v.delivered ++ [entry] }
  | .resume now k a =>
    match v.frames[k]? with
    | some frame =>
      let r := S.resume now frame a v.state
      { v with state := r.1, frames := r.2.frame?.toList ++ v.frames.eraseIdx k }
    | none => v
  | .wait => { v with frames := v.frames.tail ++ v.frames.head?.toList }

section Acts

variable {v : NodeView S} {now : ℚ}

theorem NodeView.act_start {op : S.Op} {r : S.State × Outcome S.Frame S.Result}
    (h : S.start now op v.state = some r) : v.act (.start now op) =
      { v with state := r.1, frames := r.2.frame?.toList ++ v.frames } := by
  simp only [act, h]

theorem NodeView.act_start_none {op : S.Op} (h : S.start now op v.state = none) :
    v.act (.start now op) = v := by
  simp only [act, h]

theorem NodeView.act_resume {k : ℕ} {frame : S.Frame} (h : v.frames[k]? = some frame)
    (a : Appended) : v.act (.resume now k a) =
      { v with state := (S.resume now frame a v.state).1
               frames := (S.resume now frame a v.state).2.frame?.toList ++
                 v.frames.eraseIdx k } := by
  simp only [act, h]

theorem NodeView.act_resume_none {k : ℕ} (h : v.frames[k]? = none) (a : Appended) :
    v.act (.resume now k a) = v := by
  simp only [act, h]

theorem NodeView.act_wait_perm : (v.act .wait).frames.Perm v.frames := by
  show (v.frames.tail ++ v.frames.head?.toList).Perm v.frames
  cases v.frames with
  | nil => exact .refl _
  | cons frame frames => exact List.perm_append_comm

theorem NodeView.delivered_prefix_act (v : NodeView S) (a : Act S) :
    v.delivered <+: (v.act a).delivered := by
  cases a with
  | start now op =>
    rcases hs : S.start now op v.state with _ | r
    · rw [act_start_none hs]
    · rw [act_start hs]
  | commit now entry => exact List.prefix_append _ _
  | resume now k b =>
    rcases hk : v.frames[k]? with _ | frame
    · rw [act_resume_none hk]
    · rw [act_resume hk]
  | wait => exact List.prefix_refl _

/-- What holds of the frames holds after an act if it holds of the frame that the act leaves. -/
theorem NodeView.forall_frames_act {Q : S.Frame → Prop} (h : ∀ frame ∈ v.frames, Q frame)
    {a : Act S}
    (hstart : ∀ now op r, a = .start now op → S.start now op v.state = some r →
      ∀ frame ∈ r.2.frame?, Q frame)
    (hresume : ∀ now k b frame, a = .resume now k b → v.frames[k]? = some frame →
      ∀ frame' ∈ (S.resume now frame b v.state).2.frame?, Q frame') :
    ∀ frame ∈ (v.act a).frames, Q frame := by
  have hnew : ∀ {new : Option S.Frame} {old : List S.Frame}, (∀ frame ∈ new, Q frame) →
      (∀ frame ∈ old, Q frame) → ∀ frame ∈ new.toList ++ old, Q frame := fun hnew hold frame hf =>
    (List.mem_append.mp hf).elim (fun hf => hnew frame (Option.mem_toList.mp hf)) (hold frame)
  cases a with
  | start now op =>
    rcases hs : S.start now op v.state with _ | r
    · rwa [act_start_none hs]
    · rw [act_start hs]
      exact hnew (hstart now op r rfl hs) h
  | commit now entry => exact h
  | resume now k b =>
    rcases hk : v.frames[k]? with _ | frame
    · rwa [act_resume_none hk]
    · rw [act_resume hk]
      exact hnew (hresume now k b frame rfl hk) fun frame' hf =>
        h frame' (List.mem_of_mem_eraseIdx hf)
  | wait => exact fun frame hf => h frame (act_wait_perm.mem_iff.mp hf)

theorem NodeView.state_act {P : S.State → Prop} (h : P v.state) {a : Act S}
    (hstart : ∀ now op r, a = .start now op → S.start now op v.state = some r → P r.1)
    (hcommit : ∀ now e, a = .commit now e → P (S.handleCommit now e v.state).1)
    (hresume : ∀ now k b frame, a = .resume now k b → v.frames[k]? = some frame →
      P (S.resume now frame b v.state).1) : P (v.act a).state := by
  cases a with
  | start now op =>
    rcases hs : S.start now op v.state with _ | r
    · rwa [act_start_none hs]
    · rw [act_start hs]
      exact hstart now op r rfl hs
  | commit now entry => exact hcommit now entry rfl
  | resume now k b =>
    rcases hk : v.frames[k]? with _ | frame
    · rwa [act_resume_none hk]
    · rw [act_resume hk]
      exact hresume now k b frame rfl hk
  | wait => exact h

end Acts

/-- Every act meets the condition. -/
def NodeView.Allowed (cond : NodeView S → Act S → Prop) : NodeView S → List (Act S) → Prop
  | _, [] => True
  | v, a :: as => cond v a ∧ Allowed cond (v.act a) as

theorem NodeView.Allowed.mono {cond cond' : NodeView S → Act S → Prop}
    (hc : ∀ v a, cond v a → cond' v a) {v : NodeView S} {as : List (Act S)}
    (h : v.Allowed cond as) : v.Allowed cond' as := by
  induction as generalizing v with
  | nil => trivial
  | cons a as ih => exact ⟨hc v a h.1, ih h.2⟩

theorem NodeView.Allowed.invariant {cond : NodeView S → Act S → Prop} {P : NodeView S → Prop}
    (hact : ∀ v a, P v → cond v a → P (v.act a)) {v : NodeView S} {as : List (Act S)} (h : P v)
    (has : v.Allowed cond as) : P (as.foldl NodeView.act v) := by
  induction as generalizing v with
  | nil => exact h
  | cons a as ih => exact ih (hact v a h has.1) has.2

namespace DistributedSystem

variable {cfg : ClusterConfig} {s s' : DistributedSystem S} {ev : SystemEvent S} {i : String}

def view (s : DistributedSystem S) (i : String) : NodeView S where
  state := s.state i
  frames := (s.running i).toList ++ (s.cluster.proc i).callers
  delivered := (s.cluster.proc i).raft.delivered

/-- The entries that node `i` delivers in a step of Raft. -/
def commits (cfg : ClusterConfig) (s : DistributedSystem S) (i : String) (now : ℚ)
    (e : Event S.Frame) : List (Act S) :=
  match cfg.step s.cluster e with
  | some c => ((c.proc i).raft.delivered.drop (s.cluster.proc i).raft.delivered.length).map
      (.commit now)
  | none => []

/-- The node that acts in a step, and its acts. -/
def acts (cfg : ClusterConfig) (s : DistributedSystem S) :
    SystemEvent S → Option (String × List (Act S))
  | .call i now op => some (i, [.start now op])
  | .append i now raises =>
    (s.running i).map fun frame =>
      let n := (s.cluster.proc i).raft
      let request := S.request frame
      if n.state = .leader then
        (i, s.commits cfg i now (.appendEntry i request.1 request.2 frame raises) ++
          [match (n.appendEntry raises request.1 request.2).2 with
            | some b => .resume now 0 (if b then .returned true else .raised)
            | none => .wait])
      else (i, [.resume now 0 (.returned false)])
  | .raft now e =>
    (s.cluster.runner e).map fun i =>
      (i, s.commits cfg i now e ++
        match e with
        | .returnAppend _ j => [.resume now j (.returned true)]
        | _ => [])

theorem foldl_commit (v : NodeView S) (now : ℚ) (entries : List LogEntry) :
    (entries.map (Act.commit now)).foldl NodeView.act v =
      { v with state := entries.foldl (fun st e => (S.handleCommit now e st).1) v.state
               delivered := v.delivered ++ entries } := by
  induction entries generalizing v with
  | nil => simp
  | cons e es ih =>
    rw [List.map_cons, List.foldl_cons, ih]
    simp [NodeView.act]

/-- A step of Raft delivers entries to the node that runs. -/
theorem raftStep_view {now : ℚ} {e : Event S.Frame} (hr : s.cluster.runner e = some i)
    (hs : s.raftStep cfg i now e = some s') :
    (s.commits cfg i now e).foldl NodeView.act (s.view i) =
        { state := s'.state i
          frames := (s.view i).frames
          delivered := (s'.cluster.proc i).raft.delivered } ∧
      (s'.cluster.proc i).callers = (s.cluster.proc i).callersAfter e ∧
      s'.running = s.running ∧ ∀ j ≠ i, s'.view j = s.view j := by
  obtain ⟨c, state, hc, hd, rfl⟩ := raftStep_some hs
  have ht := cfg.transition hc
  obtain ⟨i', p, hr', hproc, hev, -⟩ := ht.one_node
  rw [hr, Option.some.injEq] at hr'
  subst hr'
  refine ⟨?_, ht.callers hr, rfl, fun j hj => ?_⟩
  · have hpre : (s.cluster.proc i).raft.delivered ++
        (c.proc i).raft.delivered.drop (s.cluster.proc i).raft.delivered.length =
          (c.proc i).raft.delivered := by
      obtain ⟨new, hnew⟩ := (ht.evolves i).delivered
      rw [← hnew, List.drop_left]
    simp only [commits, hc, foldl_commit]
    dsimp only [view]
    rw [← deliver_eq hd, hpre, Function.update_self]
  · simp only [view, Function.update_of_ne hj, hproc]

theorem react_view_ne {j : String} (hj : j ≠ i) (r : S.State × Outcome S.Frame S.Result) :
    (s.react i r).view j = s.view j := by
  simp only [view, react_state, react_running, react_cluster, Function.update_of_ne hj]

theorem react_view_self (r : S.State × Outcome S.Frame S.Result) :
    (s.react i r).view i =
      { state := r.1
        frames := r.2.frame?.toList ++ (s.cluster.proc i).callers
        delivered := (s.cluster.proc i).raft.delivered } := by
  simp only [view, react_state, react_running, react_cluster, Function.update_self]

/-- A step of the system is a list of acts of one node. -/
theorem step_view (h : s.step cfg ev = some s') : ∃ i as, s.acts cfg ev = some (i, as) ∧
    s'.view = Function.update s.view i (as.foldl NodeView.act (s.view i)) := by
  suffices ∃ i as, s.acts cfg ev = some (i, as) ∧ s'.view i = as.foldl NodeView.act (s.view i) ∧
      ∀ j ≠ i, s'.view j = s.view j by
    obtain ⟨i, as, has, hi, hj⟩ := this
    exact ⟨i, as, has, Function.eq_update_iff.mpr ⟨hi, hj⟩⟩
  cases step_cases h with
  | call i now op r hi hr =>
    refine ⟨i, _, rfl, ?_, fun j hj => react_view_ne hj r⟩
    rw [react_view_self]
    simp [NodeView.act, view, hr, hi]
  | refused i now raises frame hf hl =>
    refine ⟨i, [.resume now 0 (.returned false)], ?_, ?_, fun j hj => react_view_ne hj _⟩
    · simp [acts, hf, hl]
    · rw [react_view_self]
      simp [NodeView.act, view, hf]
  | appends i now raises frame s₁ hf hl hp hs =>
    obtain ⟨hview, hcall, hrun, hne⟩ := raftStep_view rfl hs
    refine ⟨i, s.commits cfg i now (.appendEntry i (S.request frame).1 (S.request frame).2 frame
      raises) ++ [.wait], ?_, ?_, fun j hj => ?_⟩
    · simp only [acts, hf, Option.map_some, if_pos hl,
        congrArg Prod.snd (RaftNode.appendEntry_waits hp raises _ _)]
    · rw [List.foldl_append, hview]
      simp [view, NodeView.act, hf, hcall, Proc.callersAfter, hp]
    · rw [← hne j hj]
      simp [view, Function.update_of_ne hj]
  | commits i now raises frame s₁ b hf hl hb hs =>
    obtain ⟨hview, hcall, hrun, hne⟩ := raftStep_view rfl hs
    refine ⟨i, s.commits cfg i now (.appendEntry i (S.request frame).1 (S.request frame).2 frame
      raises) ++ [.resume now 0 (if b then .returned true else .raised)], ?_, ?_, fun j hj => ?_⟩
    · simp only [acts, hf, Option.map_some, if_pos hl, hb]
    · have hp : (s.cluster.proc i).raft.peers = [] := by
        by_contra hp
        rw [congrArg Prod.snd (RaftNode.appendEntry_waits hp raises _ _)] at hb
        cases hb
      rw [List.foldl_append, hview, react_view_self]
      simp [view, NodeView.act, hf, hcall, Proc.callersAfter, hp]
    · rw [react_view_ne hj, hne j hj]
  | returns i now j call s₁ hi hc hs =>
    obtain ⟨hview, hcall, hrun, hne⟩ := raftStep_view rfl hs
    refine ⟨i, s.commits cfg i now (.returnAppend i j) ++ [.resume now j (.returned true)], rfl, ?_,
      fun k hk => ?_⟩
    · rw [List.foldl_append, hview, react_view_self]
      have hframe : (s.cluster.proc i).callers[j]? = some call.caller := by
        rw [Proc.callers, List.getElem?_map, hc]
        rfl
      simp [view, NodeView.act, hi, hcall, Proc.callersAfter, hframe]
    · rw [react_view_ne hk, hne k hk]
  | raft i now e s₁ hr hi he hret hs =>
    obtain ⟨hview, hcall, hrun, hne⟩ := raftStep_view hr hs
    have hsame : (s.cluster.proc i).callersAfter e = (s.cluster.proc i).callers ∧
        s.acts cfg (.raft now e) = some (i, s.commits cfg i now e) := by
      cases e with
      | appendEntry => cases he
      | returnAppend i' j =>
        -- the step needs a call that returns
        obtain ⟨c, -, hc, -⟩ := raftStep_some hs
        cases cfg.transition hc with
        | returnAppend _ _ call hcall hd =>
          rw [returning, hcall] at hret
          cases hret
      | _ => exact ⟨rfl, by simp only [acts, hr, Option.map_some, List.append_nil]⟩
    refine ⟨i, _, hsame.2, ?_, hne⟩
    rw [hview]
    simp [view, hrun, hcall, hsame.1]

/-! ## Runs -/

/-- The acts of the step meet the condition, which is about what all nodes see before the act. -/
def Locally (cfg : ClusterConfig) (cond : (String → NodeView S) → String → Act S → Prop)
    (s : DistributedSystem S) (ev : SystemEvent S) : Prop :=
  ∀ a ∈ s.acts cfg ev, (s.view a.1).Allowed (fun v => cond (Function.update s.view a.1 v) a.1) a.2

theorem Locally.mono {cond cond' : (String → NodeView S) → String → Act S → Prop}
    (hc : ∀ f i a, cond f i a → cond' f i a) (h : Locally cfg cond s ev) :
    Locally cfg cond' s ev :=
  fun a ha => (h a ha).mono fun _ _ => hc _ _ _

theorem locally_any : Locally cfg (fun _ _ _ => True) s ev := by
  intro a _
  generalize s.view a.1 = v
  induction a.2 generalizing v with
  | nil => trivial
  | cons _ as ih => exact ⟨trivial, ih _⟩

/-- What the nodes see along a run: a property that every allowed act keeps. -/
theorem Reach.views {cond : (String → NodeView S) → String → Act S → Prop}
    {P : (String → NodeView S) → Prop} (h0 : P fun i => ⟨S.init i, [], []⟩)
    (hact : ∀ f i a, P f → cond f i a → P (Function.update f i ((f i).act a)))
    (h : Reach cfg (Locally cfg cond) s) : P s.view := by
  refine h.invariant (P := fun s => P s.view) h0 fun s ev s' h hok hs => ?_
  obtain ⟨i, as, has, hview⟩ := step_view hs
  rw [hview]
  refine NodeView.Allowed.invariant (P := fun v => P (Function.update s.view i v))
    (fun v a hv hc => ?_) ?_ (hok _ has)
  · have := hact _ i a hv hc
    rwa [Function.update_idem, Function.update_self] at this
  · rwa [Function.update_eq_self]

theorem Reach.view {cond : (String → NodeView S) → String → Act S → Prop}
    {P : String → NodeView S → Prop} (h0 : ∀ i, P i ⟨S.init i, [], []⟩)
    (hact : ∀ f i a, P i (f i) → cond f i a → P i ((f i).act a))
    (h : Reach cfg (Locally cfg cond) s) (i : String) : P i (s.view i) := by
  refine h.views (P := fun f => ∀ i, P i (f i)) h0 (fun f i a hf hc j => ?_) i
  by_cases hj : j = i
  · subst hj
    rw [Function.update_self]
    exact hact f j a (hf j) hc
  · rw [Function.update_of_ne hj]
    exact hf j

/-- A property that the requests of all coroutines have, if all entries so far have it, is one of
all entries. -/
theorem Reach.entries {ok : DistributedSystem S → SystemEvent S → Prop} {P : LogEntry → Prop}
    (hframes : ∀ s, Reach cfg ok s → s.cluster.AllEntries P → ∀ i ∈ cfg.nodes,
      ∀ frame ∈ (s.view i).frames, ∀ e : LogEntry, (e.command, e.data) = S.request frame → P e)
    (h : Reach cfg ok s) : s.cluster.AllEntries P := by
  induction h with
  | refl => exact .reach .refl
  | @tail s s' ev h hok hs ih =>
    rcases step_cluster hs with heq | ⟨e, he, hc⟩
    · rwa [heq]
    · refine ih.step ?_ (cfg.transition hc)
      cases e with
      | appendEntry i command data caller raises =>
        have hi : i ∈ cfg.nodes := (ClusterConfig.step_some hc).1 i rfl
        cases ev with
        | call => cases he
        | append j now raises' =>
          obtain ⟨frame, hf, he⟩ := Option.bind_eq_some_iff.mp he
          rw [Option.ite_none_right_eq_some, Option.some.injEq] at he
          obtain ⟨-, he⟩ := he
          cases he
          refine hframes s h ih i hi caller ?_ _ rfl
          rw [DistributedSystem.view, hf]
          exact List.mem_cons_self
        | raft now e' =>
          cases he
          -- the calls of `append_entry` are steps of their own
          cases step_cases hs with
          | raft _ _ _ _ _ _ hno => cases hno
      | _ => trivial

theorem Reach.allEntries {ok : DistributedSystem S → SystemEvent S → Prop} {P : LogEntry → Prop}
    (hframes : ∀ s, Reach cfg ok s → ∀ i ∈ cfg.nodes, ∀ frame ∈ (s.view i).frames,
      ∀ e : LogEntry, (e.command, e.data) = S.request frame → P e)
    (h : Reach cfg ok s) : s.cluster.AllEntries P :=
  h.entries fun s hs _ => hframes s hs

instance decidableAllowed {cond : NodeView S → Act S → Prop} [∀ v a, Decidable (cond v a)] :
    (v : NodeView S) → (as : List (Act S)) → Decidable (v.Allowed cond as)
  | _, [] => isTrue trivial
  | v, a :: as => @instDecidableAnd _ _ _ (decidableAllowed (v.act a) as)

instance {cond : (String → NodeView S) → String → Act S → Prop}
    [∀ f i a, Decidable (cond f i a)] (s : DistributedSystem S) (ev : SystemEvent S) :
    Decidable (Locally cfg cond s ev) :=
  match h : s.acts cfg ev with
  | none => isTrue fun a ha => by simp [h] at ha
  | some a => decidable_of_iff ((s.view a.1).Allowed
      (fun v => cond (Function.update s.view a.1 v) a.1) a.2) (by simp [Locally, h])

end DistributedSystem

end DistributedSync
