import DistributedSync.System.Model

/-!
# Runs of the system

`SystemTransition` lists the steps (`DistributedSystem.step_cases`). A run of the system is a run of
the cluster (`Reach.cluster`), and what a service keeps of committed entries alone is at any time
the result of the entries delivered so far (`Services.Replicates.reach`). No other step of the node
comes between a coroutine's last test and its `append_entry` call (`Services.Tests.reach`).
-/

namespace DistributedSync

open DistributedSystem

variable {S : Services} {cfg : ClusterConfig} {s s' s₀ : DistributedSystem S} {ev : SystemEvent S}
  {i : String}

/-- The steps from `s`. -/
inductive SystemTransition (cfg : ClusterConfig) (s : DistributedSystem S) :
    SystemEvent S → DistributedSystem S → Prop
  | call (i : String) (now : ℚ) (op : S.Op) (r : S.State × Outcome S.Frame S.Result)
    (hi : s.running i = none) (hr : S.start now op (s.state i) = some r) :
    SystemTransition cfg s (.call i now op) (s.react i r)
  | refused (i : String) (now : ℚ) (raises : Raises) (frame : S.Frame)
    (hf : s.running i = some frame) (hl : (s.cluster.proc i).raft.state ≠ .leader) :
    SystemTransition cfg s (.append i now raises)
      (s.react i (S.resume now frame (.returned false) (s.state i)))
  | appends (i : String) (now : ℚ) (raises : Raises) (frame : S.Frame) (s' : DistributedSystem S)
    (hf : s.running i = some frame) (hl : (s.cluster.proc i).raft.state = .leader)
    (hp : (s.cluster.proc i).raft.peers ≠ [])
    (hs : s.raftStep cfg i now
      (.appendEntry i (S.request frame).1 (S.request frame).2 frame raises) = some s') :
    SystemTransition cfg s (.append i now raises)
      { s' with running := Function.update s'.running i none }
  | commits (i : String) (now : ℚ) (raises : Raises) (frame : S.Frame) (s' : DistributedSystem S)
      (b : Bool)
    (hf : s.running i = some frame) (hl : (s.cluster.proc i).raft.state = .leader)
    (hb : ((s.cluster.proc i).raft.appendEntry raises (S.request frame).1
      (S.request frame).2).2 = some b)
    (hs : s.raftStep cfg i now
      (.appendEntry i (S.request frame).1 (S.request frame).2 frame raises) = some s') :
    SystemTransition cfg s (.append i now raises)
      (s'.react i (S.resume now frame (if b then .returned true else .raised) (s'.state i)))
  | returns (i : String) (now : ℚ) (j : ℕ) (call : AppendCall S.Frame) (s' : DistributedSystem S)
    (hi : s.running i = none) (hc : (s.cluster.proc i).appendCalls[j]? = some call)
    (hs : s.raftStep cfg i now (.returnAppend i j) = some s') :
    SystemTransition cfg s (.raft now (.returnAppend i j))
      (s'.react i (S.resume now call.caller (.returned true) (s'.state i)))
  | raft (i : String) (now : ℚ) (e : Event S.Frame) (s' : DistributedSystem S)
    (hr : s.cluster.runner e = some i) (hi : s.running i = none) (he : isAppendEntry e = false)
    (hret : s.returning e = none) (hs : s.raftStep cfg i now e = some s') :
    SystemTransition cfg s (.raft now e) s'

namespace DistributedSystem

theorem raftStep_some {now : ℚ} {e : Event S.Frame} (h : s.raftStep cfg i now e = some s') :
    ∃ c state, cfg.step s.cluster e = some c ∧
      deliver now e.raises ((s.cluster.proc i).raft.lastApplied + 1)
        ((c.proc i).raft.delivered.drop (s.cluster.proc i).raft.delivered.length) (s.state i) =
          some state ∧
      s' = { s with cluster := c, state := Function.update s.state i state } := by
  obtain ⟨c, hc, h⟩ := Option.bind_eq_some_iff.mp h
  obtain ⟨state, hstate, rfl⟩ := Option.map_eq_some_iff.mp h
  exact ⟨c, state, hc, hstate, rfl⟩

theorem step_cases (h : s.step cfg ev = some s') : SystemTransition cfg s ev s' := by
  cases ev with
  | call i now op =>
    simp only [step, Option.ite_none_right_eq_some, Option.map_eq_some_iff,
      Option.isNone_iff_eq_none] at h
    obtain ⟨⟨-, hi⟩, r, hr, rfl⟩ := h
    exact .call i now op r hi hr
  | append i now raises =>
    obtain ⟨frame, hf, h⟩ := Option.bind_eq_some_iff.mp h
    dsimp only at h
    split at h
    · next hl =>
      obtain ⟨s₁, hs, rfl⟩ := Option.map_eq_some_iff.mp h
      by_cases hp : (s.cluster.proc i).raft.peers = []
      · obtain ⟨a, d, b, heq⟩ :=
          RaftNode.appendEntry_commits hp raises (S.request frame).1 (S.request frame).2
        have hb := congrArg Prod.snd heq
        have := SystemTransition.commits i now raises frame s₁ b hf hl hb hs
        rw [hb]
        cases b <;> exact this
      · rw [congrArg Prod.snd (RaftNode.appendEntry_waits hp raises _ _)]
        exact .appends i now raises frame s₁ hf hl hp hs
    · next hl =>
      cases h
      exact .refused i now raises frame hf hl
  | raft now e =>
    obtain ⟨i, hr, h⟩ := Option.bind_eq_some_iff.mp h
    rw [Option.ite_none_right_eq_some] at h
    obtain ⟨⟨hi, he⟩, h⟩ := h
    rw [Option.isNone_iff_eq_none] at hi
    obtain ⟨s₁, hs, rfl⟩ := Option.map_eq_some_iff.mp h
    rcases hret : s.returning e with _ | call
    · exact .raft i now e s₁ hr hi he hret hs
    · cases e with
      | returnAppend j k =>
        cases hr
        exact .returns i now k call s₁ hi hret hs
      | _ => cases hret

/-! ## The cluster of a run -/

@[simp] theorem react_cluster (s : DistributedSystem S) (i : String)
    (r : S.State × Outcome S.Frame S.Result) : (s.react i r).cluster = s.cluster := by
  obtain ⟨state, _ | _ | _⟩ := r <;> rfl

@[simp] theorem react_state (s : DistributedSystem S) (i : String)
    (r : S.State × Outcome S.Frame S.Result) :
    (s.react i r).state = Function.update s.state i r.1 := by
  obtain ⟨state, _ | _ | _⟩ := r <;> rfl

@[simp] theorem react_running (s : DistributedSystem S) (i : String)
    (r : S.State × Outcome S.Frame S.Result) :
    (s.react i r).running = Function.update s.running i r.2.frame? := by
  obtain ⟨state, _ | _ | _⟩ := r <;> rfl

theorem step_raftEvent (h : s.step cfg ev = some s') :
    (s.raftEvent ev = none ∧ s'.cluster = s.cluster) ∨
      ∃ e, s.raftEvent ev = some e ∧ cfg.step s.cluster e = some s'.cluster := by
  cases step_cases h with
  | call i now op r hi hr => exact Or.inl ⟨rfl, react_cluster ..⟩
  | refused i now raises frame hf hl =>
    exact Or.inl ⟨by simp [raftEvent, hf, hl], react_cluster ..⟩
  | appends i now raises frame s₁ hf hl hp hs =>
    obtain ⟨c, state, hc, -, rfl⟩ := raftStep_some hs
    exact Or.inr ⟨_, by simp [raftEvent, hf, hl], hc⟩
  | commits i now raises frame s₁ b hf hl hb hs =>
    obtain ⟨c, state, hc, -, rfl⟩ := raftStep_some hs
    rw [react_cluster]
    exact Or.inr ⟨_, by simp [raftEvent, hf, hl], hc⟩
  | returns i now j call s₁ hi hc hs =>
    obtain ⟨c, state, hc, -, rfl⟩ := raftStep_some hs
    rw [react_cluster]
    exact Or.inr ⟨_, rfl, hc⟩
  | raft i now e s₁ hr hi he hret hs =>
    obtain ⟨c, state, hc, -, rfl⟩ := raftStep_some hs
    exact Or.inr ⟨_, rfl, hc⟩

theorem step_cluster (h : s.step cfg ev = some s') :
    s'.cluster = s.cluster ∨
      ∃ e, s.raftEvent ev = some e ∧ cfg.step s.cluster e = some s'.cluster :=
  (step_raftEvent h).imp_left And.right

theorem Reach.cluster {ok : Cluster S.Frame → Event S.Frame → Prop}
    (h : Reach cfg (Lifted ok) s) : cfg.Reach ok s.cluster := by
  induction h with
  | refl => exact .refl
  | tail ev _ hok hs ih =>
    rcases step_cluster hs with h | ⟨e, he, hc⟩
    · rwa [h]
    · exact ih.tail e (hok e he) hc

/-- The service of a node gets the entries one after the other. -/
theorem deliver_eq {now : ℚ} {raises : Raises} {k : ℤ} {entries : List LogEntry}
    {state state' : S.State} (h : deliver now raises k entries state = some state') :
    state' = entries.foldl (fun st e => (S.handleCommit now e st).1) state := by
  induction entries generalizing k state with
  | nil => exact (Option.some.inj h).symm
  | cons e es ih =>
    unfold deliver at h
    dsimp only at h
    split at h
    · exact ih h
    · cases h

end DistributedSystem

/-! ## Replicated state -/

/-- The part `view` of a service changes with committed entries only, by `apply`. -/
structure Services.Replicates {T : Type} (S : Services) (view : S.State → T)
    (apply : T → LogEntry → T) : Prop where
  start : ∀ {now op state r}, S.start now op state = some r → view r.1 = view state
  resume : ∀ now frame a state, view (S.resume now frame a state).1 = view state
  handleCommit : ∀ now e state, view (S.handleCommit now e state).1 = apply (view state) e

namespace Services.Replicates

variable {T : Type} {view : S.State → T} {apply : T → LogEntry → T}
  (hv : S.Replicates view apply)

include hv

theorem deliver {now : ℚ} {raises : Raises} {k : ℤ} {entries : List LogEntry}
    {state state' : S.State}
    (h : DistributedSystem.deliver now raises k entries state = some state') :
    view state' = entries.foldl apply (view state) := by
  rw [DistributedSystem.deliver_eq h]
  exact (List.foldl_hom view fun st e => (hv.handleCommit now e st).symm).symm

theorem raftStep {now : ℚ} {e : Event S.Frame} (hr : s.cluster.runner e = some i)
    (hs : s.raftStep cfg i now e = some s')
    (h : ∀ j, view (s.state j) =
      (s.cluster.proc j).raft.delivered.foldl apply (view (S.init j))) (j : String) :
    view (s'.state j) = (s'.cluster.proc j).raft.delivered.foldl apply (view (S.init j)) := by
  obtain ⟨c, state, hc, hd, rfl⟩ := raftStep_some hs
  obtain ⟨i', p, hr', hproc, hev, -⟩ := (cfg.transition hc).one_node
  rw [hr, Option.some.injEq] at hr'
  subst hr'
  by_cases hj : j = i
  · subst hj
    obtain ⟨new, hnew⟩ := hev.delivered
    rw [hproc, Function.update_self, ← hnew, List.drop_left] at hd
    show view (Function.update s.state j state j) = _
    rw [Function.update_self, hproc, Function.update_self, ← hnew, List.foldl_append, ← h j]
    exact hv.deliver hd
  · show view (Function.update s.state i state j) = _
    rw [Function.update_of_ne hj, hproc, Function.update_of_ne hj]
    exact h j

/-- Along every run, the view is the result of the entries delivered so far. -/
theorem reach {ok : DistributedSystem S → SystemEvent S → Prop} (hr : Reach cfg ok s) (i : String) :
    view (s.state i) = (s.cluster.proc i).raft.delivered.foldl apply (view (S.init i)) := by
  have hreact : ∀ (s : DistributedSystem S) (i : String) (r : S.State × Outcome S.Frame S.Result),
      view r.1 = view (s.state i) → (∀ j, view (s.state j) =
        (s.cluster.proc j).raft.delivered.foldl apply (view (S.init j))) →
      ∀ j, view ((s.react i r).state j) =
        ((s.react i r).cluster.proc j).raft.delivered.foldl apply (view (S.init j)) := by
    intro s i r hr h j
    rw [react_state, react_cluster]
    by_cases hj : j = i
    · subst hj
      rw [Function.update_self, hr, h]
    · rw [Function.update_of_ne hj, h]
  refine hr.invariant (P := fun s => ∀ i, view (s.state i) =
    (s.cluster.proc i).raft.delivered.foldl apply (view (S.init i))) (fun _ => rfl)
    (fun s ev s' h _ hs => ?_) i
  cases step_cases hs with
  | call i now op r hi hr => exact hreact s i r (hv.start hr) h
  | refused i now raises frame hf hl => exact hreact s i _ (hv.resume ..) h
  | appends i now raises frame s₁ hf hl hp h₁ =>
    have := hv.raftStep rfl h₁ h
    exact this
  | commits i now raises frame s₁ b hf hl hb h₁ =>
    exact hreact s₁ i _ (hv.resume ..) (hv.raftStep rfl h₁ h)
  | returns i now j call s₁ hi hc h₁ => exact hreact s₁ i _ (hv.resume ..) (hv.raftStep rfl h₁ h)
  | raft i now e s₁ hr hi he hret h₁ => exact hv.raftStep hr h₁ h

end Services.Replicates

/-! ## Tests before an append -/

/-- A coroutine that stops at an `append_entry` call has tested the state it leaves. -/
structure Services.Tests (S : Services) (test : S.State → S.Frame → Prop) : Prop where
  start : ∀ {now op state r frame}, S.start now op state = some r → r.2 = .append frame →
    test r.1 frame
  resume : ∀ {now frame a state frame'}, (S.resume now frame a state).2 = .append frame' →
    test (S.resume now frame a state).1 frame'

namespace Services.Tests

variable {test : S.State → S.Frame → Prop}

/-- Every coroutine at an `append_entry` call finds a state that passes its test. -/
def Passed (test : S.State → S.Frame → Prop) (s : DistributedSystem S) : Prop :=
  ∀ i frame, s.running i = some frame → test (s.state i) frame

theorem Passed.react (h : ∀ j ≠ i, ∀ frame, s.running j = some frame → test (s.state j) frame)
    {r : S.State × Outcome S.Frame S.Result} (hr : ∀ frame, r.2 = .append frame → test r.1 frame) :
    Passed test (s.react i r) := by
  intro j frame hf
  rw [react_running] at hf
  rw [react_state]
  by_cases hj : j = i
  · subst hj
    rw [Function.update_self] at hf ⊢
    obtain ⟨state, frame' | _ | result⟩ := r
    · cases hf
      exact hr _ rfl
    · cases hf
    · cases hf
  · rw [Function.update_of_ne hj] at hf ⊢
    exact h j hj frame hf

/-- A step of Raft leaves the other nodes alone. -/
theorem Passed.raftStep {now : ℚ} {e : Event S.Frame} (h : Passed test s)
    (hs : s.raftStep cfg i now e = some s') :
    s'.running = s.running ∧
      ∀ j ≠ i, ∀ frame, s'.running j = some frame → test (s'.state j) frame := by
  obtain ⟨c, state, -, -, rfl⟩ := raftStep_some hs
  refine ⟨rfl, fun j hj frame hf => ?_⟩
  show test (Function.update s.state i state j) frame
  rw [Function.update_of_ne hj]
  exact h j frame hf

theorem reach {ok : DistributedSystem S → SystemEvent S → Prop} (ht : S.Tests test)
    (hr : Reach cfg ok s) : Passed test s := by
  refine hr.invariant (P := Passed test) (fun i frame h => by cases h) fun s ev s' h _ hs => ?_
  cases step_cases hs with
  | call i now op r hi hr => exact Passed.react (fun j _ => h j) fun frame => ht.start hr
  | refused i now raises frame hf hl => exact Passed.react (fun j _ => h j) fun frame => ht.resume
  | appends i now raises frame s₁ hf hl hp h₁ =>
    obtain ⟨-, h'⟩ := h.raftStep h₁
    intro j frame' hf'
    by_cases hj : j = i
    · subst hj
      cases (Function.update_self j none s₁.running).symm.trans hf'
    · exact h' j hj frame' ((Function.update_of_ne hj _ _).symm.trans hf')
  | commits i now raises frame s₁ b hf hl hb h₁ =>
    exact Passed.react (h.raftStep h₁).2 fun frame => ht.resume
  | returns i now j call s₁ hi hc h₁ => exact Passed.react (h.raftStep h₁).2 fun frame => ht.resume
  | raft i now e s₁ hr hi he hret h₁ =>
    obtain ⟨hrun, h'⟩ := h.raftStep h₁
    intro j frame hf
    refine h' j (fun hj => ?_) frame hf
    rw [hrun, hj, hi] at hf
    cases hf

end Services.Tests

end DistributedSync
