import DistributedSync.Core.Values
import DistributedSync.Library.Runs
import Mathlib.Algebra.BigOperators.Group.List.Basic
import Mathlib.Algebra.Order.BigOperators.Group.List
import Mathlib.Tactic.Linarith

/-!
# The load balancer

`AdaptiveLoadBalancer` of `src/src/bonus/features.py`, with rationals for floats. `choose_node` adds
the workload of a request to the load of the chosen node, and `feedback` takes 1 away, whatever the
workload was. So the loads are those of the unanswered choices as long as every answer is for a
workload of 1, or empties a node that has less (`balanced_iff`).
-/

namespace DistributedSync

/-- An item of `node_state`. -/
structure LoadState where
  load : ℚ := 0
  latency : ℚ := 50
  successRate : ℚ := 1
  deriving DecidableEq

/-- An item of `history`. -/
structure Selection where
  timestamp : ℚ
  selected : String
  workload : ℚ

/-- Online adaptive load balancer with latency feedback and scoring. -/
structure AdaptiveLoadBalancer where
  nodes : List String
  nodeState : List (String × LoadState)
  history : List Selection := []
  known : ∀ node ∈ nodes, (nodeState.lookup node).isSome

namespace AdaptiveLoadBalancer

/-- The state that `__init__` gives to every node. -/
def initialState (nodes : List String) : List (String × LoadState) :=
  nodes.foldl (fun d node => setItem d node {}) []

theorem lookup_initialState {nodes : List String} {node : String} :
    (initialState nodes).lookup node = if node ∈ nodes then some {} else none := by
  unfold initialState
  induction nodes using List.reverseRecOn with
  | nil => rfl
  | append_singleton nodes node' ih =>
    rw [List.foldl_append, List.foldl_cons, List.foldl_nil, lookup_setItem, ih]
    by_cases h : node = node' <;> simp [h]

def init (nodes : List String) : AdaptiveLoadBalancer where
  nodes := nodes
  nodeState := initialState nodes
  known node h := by rw [lookup_initialState, if_pos h]; rfl

variable (b : AdaptiveLoadBalancer)

/-- `self.node_state[node]`, where `node` is one of `nodes`. -/
def state (node : String) : LoadState := (b.nodeState.lookup node).getD {}

/-- `_score`. -/
def score (node : String) (predictedLoad : ℚ := 0) : ℚ :=
  let state := b.state node
  let loadComponent := state.load + predictedLoad
  let latencyComponent := state.latency
  let reliabilityComponent := 100 - state.successRate * 100
  loadComponent * (45 / 100) + latencyComponent * (40 / 100) + reliabilityComponent * (15 / 100)

/-- An item of `node_state` is written. -/
def setState (node : String) (state : LoadState) : AdaptiveLoadBalancer where
  nodes := b.nodes
  nodeState := setItem b.nodeState node state
  history := b.history
  known node' h := by
    rw [lookup_setItem]
    split
    · rfl
    · exact b.known node' h

/-- `choose_node`; `none` if there is no node to choose. -/
def chooseNode (now workload : ℚ) (exclude : Option (List String)) :
    Option (String × AdaptiveLoadBalancer) :=
  let candidates := b.nodes.filter fun node => !(exclude.getD []).contains node
  (candidates.minOn? fun node => b.score node workload).map fun selected =>
    let b' := b.setState selected { b.state selected with
      load := (b.state selected).load + workload }
    (selected, { b' with history := b'.history ++ [⟨now, selected, workload⟩] })

/-- `feedback`, and what it returns. -/
def feedback (node : String) (latencyMs : ℚ) (success : Bool) :
    LoadState × AdaptiveLoadBalancer :=
  let successRate : ℚ := if success then 1 else 0
  let state := (b.nodeState.lookup node).getD { latency := latencyMs, successRate }
  let alpha : ℚ := 3 / 10
  let state := {
    load := max 0 (state.load - 1)
    latency := state.latency * (1 - alpha) + latencyMs * alpha
    successRate := state.successRate * (1 - alpha) + successRate * alpha }
  (state, b.setState node state)

end AdaptiveLoadBalancer

/-! ## Choices and their answers -/

/-- A choice that no feedback has answered. -/
structure Choice where
  node : String
  workload : ℚ
  positive : 0 < workload

/-- A balancer and the choices it waits for. -/
structure Balancing where
  balancer : AdaptiveLoadBalancer
  unanswered : List Choice := []

/-- A call of `choose_node`, or the one call of `feedback` that answers a choice. -/
inductive BalancingEvent where
  | choose (now : ℚ) (workload : {w : ℚ // 0 < w}) (exclude : Option (List String))
  | feedback (k : ℕ) (latencyMs : ℚ) (success : Bool)

namespace Balancing

/-- One step. A call that raises changes nothing, and there is no feedback without a choice. -/
def step (s : Balancing) : BalancingEvent → Balancing
  | .choose now workload exclude =>
    match s.balancer.chooseNode now workload exclude with
    | some (node, balancer) =>
      { balancer, unanswered := s.unanswered ++ [⟨node, workload, workload.2⟩] }
    | none => s
  | .feedback k latencyMs success =>
    match s.unanswered[k]? with
    | some choice =>
      { balancer := (s.balancer.feedback choice.node latencyMs success).2
        unanswered := s.unanswered.eraseIdx k }
    | none => s

def run (nodes : List String) (es : List BalancingEvent) : Balancing :=
  es.foldl step { balancer := .init nodes }

/-- The workloads of the choices of a node. -/
def pending (node : String) (choices : List Choice) : ℚ :=
  ((choices.filter fun c => c.node = node).map Choice.workload).sum

/-- Every load is that of the unanswered choices, and 0 when there are none. -/
structure Balanced (s : Balancing) : Prop where
  load : ∀ node state, s.balancer.nodeState.lookup node = some state →
    state.load = pending node s.unanswered
  idle : s.unanswered = [] → ∀ node state, s.balancer.nodeState.lookup node = some state →
    state.load = 0

/-- A feedback answers a workload of 1, or a smaller one that is all the load of its node. -/
def Steady (s : Balancing) : BalancingEvent → Prop
  | .choose _ _ _ => True
  | .feedback k _ _ => ∀ choice ∈ s.unanswered[k]?, choice.workload = 1 ∨
      choice.workload < 1 ∧ ∀ c ∈ s.unanswered.eraseIdx k, c.node ≠ choice.node

/-! ## Pending workloads -/

section Pending

variable {node : String} {choices : List Choice}

theorem pending_concat (c : Choice) : pending node (choices ++ [c]) =
    pending node choices + if c.node = node then c.workload else 0 := by
  unfold pending
  by_cases h : c.node = node <;> simp [h]

theorem pending_eraseIdx {k : ℕ} {c : Choice} (hk : choices[k]? = some c) :
    pending node choices =
      (if c.node = node then c.workload else 0) + pending node (choices.eraseIdx k) := by
  obtain ⟨hlt, rfl⟩ := List.getElem?_eq_some_iff.mp hk
  unfold pending
  rw [← (((List.getElem_cons_eraseIdx_perm hlt).filter _).map Choice.workload).sum_eq]
  by_cases h : choices[k].node = node <;> simp [h]

theorem pending_nonneg : 0 ≤ pending node choices := by
  have hall : ∀ w ∈ (choices.filter fun c => c.node = node).map Choice.workload, 0 ≤ w := by
    intro w hw
    obtain ⟨c, -, rfl⟩ := List.mem_map.mp hw
    exact c.positive.le
  exact List.sum_nonneg hall

theorem pending_eq_zero : pending node choices = 0 ↔ ∀ c ∈ choices, c.node ≠ node := by
  induction choices with
  | nil => simp [pending]
  | cons c choices ih =>
    rw [List.forall_mem_cons, ← ih]
    have hnonneg : 0 ≤ pending node choices := pending_nonneg
    have hpos := c.positive
    by_cases h : c.node = node
    · have hcons : pending node (c :: choices) = c.workload + pending node choices := by
        simp [pending, h]
      refine iff_of_false ?_ fun hc => hc.1 h
      rw [hcons]
      linarith
    · have hcons : pending node (c :: choices) = pending node choices := by simp [pending, h]
      rw [hcons, and_iff_right h]

end Pending

/-! ## Steps -/

variable {s : Balancing}

/-- The chosen nodes have a state. -/
def Tracked (s : Balancing) : Prop :=
  ∀ c ∈ s.unanswered, (s.balancer.nodeState.lookup c.node).isSome

theorem balanced_of_load (h : ∀ node state, s.balancer.nodeState.lookup node = some state →
    state.load = pending node s.unanswered) : s.Balanced := by
  refine ⟨h, fun hidle node state hstate => ?_⟩
  rw [h node state hstate, hidle]
  rfl

theorem step_choose (s : Balancing) (now : ℚ) (workload : {w : ℚ // 0 < w})
    (exclude : Option (List String)) : s.step (.choose now workload exclude) = s ∨
      ∃ (node : String) (state : LoadState) (b : AdaptiveLoadBalancer),
        s.balancer.nodeState.lookup node = some state ∧
        b.nodeState = setItem s.balancer.nodeState node
          { state with load := state.load + workload } ∧
        s.step (.choose now workload exclude) =
          ⟨b, s.unanswered ++ [⟨node, workload, workload.2⟩]⟩ := by
  rcases h : s.balancer.chooseNode now workload exclude with _ | ⟨node, b⟩
  · exact Or.inl (by simp only [step, h])
  · obtain ⟨selected, hselected, heq⟩ := Option.map_eq_some_iff.mp h
    have hmem := (List.mem_filter.mp (List.minOn?_mem hselected)).1
    obtain ⟨state, hstate⟩ := Option.isSome_iff_exists.mp (s.balancer.known _ hmem)
    obtain ⟨rfl, rfl⟩ := Prod.mk.inj heq
    refine Or.inr ⟨_, state, _, hstate, ?_, by simp only [step, h]; rfl⟩
    simp only [AdaptiveLoadBalancer.setState, AdaptiveLoadBalancer.state, hstate, Option.getD_some]

/-- A call of `feedback` takes 1 from the load of a node with a state, if there is so much. -/
theorem feedback_eq {b : AdaptiveLoadBalancer} {node : String} {state : LoadState}
    (h : b.nodeState.lookup node = some state) (latencyMs : ℚ) (success : Bool) :
    ∃ state', (b.feedback node latencyMs success).2.nodeState = setItem b.nodeState node state' ∧
      state'.load = max 0 (state.load - 1) := by
  refine ⟨_, rfl, ?_⟩
  rw [h, Option.getD_some]

theorem isSome_lookup_setItem {d : List (String × LoadState)} {node node' : String}
    {state : LoadState} (h : (d.lookup node').isSome) :
    ((setItem d node state).lookup node').isSome := by
  rw [lookup_setItem]
  split
  · rfl
  · exact h

theorem Tracked.step (h : s.Tracked) (ev : BalancingEvent) : (s.step ev).Tracked := by
  cases ev with
  | choose now workload exclude =>
    rcases step_choose s now workload exclude with heq | ⟨node, state, b, hstate, hb, heq⟩
    · rwa [heq]
    · rw [heq]
      intro c hc
      show (b.nodeState.lookup c.node).isSome
      rw [hb]
      rcases List.mem_append.mp hc with hc | hc
      · exact isSome_lookup_setItem (h c hc)
      · obtain rfl := List.mem_singleton.mp hc
        exact isSome_lookup_setItem (Option.isSome_of_eq_some hstate)
  | feedback k latencyMs success =>
    dsimp only [Balancing.step]
    split
    · intro c hc
      exact isSome_lookup_setItem (h c (List.mem_of_mem_eraseIdx hc))
    · exact h

theorem Balanced.choose (h : s.Balanced) (now : ℚ) (workload : {w : ℚ // 0 < w})
    (exclude : Option (List String)) : (s.step (.choose now workload exclude)).Balanced := by
  rcases step_choose s now workload exclude with heq | ⟨node, state, b, hstate, hb, heq⟩
  · rwa [heq]
  · rw [heq]
    refine balanced_of_load fun node' state' hstate' => ?_
    change b.nodeState.lookup node' = some state' at hstate'
    rw [hb, lookup_setItem] at hstate'
    rw [pending_concat]
    split at hstate'
    · next heq =>
      obtain rfl := eq_of_beq heq
      cases hstate'
      rw [if_pos rfl, ← h.load _ _ hstate]
    · next hne =>
      rw [if_neg fun heq => hne (beq_iff_eq.mpr heq.symm), add_zero]
      exact h.load _ _ hstate'

/-- The clamped decrement takes a workload away exactly if this is 1, or less and all there is. -/
theorem max_sub_one_iff {w rest : ℚ} (hw : 0 < w) (hrest : 0 ≤ rest) :
    max 0 (w + rest - 1) = rest ↔ w = 1 ∨ w < 1 ∧ rest = 0 := by
  constructor
  · intro h
    rcases le_total 0 (w + rest - 1) with hle | hle
    · rw [max_eq_right hle] at h
      exact Or.inl (by linarith)
    · rw [max_eq_left hle] at h
      rcases eq_or_lt_of_le (show w ≤ 1 by linarith) with hw | hw
      · exact Or.inl hw
      · exact Or.inr ⟨hw, h.symm⟩
  · rintro (rfl | ⟨hlt, rfl⟩)
    · rw [add_sub_cancel_left, max_eq_right hrest]
    · exact max_eq_left (by linarith)

theorem balanced_feedback (h : s.Balanced) (ht : s.Tracked) (k : ℕ) (latencyMs : ℚ)
    (success : Bool) : (s.step (.feedback k latencyMs success)).Balanced ↔
      s.Steady (.feedback k latencyMs success) := by
  rcases hk : s.unanswered[k]? with _ | choice
  · simp only [Balancing.step, Steady, hk]
    simpa using h
  · obtain ⟨state, hstate⟩ := Option.isSome_iff_exists.mp (ht choice (List.mem_of_getElem? hk))
    have hload : state.load = choice.workload + pending choice.node (s.unanswered.eraseIdx k) := by
      rw [h.load _ _ hstate, pending_eraseIdx hk, if_pos rfl]
    have hsteady : s.Steady (.feedback k latencyMs success) ↔
        max 0 (state.load - 1) = pending choice.node (s.unanswered.eraseIdx k) := by
      rw [hload, max_sub_one_iff choice.positive pending_nonneg, pending_eq_zero]
      simp only [Steady, hk, Option.mem_def, Option.some.injEq, forall_eq']
    obtain ⟨state', hb, hload'⟩ := feedback_eq hstate latencyMs success
    rw [hsteady, ← hload']
    simp only [Balancing.step, hk]
    constructor
    · intro hbalanced
      refine hbalanced.load choice.node state' ?_
      rw [hb, lookup_setItem, if_pos BEq.rfl]
    · intro hmax
      refine balanced_of_load fun node'' state'' hstate'' => ?_
      rw [hb, lookup_setItem] at hstate''
      split at hstate''
      · next heq =>
        obtain rfl := eq_of_beq heq
        cases hstate''
        exact hmax
      · next hne =>
        rw [h.load _ _ hstate'', pending_eraseIdx hk,
          if_neg fun heq => hne (beq_iff_eq.mpr heq.symm), zero_add]

theorem Tracked.run (nodes : List String) (es : List BalancingEvent) :
    (Balancing.run nodes es).Tracked := by
  unfold Balancing.run
  induction es using List.reverseRecOn with
  | nil => exact fun c hc => by cases hc
  | append_singleton es ev ih =>
    rw [List.foldl_append]
    exact ih.step ev

/-- In a sequence of calls in which every feedback answers a choice, all loads are those of the
unanswered choices at any time exactly if every feedback answers a workload of 1, or a smaller one
that is all the load of its node. -/
theorem balanced_iff (nodes : List String) (es : List BalancingEvent) :
    (∀ es', es' <+: es → (run nodes es').Balanced) ↔
      ∀ es' ev, es' ++ [ev] <+: es → (run nodes es').Steady ev := by
  have hstep : ∀ (s : Balancing) ev, s.Balanced ∧ s.Tracked →
      ((s.step ev).Balanced ∧ (s.step ev).Tracked ↔ s.Steady ev) := by
    rintro s ev ⟨h, ht⟩
    rw [and_iff_left (ht.step ev)]
    cases ev with
    | choose now workload exclude => exact iff_of_true (h.choose now workload exclude) trivial
    | feedback k latencyMs success => exact balanced_feedback h ht k latencyMs success
  have hinit : (run nodes []).Balanced := by
    refine balanced_of_load fun node state hstate => ?_
    change (AdaptiveLoadBalancer.initialState nodes).lookup node = some state at hstate
    rw [AdaptiveLoadBalancer.lookup_initialState] at hstate
    split at hstate
    · cases hstate
      rfl
    · cases hstate
  have h := Runs.invariant_iff step (fun s => s.Balanced ∧ s.Tracked) Steady hstep
    ⟨hinit, Tracked.run nodes []⟩ es
  exact (forall₂_congr fun es' _ => (and_iff_left (Tracked.run nodes es')).symm).trans h

/-- A workload of 2 is answered, and 1 stays for good. -/
theorem balanced_fails : ¬∀ nodes es, (run nodes es).unanswered = [] →
    ∀ es', es' <+: es → (run nodes es').Balanced := by
  intro h
  have hb := h ["a"] [.choose 0 ⟨2, by decide +kernel⟩ none, .feedback 0 50 true]
    (by decide +kernel) _ List.prefix_rfl
  have := hb.load "a" ⟨1, 50, 1⟩ (by decide +kernel)
  revert this
  decide +kernel

end Balancing

end DistributedSync
