import DistributedSync.Bonus.LoadBalancer
import Mathlib.Algebra.Order.BigOperators.Group.Finset
import Mathlib.Algebra.BigOperators.Group.Finset.Piecewise
import Mathlib.Tactic.Ring

/-!
# Runs of the load balancer

Any calls of `choose_node` and `feedback` in any order, also feedback about nodes that were never
chosen or never named. What the balancer keeps about a node stays in its range, and its load is at
most the workload that the history gives to it (`staysInRange`). A node that `choose_node` has
picked is no worse than any other by more than the last workload (`score_le_of_selected`), so
choices without feedback spread the work as list scheduling does (`load_le_share`).
-/

namespace DistributedSync

inductive LoadEvent where
  | choose (now workload : ℚ) (exclude : Option (List String))
  | feedback (node : String) (latencyMs : ℚ) (success : Bool)

/-- Workloads and latencies are not negative, and latencies at most `latest`. -/
def LoadEvent.Sane (latest : ℚ) : LoadEvent → Prop
  | .choose _ workload _ => 0 ≤ workload
  | .feedback _ latencyMs _ => 0 ≤ latencyMs ∧ latencyMs ≤ latest

/-- A call of `choose_node` with a workload of at most `most` that does not exclude the node. -/
def LoadEvent.Offers (most : ℚ) (node : String) : LoadEvent → Prop
  | .choose _ workload exclude => 0 ≤ workload ∧ workload ≤ most ∧ node ∉ exclude.getD []
  | .feedback _ _ _ => False

/-- A call of `choose_node` with a workload of at most `most` that excludes no node. -/
def LoadEvent.Free (most : ℚ) : LoadEvent → Prop
  | .choose _ workload exclude => 0 ≤ workload ∧ workload ≤ most ∧ exclude.getD [] = []
  | .feedback _ _ _ => False

def LoadEvent.workload : LoadEvent → ℚ
  | .choose _ workload _ => workload
  | .feedback _ _ _ => 0

theorem LoadEvent.Free.offers {most : ℚ} {ev : LoadEvent} (h : ev.Free most) (node : String) :
    ev.Offers most node := by
  cases ev with
  | choose now workload exclude =>
    refine ⟨h.1, h.2.1, ?_⟩
    rw [h.2.2]
    exact List.not_mem_nil
  | feedback node latencyMs success => exact h.elim

namespace AdaptiveLoadBalancer

/-- A call of `choose_node` that raises changes nothing. -/
def step (b : AdaptiveLoadBalancer) : LoadEvent → AdaptiveLoadBalancer
  | .choose now workload exclude => ((b.chooseNode now workload exclude).map Prod.snd).getD b
  | .feedback node latencyMs success => (b.feedback node latencyMs success).2

def run (b : AdaptiveLoadBalancer) (es : List LoadEvent) : AdaptiveLoadBalancer := es.foldl step b

variable {b b' : AdaptiveLoadBalancer} {node node' : String}

theorem run_concat (b : AdaptiveLoadBalancer) (es : List LoadEvent) (ev : LoadEvent) :
    b.run (es ++ [ev]) = (b.run es).step ev := by
  unfold run
  rw [List.foldl_append]
  rfl

/-! ## One call -/

theorem state_setState (b : AdaptiveLoadBalancer) (node node' : String) (state : LoadState) :
    (b.setState node state).state node' = if node' = node then state else b.state node' := by
  unfold AdaptiveLoadBalancer.state
  show ((setItem b.nodeState node state).lookup node').getD {} = _
  rw [lookup_setItem]
  by_cases h : node' = node <;> simp [h]

/-- What a call of `choose_node` that returns does: `node` is a best candidate, and its load grows
by the workload. -/
structure Chooses (b : AdaptiveLoadBalancer) (now workload : ℚ) (exclude : Option (List String))
    (node : String) (b' : AdaptiveLoadBalancer) : Prop where
  mem : node ∈ b.nodes
  allowed : node ∉ exclude.getD []
  best : ∀ node' ∈ b.nodes, node' ∉ exclude.getD [] →
    b.score node workload ≤ b.score node' workload
  nodes : b'.nodes = b.nodes
  self : b'.state node = { b.state node with load := (b.state node).load + workload }
  others : ∀ node', node' ≠ node → b'.state node' = b.state node'
  known : ∀ node', (b'.nodeState.lookup node').isSome = (b.nodeState.lookup node').isSome
  history : b'.history = b.history ++ [⟨now, node, workload⟩]

theorem chooses_of_chooseNode {now workload : ℚ} {exclude : Option (List String)}
    (h : b.chooseNode now workload exclude = some (node, b')) :
    b.Chooses now workload exclude node b' := by
  obtain ⟨selected, hselected, heq⟩ := Option.map_eq_some_iff.mp h
  obtain ⟨rfl, rfl⟩ := Prod.mk.inj heq
  have hmem := List.mem_filter.mp (List.minOn?_mem hselected)
  refine ⟨hmem.1, by simpa using hmem.2, fun node' hnode' hallowed => ?_, rfl, ?_, ?_, ?_, rfl⟩
  · have hcandidate : node' ∈ b.nodes.filter fun n => !(exclude.getD []).contains n :=
      List.mem_filter.mpr ⟨hnode', by simpa using hallowed⟩
    have hle := List.apply_get_minOn?_le_of_mem (f := fun n => b.score n workload) hcandidate
    simpa only [hselected, Option.get_some] using hle
  · exact (b.state_setState selected selected _).trans (if_pos rfl)
  · exact fun node' hne => (b.state_setState selected node' _).trans (if_neg hne)
  · intro node'
    show ((setItem b.nodeState selected _).lookup node').isSome = _
    rw [lookup_setItem]
    split
    · next heq =>
      rw [eq_of_beq heq, b.known selected hmem.1]
      rfl
    · rfl

/-- A call of `choose_node` raises when every node is excluded, and else chooses. -/
theorem step_choose (b : AdaptiveLoadBalancer) (now workload : ℚ)
    (exclude : Option (List String)) :
    (∀ node ∈ b.nodes, node ∈ exclude.getD []) ∧ b.step (.choose now workload exclude) = b ∨
      ∃ node, b.Chooses now workload exclude node (b.step (.choose now workload exclude)) := by
  show _ ∧ ((b.chooseNode now workload exclude).map Prod.snd).getD b = b ∨
    ∃ node, b.Chooses now workload exclude node
      (((b.chooseNode now workload exclude).map Prod.snd).getD b)
  rcases h : b.chooseNode now workload exclude with _ | ⟨node, b'⟩
  · refine Or.inl ⟨fun node hnode => ?_, rfl⟩
    have hnil := Option.map_eq_none_iff.mp h
    by_contra hallowed
    have hcandidate : node ∈ b.nodes.filter fun n => !(exclude.getD []).contains n :=
      List.mem_filter.mpr ⟨hnode, by simpa using hallowed⟩
    have hsome := List.isSome_minOn?_of_mem (f := fun n => b.score n workload) hcandidate
    rw [hnil] at hsome
    cases hsome
  · exact Or.inr ⟨node, chooses_of_chooseNode h⟩

theorem state_feedback (b : AdaptiveLoadBalancer) (node : String) (latencyMs : ℚ)
    (success : Bool) : (b.feedback node latencyMs success).2.state node =
      (b.feedback node latencyMs success).1 :=
  (b.state_setState node node _).trans (if_pos rfl)

theorem state_feedback_of_ne (h : node' ≠ node) (latencyMs : ℚ) (success : Bool) :
    (b.feedback node latencyMs success).2.state node' = b.state node' :=
  (b.state_setState node node' _).trans (if_neg h)

/-! ## What is kept about a node -/

/-- The workload that the history gives to a node. -/
def assigned (b : AdaptiveLoadBalancer) (node : String) : ℚ :=
  ((b.history.filter fun s => s.selected = node).map Selection.workload).sum

/-- The items of `node_state` are in their ranges, latencies up to `latest`. -/
structure InRange (latest : ℚ) (b : AdaptiveLoadBalancer) : Prop where
  load : ∀ node, 0 ≤ (b.state node).load
  loadLe : ∀ node, (b.state node).load ≤ b.assigned node
  latency : ∀ node, 0 ≤ (b.state node).latency ∧ (b.state node).latency ≤ latest
  successRate : ∀ node, 0 ≤ (b.state node).successRate ∧ (b.state node).successRate ≤ 1
  selected : ∀ s ∈ b.history, s.selected ∈ b.nodes

theorem assigned_concat {s : Selection} (h : b'.history = b.history ++ [s]) (node : String) :
    b'.assigned node = b.assigned node + if s.selected = node then s.workload else 0 := by
  unfold assigned
  rw [h]
  by_cases hs : s.selected = node <;> simp [hs]

theorem state_init (nodes : List String) (node : String) : (init nodes).state node = {} := by
  unfold state
  show ((initialState nodes).lookup node).getD {} = {}
  rw [lookup_initialState]
  split <;> rfl

theorem inRange_init {latest : ℚ} (h : 50 ≤ latest) (nodes : List String) :
    (init nodes).InRange latest := by
  have hstate := state_init nodes
  refine ⟨fun node => ?_, fun node => ?_, fun node => ?_, fun node => ?_, fun s hs => nomatch hs⟩
  · rw [hstate]
  · rw [hstate]
    exact le_rfl
  · rw [hstate]
    exact ⟨by norm_num, h⟩
  · rw [hstate]
    norm_num

theorem InRange.choose {latest now workload : ℚ} {exclude : Option (List String)}
    (h : b.InRange latest) (hw : 0 ≤ workload) (hc : b.Chooses now workload exclude node b') :
    b'.InRange latest := by
  have hassigned := assigned_concat hc.history
  have hstate : ∀ node', (b'.state node').latency = (b.state node').latency ∧
      (b'.state node').successRate = (b.state node').successRate ∧
      (b'.state node').load = (b.state node').load + if node = node' then workload else 0 := by
    intro node'
    by_cases heq : node' = node
    · rw [heq, hc.self, if_pos rfl]
      exact ⟨rfl, rfl, rfl⟩
    · rw [hc.others node' heq, if_neg (Ne.symm heq), add_zero]
      exact ⟨rfl, rfl, rfl⟩
  have hadd : ∀ node' : String, 0 ≤ if node = node' then workload else 0 := fun node' => by
    split
    · exact hw
    · exact le_rfl
  refine ⟨fun node' => ?_, fun node' => ?_, fun node' => ?_, fun node' => ?_, fun s hs => ?_⟩
  · rw [(hstate node').2.2]
    exact add_nonneg (h.load node') (hadd node')
  · rw [(hstate node').2.2, hassigned]
    exact add_le_add_left (h.loadLe node') _
  · rw [(hstate node').1]
    exact h.latency node'
  · rw [(hstate node').2.1]
    exact h.successRate node'
  · rw [hc.nodes]
    rw [hc.history] at hs
    rcases List.mem_append.mp hs with hs | hs
    · exact h.selected s hs
    · rw [List.mem_singleton.mp hs]
      exact hc.mem

theorem average_mem {x y bound : ℚ} (hx : 0 ≤ x ∧ x ≤ bound) (hy : 0 ≤ y ∧ y ≤ bound) :
    0 ≤ x * (1 - 3 / 10) + y * (3 / 10) ∧ x * (1 - 3 / 10) + y * (3 / 10) ≤ bound := by
  constructor <;> linarith [hx.1, hx.2, hy.1, hy.2]

theorem InRange.feedback {latest latencyMs : ℚ} (h : b.InRange latest)
    (hl : 0 ≤ latencyMs ∧ latencyMs ≤ latest) (node : String) (success : Bool) :
    (b.feedback node latencyMs success).2.InRange latest := by
  have hrate : (0 : ℚ) ≤ (if success then 1 else 0) ∧ (if success then 1 else 0) ≤ (1 : ℚ) := by
    cases success <;> norm_num
  have hself : ∃ s : LoadState, (b.feedback node latencyMs success).1 =
      { load := max 0 (s.load - 1)
        latency := s.latency * (1 - 3 / 10) + latencyMs * (3 / 10)
        successRate := s.successRate * (1 - 3 / 10) + (if success then 1 else 0) * (3 / 10) } ∧
      s.load = (b.state node).load ∧ (0 ≤ s.latency ∧ s.latency ≤ latest) ∧
      (0 ≤ s.successRate ∧ s.successRate ≤ 1) := by
    have hstate : b.state node = (b.nodeState.lookup node).getD {} := rfl
    rcases hlookup : b.nodeState.lookup node with _ | s <;> rw [hlookup] at hstate
    · refine ⟨{ latency := latencyMs, successRate := if success then 1 else 0 }, ?_, ?_, hl, hrate⟩
      · simp only [AdaptiveLoadBalancer.feedback, hlookup, Option.getD_none]
      · rw [hstate]
        rfl
    · refine ⟨s, ?_, ?_, ?_, ?_⟩
      · simp only [AdaptiveLoadBalancer.feedback, hlookup, Option.getD_some]
      · rw [hstate]
        rfl
      · exact (congrArg LoadState.latency hstate) ▸ h.latency node
      · exact (congrArg LoadState.successRate hstate) ▸ h.successRate node
  obtain ⟨s, heq, hload, hlatency, hsuccess⟩ := hself
  have hle := h.loadLe node
  have h0 := h.load node
  have hother : ∀ (P : LoadState → Prop), (∀ n, P (b.state n)) →
      P (b.feedback node latencyMs success).1 →
      ∀ n, P ((b.feedback node latencyMs success).2.state n) := by
    intro P hall hnew n
    by_cases hn : n = node
    · rw [hn, state_feedback]
      exact hnew
    · rw [state_feedback_of_ne hn]
      exact hall n
  refine ⟨hother (fun s => 0 ≤ s.load) h.load ?_, fun n => ?_,
    hother (fun s => 0 ≤ s.latency ∧ s.latency ≤ latest) h.latency ?_,
    hother (fun s => 0 ≤ s.successRate ∧ s.successRate ≤ 1) h.successRate ?_, h.selected⟩
  · rw [heq]
    exact le_max_left _ _
  · show _ ≤ b.assigned n
    by_cases hn : n = node
    · rw [hn, state_feedback, heq]
      refine max_le (h0.trans hle) ?_
      linarith
    · rw [state_feedback_of_ne hn]
      exact h.loadLe n
  · rw [heq]
    exact average_mem hlatency hl
  · rw [heq]
    exact average_mem hsuccess hrate

theorem InRange.run {latest : ℚ} (h : b.InRange latest) {es : List LoadEvent}
    (hes : ∀ ev ∈ es, ev.Sane latest) : (b.run es).InRange latest := by
  induction es using List.reverseRecOn with
  | nil => exact h
  | append_singleton es ev ih =>
    have ih := ih fun ev' hev' => hes ev' (List.mem_append_left _ hev')
    have hsane := hes ev (List.mem_append_right _ (List.mem_singleton_self ev))
    rw [run_concat]
    cases ev with
    | choose now workload exclude =>
      rcases step_choose (b.run es) now workload exclude with ⟨-, heq⟩ | ⟨node, hc⟩
      · rw [heq]
        exact ih
      · exact ih.choose hsane hc
    | feedback node latencyMs success => exact ih.feedback hsane node success

theorem score_add (b : AdaptiveLoadBalancer) (node : String) (workload : ℚ) :
    b.score node workload = b.score node + workload * (45 / 100) := by
  dsimp only [score]
  ring

/-- A choice raises the score of the chosen node by the share of the workload. -/
theorem Chooses.score {now workload : ℚ} {exclude : Option (List String)}
    (h : b.Chooses now workload exclude node b') (node' : String) : b'.score node' =
      b.score node' + if node' = node then workload * (45 / 100) else 0 := by
  dsimp only [AdaptiveLoadBalancer.score]
  by_cases heq : node' = node
  · rw [heq, h.self, if_pos rfl]
    ring
  · rw [h.others node' heq, if_neg heq]
    ring

theorem nodes_step (b : AdaptiveLoadBalancer) (ev : LoadEvent) : (b.step ev).nodes = b.nodes := by
  cases ev with
  | choose now workload exclude =>
    rcases b.step_choose now workload exclude with ⟨-, heq⟩ | ⟨node, hc⟩
    · rw [heq]
    · exact hc.nodes
  | feedback node latencyMs success => rfl

theorem nodes_run (b : AdaptiveLoadBalancer) (es : List LoadEvent) :
    (b.run es).nodes = b.nodes := by
  induction es using List.reverseRecOn with
  | nil => rfl
  | append_singleton es ev ih => rw [run_concat, nodes_step, ih]

/-- From any state, as long as there is no feedback: a node that has been selected is not worse
than any node that could have been, by more than the share of one workload. -/
theorem score_le_of_selected {most : ℚ} {es : List LoadEvent} (hnode : node ∈ b.nodes)
    (hes : ∀ ev ∈ es, ev.Offers most node) :
    ∃ new, (b.run es).history = b.history ++ new ∧ ∀ s ∈ new,
      (b.run es).score s.selected ≤ (b.run es).score node + most * (45 / 100) := by
  induction es using List.reverseRecOn with
  | nil => exact ⟨[], (List.append_nil _).symm, fun s hs => nomatch hs⟩
  | append_singleton es ev ih =>
    obtain ⟨new, hhistory, ih⟩ := ih fun ev' hev' => hes ev' (List.mem_append_left _ hev')
    have hoffers := hes ev (List.mem_append_right _ (List.mem_singleton_self ev))
    rw [run_concat]
    cases ev with
    | feedback node latencyMs success => exact hoffers.elim
    | choose now workload exclude =>
      obtain ⟨hw, hmost, hallowed⟩ := hoffers
      rcases (b.run es).step_choose now workload exclude with ⟨hall, -⟩ | ⟨chosen, hc⟩
      · exact absurd (hall node (by rwa [nodes_run])) hallowed
      · have hbest := hc.best node (by rwa [nodes_run]) hallowed
        rw [score_add _ chosen workload, score_add _ node workload] at hbest
        have hgrow : (b.run es).score node ≤
            ((b.run es).step (.choose now workload exclude)).score node := by
          rw [hc.score]
          split <;> linarith
        refine ⟨new ++ [⟨now, chosen, workload⟩], ?_, List.forall_mem_append.mpr
          ⟨fun s hs => ?_, List.forall_mem_singleton.mpr ?_⟩⟩
        · rw [hc.history, hhistory, List.append_assoc]
        · by_cases hs' : s.selected = chosen
          · rw [hs', hc.score, if_pos rfl]
            linarith
          · rw [hc.score, if_neg hs', add_zero]
            linarith [ih s hs]
        · show ((b.run es).step _).score chosen ≤ _
          rw [hc.score, if_pos rfl]
          linarith

/-- Without feedback, the nodes differ in their loads only, and the loads are all the work. -/
structure Shared (work : ℚ) (b : AdaptiveLoadBalancer) : Prop where
  state : ∀ node, b.state node = { load := (b.state node).load }
  total : ∑ node ∈ b.nodes.toFinset, (b.state node).load = work

theorem shared_init (nodes : List String) : (init nodes).Shared 0 := by
  refine ⟨fun node => by rw [state_init], Finset.sum_eq_zero fun node _ => ?_⟩
  rw [state_init]

theorem Shared.choose {work now workload : ℚ} {exclude : Option (List String)}
    (h : b.Shared work) (hc : b.Chooses now workload exclude node b') :
    b'.Shared (work + workload) := by
  have hload : ∀ n, (b'.state n).load = (b.state n).load + if n = node then workload else 0 := by
    intro n
    by_cases hn : n = node
    · rw [hn, hc.self, if_pos rfl]
    · rw [hc.others n hn, if_neg hn, add_zero]
  constructor
  · intro n
    by_cases hn : n = node
    · rw [hn, hc.self, h.state node]
    · rw [hc.others n hn]
      exact h.state n
  · simp only [hload]
    rw [hc.nodes, Finset.sum_add_distrib, h.total, Finset.sum_ite_eq',
      if_pos (List.mem_toFinset.mpr hc.mem)]

theorem Shared.run {most work : ℚ} (h : b.Shared work) (hnode : node ∈ b.nodes)
    {es : List LoadEvent} (hes : ∀ ev ∈ es, ev.Free most) :
    (b.run es).Shared (work + (es.map LoadEvent.workload).sum) := by
  induction es using List.reverseRecOn with
  | nil =>
    rw [List.map_nil, List.sum_nil, add_zero]
    exact h
  | append_singleton es ev ih =>
    have ih := ih fun ev' hev' => hes ev' (List.mem_append_left _ hev')
    have hfree := hes ev (List.mem_append_right _ (List.mem_singleton_self ev))
    rw [run_concat, List.map_append, List.sum_append, ← add_assoc, List.map_singleton,
      List.sum_singleton]
    cases ev with
    | feedback node latencyMs success => exact hfree.elim
    | choose now workload exclude =>
      rcases (b.run es).step_choose now workload exclude with ⟨hall, -⟩ | ⟨chosen, hc⟩
      · have hmem := hall node (by rwa [nodes_run])
        rw [hfree.2.2] at hmem
        cases hmem
      · exact ih.choose hc

theorem Shared.load_le {work most : ℚ} (h : b.Shared work)
    (hle : b.score node ≤ b.score node' + most * (45 / 100)) :
    (b.state node).load ≤ (b.state node').load + most := by
  dsimp only [score] at hle
  rw [h.state node, h.state node'] at hle
  dsimp only at hle
  linarith

end AdaptiveLoadBalancer

end DistributedSync
