import DistributedSync.Library.CyclePath
import DistributedSync.Services.Deadlock

/-!
# What the detection reports

`detect_cycle` always comes to an end, and returns None exactly if the wait graph has no cycle
(`detectCycle_decides`). What it returns else is its path from the first waiter that leads to a
cycle, and this is a cycle exactly if the search comes back to that waiter (`reportedCycle_iff`).
-/

namespace DistributedSync

open CycleSearch

namespace LockWaitGraph

variable {g : LockWaitGraph} {sets : SetOrder}

theorem detectCycle_eq_none_iff (sets : SetOrder) :
    g.detectCycle sets = none ↔ ∀ v, ¬ Relation.TransGen g.HasEdge v v := by
  show detect sets.order g = none ↔ _
  rcases detect_spec sets.perm g with ⟨hnone, hno⟩ | ⟨cycle, _, v, _, hsome, -, -, hreach, -⟩
  · exact iff_of_true hnone hno
  · obtain ⟨x, -, hcycle⟩ := hreach
    rw [hsome]
    exact iff_of_false (Option.some_ne_none cycle) fun hno => hno x hcycle

/-- For every wait graph and every order in which Python may go through its keys and its sets: the
recursion ends with the result of the model, which is None exactly if there is no cycle. -/
theorem detectCycle_decides (sets : SetOrder) (g : LockWaitGraph) :
    Searches (ordered sets.order g) (g.map Prod.fst) {} (g.detectCycle sets) ∧
      (g.detectCycle sets = none ↔ ∀ v, ¬ Relation.TransGen g.HasEdge v v) :=
  ⟨(detect_traced sets.perm g).1, detectCycle_eq_none_iff sets⟩

/-! ## The reported list -/

/-- The list is a cycle of the graph, and the victim lies on it. -/
structure ReportsCycle (g : LockWaitGraph) (cycle : List Value) : Prop where
  edges : List.IsChain g.HasEdge cycle
  closed : ∃ first rest last, cycle = first :: rest ++ [last] ∧ (last == first) = true ∧
    Distinct (first :: rest)
  victim : ∀ victim ∈ cycle.head?, Relation.TransGen g.HasEdge victim victim

/-- The search comes back to the waiter: it leaves each client for the first one in its set that
leads to a cycle. -/
def ComesBack (sets : SetOrder) (g : LockWaitGraph) (waiter : Value) : Prop :=
  Returns (ordered sets.order g) waiter

theorem first_iff_firstToCycle {v : Value} :
    First (ordered sets.order g) (g.map Prod.fst) v ↔ g.FirstToCycle v := by
  unfold First FirstToCycle ReachesCycle
  rw [edge_ordered sets.perm g]

theorem reportsCycle_iff (sets : SetOrder) {cycle : List Value} :
    g.ReportsCycle cycle ↔ IsCycle (ordered sets.order g) cycle := by
  have hedge : Edge (ordered sets.order g) = g.HasEdge := edge_ordered sets.perm g
  constructor
  · rintro ⟨hedges, hclosed, -⟩
    exact ⟨hedge ▸ hedges, hclosed⟩
  · rintro ⟨hedges, hclosed⟩
    rw [hedge] at hedges
    refine ⟨hedges, hclosed, fun victim hv => ?_⟩
    obtain ⟨first, rest, last, rfl, hlast, -⟩ := hclosed
    obtain rfl : first = victim := by simpa using hv
    have hwalk : Relation.TransGen g.HasEdge first last := transGen_of_chain hedges
    -- the last element equals the first one
    obtain ⟨u, hu, he⟩ := Relation.TransGen.tail'_iff.mp hwalk
    exact .tail' hu (he.congr BEq.rfl hlast)

/-- What `detect_cycle` returns is a cycle exactly if its search comes back to the first waiter that
leads to one. -/
theorem reportedCycle_iff (sets : SetOrder) (g : LockWaitGraph) :
    (∀ cycle, g.detectCycle sets = some cycle → g.ReportsCycle cycle) ↔
      ∀ waiter, g.FirstToCycle waiter → ComesBack sets g waiter := by
  have hnext : Respects (ordered sets.order g) :=
    fun u v huv => congrArg sets.order (respects_successors g u v huv)
  have htrace := (detect_traced sets.perm g).2
  constructor
  · intro h waiter hwaiter
    obtain ⟨cycle, hcycle⟩ : ∃ cycle, g.detectCycle sets = some cycle := by
      obtain ⟨_, _, -, ⟨x, -, hx⟩, -⟩ := hwaiter
      refine Option.ne_none_iff_exists'.mp fun hnone => ?_
      exact (detectCycle_eq_none_iff sets).mp hnone x hx
    obtain ⟨v, way, x, hv, rfl, hclose⟩ := htrace cycle hcycle
    obtain rfl := hv.unique (first_iff_firstToCycle.mpr hwaiter)
    exact (closed_iff_returns hnext hclose).mp ((reportsCycle_iff sets).mp (h _ hcycle))
  · intro h cycle hcycle
    obtain ⟨v, way, x, hv, rfl, hclose⟩ := htrace cycle hcycle
    rw [reportsCycle_iff sets, closed_iff_returns hnext hclose]
    exact h v (first_iff_firstToCycle.mp hv)

/-- Client "A" waits for "B", and "B" and "C" wait for each other. -/
def withTail : LockWaitGraph :=
  [(.str "A", [.str "B"]), (.str "B", [.str "C"]), (.str "C", [.str "B"])]

/-- The reported list begins with "A", which is not on the cycle. -/
theorem reportedCycle_fails : ¬ ∀ (sets : SetOrder) (g : LockWaitGraph) cycle,
    g.detectCycle sets = some cycle → g.ReportsCycle cycle := by
  intro h
  have hcycle : withTail.detectCycle asInserted =
      some [.str "A", .str "B", .str "C", .str "B"] := by decide +kernel
  obtain ⟨first, rest, last, heq, hlast, -⟩ := (h asInserted withTail _ hcycle).closed
  have hfirst : first = .str "A" := by simpa using (congrArg List.head? heq).symm
  have hl := (congrArg List.getLast? heq).trans List.getLast?_concat
  rw [hfirst, ← Option.some.inj hl] at hlast
  exact absurd hlast (by decide)

end LockWaitGraph

end DistributedSync
