import DistributedSync.Library.Runs

/-!
# Tasks under a gather

A task that awaits a gather of coroutines suspends, and the event loop runs the children one step
at a time in any order. `cancel()` on the task that is running only marks it: when it next
suspends, what it waits for is cancelled, and cancelling a gather cancels its unfinished children. A
child that is cancelled before its first step gets the CancelledError at its first line, so its
body never runs.

The rules: a gather that is cancelled as it is built leaves the shared state alone
(`Gather.cancelled`); one that is not runs each child once, and what its steps keep holds of the
shared state and of the results (`Gather.rule`); a gather can always be run to its end
(`Gather.exists_complete`).
-/

namespace Tasks

variable {σ κ ρ : Type*}

/-- A child of a gather: created, with its `_must_cancel` flag, or suspended, or done with a result,
`none` standing for a CancelledError. -/
inductive Child (ρ : Type*) where
  | ready (mustCancel : Bool)
  | suspended
  | done (result : Option ρ)

/-- `cancel()`. A suspended task is woken with the CancelledError, which ends it. -/
def Child.cancel : Child ρ → Child ρ
  | .ready _ => .ready true
  | .suspended => .done none
  | .done result => .done result

/-- The number of steps a child has left. -/
def Child.left : Child ρ → ℕ
  | .ready _ => 2
  | .suspended => 1
  | .done _ => 0

/-- What a child does: `first` up to its await, `resume` from there to its end. -/
structure Program (σ κ ρ : Type*) where
  first : σ → κ → σ
  resume : σ → κ → σ × ρ

/-- A gather: the state its children share, whether its cancellation was requested, and the
children. -/
structure Gather (σ κ ρ : Type*) where
  shared : σ
  cancelRequested : Bool
  children : List (κ × Child ρ)

namespace Gather

variable {P : Program σ κ ρ} {s : σ} {ks : List κ} {g g' : Gather σ κ ρ}

/-- A running task awaits a gather of new coroutines; `mustCancel` says whether `cancel()` was
called on the task since it last suspended. -/
def start (mustCancel : Bool) (s : σ) (ks : List κ) : Gather σ κ ρ where
  shared := s
  cancelRequested := mustCancel
  children := ks.map fun k => (k, if mustCancel then (Child.ready false).cancel else .ready false)

/-- The child at position `i` runs to its next await. -/
def step (P : Program σ κ ρ) (g : Gather σ κ ρ) (i : ℕ) : Option (Gather σ κ ρ) :=
  match g.children[i]? with
  | some (k, .ready true) => some { g with children := g.children.set i (k, .done none) }
  | some (k, .ready false) =>
    some { g with shared := P.first g.shared k, children := g.children.set i (k, .suspended) }
  | some (k, .suspended) =>
    let r := P.resume g.shared k
    some { g with shared := r.1, children := g.children.set i (k, .done (some r.2)) }
  | _ => none

def Complete (g : Gather σ κ ρ) : Prop := ∀ c ∈ g.children, ∃ r, c.2 = .done r

/-- The result of a child with `return_exceptions=True`: `none` is a CancelledError. -/
def result (c : κ × Child ρ) : Option ρ :=
  match c.2 with
  | .done r => r
  | _ => none

/-- What the awaiting task gets from a gather that is complete: the results, or a CancelledError. -/
def outcome (g : Gather σ κ ρ) : Option (List (Option ρ)) :=
  if g.cancelRequested then none else some (g.children.map result)

/-! ## Steps -/

theorem step_cases {i : ℕ} (h : g.step P i = some g') :
    ∃ k, (g.children[i]? = some (k, .ready true) ∧
        g' = { g with children := g.children.set i (k, .done none) }) ∨
      (g.children[i]? = some (k, .ready false) ∧
        g' = { g with
          shared := P.first g.shared k, children := g.children.set i (k, .suspended) }) ∨
      g.children[i]? = some (k, .suspended) ∧
        g' = { g with
          shared := (P.resume g.shared k).1
          children := g.children.set i (k, .done (some (P.resume g.shared k).2)) } := by
  unfold step at h
  split at h
  · next k heq => exact ⟨k, Or.inl ⟨heq, (Option.some.inj h).symm⟩⟩
  · next k heq => exact ⟨k, Or.inr (Or.inl ⟨heq, (Option.some.inj h).symm⟩)⟩
  · next k heq => exact ⟨k, Or.inr (Or.inr ⟨heq, (Option.some.inj h).symm⟩)⟩
  · cases h

theorem map_fst_set {l : List (κ × Child ρ)} {i : ℕ} {k : κ} {c : Child ρ}
    (hget : l[i]? = some (k, c)) (c' : Child ρ) :
    (l.set i (k, c')).map Prod.fst = l.map Prod.fst := by
  rw [List.map_set]
  refine List.ext_getElem? fun j => ?_
  rw [List.getElem?_set]
  split
  · next hij =>
    subst hij
    have hk := congrArg (Option.map Prod.fst) hget
    rw [← List.getElem?_map, Option.map_some] at hk
    rw [hk, if_pos (List.getElem?_eq_some_iff.mp hk).1]
  · rfl

theorem keys (h : Runs.Reach (step P) Runs.Any g g') :
    g'.children.map Prod.fst = g.children.map Prod.fst := by
  refine h.invariant (P := fun g' => g'.children.map Prod.fst = g.children.map Prod.fst) rfl ?_
  rintro t i u ht - hs
  obtain ⟨k, ⟨hget, rfl⟩ | ⟨hget, rfl⟩ | ⟨hget, rfl⟩⟩ := step_cases hs <;>
    rw [← ht] <;> exact map_fst_set hget _

/-! ## What a whole gather does -/

/-- The children of a gather cancelled from the start never run. -/
theorem cancelled (h : Runs.Reach (step P) Runs.Any (start true s ks) g) :
    g.shared = s ∧ g.cancelRequested = true ∧
      ∀ c ∈ g.children, c.2 = .ready true ∨ c.2 = .done none := by
  refine h.invariant (P := fun g => g.shared = s ∧ g.cancelRequested = true ∧
    ∀ c ∈ g.children, c.2 = .ready true ∨ c.2 = .done none) ⟨rfl, rfl, ?_⟩ ?_
  · intro c hc
    obtain ⟨k, -, rfl⟩ := List.mem_map.mp hc
    exact Or.inl rfl
  · rintro t i u ⟨hs, hc, hall⟩ - hstep
    obtain ⟨k, ⟨hget, rfl⟩ | ⟨hget, rfl⟩ | ⟨hget, rfl⟩⟩ := step_cases hstep
    · refine ⟨hs, hc, fun c hmem => ?_⟩
      rcases List.mem_or_eq_of_mem_set hmem with hmem | rfl
      · exact hall c hmem
      · exact Or.inr rfl
    all_goals simpa using hall _ (List.mem_of_getElem? hget)

/-- What the steps of the children keep: `I` of the shared state, `Q` once a child has run its
first step, and `R` of its result. -/
structure Keeps (P : Program σ κ ρ) (I : σ → Prop) (Q : σ → κ → Prop) (R : κ → ρ → Prop) :
    Prop where
  first : ∀ {s k}, I s → I (P.first s k) ∧ Q (P.first s k) k
  resume : ∀ {s k}, I s → I (P.resume s k).1 ∧ R k (P.resume s k).2
  keep : ∀ {s k k'}, Q s k → Q (P.first s k') k ∧ Q (P.resume s k').1 k

/-- How far a child has come. -/
def Reached (Q : σ → κ → Prop) (R : κ → ρ → Prop) (s : σ) (c : κ × Child ρ) : Prop :=
  c.2 = .ready false ∨ Q s c.1 ∧ (c.2 = .suspended ∨ ∃ r, R c.1 r ∧ c.2 = .done (some r))

theorem Reached.imp {Q : σ → κ → Prop} {R : κ → ρ → Prop} {s s' : σ} {c : κ × Child ρ}
    (hQ : Q s c.1 → Q s' c.1) (h : Reached Q R s c) : Reached Q R s' c :=
  Or.imp_right (fun h => ⟨hQ h.1, h.2⟩) h

/-- The children of a gather that is not cancelled keep what their steps keep. -/
theorem rule {I : σ → Prop} {Q : σ → κ → Prop} {R : κ → ρ → Prop} (hP : Keeps P I Q R) (h0 : I s)
    (h : Runs.Reach (step P) Runs.Any (start false s ks) g) :
    I g.shared ∧ g.cancelRequested = false ∧ ∀ c ∈ g.children, Reached Q R g.shared c := by
  refine h.invariant (P := fun g => I g.shared ∧ g.cancelRequested = false ∧
    ∀ c ∈ g.children, Reached Q R g.shared c) ⟨h0, rfl, ?_⟩ ?_
  · intro c hc
    obtain ⟨k, -, rfl⟩ := List.mem_map.mp hc
    exact Or.inl rfl
  · rintro t i u ⟨hI, hc, hall⟩ - hstep
    obtain ⟨k, ⟨hget, rfl⟩ | ⟨hget, rfl⟩ | ⟨hget, rfl⟩⟩ := step_cases hstep
    · have := hall _ (List.mem_of_getElem? hget)
      simp [Reached] at this
    · refine ⟨(hP.first hI).1, hc, fun c hmem => ?_⟩
      rcases List.mem_or_eq_of_mem_set hmem with hmem | rfl
      · exact (hall c hmem).imp fun hQ => (hP.keep hQ).1
      · exact Or.inr ⟨(hP.first hI).2, Or.inl rfl⟩
    · have hk := hall _ (List.mem_of_getElem? hget)
      refine ⟨(hP.resume hI).1, hc, fun c hmem => ?_⟩
      rcases List.mem_or_eq_of_mem_set hmem with hmem | rfl
      · exact (hall c hmem).imp fun hQ => (hP.keep hQ).2
      · have hQ : Q t.shared k := (hk.resolve_left (by simp)).1
        exact Or.inr ⟨(hP.keep hQ).2, Or.inr ⟨_, (hP.resume hI).2, rfl⟩⟩

/-! ## Every gather ends -/

def stepsLeft : List (κ × Child ρ) → ℕ
  | [] => 0
  | c :: l => c.2.left + stepsLeft l

theorem stepsLeft_set_lt {l : List (κ × Child ρ)} {i : ℕ} {k : κ} {c c' : Child ρ}
    (hget : l[i]? = some (k, c)) (hlt : c'.left < c.left) :
    stepsLeft (l.set i (k, c')) < stepsLeft l := by
  induction l generalizing i with
  | nil => simp at hget
  | cons d l ih =>
    cases i with
    | zero =>
      cases hget
      exact Nat.add_lt_add_right hlt _
    | succ i => exact Nat.add_lt_add_left (ih hget) _

theorem stepsLeft_step {i : ℕ} (h : g.step P i = some g') :
    stepsLeft g'.children < stepsLeft g.children := by
  obtain ⟨k, ⟨hget, rfl⟩ | ⟨hget, rfl⟩ | ⟨hget, rfl⟩⟩ := step_cases h <;>
    exact stepsLeft_set_lt hget (by simp [Child.left])

theorem exists_step (hg : ¬ g.Complete) : ∃ i g', g.step P i = some g' := by
  simp only [Complete, not_forall, not_exists] at hg
  obtain ⟨⟨k, c⟩, hc, hnot⟩ := hg
  obtain ⟨i, hi, hget⟩ := List.mem_iff_getElem.mp hc
  refine ⟨i, ?_⟩
  unfold step
  rw [List.getElem?_eq_getElem hi, hget]
  rcases c with (_ | _) | _ | r
  · exact ⟨_, rfl⟩
  · exact ⟨_, rfl⟩
  · exact ⟨_, rfl⟩
  · exact absurd rfl (hnot r)

/-- A gather can be run to its end. -/
theorem exists_complete (P : Program σ κ ρ) (g : Gather σ κ ρ) :
    ∃ g', Runs.Reach (step P) Runs.Any g g' ∧ g'.Complete := by
  obtain ⟨n, hn⟩ : ∃ n, stepsLeft g.children ≤ n := ⟨_, Nat.le_refl _⟩
  induction n generalizing g with
  | zero =>
    by_contra hnot
    obtain ⟨i, g', hs⟩ := exists_step (P := P) fun hg => hnot ⟨g, .refl, hg⟩
    have := stepsLeft_step hs
    omega
  | succ n ih =>
    by_cases hg : g.Complete
    · exact ⟨g, .refl, hg⟩
    · obtain ⟨i, g₁, hs⟩ := exists_step (P := P) hg
      have hlt := stepsLeft_step hs
      obtain ⟨g', h, hc⟩ := ih g₁ (by omega)
      exact ⟨g', (Runs.Reach.refl.tail i trivial hs).trans h, hc⟩

end Gather

end Tasks
