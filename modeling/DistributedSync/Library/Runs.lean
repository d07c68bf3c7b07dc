import Mathlib.Algebra.Notation.Prod
import Mathlib.Data.List.Induction

/-!
# Runs of a partial step function

A system is a step function `S → E → Option S`: `none` when the event cannot happen. `Reach` are
the runs whose steps all satisfy a side condition `ok` on the state before the step and the event.

The rules: an invariant is checked on one step (`Reach.invariant`); a history variable that the
system does not store is carried along a run (`Reach.simulate`), and so is a relation to the states
of another system (`Reach.follow`), whose steps are compared part by part (`rel_bind`, `rel_map`);
what the steps emit is added up beside the state (`Recorded`); a list of events that evaluates is a
run (`exists_of_runList`, `exists_of_forall`, `exists_of_checked`); along a list of events of a
total step function, an invariant and the condition that keeps it are the same (`invariant_iff`).
`CanReach` says that some run leads on to a property: runs are put together (`CanReach.bind`), go
down a measure (`CanReach.descend`), or deal with the items of a list one by one (`CanReach.each`).
-/

namespace Runs

variable {S E : Type*} {step : S → E → Option S} {ok ok' : S → E → Prop} {s t u : S}

/-- `Reach step ok s t`: a run leads from `s` to `t`, each of its steps satisfying `ok`. -/
inductive Reach (step : S → E → Option S) (ok : S → E → Prop) (s : S) : S → Prop
  | refl : Reach step ok s s
  | tail {t u : S} (e : E) : Reach step ok s t → ok t e → step t e = some u → Reach step ok s u

abbrev Any : S → E → Prop := fun _ _ => True

theorem Reach.trans (h : Reach step ok s t) (h' : Reach step ok t u) : Reach step ok s u := by
  induction h' with
  | refl => exact h
  | tail e _ ho hs ih => exact ih.tail e ho hs

theorem Reach.mono (hok : ∀ t e, ok t e → ok' t e) (h : Reach step ok s t) :
    Reach step ok' s t := by
  induction h with
  | refl => exact .refl
  | tail e _ ho hs ih => exact ih.tail e (hok _ _ ho) hs

/-- A property kept by every step holds along the run. -/
theorem Reach.invariant {P : S → Prop} (h0 : P s)
    (hstep : ∀ t e u, P t → ok t e → step t e = some u → P u)
    (h : Reach step ok s t) : P t := by
  induction h with
  | refl => exact h0
  | tail e _ ho hs ih => exact hstep _ _ _ ih ho hs

/-- A relation between states and histories that every step can follow, the history only growing,
holds along the run for some grown history. -/
theorem Reach.simulate {H : Type*} (R : S → H → Prop) (le : H → H → Prop) (h₀ : H)
    (hrefl : ∀ h, le h h) (htrans : ∀ h₁ h₂ h₃, le h₁ h₂ → le h₂ h₃ → le h₁ h₃)
    (hstep : ∀ t e u h, R t h → ok t e → step t e = some u → ∃ h', le h h' ∧ R u h')
    (h0 : R s h₀) (h : Reach step ok s t) : ∃ h, le h₀ h ∧ R t h := by
  induction h with
  | refl => exact ⟨h₀, hrefl _, h0⟩
  | tail e _ ho hs ih =>
    obtain ⟨h₁, hle, hR⟩ := ih
    obtain ⟨h₂, hle', hR'⟩ := hstep _ _ _ _ hR ho hs
    exact ⟨h₂, htrans _ _ _ hle hle', hR'⟩

/-- A system that can follow every step of another reaches what the other reaches, up to a relation
between their states. -/
theorem Reach.follow {S' E' : Type*} {step' : S' → E' → Option S'} {ok' : S' → E' → Prop} {s' : S'}
    (R : S → S' → Prop) (h0 : R s s')
    (hstep : ∀ t t' e u, Reach step' ok' s' t' → R t t' → ok t e → step t e = some u →
      ∃ e' u', ok' t' e' ∧ step' t' e' = some u' ∧ R u u')
    (h : Reach step ok s t) : ∃ t', Reach step' ok' s' t' ∧ R t t' := by
  induction h with
  | refl => exact ⟨s', .refl, h0⟩
  | tail e _ ho hs ih =>
    obtain ⟨t', ht', hR⟩ := ih
    obtain ⟨e', u', ho', hs', hR'⟩ := hstep _ _ _ _ ht' hR ho hs
    exact ⟨u', ht'.tail e' ho' hs', hR'⟩

/-! ## Related results -/

theorem rel_bind {α β γ δ : Type*} {R : α → β → Prop} {R' : γ → δ → Prop} {a : Option α}
    {b : Option β} {f : α → Option γ} {g : β → Option δ} (h : Option.Rel R a b)
    (hfg : ∀ x y, R x y → Option.Rel R' (f x) (g y)) : Option.Rel R' (a.bind f) (b.bind g) := by
  cases h with
  | some h => exact hfg _ _ h
  | none => exact .none

theorem rel_map {α β γ δ : Type*} {R : α → β → Prop} {R' : γ → δ → Prop} {a : Option α}
    {b : Option β} {f : α → γ} {g : β → δ} (h : Option.Rel R a b)
    (hfg : ∀ x y, R x y → R' (f x) (g y)) : Option.Rel R' (a.map f) (b.map g) := by
  cases h with
  | some h => exact .some (hfg _ _ h)
  | none => exact .none

theorem rel_self {α : Type*} (a : Option α) : Option.Rel Eq a a := by
  cases a with
  | some a => exact .some rfl
  | none => exact .none

/-! ## Recorded runs -/

section Record

variable {H H' : Type*} [Add H] [Add H'] {emit : S → E → H}

/-- The steps, with what they emit added up beside the state. -/
def record (step : S → E → Option S) (emit : S → E → H) (p : S × H) (e : E) : Option (S × H) :=
  (step p.1 e).map fun t => (t, p.2 + emit p.1 e)

theorem record_some {p q : S × H} {e : E} (h : record step emit p e = some q) :
    ∃ t, step p.1 e = some t ∧ q = (t, p.2 + emit p.1 e) := by
  obtain ⟨t, ht, rfl⟩ := Option.map_eq_some_iff.mp h
  exact ⟨t, ht, rfl⟩

variable [Zero H] [Zero H']

/-- The states that runs from `s` reach, with what their steps have emitted. -/
abbrev Recorded (step : S → E → Option S) (ok : S → E → Prop) (emit : S → E → H) (s : S) :
    S × H → Prop :=
  Reach (record step emit) (fun p e => ok p.1 e) (s, 0)

theorem Recorded.reach {p : S × H} (h : Recorded step ok emit s p) : Reach step ok s p.1 := by
  induction h with
  | refl => exact .refl
  | tail e _ ho hs ih =>
    obtain ⟨t, ht, rfl⟩ := record_some hs
    exact ih.tail e ho ht

/-- Something else can be recorded too. -/
theorem Recorded.also {p : S × H} (h : Recorded step ok emit s p) (emit' : S → E → H') :
    ∃ b, Recorded step ok (fun s e => (emit s e, emit' s e)) s (p.1, (p.2, b)) := by
  induction h with
  | refl => exact ⟨0, .refl⟩
  | tail e _ ho hs ih =>
    obtain ⟨b, hb⟩ := ih
    obtain ⟨t, ht, rfl⟩ := record_some hs
    exact ⟨b + emit' _ e, hb.tail e ho (by rw [record, ht]; rfl)⟩

end Record

/-! ## Lists of events -/

def runList (step : S → E → Option S) : S → List E → Option S
  | s, [] => some s
  | s, e :: es => (step s e).bind fun t => runList step t es

/-- The step function, restricted to the steps that satisfy `ok`. -/
def checked (step : S → E → Option S) (ok : S → E → Prop) [∀ s e, Decidable (ok s e)] (s : S)
    (e : E) : Option S :=
  if ok s e then step s e else none

/-- A list of events that are all in order in any state is a run. -/
theorem Reach.of_forall {es : List E} (hes : ∀ e ∈ es, ∀ t, ok t e)
    (h : runList step s es = some t) : Reach step ok s t := by
  have key : ∀ (es : List E) (u : S), (∀ e ∈ es, ∀ t, ok t e) → Reach step ok s u →
      runList step u es = some t → Reach step ok s t := by
    intro es
    induction es with
    | nil =>
      intro u _ hu h
      cases h
      exact hu
    | cons e es ih =>
      intro u hes hu h
      obtain ⟨v, hv, h⟩ := Option.bind_eq_some_iff.mp h
      exact ih v (fun e' he' => hes e' (List.mem_cons_of_mem e he'))
        (hu.tail e (hes e List.mem_cons_self u) hv) h
  exact key es s hes .refl h

theorem Reach.of_runList {es : List E} (h : runList step s es = some t) :
    Reach step Any s t :=
  .of_forall (fun _ _ _ => trivial) h

/-- A run of the restricted step function is a run whose steps satisfy `ok`. -/
theorem Reach.of_checked [∀ s e, Decidable (ok s e)] (h : Reach (checked step ok) Any s t) :
    Reach step ok s t := by
  induction h with
  | refl => exact .refl
  | tail e _ _ hs ih =>
    unfold checked at hs
    split at hs
    · next ho => exact ih.tail e ho hs
    · cases hs

/-- A list of events that evaluates to a state with the property `p` is a run to such a state. -/
theorem exists_of_runList (step : S → E → Option S) (s : S) (es : List E) (p : S → Prop)
    [DecidablePred p] (h : (runList step s es).any (fun t => p t) = true) :
    ∃ t, Reach step Any s t ∧ p t := by
  obtain ⟨t, ht, hp⟩ := (Option.any_eq_true _ _).mp h
  exact ⟨t, .of_runList ht, of_decide_eq_true hp⟩

/-- The same with events that are all in order. -/
theorem exists_of_forall (step : S → E → Option S) (ok : S → E → Prop) (s : S) (es : List E)
    (p : S → Prop) [DecidablePred p] (hes : ∀ e ∈ es, ∀ t, ok t e)
    (h : (runList step s es).any (fun t => p t) = true) : ∃ t, Reach step ok s t ∧ p t := by
  obtain ⟨t, ht, hp⟩ := (Option.any_eq_true _ _).mp h
  exact ⟨t, .of_forall hes ht, of_decide_eq_true hp⟩

/-- The same with steps that satisfy `ok`. -/
theorem exists_of_checked (step : S → E → Option S) (ok : S → E → Prop)
    [∀ s e, Decidable (ok s e)] (s : S) (es : List E) (p : S → Prop) [DecidablePred p]
    (h : (runList (checked step ok) s es).any (fun t => p t) = true) :
    ∃ t, Reach step ok s t ∧ p t := by
  obtain ⟨t, ht, hp⟩ := exists_of_runList _ s es p h
  exact ⟨t, ht.of_checked, hp⟩

/-! ## What can still happen -/

section CanReach

variable {P Q : S → Prop}

/-- Some run of steps that satisfy `ok` leads from `s` to a state with the property. -/
def CanReach (step : S → E → Option S) (ok : S → E → Prop) (s : S) (P : S → Prop) : Prop :=
  ∃ t, Reach step ok s t ∧ P t

theorem CanReach.here (h : P s) : CanReach step ok s P := ⟨s, .refl, h⟩

theorem CanReach.imp (h : CanReach step ok s P) (hPQ : ∀ t, Reach step ok s t → P t → Q t) :
    CanReach step ok s Q := by
  obtain ⟨t, ht, hp⟩ := h
  exact ⟨t, ht, hPQ t ht hp⟩

theorem CanReach.bind (h : CanReach step ok s P)
    (hPQ : ∀ t, Reach step ok s t → P t → CanReach step ok t Q) : CanReach step ok s Q := by
  obtain ⟨t, ht, hp⟩ := h
  obtain ⟨u, hu, hq⟩ := hPQ t ht hp
  exact ⟨u, ht.trans hu, hq⟩

theorem CanReach.of_step (e : E) (ho : ok s e) (hs : step s e = some t)
    (h : CanReach step ok t P) : CanReach step ok s P := by
  obtain ⟨u, hu, hp⟩ := h
  exact ⟨u, (Reach.refl.tail e ho hs).trans hu, hp⟩

/-- As long as the goal is not reached, the measure can be made smaller. -/
theorem CanReach.descend (m : S → ℕ) (hp : P s)
    (h : ∀ t, Reach step ok s t → P t → Q t ∨ CanReach step ok t fun u => P u ∧ m u < m t) :
    CanReach step ok s fun t => P t ∧ Q t := by
  have key : ∀ n t, Reach step ok s t → P t → m t ≤ n →
      CanReach step ok t fun t => P t ∧ Q t := by
    intro n
    induction n with
    | zero =>
      intro t ht hp hm
      rcases h t ht hp with hq | ⟨u, -, -, hlt⟩
      · exact .here ⟨hp, hq⟩
      · omega
    | succ n ih =>
      intro t ht hp hm
      rcases h t ht hp with hq | hless
      · exact .here ⟨hp, hq⟩
      · exact hless.bind fun u hu hpu => ih u (ht.trans hu) hpu.1 (by omega)
  exact key _ s .refl hp (Nat.le_refl _)

/-- The items of a list are dealt with from left to right. -/
theorem CanReach.each {α : Type*} {I : List α → List α → S → Prop} {l : List α}
    (h : ∀ done a rest t, done ++ a :: rest = l → Reach step ok s t → I done (a :: rest) t →
      CanReach step ok t (I (done ++ [a]) rest)) (h0 : I [] l s) :
    CanReach step ok s (I l []) := by
  have key : ∀ rest done t, done ++ rest = l → Reach step ok s t → I done rest t →
      CanReach step ok t (I l []) := by
    intro rest
    induction rest with
    | nil =>
      intro done t hl _ hI
      rw [List.append_nil] at hl
      exact .here (hl ▸ hI)
    | cons a rest ih =>
      intro done t hl ht hI
      exact (h done a rest t hl ht hI).bind fun u hu hIu =>
        ih (done ++ [a]) u (by rw [List.append_assoc]; exact hl) (ht.trans hu) hIu
  exact key l [] s rfl .refl h0

end CanReach

/-! ## Total step functions -/

/-- An invariant that a step keeps exactly if it satisfies `ok` holds along a list of events exactly
if all its steps satisfy `ok`. -/
theorem invariant_iff (f : S → E → S) (P : S → Prop) (ok : S → E → Prop)
    (hstep : ∀ s e, P s → (P (f s e) ↔ ok s e)) (h0 : P s) (es : List E) :
    (∀ es', es' <+: es → P (es'.foldl f s)) ↔
      ∀ es' e, es' ++ [e] <+: es → ok (es'.foldl f s) e := by
  constructor
  · intro h es' e hp
    have := h _ hp
    rw [List.foldl_append] at this
    exact (hstep _ e (h es' ((List.prefix_append es' [e]).trans hp))).mp this
  · intro h es' hp
    induction es' using List.reverseRecOn with
    | nil => exact h0
    | append_singleton es' e ih =>
      rw [List.foldl_append]
      exact (hstep _ e (ih ((List.prefix_append es' [e]).trans hp))).mpr (h es' e hp)

end Runs
