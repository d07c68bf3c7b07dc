import DistributedSync.Library.Runs
import Mathlib.Algebra.Order.Group.Multiset
import Mathlib.Data.Multiset.AddSub

/-!
# Total order broadcast

Members submit messages. The service puts them into one order, each at most as often as it was
submitted, and every member delivers this order from its beginning, at its own pace (`step`). So
members never disagree about what comes next, and deliver nothing that was not submitted
(`delivered_le`).

A system with deliveries that only grow, one member at a time, that are prefixes of one another in
every state, and in which every message comes from a submission of its own, is such a service
(`Implements`): each of its runs is matched by one of the service, with the same submissions and
the same deliveries (`Implements.refines`).
-/

namespace Broadcast

open Runs

variable {N M : Type*}

/-! ## The service -/

/-- The messages that were submitted, their order, and how much of it each member has delivered. -/
structure State (N M : Type*) where
  submitted : Multiset M := 0
  order : List M := []
  cursor : N → ℕ := fun _ => 0

/-- A message is submitted, takes its place in the order, or is delivered to a member. -/
inductive Event (N M : Type*) where
  | submit (m : M)
  | order (m : M)
  | deliver (n : N)

/-- What a member has delivered. -/
def State.delivered (b : State N M) (n : N) : List M := b.order.take (b.cursor n)

variable [DecidableEq N]

open Classical in
/-- One step of the service. -/
noncomputable def step (b : State N M) : Event N M → Option (State N M)
  | .submit m => some { b with submitted := b.submitted + {m} }
  | .order m =>
    if ↑(b.order ++ [m]) ≤ b.submitted then some { b with order := b.order ++ [m] } else none
  | .deliver n =>
    if b.cursor n < b.order.length then
      some { b with cursor := Function.update b.cursor n (b.cursor n + 1) }
    else none

variable {b : State N M}

theorem order_le (h : Reach step Any {} b) : ↑b.order ≤ b.submitted := by
  refine h.invariant (P := fun b => ↑b.order ≤ b.submitted) (Multiset.zero_le _) ?_
  intro b e b' hb _ hs
  cases e with
  | submit m =>
    cases hs
    exact hb.trans (Multiset.le_add_right _ _)
  | order m =>
    unfold step at hs
    rw [Option.ite_none_right_eq_some] at hs
    obtain ⟨hle, hs⟩ := hs
    cases hs
    exact hle
  | deliver n =>
    unfold step at hs
    rw [Option.ite_none_right_eq_some] at hs
    obtain ⟨-, hs⟩ := hs
    cases hs
    exact hb

/-- A member delivers a message at most as often as it was submitted. -/
theorem delivered_le (h : Reach step Any {} b) (n : N) : ↑(b.delivered n) ≤ b.submitted :=
  (Multiset.coe_le.mpr (List.take_sublist ..).subperm).trans (order_le h)

/-! ## Several steps -/

theorem reach_submit (b : State N M) (ms : Multiset M) :
    Reach step Any b { b with submitted := b.submitted + ms } := by
  induction ms using Multiset.induction_on with
  | empty =>
    rw [add_zero]
    exact .refl
  | cons m ms ih =>
    refine ih.tail (.submit m) trivial ?_
    rw [step, add_assoc, add_comm ms, Multiset.singleton_add]

theorem reach_order (b : State N M) (ms : List M) (h : ↑(b.order ++ ms) ≤ b.submitted) :
    Reach step Any b { b with order := b.order ++ ms } := by
  induction ms using List.reverseRecOn with
  | nil =>
    rw [List.append_nil]
    exact .refl
  | append_singleton ms m ih =>
    rw [← List.append_assoc] at h ⊢
    have hle : (↑(b.order ++ ms) : Multiset M) ≤ ↑(b.order ++ ms ++ [m]) :=
      Multiset.coe_le.mpr (List.sublist_append_left ..).subperm
    exact (ih (hle.trans h)).tail (.order m) trivial (if_pos h)

theorem step_deliver {n : N} (h : b.cursor n < b.order.length) : step b (.deliver n) =
    some { b with cursor := Function.update b.cursor n (b.cursor n + 1) } := if_pos h

theorem reach_deliver (b : State N M) (n : N) (k : ℕ) (h : b.cursor n + k ≤ b.order.length) :
    Reach step Any b { b with cursor := Function.update b.cursor n (b.cursor n + k) } := by
  induction k with
  | zero =>
    rw [Nat.add_zero, Function.update_eq_self]
    exact .refl
  | succ k ih =>
    have hself : Function.update b.cursor n (b.cursor n + k) n = b.cursor n + k :=
      Function.update_self ..
    refine (ih (by omega)).tail (.deliver n) trivial ((step_deliver ?_).trans ?_) <;> dsimp only <;>
      rw [hself]
    · omega
    · rw [Function.update_idem, Nat.add_assoc]

/-! ## Systems that are such a service -/

/-- The service has the submissions and the deliveries of a system, and has ordered no more than
some member has delivered. -/
structure Matches (b : State N M) (submitted : Multiset M) (delivered : N → List M) : Prop where
  submitted : b.submitted = submitted
  delivered : ∀ n, b.delivered n = delivered n
  cursor_le : ∀ n, b.cursor n ≤ b.order.length
  front : b.order = [] ∨ ∃ n, b.cursor n = b.order.length

namespace Matches

variable {submitted : Multiset M} {delivered : N → List M} {n : N} {new rest : List M}
  (h : Matches b submitted delivered)

include h

omit [DecidableEq N] in
theorem cursor_eq (n : N) : b.cursor n = (delivered n).length := by
  rw [← h.delivered, State.delivered, List.length_take, min_eq_left (h.cursor_le n)]

/-- What a member is about to deliver goes on where the order ends, or is ordered already. -/
theorem comparable
    (hagree : ∀ k ≠ n, delivered k <+: delivered n ++ new ∨ delivered n ++ new <+: delivered k) :
    b.order <+: delivered n ++ new ∨ delivered n ++ new <+: b.order := by
  rcases h.front with hnil | ⟨k, hk⟩
  · exact Or.inl (hnil ▸ List.nil_prefix)
  · have horder : delivered k = b.order := by
      rw [← h.delivered, State.delivered, hk, List.take_length]
    by_cases hkn : k = n
    · exact Or.inl ⟨new, by rw [← horder, hkn]⟩
    · exact horder ▸ hagree k hkn

/-- The order gets longer where the member delivers more than is ordered, and the cursor of the
member moves on. -/
theorem extend (ms : Multiset M) (hpre : delivered n ++ new <+: b.order ++ rest)
    (hrest : rest = [] ∨ b.order ++ rest = delivered n ++ new) :
    Matches { submitted := b.submitted + ms
              order := b.order ++ rest
              cursor := Function.update b.cursor n (b.cursor n + new.length) }
      (submitted + ms) (Function.update delivered n (delivered n ++ new)) := by
  have hn := h.cursor_eq n
  have hlen := hpre.length_le
  rw [List.length_append] at hlen
  constructor
  · exact congrArg (· + ms) h.submitted
  · intro k
    unfold State.delivered
    dsimp only
    by_cases hk : k = n
    · subst hk
      rw [Function.update_self, Function.update_self, hn, ← List.length_append]
      exact (List.prefix_iff_eq_take.mp hpre).symm
    · rw [Function.update_of_ne hk, Function.update_of_ne hk,
        List.take_append_of_le_length (h.cursor_le k), ← h.delivered]
      rfl
  · intro k
    dsimp only
    by_cases hk : k = n
    · subst hk
      rw [Function.update_self]
      omega
    · rw [Function.update_of_ne hk, List.length_append]
      exact (h.cursor_le k).trans (Nat.le_add_right _ _)
  · dsimp only
    rcases hrest with rfl | heq
    · rw [List.append_nil] at hlen ⊢
      refine h.front.imp_right fun ⟨k, hk⟩ => ⟨k, ?_⟩
      by_cases hkn : k = n
      · subst hkn
        rw [Function.update_self]
        omega
      · rw [Function.update_of_ne hkn, hk]
    · refine Or.inr ⟨n, ?_⟩
      rw [Function.update_self, heq, List.length_append, hn]

/-- The service can follow: it takes the submissions, orders what the member delivers beyond all
others, and delivers it. -/
theorem grow (hb : Reach step Any {} b) (ms : Multiset M)
    (hagree : ∀ k ≠ n, delivered k <+: delivered n ++ new ∨ delivered n ++ new <+: delivered k)
    (hle : ↑(delivered n ++ new) ≤ submitted + ms) :
    ∃ b', Reach step Any b b' ∧ Matches b' (submitted + ms)
      (Function.update delivered n (delivered n ++ new)) := by
  obtain ⟨rest, hpre, hsub, hrest⟩ : ∃ rest, delivered n ++ new <+: b.order ++ rest ∧
      ↑(b.order ++ rest) ≤ submitted + ms ∧ (rest = [] ∨ b.order ++ rest = delivered n ++ new) := by
    rcases h.comparable hagree with ⟨rest, heq⟩ | hpre
    · rw [← heq] at hle ⊢
      exact ⟨rest, List.prefix_rfl, hle, Or.inr rfl⟩
    · refine ⟨[], ?_, ?_, Or.inl rfl⟩ <;> rw [List.append_nil]
      · exact hpre
      · exact (h.submitted ▸ order_le hb).trans (Multiset.le_add_right _ _)
  have hlen : b.cursor n + new.length ≤ (b.order ++ rest).length := by
    rw [h.cursor_eq n, ← List.length_append]
    exact hpre.length_le
  have hsubmit := reach_submit b ms
  have horder := reach_order { b with submitted := b.submitted + ms } rest (by rwa [h.submitted])
  have hdeliver := reach_deliver
    { b with submitted := b.submitted + ms, order := b.order ++ rest } n new.length hlen
  exact ⟨_, (hsubmit.trans horder).trans hdeliver, h.extend ms hpre hrest⟩

end Matches

/-- What makes a system a total order broadcast. -/
structure Implements {S E : Type*} (step : S → E → Option S) (ok : S → E → Prop) (s₀ : S)
    (submits : S → E → Multiset M) (delivered : S → N → List M) : Prop where
  init : ∀ n, delivered s₀ n = []
  grows : ∀ s e s', ok s e → step s e = some s' → ∃ n new,
    delivered s' = Function.update (delivered s) n (delivered s n ++ new)
  agree : ∀ s, Reach step ok s₀ s → ∀ n n',
    delivered s n <+: delivered s n' ∨ delivered s n' <+: delivered s n
  submitted : ∀ p, Recorded step ok submits s₀ p → ∀ n, ↑(delivered p.1 n) ≤ p.2

/-- Every run of such a system is matched by one of the service. -/
theorem Implements.refines {S E : Type*} {step : S → E → Option S} {ok : S → E → Prop} {s₀ : S}
    {submits : S → E → Multiset M} {delivered : S → N → List M}
    (h : Implements step ok s₀ submits delivered) {p : S × Multiset M}
    (hr : Recorded step ok submits s₀ p) :
    ∃ b, Reach Broadcast.step Any {} b ∧ Matches b p.2 (delivered p.1) := by
  induction hr with
  | refl => exact ⟨{}, .refl, rfl, fun n => (h.init n).symm, fun _ => le_rfl, Or.inl rfl⟩
  | @tail p q e hr ho hs ih =>
    obtain ⟨b, hb, hmatch⟩ := ih
    have hq : Recorded step ok submits s₀ q := hr.tail e ho hs
    obtain ⟨t, ht, rfl⟩ := record_some hs
    obtain ⟨n, new, hnew⟩ := h.grows _ _ _ ho ht
    have hself : delivered t n = delivered p.1 n ++ new := by
      rw [hnew, Function.update_self]
    have hagree : ∀ k ≠ n, delivered p.1 k <+: delivered p.1 n ++ new ∨
        delivered p.1 n ++ new <+: delivered p.1 k := fun k hk => by
      have hother : delivered t k = delivered p.1 k := by
        rw [hnew, Function.update_of_ne hk]
      rw [← hself, ← hother]
      exact h.agree t hq.reach k n
    have hle : ↑(delivered p.1 n ++ new) ≤ p.2 + submits p.1 e := by
      rw [← hself]
      exact h.submitted _ hq n
    obtain ⟨b', hb', hmatch'⟩ := hmatch.grow hb (submits p.1 e) hagree hle
    rw [← hnew] at hmatch'
    exact ⟨b', hb.trans hb', hmatch'⟩

end Broadcast
