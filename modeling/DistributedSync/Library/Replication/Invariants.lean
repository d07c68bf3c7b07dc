import DistributedSync.Library.Replication.Commitment
import Mathlib.Logic.Relation

/-!
# Invariants of every run

The invariants of the earlier modules, along any number of steps from a `Start`, each under the
rules it needs. `Kept Q` is the invariant for whatever the appended entries are checked for.
-/

namespace Replication

open TermLog World

set_option linter.unusedSectionVars false

variable {N E τ : Type*} [DecidableEq N] [LinearOrder τ] {P : Protocol N E τ}
  {s₀ s s' : World N E τ} {i j : N} {t : τ}

/-- Nothing has happened yet. -/
structure Start (s : World N E τ) : Prop where
  role : ∀ i, (s.member i).role = .follower
  log : ∀ i, (s.member i).log = []
  commit : ∀ i, (s.member i).commit = 0
  ballots : s.ballots = ∅
  votes : s.votes = ∅
  offers : s.offers = ∅
  acks : s.acks = ∅
  won : ∀ t, s.won t = none
  book : ∀ t, s.book t = []

/-- Whatever was sent in `s` or answered is still on record in `s'`. -/
structure World.Extends (s s' : World N E τ) : Prop where
  ballots : s.ballots ⊆ s'.ballots
  votes : s.votes ⊆ s'.votes
  offers : s.offers ⊆ s'.offers
  acks : s.acks ⊆ s'.acks

/-- The property `Q` of logs holds of every log, of a member or in an offer. -/
structure Kept (Q : List E → Prop) (s : World N E τ) : Prop where
  member : ∀ i, Q (s.member i).log
  offer : ∀ a ∈ s.offers, Q a.log

theorem Kept.move {Q : List E → Prop} (h : Kept Q s) (hmat : Matched P s)
    (hadd : ∀ l e, Q l → P.admits l e → Q (l ++ [e])) (hm : Move P s s') : Kept Q s' := by
  have hset : ∀ (i : N) (m : Member N E τ), Q m.log → ∀ j, Q ((s.set i m).member j).log :=
    fun i m hi => forall_set (p := fun _ m => Q m.log) hi (fun k _ => h.member k)
  cases hm with
  | observe i | stand i | stepDown i | win i | commit i | grant i b =>
    exact ⟨hset i _ (h.member i), h.offer⟩
  | canvass i => exact ⟨h.member, h.offer⟩
  | append i e hr ht ha => exact ⟨hset i _ (hadd _ _ (h.member i) ha), h.offer⟩
  | offer i prev hr hp =>
    refine ⟨h.member, fun a ha => ?_⟩
    rcases ha with rfl | ha
    · exact h.member i
    · exact h.offer a ha
  | accept i a ha hle hf hfit =>
    refine ⟨hset i _ ?_, h.offer⟩
    rcases hmat.store_log ha hfit with ⟨_, hl⟩ | ⟨_, hl⟩ <;> rw [hl]
    · exact h.member i
    · exact h.offer a ha

theorem Move.extends (hm : Move P s s') : s.Extends s' := by
  cases hm with
  | canvass => exact ⟨Set.subset_insert _ _, subset_rfl, subset_rfl, subset_rfl⟩
  | grant => exact ⟨subset_rfl, Set.subset_insert _ _, subset_rfl, subset_rfl⟩
  | offer => exact ⟨subset_rfl, subset_rfl, Set.subset_insert _ _, subset_rfl⟩
  | accept => exact ⟨subset_rfl, subset_rfl, subset_rfl, Set.subset_insert _ _⟩
  | _ => exact ⟨subset_rfl, subset_rfl, subset_rfl, subset_rfl⟩

/-- A member that follows nobody has left the term it started in. -/
theorem Move.role_term (hm : Move P s s') {t₀ : τ} (ht₀ : ∀ i, t₀ ≤ (s.member i).term)
    (h : ∀ i, (s.member i).role ≠ .follower → t₀ < (s.member i).term) (i : N) :
    (s'.member i).role ≠ .follower → t₀ < (s'.member i).term := by
  have hset : ∀ (k : N) (m : Member N E τ), (m.role ≠ .follower → t₀ < m.term) →
      ((s.set k m).member i).role ≠ .follower → t₀ < ((s.set k m).member i).term :=
    fun k m hk => forall_set (p := fun _ m => m.role ≠ .follower → t₀ < m.term) hk
      (fun j _ => h j) i
  cases hm with
  | observe k | stepDown k | accept k => exact hset k _ fun hr => absurd rfl hr
  | stand k t ht => exact hset k _ fun _ => (ht₀ k).trans_lt ht
  | win k hr => exact hset k _ fun _ => h k (by simp [hr])
  | grant k | append k | commit k => exact hset k _ (h k)
  | canvass | offer => exact h i

/-! ## Along a run -/

section Run

variable (h0 : Start s₀) (h : Moves P s₀ s)

include h in
theorem Moves.term_le (i : N) : (s₀.member i).term ≤ (s.member i).term := by
  induction h with
  | refl => exact le_rfl
  | tail _ hm ih => exact ih.trans (hm.term_le i)

include h in
theorem Moves.extends : s₀.Extends s := by
  induction h with
  | refl => exact ⟨subset_rfl, subset_rfl, subset_rfl, subset_rfl⟩
  | tail _ hm ih =>
    have h' := hm.extends
    exact ⟨ih.ballots.trans h'.ballots, ih.votes.trans h'.votes, ih.offers.trans h'.offers,
      ih.acks.trans h'.acks⟩

include h0 h

theorem Moves.role_term (t₀ : τ) (ht : ∀ i, t₀ ≤ (s₀.member i).term) (i : N) :
    (s.member i).role ≠ .follower → t₀ < (s.member i).term := by
  induction h generalizing i with
  | refl => exact fun hr => absurd (h0.role i) hr
  | tail hs hm ih => exact hm.role_term (fun j => (ht j).trans (Moves.term_le hs j)) ih i

theorem Moves.elected : Elected P s := by
  induction h with
  | refl => exact .of_start h0.role h0.votes h0.won
  | tail _ hm ih => exact ih.move hm

theorem Moves.matched : Matched P s := by
  induction h with
  | refl => exact .of_start h0.role h0.log h0.ballots h0.offers h0.book
  | tail hs hm ih => exact ih.move (Moves.elected h0 hs) hm

theorem Moves.honest (hf : P.fenced) (he : P.entitled) : Honest P s := by
  induction h with
  | refl => exact .of_start h0.ballots h0.offers h0.acks
  | tail hs hm ih => exact ih.move (Moves.elected h0 hs) (Moves.matched h0 hs) hm hf he

theorem Moves.safe (hf : P.fenced) (he : P.entitled) : Safe P s := by
  induction h with
  | refl => exact .of_start h0.won h0.acks h0.votes
  | tail hs hm ih =>
    exact ih.move (Moves.elected h0 hs) (Moves.matched h0 hs) (Moves.honest h0 hs hf he) hm hf

theorem Moves.committed (hf : P.fenced) (he : P.entitled) (hb : P.backed) : Committed P s := by
  induction h with
  | refl => exact .of_start h0.commit h0.offers
  | tail hs hm ih =>
    exact ih.move (Moves.elected h0 hs) (Moves.matched h0 hs) (Moves.honest h0 hs hf he)
      (Moves.safe h0 hs hf he) hm hf hb

theorem Moves.kept {Q : List E → Prop} (hnil : Q [])
    (hadd : ∀ l e, Q l → P.admits l e → Q (l ++ [e])) : Kept Q s := by
  induction h with
  | refl =>
    refine ⟨fun i => by rwa [h0.log i], fun a ha => ?_⟩
    rw [h0.offers] at ha
    exact ha.elim
  | tail hs hm ih => exact ih.move (Moves.matched h0 hs) hadd hm

theorem Moves.won_mono (hs : Moves P s s') (hw : s.won t = some i) : s'.won t = some i := by
  induction hs with
  | refl => exact hw
  | tail hs hm ih => exact (Moves.elected h0 (h.trans hs)).won_mono hm ih

/-- With all rules in force, a member keeps what it counts as committed. -/
theorem Moves.keep (hf : P.fenced) (he : P.entitled) (hb : P.backed) (hs : Moves P s s') (j : N) :
    (s.member j).commit ≤ (s'.member j).commit ∧
      (s.member j).log.take (s.member j).commit <+: (s'.member j).log := by
  induction hs with
  | refl => exact ⟨le_rfl, List.take_prefix _ _⟩
  | @tail u v hs hm ih =>
    have hu := h.trans hs
    have hc := Moves.committed h0 hu hf he hb
    obtain ⟨hle, hpre⟩ := hc.keep (Moves.matched h0 hu) (Moves.honest h0 hu hf he)
      (Moves.safe h0 hu hf he) hm hf hb j
    refine ⟨ih.1.trans hle, ?_⟩
    -- the part committed at first is inside the part committed now
    have hlen := (Moves.committed h0 h hf he hb).member_le j
    have hin : (s.member j).log.take (s.member j).commit <+:
        (u.member j).log.take (u.member j).commit := by
      refine prefix_of_both ih.2 (List.take_prefix _ _) ?_
      rw [List.length_take, List.length_take, min_eq_left hlen, min_eq_left (hc.member_le j)]
      exact ih.1
    exact hin.trans hpre

/-- With stale offers fenced off, what is settled stays so. -/
theorem Moves.settled (hf : P.fenced) (hs : Moves P s s') {l : List E} {t' : τ}
    (hl : s.Settled P t l) (ht : t ≤ t') : s'.Settled P t' l := by
  induction hs with
  | refl =>
    rcases hl with rfl | ⟨u, n, hu, hc, hp⟩
    · exact Or.inl rfl
    · exact Or.inr ⟨u, n, hu.trans ht, hc, hp⟩
  | tail hs hm ih =>
    have hu := h.trans hs
    exact (hm.grows (Moves.elected h0 hu) (Moves.matched h0 hu) hf).settled ih le_rfl

end Run

end Replication
