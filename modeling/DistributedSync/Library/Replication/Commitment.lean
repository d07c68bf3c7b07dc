import DistributedSync.Library.Replication.Safety

/-!
# Commitment

A position is *chosen* when a majority has stored it in the term of its entry. Later winners have
it (`Safe.chosen_later`), so chosen prefixes of any two books are comparable. `Committed`: what a
member or an offer counts as committed is part of a chosen prefix. With all rules in force, no
step takes a committed entry away (`Committed.keep`), and the committed parts of two logs are
comparable (`Committed.comparable`).

`All` is the induction rule for what the appended entries are checked for.
-/

namespace Replication

open Quorum TermLog World

set_option linter.unusedSectionVars false

variable {N E τ : Type*} [DecidableEq N] [LinearOrder τ] {P : Protocol N E τ}
  {s s' : World N E τ} {i j : N} {t t' : τ} {n n' : ℕ} {l l' : List E}

/-- A majority has stored position `n` of the book of `t`, an entry of term `t`. -/
def World.Chosen (P : Protocol N E τ) (s : World N E τ) (t : τ) (n : ℕ) : Prop :=
  n < (s.book t).length ∧ s.Own P t n ∧ ∃ Q, Majority P.members Q ∧ ∀ j ∈ Q, s.Stored j t n

/-- `l` is part of a prefix chosen by term `t`. -/
def World.Settled (P : Protocol N E τ) (s : World N E τ) (t : τ) (l : List E) : Prop :=
  l = [] ∨ ∃ t' n, t' ≤ t ∧ s.Chosen P t' n ∧ l <+: (s.book t').take (n + 1)

/-! ## Chosen positions -/

theorem World.Chosen.not_closed (hc : s.Chosen P t n) : ¬ s.Closed P t n := by
  rintro ⟨Q, hQ, hclosed⟩
  obtain ⟨_, _, Q', hQ', hstored⟩ := hc
  obtain ⟨v, hv, hv'⟩ := hQ.exists_mem hQ'
  exact (hclosed v hv).2 (hstored v hv')

/-- The winner of a later term has every chosen prefix. -/
theorem Safe.chosen_later (h : Safe P s) (hc : s.Chosen P t n) (hw : s.won t' = some i)
    (ht : t ≤ t') : (s.book t).take (n + 1) <+: s.book t' := by
  rcases ht.lt_or_eq with hlt | rfl
  · exact ((h.later t t' i n hw hlt hc.2.1).resolve_right hc.not_closed).2
  · exact List.take_prefix _ _

theorem Matched.chosen_won (h : Matched P s) (hc : s.Chosen P t n) : ∃ i, s.won t = some i := by
  rcases hw : s.won t with _ | i
  · have hlen := hc.1
    rw [h.book_blank t hw] at hlen
    exact absurd hlen (Nat.not_lt_zero n)
  · exact ⟨i, rfl⟩

/-- A settled log lies in the book of every winner from its term on. -/
theorem Safe.settled_book (h : Safe P s) (hl : s.Settled P t l) (hw : s.won t' = some i)
    (ht : t ≤ t') : l <+: s.book t' := by
  rcases hl with rfl | ⟨u, n, hu, hc, hp⟩
  · exact List.nil_prefix
  · exact hp.trans (h.chosen_later hc hw (hu.trans ht))

theorem Safe.settled_comparable (h : Safe P s) (hmat : Matched P s) (hl : s.Settled P t l)
    (hl' : s.Settled P t' l') : l <+: l' ∨ l' <+: l := by
  rcases hl with rfl | ⟨u, n, -, hc, hp⟩
  · exact Or.inl List.nil_prefix
  rcases hl' with rfl | ⟨u', n', -, hc', hp'⟩
  · exact Or.inr List.nil_prefix
  obtain ⟨i, hi⟩ := hmat.chosen_won hc
  obtain ⟨i', hi'⟩ := hmat.chosen_won hc'
  rcases le_total u u' with hle | hle
  · exact List.prefix_or_prefix_of_prefix (hp.trans (h.chosen_later hc hi' hle))
      (hp'.trans (List.take_prefix _ _))
  · exact List.prefix_or_prefix_of_prefix (hp.trans (List.take_prefix _ _))
      (hp'.trans (h.chosen_later hc' hi hle))

theorem Grows.chosen (g : Grows s s') (hc : s.Chosen P t n) : s'.Chosen P t n := by
  obtain ⟨hlen, hown, Q, hQ, hq⟩ := hc
  refine ⟨hlen.trans_le (g.book t).length_le, fun e he => hown e ?_, Q, hQ, fun j hj =>
    g.stored (hq j hj)⟩
  rw [List.getElem?_eq_getElem hlen]
  rw [← he]
  exact (prefix_getElem? (g.book t) (List.getElem?_eq_getElem hlen)).symm

theorem Grows.settled (g : Grows s s') (hl : s.Settled P t l) (ht : t ≤ t') :
    s'.Settled P t' l := by
  rcases hl with rfl | ⟨u, n, hu, hc, hp⟩
  · exact Or.inl rfl
  · refine Or.inr ⟨u, n, hu.trans ht, g.chosen hc, ?_⟩
    rwa [g.take_eq hc.1]

/-! ## Committed entries -/

/-- What is counted as committed is there, and settled. -/
structure Committed (P : Protocol N E τ) (s : World N E τ) : Prop where
  member_le : ∀ i, (s.member i).commit ≤ (s.member i).log.length
  member : ∀ i, s.Settled P (s.member i).term ((s.member i).log.take (s.member i).commit)
  offer_le : ∀ a ∈ s.offers, a.commit ≤ a.log.length
  offer : ∀ a ∈ s.offers, s.Settled P a.term (a.log.take a.commit)

theorem Committed.of_start (hc : ∀ i, (s.member i).commit = 0) (ho : s.offers = ∅) :
    Committed P s where
  member_le i := by simp [hc]
  member i := Or.inl (by simp [hc])
  offer_le a h := by simp [ho] at h
  offer a h := by simp [ho] at h

theorem Committed.comparable (h : Committed P s) (hsafe : Safe P s) (hmat : Matched P s)
    (i j : N) :
    (s.member i).log.take (s.member i).commit <+: (s.member j).log.take (s.member j).commit ∨
      (s.member j).log.take (s.member j).commit <+: (s.member i).log.take (s.member i).commit :=
  hsafe.settled_comparable hmat (h.member i) (h.member j)

section Preservation

variable (h : Committed P s) (he : Elected P s) (hmat : Matched P s) (hh : Honest P s)
  (hsafe : Safe P s)

include h hmat hh hsafe in
/-- An offer of the member's own term leaves the committed part of its log alone. -/
theorem Committed.store_keep {a : Offer N E τ} (ha : a ∈ s.offers)
    (ht : a.term = (s.member j).term) (hfit : Fits P a (s.member j).log) :
    (s.member j).log.take (s.member j).commit <+: (store P (s.member j) a).log := by
  obtain ⟨⟨i, hi⟩, hbook⟩ := hh.offer_book a ha
  exact prefix_overlay (hsafe.settled_book (h.member j) hi ht.ge) hbook (List.take_prefix _ _)
    (hmat.store_log ha hfit)

include h hmat in
theorem Committed.store_commit {a : Offer N E τ} (ha : a ∈ s.offers)
    (hfit : Fits P a (s.member j).log) :
    (store P (s.member j) a).commit = max (s.member j).commit a.commit := by
  have hlen := (hmat.store_prefix ha hfit).length_le
  have hle := h.offer_le a ha
  show (if (s.member j).commit < a.commit then min a.commit (store P (s.member j) a).log.length
    else (s.member j).commit) = _
  split <;> omega

include h hmat hh hsafe in
/-- No step lowers a commit number or takes a committed entry away. -/
theorem Committed.keep (hm : Move P s s') (hf : P.fenced) (hb : P.backed) (j : N) :
    (s.member j).commit ≤ (s'.member j).commit ∧
      (s.member j).log.take (s.member j).commit <+: (s'.member j).log := by
  refine ⟨?_, ?_⟩
  · cases hm with
    | accept i a ha hle hf' hfit =>
      refine forall_set (p := fun k m => (s.member k).commit ≤ m.commit) ?_ (fun _ _ => le_rfl) j
      rw [h.store_commit hmat ha hfit]
      exact le_max_left _ _
    | commit i n e hr hn ht hc hb' =>
      exact forall_set (p := fun k m => (s.member k).commit ≤ m.commit)
        (Nat.le_succ_of_le (hc hb)) (fun _ _ => le_rfl) j
    | canvass i | offer i => exact le_rfl
    | observe i | stand i | stepDown i | win i | append i | grant i b =>
      refine forall_set (p := fun k m => (s.member k).commit ≤ m.commit) ?_
        (fun _ _ => le_rfl) j
      exact le_rfl
  · rcases hm.log_cases j with hl | ⟨a, ha, hf', hfit, hst⟩
    · exact (List.take_prefix _ _).trans hl
    · rw [hst]
      exact h.store_keep hmat hh hsafe ha (hf' hf) hfit

include he hmat in
theorem Matched.commit_chosen (hr : (s.member i).role = .leader) {e : E}
    (hn : (s.member i).log[n]? = some e) (ht : P.term e = (s.member i).term)
    (hq : ∃ Q, Majority P.members Q ∧ ∀ j ∈ Q, j = i ∨ s.Acked j (s.member i).term n) :
    s.Chosen P (s.member i).term n := by
  have hbook := hmat.leader_book i hr
  have hlen : n < (s.book (s.member i).term).length := by
    rw [hbook]
    exact (List.getElem?_eq_some_iff.mp hn).1
  obtain ⟨Q, hQ, hq⟩ := hq
  refine ⟨hlen, fun e' he' => ?_, Q, hQ, fun j hj => ?_⟩
  · rw [hbook, hn, Option.some.injEq] at he'
    rw [← he', ht]
  · rcases hq j hj with rfl | hack
    · exact Or.inr ⟨he.leader_won j hr, hlen⟩
    · exact Or.inl hack

include h he hmat hh hsafe in
theorem Committed.move (hm : Move P s s') (hf : P.fenced) (hb : P.backed) : Committed P s' := by
  have g := hm.grows he hmat hf
  -- a step that leaves a log's committed part and its commit number alone
  have hkeep : ∀ {i : N} {m : Member N E τ}, (s.member i).commit = m.commit →
      (s.member i).log <+: m.log → (s.member i).term ≤ m.term → m.commit ≤ m.log.length ∧
      s'.Settled P m.term (m.log.take m.commit) := by
    intro i m hc hl ht
    have hle := h.member_le i
    refine ⟨hc ▸ hle.trans hl.length_le, ?_⟩
    rw [← hc, ← prefix_take hl hle]
    exact g.settled (h.member i) ht
  have hmem : ∀ j, (s'.member j).commit ≤ (s'.member j).log.length ∧
      s'.Settled P (s'.member j).term ((s'.member j).log.take (s'.member j).commit) := by
    intro j
    have hset : ∀ (i : N) (m : Member N E τ), (m.commit ≤ m.log.length ∧
        s'.Settled P m.term (m.log.take m.commit)) →
        ((s.set i m).member j).commit ≤ ((s.set i m).member j).log.length ∧
        s'.Settled P ((s.set i m).member j).term
          (((s.set i m).member j).log.take ((s.set i m).member j).commit) :=
      fun i m hi => forall_set (p := fun _ m => m.commit ≤ m.log.length ∧
        s'.Settled P m.term (m.log.take m.commit)) hi
        (fun k _ => hkeep (i := k) rfl List.prefix_rfl le_rfl) j
    cases hm with
    | observe i t ht | stand i t ht => exact hset i _ (hkeep (i := i) rfl List.prefix_rfl ht.le)
    | stepDown i | win i | grant i b =>
      exact hset i _ (hkeep (i := i) rfl List.prefix_rfl le_rfl)
    | canvass i | offer i => exact hkeep (i := j) rfl List.prefix_rfl le_rfl
    | append i e => exact hset i _ (hkeep (i := i) rfl (List.prefix_append _ _) le_rfl)
    | accept i a ha hle hf' hfit =>
      refine hset i _ ?_
      have hcommit := h.store_commit hmat ha hfit
      have hpre := hmat.store_prefix ha hfit
      have hold := h.store_keep hmat hh hsafe ha (hf' hf) hfit
      rcases Nat.le_total a.commit (s.member i).commit with hc | hc
      · rw [max_eq_left hc] at hcommit
        have hlen := hold.length_le
        rw [List.length_take, min_eq_left (h.member_le i)] at hlen
        rw [hcommit]
        refine ⟨hlen, ?_⟩
        have htake := prefix_take hold (k := (s.member i).commit)
          (by rw [List.length_take, min_eq_left (h.member_le i)])
        rw [List.take_take, min_self] at htake
        rw [← htake]
        exact g.settled (h.member i) le_rfl
      · rw [max_eq_right hc] at hcommit
        rw [hcommit, ← prefix_take hpre (h.offer_le a ha)]
        exact ⟨(h.offer_le a ha).trans hpre.length_le, g.settled (h.offer a ha) hle⟩
    | commit i n e hr hn ht hc hb' =>
      refine hset i _ ⟨(List.getElem?_eq_some_iff.mp hn).1, ?_⟩
      have hch := hmat.commit_chosen he hr hn ht (hb' hb)
      refine Or.inr ⟨_, n, le_rfl, g.chosen hch, ?_⟩
      rw [g.take_eq hch.1, hmat.leader_book i hr]
  have hoffer : ∀ a ∈ s'.offers, a.commit ≤ a.log.length ∧
      s'.Settled P a.term (a.log.take a.commit) := by
    intro a ha
    have hold : a ∈ s.offers → a.commit ≤ a.log.length ∧
        s'.Settled P a.term (a.log.take a.commit) :=
      fun ha => ⟨h.offer_le a ha, g.settled (h.offer a ha) le_rfl⟩
    cases hm with
    | offer i prev hr hp =>
      rcases ha with rfl | ha
      · exact ⟨h.member_le i, g.settled (h.member i) le_rfl⟩
      · exact hold ha
    | _ => exact hold ha
  exact ⟨fun j => (hmem j).1, fun j => (hmem j).2, fun a ha => (hoffer a ha).1,
    fun a ha => (hoffer a ha).2⟩

end Preservation

end Replication
