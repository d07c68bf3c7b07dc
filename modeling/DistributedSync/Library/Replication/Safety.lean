import DistributedSync.Library.Replication.Matching

/-!
# What a majority has stored

With stale offers fenced off and offers made by leaders only, a member that has stored a position
of a term's book keeps it until it meets the leader of a later term. `Safe`: for every term and
every position of its author's own entries, each later winner's book has the position too, or a
majority has moved on without it and the position can never be stored by a majority (`Closed`).
-/

namespace Replication

open Quorum TermLog World

set_option linter.unusedSectionVars false

variable {N E τ : Type*} [DecidableEq N] [LinearOrder τ] {P : Protocol N E τ}
  {s s' : World N E τ} {i j k : N} {t : τ} {n : ℕ}

/-- `j` has stored position `n` of the book of term `t` in term `t`: by an offer, or as its
author. -/
def World.Stored (s : World N E τ) (j : N) (t : τ) (n : ℕ) : Prop :=
  s.Acked j t n ∨ s.won t = some j ∧ n < (s.book t).length

/-- A majority is past term `t` and has not stored position `n` of its book. -/
def World.Closed (P : Protocol N E τ) (s : World N E τ) (t : τ) (n : ℕ) : Prop :=
  ∃ Q, Majority P.members Q ∧ ∀ j ∈ Q, t < (s.member j).term ∧ ¬ s.Stored j t n

/-- Position `n` of the book of `t`, if there is one, holds an entry of term `t`. -/
def World.Own (P : Protocol N E τ) (s : World N E τ) (t : τ) (n : ℕ) : Prop :=
  ∀ e, (s.book t)[n]? = some e → P.term e = t

/-- Offers and ballots show the state of their senders. -/
structure Honest (P : Protocol N E τ) (s : World N E τ) : Prop where
  offer_book : ∀ a ∈ s.offers, (∃ i, s.won a.term = some i) ∧ a.log <+: s.book a.term
  ack_offer : ∀ j a, (j, a) ∈ s.acks → a ∈ s.offers ∧ a.term ≤ (s.member j).term
  ack_log : ∀ j a, (j, a) ∈ s.acks → a.term = (s.member j).term → a.log <+: (s.member j).log
  ballot_log : ∀ b ∈ s.ballots, b.term ≤ (s.member b.candidate).term ∧
    (b.term = (s.member b.candidate).term → (s.member b.candidate).role = .candidate →
      b.log = (s.member b.candidate).log)

theorem Honest.of_start (hb : s.ballots = ∅) (ho : s.offers = ∅) (ha : s.acks = ∅) :
    Honest P s where
  offer_book a h := by simp [ho] at h
  ack_offer j a h := by simp [ha] at h
  ack_log j a h := by simp [ha] at h
  ballot_log b h := by simp [hb] at h

/-- What a member has stored in its own term is still in its log. -/
theorem Honest.acked_prefix (h : Honest P s) (ha : s.Acked j (s.member j).term n) :
    (s.book (s.member j).term).take (n + 1) <+: (s.member j).log := by
  obtain ⟨a, hja, hat, hn⟩ := ha
  have hbook := (h.offer_book a (h.ack_offer j a hja).1).2
  rw [hat] at hbook
  rw [← prefix_take hbook (by omega)]
  exact (List.take_prefix _ _).trans (h.ack_log j a hja hat)

/-- Storing happens in the term of the book, and inside the book. -/
theorem Honest.stored_le (h : Honest P s) (he : Elected P s) (hs : s.Stored j t n) :
    t ≤ (s.member j).term ∧ n < (s.book t).length := by
  rcases hs with ⟨a, hja, rfl, hn⟩ | ⟨hw, hn⟩
  · obtain ⟨hoff, hle⟩ := h.ack_offer j a hja
    exact ⟨hle, hn.trans_le (h.offer_book a hoff).2.length_le⟩
  · exact ⟨(he.won_kept t j hw).1, hn⟩

/-! ## Growth

How one step changes what is stored. -/

/-- The history grows, and a member stores new positions in its own term only. -/
structure Grows (s s' : World N E τ) : Prop where
  term_le : ∀ j, (s.member j).term ≤ (s'.member j).term
  won : ∀ t i, s.won t = some i → s'.won t = some i
  book : ∀ t, s.book t <+: s'.book t
  acks : s.acks ⊆ s'.acks
  ack_new : ∀ j a, (j, a) ∈ s'.acks → (j, a) ∈ s.acks ∨ a.term = (s'.member j).term
  won_new : ∀ t i, s'.won t = some i → s.won t = some i ∨ t = (s'.member i).term
  book_new : ∀ t i, s.won t = some i → s'.book t = s.book t ∨ t = (s'.member i).term

theorem Move.grows (hm : Move P s s') (he : Elected P s) (hmat : Matched P s) (hf : P.fenced) :
    Grows s s' where
  term_le := hm.term_le
  won t i := he.won_mono hm
  book := hmat.book_mono he hm
  acks := by
    cases hm with
    | accept => exact Set.subset_insert _ _
    | _ => exact subset_rfl
  ack_new j a hja := by
    cases hm with
    | accept k a' ha hle hf' hfit =>
      rcases hja with hja | hja
      · cases hja
        refine Or.inr ?_
        show _ = ((s.set j _).member j).term
        rw [set_member_self, hf' hf]
        rfl
      · exact Or.inl hja
    | _ => exact Or.inl hja
  won_new t i hw := by
    cases hm with
    | win k hr hc =>
      change Function.update s.won _ _ t = some i at hw
      by_cases ht : t = (s.member k).term
      · subst ht
        rw [Function.update_self, Option.some.injEq] at hw
        subst hw
        refine Or.inr ?_
        show _ = ((s.set k _).member k).term
        rw [set_member_self]
      · rw [Function.update_of_ne ht] at hw
        exact Or.inl hw
    | _ => exact Or.inl hw
  book_new t i hw := by
    cases hm with
    | win k hr hc =>
      refine Or.inl (Function.update_of_ne ?_ ..)
      rintro rfl
      rw [he.won_fresh hr hc] at hw
      exact absurd hw (by simp)
    | append k e hr ht ha =>
      by_cases htk : t = (s.member k).term
      · subst htk
        rw [he.leader_won k hr, Option.some.injEq] at hw
        subst hw
        refine Or.inr ?_
        show _ = ((s.set k _).member k).term
        rw [set_member_self]
      · exact Or.inl (Function.update_of_ne htk ..)
    | _ => exact Or.inl rfl

theorem Grows.stored (g : Grows s s') (hs : s.Stored j t n) : s'.Stored j t n := by
  rcases hs with ⟨a, hja, hat, hn⟩ | ⟨hw, hn⟩
  · exact Or.inl ⟨a, g.acks hja, hat, hn⟩
  · exact Or.inr ⟨g.won t j hw, hn.trans_le (g.book t).length_le⟩

/-- A member stores new positions in the term it has. -/
theorem Grows.stored_new (g : Grows s s') (hs : s'.Stored j t n) :
    s.Stored j t n ∨ t = (s'.member j).term := by
  rcases hs with ⟨a, hja, hat, hn⟩ | ⟨hw, hn⟩
  · rcases g.ack_new j a hja with hja | ht
    · exact Or.inl (Or.inl ⟨a, hja, hat, hn⟩)
    · exact Or.inr (hat ▸ ht)
  · rcases g.won_new t j hw with hw | ht
    · rcases g.book_new t j hw with hb | ht
      · exact Or.inl (Or.inr ⟨hw, hb ▸ hn⟩)
      · exact Or.inr ht
    · exact Or.inr ht

theorem Grows.closed (g : Grows s s') (hc : s.Closed P t n) : s'.Closed P t n := by
  obtain ⟨Q, hQ, hq⟩ := hc
  refine ⟨Q, hQ, fun j hj => ?_⟩
  obtain ⟨hlt, hns⟩ := hq j hj
  have hlt' := hlt.trans_le (g.term_le j)
  refine ⟨hlt', fun hs => ?_⟩
  rcases g.stored_new hs with hs | ht
  · exact hns hs
  · exact absurd ht hlt'.ne

theorem Grows.own (g : Grows s s') (ho : s'.Own P t n) : s.Own P t n :=
  fun e hn => ho e (prefix_getElem? (g.book t) hn)

theorem Grows.take_eq (g : Grows s s') (hn : n < (s.book t).length) :
    (s'.book t).take (n + 1) = (s.book t).take (n + 1) :=
  (prefix_take (g.book t) (by omega)).symm

/-! ## Messages and logs of one term -/

theorem Honest.move (h : Honest P s) (he : Elected P s) (hmat : Matched P s)
    (hm : Move P s s') (hf : P.fenced) (hent : P.entitled) : Honest P s' := by
  have g := hm.grows he hmat hf
  constructor
  case offer_book =>
    intro a ha
    have hold : a ∈ s.offers → (∃ i, s'.won a.term = some i) ∧ a.log <+: s'.book a.term := by
      intro ha
      obtain ⟨⟨i, hw⟩, hp⟩ := h.offer_book a ha
      exact ⟨⟨i, g.won _ _ hw⟩, hp.trans (g.book _)⟩
    cases hm with
    | offer i prev hr hp =>
      rcases ha with rfl | ha
      · refine ⟨⟨i, he.leader_won i (hr hent)⟩, ?_⟩
        show (s.member i).log <+: s.book (s.member i).term
        rw [hmat.leader_book i (hr hent)]
      · exact hold ha
    | _ => exact hold ha
  case ack_offer =>
    intro j a hja
    have hold : (j, a) ∈ s.acks → a ∈ s.offers ∧ a.term ≤ (s'.member j).term := by
      intro hja
      obtain ⟨ho, hle⟩ := h.ack_offer j a hja
      exact ⟨ho, hle.trans (g.term_le j)⟩
    cases hm with
    | accept k a' ha hle hf' hfit =>
      rcases hja with hja | hja
      · cases hja
        exact ⟨ha, hle.trans (g.term_le j)⟩
      · exact hold hja
    | offer i prev hr hp => exact ⟨Or.inr (hold hja).1, (hold hja).2⟩
    | _ => exact hold hja
  case ack_log =>
    intro j a hja hat
    by_cases hold : (j, a) ∈ s.acks
    · -- the term is as before, and the log has kept what it had
      obtain ⟨ho, hle⟩ := h.ack_offer j a hold
      have hat' : a.term = (s.member j).term :=
        le_antisymm hle (by rw [hat]; exact g.term_le j)
      have hp := h.ack_log j a hold hat'
      rcases hm.log_cases j with hl | ⟨a', ha', hf', hfit, hst⟩
      · exact hp.trans hl
      · have hb := (h.offer_book a ho).2
        have hb' := (h.offer_book a' ha').2
        rw [hat'] at hb
        rw [hf' hf] at hb'
        rw [hst]
        exact prefix_overlay hb hb' hp (hmat.store_log ha' hfit)
    · cases hm with
      | accept k a' ha hle hf' hfit =>
        rcases hja with hja | hja
        · cases hja
          show a.log <+: ((s.set j _).member j).log
          rw [set_member_self]
          exact hmat.store_prefix ha hfit
        · exact absurd hja hold
      | _ => exact absurd hja hold
  case ballot_log =>
    intro b hb
    by_cases hold : b ∈ s.ballots
    · obtain ⟨hle, hlog⟩ := h.ballot_log b hold
      refine ⟨hle.trans (g.term_le _), fun heq hr => ?_⟩
      have hbt : b.term = (s.member b.candidate).term :=
        le_antisymm hle (by rw [heq]; exact g.term_le _)
      obtain ⟨hr', hl⟩ := hm.candidate_log _ (by rw [← hbt, heq]) hr
      rw [hl]
      exact hlog hbt hr'
    · cases hm with
      | canvass i =>
        rcases hb with rfl | hb
        · exact ⟨le_rfl, fun _ _ => rfl⟩
        · exact absurd hb hold
      | _ => exact absurd hb hold

/-! ## Safety -/

/-- What has been stored reaches later winners, unless it is closed. -/
structure Safe (P : Protocol N E τ) (s : World N E τ) : Prop where
  later : ∀ t t' i n, s.won t' = some i → t < t' → s.Own P t n →
    n < (s.book t).length ∧ (s.book t).take (n + 1) <+: s.book t' ∨ s.Closed P t n
  held : ∀ j t n, s.Stored j t n → s.Own P t n →
    (s.book t).take (n + 1) <+: (s.member j).log ∨ s.Closed P t n
  voted : ∀ j b t n, (j, b) ∈ s.votes → s.Stored j t n → t < b.term → s.Own P t n →
    s.Closed P t n ∨ ∃ l, Rooted P.term s.book l ∧ (s.book t).take (n + 1) <+: l ∧
      UpToDate P.term b.log l

theorem Safe.of_start (hw : ∀ t, s.won t = none) (ha : s.acks = ∅) (hv : s.votes = ∅) :
    Safe P s where
  later t t' i n h := by simp [hw] at h
  held j t n h := by simp [World.Stored, World.Acked, hw, ha] at h
  voted j b t n h := by simp [hv] at h

/-- The candidate that carries a term has every stored position of the earlier terms. -/
theorem Safe.win (h : Safe P s) (he : Elected P s) (hmat : Matched P s) (hh : Honest P s)
    (hr : (s.member i).role = .candidate) (hc : s.Carried P i (s.member i).term)
    (ht : t < (s.member i).term) (ho : s.Own P t n) :
    n < (s.book t).length ∧ (s.book t).take (n + 1) <+: (s.member i).log ∨ s.Closed P t n := by
  by_cases hcl : s.Closed P t n
  · exact Or.inr hcl
  obtain ⟨Q, hQ, hvote⟩ := hc
  -- some voter has stored the position, else the voters close it
  obtain ⟨j, hj, hs⟩ : ∃ j ∈ Q, s.Stored j t n := by
    by_contra hno
    push Not at hno
    refine hcl ⟨Q, hQ, fun j hj => ⟨?_, hno j hj⟩⟩
    rcases hvote j hj with rfl | ⟨b, hb, _, hbt⟩
    · exact ht
    · exact ht.trans_le (hbt ▸ (he.vote_kept j b hb).1)
  have hlen := (hh.stored_le he hs).2
  refine Or.inl ⟨hlen, ?_⟩
  rcases hvote j hj with rfl | ⟨b, hb, hbc, hbt⟩
  · exact (h.held j t n hs ho).resolve_right hcl
  · obtain ⟨l, hl, hx, hu⟩ := (h.voted j b t n hb hs (hbt ▸ ht) ho).resolve_left hcl
    have hblog := (hh.ballot_log b (he.vote_ballot j b hb)).2
    rw [hbc] at hblog
    rw [hblog hbt hr] at hu
    refine hl.prefix_of_upToDate (hmat.rooted i) hmat.bounded hu hx fun e' he' hlt => ?_
    -- the last entry of the candidate is of a later term, which has been won
    have hget : (s.book t)[n]? = some (s.book t)[n] := List.getElem?_eq_getElem hlen
    have hmem : (s.book t)[n] ∈ (s.book t).take (n + 1) := by
      rw [take_succ_eq hget]
      exact List.mem_append_right _ (List.mem_singleton.mpr rfl)
    have hte := hlt _ (hx.subset hmem)
    rw [ho _ hget] at hte
    obtain ⟨k, hk⟩ := hmat.won_of_mem (hmat.rooted i) (List.mem_of_getLast? he')
    exact ((h.later t _ k n hk hte ho).resolve_right hcl).2

theorem Move.stored_prefix (he : Elected P s) (hmat : Matched P s) (hh : Honest P s)
    (hm : Move P s s') (hold : ¬ s.Stored j t n) (hs : s'.Stored j t n) :
    (s'.book t).take (n + 1) <+: (s'.member j).log := by
  cases hm with
  | accept i a ha hle hf' hfit =>
    rcases hs with ⟨a', hja, hat, hn⟩ | ⟨hw, hn⟩
    · rcases hja with hja | hja
      · cases hja
        have hb := (hh.offer_book _ ha).2
        rw [hat] at hb
        show (s.book t).take (n + 1) <+: ((s.set j _).member j).log
        rw [set_member_self, ← prefix_take hb (by omega)]
        exact (List.take_prefix _ _).trans (hmat.store_prefix ha hfit)
      · exact absurd (Or.inl ⟨a', hja, hat, hn⟩) hold
    · exact absurd (Or.inr ⟨hw, hn⟩) hold
  | win i hr hc =>
    rcases hs with hack | ⟨hw, hn⟩
    · exact absurd (Or.inl hack) hold
    · by_cases hti : t = (s.member i).term
      · subst hti
        have hij : i = j := by simpa using hw
        subst hij
        show (Function.update s.book _ _ _).take (n + 1) <+: ((s.set i _).member i).log
        rw [set_member_self, Function.update_self]
        exact List.take_prefix _ _
      · refine absurd (Or.inr ⟨?_, ?_⟩) hold
        · rwa [← Function.update_of_ne hti (some i) s.won]
        · rwa [← Function.update_of_ne hti (s.member i).log s.book]
  | append i e hr hte ha =>
    rcases hs with hack | ⟨hw, hn⟩
    · exact absurd (Or.inl hack) hold
    · by_cases hti : t = (s.member i).term
      · subst hti
        change s.won (s.member i).term = some j at hw
        rw [he.leader_won i hr, Option.some.injEq] at hw
        subst hw
        show (Function.update s.book _ _ _).take (n + 1) <+: ((s.set i _).member i).log
        rw [set_member_self, Function.update_self]
        exact List.take_prefix _ _
      · refine absurd (Or.inr ⟨hw, ?_⟩) hold
        rwa [← Function.update_of_ne hti ((s.member i).log ++ [e]) s.book]
  | _ => exact absurd hs hold

section Move

variable (h : Safe P s) (he : Elected P s) (hmat : Matched P s) (hh : Honest P s)
  (hm : Move P s s') (hf : P.fenced)

include h he hmat hh hm hf

/-- The only new winner is the one of the step. -/
theorem Safe.later_move {t' : τ} (hw : s'.won t' = some i) (ht : t < t') (ho : s'.Own P t n) :
    n < (s'.book t).length ∧ (s'.book t).take (n + 1) <+: s'.book t' ∨ s'.Closed P t n := by
  have g := hm.grows he hmat hf
  have hold : ∀ l, l <+: s'.book t' → (n < (s.book t).length ∧
      (s.book t).take (n + 1) <+: l ∨ s.Closed P t n) →
      n < (s'.book t).length ∧ (s'.book t).take (n + 1) <+: s'.book t' ∨ s'.Closed P t n := by
    rintro l hl (⟨hlen, hp⟩ | hc)
    · refine Or.inl ⟨hlen.trans_le (g.book t).length_le, ?_⟩
      rw [g.take_eq hlen]
      exact hp.trans hl
    · exact Or.inr (g.closed hc)
  rcases hwo : s.won t' with _ | k
  · cases hm with
    | win k hr hc =>
      change Function.update s.won _ _ t' = some i at hw
      by_cases htk : t' = (s.member k).term
      · subst htk
        exact hold _ (by simp) (h.win he hmat hh hr hc ht (g.own ho))
      · rw [Function.update_of_ne htk, hwo] at hw
        exact absurd hw (by simp)
    | _ => exact absurd (hwo.symm.trans hw) (by simp)
  · exact hold _ (g.book t') (h.later t t' k n hwo ht (g.own ho))

/-- An offer writes a member's log from the book of its term, which has the position too. -/
theorem Safe.held_move (hs : s'.Stored j t n) (ho : s'.Own P t n) :
    (s'.book t).take (n + 1) <+: (s'.member j).log ∨ s'.Closed P t n := by
  have g := hm.grows he hmat hf
  by_cases hold : s.Stored j t n
  swap
  · exact Or.inl (hm.stored_prefix he hmat hh hold hs)
  obtain ⟨hle, hlen⟩ := hh.stored_le he hold
  rcases h.held j t n hold (g.own ho) with hp | hc
  swap
  · exact Or.inr (g.closed hc)
  rw [g.take_eq hlen]
  rcases hm.log_cases j with hl | ⟨a, ha, hf', hfit, hst⟩
  · exact Or.inl (hp.trans hl)
  · obtain ⟨⟨k, hk⟩, hab⟩ := hh.offer_book a ha
    have hcase : (s.book t).take (n + 1) <+: s.book a.term ∨ s.Closed P t n := by
      rw [← hf' hf] at hle
      rcases hle.lt_or_eq with hlt | rfl
      · exact (h.later t _ k n hk hlt (g.own ho)).imp_left And.right
      · exact Or.inl (List.take_prefix _ _)
    rcases hcase with hb | hc
    · rw [hst]
      exact Or.inl (prefix_overlay hb hab hp (hmat.store_log ha hfit))
    · exact Or.inr (g.closed hc)

theorem Safe.voted_move {b : Ballot N E τ} (hjb : (j, b) ∈ s'.votes) (hs : s'.Stored j t n)
    (ht : t < b.term) (ho : s'.Own P t n) :
    s'.Closed P t n ∨ ∃ l, Rooted P.term s'.book l ∧ (s'.book t).take (n + 1) <+: l ∧
      UpToDate P.term b.log l := by
  have g := hm.grows he hmat hf
  have hle : b.term ≤ (s'.member j).term := ((he.move hm).vote_kept j b hjb).1
  have hold : s.Stored j t n := by
    refine (g.stored_new hs).resolve_right fun heq => ?_
    rw [← heq] at hle
    exact absurd ht (not_lt.mpr hle)
  have hlen := (hh.stored_le he hold).2
  rw [g.take_eq hlen]
  have hvoted : (j, b) ∈ s.votes → s'.Closed P t n ∨ ∃ l, Rooted P.term s'.book l ∧
      (s.book t).take (n + 1) <+: l ∧ UpToDate P.term b.log l := by
    intro hjb
    rcases h.voted j b t n hjb hold ht (g.own ho) with hc | ⟨l, hl, hx, hu⟩
    · exact Or.inl (g.closed hc)
    · exact Or.inr ⟨l, hl.mono g.book, hx, hu⟩
  cases hm with
  | grant k b' hb' ht' hv hu =>
    rcases hjb with hjb | hjb
    · cases hjb
      rcases h.held j t n hold (g.own ho) with hp | hc
      · exact Or.inr ⟨_, hmat.rooted j, hp, hu⟩
      · exact Or.inl (g.closed hc)
    · exact hvoted hjb
  | _ => exact hvoted hjb

theorem Safe.move : Safe P s' where
  later _ _ _ _ hw ht ho := h.later_move he hmat hh hm hf hw ht ho
  held _ _ _ hs ho := h.held_move he hmat hh hm hf hs ho
  voted _ _ _ _ hjb hs ht ho := h.voted_move he hmat hh hm hf hjb hs ht ho

end Move

end Replication
