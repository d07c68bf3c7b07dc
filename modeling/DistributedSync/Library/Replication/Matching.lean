import DistributedSync.Library.Replication.Election

/-!
# Log matching

`Matched`: every log, of a member or in a message, is rooted in the books. So two logs with one
term at one position agree up to there (`Matched.log_matching`). It rests on one author per term
alone: neither stale offers nor offers of members that lead nothing endanger it, since whatever an
offer carries was the log of some member.
-/

namespace Replication

open Quorum TermLog World

set_option linter.unusedSectionVars false

variable {N E τ : Type*} [DecidableEq N] [LinearOrder τ] {P : Protocol N E τ}
  {s s' : World N E τ} {i j k : N} {t : τ}

/-- Every log stands in the books, and the books grow under their leaders only. -/
structure Matched (P : Protocol N E τ) (s : World N E τ) : Prop where
  leader_book : ∀ i, (s.member i).role = .leader → s.book (s.member i).term = (s.member i).log
  book_blank : ∀ t, s.won t = none → s.book t = []
  rooted : ∀ i, Rooted P.term s.book (s.member i).log
  rooted_ballot : ∀ b ∈ s.ballots, Rooted P.term s.book b.log
  rooted_offer : ∀ a ∈ s.offers, Rooted P.term s.book a.log
  offer_prev : ∀ a ∈ s.offers, a.prev ≤ a.log.length
  bounded : Bounded P.term s.book
  log_le : ∀ i, ∀ e ∈ (s.member i).log, P.term e ≤ (s.member i).term
  offer_le : ∀ a ∈ s.offers, ∀ e ∈ a.log, P.term e ≤ a.term

theorem Matched.of_start (hr : ∀ i, (s.member i).role = .follower)
    (hl : ∀ i, (s.member i).log = []) (hb : s.ballots = ∅) (ho : s.offers = ∅)
    (hk : ∀ t, s.book t = []) : Matched P s where
  leader_book i h := by simp [hr] at h
  book_blank t _ := hk t
  rooted i := by rw [hl]; exact rooted_nil
  rooted_ballot b h := by simp [hb] at h
  rooted_offer a h := by simp [ho] at h
  offer_prev a h := by simp [ho] at h
  bounded t e h := by simp [hk] at h
  log_le i e h := by simp [hl] at h
  offer_le a h := by simp [ho] at h

/-! ## What holds of matched logs -/

/-- Two members with entries of one term at one position have the same log up to there. -/
theorem Matched.log_matching (h : Matched P s) {n : ℕ} {e e' : E}
    (hi : (s.member i).log[n]? = some e) (hj : (s.member j).log[n]? = some e')
    (ht : P.term e = P.term e') :
    (s.member i).log.take (n + 1) = (s.member j).log.take (n + 1) :=
  (h.rooted i).take_eq (h.rooted j) hi hj ht

theorem Matched.won_of_mem (h : Matched P s) {l : List E} (hl : Rooted P.term s.book l) {e : E}
    (he : e ∈ l) : ∃ i, s.won (P.term e) = some i := by
  obtain ⟨n, hn⟩ := List.mem_iff_getElem?.mp he
  have hp := hl n e hn
  rcases hw : s.won (P.term e) with _ | i
  · rw [h.book_blank _ hw, List.prefix_nil] at hp
    have := length_take_succ hn
    simp [hp] at this
  · exact ⟨i, rfl⟩

/-- What `store` does to a log that the offer fits: nothing if the log extends the offer's, else
the offer's log takes its place. -/
theorem Matched.store_log (h : Matched P s) {a : Offer N E τ} (ha : a ∈ s.offers)
    (hfit : Fits P a (s.member j).log) :
    a.log <+: (s.member j).log ∧ (store P (s.member j) a).log = (s.member j).log ∨
      ¬ a.log <+: (s.member j).log ∧ (store P (s.member j) a).log = a.log := by
  have hlog := h.rooted j
  have hoff := h.rooted_offer a ha
  refine overlay_eq (h.offer_prev a ha) ?_ fun k e e' hk hk' ht => hlog.take_eq hoff hk hk' ht
  rcases hfit with h0 | ⟨e, e', he, he', ht⟩
  · simp [h0]
  · have hpos : a.prev - 1 + 1 = a.prev ∨ a.prev = 0 := by omega
    rcases hpos with hpos | h0
    · rw [← hpos]
      exact hlog.take_eq hoff he he' ht
    · simp [h0]

theorem Matched.store_prefix (h : Matched P s) {a : Offer N E τ} (ha : a ∈ s.offers)
    (hfit : Fits P a (s.member j).log) : a.log <+: (store P (s.member j) a).log := by
  rcases h.store_log ha hfit with ⟨hp, hl⟩ | ⟨_, hl⟩
  · rwa [hl]
  · rw [hl]

/-! ## Preservation -/

/-- A step that leaves the books alone and gives a member a rooted log keeps the matching. -/
theorem Matched.of_set (h : Matched P s) {m : Member N E τ}
    (hmem : s'.member = (s.set i m).member) (hlead : m.role = .leader → s.book m.term = m.log)
    (hlog : Rooted P.term s.book m.log) (hle : ∀ e ∈ m.log, P.term e ≤ m.term)
    (hb : s'.ballots = s.ballots) (ho : s'.offers = s.offers) (hw : s'.won = s.won)
    (hk : s'.book = s.book) : Matched P s' where
  leader_book j := by
    rw [hmem, hk]
    exact forall_set (p := fun _ m => m.role = .leader → s.book m.term = m.log) hlead
      (fun k _ => h.leader_book k) j
  book_blank t := by rw [hw, hk]; exact h.book_blank t
  rooted j := by
    rw [hmem, hk]
    exact forall_set (p := fun _ m => Rooted P.term s.book m.log) hlog (fun k _ => h.rooted k) j
  rooted_ballot b := by rw [hb, hk]; exact h.rooted_ballot b
  rooted_offer a := by rw [ho, hk]; exact h.rooted_offer a
  offer_prev a := by rw [ho]; exact h.offer_prev a
  bounded := by rw [hk]; exact h.bounded
  log_le j := by
    rw [hmem]
    exact forall_set (p := fun _ m => ∀ e ∈ m.log, P.term e ≤ m.term) hle (fun k _ => h.log_le k) j
  offer_le a := by rw [ho]; exact h.offer_le a

/-- A step that only adds messages keeps the matching if it holds of them. -/
theorem Matched.of_sent (h : Matched P s) (hmem : s'.member = s.member) (hw : s'.won = s.won)
    (hk : s'.book = s.book) (hb : ∀ b ∈ s'.ballots, b ∈ s.ballots ∨ Rooted P.term s.book b.log)
    (ho : ∀ a ∈ s'.offers, a ∈ s.offers ∨ Rooted P.term s.book a.log ∧
      a.prev ≤ a.log.length ∧ ∀ e ∈ a.log, P.term e ≤ a.term) : Matched P s' where
  leader_book := by rw [hmem, hk]; exact h.leader_book
  book_blank := by rw [hw, hk]; exact h.book_blank
  rooted := by rw [hmem, hk]; exact h.rooted
  rooted_ballot b hb' := by
    rw [hk]
    exact (hb b hb').elim (h.rooted_ballot b) id
  rooted_offer a ha := by
    rw [hk]
    exact (ho a ha).elim (h.rooted_offer a) fun ha => ha.1
  offer_prev a ha := (ho a ha).elim (h.offer_prev a) fun ha => ha.2.1
  bounded := by rw [hk]; exact h.bounded
  log_le := by rw [hmem]; exact h.log_le
  offer_le a ha := (ho a ha).elim (h.offer_le a) fun ha => ha.2.2

/-- A step of the author of a term, which writes `l` into its book. -/
theorem Matched.of_write (h : Matched P s) {l : List E} {m : Member N E τ}
    (hmem : s'.member = (s.set i m).member) (ht : m.term = (s.member i).term) (hl : m.log = l)
    (hgrow : s.book (s.member i).term <+: l) (hk : s'.book = Function.update s.book m.term l)
    (hlog : ∀ b : τ → List E, (∀ t, s.book t <+: b t) → l <+: b m.term → Rooted P.term b l)
    (hle : ∀ e ∈ l, P.term e ≤ m.term) (hwon : s'.won m.term = some i)
    (hother : ∀ j, j ≠ i → (s.member j).role = .leader → (s.member j).term ≠ m.term)
    (hb : s'.ballots = s.ballots) (ho : s'.offers = s.offers)
    (hw : ∀ t, t ≠ m.term → s'.won t = s.won t) : Matched P s' := by
  have hmono : ∀ t, s.book t <+: s'.book t := by
    intro t
    rw [hk]
    by_cases htm : t = m.term
    · subst htm
      rw [Function.update_self, ht]
      exact hgrow
    · rw [Function.update_of_ne htm]
  have hself : s'.book m.term = l := by rw [hk, Function.update_self]
  constructor
  case leader_book =>
    intro j
    rw [hmem]
    refine forall_set (p := fun _ m => m.role = .leader → s'.book m.term = m.log)
      (fun _ => by rw [hself, hl]) (fun k hki hr => ?_) j
    rw [hk, Function.update_of_ne (hother k hki hr)]
    exact h.leader_book k hr
  case book_blank =>
    intro t htn
    by_cases htm : t = m.term
    · rw [htm, hwon] at htn
      exact absurd htn (by simp)
    · rw [hk, Function.update_of_ne htm]
      exact h.book_blank t (by rw [← hw t htm, htn])
  case rooted =>
    intro j
    rw [hmem]
    refine forall_set (p := fun _ m => Rooted P.term s'.book m.log) ?_
      (fun k _ => (h.rooted k).mono hmono) j
    rw [hl]
    exact hlog s'.book hmono (by rw [hself])
  case rooted_ballot =>
    intro b hb'
    exact (h.rooted_ballot b (hb ▸ hb')).mono hmono
  case rooted_offer =>
    intro a ha
    exact (h.rooted_offer a (ho ▸ ha)).mono hmono
  case offer_prev =>
    intro a ha
    exact h.offer_prev a (ho ▸ ha)
  case bounded =>
    intro t e he
    rw [hk] at he
    by_cases htm : t = m.term
    · subst htm
      rw [Function.update_self] at he
      exact hle e he
    · rw [Function.update_of_ne htm] at he
      exact h.bounded t e he
  case log_le =>
    intro j
    rw [hmem]
    exact forall_set (p := fun _ m => ∀ e ∈ m.log, P.term e ≤ m.term) (by rw [hl]; exact hle)
      (fun k _ => h.log_le k) j
  case offer_le =>
    intro a ha
    exact h.offer_le a (ho ▸ ha)

theorem Matched.move (h : Matched P s) (he : Elected P s) (hm : Move P s s') : Matched P s' := by
  cases hm with
  | observe i t ht =>
    exact h.of_set rfl (by simp) (h.rooted i) (fun e hi => (h.log_le i e hi).trans ht.le)
      rfl rfl rfl rfl
  | stepDown i =>
    exact h.of_set rfl (by simp) (h.rooted i) (h.log_le i) rfl rfl rfl rfl
  | stand i t ht =>
    exact h.of_set rfl (by simp) (h.rooted i) (fun e hi => (h.log_le i e hi).trans ht.le)
      rfl rfl rfl rfl
  | canvass i =>
    refine h.of_sent rfl rfl rfl (fun b hb => ?_) fun a ha => Or.inl ha
    rcases hb with rfl | hb
    · exact Or.inr (h.rooted i)
    · exact Or.inl hb
  | grant j b hb ht hv hu =>
    exact h.of_set rfl (h.leader_book j) (h.rooted j) (h.log_le j) rfl rfl rfl rfl
  | win i hr hc =>
    have hfresh := he.won_fresh hr hc
    refine h.of_write (i := i) rfl rfl rfl ?_ rfl (fun b hb _ => (h.rooted i).mono hb)
      (h.log_le i) (Function.update_self ..) ?_ rfl rfl fun t ht => Function.update_of_ne ht ..
    · rw [h.book_blank _ hfresh]
      exact List.nil_prefix
    · intro j _ hj heq
      have hwj := he.leader_won j hj
      rw [heq, hfresh] at hwj
      exact absurd hwj (by simp)
  | append i e hr ht ha =>
    have hbook := h.leader_book i hr
    refine h.of_write (i := i) rfl rfl rfl ?_ rfl ?_ ?_ (he.leader_won i hr) ?_ rfl rfl
      fun t _ => rfl
    · rw [hbook]
      exact List.prefix_append _ _
    · intro b hb hl
      exact ((h.rooted i).mono hb).concat (by rwa [ht])
    · intro e' he'
      rcases List.mem_append.mp he' with he' | he'
      · exact h.log_le i e' he'
      · rw [List.mem_singleton.mp he', ht]
    · intro j hji hj heq
      exact hji (he.leader_unique hj hr heq)
  | offer i prev hr hp =>
    refine h.of_sent rfl rfl rfl (fun b hb => Or.inl hb) fun a ha => ?_
    rcases ha with rfl | ha
    · exact Or.inr ⟨h.rooted i, hp, h.log_le i⟩
    · exact Or.inl ha
  | accept j a ha hle hf hfit =>
    refine h.of_set (m := store P (s.member j) a) rfl (by simp [store]) ?_ ?_ rfl rfl rfl rfl
    · rcases h.store_log ha hfit with ⟨_, hl⟩ | ⟨_, hl⟩ <;> rw [hl]
      · exact h.rooted j
      · exact h.rooted_offer a ha
    · rcases h.store_log ha hfit with ⟨_, hl⟩ | ⟨_, hl⟩ <;> rw [hl]
      · exact h.log_le j
      · exact fun e he' => (h.offer_le a ha e he').trans hle
  | commit i n e hr hn ht hc hb =>
    exact h.of_set rfl (h.leader_book i) (h.rooted i) (h.log_le i) rfl rfl rfl rfl

theorem Matched.book_mono (h : Matched P s) (he : Elected P s) (hm : Move P s s') (t : τ) :
    s.book t <+: s'.book t := by
  cases hm with
  | win i hr hc =>
    show s.book t <+: Function.update s.book _ _ t
    by_cases ht : t = (s.member i).term
    · subst ht
      rw [h.book_blank _ (he.won_fresh hr hc)]
      exact List.nil_prefix
    · rw [Function.update_of_ne ht]
  | append i e hr ht ha =>
    show s.book t <+: Function.update s.book _ _ t
    by_cases htm : t = (s.member i).term
    · subst htm
      rw [Function.update_self, h.leader_book i hr]
      exact List.prefix_append _ _
    · rw [Function.update_of_ne htm]
  | _ => exact List.prefix_rfl

end Replication
