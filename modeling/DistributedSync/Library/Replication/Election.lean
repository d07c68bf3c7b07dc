import DistributedSync.Library.Replication.Model

/-!
# Elections

`Elected` ties the history of votes and winners to what the members remember: a vote given in a
term stays in `vote` while the member stays in the term. So a member votes for one candidate in a
term, two majorities share a voter, and a term is won once (`Elected.won_fresh`). None of the
optional rules is needed.
-/

namespace Replication

open Quorum World

set_option linter.unusedSectionVars false

variable {N E τ : Type*} [DecidableEq N] [LinearOrder τ] {P : Protocol N E τ}
  {s s' : World N E τ} {i j k : N} {t : τ}

/-- The history of the votes. -/
structure Elected (P : Protocol N E τ) (s : World N E τ) : Prop where
  own_vote : ∀ i, (s.member i).role ≠ .follower → (s.member i).vote = some i
  vote_ballot : ∀ j b, (j, b) ∈ s.votes → b ∈ s.ballots
  vote_kept : ∀ j b, (j, b) ∈ s.votes → b.term ≤ (s.member j).term ∧
    (b.term = (s.member j).term → (s.member j).vote = some b.candidate)
  vote_unique : ∀ j b b', (j, b) ∈ s.votes → (j, b') ∈ s.votes → b.term = b'.term →
    b.candidate = b'.candidate
  won_kept : ∀ t i, s.won t = some i → t ≤ (s.member i).term ∧
    (t = (s.member i).term → (s.member i).vote = some i ∧ (s.member i).role ≠ .candidate)
  won_carried : ∀ t i, s.won t = some i → s.Carried P i t
  winner_vote : ∀ j b, (j, b) ∈ s.votes → s.won b.term = some j → b.candidate = j
  leader_won : ∀ i, (s.member i).role = .leader → s.won (s.member i).term = some i

theorem Elected.of_start (hr : ∀ i, (s.member i).role = .follower) (hv : s.votes = ∅)
    (hw : ∀ t, s.won t = none) : Elected P s where
  own_vote i h := absurd (hr i) h
  vote_ballot j b h := by simp [hv] at h
  vote_kept j b h := by simp [hv] at h
  vote_unique j b b' h := by simp [hv] at h
  won_kept t i h := by simp [hw] at h
  won_carried t i h := by simp [hw] at h
  winner_vote j b h := by simp [hv] at h
  leader_won i h := by simp [hr] at h

/-! ## One winner -/

theorem Carried.mono (h : s.Carried P i t) (hv : s.votes ⊆ s'.votes) : s'.Carried P i t := by
  obtain ⟨Q, hQ, hvote⟩ := h
  refine ⟨Q, hQ, fun j hj => ?_⟩
  rcases hvote j hj with hji | ⟨b, hb, hc, ht⟩
  · exact Or.inl hji
  · exact Or.inr ⟨b, hv hb, hc, ht⟩

/-- A candidate that carries its term is the first to win it. -/
theorem Elected.won_fresh (h : Elected P s) (hr : (s.member i).role = .candidate)
    (hc : s.Carried P i (s.member i).term) : s.won (s.member i).term = none := by
  rcases hw : s.won (s.member i).term with _ | k
  · rfl
  exfalso
  have hown := h.own_vote i (by simp [hr])
  obtain ⟨Q, hQ, hvote⟩ := hc
  obtain ⟨Q', hQ', hvote'⟩ := h.won_carried _ _ hw
  obtain ⟨v, hv, hv'⟩ := hQ.exists_mem hQ'
  have hki : k = i := by
    rcases hvote v hv with rfl | ⟨b, hb, hbc, hbt⟩ <;>
      rcases hvote' v hv' with rfl | ⟨b', hb', hbc', hbt'⟩
    · rfl
    · have := (h.vote_kept _ _ hb').2 hbt'
      rw [hown, hbc', Option.some.injEq] at this
      exact this.symm
    · rw [← h.winner_vote _ _ hb (by rw [hbt]; exact hw), hbc]
    · rw [← hbc, ← hbc', h.vote_unique _ _ _ hb hb' (by rw [hbt, hbt'])]
  subst hki
  exact ((h.won_kept _ _ hw).2 rfl).2 hr

/-- Two leaders of one term are one member. -/
theorem Elected.leader_unique (h : Elected P s) (hi : (s.member i).role = .leader)
    (hj : (s.member j).role = .leader) (ht : (s.member i).term = (s.member j).term) : i = j := by
  have hwi := h.leader_won i hi
  rw [ht, h.leader_won j hj, Option.some.injEq] at hwi
  exact hwi.symm

/-! ## Preservation -/

/-- How a step may change what a member remembers: the term grows, a vote lasts through its term,
and a role other than follower is kept from before or taken in a later term. -/
structure Remembers (i : N) (m m' : Member N E τ) : Prop where
  term_le : m.term ≤ m'.term
  vote : m.term = m'.term → ∀ v, m.vote = some v → m'.vote = some v
  own : m'.role ≠ .follower → m'.vote = some i
  role : m.term = m'.term → m'.role = .candidate → m.role = .candidate
  leader : m'.role = .leader → m.role = .leader ∧ m.term = m'.term

theorem Remembers.of_eq {m m' : Member N E τ} (ht : m'.term = m.term) (hv : m'.vote = m.vote)
    (hr : m'.role = m.role ∨ m'.role = .follower)
    (hown : m.role ≠ .follower → m.vote = some i) : Remembers i m m' where
  term_le := ht.ge
  vote _ v h := by rw [hv, h]
  own h := by
    rcases hr with hr | hr
    · rw [hv, hown (by rwa [← hr])]
    · exact absurd hr h
  role _ h := by
    rcases hr with hr | hr
    · rw [← hr, h]
    · simp [hr] at h
  leader h := by
    rcases hr with hr | hr
    · exact ⟨by rw [← hr, h], ht.symm⟩
    · simp [hr] at h

theorem Remembers.of_lt {m m' : Member N E τ} (ht : m.term < m'.term) (hl : m'.role ≠ .leader)
    (hown : m'.role ≠ .follower → m'.vote = some i) : Remembers i m m' where
  term_le := ht.le
  vote h := absurd h ht.ne
  own := hown
  role h := absurd h ht.ne
  leader h := absurd h hl

/-- A step without votes or winners keeps the history. -/
theorem Elected.of_remembers (h : Elected P s)
    (hm : ∀ i, Remembers i (s.member i) (s'.member i)) (hb : s.ballots ⊆ s'.ballots)
    (hv : s'.votes = s.votes) (hw : s'.won = s.won) : Elected P s' where
  own_vote i hi := (hm i).own hi
  vote_ballot j b hjb := hb (h.vote_ballot j b (hv ▸ hjb))
  vote_kept j b hjb := by
    obtain ⟨hle, hvote⟩ := h.vote_kept j b (hv ▸ hjb)
    refine ⟨hle.trans (hm j).term_le, fun heq => ?_⟩
    have hj : b.term = (s.member j).term := le_antisymm hle (by rw [heq]; exact (hm j).term_le)
    exact (hm j).vote (by rw [← hj, heq]) _ (hvote hj)
  vote_unique j b b' := by rw [hv]; exact h.vote_unique j b b'
  won_kept t i hti := by
    obtain ⟨hle, hvote⟩ := h.won_kept t i (hw ▸ hti)
    refine ⟨hle.trans (hm i).term_le, fun heq => ?_⟩
    have hj : t = (s.member i).term := le_antisymm hle (by rw [heq]; exact (hm i).term_le)
    have hterm : (s.member i).term = (s'.member i).term := by rw [← hj, heq]
    exact ⟨(hm i).vote hterm _ (hvote hj).1, fun hr => (hvote hj).2 ((hm i).role hterm hr)⟩
  won_carried t i hti := Carried.mono (h.won_carried t i (hw ▸ hti)) hv.ge
  winner_vote j b := by rw [hv, hw]; exact h.winner_vote j b
  leader_won i hi := by
    obtain ⟨hr, ht⟩ := (hm i).leader hi
    rw [hw, ← ht]
    exact h.leader_won i hr

/-- A change of one member alone keeps the history if the member remembers. -/
theorem Elected.of_set (h : Elected P s) {m : Member N E τ}
    (hmem : s'.member = (s.set i m).member) (hm : Remembers i (s.member i) m)
    (hb : s.ballots ⊆ s'.ballots)
    (hv : s'.votes = s.votes) (hw : s'.won = s.won) : Elected P s' := by
  refine h.of_remembers (fun j => ?_) hb hv hw
  rw [hmem]
  exact forall_set (p := fun k m => Remembers k (s.member k) m) hm
    (fun k _ => .of_eq rfl rfl (Or.inl rfl) (h.own_vote k)) j

theorem Elected.grant (h : Elected P s) {b : Ballot N E τ} (hb : b ∈ s.ballots)
    (ht : b.term = (s.member j).term)
    (hv : (s.member j).vote = none ∨ (s.member j).vote = some b.candidate) :
    Elected P { s.set j { s.member j with vote := some b.candidate } with
      votes := insert (j, b) s.votes } := by
  -- whoever `j` had named before in this term is the candidate it names now
  have hsame : ∀ v, (s.member j).vote = some v → v = b.candidate := by
    intro v hjv
    rcases hv with hn | hs
    · simp [hn] at hjv
    · rw [hjv, Option.some.injEq] at hs
      exact hs
  have hkeep : ∀ k v, (s.member k).vote = some v →
      ((s.set j { s.member j with vote := some b.candidate }).member k).vote = some v := by
    intro k v hkv
    by_cases hkj : k = j
    · subst hkj
      rw [set_member_self, hsame v hkv]
    · rwa [set_member_ne hkj]
  have hterm : ∀ k, ((s.set j { s.member j with vote := some b.candidate }).member k).term =
      (s.member k).term := by
    intro k
    by_cases hkj : k = j
    · subst hkj; rw [set_member_self]
    · rw [set_member_ne hkj]
  have hrole : ∀ k, ((s.set j { s.member j with vote := some b.candidate }).member k).role =
      (s.member k).role := by
    intro k
    by_cases hkj : k = j
    · subst hkj; rw [set_member_self]
    · rw [set_member_ne hkj]
  constructor
  case own_vote =>
    intro k hk
    exact hkeep k k (h.own_vote k (by rwa [← hrole k]))
  case vote_ballot =>
    rintro k b' (hkb | hkb)
    · cases hkb; exact hb
    · exact h.vote_ballot k b' hkb
  case vote_kept =>
    rintro k b' (hkb | hkb)
    · cases hkb
      exact ⟨by rw [hterm, ht], fun _ => by rw [set_member_self]⟩
    · obtain ⟨hle, hvote⟩ := h.vote_kept k b' hkb
      exact ⟨by rw [hterm]; exact hle, fun heq => hkeep k _ (hvote (by rw [heq, hterm]))⟩
  case vote_unique =>
    -- a vote of `j` in its present term names the candidate granted now
    have hold : ∀ b', (j, b') ∈ s.votes → b'.term = b.term → b'.candidate = b.candidate :=
      fun b' hb' heq => hsame _ ((h.vote_kept j b' hb').2 (by rw [heq, ht]))
    rintro k b₁ b₂ (h₁ | h₁) (h₂ | h₂) heq
    · cases h₁; cases h₂; rfl
    · cases h₁; exact (hold b₂ h₂ heq.symm).symm
    · cases h₂; exact hold b₁ h₁ heq
    · exact h.vote_unique k b₁ b₂ h₁ h₂ heq
  case won_kept =>
    intro t k hw
    obtain ⟨hle, hvote⟩ := h.won_kept t k hw
    refine ⟨by rw [hterm]; exact hle, fun heq => ?_⟩
    obtain ⟨hkv, hkr⟩ := hvote (by rw [heq, hterm])
    exact ⟨hkeep k k hkv, by rw [hrole]; exact hkr⟩
  case won_carried =>
    intro t k hw
    exact Carried.mono (h.won_carried t k hw) (Set.subset_insert _ _)
  case winner_vote =>
    rintro k b' (hkb | hkb) hw
    · cases hkb
      exact (hsame j ((h.won_kept _ _ hw).2 ht).1).symm
    · exact h.winner_vote k b' hkb hw
  case leader_won =>
    intro k hk
    rw [hterm]
    exact h.leader_won k (by rwa [← hrole k])

theorem Elected.win (h : Elected P s) (hr : (s.member i).role = .candidate)
    (hc : s.Carried P i (s.member i).term) :
    Elected P { s.set i { s.member i with role := .leader } with
      won := Function.update s.won (s.member i).term (some i)
      book := Function.update s.book (s.member i).term (s.member i).log } := by
  have hown := h.own_vote i (by simp [hr])
  have hfresh := h.won_fresh hr hc
  have hmem : ∀ k, ((s.set i { s.member i with role := .leader }).member k).term =
      (s.member k).term ∧
      ((s.set i { s.member i with role := .leader }).member k).vote = (s.member k).vote := by
    intro k
    by_cases hki : k = i
    · subst hki; rw [set_member_self]; exact ⟨rfl, rfl⟩
    · rw [set_member_ne hki]; exact ⟨rfl, rfl⟩
  -- the winners are the old ones and `i`
  have hwon : ∀ t k, Function.update s.won (s.member i).term (some i) t = some k →
      t = (s.member i).term ∧ k = i ∨ t ≠ (s.member i).term ∧ s.won t = some k := by
    intro t k hw
    by_cases ht : t = (s.member i).term
    · subst ht
      rw [Function.update_self, Option.some.injEq] at hw
      exact Or.inl ⟨rfl, hw.symm⟩
    · rw [Function.update_of_ne ht] at hw
      exact Or.inr ⟨ht, hw⟩
  constructor
  case own_vote =>
    intro k hk
    show ((s.set i _).member k).vote = some k
    rw [(hmem k).2]
    by_cases hki : k = i
    · subst hki; exact hown
    · rw [set_member_ne hki] at hk
      exact h.own_vote k hk
  case vote_ballot => exact h.vote_ballot
  case vote_kept =>
    intro k b hkb
    show b.term ≤ ((s.set i _).member k).term ∧
      (b.term = ((s.set i _).member k).term → ((s.set i _).member k).vote = some b.candidate)
    rw [(hmem k).1, (hmem k).2]
    exact h.vote_kept k b hkb
  case vote_unique => exact h.vote_unique
  case won_kept =>
    intro t k hw
    show t ≤ ((s.set i _).member k).term ∧ (t = ((s.set i _).member k).term →
      ((s.set i _).member k).vote = some k ∧ ((s.set i _).member k).role ≠ .candidate)
    rw [(hmem k).1, (hmem k).2]
    rcases hwon t k hw with ⟨rfl, rfl⟩ | ⟨ht, hw⟩
    · refine ⟨le_rfl, fun _ => ⟨hown, ?_⟩⟩
      rw [set_member_self]
      exact Role.noConfusion
    · obtain ⟨hle, hvote⟩ := h.won_kept t k hw
      refine ⟨hle, fun heq => ⟨(hvote heq).1, ?_⟩⟩
      by_cases hki : k = i
      · subst hki; exact absurd heq ht
      · rw [set_member_ne hki]; exact (hvote heq).2
  case won_carried =>
    intro t k hw
    rcases hwon t k hw with ⟨rfl, rfl⟩ | ⟨_, hw⟩
    · exact Carried.mono hc subset_rfl
    · exact Carried.mono (h.won_carried t k hw) subset_rfl
  case winner_vote =>
    intro k b hkb hw
    rcases hwon _ k hw with ⟨ht, rfl⟩ | ⟨_, hw⟩
    · have := (h.vote_kept k b hkb).2 ht
      rw [hown, Option.some.injEq] at this
      exact this.symm
    · exact h.winner_vote k b hkb hw
  case leader_won =>
    intro k hk
    show Function.update s.won (s.member i).term (some i) ((s.set i _).member k).term = some k
    rw [(hmem k).1]
    by_cases hki : k = i
    · subst hki; rw [Function.update_self]
    · rw [set_member_ne hki] at hk
      have hw := h.leader_won k hk
      rw [Function.update_of_ne]
      · exact hw
      · intro heq
        rw [heq, hfresh] at hw
        exact absurd hw (by simp)

theorem Elected.move (h : Elected P s) (hm : Move P s s') : Elected P s' := by
  cases hm with
  | observe i t ht =>
    exact h.of_set rfl (.of_lt ht (by simp) (by simp)) subset_rfl rfl rfl
  | stepDown i =>
    exact h.of_set rfl (.of_eq rfl rfl (Or.inr rfl) (h.own_vote i)) subset_rfl rfl rfl
  | stand i t ht =>
    exact h.of_set rfl (.of_lt ht (by simp) (by simp)) subset_rfl rfl rfl
  | canvass i =>
    exact h.of_remembers (fun j => .of_eq rfl rfl (Or.inl rfl) (h.own_vote j))
      (Set.subset_insert _ _) rfl rfl
  | grant j b hb ht hv hu => exact h.grant hb ht hv
  | win i hr hc => exact h.win hr hc
  | append i e hr ht ha =>
    exact h.of_set rfl (.of_eq rfl rfl (Or.inl rfl) (h.own_vote i)) subset_rfl rfl rfl
  | offer i prev hr hp =>
    exact h.of_remembers (fun j => .of_eq rfl rfl (Or.inl rfl) (h.own_vote j)) subset_rfl rfl rfl
  | accept j a ha hle hf hfit =>
    exact h.of_set rfl (.of_eq rfl rfl (Or.inr rfl) (h.own_vote j)) subset_rfl rfl rfl
  | commit i n e hr hn ht hc hb =>
    exact h.of_set rfl (.of_eq rfl rfl (Or.inl rfl) (h.own_vote i)) subset_rfl rfl rfl

theorem Elected.won_mono (h : Elected P s) (hm : Move P s s') (hw : s.won t = some k) :
    s'.won t = some k := by
  cases hm with
  | win i hr hc =>
    show Function.update s.won _ _ t = some k
    rw [Function.update_of_ne, hw]
    rintro rfl
    rw [h.won_fresh hr hc] at hw
    exact absurd hw (by simp)
  | _ => exact hw

end Replication
