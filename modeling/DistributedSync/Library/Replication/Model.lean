import DistributedSync.Library.Quorum
import DistributedSync.Library.TermLog
import Mathlib.Data.Set.Insert
import Mathlib.Logic.Function.Basic

/-!
# A replicated log with elected authors

The protocol behind Raft, with messages that carry the sender's whole log as a snapshot. A member
has a term, a vote, a role, a log and a number of committed entries. `won` and `book` are history:
who won a term, and the log of the winner, which only the winner extends.

A `Protocol` fixes the members, the term of an entry and four rules that may be switched off or
left trivial: whether a stale offer can be accepted (`fenced`), whether only a leader makes offers
(`entitled`), whether a commit goes forward and needs a majority of acknowledgements (`backed`),
and which entries may be appended (`admits`). The results say which rules they need.
-/

namespace Replication

open TermLog Quorum

/-- The role a member plays in its term. -/
inductive Role where
  | follower
  | candidate
  | leader
  deriving DecidableEq

/-- What a member keeps. `commit` counts the committed entries of `log`. -/
structure Member (N E τ : Type*) where
  term : τ
  vote : Option N
  role : Role
  log : List E
  commit : ℕ

/-- A request for a vote, with the log of the candidate. -/
structure Ballot (N E τ : Type*) where
  candidate : N
  term : τ
  log : List E

/-- A request to store a log: the receiver is taken to hold the first `prev` entries of it. -/
structure Offer (N E τ : Type*) where
  leader : N
  term : τ
  log : List E
  prev : ℕ
  commit : ℕ

/-- The members, everything ever sent and answered, and the history of the terms. -/
structure World (N E τ : Type*) where
  member : N → Member N E τ
  ballots : Set (Ballot N E τ)
  votes : Set (N × Ballot N E τ)
  offers : Set (Offer N E τ)
  acks : Set (N × Offer N E τ)
  won : τ → Option N
  book : τ → List E

/-- The members, the terms of entries, and the rules in force. -/
structure Protocol (N E τ : Type*) where
  members : Finset N
  term : E → τ
  fenced : Prop
  entitled : Prop
  backed : Prop
  admits : List E → E → Prop

variable {N E τ : Type*} [DecidableEq N] [LinearOrder τ]

namespace World

/-- Member `i` becomes `m`. -/
def set (s : World N E τ) (i : N) (m : Member N E τ) : World N E τ :=
  { s with member := Function.update s.member i m }

/-- `j` gave its vote to `i` in term `t`. -/
def Granted (s : World N E τ) (i j : N) (t : τ) : Prop :=
  ∃ b, (j, b) ∈ s.votes ∧ b.candidate = i ∧ b.term = t

/-- A majority of members, `i` among them or not, gave their votes to `i` in term `t`. -/
def Carried (P : Protocol N E τ) (s : World N E τ) (i : N) (t : τ) : Prop :=
  ∃ Q, Majority P.members Q ∧ ∀ j ∈ Q, j = i ∨ s.Granted i j t

/-- `j` acknowledged an offer of term `t` that covers position `n`. -/
def Acked (s : World N E τ) (j : N) (t : τ) (n : ℕ) : Prop :=
  ∃ a, (j, a) ∈ s.acks ∧ a.term = t ∧ n < a.log.length

section Set

omit [LinearOrder τ]

variable {s : World N E τ} {i j : N} {m : Member N E τ}

@[simp] theorem set_member_self : (s.set i m).member i = m := Function.update_self ..

theorem set_member_ne (h : j ≠ i) : (s.set i m).member j = s.member j :=
  Function.update_of_ne h ..

@[simp] theorem set_ballots : (s.set i m).ballots = s.ballots := rfl
@[simp] theorem set_votes : (s.set i m).votes = s.votes := rfl
@[simp] theorem set_offers : (s.set i m).offers = s.offers := rfl
@[simp] theorem set_acks : (s.set i m).acks = s.acks := rfl
@[simp] theorem set_won : (s.set i m).won = s.won := rfl
@[simp] theorem set_book : (s.set i m).book = s.book := rfl

theorem forall_set {p : N → Member N E τ → Prop} (hi : p i m) (h : ∀ j, j ≠ i → p j (s.member j))
    (j : N) : p j ((s.set i m).member j) := by
  by_cases hj : j = i
  · subst hj
    rwa [set_member_self]
  · rw [set_member_ne hj]
    exact h j hj

end Set

/-- The offer's log agrees with `l` on its first `prev` entries, as far as one term can tell. -/
def Fits (P : Protocol N E τ) (a : Offer N E τ) (l : List E) : Prop :=
  a.prev = 0 ∨ ∃ e e', l[a.prev - 1]? = some e ∧ a.log[a.prev - 1]? = some e' ∧
    P.term e = P.term e'

/-- The member after it has stored an offer and followed its commit number. -/
def store (P : Protocol N E τ) (m : Member N E τ) (a : Offer N E τ) : Member N E τ :=
  let log := overlay P.term m.log a.prev (a.log.drop a.prev)
  { m with role := .follower, log := log,
           commit := if m.commit < a.commit then min a.commit log.length else m.commit }

end World

open World

/-- One step of the protocol. -/
inductive Move (P : Protocol N E τ) (s : World N E τ) : World N E τ → Prop
  /-- A member learns of a later term. -/
  | observe (i : N) (t : τ) (ht : (s.member i).term < t) :
    Move P s (s.set i { s.member i with term := t, vote := none, role := .follower })
  | stepDown (i : N) : Move P s (s.set i { s.member i with role := .follower })
  /-- A member stands for election in a later term. -/
  | stand (i : N) (t : τ) (ht : (s.member i).term < t) :
    Move P s (s.set i { s.member i with term := t, vote := some i, role := .candidate })
  /-- A member asks for votes in its term. -/
  | canvass (i : N) :
    Move P s { s with
      ballots := insert ⟨i, (s.member i).term, (s.member i).log⟩ s.ballots }
  | grant (j : N) (b : Ballot N E τ) (hb : b ∈ s.ballots) (ht : b.term = (s.member j).term)
    (hv : (s.member j).vote = none ∨ (s.member j).vote = some b.candidate)
    (hu : UpToDate P.term b.log (s.member j).log) :
    Move P s { s.set j { s.member j with vote := some b.candidate } with
      votes := insert (j, b) s.votes }
  | win (i : N) (hr : (s.member i).role = .candidate) (hc : s.Carried P i (s.member i).term) :
    Move P s { s.set i { s.member i with role := .leader } with
      won := Function.update s.won (s.member i).term (some i)
      book := Function.update s.book (s.member i).term (s.member i).log }
  | append (i : N) (e : E) (hr : (s.member i).role = .leader)
    (ht : P.term e = (s.member i).term) (ha : P.admits (s.member i).log e) :
    Move P s { s.set i { s.member i with log := (s.member i).log ++ [e] } with
      book := Function.update s.book (s.member i).term ((s.member i).log ++ [e]) }
  /-- A member sends its log from position `prev` on. -/
  | offer (i : N) (prev : ℕ) (hr : P.entitled → (s.member i).role = .leader)
    (hp : prev ≤ (s.member i).log.length) :
    Move P s { s with
      offers := insert ⟨i, (s.member i).term, (s.member i).log, prev, (s.member i).commit⟩
        s.offers }
  | accept (j : N) (a : Offer N E τ) (ha : a ∈ s.offers) (hle : a.term ≤ (s.member j).term)
    (hf : P.fenced → a.term = (s.member j).term) (hfit : Fits P a (s.member j).log) :
    Move P s { s.set j (store P (s.member j) a) with acks := insert (j, a) s.acks }
  /-- A leader commits its log up to position `n`, an entry of its own term. -/
  | commit (i : N) (n : ℕ) (e : E) (hr : (s.member i).role = .leader)
    (hn : (s.member i).log[n]? = some e) (ht : P.term e = (s.member i).term)
    (hc : P.backed → (s.member i).commit ≤ n)
    (hb : P.backed → ∃ Q, Majority P.members Q ∧
      ∀ j ∈ Q, j = i ∨ s.Acked j (s.member i).term n) :
    Move P s (s.set i { s.member i with commit := n + 1 })

/-! ## What a step does to one member -/

section Member

variable {P : Protocol N E τ} {s s' : World N E τ}

theorem Move.term_le (hm : Move P s s') (j : N) : (s.member j).term ≤ (s'.member j).term := by
  cases hm with
  | observe i t ht | stand i t ht =>
    exact forall_set (p := fun k m => (s.member k).term ≤ m.term) ht.le (fun _ _ => le_rfl) j
  | canvass i | offer i => exact le_rfl
  | stepDown i | win i | append i | commit i | grant i b | accept i a =>
    refine forall_set (p := fun k m => (s.member k).term ≤ m.term) ?_ (fun _ _ => le_rfl) j
    exact le_rfl

/-- A log only grows, unless an offer is stored. -/
theorem Move.log_cases (hm : Move P s s') (j : N) :
    (s.member j).log <+: (s'.member j).log ∨
      ∃ a ∈ s.offers, (P.fenced → a.term = (s.member j).term) ∧ Fits P a (s.member j).log ∧
        s'.member j = store P (s.member j) a := by
  cases hm with
  | accept i a ha hle hf hfit =>
    by_cases hji : j = i
    · subst hji
      exact Or.inr ⟨a, ha, hf, hfit, set_member_self⟩
    · refine Or.inl ?_
      show _ <+: ((s.set i _).member j).log
      rw [set_member_ne hji]
  | canvass i | offer i => exact Or.inl List.prefix_rfl
  | append i e =>
    exact Or.inl (forall_set (p := fun k m => (s.member k).log <+: m.log)
      (List.prefix_append _ _) (fun _ _ => List.prefix_rfl) j)
  | observe i | stand i | stepDown i | win i | commit i | grant i b =>
    refine Or.inl (forall_set (p := fun k m => (s.member k).log <+: m.log) ?_
      (fun _ _ => List.prefix_rfl) j)
    exact List.prefix_rfl

/-- A candidate that was in its term before the step was a candidate, with the same log. -/
theorem Move.candidate_log (hm : Move P s s') (j : N)
    (ht : (s.member j).term = (s'.member j).term) (hr : (s'.member j).role = .candidate) :
    (s.member j).role = .candidate ∧ (s'.member j).log = (s.member j).log := by
  have key : ∀ (i : N) (m : Member N E τ), ((s.member i).term = m.term → m.role = .candidate →
      (s.member i).role = .candidate ∧ m.log = (s.member i).log) →
      (s.member j).term = ((s.set i m).member j).term →
      ((s.set i m).member j).role = .candidate →
      (s.member j).role = .candidate ∧ ((s.set i m).member j).log = (s.member j).log :=
    fun i m hi => forall_set (p := fun k m => (s.member k).term = m.term → m.role = .candidate →
      (s.member k).role = .candidate ∧ m.log = (s.member k).log) hi (fun _ _ _ hr => ⟨hr, rfl⟩) j
  cases hm with
  | canvass i | offer i => exact ⟨hr, rfl⟩
  | observe i t hlt | stand i t hlt => exact key i _ (fun heq => absurd heq hlt.ne) ht hr
  | stepDown i | win i | accept i => exact key i _ (fun _ hr => Role.noConfusion hr) ht hr
  | commit i | grant i => exact key i _ (fun _ hr => ⟨hr, rfl⟩) ht hr
  | append i e hl =>
    exact key i _ (fun _ hr => absurd (hl.symm.trans hr) (by simp)) ht hr

end Member

abbrev Moves (P : Protocol N E τ) : World N E τ → World N E τ → Prop :=
  Relation.ReflTransGen (Move P)

end Replication
