import DistributedSync.Services.Deadlock
import DistributedSync.Services.LockTable
import Mathlib.Data.List.Perm.Basic

/-!
# The order of lock requests

A call of `acquire_lock` that has to wait joins the queue of its resource, but `_try_acquire` looks
at the lock table only: whichever call polls first after a release gets the lock. So requests are
served in the order of their arrival as long as no call is accepted while a conflicting one waits
ahead of it in the queue (`firstCome_of_inTurn`).

A node that stays leader appends an entry as soon as `append_entry` is called.
-/

namespace DistributedSync

open DistributedLockManager

deriving instance DecidableEq for AcquireLock

/-! ## What a run shows -/

/-- Two calls whose locks must not be held together. -/
def AcquireLock.Conflicts (a b : AcquireLock) : Prop :=
  (a.resource == b.resource) = true ∧ (a.lockType = .exclusive ∨ b.lockType = .exclusive)

/-- The call, as it stands in the queue. -/
def AcquireLock.tuple (a : AcquireLock) : Value × LockType × Value :=
  (a.clientId, a.lockType, .str a.lockId)

namespace DistributedLockManager

variable (m : DistributedLockManager)

/-- `lock_queue[resource]`. -/
def queue (resource : Value) : List (Value × LockType × Value) :=
  (m.lockQueue.lookup resource).getD []

/-- The call stands before the other one in the queue. -/
def Ahead (a b : AcquireLock) : Prop := [a.tuple, b.tuple].Sublist (m.queue b.resource)

/-- A call that begins joins the queue of its resource. -/
def queues (a : AcquireLock) : Bool :=
  !m.tryAcquire a.resource a.lockType && a.resource.hashable

end DistributedLockManager

/-- The moments of an `acquire_lock` call: its LOCK_ACQUIRE entry may be appended several times. -/
inductive Mark where
  | began (a : AcquireLock)
  | queued (a : AcquireLock)
  | appended (a : AcquireLock)
  | failed (a : AcquireLock)
  deriving DecidableEq

def Mark.began? : Mark → Option AcquireLock
  | .began a => some a
  | _ => none

/-- What the end of a step shows. -/
def Outcome.marks : Outcome Frame Result → List Mark
  | .append frame => frame.acquires.toList.map .appended
  | .done (.acquireLock a none) => [.failed a]
  | .done (.acquireLock _ (some _)) | .done (.releaseLock _ _) | .done .raised | .sleep => []

namespace LockRun

variable (s : LockRun)

def marks : LockEvent → List Mark
  | .start now op =>
    (match op.acquires? with
      | some a => .began a :: if s.manager.queues a then [.queued a] else []
      | none => []) ++
    match s.manager.start now op with
    | some r => r.2.marks
    | none => []
  | .resume now k r =>
    match s.calls[k]? with
    | some frame => (s.manager.resume now frame r).2.marks
    | none => []
  | .commit _ | .detect _ => []

end LockRun

/-- A run of the lock manager, with what it has shown so far. -/
structure LockHistory where
  run : LockRun := {}
  marks : List Mark := []

def historyStep (s : LockHistory) (e : LockEvent) : Option LockHistory :=
  (lockStep s.run e).map fun r => { run := r, marks := s.marks ++ s.run.marks e }

/-- If a call was queued before a conflicting one began, the entry of the latter is not the first to
be appended, unless the former has failed. -/
def FirstCome (h : List Mark) : Prop :=
  ∀ a b h₁, a.Conflicts b → h₁ ++ [.appended b] <+: h → .appended b ∉ h₁ →
    [.queued a, .began b].Sublist h₁ → .appended a ∈ h₁ ∨ .failed a ∈ h₁

/-- `uuid4` draws new ids: no two calls have the same, and a LOCK_ACQUIRE entry with the id of a
call was appended by this call. -/
def Drawn (s : LockHistory) : LockEvent → Prop
  | .start _ (.acquireLock a) => ∀ b ∈ s.marks.filterMap Mark.began?, b.lockId ≠ a.lockId
  | .commit entry => ∀ lock ∈ acquired? entry, ∀ w ∈ s.run.manager.waiting,
      (lock.lockId == .str w.1.lockId) = true → .appended w.1 ∈ s.marks
  | _ => True

/-- No call is accepted while a conflicting one, whose entry has not been appended yet, waits ahead
of it. -/
def InTurn (s : LockHistory) : LockEvent → Prop
  | .start _ (.acquireLock b) => s.run.manager.tryAcquire b.resource b.lockType = true →
      ∀ w ∈ s.run.manager.waiting, w.1.Conflicts b → .appended w.1 ∈ s.marks
  | .start _ (.wake k) => ∀ v ∈ s.run.manager.waiting[k]?,
      s.run.manager.tryAcquire v.1.resource v.1.lockType = true →
        ∀ w ∈ s.run.manager.waiting, w.1.Conflicts v.1 → s.run.manager.Ahead w.1 v.1 →
          .appended w.1 ∈ s.marks
  | _ => True

/-! ## What a step does -/

namespace DistributedLockManager

/-- The end of a round of the polling loop: the call gives up or goes to sleep. -/
theorem checkTimeout_cases (m : DistributedLockManager) (a : AcquireLock) (startTime now : ℚ) :
    m.checkTimeout a startTime now = (m, .done (.acquireLock a none)) ∨
      m.checkTimeout a startTime now =
        ({ m with waiting := m.waiting ++ [(a, startTime)] }, .sleep) := by
  unfold checkTimeout
  split
  · exact Or.inl rfl
  · split
    · exact Or.inl rfl
    · exact Or.inr rfl

/-- A call that does not join the queue leaves the manager as it was. One that does appends no
entry before it has slept. -/
theorem acquireLock_cases (m : DistributedLockManager) (a : AcquireLock) (now : ℚ) :
    (m.tryAcquire a.resource a.lockType = true ∧ m.acquireLock a now = (m, .append (.acquire a))) ∨
    (m.tryAcquire a.resource a.lockType = false ∧ a.resource.hashable = false ∧
      m.acquireLock a now = (m, .done (.acquireLock a none))) ∨
    (m.queues a = true ∧ ∃ g, m.acquireLock a now =
        ({ m.enqueue a with waitGraph := g }, .done (.acquireLock a none)) ∨
      m.acquireLock a now = ({ m.enqueue a with
        waitGraph := g, waiting := m.waiting ++ [(a, now)] }, .sleep)) := by
  cases ht : m.tryAcquire a.resource a.lockType
  · right
    cases hkey : a.resource.hashable
    · left
      refine ⟨rfl, rfl, ?_⟩
      rw [acquireLock, ht, hkey]
      rfl
    · right
      refine ⟨by rw [queues, ht, hkey]; rfl, ?_⟩
      have hgraph : ∃ g b, (m.enqueue a).waitForHolder a =
          ({ m.enqueue a with waitGraph := g }, b) := by
        unfold waitForHolder
        split
        · split
          · exact ⟨_, _, rfl⟩
          · exact ⟨m.waitGraph, false, rfl⟩
        · exact ⟨m.waitGraph, false, rfl⟩
      obtain ⟨g, b, hg⟩ := hgraph
      refine ⟨g, ?_⟩
      have htry : tryAcquire { m.enqueue a with waitGraph := g } a.resource a.lockType = false := ht
      rw [acquireLock, ht, if_neg Bool.false_ne_true, if_pos hkey, hg]
      cases b
      · dsimp only
        rw [if_neg Bool.false_ne_true, poll, htry, if_neg Bool.false_ne_true]
        exact checkTimeout_cases _ a now now
      · exact Or.inl rfl
  · left
    refine ⟨rfl, ?_⟩
    rw [acquireLock, if_pos ht]

theorem poll_cases (m : DistributedLockManager) (a : AcquireLock) (startTime now : ℚ) :
    (m.tryAcquire a.resource a.lockType = true ∧
      m.poll a startTime now = (m, .append (.acquireWaiting a startTime))) ∨
    m.poll a startTime now = (m, .done (.acquireLock a none)) ∨
    m.poll a startTime now =
      ({ m with waiting := m.waiting ++ [(a, startTime)] }, .sleep) := by
  unfold poll
  split
  · next ht => exact Or.inl ⟨ht, rfl⟩
  · exact Or.inr (checkTimeout_cases m a startTime now)

theorem handleCommit_waiting (m : DistributedLockManager) (entry : LogEntry) :
    (m.handleCommit entry).1.waiting = m.waiting := by
  unfold handleCommit
  split
  · split
    · rfl
    · split
      · dsimp only
        split
        · split <;> rfl
        · rfl
      · rfl
  · split
    · split
      · rfl
      · split <;> rfl
    · rfl

/-- An applied entry takes the call with the id of its lock from the queue. -/
theorem handleCommit_queue (m : DistributedLockManager) (entry : LogEntry) (r : Value) :
    ∃ p : Value × LockType × Value → Bool,
      (m.handleCommit entry).1.queue r = (m.queue r).filter p ∧
      ∀ t, p t = false → ∃ lock ∈ acquired? entry, (t.2.2 == lock.lockId) = true := by
  have hall : (m.queue r).filter (fun _ => true) = m.queue r := List.filter_true _
  unfold handleCommit acquired?
  split
  · next hc =>
    rcases hlock : lockOf entry.data with _ | lock
    · exact ⟨fun _ => true, hall.symm, fun _ h => by cases h⟩
    · dsimp only
      split
      · split
        · rcases hq : m.lockQueue.lookup lock.resource with _ | waiters
          · exact ⟨fun _ => true, hall.symm, fun _ h => by cases h⟩
          · by_cases hr : (r == lock.resource) = true
            · refine ⟨fun t => !(t.2.2 == lock.lockId), ?_, fun t ht => ⟨lock, rfl, ?_⟩⟩
              · rw [queue, lookup_setItem, if_pos hr, queue, lookup_congr hr, hq]
                rfl
              · simpa using ht
            · refine ⟨fun _ => true, ?_, fun _ h => by cases h⟩
              rw [hall, queue, lookup_setItem, if_neg hr, queue]
        · exact ⟨fun _ => true, hall.symm, fun _ h => by cases h⟩
      · exact ⟨fun _ => true, hall.symm, fun _ h => by cases h⟩
  · split
    · split
      · exact ⟨fun _ => true, hall.symm, fun _ h => by cases h⟩
      · split <;> exact ⟨fun _ => true, hall.symm, fun _ h => by cases h⟩
    · exact ⟨fun _ => true, hall.symm, fun _ h => by cases h⟩

end DistributedLockManager

/-! ## Arrivals -/

theorem pair_sublist_concat {α : Type*} {x y z : α} {l : List α} :
    [x, y].Sublist (l ++ [z]) ↔ [x, y].Sublist l ∨ x ∈ l ∧ y = z := by
  rw [List.sublist_append_iff]
  constructor
  · rintro ⟨l₁, l₂, heq, h₁, h₂⟩
    rcases List.sublist_singleton.mp h₂ with rfl | rfl
    · rw [List.append_nil] at heq
      exact Or.inl (heq ▸ h₁)
    · obtain ⟨rfl, hz⟩ := List.append_inj' (show [x] ++ [y] = l₁ ++ [z] from heq) rfl
      exact Or.inr ⟨List.singleton_sublist.mp h₁, (List.cons.inj hz).1⟩
  · rintro (h | ⟨hx, rfl⟩)
    · exact ⟨[x, y], [], (List.append_nil _).symm, h, List.nil_sublist _⟩
    · exact ⟨[x], [y], rfl, List.singleton_sublist.mpr hx, .refl _⟩

/-- The calls that are under way after they have been queued, `active`, are known, and those whose
entries have not been appended stand in the queues in the order of their arrival. -/
structure Arrivals (m : DistributedLockManager) (active : List AcquireLock) (h : List Mark) :
    Prop where
  known : ∀ a ∈ active, .queued a ∈ h
  begun : ∀ a, .queued a ∈ h → .began a ∈ h
  pending : ∀ a, .queued a ∈ h → .appended a ∈ h ∨ .failed a ∈ h ∨ a ∈ active
  present : ∀ a ∈ active, .appended a ∉ h → a.tuple ∈ m.queue a.resource
  order : ∀ a ∈ active, ∀ b ∈ active, .appended a ∉ h → .appended b ∉ h →
    (a.resource == b.resource) = true → [.queued a, .began b].Sublist h → m.Ahead a b

namespace Arrivals

variable {m m' : DistributedLockManager} {active active' : List AcquireLock} {h : List Mark}
  {a : AcquireLock}

theorem congr (ha : Arrivals m active h) (hq : m'.lockQueue = m.lockQueue)
    (hactive : ∀ a, a ∈ active' ↔ a ∈ active) : Arrivals m' active' h := by
  have hqueue : ∀ r, m'.queue r = m.queue r := fun r => by rw [queue, queue, hq]
  refine ⟨fun a hm => ha.known a ((hactive a).mp hm), ha.begun,
    fun a hm => (ha.pending a hm).imp_right (Or.imp_right (hactive a).mpr), ?_, ?_⟩
  · intro a hm hno
    rw [hqueue]
    exact ha.present a ((hactive a).mp hm) hno
  · intro a hma b hmb hna hnb hr hs
    rw [Ahead, hqueue]
    exact ha.order a ((hactive a).mp hma) b ((hactive b).mp hmb) hna hnb hr hs

theorem began (ha : Arrivals m active h) (hnew : ∀ b, .began b ∈ h → b.lockId ≠ a.lockId) :
    Arrivals m active (h ++ [.began a]) := by
  have hold : ∀ {b}, b ∈ active → b ≠ a := fun hb heq =>
    hnew _ (ha.begun _ (ha.known _ hb)) (congrArg AcquireLock.lockId heq)
  refine ⟨fun b hb => List.mem_append_left _ (ha.known b hb), ?_, ?_, ?_, ?_⟩
  · intro b hb
    simp only [List.mem_append, List.mem_singleton, reduceCtorEq, or_false] at hb
    exact List.mem_append_left _ (ha.begun b hb)
  · intro b hb
    simp only [List.mem_append, List.mem_singleton, reduceCtorEq, or_false] at hb ⊢
    exact ha.pending b hb
  · intro b hb hno
    exact ha.present b hb fun hmem => hno (List.mem_append_left _ hmem)
  · intro b hb c hc hnb hnc hr hs
    rcases pair_sublist_concat.mp hs with hs | ⟨-, heq⟩
    · exact ha.order b hb c hc (fun hmem => hnb (List.mem_append_left _ hmem))
        (fun hmem => hnc (List.mem_append_left _ hmem)) hr hs
    · cases heq
      exact absurd rfl (hold hc)

theorem queued (ha : Arrivals m active h) (hnew : ∀ b ∈ active, b ≠ a) (hbegan : .began a ∈ h)
    (hno : .queued a ∉ h) : Arrivals (m.enqueue a) (active ++ [a]) (h ++ [.queued a]) := by
  have hqueue : ∀ r, (m.enqueue a).queue r =
      if r == a.resource then m.queue a.resource ++ [a.tuple] else m.queue r := by
    intro r
    rw [queue, enqueue, lookup_setItem]
    split <;> rfl
  have hsame : ∀ {b : AcquireLock} {r}, (b.resource == r) = true → m.queue b.resource = m.queue r :=
    fun hr => by rw [queue, queue, lookup_congr hr]
  have hsub : ∀ r, (m.queue r).Sublist ((m.enqueue a).queue r) := by
    intro r
    rw [hqueue]
    split
    · next hr =>
      rw [queue, lookup_congr hr]
      exact List.sublist_append_left _ _
    · exact .refl _
  have hlast : a.tuple ∈ (m.enqueue a).queue a.resource := by
    rw [hqueue, if_pos BEq.rfl]
    exact List.mem_append_right _ List.mem_cons_self
  refine ⟨?_, ?_, ?_, ?_, ?_⟩
  · intro b hb
    rcases List.mem_append.mp hb with hb | hb
    · exact List.mem_append_left _ (ha.known b hb)
    · rw [List.mem_singleton.mp hb]
      exact List.mem_append_right _ List.mem_cons_self
  · intro b hb
    rcases List.mem_append.mp hb with hb | hb
    · exact List.mem_append_left _ (ha.begun b hb)
    · cases List.mem_singleton.mp hb
      exact List.mem_append_left _ hbegan
  · intro b hb
    rcases List.mem_append.mp hb with hb | hb
    · rcases ha.pending b hb with h | h | h
      · exact Or.inl (List.mem_append_left _ h)
      · exact Or.inr (Or.inl (List.mem_append_left _ h))
      · exact Or.inr (Or.inr (List.mem_append_left _ h))
    · cases List.mem_singleton.mp hb
      exact Or.inr (Or.inr (List.mem_append_right _ List.mem_cons_self))
  · intro b hb hnb
    rcases List.mem_append.mp hb with hb | hb
    · exact (hsub _).mem (ha.present b hb fun hmem => hnb (List.mem_append_left _ hmem))
    · rw [List.mem_singleton.mp hb]
      exact hlast
  · intro b hb c hc hnb hnc hr hs
    rcases pair_sublist_concat.mp hs with hs | ⟨-, heq⟩
    · have hbq : .queued b ∈ h := hs.mem List.mem_cons_self
      have hb' : b ∈ active := by
        rcases List.mem_append.mp hb with hb | hb
        · exact hb
        · cases List.mem_singleton.mp hb
          exact absurd hbq hno
      have hnb' : .appended b ∉ h := fun hmem => hnb (List.mem_append_left _ hmem)
      rcases List.mem_append.mp hc with hc | hc
      · exact (ha.order b hb' c hc hnb' (fun hmem => hnc (List.mem_append_left _ hmem)) hr hs).trans
          (hsub _)
      · -- the newcomer stands behind
        obtain rfl := List.mem_singleton.mp hc
        rw [Ahead, hqueue, if_pos BEq.rfl]
        refine pair_sublist_concat.mpr (Or.inr ⟨?_, rfl⟩)
        rw [← hsame hr]
        exact ha.present b hb' hnb'
    · cases heq

theorem ended (ha : Arrivals m active h) {x : Mark} (hx : x = .appended a ∨ x = .failed a)
    (hsub : ∀ b ∈ active', b ∈ active) (hrest : ∀ b ∈ active, b ∈ active' ∨ b = a) :
    Arrivals m active' (h ++ [x]) := by
  have hqueued : ∀ {b}, .queued b ∈ h ++ [x] → .queued b ∈ h := by
    intro b hb
    rcases List.mem_append.mp hb with hb | hb
    · exact hb
    · have hb := List.mem_singleton.mp hb
      rcases hx with rfl | rfl <;> cases hb
  refine ⟨fun b hb => List.mem_append_left _ (ha.known b (hsub b hb)),
    fun b hb => List.mem_append_left _ (ha.begun b (hqueued hb)), ?_, ?_, ?_⟩
  · intro b hb
    rcases ha.pending b (hqueued hb) with h | h | h
    · exact Or.inl (List.mem_append_left _ h)
    · exact Or.inr (Or.inl (List.mem_append_left _ h))
    · rcases hrest b h with h | rfl
      · exact Or.inr (Or.inr h)
      · rcases hx with rfl | rfl
        · exact Or.inl (List.mem_append_right _ List.mem_cons_self)
        · exact Or.inr (Or.inl (List.mem_append_right _ List.mem_cons_self))
  · intro b hb hnb
    exact ha.present b (hsub b hb) fun hmem => hnb (List.mem_append_left _ hmem)
  · intro b hb c hc hnb hnc hr hs
    rcases pair_sublist_concat.mp hs with hs | ⟨-, heq⟩
    · exact ha.order b (hsub b hb) c (hsub c hc) (fun hmem => hnb (List.mem_append_left _ hmem))
        (fun hmem => hnc (List.mem_append_left _ hmem)) hr hs
    · rcases hx with rfl | rfl <;> cases heq

theorem commit (ha : Arrivals m active h) {entry : LogEntry}
    (hid : ∀ lock ∈ acquired? entry, ∀ b ∈ active, (lock.lockId == .str b.lockId) = true →
      .appended b ∈ h) : Arrivals (m.handleCommit entry).1 active h := by
  have hkeep : ∀ {b} {p : Value × LockType × Value → Bool},
      (∀ t, p t = false → ∃ lock ∈ acquired? entry, (t.2.2 == lock.lockId) = true) → b ∈ active →
        .appended b ∉ h → p b.tuple = true := by
    intro b p hp hb hno
    by_contra hf
    obtain ⟨lock, hlock, heq⟩ := hp b.tuple (Bool.eq_false_iff.mpr hf)
    exact hno (hid lock hlock b hb (BEq.symm heq))
  refine ⟨ha.known, ha.begun, ha.pending, ?_, ?_⟩
  · intro b hb hno
    obtain ⟨p, hq, hp⟩ := handleCommit_queue m entry b.resource
    rw [hq]
    exact List.mem_filter.mpr ⟨ha.present b hb hno, hkeep hp hb hno⟩
  · intro b hb c hc hnb hnc hr hs
    obtain ⟨p, hq, hp⟩ := handleCommit_queue m entry c.resource
    rw [Ahead, hq]
    have := (ha.order b hb c hc hnb hnc hr hs).filter p
    rwa [List.filter_cons_of_pos (hkeep hp hb hnb), List.filter_cons_of_pos (hkeep hp hc hnc)]
      at this

end Arrivals

/-- A call comes back from its refused `append_entry` call, and goes to sleep again. -/
theorem Arrivals.again {m : DistributedLockManager} {active : List AcquireLock} {h : List Mark}
    {a : AcquireLock} (ha : Arrivals m active h) (hq : .queued a ∈ h) (hp : .appended a ∈ h) :
    Arrivals m (active ++ [a]) h := by
  have hold : ∀ {b}, b ∈ active ++ [a] → .appended b ∉ h → b ∈ active := by
    intro b hb hno
    rcases List.mem_append.mp hb with hb | hb
    · exact hb
    · exact absurd (List.mem_singleton.mp hb ▸ hp) hno
  refine ⟨fun b hb => ?_, ha.begun, fun b hb => ?_, fun b hb hno => ha.present b (hold hb hno) hno,
    fun b hb c hc hnb hnc => ha.order b (hold hb hnb) c (hold hc hnc) hnb hnc⟩
  · rcases List.mem_append.mp hb with hb | hb
    · exact ha.known b hb
    · exact List.mem_singleton.mp hb ▸ hq
  · exact (ha.pending b hb).imp_right (Or.imp_right (List.mem_append_left _))

theorem FirstCome.concat {h : List Mark} {x : Mark} (hf : FirstCome h)
    (hx : ∀ a b, x = .appended b → .appended b ∉ h → a.Conflicts b →
      [.queued a, .began b].Sublist h → .appended a ∈ h ∨ .failed a ∈ h) :
    FirstCome (h ++ [x]) := by
  intro a b h₁ hc hpre hfirst hs
  rcases List.prefix_concat_iff.mp hpre with heq | hpre
  · obtain ⟨rfl, hx'⟩ := List.append_inj' heq rfl
    exact hx a b (List.cons.inj hx').1.symm hfirst hc hs
  · exact hf a b h₁ hc hpre hfirst hs

/-- Only an entry that is appended can come out of turn. -/
theorem FirstCome.concat_of_ne {h : List Mark} {x : Mark} (hf : FirstCome h)
    (hx : ∀ b, x ≠ .appended b) : FirstCome (h ++ [x]) :=
  hf.concat fun _ b heq => absurd heq (hx b)

/-! ## Runs -/

/-- What holds along a run in which every call is accepted in turn. -/
structure Ordered (s : LockHistory) : Prop where
  arrivals : Arrivals s.run.manager (s.run.manager.waiting.map Prod.fst) s.marks
  calls : ∀ a t, .acquireWaiting a t ∈ s.run.calls → .queued a ∈ s.marks ∧ .appended a ∈ s.marks
  firstCome : FirstCome s.marks

variable {s t : LockHistory} {a : AcquireLock} {now : ℚ}

/-- The marks of the calls that wait for their entry stay. -/
theorem Ordered.kept (ho : Ordered s) (l : List Mark) {b : AcquireLock} {startTime : ℚ}
    (hm : .acquireWaiting b startTime ∈ s.run.calls) :
    .queued b ∈ s.marks ++ l ∧ .appended b ∈ s.marks ++ l :=
  (ho.calls b startTime hm).imp (List.mem_append_left l) (List.mem_append_left l)

theorem begin_ordered (ho : Ordered s) (hd : Drawn s (.start now (.acquireLock a)))
    (hi : InTurn s (.start now (.acquireLock a)))
    (hs : historyStep s (.start now (.acquireLock a)) = some t) : Ordered t := by
  have harr := ho.arrivals
  have hnew : ∀ b, .began b ∈ s.marks → b.lockId ≠ a.lockId :=
    fun b hb => hd b (List.mem_filterMap.mpr ⟨_, hb, rfl⟩)
  have hnb : .began a ∉ s.marks := fun hm => hnew a hm rfl
  have hnq : .queued a ∉ s.marks := fun hm => hnb (harr.begun a hm)
  have hbegan := harr.began hnew
  have hbegan' : FirstCome (s.marks ++ [.began a]) :=
    ho.firstCome.concat_of_ne fun _ => Mark.noConfusion
  have hqueued : Arrivals (s.run.manager.enqueue a) (s.run.manager.waiting.map Prod.fst ++ [a])
      (s.marks ++ [.began a] ++ [.queued a]) :=
    hbegan.queued (fun b hb heq => hnq (heq ▸ harr.known b hb))
      (List.mem_append_right _ List.mem_cons_self) (by simp [hnq])
  have hqueued' : FirstCome (s.marks ++ [.began a] ++ [.queued a]) :=
    hbegan'.concat_of_ne fun _ => Mark.noConfusion
  have hfail : ∀ {l : List Mark}, FirstCome l → FirstCome (l ++ [.failed a]) :=
    fun hl => hl.concat_of_ne fun _ => Mark.noConfusion
  have ht : t = { run := s.run.ran (s.run.manager.acquireLock a now),
                  marks := s.marks ++ ((.began a ::
                    if s.run.manager.queues a then [.queued a] else []) ++
                    (s.run.manager.acquireLock a now).2.marks) } :=
    (Option.some.inj hs).symm
  rcases acquireLock_cases s.run.manager a now with
    ⟨htry, heq⟩ | ⟨htry, hkey, heq⟩ | ⟨hqueues, g, heq | heq⟩
  · -- the fast path: no conflicting call waits
    have hmarks : t = { run := s.run.ran (s.run.manager, .append (.acquire a)),
                        marks := s.marks ++ [.began a] ++ [.appended a] } := by
      rw [ht, heq, queues, htry, List.append_assoc]
      rfl
    subst hmarks
    refine ⟨hbegan.ended (Or.inl rfl) (fun _ hb => hb) fun _ hb => Or.inl hb, ?_, ?_⟩
    · intro a' t hm
      rcases List.mem_append.mp hm with hm | hm
      · rw [List.append_assoc]
        exact ho.kept _ hm
      · cases List.mem_singleton.mp hm
    · refine hbegan'.concat fun b c heq _ hc hs => ?_
      cases heq
      rcases pair_sublist_concat.mp hs with hs | ⟨hb, -⟩
      · exact absurd (hs.mem (List.mem_cons_of_mem _ List.mem_cons_self)) hnb
      · rcases harr.pending b hb with h | h | h
        · exact Or.inl (List.mem_append_left _ h)
        · exact Or.inr (List.mem_append_left _ h)
        · obtain ⟨w, hw, rfl⟩ := List.mem_map.mp h
          exact Or.inl (List.mem_append_left _ (hi htry w hw hc))
  · have hmarks : t = { run := s.run.ran (s.run.manager, .done (.acquireLock a none)),
                        marks := s.marks ++ [.began a] ++ [.failed a] } := by
      rw [ht, heq, queues, htry, hkey, List.append_assoc]
      rfl
    subst hmarks
    refine ⟨hbegan.ended (Or.inr rfl) (fun _ hb => hb) fun _ hb => Or.inl hb, ?_, hfail hbegan'⟩
    intro a' t hm
    rw [List.append_assoc]
    exact ho.kept _ ((List.append_nil _).subst hm)
  · have hmarks : t = { run := s.run.ran ({ s.run.manager.enqueue a with waitGraph := g },
                          .done (.acquireLock a none)),
                        marks := s.marks ++ [.began a] ++ [.queued a] ++ [.failed a] } := by
      rw [ht, heq, if_pos hqueues, List.append_assoc, List.append_assoc]
      rfl
    subst hmarks
    refine ⟨?_, ?_, hfail hqueued'⟩
    · have hended : Arrivals (s.run.manager.enqueue a) (s.run.manager.waiting.map Prod.fst)
          (s.marks ++ [.began a] ++ [.queued a] ++ [.failed a]) :=
        hqueued.ended (Or.inr rfl) (fun _ hb => List.mem_append_left _ hb) fun b hb =>
          (List.mem_append.mp hb).imp_right List.mem_singleton.mp
      exact hended.congr rfl fun _ => Iff.rfl
    · intro a' t hm
      rw [List.append_assoc, List.append_assoc]
      exact ho.kept _ ((List.append_nil _).subst hm)
  · have hmarks : t = { run := s.run.ran ({ s.run.manager.enqueue a with
                          waitGraph := g, waiting := s.run.manager.waiting ++ [(a, now)] }, .sleep),
                        marks := s.marks ++ [.began a] ++ [.queued a] } := by
      rw [ht, heq, if_pos hqueues, List.append_assoc]
      rfl
    subst hmarks
    refine ⟨hqueued.congr rfl fun b => ?_, ?_, hqueued'⟩
    · show b ∈ (s.run.manager.waiting ++ [(a, now)]).map Prod.fst ↔ _
      rw [List.map_append]
      rfl
    · intro a' t hm
      rw [List.append_assoc]
      exact ho.kept _ ((List.append_nil _).subst hm)

theorem wake_ordered {k : ℕ} (ho : Ordered s) (hi : InTurn s (.start now (.wake k)))
    (hs : historyStep s (.start now (.wake k)) = some t) : Ordered t := by
  have harr := ho.arrivals
  obtain ⟨u, hu, ht⟩ := Option.map_eq_some_iff.mp hs
  obtain ⟨r, hr, rfl⟩ := Option.map_eq_some_iff.mp hu
  obtain ⟨v, hv, rfl⟩ := Option.map_eq_some_iff.mp hr
  set m' := { s.run.manager with waiting := s.run.manager.waiting.eraseIdx k } with hm'
  have hmem : v ∈ s.run.manager.waiting := List.mem_of_getElem? hv
  have hactive : ∀ b, b ∈ s.run.manager.waiting.map Prod.fst ↔
      b ∈ m'.waiting.map Prod.fst ∨ b = v.1 := by
    intro b
    obtain ⟨hk, rfl⟩ := List.getElem?_eq_some_iff.mp hv
    rw [((List.getElem_cons_eraseIdx_perm hk).symm.map Prod.fst).mem_iff, List.map_cons,
      List.mem_cons, or_comm]
  have hended : ∀ {x : Mark}, x = .appended v.1 ∨ x = .failed v.1 →
      Arrivals s.run.manager (m'.waiting.map Prod.fst) (s.marks ++ [x]) := fun hx =>
    harr.ended hx (fun b hb => (hactive b).mpr (Or.inl hb)) fun b hb => (hactive b).mp hb
  have hmarks : t = { run := s.run.ran (m'.poll v.1 v.2 now),
                      marks := s.marks ++ (m'.poll v.1 v.2 now).2.marks } := by
    rw [← ht]
    simp only [LockRun.marks, Op.acquires?, start, hv, Option.map_some, List.nil_append, hm']
  rcases poll_cases m' v.1 v.2 now with
    ⟨htry, heq⟩ | heq | heq <;> rw [heq] at hmarks <;> subst hmarks
  · refine ⟨?_, ?_, ?_⟩
    · exact (hended (Or.inl rfl)).congr rfl fun _ => Iff.rfl
    · intro a' t hm
      rcases List.mem_append.mp hm with hm | hm
      · exact ho.kept _ hm
      · cases List.mem_singleton.mp hm
        exact ⟨List.mem_append_left _ (harr.known v.1 (List.mem_map_of_mem hmem)),
          List.mem_append_right _ List.mem_cons_self⟩
    · refine ho.firstCome.concat fun b c heq hno hc hs => ?_
      cases heq
      rcases harr.pending b (hs.mem List.mem_cons_self) with h | h | h
      · exact Or.inl h
      · exact Or.inr h
      · -- it is ahead in the queue, unless its entry has been appended
        by_cases hb : .appended b ∈ s.marks
        · exact Or.inl hb
        · have hahead := harr.order b h v.1 (List.mem_map_of_mem hmem) hb hno hc.1 hs
          obtain ⟨w, hw, rfl⟩ := List.mem_map.mp h
          exact Or.inl (hi v hv htry w hw hc hahead)
  · refine ⟨?_, fun a' t hm => ho.kept _ ((List.append_nil _).subst hm),
      ho.firstCome.concat_of_ne fun _ => Mark.noConfusion⟩
    exact (hended (Or.inr rfl)).congr rfl fun _ => Iff.rfl
  · have hnil : s.marks ++ Outcome.marks .sleep = s.marks := List.append_nil _
    rw [hnil]
    refine ⟨harr.congr rfl fun b => ?_, fun a' t hm => ho.calls a' t ((List.append_nil _).subst hm),
      ho.firstCome⟩
    show b ∈ (m'.waiting ++ [(v.1, v.2)]).map Prod.fst ↔ _
    rw [hactive, List.map_append, List.mem_append]
    exact or_congr_right List.mem_singleton

/-- A call that comes back from `append_entry` ends, or goes to sleep again. -/
theorem resume_cases (m : DistributedLockManager) (now : ℚ) (frame : Frame) (r : Appended) :
    (∃ g result, m.resume now frame r = ({ m with waitGraph := g }, .done result)) ∨
    ∃ a startTime, frame = .acquireWaiting a startTime ∧
      m.resume now frame r = ({ m with waiting := m.waiting ++ [(a, startTime)] }, .sleep) := by
  cases frame with
  | acquire a => exact Or.inl ⟨m.waitGraph, _, rfl⟩
  | acquireWaiting a startTime =>
    rcases r with ⟨_ | _⟩ | _
    · rcases checkTimeout_cases m a startTime now with h | h
      · exact Or.inl ⟨m.waitGraph, _, h⟩
      · exact Or.inr ⟨a, startTime, rfl, h⟩
    · exact Or.inl ⟨_, _, rfl⟩
    · exact Or.inl ⟨m.waitGraph, _, rfl⟩
  | release lockId => cases r <;> exact Or.inl ⟨m.waitGraph, _, rfl⟩

theorem done_marks (result : Result) :
    (Outcome.done result : Outcome Frame Result).marks = [] ∨
      ∃ a, (Outcome.done result : Outcome Frame Result).marks = [.failed a] := by
  rcases result with ⟨a, _ | _⟩ | _ | _
  · exact Or.inr ⟨a, rfl⟩
  all_goals exact Or.inl rfl

theorem resume_ordered {k : ℕ} {r : Appended} (ho : Ordered s)
    (hs : historyStep s (.resume now k r) = some t) : Ordered t := by
  obtain ⟨harr, hcalls, hfirst⟩ := ho
  obtain ⟨u, hu, ht⟩ := Option.map_eq_some_iff.mp hs
  obtain ⟨frame, hframe, rfl⟩ := Option.map_eq_some_iff.mp hu
  have hmarks : t = { run := { s.run with calls := s.run.calls.eraseIdx k }.ran
                        (s.run.manager.resume now frame r),
                      marks := s.marks ++ (s.run.manager.resume now frame r).2.marks } := by
    rw [← ht]
    simp only [LockRun.marks, hframe]
  have hrest : ∀ a' t, .acquireWaiting a' t ∈ s.run.calls.eraseIdx k ++ [] →
      .queued a' ∈ s.marks ∧ .appended a' ∈ s.marks := by
    intro a' t hm
    rw [List.append_nil] at hm
    exact hcalls a' t (List.mem_of_mem_eraseIdx hm)
  rcases resume_cases s.run.manager now frame r with
    ⟨g, result, heq⟩ | ⟨a, startTime, rfl, heq⟩ <;> rw [heq] at hmarks <;> subst hmarks
  · rcases done_marks result with hnil | ⟨a, hfailed⟩
    · rw [hnil, List.append_nil]
      exact ⟨harr.congr rfl fun _ => Iff.rfl, hrest, hfirst⟩
    · rw [hfailed]
      refine ⟨(harr.ended (Or.inr rfl) (fun _ hb => hb) fun _ hb => Or.inl hb).congr rfl
        fun _ => Iff.rfl, fun a' t hm => ?_, hfirst.concat_of_ne fun _ => Mark.noConfusion⟩
      exact (hrest a' t hm).imp (List.mem_append_left _) (List.mem_append_left _)
  · obtain ⟨hq, hp⟩ := hcalls a startTime (List.mem_of_getElem? hframe)
    have hnil : s.marks ++ Outcome.marks .sleep = s.marks := List.append_nil _
    rw [hnil]
    refine ⟨(harr.again hq hp).congr rfl fun b => ?_, hrest, hfirst⟩
    show b ∈ (s.run.manager.waiting ++ [(a, startTime)]).map Prod.fst ↔ _
    rw [List.map_append]
    rfl

theorem releaseLock_spec (m : DistributedLockManager) (lockId : Value) :
    (m.releaseLock lockId).1 = m ∧ (m.releaseLock lockId).2.marks = [] ∧
      ∀ a t, .acquireWaiting a t ∉ (m.releaseLock lockId).2.frame?.toList := by
  unfold releaseLock
  split
  · split
    · exact ⟨rfl, rfl, fun a t hm => by cases List.mem_singleton.mp hm⟩
    · exact ⟨rfl, rfl, fun a t hm => by cases hm⟩
  · exact ⟨rfl, rfl, fun a t hm => by cases hm⟩

theorem Ordered.quiet {m' : DistributedLockManager} {calls : List Frame}
    {victims : List (Value × DistributedLockManager)} (ho : Ordered s)
    (harr : Arrivals m' (m'.waiting.map Prod.fst) s.marks)
    (hcalls : ∀ a t, .acquireWaiting a t ∈ calls → .acquireWaiting a t ∈ s.run.calls) :
    Ordered { run := { manager := m', calls, victims }, marks := s.marks ++ [] } := by
  rw [List.append_nil]
  exact ⟨harr, fun a t hm => ho.calls a t (hcalls a t hm), ho.firstCome⟩

theorem Ordered.releaseLock (ho : Ordered s) (lockId : Value)
    (victims : List (Value × DistributedLockManager)) :
    Ordered { run := { s.run with victims }.ran (s.run.manager.releaseLock lockId),
              marks := s.marks ++ [] } := by
  obtain ⟨hm, -, hframe⟩ := releaseLock_spec s.run.manager lockId
  refine ho.quiet (hm.symm ▸ ho.arrivals) fun a t hmem => ?_
  exact (List.mem_append.mp hmem).resolve_right (hframe a t)

theorem commit_ordered {entry : LogEntry} (ho : Ordered s) (hd : Drawn s (.commit entry)) :
    Ordered { run := { s.run with manager := (s.run.manager.handleCommit entry).1 },
              marks := s.marks ++ [] } := by
  refine ho.quiet ?_ fun _ _ hm => hm
  rw [handleCommit_waiting]
  refine ho.arrivals.commit fun lock hlock b hb heq => ?_
  obtain ⟨w, hw, rfl⟩ := List.mem_map.mp hb
  exact hd lock hlock w hw heq

theorem historyStep_ordered {e : LockEvent} (ho : Ordered s) (hd : Drawn s e) (hi : InTurn s e)
    (hs : historyStep s e = some t) : Ordered t := by
  cases e with
  | start now op =>
    cases op with
    | acquireLock a => exact begin_ordered ho hd hi hs
    | wake k => exact wake_ordered ho hi hs
    | releaseLock lockId =>
      have hmarks : s.run.marks (.start now (.releaseLock lockId)) = [] :=
        (releaseLock_spec s.run.manager lockId).2.1
      obtain ⟨u, hu, rfl⟩ := Option.map_eq_some_iff.mp hs
      rw [hmarks]
      cases hu
      exact ho.releaseLock lockId s.run.victims
  | resume now k r => exact resume_ordered ho hs
  | commit entry =>
    cases hs
    exact commit_ordered ho hd
  | detect sets =>
    obtain ⟨u, hu, rfl⟩ := Option.map_eq_some_iff.mp hs
    unfold lockStep at hu
    dsimp only at hu
    split at hu
    · cases hu
      exact ho.releaseLock _ _
    · cases hu
      exact ho.quiet ho.arrivals fun _ _ hm => hm

/-- Requests are served first come, first served, in every run in which no call is accepted while a
conflicting one waits ahead of it. -/
theorem firstCome_of_inTurn {s : LockHistory}
    (h : Runs.Reach historyStep (fun s e => Drawn s e ∧ InTurn s e) {} s) : FirstCome s.marks := by
  have h0 : Ordered {} :=
    ⟨⟨by simp, by simp, by simp, by simp, by simp⟩, by simp, fun a b h₁ _ hpre => by
      simp at hpre⟩
  exact (h.invariant h0 fun t e u ht hok hs => historyStep_ordered ht hok.1 hok.2 hs).firstCome

/-! ### A call that is overtaken, and one that is not -/

instance (a b : AcquireLock) : Decidable (a.Conflicts b) := inferInstanceAs (Decidable (_ ∧ _))

instance (m : DistributedLockManager) (a b : AcquireLock) : Decidable (m.Ahead a b) :=
  inferInstanceAs (Decidable (List.Sublist _ _))

instance (s : LockHistory) : ∀ e, Decidable (Drawn s e)
  | .start _ (.acquireLock a) => inferInstanceAs (Decidable
      (∀ b ∈ s.marks.filterMap Mark.began?, b.lockId ≠ a.lockId))
  | .commit entry => inferInstanceAs (Decidable (∀ lock ∈ acquired? entry,
      ∀ w ∈ s.run.manager.waiting, (lock.lockId == .str w.1.lockId) = true →
        .appended w.1 ∈ s.marks))
  | .start _ (.wake _) | .start _ (.releaseLock _) | .resume _ _ _ | .detect _ =>
    inferInstanceAs (Decidable True)

instance (s : LockHistory) : ∀ e, Decidable (InTurn s e)
  | .start _ (.acquireLock b) => inferInstanceAs (Decidable
      (s.run.manager.tryAcquire b.resource b.lockType = true →
        ∀ w ∈ s.run.manager.waiting, w.1.Conflicts b → .appended w.1 ∈ s.marks))
  | .start _ (.wake k) => inferInstanceAs (Decidable (∀ v ∈ s.run.manager.waiting[k]?,
      s.run.manager.tryAcquire v.1.resource v.1.lockType = true →
        ∀ w ∈ s.run.manager.waiting, w.1.Conflicts v.1 → s.run.manager.Ahead w.1 v.1 →
          .appended w.1 ∈ s.marks))
  | .start _ (.releaseLock _) | .resume _ _ _ | .commit _ | .detect _ =>
    inferInstanceAs (Decidable True)

def releasing (lockId : String) : List LockEvent :=
  [.start 0 (.releaseLock (.str lockId)),
    .commit { term := 1, index := 0, command := "LOCK_RELEASE",
              data := [("lock_id", .str lockId)] },
    .resume 0 0 (.returned true)]

/-- "B" waits for the lock of "A". After the release "C" comes, and finds the resource free. -/
def overtaking : List LockEvent :=
  acquiring (lockCall "A" .exclusive "r" "l0") ++
    [.start 0 (.acquireLock (lockCall "B" .exclusive "r" "l1"))] ++ releasing "l0" ++
    [.start 0 (.acquireLock (lockCall "C" .exclusive "r" "l2"))]

theorem firstCome_fails : ¬ ∀ s : LockHistory, Runs.Reach historyStep Drawn {} s →
    FirstCome s.marks := by
  intro h
  obtain ⟨s, hs, hmarks⟩ := Runs.exists_of_checked historyStep Drawn {} overtaking
    (fun s => s.marks = [.began (lockCall "A" .exclusive "r" "l0"),
      .appended (lockCall "A" .exclusive "r" "l0"), .began (lockCall "B" .exclusive "r" "l1"),
      .queued (lockCall "B" .exclusive "r" "l1"), .began (lockCall "C" .exclusive "r" "l2")] ++
        [.appended (lockCall "C" .exclusive "r" "l2")]) (by decide +kernel)
  have hfirst := h s hs
  rw [hmarks] at hfirst
  have := hfirst (lockCall "B" .exclusive "r" "l1") (lockCall "C" .exclusive "r" "l2") _
    (by decide +kernel) List.prefix_rfl (by decide +kernel) (by decide +kernel)
  revert this
  decide +kernel

/-- "C" begins while "B" waits, and both wake up in this order. -/
theorem firstCome_in_turn : ∃ s : LockHistory,
    [.queued (lockCall "B" .exclusive "r" "l1"), .began (lockCall "C" .exclusive "r" "l2"),
      .appended (lockCall "C" .exclusive "r" "l2")].Sublist s.marks ∧ FirstCome s.marks := by
  obtain ⟨s, hs, hmarks⟩ := Runs.exists_of_checked historyStep
    (fun s e => Drawn s e ∧ InTurn s e) {}
    (acquiring (lockCall "A" .exclusive "r" "l0") ++
      [.start 0 (.acquireLock (lockCall "B" .exclusive "r" "l1")),
        .start 0 (.acquireLock (lockCall "C" .exclusive "r" "l2"))] ++ releasing "l0" ++
      [.start 0 (.wake 0),
        .commit { term := 1, index := 0, command := "LOCK_ACQUIRE",
                  data := (lockCall "B" .exclusive "r" "l1").data },
        .resume 0 0 (.returned true)] ++ releasing "l1" ++ [.start 0 (.wake 0)])
    (fun s => [.queued (lockCall "B" .exclusive "r" "l1"),
      .began (lockCall "C" .exclusive "r" "l2"),
      .appended (lockCall "C" .exclusive "r" "l2")].Sublist s.marks) (by decide +kernel)
  exact ⟨s, hmarks, firstCome_of_inTurn hs⟩

end DistributedSync
