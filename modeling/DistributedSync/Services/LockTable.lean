import DistributedSync.Services.LockManager

/-!
# The lock table

`DistributedLockManager.locks` changes with committed entries only, by `LockTable.apply`; the calls
of the service test the table and leave it alone (`KeepsTable`). A table in which exclusive locks
are alone on their resource stays so as long as each new lock is compatible with the locks it holds
(`Exclusive.apply`). What the entries of a log add to a table is pending in the log (`mem_foldl`).
-/

namespace DistributedSync

/-- Two locks that must not be held together. -/
def Lock.Conflict (l l' : Lock) : Prop :=
  (l.resource == l'.resource) = true ∧ (l.lockType = .exclusive ∨ l'.lockType = .exclusive)

instance (l l' : Lock) : Decidable (l.Conflict l') := inferInstanceAs (Decidable (_ ∧ _))

theorem Lock.Conflict.symm {l l' : Lock} (h : l.Conflict l') : l'.Conflict l :=
  ⟨BEq.symm h.1, h.2.symm⟩

/-! ## Calls -/

namespace DistributedLockManager

variable (m : DistributedLockManager)

def Frame.acquires : Frame → Option AcquireLock
  | .acquire a | .acquireWaiting a _ => some a
  | .release _ => none

/-- `_try_acquire` accepts the `acquire_lock` call of the frame. -/
def Tested (frame : Frame) : Prop :=
  ∀ a ∈ frame.acquires, m.tryAcquire a.resource a.lockType = true

/-- A coroutine leaves the lock table as it was, and stops at an `append_entry` call only after it
has tested the table. -/
def KeepsTable (r : DistributedLockManager × Outcome Frame Result) : Prop :=
  r.1.locks = m.locks ∧ ∀ frame, r.2 = .append frame → r.1.Tested frame

variable {m}

theorem KeepsTable.of_done {m' : DistributedLockManager} (h : m'.locks = m.locks)
    (result : Result) : m.KeepsTable (m', .done result) :=
  ⟨h, fun _ hf => by cases hf⟩

theorem KeepsTable.of_acquire {m' : DistributedLockManager} {frame : Frame} {a : AcquireLock}
    (h : m'.locks = m.locks) (hf : frame.acquires = some a)
    (ht : m'.tryAcquire a.resource a.lockType = true) : m.KeepsTable (m', .append frame) := by
  refine ⟨h, fun _ hfr a' ha' => ?_⟩
  cases hfr
  rw [hf] at ha'
  cases ha'
  exact ht

theorem KeepsTable.trans {m' : DistributedLockManager}
    {r : DistributedLockManager × Outcome Frame Result}
    (h : m'.KeepsTable r) (hm : m'.locks = m.locks) : m.KeepsTable r :=
  ⟨h.1.trans hm, h.2⟩

theorem checkTimeout_keepsTable (a : AcquireLock) (startTime now : ℚ) :
    m.KeepsTable (m.checkTimeout a startTime now) := by
  unfold checkTimeout
  split
  · exact .of_done rfl _
  · split
    · exact .of_done rfl _
    · exact ⟨rfl, fun _ hf => by cases hf⟩

theorem poll_keepsTable (a : AcquireLock) (startTime now : ℚ) :
    m.KeepsTable (m.poll a startTime now) := by
  unfold poll
  split
  · next ht => exact .of_acquire rfl rfl ht
  · exact checkTimeout_keepsTable a startTime now

theorem waitForHolder_locks (a : AcquireLock) : (m.waitForHolder a).1.locks = m.locks := by
  unfold waitForHolder
  split
  · split <;> rfl
  · rfl

theorem acquireLock_keepsTable (a : AcquireLock) (now : ℚ) :
    m.KeepsTable (m.acquireLock a now) := by
  have hw : ((m.enqueue a).waitForHolder a).1.locks = m.locks := waitForHolder_locks a
  unfold acquireLock
  split
  · next ht => exact .of_acquire rfl rfl ht
  · split
    · dsimp only
      split
      · exact .of_done hw _
      · exact (poll_keepsTable a now now).trans hw
    · exact .of_done rfl _

theorem start_keepsTable {now : ℚ} {op : Op} {r : DistributedLockManager × Outcome Frame Result}
    (h : m.start now op = some r) : m.KeepsTable r := by
  cases op with
  | acquireLock a =>
    cases h
    exact acquireLock_keepsTable a now
  | wake k =>
    obtain ⟨w, -, rfl⟩ := Option.map_eq_some_iff.mp h
    exact poll_keepsTable w.1 w.2 now
  | releaseLock lockId =>
    cases h
    unfold releaseLock
    split
    · split
      · refine ⟨rfl, fun _ hf a ha => ?_⟩
        cases hf
        cases ha
      · exact .of_done rfl _
    · exact .of_done rfl _

theorem resume_keepsTable (now : ℚ) (frame : Frame) (r : Appended) :
    m.KeepsTable (m.resume now frame r) := by
  cases frame with
  | acquire a => exact .of_done rfl _
  | acquireWaiting a startTime =>
    rcases r with ⟨_ | _⟩ | _
    · exact checkTimeout_keepsTable a startTime now
    · exact .of_done rfl _
    · exact .of_done rfl _
  | release lockId => rcases r with _ | _ <;> exact .of_done rfl _

end DistributedLockManager

/-! ## Entries about locks -/

namespace LogEntry

/-- The lock that the entry grants. -/
def granted? (e : LogEntry) : Option Lock :=
  if e.command = "LOCK_ACQUIRE" then DistributedLockManager.lockOf e.data else none

/-- The entry releases the lock. -/
def releases (e : LogEntry) (lockId : Value) : Bool :=
  e.command = "LOCK_RELEASE" &&
    (e.data.lookup "lock_id").any fun id => id.hashable && id == lockId

/-- The locks that entries grant, less those that later ones release. -/
def pendingLocks : List LogEntry → List Lock
  | [] => []
  | e :: es => (e.granted?.filter fun l => !es.any fun e' => e'.releases l.lockId).toList ++
      pendingLocks es

theorem releases_congr (e : LogEntry) {id id' : Value} (h : (id == id') = true) :
    e.releases id = e.releases id' := by
  unfold releases
  simp only [BEq.congr_right h]

end LogEntry

def AcquireLock.lock (a : AcquireLock) : Lock where
  lockId := .str a.lockId
  resource := a.resource
  owner := a.clientId
  lockType := a.lockType
  ttl := a.timeout

@[simp] theorem AcquireLock.lockOf_data (a : AcquireLock) :
    DistributedLockManager.lockOf a.data = some a.lock := by
  obtain ⟨resource, _ | _, clientId, timeout, lockId⟩ := a <;> rfl

/-! ## The table -/

/-- The locks by their ids. -/
abbrev LockTable := List (Value × Lock)

namespace LockTable

open LogEntry

variable {t : LockTable} {e : LogEntry} {es : List LogEntry} {p : Value × Lock}

/-- What `_handle_commit` makes of the table. -/
def apply (t : LockTable) (e : LogEntry) : LockTable :=
  (({ locks := t } : DistributedLockManager).handleCommit e).1.locks

/-- The table after all entries of a log. -/
def ofLog (log : List LogEntry) : LockTable := log.foldl apply []

/-- An exclusive lock is the only one on its resource. -/
def Exclusive (t : LockTable) : Prop :=
  t.Pairwise fun p q => (p.1 == q.1) = false ∧ ¬p.2.Conflict q.2

/-- How an entry changes the table. -/
inductive Applies (t : LockTable) (e : LogEntry) : LockTable → Prop
  | grant (l : Lock) (hl : e.granted? = some l) (hr : ∀ id, e.releases id = false) :
    Applies t e (setItem t l.lockId l)
  | release (lockId : Value) (hr : ∀ id, e.releases id = (lockId == id)) :
    Applies t e (delItem t lockId)
  | skip (hr : ∀ id, e.releases id = false) : Applies t e t

theorem applies (m : DistributedLockManager) (e : LogEntry) :
    Applies m.locks e (m.handleCommit e).1.locks := by
  unfold DistributedLockManager.handleCommit
  split
  · next hc =>
    have hr : ∀ id, e.releases id = false := fun id => by simp [releases, hc]
    split
    · exact .skip hr
    · next l hl =>
      have hg := Applies.grant (t := m.locks) l (by rw [granted?, if_pos hc, hl]) hr
      split
      · dsimp only
        split
        · split <;> exact hg
        · exact hg
      · exact .skip hr
  · split
    · next hc =>
      split
      · next hl => exact .skip fun id => by simp [releases, hl]
      · next lockId hl =>
        split
        · next hh => exact .release lockId fun id => by simp [releases, hc, hl, hh]
        · next hh => exact .skip fun id => by simp [releases, hl, hh]
    · next hc => exact .skip fun id => by simp [releases, hc]

theorem handleCommit_locks (m : DistributedLockManager) (e : LogEntry) :
    (m.handleCommit e).1.locks = apply m.locks e := by
  unfold apply DistributedLockManager.handleCommit
  split
  · split
    · rfl
    · next l _ =>
      split
      · dsimp only
        split
        · rw [show (([] : List (Value × List (Value × LockType × Value))).lookup l.resource) = none
            from rfl]
          split <;> rfl
        · rfl
      · rfl
  · split
    · split
      · rfl
      · split <;> rfl
    · rfl

theorem mem_apply (h : p ∈ apply t e) : e.releases p.1 = false ∧
    (p ∈ t ∨ ∃ l, e.granted? = some l ∧ (p.1 == l.lockId) = true ∧ p.2 = l) := by
  unfold apply at h
  generalize ht : (({ locks := t } : DistributedLockManager).handleCommit e).1.locks = t' at h
  cases ht ▸ applies { locks := t } e with
  | grant l hl hr =>
    refine ⟨hr p.1, ?_⟩
    rcases mem_setItem h with ⟨-, h⟩ | ⟨hk, hp⟩
    · exact Or.inl h
    · exact Or.inr ⟨l, hl, hk, hp⟩
  | release lockId hr =>
    obtain ⟨hk, hp⟩ := mem_delItem.mp h
    rw [hr, BEq.comm]
    exact ⟨hk, Or.inl hp⟩
  | skip hr => exact ⟨hr p.1, Or.inl h⟩

/-- A lock in the table after some entries was there before, or it is pending in these entries. -/
theorem mem_foldl (h : p ∈ es.foldl apply t) :
    p ∈ t ∧ (es.any fun e => e.releases p.1) = false ∨ p.2 ∈ pendingLocks es := by
  induction es generalizing t with
  | nil => exact Or.inl ⟨h, rfl⟩
  | cons e es ih =>
    rcases ih h with ⟨hp, hr⟩ | hp
    · obtain ⟨hr', hp | ⟨l, hl, hk, hp⟩⟩ := mem_apply hp
      · exact Or.inl ⟨hp, by rw [List.any_cons, hr', hr]; rfl⟩
      · refine Or.inr (List.mem_append_left _ ?_)
        have hr' : (es.any fun e' => e'.releases l.lockId) = false := by
          rw [← hr]
          simp only [releases_congr _ hk]
        rw [hl, Option.filter_some, hr', hp]
        exact List.mem_singleton_self l
    · exact Or.inr (List.mem_append_right _ hp)

theorem Exclusive.apply (h : Exclusive t) (hg : ∀ l, e.granted? = some l →
    ∀ p ∈ t, (p.1 == l.lockId) = false → ¬p.2.Conflict l) : Exclusive (apply t e) := by
  unfold LockTable.apply
  generalize ht : (({ locks := t } : DistributedLockManager).handleCommit e).1.locks = t'
  cases ht ▸ applies { locks := t } e with
  | grant l hl hr =>
    exact pairwise_setItem (R := fun l l' : Lock => ¬l.Conflict l') h fun p hp hk =>
      ⟨hg l hl p hp hk, fun hc => hg l hl p hp hk hc.symm⟩
  | release lockId hr => exact List.Pairwise.filter _ h
  | skip hr => exact h

/-- A lock that `_try_acquire` accepts conflicts with no lock of the table. -/
theorem not_conflict_of_tryAcquire {m : DistributedLockManager} {l : Lock}
    (h : m.tryAcquire l.resource l.lockType = true) (hp : p ∈ m.locks) : ¬p.2.Conflict l := by
  rintro ⟨heq, hx⟩
  have hmem : p.2 ∈ (m.locks.map Prod.snd).filter fun l' => l'.resource == l.resource :=
    List.mem_filter.mpr ⟨List.mem_map_of_mem hp, heq⟩
  unfold DistributedLockManager.tryAcquire at h
  dsimp only at h
  rw [if_neg (by rw [List.isEmpty_iff]; exact List.ne_nil_of_mem hmem)] at h
  rcases hl : l.lockType with _ | _ <;> rw [hl] at h hx
  · rw [Bool.not_eq_true', List.any_eq_false] at h
    exact h p.2 hmem (decide_eq_true (hx.resolve_right (by decide)))
  · cases h

theorem Exclusive.alone {m : DistributedLockManager} {r : Value} {l : Lock}
    (h : Exclusive m.locks) (hl : l ∈ m.getLocksForResource r) (hx : l.lockType = .exclusive) :
    m.getLocksForResource r = [l] := by
  -- any two locks on the resource conflict with each other if one of them is exclusive
  have hpair : (m.getLocksForResource r).Pairwise fun l₁ l₂ =>
      l₁.lockType ≠ .exclusive ∧ l₂.lockType ≠ .exclusive := by
    have hmap : (m.locks.map Prod.snd).Pairwise fun l₁ l₂ => ¬l₁.Conflict l₂ :=
      List.pairwise_map.mpr (h.imp And.right)
    refine (hmap.filter _).imp_of_mem fun h₁ h₂ hc => ?_
    have heq := BEq.trans (List.mem_filter.mp h₁).2 (BEq.symm (List.mem_filter.mp h₂).2)
    exact not_or.mp fun hx => hc ⟨heq, hx⟩
  generalize m.getLocksForResource r = ls at hl hpair
  obtain _ | ⟨a, _ | ⟨b, ls⟩⟩ := ls
  · cases hl
  · rw [List.mem_singleton.mp hl]
  · obtain ⟨ha, -⟩ := List.pairwise_cons.mp hpair
    rcases List.mem_cons.mp hl with rfl | hl
    · exact absurd hx (ha b List.mem_cons_self).1
    · exact absurd hx (ha l hl).2

end LockTable

end DistributedSync
