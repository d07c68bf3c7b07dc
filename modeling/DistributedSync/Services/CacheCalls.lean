import DistributedSync.Services.CacheMap

/-!
# The course of a call

A call of `put` or `get` changes the cache of its node when it begins and each time `append_entry`
comes back to it, and in between through the entries it has logged. A `put` that returns False
leaves every map alone exactly if its CACHE_INVALIDATE_ALL was never logged (`put_atomic_iff`).
-/

namespace DistributedSync

namespace MOESICache

/-! ## Courses -/

/-- The course of a coroutine from an outcome on: the cache before and after each of its own steps,
the calls of `append_entry` that logged an entry, and its result. A call that returns False has
logged nothing. Between two steps other coroutines and applied entries may change the cache in any
way. -/
inductive Course :
    Outcome Frame Result → List (MOESICache × MOESICache) → List Frame → Result → Prop
  | done (result : Result) : Course (.done result) [] [] result
  | refused (frame : Frame) (c : MOESICache) (now : ℚ) {steps : List (MOESICache × MOESICache)}
    {logged : List Frame} {result : Result}
    (h : Course (c.resume now frame (.returned false)).2 steps logged result) :
    Course (.append frame) ((c, (c.resume now frame (.returned false)).1) :: steps) logged result
  | logged (frame : Frame) (c : MOESICache) (now : ℚ) (a : Appended) (ha : a ≠ .returned false)
    {steps : List (MOESICache × MOESICache)} {logged : List Frame} {result : Result}
    (h : Course (c.resume now frame a).2 steps logged result) :
    Course (.append frame) ((c, (c.resume now frame a).1) :: steps) (frame :: logged) result

def PutCourse (key value ttl : Value) (steps : List (MOESICache × MOESICache))
    (logged : List Frame) (result : Result) : Prop :=
  ∃ (c : MOESICache) (now : ℚ) (steps' : List (MOESICache × MOESICache)),
    steps = (c, (c.put key value ttl now).1) :: steps' ∧
      Course (c.put key value ttl now).2 steps' logged result

/-- The course changes no map: neither by its own steps, nor when an entry it has logged is applied
on any node. -/
structure Atomic (steps : List (MOESICache × MOESICache)) (logged : List Frame) : Prop where
  steps : ∀ p ∈ steps, p.2.live = p.1.live
  logged : ∀ frame ∈ logged, ∀ (c : MOESICache) (now : ℚ) (e : LogEntry),
    (e.command, e.data) = request frame → (c.handleCommit now e).1.live = c.live

/-! ## Failed puts -/

variable {c : MOESICache} {now : ℚ} {key value ttl : Value} {frame : Frame} {result : Result}
  {steps : List (MOESICache × MOESICache)} {logged : List Frame}

theorem acquire_live {nodeId : String} {e : LogEntry}
    (he : (e.command, e.data) = request (.acquireExclusive nodeId key value ttl)) :
    (c.handleCommit now e).1.live = c.live := by
  obtain ⟨hc, -⟩ := Prod.mk.inj he
  simp [handleCommit, hc]

theorem broadcast_live (nodeId : String) (value ttl : Value) (hkey : key.hashable = true) :
    ∃ (c : MOESICache) (e : LogEntry),
      (e.command, e.data) = request (.broadcastInvalidation nodeId key value ttl) ∧
        (c.handleCommit 0 e).1.live ≠ c.live := by
  set block : CacheBlock := { key, value, state := .exclusive, ownerNode := .str nodeId,
                              lastModified := 0, ttl }
  set other : MOESICache := { nodeId := nodeId ++ "x", maxSize := 1, defaultTtl := ttl,
                              cache := [(key, block)] }
  set e : LogEntry := { term := 1, index := 0, command := "CACHE_INVALIDATE_ALL",
                        data := [("key", key), ("except_node", .str nodeId)] }
  refine ⟨other, e, rfl, fun h => ?_⟩
  have hspares : e.spares other.nodeId = false := by
    have hne : ¬nodeId = nodeId ++ "x" := fun h => by
      have := congrArg String.length h
      simp at this
    have hbeq : (Value.str nodeId == .str (nodeId ++ "x")) = false :=
      Bool.eq_false_iff.mpr fun h => hne (Value.str_beq_str.mp h)
    simp [LogEntry.spares, e, lookup_cons, other, hbeq]
  have heffect : e.cacheEffect = some (key, none) := by
    simp [LogEntry.cacheEffect, LogEntry.cacheWrite, e, lookup_cons, hkey]
  have hkey := congrFun h key
  rw [handleCommit_live, hspares, LogEntry.applyTo, heffect, if_neg Bool.false_ne_true] at hkey
  dsimp only at hkey
  rw [assign_self _ BEq.rfl] at hkey
  simp [live, other, CacheBlock.live?, block] at hkey

theorem Course.of_done {o : Outcome Frame Result} (h : Course o steps logged result) {r : Result}
    (ho : o = .done r) : steps = [] ∧ logged = [] ∧ result = r := by
  cases h with
  | done result => exact ⟨rfl, rfl, Outcome.done.inj ho⟩
  | refused frame c now h => cases ho
  | logged frame c now a ha h => cases ho

theorem Course.of_append {o : Outcome Frame Result} (h : Course o steps logged result)
    (ho : o = .append frame) : ∃ (c : MOESICache) (now : ℚ) (a : Appended)
      (steps' : List (MOESICache × MOESICache)) (logged' : List Frame),
      Course (c.resume now frame a).2 steps' logged' result ∧
      steps = (c, (c.resume now frame a).1) :: steps' ∧
      logged = if a = .returned false then logged' else frame :: logged' := by
  cases h with
  | done result => cases ho
  | refused frame c now h =>
    cases ho
    exact ⟨c, now, _, _, _, h, rfl, rfl⟩
  | logged frame c now a ha h =>
    cases ho
    exact ⟨c, now, a, _, _, h, rfl, (if_neg ha).symm⟩

theorem Course.of_invalidateBlock {caller : Caller}
    (h : Course (.append (.invalidateBlock key caller)) steps logged result) :
    result = caller.result ∨ result = .raised := by
  obtain ⟨c, now, a, steps', logged', h, -, -⟩ := h.of_append rfl
  rcases a with ⟨_ | _⟩ | _
  · exact Or.inl (h.of_done rfl).2.2
  · by_cases hb : (c.cache.lookup key).isSome
    · exact Or.inl (h.of_done (by simp only [resume, hb, if_true])).2.2
    · exact Or.inr (h.of_done (by simp [resume, hb])).2.2
  · exact Or.inr (h.of_done rfl).2.2

/-- Once `put` has its block, it returns False only if the last call is refused. -/
theorem Course.of_replicate {nodeId : String} {block : CacheBlock}
    (h : Course (.append (.replicate nodeId key value ttl block)) steps logged
      (.put key value false)) :
    logged = [] ∧ ∀ p ∈ steps, p.2.live = p.1.live := by
  obtain ⟨c, now, a, steps', logged', hrest, rfl, rfl⟩ := h.of_append rfl
  rcases a with ⟨_ | _⟩ | _
  · obtain ⟨rfl, rfl, -⟩ := hrest.of_done rfl
    exact ⟨rfl, by simp [resume]⟩
  · obtain ⟨c', -, -, ⟨heq, -⟩ | ⟨victim, b, -, -, -, heq⟩⟩ := c.store_cases now key value block
    · cases (hrest.of_done (congrArg Prod.snd heq)).2.2
    · have ho : (c.resume now (.replicate nodeId key value ttl block) (.returned true)).2 =
          .append (.invalidateBlock victim (.put key value)) := congrArg Prod.snd heq
      rw [ho] at hrest
      rcases hrest.of_invalidateBlock with h | h <;> cases h
  · cases (hrest.of_done rfl).2.2

/-- A `put` that returns False has changed no map and will change none, exactly if it has not logged
its CACHE_INVALIDATE_ALL. -/
theorem put_atomic_iff (h : PutCourse key value ttl steps logged (.put key value false)) :
    Atomic steps logged ↔ ∀ frame ∈ logged, (request frame).1 ≠ "CACHE_INVALIDATE_ALL" := by
  obtain ⟨c, now, steps', rfl, h⟩ := h
  have hfirst : (c.put key value ttl now).1.live = c.live := by rw [put_fst]
  rcases put_cases c now key value ttl with ho | ⟨-, nodeId, ttl', block, ho⟩ |
    ⟨hkey, nodeId, ttl', ho⟩
  · cases (h.of_done ho).2.2
  · rw [ho] at h
    obtain ⟨rfl, hsteps⟩ := h.of_replicate
    exact iff_of_true ⟨by simpa [hfirst] using hsteps, by simp⟩ (by simp)
  · obtain ⟨c₁, now₁, a₁, steps₁, logged₁, h₁, rfl, rfl⟩ := h.of_append ho
    rcases a₁ with ⟨_ | _⟩ | _
    · obtain ⟨rfl, rfl, -⟩ := h₁.of_done rfl
      exact iff_of_true ⟨by simp [hfirst, resume], by simp⟩ (by simp)
    · obtain ⟨c₂, now₂, a₂, steps₂, logged₂, h₂, rfl, rfl⟩ := h₁.of_append rfl
      rcases a₂ with ⟨b⟩ | _
      · obtain ⟨rfl, hsteps⟩ := h₂.of_replicate
        cases b
        · refine iff_of_true ⟨?_, ?_⟩ (by simp [request])
          · have h₁ : (c₁.resume now₁ (.acquireExclusive nodeId key value ttl')
                (.returned true)).1.live = c₁.live := rfl
            have h₂ : (c₂.resume now₂ (.broadcastInvalidation nodeId key value ttl')
                (.returned false)).1.live = c₂.live := rfl
            simpa [hfirst, h₁, h₂] using hsteps
          · intro frame hframe c now e he
            obtain rfl : frame = .acquireExclusive nodeId key value ttl' := by simpa using hframe
            exact acquire_live he
        · refine iff_of_false (fun hat => ?_) fun hno => ?_
          · obtain ⟨other, e, he, hne⟩ := broadcast_live nodeId value ttl' hkey
            exact hne
              (hat.logged (.broadcastInvalidation nodeId key value ttl') (by simp) other 0 e he)
          · exact hno (.broadcastInvalidation nodeId key value ttl') (by simp) rfl
      · cases (h₂.of_done rfl).2.2
    · cases (h₁.of_done rfl).2.2

def empty : MOESICache where
  nodeId := "a"
  maxSize := 1000
  defaultTtl := .int 3600

def acquireK : Frame := .acquireExclusive "a" (.str "k") (.str "v") (.int 0)

def broadcastK : Frame := .broadcastInvalidation "a" (.str "k") (.str "v") (.int 0)

theorem put_atomic_refused : ∃ steps,
    PutCourse (.str "k") (.str "v") (.int 0) steps [acquireK] (.put (.str "k") (.str "v") false) ∧
      Atomic steps [acquireK] := by
  have h : PutCourse (.str "k") (.str "v") (.int 0) _ [acquireK]
      (.put (.str "k") (.str "v") false) :=
    ⟨empty, 0, _, rfl, .logged acquireK empty 0 (.returned true) (by decide)
      (.refused broadcastK empty 0 (.refused _ empty 0 (.done _)))⟩
  exact ⟨_, h, (put_atomic_iff h).mpr (by decide)⟩

/-- Leadership is lost after the second entry, and another node loses the block with it. -/
theorem put_atomic_fails : ¬∀ steps logged,
    PutCourse (.str "k") (.str "v") (.int 0) steps logged (.put (.str "k") (.str "v") false) →
      Atomic steps logged := by
  intro h
  obtain ⟨other, e, he, hne⟩ := broadcast_live "a" (.str "v") (.int 0)
    (rfl : (Value.str "k").hashable = true)
  have hcourse : PutCourse (.str "k") (.str "v") (.int 0) _ [acquireK, broadcastK]
      (.put (.str "k") (.str "v") false) :=
    ⟨empty, 0, _, rfl, .logged acquireK empty 0 (.returned true) (by decide)
      (.logged broadcastK empty 0 (.returned true) (by decide) (.refused _ empty 0 (.done _)))⟩
  exact hne ((h _ _ hcourse).logged broadcastK (by simp) other 0 e he)

end MOESICache

end DistributedSync
