import DistributedSync.Services.CacheCalls
import Mathlib.Logic.Relation

/-!
# Expiry and eviction

`_invalidate_block` marks a block, has a CACHE_INVALIDATE entry replicated and then deletes the
block. The callback of that entry deletes it too. Each of the two counts the invalidation if it
finds the block, but only the callback expects that there may be none. So all goes well exactly if
the block is there when `append_entry` returns, and is not when the entry is applied
(`invalidation_succeeds_iff`).
-/

namespace DistributedSync

namespace MOESICache

/-! ## Reachable caches -/

def Frame.key : Frame → Value
  | .acquireExclusive _ key _ _ | .broadcastInvalidation _ key _ _ | .replicate _ key _ _ _
  | .invalidateBlock key _ => key

/-- One step of the cache of a node: a coroutine begins or goes on, or an entry is applied. The key
of a coroutine was hashed when it began. -/
inductive Step (c : MOESICache) : MOESICache → Prop
  | call (now : ℚ) (op : Op) : Step c (c.start now op).1
  | resume (now : ℚ) (frame : Frame) (a : Appended) (hkey : frame.key.hashable = true) :
    Step c (c.resume now frame a).1
  | commit (now : ℚ) (e : LogEntry) : Step c (c.handleCommit now e).1

abbrev Steps : MOESICache → MOESICache → Prop := Relation.ReflTransGen Step

def Reachable (c : MOESICache) : Prop := ∃ c₀ : MOESICache, c₀.cache = [] ∧ Steps c₀ c

def HashableKeys (c : MOESICache) : Prop := ∀ p ∈ c.cache, p.1.hashable = true

variable {c c' : MOESICache} {key : Value} {d : List (Value × CacheBlock)}

theorem hashable_of_lookup (h : ∀ p ∈ d, p.1.hashable = true) {b : CacheBlock}
    (hb : d.lookup key = some b) : key.hashable = true := by
  obtain ⟨p, hp, hk, -⟩ := mem_of_lookup hb
  rw [Value.hashable_congr hk, h p hp]

theorem hashable_setItem (h : ∀ p ∈ d, p.1.hashable = true) (hkey : key.hashable = true)
    (b : CacheBlock) : ∀ p ∈ setItem d key b, p.1.hashable = true := by
  intro p hp
  rcases mem_setItem hp with ⟨-, hp⟩ | ⟨hk, -⟩
  · exact h p hp
  · rw [Value.hashable_congr hk, hkey]

theorem keeps_hashable : Keeps fun d => ∀ p ∈ d, p.1.hashable = true where
  mark h hb := hashable_setItem h (hashable_of_lookup h hb) _
  delete h p hp := h p (mem_delItem.mp hp).2

theorem HashableKeys.step (h : c.HashableKeys) (hs : Step c c') : c'.HashableKeys := by
  cases hs with
  | call now op => exact keeps_hashable.start h op
  | resume now frame a hkey =>
    refine keeps_hashable.resume h fun nodeId key value ttl block heq _ => ?_
    rw [heq] at hkey
    exact hashable_setItem h hkey block
  | commit now e =>
    exact keeps_hashable.commit h fun key b hw =>
      hashable_setItem h (LogEntry.cacheWrite_hashable hw) b

theorem Reachable.hashableKeys (h : c.Reachable) : c.HashableKeys := by
  obtain ⟨c₀, h₀, hs⟩ := h
  induction hs with
  | refl =>
    intro p hp
    rw [h₀] at hp
    cases hp
  | tail _ hs ih => exact ih.step hs

/-! ## Invalidations -/

/-- A call comes to invalidate a block: it is a `get` that finds it expired, or a `put` whose block
does not fit. -/
inductive Begins (c : MOESICache) (key : Value) : Caller → MOESICache → Prop
  | expired (now : ℚ) (h : (c.get key now).2 = .append (.invalidateBlock key (.get key))) :
    Begins c key (.get key) (c.get key now).1
  | overflow (now : ℚ) (nodeId : String) (key' value ttl : Value) (block : CacheBlock)
    (hkey : key'.hashable = true)
    (h : (c.resume now (.replicate nodeId key' value ttl block) (.returned true)).2 =
      .append (.invalidateBlock key (.put key' value))) :
    Begins c key (.put key' value)
      (c.resume now (.replicate nodeId key' value ttl block) (.returned true)).1

theorem Begins.hashable {caller : Caller} (hc : c.Reachable) (h : Begins c key caller c') :
    key.hashable = true := by
  have hkeys := hc.hashableKeys
  cases h with
  | expired now heq =>
    rcases c.get_cases now key with ⟨-, r, hr⟩ | ⟨b, -, -, -, hr⟩ | ⟨b, hkey, -⟩
    · rw [hr] at heq
      cases heq
    · rw [hr] at heq
      cases heq
    · exact hkey
  | overflow now nodeId key' value ttl block hkey heq =>
    obtain ⟨c', hc', -, ⟨hs, -⟩ | ⟨victim, b, -, hb, -, hs⟩⟩ := c.store_cases now key' value block
    · cases (congrArg Prod.snd hs).symm.trans heq
    · cases (congrArg Prod.snd hs).symm.trans heq
      exact hashable_of_lookup (hc' ▸ hashable_setItem hkeys hkey block) hb

/-- A call invalidates a block that is there, and marks it first. -/
theorem Begins.isSome {caller : Caller} (h : Begins c key caller c') :
    (c'.cache.lookup key).isSome = true := by
  cases h with
  | expired now heq =>
    rcases c.get_cases now key with ⟨-, r, hr⟩ | ⟨b, -, -, -, hr⟩ | ⟨b, -, -, -, hcache, -⟩
    · rw [hr] at heq
      cases heq
    · rw [hr] at heq
      cases heq
    · rw [hcache, lookup_setItem, if_pos BEq.rfl]
      rfl
  | overflow now nodeId key' value ttl block hkey heq =>
    obtain ⟨c', -, -, ⟨hs, -⟩ | ⟨victim, b, -, -, -, hs⟩⟩ := c.store_cases now key' value block
    · cases (congrArg Prod.snd hs).symm.trans heq
    · cases (congrArg Prod.snd hs).symm.trans heq
      rw [resume, if_pos rfl, hs, lookup_setItem, if_pos BEq.rfl]
      rfl

theorem Caller.result_ne (caller : Caller) : caller.result ≠ .raised := by
  cases caller <;> exact Result.noConfusion

/-- The invalidation of a block on a leader. The CACHE_INVALIDATE entry is applied before
`append_entry` returns (`inside`) or after that. In between there may be any steps. -/
structure Invalidation where
  key : Value
  caller : Caller
  /-- The cache in which `append_entry` is called. -/
  begun : MOESICache
  begins : ∃ c, c.Reachable ∧ Begins c key caller begun
  inside : Bool
  /-- The cache in which the entry is applied. -/
  atCommit : MOESICache
  commitTime : ℚ
  entry : LogEntry
  entry_eq : (entry.command, entry.data) = request (.invalidateBlock key caller)
  /-- The cache in which `append_entry` returns. -/
  atReturn : MOESICache
  returnTime : ℚ
  course :
    if inside then Steps begun atCommit ∧ Steps (atCommit.handleCommit commitTime entry).1 atReturn
    else Steps begun atReturn ∧
      Steps (atReturn.resume returnTime (.invalidateBlock key caller) (.returned true)).1 atCommit

namespace Invalidation

variable (t : Invalidation)

/-- The cache after the entry is applied, and whether the callback raises. -/
def committed : MOESICache × Bool := t.atCommit.handleCommit t.commitTime t.entry

/-- The cache after `append_entry` has returned True, and what the call does then. -/
def returned : MOESICache × Outcome Frame Result :=
  t.atReturn.resume t.returnTime (.invalidateBlock t.key t.caller) (.returned true)

/-- The call returns None or True, the block is gone when the entry is applied, and the two steps
count one invalidation. -/
structure Succeeds : Prop where
  returns : t.returned.2 = .done t.caller.result
  gone : t.committed.2 = false ∧ t.committed.1.cache.lookup t.key = none
  counted : t.committed.1.invalidations + t.returned.1.invalidations =
    t.atCommit.invalidations + t.atReturn.invalidations + 1

theorem committed_eq (t : Invalidation) : t.committed =
    if (t.atCommit.cache.lookup t.key).isSome then
      ({ t.atCommit with cache := delItem t.atCommit.cache t.key,
                         invalidations := t.atCommit.invalidations + 1 }, false)
    else (t.atCommit, false) := by
  have hcommit : t.committed = t.atCommit.dropBlock t.key := by
    obtain ⟨hc, hd⟩ := Prod.mk.inj t.entry_eq
    simp [committed, handleCommit, hc, hd]
  obtain ⟨c, hc, hb⟩ := t.begins
  rw [hcommit]
  exact if_pos (hb.hashable hc)

theorem returned_eq (t : Invalidation) : t.returned =
    if (t.atReturn.cache.lookup t.key).isSome then
      ({ t.atReturn with cache := delItem t.atReturn.cache t.key,
                         invalidations := t.atReturn.invalidations + 1 }, .done t.caller.result)
    else (t.atReturn, .done .raised) := by
  rw [returned, resume, if_pos rfl]

variable {t} in
theorem Succeeds.there (h : t.Succeeds) : (t.atReturn.cache.lookup t.key).isSome = true := by
  by_contra hno
  have hret := h.returns
  rw [returned_eq, if_neg hno] at hret
  exact t.caller.result_ne (Outcome.done.inj hret).symm

variable {t} in
theorem Succeeds.absent (h : t.Succeeds) : t.atCommit.cache.lookup t.key = none := by
  by_contra hno
  rw [← ne_eq, Option.ne_none_iff_isSome] at hno
  have hcount := h.counted
  rw [committed_eq, returned_eq, if_pos hno, if_pos h.there] at hcount
  dsimp only at hcount
  omega

theorem succeeds_of (hthere : (t.atReturn.cache.lookup t.key).isSome = true)
    (habsent : t.atCommit.cache.lookup t.key = none) : t.Succeeds := by
  have hcommit : t.committed = (t.atCommit, false) := by
    rw [committed_eq, habsent]
    rfl
  have hret := t.returned_eq
  rw [if_pos hthere] at hret
  refine ⟨by rw [hret], ⟨by rw [hcommit], by rw [hcommit]; exact habsent⟩, ?_⟩
  rw [hcommit, hret]
  dsimp only
  omega

/-- All goes well exactly if the block is there when `append_entry` returns, and is not when the
entry is applied. -/
theorem invalidation_succeeds_iff (t : Invalidation) :
    t.Succeeds ↔ (t.atReturn.cache.lookup t.key).isSome = true ∧
      t.atCommit.cache.lookup t.key = none :=
  ⟨fun h => ⟨h.there, h.absent⟩, fun ⟨hthere, habsent⟩ => t.succeeds_of hthere habsent⟩

/-- Nothing but the call and its entry changes the cache. -/
def Undisturbed : Prop :=
  if t.inside then t.atCommit = t.begun ∧ t.atReturn = t.committed.1
  else t.atReturn = t.begun ∧ t.atCommit = t.returned.1

/-- Then all goes well exactly if the entry is applied after `append_entry` has returned. -/
theorem succeeds_iff_of_undisturbed (h : t.Undisturbed) : t.Succeeds ↔ t.inside = false := by
  have hbegun : (t.begun.cache.lookup t.key).isSome = true := by
    obtain ⟨c, -, hb⟩ := t.begins
    exact hb.isSome
  unfold Undisturbed at h
  cases hin : t.inside
  · rw [hin, if_neg Bool.false_ne_true] at h
    obtain ⟨hret, hcommit⟩ := h
    rw [← hret] at hbegun
    refine iff_of_true (t.succeeds_of hbegun ?_) rfl
    rw [hcommit, returned_eq, if_pos hbegun, lookup_delItem, if_pos BEq.rfl]
  · rw [hin, if_pos rfl] at h
    obtain ⟨hcommit, hret⟩ := h
    rw [← hcommit] at hbegun
    refine iff_of_false (fun hsucc => ?_) Bool.true_eq_false.mp
    have hthere := hsucc.there
    rw [hret, committed_eq, if_pos hbegun, lookup_delItem, if_pos BEq.rfl] at hthere
    cases hthere

/-! ## A concrete call -/

/-- A block of key "k" that lives for one second. -/
def putK : LogEntry where
  term := 1
  index := 0
  command := "CACHE_PUT"
  data := [("key", .str "k"), ("value", .str "v"), ("state", .str "exclusive"),
    ("owner", .str "a"), ("ttl", .int 1)]

def invalidateK : LogEntry where
  term := 1
  index := 1
  command := "CACHE_INVALIDATE"
  data := [("key", .str "k")]

theorem get_expired {now : ℚ} (h : (c.get key now).2.frame?.isSome = true) :
    (c.get key now).2 = .append (.invalidateBlock key (.get key)) := by
  rcases c.get_cases now key with ⟨-, r, hr⟩ | ⟨b, -, -, -, hr⟩ | ⟨b, -, -, -, -, hr⟩
  · rw [hr] at h
    cases h
  · rw [hr] at h
    cases h
  · exact hr

/-- A client reads the block after five seconds, on the only node of its cluster: the entry is
applied in the call. -/
def expiredK : Invalidation where
  key := .str "k"
  caller := .get (.str "k")
  begun := ((empty.handleCommit 0 putK).1.get (.str "k") 5).1
  begins := ⟨(empty.handleCommit 0 putK).1, ⟨empty, rfl, .single (.commit 0 putK)⟩,
    .expired 5 (get_expired (by decide +kernel))⟩
  inside := true
  atCommit := ((empty.handleCommit 0 putK).1.get (.str "k") 5).1
  commitTime := 5
  entry := invalidateK
  entry_eq := rfl
  atReturn := (((empty.handleCommit 0 putK).1.get (.str "k") 5).1.handleCommit 5 invalidateK).1
  returnTime := 5
  course := ⟨.refl, .refl⟩

theorem invalidation_succeeds_fails : ¬expiredK.Succeeds := by
  intro h
  have hnone : (expiredK.atReturn.cache.lookup expiredK.key).isSome = false := by decide +kernel
  have hret : expiredK.returned.2 = .done .raised := by
    rw [returned, resume, if_pos rfl, hnone, if_neg Bool.false_ne_true]
  cases hret.symm.trans h.returns

end Invalidation

end MOESICache

end DistributedSync
