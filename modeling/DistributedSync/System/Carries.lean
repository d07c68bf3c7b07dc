import DistributedSync.System.CacheRuns

/-!
# What coroutines carry

A call comes with its arguments, which its frame keeps and its entry repeats. So what holds of the
calls of a run holds of its frames, of the entries of its logs and of the states in which the nodes
have applied them (`Services.Carries.reach`), and in particular of the blocks of the caches
(`DistributedNode.KeepsBlocks.reach`).
-/

namespace DistributedSync

open DistributedSystem

/-! ## Calls -/

namespace DistributedSystem

variable {S : Services} {cfg : ClusterConfig} {s : DistributedSystem S} {ev : SystemEvent S}

/-- A coroutine begins as `ok` says. -/
def Starts (ok : S.State → S.Op → Prop) (f : String → NodeView S) (i : String) : Act S → Prop
  | .start _ op => ok (f i).state op
  | .commit _ _ | .resume _ _ _ | .wait => True

theorem allowed_of_forall {cond : NodeView S → Act S → Prop} {as : List (Act S)}
    (h : ∀ a ∈ as, ∀ v, cond v a) (v : NodeView S) : v.Allowed cond as := by
  induction as generalizing v with
  | nil => trivial
  | cons a as ih =>
    exact ⟨h a List.mem_cons_self v, ih (fun b hb => h b (List.mem_cons_of_mem _ hb)) _⟩

theorem mem_commits {i : String} {now : ℚ} {e : Event S.Frame} {a : Act S}
    (h : a ∈ s.commits cfg i now e) : ∃ entry, a = .commit now entry := by
  unfold commits at h
  split at h
  · obtain ⟨entry, -, rfl⟩ := List.mem_map.mp h
    exact ⟨entry, rfl⟩
  · cases h

theorem locally_starts {ok : S.State → S.Op → Prop}
    (h : ∀ i now op, ev = .call i now op → ok (s.state i) op) :
    Locally cfg (Starts ok) s ev := by
  intro a ha
  cases ev with
  | call i now op =>
    cases ha
    refine ⟨?_, trivial⟩
    show ok (Function.update s.view i (s.view i) i).state op
    rw [Function.update_self]
    exact h i now op rfl
  | append i now raises =>
    obtain ⟨frame, -, rfl⟩ := Option.map_eq_some_iff.mp ha
    dsimp only
    split <;> refine allowed_of_forall (fun b hb v => ?_) _
    · rcases List.mem_append.mp hb with hb | hb
      · obtain ⟨entry, rfl⟩ := mem_commits hb
        trivial
      · obtain rfl := List.mem_singleton.mp hb
        split <;> trivial
    · obtain rfl := List.mem_singleton.mp hb
      trivial
  | raft now e =>
    obtain ⟨i, -, rfl⟩ := Option.map_eq_some_iff.mp ha
    refine allowed_of_forall (fun b hb v => ?_) _
    rcases List.mem_append.mp hb with hb | hb
    · obtain ⟨entry, rfl⟩ := mem_commits hb
      trivial
    · split at hb
      · obtain rfl := List.mem_singleton.mp hb
        trivial
      · cases hb

end DistributedSystem

/-! ## Frames, entries and states -/

section Carries

variable {S : Services} {cfg : ClusterConfig} {s : DistributedSystem S}

/-- The calls of the run are among those given. -/
def DistributedSystem.Calling (ok : S.Op → Prop) (_ : DistributedSystem S) : SystemEvent S → Prop
  | .call _ _ op => ok op
  | .append _ _ _ | .raft _ _ => True

theorem DistributedSystem.Reach.starts {ok : S.Op → Prop} (h : Reach cfg (Calling ok) s) :
    Reach cfg (Locally cfg (Starts fun _ op => ok op)) s := by
  refine h.mono fun t ev hok => locally_starts fun i now op heq => ?_
  subst heq
  exact hok

/-- Frames are as their calls make them, entries as their frames, and states as both. -/
structure Services.Carries (S : Services) (ok : S.Op → Prop) (P : S.State → Prop)
    (Q : S.Frame → Prop) (E : LogEntry → Prop) : Prop where
  init : ∀ i, P (S.init i)
  start : ∀ {now op state r}, ok op → S.start now op state = some r →
    (P state → P r.1) ∧ ∀ frame ∈ r.2.frame?, Q frame
  resume : ∀ now {frame} a {state}, Q frame →
    (P state → P (S.resume now frame a state).1) ∧
      ∀ frame' ∈ (S.resume now frame a state).2.frame?, Q frame'
  request : ∀ {frame} {e : LogEntry}, Q frame → (e.command, e.data) = S.request frame → E e
  handleCommit : ∀ {now e state}, E e → P state → P (S.handleCommit now e state).1

namespace Services.Carries

variable {ok : S.Op → Prop} {P : S.State → Prop} {Q : S.Frame → Prop} {E : LogEntry → Prop}
  (hc : S.Carries ok P Q E)

include hc

theorem view (h : Reach cfg (Locally cfg (Starts fun _ op => ok op)) s) (i : String) :
    (∀ frame ∈ (s.view i).frames, Q frame) ∧
      ((∀ e ∈ (s.view i).delivered, E e) → P (s.view i).state) := by
  refine h.view (P := fun _ v => (∀ frame ∈ v.frames, Q frame) ∧
    ((∀ e ∈ v.delivered, E e) → P v.state))
    (fun i => ⟨List.forall_mem_nil _, fun _ => hc.init i⟩) (fun f i a hv hok => ?_) i
  obtain ⟨hframes, hstate⟩ := hv
  have hstart : ∀ now op r, a = .start now op → S.start now op (f i).state = some r →
      (P (f i).state → P r.1) ∧ ∀ frame ∈ r.2.frame?, Q frame := by
    rintro now op r rfl hs
    exact hc.start hok hs
  have hresume : ∀ now k b frame, a = .resume now k b → (f i).frames[k]? = some frame →
      (P (f i).state → P (S.resume now frame b (f i).state).1) ∧
        ∀ frame' ∈ (S.resume now frame b (f i).state).2.frame?, Q frame' :=
    fun now k b frame _ hk => hc.resume now b (hframes frame (List.mem_of_getElem? hk))
  constructor
  · exact NodeView.forall_frames_act hframes (fun now op r ha hs => (hstart now op r ha hs).2)
      fun now k b frame ha hk => (hresume now k b frame ha hk).2
  · intro he
    have hold : P (f i).state :=
      hstate fun e hmem => he e ((f i).delivered_prefix_act a |>.subset hmem)
    refine NodeView.state_act hold (fun now op r ha hs => (hstart now op r ha hs).1 hold) ?_
      fun now k b frame ha hk => (hresume now k b frame ha hk).1 hold
    rintro now e rfl
    exact hc.handleCommit (he e List.mem_concat_self) hold

theorem entries (h : Reach cfg (Locally cfg (Starts fun _ op => ok op)) s) :
    s.cluster.AllEntries E :=
  h.allEntries fun _ hs i _ _ hframe _ he => hc.request ((hc.view hs i).1 _ hframe) he

theorem reach (h : Reach cfg (Locally cfg (Starts fun _ op => ok op)) s) (i : String) :
    P (s.state i) :=
  (hc.view h i).2 ((hc.entries h).node i).delivered

end Services.Carries

/-- What the calls of a run return. -/
theorem DistributedSystem.Reach.results {ok : DistributedSystem S → SystemEvent S → Prop}
    {R : S.Result → Prop}
    (hstart : ∀ s i now op r result, Reach cfg ok s → ok s (.call i now op) →
      S.start now op (s.state i) = some r → r.2 = .done result → R result)
    (hresume : ∀ now frame a state result, (S.resume now frame a state).2 = .done result → R result)
    (h : Reach cfg ok s) : ∀ x ∈ s.results, R x.2 := by
  induction h with
  | refl => exact fun x hx => by cases hx
  | @tail s s' ev h hok hs ih =>
    have hreact : ∀ (s₁ : DistributedSystem S) (i : String)
        (r : S.State × Outcome S.Frame S.Result), s₁.results = s.results →
        (∀ result, r.2 = .done result → R result) → ∀ x ∈ (s₁.react i r).results, R x.2 := by
      intro s₁ i r heq hr x hx
      obtain ⟨state, frame | _ | result⟩ := r
      · exact ih x (heq ▸ hx)
      · exact ih x (heq ▸ hx)
      · rcases List.mem_append.mp hx with hx | hx
        · exact ih x (heq ▸ hx)
        · rw [List.mem_singleton.mp hx]
          exact hr result rfl
    have hraft : ∀ {i now e s₁}, s.raftStep cfg i now e = some s₁ → s₁.results = s.results := by
      intro i now e s₁ hs₁
      obtain ⟨c, state, -, -, rfl⟩ := raftStep_some hs₁
      rfl
    cases step_cases hs with
    | call i now op r hi hr =>
      exact hreact s i r rfl fun result => hstart s i now op r result h hok hr
    | refused i now raises frame hf hl =>
      exact hreact s i _ rfl fun result => hresume _ _ _ _ result
    | appends i now raises frame s₁ hf hl hp hs₁ => exact fun x hx => ih x (hraft hs₁ ▸ hx)
    | commits i now raises frame s₁ b hf hl hb hs₁ =>
      exact hreact s₁ i _ (hraft hs₁) fun result => hresume _ _ _ _ result
    | returns i now j call s₁ hi hc hs₁ =>
      exact hreact s₁ i _ (hraft hs₁) fun result => hresume _ _ _ _ result
    | raft i now e s₁ hr hi he hret hs₁ => exact fun x hx => ih x (hraft hs₁ ▸ hx)

end Carries

/-! ## The blocks of the caches -/

namespace DistributedNode

theorem frame_of_map {κ ρ : Type} {o : Outcome κ ρ} {f : κ → Frame} {g : ρ → Result} {frame : Frame}
    (h : frame ∈ (o.map f g).frame?) : ∃ frame', o = .append frame' ∧ f frame' = frame := by
  cases o with
  | append frame' => exact ⟨frame', rfl, Option.some.inj h⟩
  | sleep | done result => cases h

theorem frame_other {κ ρ α : Type} {o : Outcome κ ρ} {f : κ → Frame} {g : ρ → Result} {p : α → Prop}
    {c : α → Frame} (hne : ∀ x y, f x ≠ c y) :
    ∀ frame ∈ (o.map f g).frame?, ∀ x, frame = c x → p x := by
  intro frame hframe x heq
  obtain ⟨y, -, rfl⟩ := frame_of_map hframe
  exact absurd heq (hne y x)

theorem result_of_map {κ ρ : Type} {o : Outcome κ ρ} {f : κ → Frame} {g : ρ → Result}
    {result : Result} (h : o.map f g = .done result) : ∃ r, o = .done r ∧ g r = result := by
  cases o with
  | done r => exact ⟨r, rfl, Outcome.done.inj h⟩
  | append | sleep => cases h

/-- What the blocks of the caches keep: calls that begin as `ok` says bring it with them. -/
structure KeepsBlocks (ok : MOESICache.Op → Prop) (P : List (Value × CacheBlock) → Prop)
    (Q : MOESICache.Frame → Prop) (E : LogEntry → Prop) : Prop where
  keeps : MOESICache.Keeps P
  init : P []
  start : ∀ {c : MOESICache} {now op}, ok op → ∀ f ∈ (c.start now op).2.frame?, Q f
  resume : ∀ {c : MOESICache} {now f} a, Q f → ∀ f' ∈ (c.resume now f a).2.frame?, Q f'
  store : ∀ {nodeId key value ttl block d}, Q (.replicate nodeId key value ttl block) → P d →
    P (setItem d key block)
  request : ∀ {f} {e : LogEntry}, Q f → (e.command, e.data) = MOESICache.request f → E e
  other : ∀ {e : LogEntry}, (∀ now, e.cacheWrite now = none) → E e
  put : ∀ {now key b d} {e : LogEntry}, E e → e.cacheWrite now = some (key, some b) → P d →
    P (setItem d key b)

namespace KeepsBlocks

variable {md5 : String → ℕ} {config : SystemConfig} {ok : MOESICache.Op → Prop}
  {P : List (Value × CacheBlock) → Prop} {Q : MOESICache.Frame → Prop} {E : LogEntry → Prop}
  (hk : KeepsBlocks ok P Q E)

include hk

theorem commit {n : DistributedNode} {now : ℚ} {e : LogEntry} (he : E e)
    (h : P n.cacheService.cache) : P (n.handleCommit now e).1.cacheService.cache := by
  rw [handleCommit_cacheService]
  exact hk.keeps.commit h fun key b hw => hk.put he hw h

theorem carries {peers : String → List String} :
    (services md5 config peers).Carries (fun op => ∀ op', op = .cache op' → ok op')
      (fun n => P n.cacheService.cache) (fun frame => ∀ f, frame = .cache f → Q f) E where
  init _ := hk.init
  start {now op n r} hop hs := by
    cases op with
    | cache op =>
      cases hs
      refine ⟨fun h => hk.keeps.start h op, fun frame hframe f heq => ?_⟩
      obtain ⟨f', ho, rfl⟩ := frame_of_map hframe
      cases heq
      have hf : f ∈ (n.cacheService.start now op).2.frame? := by
        rw [ho]
        rfl
      exact hk.start (hop op rfl) f hf
    | lock op =>
      obtain ⟨r, -, rfl⟩ := Option.map_eq_some_iff.mp hs
      exact ⟨id, frame_other fun _ _ => Frame.noConfusion⟩
    | queue op =>
      cases hs
      exact ⟨id, frame_other fun _ _ => Frame.noConfusion⟩
  resume now frame a n hframe := by
    cases frame with
    | cache f =>
      refine ⟨fun h => hk.keeps.resume h ?_, fun frame' hf f' heq => ?_⟩
      · rintro nodeId key value ttl block rfl rfl
        exact hk.store (hframe _ rfl) h
      · obtain ⟨f'', ho, rfl⟩ := frame_of_map hf
        cases heq
        have hf' : f' ∈ (n.cacheService.resume now f a).2.frame? := by
          rw [ho]
          rfl
        exact hk.resume a (hframe f rfl) f' hf'
    | lock f | queue f => exact ⟨id, frame_other fun _ _ => Frame.noConfusion⟩
  request {frame e} hframe he := by
    rcases hf : frame.cache? with _ | f
    · exact hk.other fun _ => cacheWrite_of_request frame hf he
    · cases frame with
      | cache f' => exact hk.request (hframe f' rfl) he
      | lock | queue => cases hf
  handleCommit he h := hk.commit he h

variable {cfg : ClusterConfig} {s : DistributedSystem (services md5 config cfg.peers)}
  {cond : (String → NodeView (services md5 config cfg.peers)) → String →
    Act (services md5 config cfg.peers) → Prop}
  (hc : ∀ f i now op, cond f i (.start now (.cache op)) → ok op)
  (h : Reach cfg (Locally cfg cond) s)

include hc h

omit hk in
theorem starts : Reach cfg (Locally cfg (Starts fun _ op => ∀ op', op = Op.cache op' → ok op')) s :=
  h.mono fun _ _ => Locally.mono fun f i a ha => by
    cases a with
    | start now op =>
      rintro op' rfl
      exact hc f i now op' ha
    | commit | resume | wait => trivial

theorem view (i : String) : (∀ f ∈ (s.view i).cacheFrames, Q f) ∧
    ((∀ e ∈ (s.view i).delivered, E e) → P (s.view i).cache.cache) := by
  obtain ⟨hframes, hstate⟩ := hk.carries.view (starts hc h) i
  refine ⟨fun f hf => ?_, hstate⟩
  obtain ⟨frame, hframe, hcache⟩ := List.mem_filterMap.mp hf
  cases frame with
  | cache f' =>
    cases hcache
    exact hframes _ hframe f rfl
  | lock | queue => cases hcache

theorem entries : s.cluster.AllEntries E := hk.carries.entries (starts hc h)

theorem reach (i : String) : P (DistributedNode.cacheService (s.state i)).cache :=
  hk.carries.reach (starts hc h) i

end KeepsBlocks

end DistributedNode

end DistributedSync
