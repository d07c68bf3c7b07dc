import Mathlib.Data.List.Basic
import Mathlib.Data.List.Infix
import Mathlib.Logic.Relation

/-!
# Depth-first search for a cycle

A search that goes through the successors of a node one after the other, keeps the nodes it has
visited and those on its way, and stops at a successor that is on the way. It finds a cycle if there
is one (`search_eq_none`); what it returns starts with the first root from which a cycle can be
reached (`search_eq_some`), which need not be on the cycle itself.

Nodes are compared by `==`. The bound `n` on the depth is enough if it is the number of nodes.
-/

namespace CycleSearch

variable {α : Type*} [BEq α]

/-! ## The search -/

/-- The nodes visited, and the nodes on the way. -/
structure Marks (α : Type*) where
  visited : List α := []
  recStack : List α := []

/-- Go through the successors of the last node of `path`. -/
def scan (visit : α → List α → Marks α → Option (List α) × Marks α) (path : List α) :
    List α → Marks α → Option (List α) × Marks α
  | [], s => (none, s)
  | v :: vs, s =>
    if !s.visited.contains v then
      match visit v path s with
      | (some cycle, s) => (some cycle, s)
      | (none, s) => scan visit path vs s
    else if s.recStack.contains v then (some (path ++ [v]), s)
    else scan visit path vs s

/-- The search from one node. -/
def dfs (next : α → List α) : ℕ → α → List α → Marks α → Option (List α) × Marks α
  | 0, _, _, s => (none, s)
  | n + 1, node, path, s =>
    match scan (dfs next n) (path ++ [node]) (next node)
      { visited := node :: s.visited, recStack := node :: s.recStack } with
    | (some cycle, s) => (some cycle, s)
    | (none, s) => (none, { s with recStack := s.recStack.filter fun v => !(v == node) })

/-- The search from each root that is not visited yet. -/
def search (next : α → List α) (n : ℕ) : List α → Marks α → Option (List α)
  | [], _ => none
  | root :: roots, s =>
    if !s.visited.contains root then
      match dfs next n root [] s with
      | (some cycle, _) => some cycle
      | (none, s) => search next n roots s
    else search next n roots s

/-! ## Walks -/

variable {next : α → List α} {u v w x node : α} {F F' : List α}

/-- `v` is a successor of `u`. -/
def Edge (next : α → List α) (u v : α) : Prop := (next u).contains v = true

/-- A walk from `v` leads into a cycle. -/
def ReachesCycle (next : α → List α) (v : α) : Prop :=
  ∃ x, Relation.ReflTransGen (Edge next) v x ∧ Relation.TransGen (Edge next) x x

/-- Finished nodes, the last one first: the successors of each were finished before. -/
def Done (next : α → List α) : List α → Prop
  | [] => True
  | u :: F => (∀ v ∈ next u, F.contains v = true) ∧ Done next F

variable [EquivBEq α]

/-- Equal nodes have the same successors. -/
def Respects (next : α → List α) : Prop := ∀ u v, (u == v) = true → next u = next v

theorem Edge.congr (hnext : Respects next) {u' v' : α} (hu : (u == u') = true)
    (hv : (v == v') = true) (h : Edge next u v) : Edge next u' v' := by
  unfold Edge at h ⊢
  rwa [← hnext u u' hu, ← List.contains_congr hv]

theorem Done.contains_of_edge (hnext : Respects next) (h : Done next F)
    (hu : F.contains u = true) (he : Edge next u v) : F.contains v = true := by
  induction F with
  | nil => cases hu
  | cons u₀ F ih =>
    rw [List.contains_cons, Bool.or_eq_true] at hu ⊢
    rcases hu with hu | hu
    · unfold Edge at he
      rw [hnext u u₀ hu] at he
      obtain ⟨v', hv', hvv⟩ := List.contains_iff_exists_mem_beq.mp he
      exact Or.inr ((List.contains_congr hvv).trans (h.1 v' hv'))
    · exact Or.inr (ih h.2 hu)

theorem Done.contains_of_walk (hnext : Respects next) (h : Done next F)
    (hu : F.contains u = true) (hw : Relation.ReflTransGen (Edge next) u v) :
    F.contains v = true := by
  induction hw with
  | refl => exact hu
  | tail _ he ih => exact h.contains_of_edge hnext ih he

/-- There is no cycle among finished nodes. -/
theorem Done.acyclic (hnext : Respects next) (h : Done next F) (hu : F.contains u = true) :
    ¬ Relation.TransGen (Edge next) u u := by
  induction F with
  | nil => cases hu
  | cons u₀ F ih =>
    intro hcycle
    rw [List.contains_cons, Bool.or_eq_true] at hu
    refine ih h.2 ?_ hcycle
    rcases hu with hu | hu
    · -- the first step leaves the last node, and what was finished before leads nowhere else
      obtain ⟨v, he, hw⟩ := Relation.TransGen.head'_iff.mp hcycle
      unfold Edge at he
      rw [hnext u u₀ hu] at he
      obtain ⟨v', hv', hvv⟩ := List.contains_iff_exists_mem_beq.mp he
      exact h.2.contains_of_walk hnext ((List.contains_congr hvv).trans (h.1 v' hv')) hw
    · exact hu

theorem Done.not_reachesCycle (hnext : Respects next) (h : Done next F)
    (hu : F.contains u = true) : ¬ ReachesCycle next u := by
  rintro ⟨x, hw, hcycle⟩
  exact h.acyclic hnext (h.contains_of_walk hnext hu hw) hcycle

theorem contains_filter_ne (l : List α) :
    (l.filter fun w => !(w == v)).contains x = (l.contains x && !(x == v)) := by
  rw [Bool.eq_iff_iff, Bool.and_eq_true, List.contains_iff_exists_mem_beq,
    List.contains_iff_exists_mem_beq]
  constructor
  · rintro ⟨w, hw, hxw⟩
    rw [List.mem_filter, ← BEq.congr_left hxw] at hw
    exact ⟨⟨w, hw.1, hxw⟩, hw.2⟩
  · rintro ⟨⟨w, hw, hxw⟩, hx⟩
    rw [BEq.congr_left hxw] at hx
    exact ⟨w, List.mem_filter.mpr ⟨hw, hx⟩, hxw⟩

/-! ## What a search does -/

/-- All visited nodes are on the way or finished. -/
structure Marked (next : α → List α) (s : Marks α) (F : List α) : Prop where
  done : Done next F
  visited : ∀ x, s.visited.contains x = (s.recStack.contains x || F.contains x)

def unvisited (U : List α) (s : Marks α) : ℕ := (U.filter fun v => !s.visited.contains v).length

omit [EquivBEq α] in
theorem unvisited_le {U : List α} {s s' : Marks α}
    (h : ∀ x, s.visited.contains x = true → s'.visited.contains x = true) :
    unvisited U s' ≤ unvisited U s := by
  unfold unvisited
  refine (List.monotone_filter_right U fun v hv => ?_).length_le
  rw [Bool.not_eq_true', Bool.eq_false_iff] at hv ⊢
  exact fun hs => hv (h v hs)

theorem unvisited_visit {U : List α} {s : Marks α} {r : List α} (hU : U.contains node = true)
    (hnew : s.visited.contains node = false) :
    unvisited U { visited := node :: s.visited, recStack := r } < unvisited U s := by
  obtain ⟨v, hv, hnode⟩ := List.contains_iff_exists_mem_beq.mp hU
  have hsub : (U.filter fun v => !(node :: s.visited).contains v).Sublist
      (U.filter fun v => !s.visited.contains v) := by
    refine List.monotone_filter_right U fun w hw => ?_
    rw [List.contains_cons, Bool.not_or, Bool.and_eq_true] at hw
    exact hw.2
  refine lt_of_le_of_ne hsub.length_le fun heq => ?_
  -- `node` itself was counted before and is not counted now
  have hmem : v ∈ U.filter fun v => !s.visited.contains v := by
    rw [List.mem_filter, ← List.contains_congr hnode, hnew]
    exact ⟨hv, rfl⟩
  rw [← hsub.eq_of_length heq, List.mem_filter, List.contains_cons, BEq.symm hnode] at hmem
  exact absurd hmem.2 (by simp)

/-- What comes out of a search below `root` with the path `path`, for the nodes `vs`: a cycle that
`root` leads to, or all of `vs` are finished and the way is as it was. -/
structure Explores (next : α → List α) (root : α) (path vs : List α) (s : Marks α) (F : List α)
    (r : Option (List α) × Marks α) : Prop where
  found : ∀ cycle, r.1 = some cycle → path <+: cycle ∧ ReachesCycle next root
  finished : r.1 = none → ∃ F', Marked next r.2 F' ∧
    (∀ x, F.contains x = true → F'.contains x = true) ∧ (∀ v ∈ vs, F'.contains v = true) ∧
    ∀ x, r.2.recStack.contains x = s.recStack.contains x

/-- A search from any node with at most `n` nodes to visit, to which all nodes on the way lead. -/
def Visits (next : α → List α) (U : List α) (n : ℕ)
    (visit : α → List α → Marks α → Option (List α) × Marks α) : Prop :=
  ∀ node path s F, Marked next s F → s.visited.contains node = false → U.contains node = true →
    unvisited U s ≤ n →
    (∀ y, s.recStack.contains y = true → Relation.TransGen (Edge next) y node) →
    Explores next node (path ++ [node]) [node] s F (visit node path s)

theorem edge_of_mem (h : v ∈ next u) : Edge next u v :=
  List.contains_iff_exists_mem_beq.mpr ⟨v, h, BEq.rfl⟩

variable {U path vs : List α} {n : ℕ} {s : Marks α}
  {visit : α → List α → Marks α → Option (List α) × Marks α}

omit [EquivBEq α] in
theorem Marked.visited_mono {s' : Marks α} (h : Marked next s F) (h' : Marked next s' F')
    (hF : ∀ x, F.contains x = true → F'.contains x = true)
    (hrec : ∀ x, s'.recStack.contains x = s.recStack.contains x) {x : α}
    (hx : s.visited.contains x = true) : s'.visited.contains x = true := by
  rw [h.visited, Bool.or_eq_true] at hx
  rw [h'.visited, Bool.or_eq_true, hrec]
  exact hx.imp_right (hF x)

theorem scan_explores (hnext : Respects next) (hU : ∀ u, ∀ v ∈ next u, U.contains v = true)
    (hv : Visits next U n visit) (hm : Marked next s F) (hn : unvisited U s ≤ n)
    (hvs : ∀ v ∈ vs, v ∈ next node)
    (hrec : ∀ y, s.recStack.contains y = true →
      (y == node) = true ∨ Relation.TransGen (Edge next) y node) :
    Explores next node path vs s F (scan visit path vs s) := by
  induction vs generalizing s F with
  | nil =>
    refine ⟨fun _ h => ?_, fun _ => ⟨F, hm, fun _ h => h, by simp, fun _ => rfl⟩⟩
    cases h
  | cons v vs ih =>
    obtain ⟨hmem, hvs⟩ := List.forall_mem_cons.mp hvs
    have hedge : Edge next node v := edge_of_mem hmem
    -- the rest of the successors, once `v` is finished
    have hrest : ∀ {s' : Marks α} {F' : List α}, Marked next s' F' →
        (∀ x, F.contains x = true → F'.contains x = true) → F'.contains v = true →
        (∀ x, s'.recStack.contains x = s.recStack.contains x) →
        Explores next node path (v :: vs) s F (scan visit path vs s') := by
      intro s' F' hm' hF hfin hrec'
      have hn' := (unvisited_le fun x => hm.visited_mono hm' hF hrec').trans hn
      have := ih hm' hn' hvs fun y hy => hrec y (hrec' y ▸ hy)
      refine ⟨this.found, fun hnone => ?_⟩
      obtain ⟨F'', hm'', hF', hfin', hrec''⟩ := this.finished hnone
      exact ⟨F'', hm'', fun x hx => hF' x (hF x hx),
        List.forall_mem_cons.mpr ⟨hF' v hfin, hfin'⟩, fun x => (hrec'' x).trans (hrec' x)⟩
    rw [scan]
    by_cases hnew : s.visited.contains v = true
    · rw [hnew]
      by_cases hon : s.recStack.contains v = true
      · -- `v` is on the way, so it leads to `node`
        rw [hon]
        refine ⟨fun cycle h => ?_, fun h => nomatch h⟩
        cases h
        refine ⟨List.prefix_append _ _, node, .refl, ?_⟩
        rcases hrec v hon with heq | hwalk
        · exact .single (hedge.congr hnext BEq.rfl heq)
        · exact .head hedge hwalk
      · have hfin : F.contains v = true := by
          rw [hm.visited, Bool.or_eq_true] at hnew
          exact hnew.resolve_left hon
        rw [Bool.not_eq_true] at hon
        rw [hon]
        exact hrest hm (fun _ h => h) hfin fun _ => rfl
    · rw [Bool.not_eq_true] at hnew
      have hvisit := hv v path s F hm hnew (hU node v hmem) hn fun y hy => by
        rcases hrec y hy with heq | hwalk
        · exact .single (hedge.congr hnext (BEq.symm heq) BEq.rfl)
        · exact hwalk.tail hedge
      rw [hnew]
      generalize visit v path s = r at hvisit ⊢
      obtain ⟨_ | cycle, s'⟩ := r
      · obtain ⟨F', hm', hF, hfin, hrec'⟩ := hvisit.finished rfl
        exact hrest hm' hF (hfin v (by simp)) hrec'
      · obtain ⟨hpath, x, hwalk, hcycle⟩ := hvisit.found cycle rfl
        refine ⟨fun c h => ?_, fun h => nomatch h⟩
        cases h
        exact ⟨(List.prefix_append _ _).trans hpath, x, .head hedge hwalk, hcycle⟩

/-- The search from a node is as said if the bound is not below the number of nodes to visit. -/
theorem dfs_visits (hnext : Respects next) (hU : ∀ u, ∀ v ∈ next u, U.contains v = true) (n : ℕ) :
    Visits next U n (dfs next n) := by
  induction n with
  | zero =>
    intro node path s F _ hnew hmem hn
    have := unvisited_visit (r := []) hmem hnew
    omega
  | succ n ih =>
    intro node path s F hm hnew hmem hn hrec
    have hon : s.recStack.contains node = false := by
      rw [hm.visited, Bool.or_eq_false_iff] at hnew
      exact hnew.1
    have hm' : Marked next { visited := node :: s.visited, recStack := node :: s.recStack } F := by
      refine ⟨hm.done, fun x => ?_⟩
      rw [List.contains_cons, List.contains_cons, hm.visited, Bool.or_assoc]
    have hscan : Explores next node (path ++ [node]) (next node)
        { visited := node :: s.visited, recStack := node :: s.recStack } F
        (scan (dfs next n) (path ++ [node]) (next node)
          { visited := node :: s.visited, recStack := node :: s.recStack }) := by
      refine scan_explores hnext hU ih hm'
        (Nat.le_of_lt_succ ((unvisited_visit hmem hnew).trans_le hn)) (fun _ h => h) fun y hy => ?_
      rw [List.contains_cons, Bool.or_eq_true] at hy
      exact hy.imp_right (hrec y)
    rw [dfs]
    generalize scan (dfs next n) (path ++ [node]) (next node)
      { visited := node :: s.visited, recStack := node :: s.recStack } = r at hscan ⊢
    obtain ⟨_ | cycle, s'⟩ := r
    · obtain ⟨F', hm'', hF, hfin, hrec'⟩ := hscan.finished rfl
      have hstack : ∀ x, (s'.recStack.filter fun v => !(v == node)).contains x =
          s.recStack.contains x := by
        intro x
        rw [contains_filter_ne, hrec', List.contains_cons]
        cases hx : x == node with
        | true => rw [List.contains_congr hx, hon]; rfl
        | false => simp
      refine ⟨fun _ h => (nomatch h), fun _ => ⟨node :: F', ⟨⟨hfin, hm''.done⟩, fun x => ?_⟩,
        fun x hx => ?_, by simp, hstack⟩⟩
      · show s'.visited.contains x = _
        rw [hstack, hm''.visited, hrec', List.contains_cons, List.contains_cons,
          Bool.or_left_comm, Bool.or_assoc]
      · rw [List.contains_cons, hF x hx, Bool.or_true]
    · refine ⟨fun c h => hscan.found c h, fun h => ?_⟩
      cases h

/-! ## The result -/

/-- The search goes through the roots up to the first one that leads to a cycle. -/
theorem search_spec (hnext : Respects next) (hU : ∀ u, ∀ v ∈ next u, U.contains v = true)
    (hn : U.length ≤ n) {roots : List α} (hroots : ∀ v ∈ roots, U.contains v = true)
    (hm : Marked next s F) (hrec : s.recStack = []) :
    (search next n roots s = none ∧ ∀ v ∈ roots, ¬ ReachesCycle next v) ∨
      ∃ cycle pre v post, search next n roots s = some cycle ∧ [v] <+: cycle ∧
        roots = pre ++ v :: post ∧ ReachesCycle next v ∧ ∀ u ∈ pre, ¬ ReachesCycle next u := by
  induction roots generalizing s F with
  | nil => exact Or.inl ⟨rfl, by simp⟩
  | cons root roots ih =>
    obtain ⟨hroot, hroots⟩ := List.forall_mem_cons.mp hroots
    -- a root that is finished leads nowhere
    have hskip : ∀ {s' : Marks α} {F' : List α}, Marked next s' F' → s'.recStack = [] →
        F'.contains root = true →
        search next n (root :: roots) s = search next n roots s' →
        (search next n (root :: roots) s = none ∧
            ∀ v ∈ root :: roots, ¬ ReachesCycle next v) ∨
          ∃ cycle pre v post, search next n (root :: roots) s = some cycle ∧ [v] <+: cycle ∧
            root :: roots = pre ++ v :: post ∧ ReachesCycle next v ∧
            ∀ u ∈ pre, ¬ ReachesCycle next u := by
      intro s' F' hm' hrec' hfin heq
      have hnot := hm'.done.not_reachesCycle hnext hfin
      rw [heq]
      rcases ih hroots hm' hrec' with ⟨hnone, h⟩ | ⟨cycle, pre, v, post, hs, hp, rfl, hv, h⟩
      · exact Or.inl ⟨hnone, List.forall_mem_cons.mpr ⟨hnot, h⟩⟩
      · exact Or.inr ⟨cycle, root :: pre, v, post, hs, hp, rfl, hv,
          List.forall_mem_cons.mpr ⟨hnot, h⟩⟩
    by_cases hvisited : s.visited.contains root = true
    · have hfin : F.contains root = true := by
        rw [hm.visited, hrec] at hvisited
        exact hvisited
      refine hskip hm hrec hfin ?_
      rw [search, hvisited]
      rfl
    · rw [Bool.not_eq_true] at hvisited
      have hdfs := dfs_visits hnext hU n root [] s F hm hvisited hroot
        ((List.length_filter_le _ _).trans hn) (by simp [hrec])
      have hsearch : search next n (root :: roots) s = match dfs next n root [] s with
          | (some cycle, _) => some cycle
          | (none, s) => search next n roots s := by
        rw [search, hvisited]
        rfl
      generalize dfs next n root [] s = r at hdfs hsearch
      obtain ⟨_ | cycle, s'⟩ := r
      · obtain ⟨F', hm', -, hfin, hrec'⟩ := hdfs.finished rfl
        refine hskip hm' ?_ (hfin root (by simp)) hsearch
        refine List.eq_nil_iff_forall_not_mem.mpr fun x hx => ?_
        have := (hrec' x).symm.trans (List.contains_iff_exists_mem_beq.mpr ⟨x, hx, BEq.rfl⟩)
        rw [hrec] at this
        cases this
      · obtain ⟨hpath, hv⟩ := hdfs.found cycle rfl
        exact Or.inr ⟨cycle, [], root, roots, hsearch, hpath, rfl, hv, by simp⟩

/-! ## Graphs given by the successors of their keys -/

section Graphs

variable {g : List (α × List α)} {order : List α → List α}

/-- The successors of a node. -/
def successors (g : List (α × List α)) (u : α) : List α := (g.lookup u).getD []

/-- All nodes, with repetitions. -/
def nodes (g : List (α × List α)) : List α := g.flatMap fun p => p.1 :: p.2

/-- The search from the keys, with the successors of each node in some order. -/
def detect (order : List α → List α) (g : List (α × List α)) : Option (List α) :=
  search (fun u => order (successors g u)) (nodes g).length (g.map Prod.fst) {}

omit [EquivBEq α] in
theorem exists_of_edge (h : Edge (successors g) u v) :
    ∃ p ∈ g, (u == p.1) = true ∧ successors g u = p.2 := by
  unfold Edge successors at h
  induction g with
  | nil => cases h
  | cons p g ih =>
    unfold successors at ih ⊢
    rw [List.lookup_cons] at h ⊢
    cases hp : u == p.1 with
    | true => exact ⟨p, List.mem_cons_self, hp, rfl⟩
    | false =>
      rw [hp] at h
      obtain ⟨q, hq, huq, heq⟩ := ih h
      exact ⟨q, List.mem_cons_of_mem p hq, huq, heq⟩

theorem respects_successors (g : List (α × List α)) : Respects (successors g) := by
  intro u v huv
  unfold successors
  induction g with
  | nil => rfl
  | cons p g ih =>
    rw [List.lookup_cons, List.lookup_cons, BEq.congr_left huv]
    cases v == p.1 with
    | true => rfl
    | false => exact ih

/-- Either there is no cycle, and none is found, or what is found starts with the first key that
leads to one. -/
theorem detect_spec (horder : ∀ l, (order l).Perm l) (g : List (α × List α)) :
    (detect order g = none ∧ ∀ v, ¬ Relation.TransGen (Edge (successors g)) v v) ∨
      ∃ cycle pre v post, detect order g = some cycle ∧ [v] <+: cycle ∧
        g.map Prod.fst = pre ++ v :: post ∧ ReachesCycle (successors g) v ∧
        ∀ u ∈ pre, ¬ ReachesCycle (successors g) u := by
  have hedge : Edge (fun u => order (successors g u)) = Edge (successors g) := by
    funext u v
    refine propext ?_
    unfold Edge
    rw [List.contains_iff_exists_mem_beq, List.contains_iff_exists_mem_beq]
    exact exists_congr fun w => and_congr_left fun _ => (horder _).mem_iff
  have hreach : ReachesCycle (fun u => order (successors g u)) = ReachesCycle (successors g) := by
    unfold ReachesCycle
    rw [hedge]
  have hnodes : ∀ u, ∀ v ∈ order (successors g u), (nodes g).contains v = true := by
    intro u v hv
    have hv := (horder _).mem_iff.mp hv
    obtain ⟨p, hp, -, heq⟩ := exists_of_edge (edge_of_mem hv)
    rw [heq] at hv
    exact List.contains_iff_exists_mem_beq.mpr
      ⟨v, List.mem_flatMap.mpr ⟨p, hp, List.mem_cons_of_mem _ hv⟩, BEq.rfl⟩
  have hroots : ∀ v ∈ g.map Prod.fst, (nodes g).contains v = true := by
    intro v hv
    obtain ⟨p, hp, rfl⟩ := List.mem_map.mp hv
    exact List.contains_iff_exists_mem_beq.mpr
      ⟨p.1, List.mem_flatMap.mpr ⟨p, hp, List.mem_cons_self⟩, BEq.rfl⟩
  have hrespects : Respects fun u => order (successors g u) :=
    fun u v huv => congrArg order (respects_successors g u v huv)
  have hm : Marked (fun u => order (successors g u)) {} [] := ⟨trivial, fun _ => rfl⟩
  have hspec := search_spec hrespects hnodes le_rfl hroots hm rfl
  rw [hreach] at hspec
  rcases hspec with ⟨hnone, h⟩ | h
  · refine Or.inl ⟨hnone, fun v hcycle => ?_⟩
    obtain ⟨w, he, hw⟩ := Relation.TransGen.head'_iff.mp hcycle
    obtain ⟨p, hp, hvp, -⟩ := exists_of_edge he
    -- the key equals `v`, so it leads where `v` leads
    have hstart : Relation.TransGen (Edge (successors g)) p.1 v :=
      Relation.TransGen.head'_iff.mpr ⟨w, he.congr (respects_successors g) hvp BEq.rfl, hw⟩
    exact h p.1 (List.mem_map_of_mem hp) ⟨v, hstart.to_reflTransGen, hcycle⟩
  · exact Or.inr h

end Graphs

end CycleSearch

/-! ## Closed walks -/

namespace ClosedWalk

variable {α : Type*} {R : α → α → Prop}

/-- `c 0`, …, `c (k - 1)`, each related to the next one and the last one to the first. -/
def Around (R : α → α → Prop) (k : ℕ) (c : ℕ → α) : Prop :=
  0 < k ∧ ∀ i < k, R (c i) (c ((i + 1) % k))

theorem Around.transGen {k : ℕ} {c : ℕ → α} (h : Around R k c) {i : ℕ} (hi : i < k) :
    Relation.TransGen R (c i) (c i) := by
  have hwalk : ∀ j, Relation.TransGen R (c i) (c ((i + j + 1) % k)) := by
    intro j
    induction j with
    | zero => exact .single (h.2 i hi)
    | succ j ih =>
      have := h.2 ((i + j + 1) % k) (Nat.mod_lt _ h.1)
      rw [Nat.mod_add_mod] at this
      exact ih.tail this
  have hk := hwalk (k - 1)
  rwa [show i + (k - 1) + 1 = i + k by have := h.1; omega, Nat.add_mod_right,
    Nat.mod_eq_of_lt hi] at hk

theorem lift_closed {S : α → α → Prop} {v : α}
    (hS : ∀ a b, Relation.ReflTransGen R v a → R a b → Relation.ReflTransGen R b v → S a b)
    (h : Relation.TransGen R v v) : Relation.TransGen S v v := by
  have hlift : ∀ {b}, Relation.TransGen R v b → Relation.ReflTransGen R b v →
      Relation.TransGen S v b := by
    intro b hb
    induction hb with
    | single hab => exact fun hback => .single (hS _ _ .refl hab hback)
    | tail hab hbc ih =>
      exact fun hback => (ih (.head hbc hback)).tail (hS _ _ hab.to_reflTransGen hbc hback)
  exact hlift h .refl

theorem exists_walk {a b : α} (h : Relation.TransGen R a b) :
    ∃ (k : ℕ) (c : ℕ → α), 0 < k ∧ c 0 = a ∧ c k = b ∧ ∀ i < k, R (c i) (c (i + 1)) := by
  induction h with
  | @single b hab =>
    refine ⟨1, fun i => if i = 0 then a else b, Nat.one_pos, rfl, rfl, fun i hi => ?_⟩
    obtain rfl : i = 0 := by omega
    exact hab
  | @tail b d _ hbd ih =>
    obtain ⟨k, c, hk, h0, hb, hwalk⟩ := ih
    refine ⟨k + 1, fun i => if i ≤ k then c i else d, Nat.succ_pos k, h0, ?_, fun i hi => ?_⟩
    · exact if_neg (by omega)
    · show R (if i ≤ k then c i else d) (if i + 1 ≤ k then c (i + 1) else d)
      rw [if_pos (by omega)]
      rcases Nat.lt_or_ge i k with hlt | hge
      · rw [if_pos (show i + 1 ≤ k from hlt)]
        exact hwalk i hlt
      · obtain rfl : i = k := by omega
        rw [if_neg (by omega), hb]
        exact hbd

theorem exists_around {v : α} (h : Relation.TransGen R v v) :
    ∃ (k : ℕ) (c : ℕ → α), Around R k c ∧ c 0 = v := by
  obtain ⟨k, c, hk, h0, hv, hwalk⟩ := exists_walk h
  refine ⟨k, c, ⟨hk, fun i hi => ?_⟩, h0⟩
  have := hwalk i hi
  rcases Nat.lt_or_ge (i + 1) k with hlt | hge
  · rwa [Nat.mod_eq_of_lt hlt]
  · obtain rfl : i + 1 = k := by omega
    rw [Nat.mod_self, h0]
    rwa [hv] at this

end ClosedWalk
