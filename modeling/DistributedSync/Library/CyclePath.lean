import DistributedSync.Library.CycleSearch

/-!
# What a search for a cycle returns

The recursion of the search, without a bound on its depth, always comes to an end
(`detect_evaluates`). The list that it returns is the walk that leaves every node for the first of
its successors that leads to a cycle, up to the first node that is on the walk already
(`detect_path`). So the list is a cycle exactly if this walk comes back to its start
(`closed_iff_returns`).
-/

namespace CycleSearch

variable {α : Type*} [BEq α]

/-! ## The recursion -/

/-- The calls of the recursion: the search from a node, and the loop over its successors. -/
inductive Call (α : Type*) where
  | visit (node : α) (path : List α)
  | scan (path vs : List α)

/-- The recursion comes to an end with a result. -/
inductive Evaluates (next : α → List α) :
    Call α → Marks α → Option (List α) × Marks α → Prop
  | finish (path : List α) (s : Marks α) : Evaluates next (.scan path []) s (none, s)
  | close {v : α} (path vs : List α) {s : Marks α} (hv : s.visited.contains v = true)
    (hon : s.recStack.contains v = true) :
    Evaluates next (.scan path (v :: vs)) s (some (path ++ [v]), s)
  | skip {v : α} {path vs : List α} {s : Marks α} {r : Option (List α) × Marks α}
    (hv : s.visited.contains v = true) (hon : s.recStack.contains v = false)
    (h : Evaluates next (.scan path vs) s r) : Evaluates next (.scan path (v :: vs)) s r
  | enter {v : α} {path : List α} (vs : List α) {s s' : Marks α} {cycle : List α}
    (hv : s.visited.contains v = false)
    (h : Evaluates next (.visit v path) s (some cycle, s')) :
    Evaluates next (.scan path (v :: vs)) s (some cycle, s')
  | pass {v : α} {path vs : List α} {s s' : Marks α} {r : Option (List α) × Marks α}
    (hv : s.visited.contains v = false) (h : Evaluates next (.visit v path) s (none, s'))
    (h' : Evaluates next (.scan path vs) s' r) : Evaluates next (.scan path (v :: vs)) s r
  | found {node : α} {path cycle : List α} {s s' : Marks α}
    (h : Evaluates next (.scan (path ++ [node]) (next node))
      { visited := node :: s.visited, recStack := node :: s.recStack } (some cycle, s')) :
    Evaluates next (.visit node path) s (some cycle, s')
  | leave {node : α} {path : List α} {s s' : Marks α}
    (h : Evaluates next (.scan (path ++ [node]) (next node))
      { visited := node :: s.visited, recStack := node :: s.recStack } (none, s')) :
    Evaluates next (.visit node path) s
      (none, { s' with recStack := s'.recStack.filter fun v => !(v == node) })

/-- The same for the loop over the roots. -/
inductive Searches (next : α → List α) : List α → Marks α → Option (List α) → Prop
  | finish (s : Marks α) : Searches next [] s none
  | skip {root : α} {roots : List α} {s : Marks α} {r : Option (List α)}
    (hv : s.visited.contains root = true) (h : Searches next roots s r) :
    Searches next (root :: roots) s r
  | found {root : α} (roots : List α) {s s' : Marks α} {cycle : List α}
    (hv : s.visited.contains root = false)
    (h : Evaluates next (.visit root []) s (some cycle, s')) :
    Searches next (root :: roots) s (some cycle)
  | pass {root : α} {roots : List α} {s s' : Marks α} {r : Option (List α)}
    (hv : s.visited.contains root = false) (h : Evaluates next (.visit root []) s (none, s'))
    (h' : Searches next roots s' r) : Searches next (root :: roots) s r

/-! ## The walk -/

/-- `v` is the first of the nodes that leads to a cycle. -/
def First (next : α → List α) (l : List α) (v : α) : Prop :=
  ∃ pre post, l = pre ++ v :: post ∧ ReachesCycle next v ∧ ∀ x ∈ pre, ¬ ReachesCycle next x

/-- From `u` the walk goes on to `v`. -/
def Follows (next : α → List α) (u v : α) : Prop := First next (next u) v

def Distinct (l : List α) : Prop := l.Pairwise fun u v => (u == v) = false

/-- The way from `node` on, up to a node `x` that is on the path already. -/
structure Closes (next : α → List α) (path : List α) (node : α) (way : List α) (x : α) : Prop where
  chain : List.IsChain (Follows next) (node :: way ++ [x])
  distinct : Distinct (path ++ way)
  closes : (path ++ way).contains x = true

/-- What comes out of the loop over successors of `node`, and of a search. -/
def ScanTraced (next : α → List α) (path vs : List α) (node : α) (s : Marks α)
    (r : Option (List α) × Marks α) : Prop :=
  Evaluates next (.scan path vs) s r ∧
    ∀ cycle, r.1 = some cycle → ∃ way x, cycle = path ++ way ++ [x] ∧ Closes next path node way x

def VisitTraced (next : α → List α) (path : List α) (node : α) (s : Marks α)
    (r : Option (List α) × Marks α) : Prop :=
  Evaluates next (.visit node path) s r ∧
    ∀ cycle, r.1 = some cycle → ∃ way x, cycle = path ++ node :: way ++ [x] ∧
      Closes next (path ++ [node]) node way x

/-- A search from any node that is not visited yet, where the nodes on the way are those of the
path. -/
def Traces (next : α → List α) (U : List α) (n : ℕ)
    (visit : α → List α → Marks α → Option (List α) × Marks α) : Prop :=
  ∀ node path s F, Marked next s F → s.visited.contains node = false → U.contains node = true →
    unvisited U s ≤ n →
    (∀ y, s.recStack.contains y = true → Relation.TransGen (Edge next) y node) →
    (∀ y, s.recStack.contains y = path.contains y) → Distinct path →
    VisitTraced next path node s (visit node path s)

variable [EquivBEq α] {next : α → List α} {U F path p vs : List α} {n : ℕ} {node : α}
  {s : Marks α} {visit : α → List α → Marks α → Option (List α) × Marks α}

theorem distinct_concat (hd : Distinct path) (hnew : path.contains node = false) :
    Distinct (path ++ [node]) := by
  refine List.pairwise_append.mpr ⟨hd, List.pairwise_singleton .., fun u hu v hv => ?_⟩
  rw [List.mem_singleton.mp hv, Bool.eq_false_iff]
  intro huv
  rw [List.contains_iff_exists_mem_beq.mpr ⟨u, hu, BEq.symm huv⟩] at hnew
  cases hnew

theorem scan_traced (hnext : Respects next) (hU : ∀ u, ∀ v ∈ next u, U.contains v = true)
    (hv : Visits next U n visit) (ht : Traces next U n visit) (hm : Marked next s F)
    (hn : unvisited U s ≤ n) (hvs : next node = p ++ vs) (hp : ∀ x ∈ p, ¬ ReachesCycle next x)
    (hrec : ∀ y, s.recStack.contains y = true →
      (y == node) = true ∨ Relation.TransGen (Edge next) y node)
    (hpath : ∀ y, s.recStack.contains y = path.contains y) (hd : Distinct path) :
    ScanTraced next path vs node s (scan visit path vs s) := by
  induction vs generalizing s F p with
  | nil => exact ⟨.finish path s, fun _ h => by cases h⟩
  | cons v vs ih =>
    have hmem : v ∈ next node := hvs ▸ List.mem_append_right _ List.mem_cons_self
    have hedge : Edge next node v := edge_of_mem hmem
    have hfollows : ReachesCycle next v → Follows next node v := fun h => ⟨p, vs, hvs, h, hp⟩
    -- the rest of the successors, once `v` is known to lead nowhere
    have hrest : ∀ {s' : Marks α} {F' : List α}, Marked next s' F' → unvisited U s' ≤ n →
        ¬ ReachesCycle next v → (∀ y, s'.recStack.contains y = s.recStack.contains y) →
        ScanTraced next path vs node s' (scan visit path vs s') := by
      intro s' F' hm' hn' hno hrec'
      refine ih (p := p ++ [v]) hm' hn' (hvs.trans (List.append_cons ..)) ?_
        (fun y hy => hrec y (hrec' y ▸ hy)) fun y => (hrec' y).trans (hpath y)
      exact List.forall_mem_append.mpr ⟨hp, List.forall_mem_singleton.mpr hno⟩
    rw [scan]
    by_cases hnew : s.visited.contains v = true
    · rw [hnew]
      by_cases hon : s.recStack.contains v = true
      · rw [hon]
        refine ⟨.close path vs hnew hon, fun cycle h => ?_⟩
        cases h
        have hreach : ReachesCycle next v := by
          refine ⟨v, .refl, ?_⟩
          rcases hrec v hon with heq | hwalk
          · exact .single (hedge.congr hnext (BEq.symm heq) BEq.rfl)
          · exact hwalk.tail hedge
        refine ⟨[], v, by rw [List.append_nil], ?_, ?_, ?_⟩
        · exact List.isChain_cons_cons.mpr ⟨hfollows hreach, .singleton _⟩
        · rwa [List.append_nil]
        · rw [List.append_nil, ← hpath, hon]
      · rw [Bool.not_eq_true] at hon
        have hfin : F.contains v = true := by
          rw [hm.visited, hon] at hnew
          exact hnew
        obtain ⟨heval, htrace⟩ := hrest hm hn (hm.done.not_reachesCycle hnext hfin) fun _ => rfl
        rw [hon]
        exact ⟨.skip hnew hon heval, htrace⟩
    · rw [Bool.not_eq_true] at hnew
      have hto : ∀ y, s.recStack.contains y = true → Relation.TransGen (Edge next) y v := by
        intro y hy
        rcases hrec y hy with heq | hwalk
        · exact .single (hedge.congr hnext (BEq.symm heq) BEq.rfl)
        · exact hwalk.tail hedge
      have hvisit := hv v path s F hm hnew (hU node v hmem) hn hto
      obtain ⟨heval, htrace⟩ := ht v path s F hm hnew (hU node v hmem) hn hto hpath hd
      rw [hnew]
      generalize visit v path s = r at hvisit heval htrace ⊢
      obtain ⟨_ | cycle, s'⟩ := r
      · obtain ⟨F', hm', hF, hfin, hrec'⟩ := hvisit.finished rfl
        have hn' := (unvisited_le fun x => hm.visited_mono hm' hF hrec').trans hn
        obtain ⟨heval', htrace'⟩ := hrest hm' hn'
          (hm'.done.not_reachesCycle hnext (hfin v (by simp))) hrec'
        exact ⟨.pass hnew heval heval', htrace'⟩
      · refine ⟨.enter vs hnew heval, fun c h => ?_⟩
        cases h
        obtain ⟨way, x, hcycle, hclose⟩ := htrace cycle rfl
        obtain ⟨-, hreach⟩ := hvisit.found cycle rfl
        refine ⟨v :: way, x, hcycle, ?_, ?_, ?_⟩
        · exact List.isChain_cons_cons.mpr ⟨hfollows hreach, hclose.chain⟩
        · rw [List.append_cons]
          exact hclose.distinct
        · rw [List.append_cons]
          exact hclose.closes

theorem dfs_traced (hnext : Respects next) (hU : ∀ u, ∀ v ∈ next u, U.contains v = true) (n : ℕ) :
    Traces next U n (dfs next n) := by
  induction n with
  | zero =>
    intro node path s F _ hnew hmem hn
    have := unvisited_visit (r := []) hmem hnew
    omega
  | succ n ih =>
    intro node path s F hm hnew hmem hn hrec hpath hd
    have hon : s.recStack.contains node = false := by
      rw [hm.visited, Bool.or_eq_false_iff] at hnew
      exact hnew.1
    have hm' : Marked next { visited := node :: s.visited, recStack := node :: s.recStack } F := by
      refine ⟨hm.done, fun x => ?_⟩
      rw [List.contains_cons, List.contains_cons, hm.visited, Bool.or_assoc]
    obtain ⟨heval, htrace⟩ : ScanTraced next (path ++ [node]) (next node) node
        { visited := node :: s.visited, recStack := node :: s.recStack }
        (scan (dfs next n) (path ++ [node]) (next node)
          { visited := node :: s.visited, recStack := node :: s.recStack }) := by
      refine scan_traced (p := []) hnext hU (dfs_visits hnext hU n) ih hm'
        (Nat.le_of_lt_succ ((unvisited_visit hmem hnew).trans_le hn)) rfl (fun _ h => by cases h)
        (fun y hy => ?_) (fun y => ?_) (distinct_concat hd (hpath node ▸ hon))
      · rw [List.contains_cons, Bool.or_eq_true] at hy
        exact hy.imp_right (hrec y)
      · rw [List.contains_cons, List.contains_append, List.contains_cons, List.contains_nil,
          Bool.or_false, hpath, Bool.or_comm]
    rw [dfs]
    generalize scan (dfs next n) (path ++ [node]) (next node)
      { visited := node :: s.visited, recStack := node :: s.recStack } = r at heval htrace ⊢
    obtain ⟨_ | cycle, s'⟩ := r
    · exact ⟨.leave heval, fun _ h => by cases h⟩
    · refine ⟨.found heval, fun c h => ?_⟩
      cases h
      obtain ⟨way, x, rfl, hclose⟩ := htrace cycle rfl
      exact ⟨way, x, by simp, hclose⟩

theorem search_traced (hnext : Respects next) (hU : ∀ u, ∀ v ∈ next u, U.contains v = true)
    (hn : U.length ≤ n) {roots : List α} (hroots : ∀ v ∈ roots, U.contains v = true)
    (hm : Marked next s F) (hrec : s.recStack = []) :
    Searches next roots s (search next n roots s) ∧
      ∀ cycle, search next n roots s = some cycle → ∃ v way x, First next roots v ∧
        cycle = v :: way ++ [x] ∧ Closes next [v] v way x := by
  induction roots generalizing s F with
  | nil => exact ⟨.finish s, fun _ h => by cases h⟩
  | cons root roots ih =>
    obtain ⟨hroot, hroots⟩ := List.forall_mem_cons.mp hroots
    have hskip : ∀ {v}, ¬ ReachesCycle next root → First next roots v →
        First next (root :: roots) v := by
      rintro v hno ⟨pre, post, rfl, hv, hpre⟩
      exact ⟨root :: pre, post, rfl, hv, List.forall_mem_cons.mpr ⟨hno, hpre⟩⟩
    by_cases hvisited : s.visited.contains root = true
    · have hfin : F.contains root = true := by
        rw [hm.visited, hrec] at hvisited
        exact hvisited
      obtain ⟨heval, htrace⟩ := ih hroots hm hrec
      have hsearch : search next n (root :: roots) s = search next n roots s := by
        rw [search, hvisited]
        rfl
      rw [hsearch]
      refine ⟨.skip hvisited heval, fun cycle h => ?_⟩
      obtain ⟨v, way, x, hv, hcycle⟩ := htrace cycle h
      exact ⟨v, way, x, hskip (hm.done.not_reachesCycle hnext hfin) hv, hcycle⟩
    · rw [Bool.not_eq_true] at hvisited
      have hun := (List.length_filter_le (fun v => !s.visited.contains v) U).trans hn
      have hempty : ∀ y, s.recStack.contains y = ([] : List α).contains y := fun y => by rw [hrec]
      have hdfs := dfs_visits hnext hU n root [] s F hm hvisited hroot hun (by simp [hrec])
      obtain ⟨heval, htrace⟩ := dfs_traced hnext hU n root [] s F hm hvisited hroot hun
        (by simp [hrec]) hempty List.Pairwise.nil
      have hnot : (!s.visited.contains root) = true := by rw [hvisited, Bool.not_false]
      rw [search, if_pos hnot]
      generalize dfs next n root [] s = r at hdfs heval htrace ⊢
      obtain ⟨_ | cycle, s'⟩ := r
      · obtain ⟨F', hm', -, hfin, hrec'⟩ := hdfs.finished rfl
        have hrec'' : s'.recStack = [] := by
          refine List.eq_nil_iff_forall_not_mem.mpr fun x hx => ?_
          have := (hrec' x).symm.trans (List.contains_iff_exists_mem_beq.mpr ⟨x, hx, BEq.rfl⟩)
          rw [hrec] at this
          cases this
        obtain ⟨heval', htrace'⟩ := ih hroots hm' hrec''
        refine ⟨.pass hvisited heval heval', fun cycle h => ?_⟩
        obtain ⟨v, way, x, hv, hcycle⟩ := htrace' cycle h
        exact ⟨v, way, x, hskip (hm'.done.not_reachesCycle hnext (hfin root (by simp))) hv, hcycle⟩
      · refine ⟨.found roots hvisited heval, fun c h => ?_⟩
        cases h
        obtain ⟨way, x, rfl, hclose⟩ := htrace cycle rfl
        obtain ⟨-, hreach⟩ := hdfs.found _ rfl
        exact ⟨root, way, x, ⟨[], roots, rfl, hreach, by simp⟩, rfl, hclose⟩

/-! ## Cycles -/

/-- A closed walk along edges, without a repetition but for its end. -/
structure IsCycle (next : α → List α) (cycle : List α) : Prop where
  edges : List.IsChain (Edge next) cycle
  closed : ∃ v way w, cycle = v :: way ++ [w] ∧ (w == v) = true ∧ Distinct (v :: way)

/-- The walk that leaves each node for its first successor that leads to a cycle comes back. -/
def Returns (next : α → List α) (v : α) : Prop :=
  ∃ w, Relation.TransGen (Follows next) v w ∧ (w == v) = true

theorem Follows.edge {u v : α} (h : Follows next u v) : Edge next u v := by
  obtain ⟨pre, post, heq, -⟩ := h
  exact edge_of_mem (heq ▸ List.mem_append_right _ List.mem_cons_self)

omit [EquivBEq α] in
theorem First.unique {l : List α} {v v' : α} (h : First next l v) (h' : First next l v') :
    v = v' := by
  obtain ⟨pre, post, heq, hv, hpre⟩ := h
  obtain ⟨pre', post', heq', hv', hpre'⟩ := h'
  rcases List.append_eq_append_iff.mp (heq.symm.trans heq') with ⟨a, rfl, ha⟩ | ⟨a, rfl, ha⟩ <;>
    rcases a with _ | ⟨y, a⟩
  · exact (List.cons.inj ha).1
  · exact absurd ((List.cons.inj ha).1 ▸ hv) (hpre' y (by simp))
  · exact (List.cons.inj ha).1.symm
  · exact absurd ((List.cons.inj ha).1 ▸ hv') (hpre y (by simp))

section Chains

variable {R : α → α → Prop} {a x : α} {l : List α}

omit [BEq α] [EquivBEq α] in
theorem transGen_of_chain (h : List.IsChain R (a :: (l ++ [x]))) : Relation.TransGen R a x := by
  induction l generalizing a with
  | nil => exact .single (List.isChain_cons_cons.mp h).1
  | cons b l ih =>
    obtain ⟨hab, h⟩ := List.isChain_cons_cons.mp h
    exact .head hab (ih h)

omit [BEq α] [EquivBEq α] in
/-- Every element but the last has its successor in the list. -/
theorem exists_next_of_chain (h : List.IsChain R (a :: (l ++ [x]))) :
    ∀ u ∈ a :: l, ∃ v ∈ l ++ [x], R u v := by
  induction l generalizing a with
  | nil =>
    intro u hu
    rw [List.mem_singleton.mp hu]
    exact ⟨x, List.mem_cons_self, (List.isChain_cons_cons.mp h).1⟩
  | cons b l ih =>
    obtain ⟨hab, h⟩ := List.isChain_cons_cons.mp h
    intro u hu
    rcases List.mem_cons.mp hu with rfl | hu
    · exact ⟨b, List.mem_cons_self, hab⟩
    · obtain ⟨v, hv, huv⟩ := ih h u hu
      exact ⟨v, List.mem_cons_of_mem b hv, huv⟩

omit [BEq α] [EquivBEq α] in
theorem exists_pred_of_chain (h : List.IsChain R (a :: l ++ [x])) : ∃ u ∈ a :: l, R u x := by
  induction l generalizing a with
  | nil => exact ⟨a, List.mem_cons_self, (List.isChain_cons_cons.mp h).1⟩
  | cons b l ih =>
    obtain ⟨u, hu, hux⟩ := ih (List.isChain_cons_cons.mp h).2
    exact ⟨u, List.mem_cons_of_mem a hu, hux⟩

end Chains

/-- The list is a cycle exactly if the walk comes back to its start: a walk that has closed
elsewhere goes round there for ever. -/
theorem closed_iff_returns {v x : α} {way : List α} (hnext : Respects next)
    (h : Closes next [v] v way x) : IsCycle next (v :: way ++ [x]) ↔ Returns next v := by
  have hchain : List.IsChain (Follows next) (v :: (way ++ [x])) := h.chain
  constructor
  · rintro ⟨-, v', way', w, heq, hw, -⟩
    obtain ⟨rfl, -⟩ := List.cons.inj (List.append_inj_left' heq rfl)
    obtain ⟨rfl, -⟩ := List.cons.inj (List.append_inj_right' heq rfl)
    exact ⟨x, transGen_of_chain hchain, hw⟩
  · rintro ⟨w, hwalk, hw⟩
    refine ⟨h.chain.imp fun _ _ he => he.edge, v, way, x, rfl, ?_, h.distinct⟩
    have hclosed : (x == v || way.contains x) = true := by
      rw [← List.contains_cons]
      exact h.closes
    rw [Bool.or_eq_true] at hclosed
    refine hclosed.resolve_right fun hx => ?_
    -- from `v` on, the walk stays on the rest of the way
    have hstay : ∀ {u u' z}, u ∈ v :: way → (u == u') = true → Follows next u' z →
        way.contains z = true := by
      intro u u' z hu huu hz
      obtain ⟨z', hz', hfollows⟩ := exists_next_of_chain hchain u hu
      obtain rfl := hfollows.unique (show First next (next u) z from hnext u u' huu ▸ hz)
      rcases List.mem_append.mp hz' with hz' | hz'
      · exact List.contains_iff_exists_mem_beq.mpr ⟨z', hz', BEq.rfl⟩
      · rwa [List.mem_singleton.mp hz']
    have hway : ∀ {z}, Relation.TransGen (Follows next) v z → way.contains z = true := by
      intro z hz
      induction hz with
      | single hz => exact hstay List.mem_cons_self BEq.rfl hz
      | tail _ hz ih =>
        obtain ⟨u, hu, huz⟩ := List.contains_iff_exists_mem_beq.mp ih
        exact hstay (List.mem_cons_of_mem v hu) (BEq.symm huz) hz
    obtain ⟨u, hu, hwu⟩ := List.contains_iff_exists_mem_beq.mp (hway hwalk)
    have hne := (List.pairwise_cons.mp h.distinct).1 u hu
    rw [BEq.trans (BEq.symm hw) hwu] at hne
    cases hne

/-! ## Graphs given by the successors of their keys -/

variable {g : List (α × List α)} {order : List α → List α}

/-- The successors of a node, in the order in which the search goes through them. -/
def ordered (order : List α → List α) (g : List (α × List α)) (u : α) : List α :=
  order (successors g u)

theorem detect_traced (horder : ∀ l, (order l).Perm l) (g : List (α × List α)) :
    Searches (ordered order g) (g.map Prod.fst) {} (detect order g) ∧
      ∀ cycle, detect order g = some cycle → ∃ v way x,
        First (ordered order g) (g.map Prod.fst) v ∧ cycle = v :: way ++ [x] ∧
          Closes (ordered order g) [v] v way x := by
  have hnodes : ∀ u, ∀ v ∈ ordered order g u, (nodes g).contains v = true := by
    intro u v hv
    have hv := (horder _).mem_iff.mp hv
    obtain ⟨p, hp, -, heq⟩ := exists_of_edge (edge_of_mem hv)
    rw [heq] at hv
    exact List.contains_iff_exists_mem_beq.mpr
      ⟨v, List.mem_flatMap.mpr ⟨p, hp, List.mem_cons_of_mem _ hv⟩, BEq.rfl⟩
  have hroots : ∀ v ∈ g.map Prod.fst, (nodes g).contains v = true := by
    intro v hv
    obtain ⟨p, hp, rfl⟩ := List.mem_map.mp hv
    exact List.contains_iff_exists_mem_beq.mpr
      ⟨p.1, List.mem_flatMap.mpr ⟨p, hp, List.mem_cons_self⟩, BEq.rfl⟩
  have hrespects : Respects (ordered order g) :=
    fun u v huv => congrArg order (respects_successors g u v huv)
  exact search_traced hrespects hnodes le_rfl hroots (F := []) ⟨trivial, fun _ => rfl⟩ rfl

omit [EquivBEq α] in
theorem edge_ordered (horder : ∀ l, (order l).Perm l) (g : List (α × List α)) :
    Edge (ordered order g) = Edge (successors g) := by
  funext u v
  refine propext ?_
  unfold Edge ordered
  rw [List.contains_iff_exists_mem_beq, List.contains_iff_exists_mem_beq]
  exact exists_congr fun w => and_congr_left fun _ => (horder _).mem_iff

end CycleSearch
