import DistributedSync.Core.Md5
import DistributedSync.Library.HashRing
import DistributedSync.Services.Queue

/-!
# The hash ring of the queue

`ConsistentHashRing` places `virtual_nodes` points for every node on a ring; where points of two
nodes fall together, the later one stays. `get_node` and both loops of `get_replicas` follow the
clockwise walk from the hash of the key (`replicaChoice`). As long as no two points fall together,
the ring depends on the set of the nodes alone, and a node that comes or goes moves only its own
keys (`consistentHashing`).
-/

namespace DistributedSync

open HashRing

variable {α β : Type*}

/-! ## Dictionaries built by a loop -/

theorem lookup_foldl_setItem [BEq α] [EquivBEq α] (l : List (α × β)) (d : List (α × β)) (k : α) :
    (l.foldl (fun d p => setItem d p.1 p.2) d).lookup k =
      (l.reverse.lookup k).or (d.lookup k) := by
  induction l using List.reverseRecOn with
  | nil => rfl
  | append_singleton l p ih =>
    rw [List.foldl_append, List.foldl_cons, List.foldl_nil, lookup_setItem, ih,
      List.reverse_append, List.reverse_singleton, List.singleton_append, lookup_cons]
    split <;> rfl

theorem mem_keys_iff [BEq α] [LawfulBEq α] {l : List (α × β)} {k : α} :
    k ∈ l.map Prod.fst ↔ (l.lookup k).isSome = true := by
  rw [List.lookup_isSome_iff, List.mem_map]
  refine exists_congr fun p => and_congr_right fun _ => ?_
  rw [beq_iff_eq, eq_comm]

theorem nodup_foldl_setItem [BEq α] [LawfulBEq α] (l : List (α × β)) :
    ((l.foldl (fun d p => setItem d p.1 p.2) []).map Prod.fst).Nodup := by
  have hkeys : (l.foldl (fun d p => setItem d p.1 p.2) []).Pairwise
      fun p q => (p.1 == q.1) = false ∧ True := by
    induction l using List.reverseRecOn with
    | nil => exact List.Pairwise.nil
    | append_singleton l p ih =>
      rw [List.foldl_append]
      exact pairwise_setItem (R := fun _ _ => True) ih fun _ _ _ => ⟨trivial, trivial⟩
  exact List.pairwise_map.mpr (hkeys.imp fun h => by simpa using h.1)

namespace ConsistentHashRing

variable (md5 : String → ℕ)

/-! ## Lookups and updates -/

/-- Get node for key using consistent hash; `none` for the `ValueError` of an empty ring. -/
def getNode (r : ConsistentHashRing) (key : String) : Option String :=
  match r.sortedKeys with
  | [] => none
  | first :: _ =>
    match r.sortedKeys.find? fun sortedKey => md5 key ≤ sortedKey with
    | some sortedKey => r.ring.lookup sortedKey
    | none => r.ring.lookup first

def addNode (r : ConsistentHashRing) (node : String) : ConsistentHashRing :=
  if r.nodes.contains node then r else buildRing md5 { r with nodes := r.nodes ++ [node] }

def removeNode (r : ConsistentHashRing) (node : String) : ConsistentHashRing :=
  if r.nodes.contains node then buildRing md5 { r with nodes := r.nodes.erase node } else r

/-! ## The ring as a set of points -/

/-- The points of the nodes, in the order in which `_build_ring` places them. -/
def placed (nodes : List String) (virtualNodes : ℕ) : List (ℕ × String) :=
  nodes.flatMap fun node => (List.range virtualNodes).map fun i => (md5 s!"{node}:{i}", node)

/-- The points of the ring. -/
def points (nodes : List String) (virtualNodes : ℕ) : Finset ℕ :=
  ((placed md5 nodes virtualNodes).map Prod.fst).toFinset

/-- The node that was the last to place the point. -/
def owner (nodes : List String) (virtualNodes : ℕ) (point : ℕ) : String :=
  ((placed md5 nodes virtualNodes).reverse.lookup point).getD ""

/-- The ring has these points, with these owners. -/
structure HasPoints (r : ConsistentHashRing) (points : Finset ℕ) (owner : ℕ → String) : Prop where
  sortedKeys : r.sortedKeys = points.sort
  lookup : ∀ p ∈ points, r.ring.lookup p = some (owner p)

variable {md5}

theorem mem_points {nodes : List String} {virtualNodes p : ℕ} : p ∈ points md5 nodes virtualNodes ↔
    ((placed md5 nodes virtualNodes).reverse.lookup p).isSome = true := by
  rw [points, List.mem_toFinset, ← mem_keys_iff, List.map_reverse, List.mem_reverse]

theorem hasPoints_buildRing (r : ConsistentHashRing) :
    (buildRing md5 r).HasPoints (points md5 r.nodes r.virtualNodes)
      (owner md5 r.nodes r.virtualNodes) := by
  set placed := placed md5 r.nodes r.virtualNodes with hplaced
  set ring := placed.foldl (fun ring p => setItem ring p.1 p.2) [] with hring
  have hlookup : ∀ p, ring.lookup p = placed.reverse.lookup p := fun p => by
    rw [hring, lookup_foldl_setItem, List.lookup_nil, Option.or_none]
  refine ⟨?_, fun p hp => ?_⟩
  · have hset : (ring.map Prod.fst).toFinset = points md5 r.nodes r.virtualNodes := by
      ext p
      rw [List.mem_toFinset, mem_keys_iff, hlookup, mem_points]
    rw [← hset]
    show (ring.map Prod.fst).insertionSort (· ≤ ·) = _
    refine List.Perm.eq_of_pairwise' (r := (· ≤ ·)) (List.pairwise_insertionSort (· ≤ ·) _)
      (Finset.pairwise_sort ..) ((List.perm_insertionSort ..).trans ?_)
    exact ((Finset.sort_perm_toList ..).trans
      (List.toFinset_toList (nodup_foldl_setItem placed))).symm
  · rw [mem_points] at hp
    obtain ⟨node, hnode⟩ := Option.isSome_iff_exists.mp hp
    show ring.lookup p = _
    rw [hlookup, owner, hnode, Option.getD_some]

variable {r : ConsistentHashRing} {pts : Finset ℕ} {own : ℕ → String} {key : String}

/-- A loop that collects at least `count` of the elements has got them all, or some of the first. -/
def Fills (count : ℕ) (all got : List β) : Prop := got = all ∨ count ≤ got.length ∧ got <+: all

theorem Fills.take {count : ℕ} {all got : List β} (h : Fills count all got) :
    got.take count = all.take count := by
  rcases h with rfl | ⟨hlen, hpre⟩
  · rfl
  · obtain ⟨rest, rfl⟩ := hpre
    rw [List.take_append_of_le_length hlen]

/-- Either loop of `get_replicas` collects the owners of the keys it wants, after those of the
pts that are met already. -/
theorem fills_collect (h : r.HasPoints pts own) (count : ℕ) (wanted : ℕ → Bool) (met : List ℕ)
    {keys : List ℕ} (hkeys : ∀ k ∈ keys, k ∈ pts) :
    Fills count ((met ++ keys.filter wanted).map own).eraseDups
      (r.collect count wanted keys (met.map own).eraseDups) := by
  induction keys generalizing met with
  | nil =>
    rw [collect, List.filter_nil, List.append_nil]
    exact Or.inl rfl
  | cons k keys ih =>
    have hk := h.lookup k (hkeys k List.mem_cons_self)
    have hkeys' : ∀ k ∈ keys, k ∈ pts := fun k hk => hkeys k (List.mem_cons_of_mem _ hk)
    rw [collect, hk]
    dsimp only
    by_cases hw : wanted k = true
    swap
    · rw [List.filter_cons_of_neg hw, if_neg (by simp [hw])]
      exact ih met hkeys'
    have hnext := ih (met ++ [k]) hkeys'
    have hmap : (met ++ [k]).map own = met.map own ++ [own k] := List.map_append
    rw [List.filter_cons_of_pos hw, List.append_cons]
    by_cases hmem : own k ∈ met.map own
    · rw [if_neg (by rw [List.contains_iff_mem.mpr (List.mem_eraseDups.mpr hmem)]; simp)]
      rwa [hmap, eraseDups_concat_of_mem hmem] at hnext
    · have hno : (met.map own).eraseDups.contains (own k) = false :=
        Bool.eq_false_iff.mpr fun h => hmem (List.mem_eraseDups.mp (List.contains_iff_mem.mp h))
      rw [hmap, eraseDups_concat_of_notMem hmem] at hnext
      rw [if_pos (by rw [hw, hno]; rfl)]
      split
      · next hlen =>
        refine Or.inr ⟨by exact_mod_cast hlen, ?_⟩
        have hpre := eraseDups_prefix ((met ++ [k]).map own) ((keys.filter wanted).map own)
        rwa [← List.map_append, hmap, eraseDups_concat_of_notMem hmem] at hpre
      · exact hnext

/-- Get node for key: the owner of the first point met on the walk. -/
theorem getNode_eq (h : r.HasPoints pts own) :
    r.getNode md5 key = ownerOf pts own (md5 key) := by
  set above := (pts.filter (md5 key ≤ ·)).sort with habove
  set below := (pts.filter (· < md5 key)).sort with hbelow
  have hsort : r.sortedKeys = below ++ above := h.sortedKeys.trans (sort_eq_append pts (md5 key))
  have hlookup : ∀ k ∈ r.sortedKeys, r.ring.lookup k = some (own k) := fun k hk => by
    rw [h.sortedKeys, Finset.mem_sort] at hk
    exact h.lookup k hk
  have hfind : r.sortedKeys.find? (fun k => md5 key ≤ k) = above.head? := by
    have hbelow' : below.find? (fun k => md5 key ≤ k) = none :=
      List.find?_eq_none.mpr fun k hk => by
        rw [hbelow, Finset.mem_sort, Finset.mem_filter] at hk
        simpa using hk.2
    rw [hsort, List.find?_append, hbelow', Option.none_or]
    rcases hab : above with _ | ⟨k, rest⟩
    · rfl
    · have hk : k ∈ above := hab ▸ List.mem_cons_self
      rw [habove, Finset.mem_sort, Finset.mem_filter] at hk
      rw [List.find?_cons_of_pos (by simpa using hk.2), List.head?_cons]
  have hwalk : ownerOf pts own (md5 key) = (above ++ below).head?.map own := rfl
  unfold getNode
  rw [hwalk, hfind]
  rcases hab : above with _ | ⟨k, rest⟩
  · rw [hab, List.append_nil] at hsort
    rw [List.nil_append, ← hsort]
    rcases hkeys : r.sortedKeys with _ | ⟨first, rest⟩
    · rfl
    · exact hlookup first (hkeys ▸ List.mem_cons_self)
  · have hk : k ∈ r.sortedKeys := by
      rw [hsort, hab]
      exact List.mem_append_right _ List.mem_cons_self
    rcases hkeys : r.sortedKeys with _ | ⟨first, rest'⟩
    · rw [hkeys] at hk
      cases hk
    · exact hlookup k hk

/-- Get replica nodes for key: the owners met on the walk, each once, the first `count` of them. -/
theorem getReplicas_eq (h : r.HasPoints pts own) (count : ℕ) :
    r.getReplicas md5 key count = (owners pts own (md5 key)).take count := by
  set above := (pts.filter (md5 key ≤ ·)).sort with habove
  set below := (pts.filter (· < md5 key)).sort with hbelow
  have hsort : r.sortedKeys = below ++ above := h.sortedKeys.trans (sort_eq_append pts (md5 key))
  have hkeys : ∀ k ∈ r.sortedKeys, k ∈ pts := fun k hk => by
    rwa [h.sortedKeys, Finset.mem_sort] at hk
  have hwanted : r.sortedKeys.filter (fun k => md5 key ≤ k) = above := by
    rw [h.sortedKeys, filter_sort]
  -- the second pass over the keys meets nobody new
  have htwice : ∀ k ∈ r.sortedKeys ++ r.sortedKeys, k ∈ pts := fun k hk =>
    (List.mem_append.mp hk).elim (hkeys k) (hkeys k)
  have hfirst := fills_collect h count (fun k => md5 key ≤ k) [] htwice
  rw [List.nil_append, List.filter_append, hwanted, List.map_append, eraseDups_append_of_subset
    fun _ hb => hb, List.map_nil, List.eraseDups_nil] at hfirst
  have hwhole : owners pts own (md5 key) = (above.map own ++ below.map own).eraseDups := by
    rw [owners, clockwise, List.map_append]
  rw [getReplicas, sliceTo_natCast, hwhole]
  generalize r.collect count (fun k => md5 key ≤ k) (r.sortedKeys ++ r.sortedKeys) [] = replicas
    at hfirst ⊢
  have hlong : (above.map own ++ below.map own).eraseDups =
      ((above ++ r.sortedKeys).map own).eraseDups := by
    rw [hsort, List.map_append, List.map_append, ← List.append_assoc]
    exact (eraseDups_append_of_subset fun b hb => List.mem_append_left _ hb).symm
  split
  · next hlt =>
    have hall : replicas = (above.map own).eraseDups := by
      refine hfirst.resolve_right fun h => ?_
      have := h.1
      omega
    have hsecond := fills_collect h count (fun _ => true) above hkeys
    rw [List.filter_true] at hsecond
    rw [hall, hsecond.take, hlong]
  · next hge =>
    have hlen : count ≤ (above.map own).eraseDups.length := by
      rcases hfirst with rfl | ⟨-, hpre⟩
      · omega
      · have := hpre.length_le
        omega
    rw [hfirst.take, List.eraseDups_append, List.take_append_of_le_length hlen]

theorem mem_points_iff {nodes : List String} {virtualNodes p : ℕ} :
    p ∈ points md5 nodes virtualNodes ↔
      ∃ node ∈ nodes, ∃ i < virtualNodes, md5 s!"{node}:{i}" = p := by
  simp [points, placed]

/-! ## The choice of replicas -/

/-- `get_replicas` follows the clockwise walk, and agrees with `get_node`. -/
structure WalksClockwise (md5 : String → ℕ) (nodes : List String) (virtualNodes : ℕ)
    (key : String) : Prop where
  walk : ∀ count : ℕ, (init md5 nodes virtualNodes).getReplicas md5 key count =
    (owners (points md5 nodes virtualNodes) (owner md5 nodes virtualNodes) (md5 key)).take count
  length : ∀ count : ℕ, ((init md5 nodes virtualNodes).getReplicas md5 key count).length =
    min count ((points md5 nodes virtualNodes).image (owner md5 nodes virtualNodes)).card
  head : ∃ node, (init md5 nodes virtualNodes).getNode md5 key = some node ∧
    ∀ count : ℕ, 1 ≤ count →
      ((init md5 nodes virtualNodes).getReplicas md5 key count).head? = some node
  grows : ∀ count count' : ℕ, count ≤ count' →
    (init md5 nodes virtualNodes).getReplicas md5 key count <+:
      (init md5 nodes virtualNodes).getReplicas md5 key count'

/-- For every hash function, collisions included. -/
theorem replicaChoice (md5 : String → ℕ) {nodes : List String} (hnodes : nodes ≠ [])
    {virtualNodes : ℕ} (hvirtual : 1 ≤ virtualNodes) (key : String) :
    WalksClockwise md5 nodes virtualNodes key := by
  have hring : (init md5 nodes virtualNodes).HasPoints (points md5 nodes virtualNodes)
      (owner md5 nodes virtualNodes) := hasPoints_buildRing _
  have hwalk : ∀ count : ℕ, (init md5 nodes virtualNodes).getReplicas md5 key count =
      (owners (points md5 nodes virtualNodes) (owner md5 nodes virtualNodes) (md5 key)).take
        count := getReplicas_eq hring
  have hsome : ownerOf (points md5 nodes virtualNodes) (owner md5 nodes virtualNodes)
      (md5 key) ≠ none := by
    rw [ne_eq, ownerOf_eq_none, ← ne_eq, ← Finset.nonempty_iff_ne_empty]
    obtain ⟨node, hnode⟩ := List.exists_mem_of_ne_nil nodes hnodes
    exact ⟨_, mem_points_iff.mpr ⟨node, hnode, 0, hvirtual, rfl⟩⟩
  obtain ⟨node, hnode⟩ := Option.ne_none_iff_exists'.mp hsome
  refine ⟨hwalk, fun count => ?_, ⟨node, (getNode_eq hring).trans hnode, fun count hcount => ?_⟩,
    fun count count' hle => ?_⟩
  · rw [hwalk, List.length_take, length_owners]
  · rw [hwalk, List.head?_take, if_neg (by omega), head?_owners]
    exact hnode
  · rw [hwalk, hwalk]
    exact List.take_prefix_take_left hle

/-- Two nodes with three points each, and a replica on both. -/
theorem replicaChoice_two : WalksClockwise hashlibMd5 ["a", "b"] 3 "orders:0" ∧
    ((init hashlibMd5 ["a", "b"] 3).getReplicas hashlibMd5 "orders:0" 3).length = 2 :=
  ⟨replicaChoice hashlibMd5 (by decide) (by decide) "orders:0", by decide +kernel⟩

/-! ## Histories of a ring -/

/-- The hash function tells the labels of the points of these nodes apart. -/
def NoCollision (md5 : String → ℕ) (virtualNodes : ℕ) (names : List String) : Prop :=
  ∀ m ∈ names, ∀ i < virtualNodes, ∀ n ∈ names, ∀ j < virtualNodes,
    md5 s!"{m}:{i}" = md5 s!"{n}:{j}" → s!"{m}:{i}" = s!"{n}:{j}"

theorem append_cons_inj_of_notMem {c : α} {l l' s s' : List α} (h : c ∉ s) (h' : c ∉ s')
    (heq : l ++ c :: s = l' ++ c :: s') : l = l' ∧ s = s' := by
  rcases List.append_eq_append_iff.mp heq with ⟨a, rfl, ha⟩ | ⟨a, rfl, ha⟩ <;>
    rcases a with _ | ⟨x, a⟩
  · exact ⟨(List.append_nil _).symm, (List.cons.inj ha).2⟩
  · obtain ⟨-, rfl⟩ := List.cons.inj ha
    simp at h
  · exact ⟨List.append_nil _, (List.cons.inj ha).2.symm⟩
  · obtain ⟨-, rfl⟩ := List.cons.inj ha
    simp at h'

/-- A label tells the node and the number of the point, whatever the name of the node is. -/
theorem label_inj {m n : String} {i j : ℕ} (h : s!"{m}:{i}" = s!"{n}:{j}") : m = n ∧ i = j := by
  have hdigits : ∀ i : ℕ, ':' ∉ Nat.toDigits 10 i := fun i hi => by
    have := Nat.isDigit_of_mem_toDigits (by decide) (by decide) hi
    revert this
    decide
  have hlist := congrArg String.toList h
  simp [toString] at hlist
  -- a number has no colon, so the last colon of the label separates
  obtain ⟨hname, hi⟩ := append_cons_inj_of_notMem (hdigits i) (hdigits j) hlist
  refine ⟨String.toList_inj.mp hname, ?_⟩
  rw [← Nat.ofDigitChars_ten_toDigits (n := i), hi, Nat.ofDigitChars_ten_toDigits]

/-- The rings that `add_node` and `remove_node` make of a ring with distinct nodes, with the set of
their nodes; `names` are the nodes that occur. -/
inductive History (md5 : String → ℕ) (virtualNodes : ℕ) (names : List String) :
    Finset String → ConsistentHashRing → Prop
  | init {nodes : List String} (hnd : nodes.Nodup) (hnames : ∀ node ∈ nodes, node ∈ names) :
    History md5 virtualNodes names nodes.toFinset (init md5 nodes virtualNodes)
  | addNode {s : Finset String} {r : ConsistentHashRing} (h : History md5 virtualNodes names s r)
    {node : String} (hnode : node ∈ names) :
    History md5 virtualNodes names (insert node s) (r.addNode md5 node)
  | removeNode {s : Finset String} {r : ConsistentHashRing} (h : History md5 virtualNodes names s r)
    (node : String) : History md5 virtualNodes names (s.erase node) (r.removeNode md5 node)

/-- The ring depends on its nodes alone, and a node that comes or goes moves only its own keys. -/
structure Consistent (md5 : String → ℕ) (virtualNodes : ℕ) (names : List String) : Prop where
  history : ∀ {s r r'}, History md5 virtualNodes names s r → History md5 virtualNodes names s r' →
    ∀ key, r.getNode md5 key = r'.getNode md5 key ∧
      ∀ count : ℤ, r.getReplicas md5 key count = r'.getReplicas md5 key count
  add : ∀ {s r}, History md5 virtualNodes names s r → ∀ node ∈ names, ∀ key,
    (r.addNode md5 node).getNode md5 key ≠ r.getNode md5 key →
      (r.addNode md5 node).getNode md5 key = some node
  remove : ∀ {s r}, History md5 virtualNodes names s r → ∀ node key,
    (r.removeNode md5 node).getNode md5 key ≠ r.getNode md5 key → r.getNode md5 key = some node

theorem collect_congr {r r' : ConsistentHashRing} {count : ℤ} {wanted : ℕ → Bool} {keys : List ℕ}
    (h : ∀ k ∈ keys, r.ring.lookup k = r'.ring.lookup k) (replicas : List String) :
    r.collect count wanted keys replicas = r'.collect count wanted keys replicas := by
  induction keys generalizing replicas with
  | nil => rfl
  | cons k keys ih =>
    have ih := ih fun k hk => h k (List.mem_cons_of_mem _ hk)
    rw [collect, collect, h k List.mem_cons_self]
    simp only [ih]

theorem HasPoints.congr {r r' : ConsistentHashRing} {own' : ℕ → String} (h : r.HasPoints pts own)
    (h' : r'.HasPoints pts own') (hown : ∀ p ∈ pts, own' p = own p) (key : String) :
    r.getNode md5 key = r'.getNode md5 key ∧
      ∀ count : ℤ, r.getReplicas md5 key count = r'.getReplicas md5 key count := by
  have hkeys : r.sortedKeys = r'.sortedKeys := h.sortedKeys.trans h'.sortedKeys.symm
  have hlookup : ∀ k ∈ r'.sortedKeys, r.ring.lookup k = r'.ring.lookup k := fun k hk => by
    rw [h'.sortedKeys, Finset.mem_sort] at hk
    rw [h.lookup k hk, h'.lookup k hk, hown k hk]
  refine ⟨by rw [getNode_eq h, getNode_eq h', ownerOf_congr hown], fun count => ?_⟩
  have htwice : ∀ k ∈ r'.sortedKeys ++ r'.sortedKeys, r.ring.lookup k = r'.ring.lookup k :=
    fun k hk => (List.mem_append.mp hk).elim (hlookup k) (hlookup k)
  unfold getReplicas
  dsimp only
  rw [hkeys, collect_congr htwice, collect_congr hlookup]

variable {names nodes nodes' : List String} {virtualNodes : ℕ}

theorem owner_eq (hnc : NoCollision md5 virtualNodes names) (hnames : ∀ n ∈ nodes, n ∈ names)
    {node : String} (hnode : node ∈ nodes) {i : ℕ} (hi : i < virtualNodes) :
    owner md5 nodes virtualNodes (md5 s!"{node}:{i}") = node := by
  have hmem : md5 s!"{node}:{i}" ∈ points md5 nodes virtualNodes :=
    mem_points_iff.mpr ⟨node, hnode, i, hi, rfl⟩
  rw [mem_points] at hmem
  obtain ⟨node', hnode'⟩ := Option.isSome_iff_exists.mp hmem
  rw [owner, hnode', Option.getD_some]
  obtain ⟨p, hp, hk, rfl⟩ := mem_of_lookup hnode'
  simp only [placed, List.mem_reverse, List.mem_flatMap, List.mem_map, List.mem_range] at hp
  obtain ⟨node', hn', i', hi', rfl⟩ := hp
  exact (label_inj (hnc node' (hnames node' hn') i' hi' node (hnames node hnode) i hi
    (beq_iff_eq.mp hk).symm)).1

theorem points_subset (h : ∀ n ∈ nodes, n ∈ nodes') :
    points md5 nodes virtualNodes ⊆ points md5 nodes' virtualNodes := by
  intro p hp
  rw [mem_points_iff] at hp ⊢
  obtain ⟨node, hnode, hp⟩ := hp
  exact ⟨node, h node hnode, hp⟩

theorem owner_congr (hnc : NoCollision md5 virtualNodes names) (hnames : ∀ n ∈ nodes, n ∈ names)
    (hnames' : ∀ n ∈ nodes', n ∈ names) (h : ∀ n ∈ nodes, n ∈ nodes') :
    ∀ p ∈ points md5 nodes virtualNodes,
      owner md5 nodes' virtualNodes p = owner md5 nodes virtualNodes p := by
  intro p hp
  obtain ⟨node, hnode, i, hi, rfl⟩ := mem_points_iff.mp hp
  rw [owner_eq hnc hnames hnode hi, owner_eq hnc hnames' (h node hnode) hi]

theorem ownerOf_nodes (hnc : NoCollision md5 virtualNodes names) (hnames' : ∀ n ∈ nodes', n ∈ names)
    (h : ∀ n ∈ nodes, n ∈ nodes') (x : ℕ) :
    ownerOf (points md5 nodes' virtualNodes) (owner md5 nodes' virtualNodes) x =
        ownerOf (points md5 nodes virtualNodes) (owner md5 nodes virtualNodes) x ∨
      ∃ node ∈ nodes', node ∉ nodes ∧
        ownerOf (points md5 nodes' virtualNodes) (owner md5 nodes' virtualNodes) x = some node := by
  refine (ownerOf_of_subset (points_subset h) (owner_congr hnc (fun n hn => hnames' n (h n hn))
    hnames' h)).imp_right ?_
  rintro ⟨p, hp, hnew, heq⟩
  obtain ⟨node, hnode, i, hi, rfl⟩ := mem_points_iff.mp hp
  rw [owner_eq hnc hnames' hnode hi] at heq
  exact ⟨node, hnode, fun hold => hnew (mem_points_iff.mpr ⟨node, hold, i, hi, rfl⟩), heq⟩

variable {s : Finset String}

/-- What a history leaves: a ring built from distinct nodes. -/
structure Built (md5 : String → ℕ) (virtualNodes : ℕ) (names : List String) (s : Finset String)
    (r : ConsistentHashRing) : Prop where
  nodup : r.nodes.Nodup
  nodes : r.nodes.toFinset = s
  names : ∀ node ∈ r.nodes, node ∈ names
  points : r.HasPoints (points md5 r.nodes virtualNodes) (owner md5 r.nodes virtualNodes)
  virtualNodes : r.virtualNodes = virtualNodes

theorem Built.buildRing {r : ConsistentHashRing} (hnd : r.nodes.Nodup)
    (hnames : ∀ node ∈ r.nodes, node ∈ names) :
    Built md5 r.virtualNodes names r.nodes.toFinset (buildRing md5 r) :=
  ⟨hnd, rfl, hnames, hasPoints_buildRing r, rfl⟩

theorem History.built {r : ConsistentHashRing} (h : History md5 virtualNodes names s r) :
    Built md5 virtualNodes names s r := by
  induction h with
  | init hnd hnames => exact Built.buildRing (r := { nodes := _, virtualNodes }) hnd hnames
  | @addNode s r h node hnode ih =>
    unfold ConsistentHashRing.addNode
    split
    · next hold =>
      rw [List.contains_iff_mem, ← List.mem_toFinset, ih.nodes] at hold
      rwa [Finset.insert_eq_of_mem hold]
    · next hnew =>
      rw [List.contains_iff_mem] at hnew
      have hset : (r.nodes ++ [node]).toFinset = insert node s := by
        rw [List.toFinset_append, ih.nodes, Finset.union_comm]
        rfl
      rw [← hset, ← ih.virtualNodes]
      refine Built.buildRing (r := { r with nodes := r.nodes ++ [node] }) ?_ ?_
      · exact List.nodup_append.mpr ⟨ih.nodup, List.nodup_singleton _, fun a ha b hb heq =>
          hnew (by rwa [heq, List.mem_singleton.mp hb] at ha)⟩
      · exact List.forall_mem_append.mpr ⟨ih.names, List.forall_mem_singleton.mpr hnode⟩
  | @removeNode s r h node ih =>
    unfold ConsistentHashRing.removeNode
    split
    · have hset : (r.nodes.erase node).toFinset = s.erase node := by
        rw [← ih.nodes]
        ext n
        rw [List.mem_toFinset, ih.nodup.mem_erase_iff, Finset.mem_erase, List.mem_toFinset]
      rw [← hset, ← ih.virtualNodes]
      exact Built.buildRing (r := { r with nodes := r.nodes.erase node }) (ih.nodup.erase node)
        fun n hn => ih.names n (List.mem_of_mem_erase hn)
    · next hnew =>
      rw [List.contains_iff_mem, ← List.mem_toFinset, ih.nodes] at hnew
      rwa [Finset.erase_eq_of_notMem hnew]

theorem consistentHashing (md5 : String → ℕ) (virtualNodes : ℕ) (names : List String)
    (hnc : NoCollision md5 virtualNodes names) : Consistent md5 virtualNodes names where
  history {s r r'} h h' key := by
    have hb := h.built
    have hb' := h'.built
    have hsame : ∀ n, n ∈ r.nodes ↔ n ∈ r'.nodes := fun n => by
      rw [← List.mem_toFinset, ← List.mem_toFinset, hb.nodes, hb'.nodes]
    have hpts : points md5 r'.nodes virtualNodes = points md5 r.nodes virtualNodes :=
      (points_subset fun n hn => (hsame n).mpr hn).antisymm (points_subset fun n => (hsame n).mp)
    exact hb.points.congr (hpts ▸ hb'.points)
      (owner_congr hnc hb.names hb'.names fun n => (hsame n).mp) key
  add {s r} h node hnode key hne := by
    have hb := h.built
    have hb' := (h.addNode hnode).built
    rw [getNode_eq hb'.points, getNode_eq hb.points] at hne
    rw [getNode_eq hb'.points]
    have hold : ∀ n ∈ r.nodes, n ∈ (r.addNode md5 node).nodes := fun n hn => by
      rw [← List.mem_toFinset, hb'.nodes, ← hb.nodes]
      exact Finset.mem_insert_of_mem (List.mem_toFinset.mpr hn)
    obtain ⟨n, hn, hnew, heq⟩ :=
      (ownerOf_nodes hnc hb'.names hold (md5 key)).resolve_left hne
    rw [← List.mem_toFinset, hb'.nodes, ← hb.nodes, Finset.mem_insert, List.mem_toFinset] at hn
    rw [heq, hn.resolve_right hnew]
  remove {s r} h node key hne := by
    have hb := h.built
    have hb' := (h.removeNode node).built
    rw [getNode_eq hb'.points, getNode_eq hb.points] at hne
    rw [getNode_eq hb.points]
    have hold : ∀ n ∈ (r.removeNode md5 node).nodes, n ∈ r.nodes := fun n hn => by
      rw [← List.mem_toFinset, hb'.nodes, ← hb.nodes, Finset.mem_erase, List.mem_toFinset] at hn
      exact hn.2
    obtain ⟨n, hn, hgone, heq⟩ :=
      (ownerOf_nodes hnc hb.names hold (md5 key)).resolve_left (Ne.symm hne)
    rw [← List.mem_toFinset, hb'.nodes, ← hb.nodes, Finset.mem_erase, List.mem_toFinset] at hgone
    rw [heq, show n = node from by_contra fun hno => hgone ⟨hno, hn⟩]

/-- Node "c" joins a ring of two nodes with two points each. -/
theorem consistentHashing_two : Consistent hashlibMd5 2 ["a", "b", "c"] ∧
    History hashlibMd5 2 ["a", "b", "c"] {"a", "b", "c"}
      ((init hashlibMd5 ["a", "b"] 2).addNode hashlibMd5 "c") := by
  have hnc : NoCollision hashlibMd5 2 ["a", "b", "c"] := by
    unfold NoCollision
    decide +kernel
  refine ⟨consistentHashing hashlibMd5 2 ["a", "b", "c"] hnc, ?_⟩
  have h : History hashlibMd5 2 ["a", "b", "c"] _ (init hashlibMd5 ["a", "b"] 2) :=
    .init (by decide) (by decide)
  have hset : insert "c" ["a", "b"].toFinset = ({"a", "b", "c"} : Finset String) := by decide
  rw [← hset]
  exact h.addNode (by decide)

end ConsistentHashRing

end DistributedSync
