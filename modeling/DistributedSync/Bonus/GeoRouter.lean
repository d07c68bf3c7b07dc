import DistributedSync.Core.Values
import DistributedSync.Library.StableSort
import Mathlib.Algebra.Order.Ring.Unbundled.Rat

/-!
# The geographic router

`GeoDistributedRouter` of `src/src/bonus/features.py`, with rationals for latencies. A replication
goes to a primary region and to the other healthy ones, the fastest first. The names of the primary
and the replicas are the order in which the regions stand in for each other (`failsOver`).
-/

namespace DistributedSync

/-- A region. Whoever runs the router may set `healthy`. -/
structure GeoRegion where
  name : String
  baseLatencyMs : ℚ
  healthy : Bool := true
  deriving DecidableEq

/-- An item of `replication_log`. -/
structure ReplicationRecord where
  key : Value
  primaryRegion : String
  replicaRegions : List String
  consistencyModel : String := "eventual"
  payload : Value
  timestamp : ℚ

/-- Simple geo-distribution simulator with latency-aware routing. -/
structure GeoDistributedRouter where
  nodeId : String
  localRegion : Option String := none
  regions : List GeoRegion
  replicationLog : List ReplicationRecord := []

namespace GeoDistributedRouter

variable (r : GeoDistributedRouter)

/-- The regions that are up, in their order. -/
def healthyRegions : List GeoRegion := r.regions.filter GeoRegion.healthy

/-- `route`, with the text of the `ValueError`. A preference is any value of a request. -/
def route (preferredRegion clientRegion : Value := .null) : Except String GeoRegion :=
  match r.healthyRegions.minOn? GeoRegion.baseLatencyMs with
  | none => .error "No healthy regions available"
  | some fastest =>
    let preferred := if preferredRegion.truthy then preferredRegion else clientRegion
    if preferred.truthy then
      .ok ((r.healthyRegions.find? fun region => Value.str region.name == preferred).getD fastest)
    else .ok fastest

/-- `replicate`, and what it returns. -/
def replicate (now : ℚ) (key value : Value) (preferredRegion : Value := .null) :
    Except String (ReplicationRecord × GeoDistributedRouter) :=
  match r.route preferredRegion with
  | .error e => .error e
  | .ok primary =>
    let replicaRegions := (r.regions.filter fun region =>
      region.healthy && region.name != primary.name).insertionSort
        fun a b => a.baseLatencyMs ≤ b.baseLatencyMs
    let record := {
      key, primaryRegion := primary.name, replicaRegions := replicaRegions.map GeoRegion.name
      payload := value, timestamp := now }
    .ok (record, { r with replicationLog := r.replicationLog ++ [record] })

/-- The named regions go down. -/
def setDown (names : List String) : GeoDistributedRouter :=
  { r with regions := r.regions.map fun region =>
      if region.name ∈ names then { region with healthy := false } else region }

end GeoDistributedRouter

/-- The regions of a record, the primary first. -/
def ReplicationRecord.order (record : ReplicationRecord) : List String :=
  record.primaryRegion :: record.replicaRegions

namespace GeoDistributedRouter

variable {r : GeoDistributedRouter} {preferred : Value} {now : ℚ} {key value : Value}

/-! ## The order of the regions -/

/-- The healthy regions, the fastest first. -/
def fastestFirst (r : GeoDistributedRouter) : List GeoRegion :=
  r.healthyRegions.insertionSort fun a b => a.baseLatencyMs ≤ b.baseLatencyMs

theorem perm_fastestFirst (r : GeoDistributedRouter) : r.fastestFirst.Perm r.healthyRegions :=
  List.perm_insertionSort _ _

theorem length_fastestFirst (r : GeoDistributedRouter) :
    r.fastestFirst.length = r.healthyRegions.length := r.perm_fastestFirst.length_eq

/-- The healthy region that is preferred. -/
def preferredRegion (r : GeoDistributedRouter) (preferred : Value) : Option GeoRegion :=
  if preferred.truthy then r.healthyRegions.find? fun region => Value.str region.name == preferred
  else none

/-- The healthy regions in the order in which they serve. -/
def serving (r : GeoDistributedRouter) (preferred : Value) : List GeoRegion :=
  match r.preferredRegion preferred with
  | some region => region :: r.fastestFirst.filter fun other => other.name != region.name
  | none => r.fastestFirst

theorem route_eq (r : GeoDistributedRouter) (preferred : Value) : r.route preferred =
    match (r.serving preferred).head? with
    | some region => .ok region
    | none => .error "No healthy regions available" := by
  have hnull : Value.null.truthy = false := rfl
  have hpref : (if preferred.truthy then preferred else .null).truthy = preferred.truthy := by
    split <;> simp_all
  unfold route
  rw [← StableSort.head?_insertionSort]
  show (match r.fastestFirst.head? with | none => _ | some fastest => _) = _
  unfold serving preferredRegion
  rcases hsorted : r.fastestFirst with _ | ⟨fastest, rest⟩
  · have hnil : r.healthyRegions = [] := by
      rw [← List.length_eq_zero_iff, ← r.length_fastestFirst, hsorted]
      rfl
    rw [hnil, List.find?_nil, ite_self]
    rfl
  · dsimp only [List.head?_cons]
    rw [hpref]
    by_cases htruthy : preferred.truthy
    · simp only [htruthy, if_true]
      cases r.healthyRegions.find? fun region => Value.str region.name == preferred <;> rfl
    · simp only [htruthy, Bool.false_eq_true, if_false]
      rfl

section DistinctNames

variable (hnames : (r.regions.map GeoRegion.name).Nodup)

include hnames

theorem nodup_fastestFirst : (r.fastestFirst.map GeoRegion.name).Nodup :=
  (r.perm_fastestFirst.map _).nodup_iff.mpr <|
    hnames.sublist (List.filter_sublist.map GeoRegion.name)

/-- The region that serves first is followed by the others, the fastest first. -/
theorem serving_cons {primary : GeoRegion} {rest : List GeoRegion}
    (h : r.serving preferred = primary :: rest) :
    rest = r.fastestFirst.filter fun other => other.name != primary.name := by
  unfold serving at h
  split at h
  · cases h
    rfl
  · have hnodup := nodup_fastestFirst hnames
    rw [h, List.map_cons] at hnodup
    rw [h, List.filter_cons_of_neg (by simp)]
    refine (List.filter_eq_self.mpr fun other hother => bne_iff_ne.mpr fun heq => ?_).symm
    exact (List.nodup_cons.mp hnodup).1 (heq ▸ List.mem_map_of_mem hother)

theorem perm_serving (preferred : Value) : (r.serving preferred).Perm r.healthyRegions := by
  unfold serving
  split
  · next region hregion =>
    unfold preferredRegion at hregion
    split at hregion
    · have hmem : region ∈ r.fastestFirst :=
        r.perm_fastestFirst.mem_iff.mpr (List.mem_of_find?_eq_some hregion)
      have hnodup := nodup_fastestFirst hnames
      have hfilter : r.fastestFirst.filter (fun other => other.name != region.name) =
          r.fastestFirst.erase region := by
        rw [(hnodup.of_map _).erase_eq_filter]
        refine List.filter_congr fun other hother => ?_
        rw [Bool.eq_iff_iff, bne_iff_ne, bne_iff_ne]
        exact not_congr ⟨fun heq => List.inj_on_of_nodup_map hnodup hother hmem heq,
          fun heq => heq ▸ rfl⟩
      rw [hfilter]
      exact (List.perm_cons_erase hmem).symm.trans r.perm_fastestFirst
    · cases hregion
  · exact r.perm_fastestFirst

theorem nodup_serving (preferred : Value) :
    ((r.serving preferred).map GeoRegion.name).Nodup :=
  ((perm_serving hnames preferred).map _).nodup_iff.mpr <|
    hnames.sublist (List.filter_sublist.map GeoRegion.name)

theorem replicate_eq (now : ℚ) (key value preferred : Value) :
    (r.replicate now key value preferred).map (fun res => res.1.order) =
      match r.serving preferred with
      | [] => .error "No healthy regions available"
      | regions => .ok (regions.map GeoRegion.name) := by
  unfold replicate
  rw [route_eq]
  rcases h : r.serving preferred with _ | ⟨primary, rest⟩
  · rfl
  · have hfilter : (r.regions.filter fun region => region.healthy && region.name != primary.name) =
        r.healthyRegions.filter fun other => other.name != primary.name := by
      rw [healthyRegions, List.filter_filter]
      exact List.filter_congr fun region _ => Bool.and_comm _ _
    show Except.ok (primary.name :: _) = Except.ok (primary.name :: _)
    rw [hfilter, ← StableSort.filter_insertionSort, ← fastestFirst, ← serving_cons hnames h]

/-! ## Regions that go down -/

omit hnames in
theorem healthyRegions_setDown (r : GeoDistributedRouter) (names : List String) :
    (r.setDown names).healthyRegions =
      r.healthyRegions.filter fun region => region.name ∉ names := by
  unfold healthyRegions setDown
  induction r.regions with
  | nil => rfl
  | cons region regions ih =>
    rw [List.map_cons]
    by_cases hdown : region.name ∈ names <;> cases hhealthy : region.healthy <;>
      simp [hdown, hhealthy, ih]

omit hnames in
theorem fastestFirst_setDown (r : GeoDistributedRouter) (names : List String) :
    (r.setDown names).fastestFirst =
      r.fastestFirst.filter fun region => region.name ∉ names := by
  rw [fastestFirst, healthyRegions_setDown, ← StableSort.filter_insertionSort]
  rfl

theorem nodup_setDown (names : List String) :
    ((r.setDown names).regions.map GeoRegion.name).Nodup := by
  have hsame : (r.setDown names).regions.map GeoRegion.name = r.regions.map GeoRegion.name := by
    show (r.regions.map _).map _ = _
    rw [List.map_map]
    refine List.map_congr_left fun region _ => ?_
    show GeoRegion.name (if region.name ∈ names then _ else region) = region.name
    split <;> rfl
  rwa [hsame]

omit hnames in
theorem setDown_nil (r : GeoDistributedRouter) : r.setDown [] = r := by
  unfold setDown
  simp

omit hnames in
/-- No region is preferred once all regions that could be are down. -/
theorem preferredRegion_setDown {names : List String}
    (hdown : ∀ region ∈ r.preferredRegion preferred, region.name ∈ names) :
    (r.setDown names).preferredRegion preferred = none := by
  unfold preferredRegion at hdown ⊢
  split
  · next htruthy =>
    rw [if_pos htruthy] at hdown
    rw [healthyRegions_setDown, List.find?_eq_none]
    intro other hother hpreferred
    obtain ⟨hmem, hup⟩ := List.mem_filter.mp hother
    rcases hfind : r.healthyRegions.find? (fun region => Value.str region.name == preferred) with
      _ | region
    · exact List.find?_eq_none.mp hfind other hmem hpreferred
    · have hregion := List.find?_some hfind
      have hsame : (Value.str other.name == Value.str region.name) = true :=
        BEq.trans hpreferred (BEq.symm hregion)
      rw [hfind] at hdown
      exact of_decide_eq_true hup (Value.str_beq_str.mp hsame ▸ hdown region rfl)
  · rfl

theorem serving_setDown (preferred : Value) (k : ℕ) :
    (r.setDown (((r.serving preferred).take k).map GeoRegion.name)).serving preferred =
      (r.serving preferred).drop k := by
  rw [← StableSort.filter_notMem_take (nodup_serving hnames preferred) k]
  obtain ⟨names, heq⟩ : ∃ names, names = ((r.serving preferred).take k).map GeoRegion.name :=
    ⟨_, rfl⟩
  rcases hregion : r.preferredRegion preferred with _ | region
  · have hdown : (r.setDown names).preferredRegion preferred = none :=
      preferredRegion_setDown fun region' h' => by
      rw [hregion] at h'
      cases h'
    rw [← heq]
    unfold serving
    rw [hdown, hregion, fastestFirst_setDown]
  · have hserving : r.serving preferred =
        region :: r.fastestFirst.filter fun other => other.name != region.name := by
      rw [serving, hregion]
    cases k with
    | zero => simp [setDown_nil]
    | succ k =>
      rw [← heq]
      rw [hserving, List.take_succ_cons, List.map_cons] at heq
      have hmem : region.name ∈ names := heq ▸ List.mem_cons_self
      have hdown : (r.setDown names).preferredRegion preferred = none :=
        preferredRegion_setDown fun region' h' => by
          rw [hregion] at h'
          cases h'
          exact hmem
      rw [hserving, serving, hdown, fastestFirst_setDown, List.filter_cons_of_neg (by simpa),
        List.filter_filter]
      refine List.filter_congr fun other _ => ?_
      by_cases hother : other.name = region.name <;> simp [hother, hmem]

end DistinctNames

/-! ## Failover -/

/-- What a record with this preference says about the router. -/
structure FailsOver (r : GeoDistributedRouter) (preferred : Value) (record : ReplicationRecord) :
    Prop where
  up : record.order.Perm (r.healthyRegions.map GeoRegion.name)
  primary : ∀ region ∈ r.healthyRegions, preferred.truthy → (Value.str region.name == preferred) →
    record.primaryRegion = region.name
  sorted : ∃ regions : List GeoRegion, record.replicaRegions = regions.map GeoRegion.name ∧
    (∀ region ∈ regions, region ∈ r.healthyRegions) ∧
    regions.Pairwise fun a b => a.baseLatencyMs ≤ b.baseLatencyMs
  takeover : ∀ k < record.order.length, ∀ (now : ℚ) (key value : Value),
    ((r.setDown (record.order.take k)).replicate now key value preferred).map
      (fun res => res.1.order) = .ok (record.order.drop k)
  exhausted : ∀ (now : ℚ) (key value : Value),
    ((r.setDown record.order).replicate now key value preferred).map (fun res => res.1.order) =
      .error "No healthy regions available"

theorem replicate_setDown (hnames : (r.regions.map GeoRegion.name).Nodup) (preferred : Value)
    (k : ℕ) (now : ℚ) (key value : Value) :
    ((r.setDown (((r.serving preferred).map GeoRegion.name).take k)).replicate now key value
      preferred).map (fun res => res.1.order) =
      match (r.serving preferred).drop k with
      | [] => .error "No healthy regions available"
      | regions => .ok (regions.map GeoRegion.name) := by
  rw [replicate_eq (nodup_setDown hnames _), ← List.map_take, serving_setDown hnames]

/-- With different region names, a replication goes to all healthy regions: to the preferred one
first, then to the fastest. When the first `k` of them go down, the next replication with the same
preference goes to the others in the same order, until none is left. -/
theorem failsOver {r r' : GeoDistributedRouter} {preferred key value : Value} {now : ℚ}
    {record : ReplicationRecord} (hnames : (r.regions.map GeoRegion.name).Nodup)
    (h : r.replicate now key value preferred = .ok (record, r')) :
    r.FailsOver preferred record := by
  obtain ⟨primary, rest, hserving⟩ : ∃ primary rest, r.serving preferred = primary :: rest := by
    have heq := replicate_eq hnames now key value preferred
    rw [h] at heq
    rcases hserving : r.serving preferred with _ | ⟨primary, rest⟩
    · rw [hserving] at heq
      cases heq
    · exact ⟨primary, rest, rfl⟩
  have horder : record.order = (r.serving preferred).map GeoRegion.name := by
    have heq := replicate_eq hnames now key value preferred
    rw [h, hserving] at heq
    rw [hserving]
    exact Except.ok.inj heq
  have hcons : record.primaryRegion = primary.name ∧
      record.replicaRegions = rest.map GeoRegion.name := by
    rw [hserving] at horder
    exact List.cons.inj horder
  refine ⟨?_, fun region hregion htruthy hpreferred => ?_, ⟨rest, hcons.2, ?_, ?_⟩,
    fun k hk now key value => ?_, fun now key value => ?_⟩
  · rw [horder]
    exact (perm_serving hnames preferred).map _
  · have hfound : ∃ p, r.preferredRegion preferred = some p ∧ p.name = region.name := by
      unfold preferredRegion
      rw [if_pos htruthy]
      rcases hfind : r.healthyRegions.find? (fun region => Value.str region.name == preferred) with
        _ | p
      · exact absurd hpreferred (List.find?_eq_none.mp hfind region hregion)
      · have hp := List.find?_some hfind
        exact ⟨p, hfind, Value.str_beq_str.mp (BEq.trans hp (BEq.symm hpreferred))⟩
    obtain ⟨p, hp, hname⟩ := hfound
    rw [serving, hp] at hserving
    rw [hcons.1, ← (List.cons.inj hserving).1, hname]
  · intro region hregion
    rw [serving_cons hnames hserving] at hregion
    exact r.perm_fastestFirst.mem_iff.mp (List.mem_of_mem_filter hregion)
  · rw [serving_cons hnames hserving]
    exact (List.pairwise_insertionSort _ _).sublist List.filter_sublist
  · rw [horder, replicate_setDown hnames]
    rw [horder, List.length_map] at hk
    rw [← List.map_drop]
    rcases hdrop : (r.serving preferred).drop k with _ | ⟨next, others⟩
    · exact absurd (List.drop_eq_nil_iff.mp hdrop) (by omega)
    · rfl
  · have hall := replicate_setDown hnames preferred record.order.length now key value
    rw [← horder, List.take_length] at hall
    rw [hall, horder, List.length_map, List.drop_length]

def threeRegions : GeoDistributedRouter where
  nodeId := "a"
  regions := [⟨"us-east", 70, true⟩, ⟨"eu-west", 95, true⟩, ⟨"asia-southeast", 22, false⟩,
    ⟨"us-west", 70, true⟩]

theorem failsOver_preferred : threeRegions.FailsOver (.str "eu-west")
    { key := .str "k", primaryRegion := "eu-west", replicaRegions := ["us-east", "us-west"]
      payload := .int 1, timestamp := 0 } := by
  have hnames : (threeRegions.regions.map GeoRegion.name).Nodup := by decide
  have hreplicate : ∃ r', threeRegions.replicate 0 (.str "k") (.int 1) (.str "eu-west") =
      .ok ({ key := .str "k", primaryRegion := "eu-west", replicaRegions := ["us-east", "us-west"]
             payload := .int 1, timestamp := 0 }, r') := ⟨_, rfl⟩
  obtain ⟨r', h⟩ := hreplicate
  exact failsOver hnames h

end GeoDistributedRouter

end DistributedSync
