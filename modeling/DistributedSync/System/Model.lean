import DistributedSync.Raft.Transition
import DistributedSync.Services.Interface

/-!
# The cluster and its services

Every node runs services over its Raft node. A service coroutine at an `append_entry` call is either
about to make it, in which case the node runs nothing else (`running`), or waits for its round of
RPCs, in which case its frame is stored with the call in the cluster. Entries that Raft delivers in
a step go to the services in the same step.
-/

namespace DistributedSync

/-- A cluster with the states of its services, the coroutine each node is running, if any, and all
results so far, each with the node that returned it. -/
structure DistributedSystem (S : Services) where
  cluster : Cluster S.Frame
  state : String → S.State
  running : String → Option S.Frame := fun _ => none
  results : List (String × S.Result) := []

/-- One step, at a time given in seconds. -/
inductive SystemEvent (S : Services) where
  /-- A coroutine of a service begins or wakes up. -/
  | call (i : String) (now : ℚ) (op : S.Op)
  /-- The running coroutine of node `i` calls `append_entry`. -/
  | append (i : String) (now : ℚ) (raises : Raises)
  /-- Any other step of Raft. -/
  | raft (now : ℚ) (ev : Event S.Frame)

namespace DistributedSystem

variable {S : Services}

/-- Node `i` goes on with the outcome of a coroutine. -/
def react (s : DistributedSystem S) (i : String) (r : S.State × Outcome S.Frame S.Result) :
    DistributedSystem S :=
  let s := { s with state := Function.update s.state i r.1 }
  match r.2 with
  | .append frame => { s with running := Function.update s.running i (some frame) }
  | .sleep => { s with running := Function.update s.running i none }
  | .done result =>
    { s with running := Function.update s.running i none, results := s.results ++ [(i, result)] }

/-- The callbacks get entries, the first of them at log position `k`. They must raise where the Raft
node was told that they do. -/
def deliver (now : ℚ) (raises : Raises) : ℤ → List LogEntry → S.State → Option S.State
  | _, [], state => some state
  | k, entry :: entries, state =>
    let r := S.handleCommit now entry state
    if r.2 = raises k then deliver now raises (k + 1) entries r.1 else none

/-- A step of Raft on node `i`, with the callbacks it makes. -/
def raftStep (cfg : ClusterConfig) (s : DistributedSystem S) (i : String) (now : ℚ)
    (ev : Event S.Frame) :
    Option (DistributedSystem S) :=
  (cfg.step s.cluster ev).bind fun c =>
    let n := (s.cluster.proc i).raft
    let entries := (c.proc i).raft.delivered.drop n.delivered.length
    (deliver now ev.raises (n.lastApplied + 1) entries (s.state i)).map fun state =>
      { s with cluster := c, state := Function.update s.state i state }

/-- The call whose `append_entry` returns in a step of Raft. -/
def returning (s : DistributedSystem S) : Event S.Frame → Option (AppendCall S.Frame)
  | .returnAppend i j => (s.cluster.proc i).appendCalls[j]?
  | _ => none

/-- `append_entry` is called by service coroutines only. -/
def isAppendEntry : Event S.Frame → Bool
  | .appendEntry _ _ _ _ _ => true
  | _ => false

/-- One step of the system; `none` when the event is not possible. -/
def step (cfg : ClusterConfig) (s : DistributedSystem S) :
    SystemEvent S → Option (DistributedSystem S)
  | .call i now op =>
    if i ∈ cfg.nodes ∧ (s.running i).isNone then (S.start now op (s.state i)).map (s.react i)
    else none
  | .append i now raises =>
    (s.running i).bind fun frame =>
      let n := (s.cluster.proc i).raft
      if n.state = .leader then
        let request := S.request frame
        (s.raftStep cfg i now (.appendEntry i request.1 request.2 frame raises)).map fun s =>
          match (n.appendEntry raises request.1 request.2).2 with
          | some true => s.react i (S.resume now frame (.returned true) (s.state i))
          | some false => s.react i (S.resume now frame .raised (s.state i))
          | none => { s with running := Function.update s.running i none }
      else some (s.react i (S.resume now frame (.returned false) (s.state i)))
  | .raft now ev =>
    (s.cluster.runner ev).bind fun i =>
      if (s.running i).isNone ∧ isAppendEntry ev = false then
        (s.raftStep cfg i now ev).map fun s' =>
          match s.returning ev with
          | some call => s'.react i (S.resume now call.caller (.returned true) (s'.state i))
          | none => s'
      else none

def init (S : Services) (cfg : ClusterConfig) : DistributedSystem S where
  cluster := cfg.init
  state := S.init

/-- The states a system reaches when every step satisfies `ok`. -/
abbrev Reach (cfg : ClusterConfig) (ok : DistributedSystem S → SystemEvent S → Prop) :
    DistributedSystem S → Prop :=
  Runs.Reach (step cfg) ok (init S cfg)

/-- The step of Raft in a step of the system. -/
def raftEvent (s : DistributedSystem S) : SystemEvent S → Option (Event S.Frame)
  | .call _ _ _ => none
  | .append i _ raises =>
    (s.running i).bind fun frame =>
      if (s.cluster.proc i).raft.state = .leader then
        some (.appendEntry i (S.request frame).1 (S.request frame).2 frame raises)
      else none
  | .raft _ ev => some ev

/-- The step of Raft in a step of the system, if any, satisfies `ok`. -/
def Lifted (ok : Cluster S.Frame → Event S.Frame → Prop) (s : DistributedSystem S)
    (ev : SystemEvent S) :
    Prop :=
  ∀ e ∈ s.raftEvent ev, ok s.cluster e

end DistributedSystem

end DistributedSync
