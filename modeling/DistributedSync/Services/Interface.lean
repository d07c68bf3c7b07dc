import DistributedSync.Core.Values

/-!
# Services over Raft

What the cluster needs to know of the services of a node. A coroutine of a service runs up to its
next suspending await, which is an `append_entry` call or a wait that the service keeps to itself.
What it does after an `append_entry` call is its frame. Committed entries reach the service through
its `_handle_commit` callback.

The time of each step comes with the step, and so do the ids that `uuid4` draws.
-/

namespace DistributedSync

/-- How a coroutine that runs comes to a stop: in an `append_entry` call, asleep, or at its end. -/
inductive Outcome (κ ρ : Type) where
  | append (frame : κ)
  | sleep
  | done (result : ρ)

/-- The outcome of a service, seen as one of the node. -/
def Outcome.map {κ κ' ρ ρ' : Type} (f : κ → κ') (g : ρ → ρ') : Outcome κ ρ → Outcome κ' ρ'
  | .append frame => .append (f frame)
  | .sleep => .sleep
  | .done result => .done (g result)

def Outcome.frame? {κ ρ : Type} : Outcome κ ρ → Option κ
  | .append frame => some frame
  | _ => none

theorem Outcome.map_append {κ κ' ρ ρ' : Type} {f : κ → κ'} {g : ρ → ρ'} {o : Outcome κ ρ}
    {frame' : κ'} (h : o.map f g = .append frame') :
    ∃ frame, o = .append frame ∧ f frame = frame' := by
  cases o with
  | append frame => exact ⟨frame, rfl, Outcome.append.inj h⟩
  | sleep | done result => cases h

/-- What comes back from an `append_entry` call: its value, or an exception of a callback. -/
inductive Appended where
  | returned (success : Bool)
  | raised
  deriving DecidableEq

/-- The services of a node. `start` runs a coroutine that begins or wakes up (`none` when there is
no such coroutine), `resume` one that comes back from its `append_entry` call, which was `request`
of its frame. `handleCommit` also says whether the callback raises. -/
structure Services where
  State : Type
  Op : Type
  Frame : Type
  Result : Type
  init : String → State
  start : ℚ → Op → State → Option (State × Outcome Frame Result)
  request : Frame → String × Dict
  resume : ℚ → Frame → Appended → State → State × Outcome Frame Result
  handleCommit : ℚ → LogEntry → State → State × Bool

end DistributedSync
