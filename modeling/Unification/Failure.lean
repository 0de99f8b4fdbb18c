namespace Unification

/-- A broken assumption. It is no answer to a call: it ends the whole call, with
    all the calls that enclose it, and leaves the state as it is at that point. -/
inductive Fault where
  | indexOutOfBounds
  | parentCycle
  | snapshotLeftOpen
  deriving DecidableEq

def Fault.message : Fault → String
  | indexOutOfBounds => "index out of bounds"
  | parentCycle => "cycle of parents"
  | snapshotLeftOpen => "speculative closure left a snapshot open"

/-- How a call can end without a result: it is refused for a reason, which the
    caller can act on, or it meets a fault. -/
inductive Failure (δ : Type) where
  | refused (reason : δ)
  | fault (cause : Fault)
  deriving DecidableEq

namespace Failure

variable {δ σ β : Type}

/-- Ends an action with a refusal. -/
def refuse (reason : δ) : EStateM (Failure δ) σ β :=
  throw (.refused reason)

/-- Ends an action with a fault. -/
def raise (cause : Fault) : EStateM (Failure δ) σ β :=
  throw (.fault cause)

/-- Makes a refusal a result, so that the caller can go on. A fault stays one. -/
def attempt (action : EStateM (Failure δ) σ β) : EStateM Fault σ (Except δ β) := fun state =>
  match action state with
  | .ok result state => .ok (.ok result) state
  | .error (.refused reason) state => .ok (.error reason) state
  | .error (.fault cause) state => .error cause state

/-- An action whose refusals are results, within one that can be refused. -/
def relay (action : EStateM Fault σ β) : EStateM (Failure δ) σ β := fun state =>
  match action state with
  | .ok result state => .ok result state
  | .error cause state => .error (.fault cause) state

end Failure

end Unification
