import Unification.Error
import Unification.Failure

namespace Unification.Session

variable {σ ρ δ ε : Type}

/-- The calls of a session, one after the other, each with the state after it.
    A fault ends its own call only: the next one starts from what it left. -/
def transcript : List (EStateM Fault σ ρ) → σ → List (Except Fault ρ × σ)
  | [], _ => []
  | call :: rest, state =>
    match call state with
    | .ok reply state => (.ok reply, state) :: transcript rest state
    | .error cause state => (.error cause, state) :: transcript rest state

/-- The calls of a trial: the replies of those that are made, and the refusal
    that stops it. A lenient trial makes all of its calls. -/
def performAll (refusal : ρ → Option δ) (lenient : Bool) :
    List (EStateM Fault σ ρ) → EStateM Fault σ (List ρ × Option δ)
  | [] => pure ([], none)
  | call :: rest => do
    let reply ← call
    match refusal reply, lenient with
    | some reason, false => pure ([reply], some reason)
    | _, _ =>
      let (replies, stopped) ← performAll refusal lenient rest
      pure (reply :: replies, stopped)

/-- A trial as one action, which is refused when one of its calls stops it, or
    else when it is vetoed in the end. Either way its replies are kept. -/
def trial (refusal : ρ → Option (TableError ε)) (lenient : Bool) (veto : Option Nat)
    (calls : List (EStateM Fault σ ρ)) : EStateM (Failure (TableError ε × List ρ)) σ (List ρ) := do
  let (replies, stopped) ← Failure.relay (performAll refusal lenient calls)
  match stopped.or (veto.map .keySpaceExhausted) with
  | some reason => Failure.refuse (reason, replies)
  | none => pure replies

end Unification.Session
