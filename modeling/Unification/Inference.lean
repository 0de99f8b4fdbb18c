import Unification.Table.Rollback
import Unification.Table.Union
import Unification.Ty.Error

namespace Unification

/-- What a pass of type inference knows: the classes of its type variables, and
    the constraints that it could not meet, oldest first. -/
structure Inference where
  table : Table Binding := {}
  errors : Array TypeError := #[]
  deriving DecidableEq

/-- A refusal of the table of type variables. -/
abbrev InferenceError := TableError TypeMismatch

/-- Actions on the state of a pass. -/
abbrev InferenceM (δ : Type) := EStateM (Failure δ) Inference

namespace Inference

variable {δ φ β : Type}

/-- An action on the table, which leaves the recorded errors alone. -/
def onTable (action : EStateM φ (Table Binding) β) : EStateM φ Inference β := fun state =>
  match action state.table with
  | .ok result table => .ok result { state with table }
  | .error failure table => .error failure { state with table }

/-- A new type variable, of which nothing is known. -/
def fresh : InferenceM InferenceError TypeVar :=
  onTable (Table.newKey typeVars .unbound)

/-- Imposes a constraint on the table. A conflict is recorded, and inference
    goes on; any other refusal is the caller's. -/
def impose (provenance : Provenance) (constraint : TableM Binding InferenceError Unit) :
    InferenceM InferenceError Unit := do
  match ← Failure.relay (Failure.attempt (onTable constraint)) with
  | .ok () => pure ()
  | .error (.mergeConflict mismatch) =>
    modify fun state => { state with errors := state.errors.push { provenance, mismatch } }
  | .error reason => Failure.refuse reason

/-- Requires that two variables denote one type. -/
def unifyVars (a b : TypeVar) (provenance : Provenance) : InferenceM InferenceError Unit :=
  impose provenance (Table.union typeVars a b)

/-- Requires that a variable denotes a type. A type that is a mere variable is
    never bound: it joins the classes of the two. -/
def unifyTy (var : TypeVar) (type : Ty) (provenance : Provenance) :
    InferenceM InferenceError Unit :=
  match type with
  | .var other => unifyVars var other provenance
  | type => impose provenance (Table.unionValue typeVars var (.bound type))

/-- The type that a variable's class is bound to. -/
def resolve (var : TypeVar) : InferenceM InferenceError (Option Ty) := do
  let binding ← onTable (Table.probe typeVars var)
  pure binding.type?

/-- The variable that stands for a variable's class. -/
def representative (var : TypeVar) : InferenceM InferenceError TypeVar :=
  onTable (Table.find typeVars var)

/-- Runs an action and keeps what it did only if it ends with a result and no
    more type errors are on record than before. Otherwise both the table and
    the errors go back to what they were. The result says whether it was kept.
    An action that leaves a snapshot open breaks the nesting. -/
def attemptClean (action : InferenceM δ β) : InferenceM δ (Bool × β) := do
  let handle ← onTable Table.snapshot
  let before := (← get).errors.size
  let outcome ← Failure.relay (Failure.attempt action)
  match outcome, (← get).errors.size == before with
  | .ok result, true =>
    unless ← onTable (Table.tryCommit handle) do Failure.raise .snapshotLeftOpen
    pure (true, result)
  | _, _ =>
    modify fun state => { state with errors := state.errors.take before }
    unless ← onTable (Table.tryRollback handle) do Failure.raise .snapshotLeftOpen
    match outcome with
    | .ok result => pure (false, result)
    | .error reason => Failure.refuse reason

/-- The result of an action that went through without a type error. One that
    did not has changed nothing, and its result is dropped. -/
def speculate (action : InferenceM δ β) : InferenceM δ (Option β) := do
  let (kept, result) ← attemptClean action
  pure (if kept then some result else none)

instance : Inspect Inference where
  outline state := .group (.record "TypeInference")
    [.field "table" (state.table.outline typeVars.tag),
      .field "errors" (outline state.errors.toList)]

end Inference

end Unification
