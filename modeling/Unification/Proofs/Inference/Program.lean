import Unification.Proofs.Snapshot.Savepoints
import Unification.Session.Inference

namespace Unification

variable {δ β : Type}

/-- What can be said of type variables: that two of them denote one type, or
    that one denotes a given type. -/
inductive Fact where
  | equal (a b : TypeVar)
  | denotes (var : TypeVar) (type : Ty)

/-- The call by which a table of type variables takes a fact in. -/
def Fact.operation : Fact → Operation TypeVar Binding
  | equal a b => .union a b
  | denotes var type => .unionValue var (.bound type)

/-- Whether all variables that a fact is about are among the first ones. -/
def Fact.Known (size : Nat) : Fact → Prop
  | equal a b => a.id < size ∧ b.id < size
  | denotes var _ => var.id < size

/-- What can be required of type variables, and where. -/
inductive Constraint where
  | vars (a b : TypeVar) (provenance : Provenance)
  | ty (var : TypeVar) (type : Ty) (provenance : Provenance)

namespace Constraint

def provenance : Constraint → Provenance
  | vars _ _ provenance | ty _ _ provenance => provenance

/-- What a constraint says. A mere variable in the place of a type is a second
    variable. -/
def fact : Constraint → Fact
  | vars a b _ => .equal a b
  | ty var (.var other) _ => .equal var other
  | ty var type _ => .denotes var type

def run : Constraint → InferenceM InferenceError Unit
  | vars a b provenance => Inference.unifyVars a b provenance
  | ty var type provenance => Inference.unifyTy var type provenance

end Constraint

/-- The calls on the state of a pass that make no calls of their own. -/
inductive InferenceOperation where
  | fresh
  | constrain (constraint : Constraint)
  | resolve (var : TypeVar)
  | representative (var : TypeVar)
  | errors

namespace InferenceOperation

def run : InferenceOperation → InferenceM InferenceError InferenceAnswer
  | fresh => .var <$> Inference.fresh
  | constrain constraint => (fun _ => .done) <$> constraint.run
  | resolve var => .type <$> Inference.resolve var
  | representative var => .var <$> Inference.representative var
  | errors => (fun state => .errors state.errors.toList) <$> get

/-- What a call asks of the table of type variables. -/
def operation? : InferenceOperation → Option (Operation TypeVar Binding)
  | fresh => some (.newKey .unbound)
  | constrain constraint => some constraint.fact.operation
  | resolve var => some (.probe var)
  | representative var => some (.find var)
  | errors => none

end InferenceOperation

namespace Inference

/-- The state in which a snapshot has just been opened. -/
def opened (state : Inference) : Inference :=
  { state with table := state.table.opened }

/-- The state after calls, one after the other, whatever each of them ends with. -/
def perform : List InferenceOperation → Inference → Inference
  | [], state => state
  | operation :: rest, state => perform rest (Action.after operation.run state)

/-- What the outcome of the table is for the caller of a constraint, to whom a
    conflict is no refusal. -/
def verdict : Except (Failure InferenceError) β → Except (Failure InferenceError) Unit
  | .ok _ | .error (.refused (.mergeConflict _)) => .ok ()
  | .error failure => .error failure

/-- The type errors that a constraint records, by the outcome of the table. -/
def conflicts (provenance : Provenance) : Except (Failure InferenceError) β → List TypeError
  | .error (.refused (.mergeConflict mismatch)) => [{ provenance, mismatch }]
  | _ => []

end Inference

/-- The type errors that a call records. -/
def InferenceOperation.recorded : InferenceOperation → Inference → List TypeError
  | constrain constraint, state => Inference.conflicts constraint.provenance
    (Action.outcome (constraint.fact.operation.run typeVars) state.table)
  | _, _ => []

/-- A finite program of calls on the state of a pass, which sees what every call
    ends with. It may run programs on the table, snapshots included, and
    speculate on what a program does that has seen all that it has seen. -/
inductive InferenceProgram : Type → Type → Type 1 where
  | finish {δ β : Type} (outcome : Except δ β) : InferenceProgram δ β
  | call {δ β : Type} (operation : InferenceOperation)
      (next : Except InferenceError InferenceAnswer → InferenceProgram δ β) : InferenceProgram δ β
  | onTable {δ β δ' β' : Type} (program : Program TypeVar Binding TypeMismatch δ' β')
      (next : Except δ' β' → InferenceProgram δ β) : InferenceProgram δ β
  | speculate {δ β δ' β' : Type} (body : InferenceProgram δ' β')
      (next : Except δ' (Option β') → InferenceProgram δ β) : InferenceProgram δ β

namespace InferenceProgram

/-- What a program does to the state of a pass. Only a fault ends it before its time. -/
def run {δ β : Type} : InferenceProgram δ β → InferenceM δ β
  | finish (.ok result) => pure result
  | finish (.error reason) => Failure.refuse reason
  | call operation next => do
    let outcome ← Failure.relay (Failure.attempt operation.run)
    (next outcome).run
  | onTable program next => do
    let outcome ← Failure.relay (Failure.attempt (Inference.onTable (program.run typeVars)))
    (next outcome).run
  | speculate body next => do
    let outcome ← Failure.relay (Failure.attempt (Inference.speculate body.run))
    (next outcome).run

/-- The type errors that a program has recorded when it comes to its end, but
    for those that went with a speculation that was given up. -/
def recorded {δ β : Type} : InferenceProgram δ β → Inference → List TypeError
  | finish _, _ => []
  | call operation next, state =>
    match Failure.attempt operation.run state with
    | .ok outcome left => operation.recorded state ++ (next outcome).recorded left
    | .error _ _ => []
  | onTable program next, state =>
    match Failure.attempt (Inference.onTable (program.run typeVars)) state with
    | .ok outcome left => (next outcome).recorded left
    | .error _ _ => []
  | speculate body next, state =>
    match Failure.attempt (Inference.speculate body.run) state with
    | .ok (.ok (some result)) left =>
      body.recorded state.opened ++ (next (.ok (some result))).recorded left
    | .ok outcome left => (next outcome).recorded left
    | .error _ _ => []

end InferenceProgram

end Unification
