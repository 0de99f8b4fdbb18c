import Unification.Proofs.Forest.Effect
import Unification.Proofs.Inference.Program

namespace Unification

variable {φ β γ : Type}

namespace Inference

theorem onTable_eq (action : EStateM φ (Table Binding) β) (state : Inference) :
    onTable action state =
      Action.ending (Action.outcome action state.table)
        { state with table := Action.after action state.table } := by
  rw [onTable, Action.run_eq_ending action state.table]
  cases Action.outcome action state.table <;> rfl

theorem onTable_of_ok {action : EStateM φ (Table Binding) β} {state : Inference} {result : β}
    {left : Table Binding} (h : action state.table = .ok result left) :
    onTable action state = .ok result { state with table := left } := by
  rw [onTable, h]

theorem onTable_bind (action : EStateM φ (Table Binding) β) (next : β → EStateM φ Inference γ)
    (state : Inference) :
    (onTable action >>= next) state =
      match Action.outcome action state.table with
      | .ok result => next result { state with table := Action.after action state.table }
      | .error failure =>
        .error failure { state with table := Action.after action state.table } := by
  simp only [bind, EStateM.bind, onTable_eq]
  cases Action.outcome action state.table <;> rfl

theorem resolve_eq (var : TypeVar) (state : Inference) :
    resolve var state =
      Action.ending (Binding.type? <$> Action.outcome (Table.probe typeVars var) state.table)
        { state with table := Action.after (Table.probe typeVars var) state.table } := by
  rw [resolve, onTable_bind]
  cases Action.outcome (Table.probe typeVars var) state.table <;> rfl

theorem verdict_map (f : β → γ) (outcome : Except (Failure InferenceError) β) :
    verdict (f <$> outcome) = verdict outcome := by
  rcases outcome with (reason | cause) | result
  · cases reason <;> rfl
  · rfl
  · rfl

theorem conflicts_map (provenance : Provenance) (f : β → γ)
    (outcome : Except (Failure InferenceError) β) :
    conflicts provenance (f <$> outcome) = conflicts provenance outcome := by
  rcases outcome with (reason | cause) | result
  · cases reason <;> rfl
  · rfl
  · rfl

/-- Imposing a constraint does to the table what the call does, and to the
    errors no more than adding a conflict at the end. -/
theorem impose_eq (provenance : Provenance) (constraint : TableM Binding InferenceError Unit)
    (state : Inference) :
    impose provenance constraint state =
      Action.ending (verdict (Action.outcome constraint state.table))
        { table := Action.after constraint state.table
          errors := state.errors ++
            (conflicts provenance (Action.outcome constraint state.table)).toArray } := by
  have hattempt := Action.attempt_eq (onTable constraint) state
  rw [Action.outcome_of_eq_ending (onTable_eq constraint state),
    Action.after_of_eq_ending (onTable_eq constraint state)] at hattempt
  rw [impose, Action.relay_bind, hattempt]
  rcases Action.outcome constraint state.table with (reason | cause) | result
  · cases reason with
    | mergeConflict mismatch =>
      simp only [conflicts, ← Array.push_eq_append]
      rfl
    | _ =>
      simp only [conflicts, Array.append_empty]
      rfl
  · simp only [conflicts, Array.append_empty]
    rfl
  · simp only [conflicts, Array.append_empty]
    rfl

end Inference

/-- Either call of a constraint asks the table the one question of its fact. -/
theorem Constraint.run_eq (constraint : Constraint) (state : Inference) :
    constraint.run state =
      let call := constraint.fact.operation.run typeVars
      Action.ending (Inference.verdict (Action.outcome call state.table))
        { table := Action.after call state.table
          errors := state.errors ++ (Inference.conflicts constraint.provenance
            (Action.outcome call state.table)).toArray } := by
  dsimp only
  cases constraint with
  | vars a b provenance =>
    rw [run, Inference.unifyVars, Inference.impose_eq]
    simp only [fact, Fact.operation, Operation.run, Action.outcome_map, Action.after_map,
      Inference.verdict_map, Inference.conflicts_map, Constraint.provenance]
  | ty var type provenance =>
    cases type <;>
      simp only [run, Inference.unifyTy, Inference.unifyVars, Inference.impose_eq, fact,
        Fact.operation, Operation.run, Action.outcome_map, Action.after_map,
        Inference.verdict_map, Inference.conflicts_map, Constraint.provenance]

namespace Constraint

variable {constraint : Constraint} {state : Inference} {left : Table Binding}

theorem run_of_ok {answer : TableAnswer TypeVar Binding}
    (h : constraint.fact.operation.run typeVars state.table = .ok answer left) :
    constraint.run state = .ok () { state with table := left } := by
  have hrun := constraint.run_eq state
  simp only [Action.outcome_of_ok h, Action.after_of_ok h, Inference.conflicts,
    Array.append_empty] at hrun
  exact hrun

theorem run_of_conflict {mismatch : TypeMismatch}
    (h : constraint.fact.operation.run typeVars state.table =
      .error (.refused (.mergeConflict mismatch)) left) :
    constraint.run state =
      .ok ()
        { table := left
          errors := state.errors.push { provenance := constraint.provenance, mismatch } } := by
  have hrun := constraint.run_eq state
  simp only [Action.outcome_of_error h, Action.after_of_error h, Inference.conflicts,
    ← Array.push_eq_append] at hrun
  exact hrun

theorem run_of_unknown {key : TypeVar}
    (h : constraint.fact.operation.unknownKey? typeVars state.table.size = some key) :
    constraint.run state =
      .error (.refused (.unknownKey typeVars.tag key.id state.table.size)) state := by
  have hunknown := Operation.run_of_unknown typeVars h
  have hrun := constraint.run_eq state
  simp only [Action.outcome_of_error hunknown, Action.after_of_error hunknown, Inference.conflicts,
    Array.append_empty] at hrun
  exact hrun

end Constraint

theorem Fact.known_iff {fact : Fact} {size : Nat} :
    fact.Known size ↔ fact.operation.unknownKey? typeVars size = none := by
  have hall : fact.operation.unknownKey? typeVars size = none ↔
      ∀ var ∈ fact.operation.mentioned, var.id < size := by
    simp only [Operation.unknownKey?, List.find?_eq_none, decide_eq_true_eq, Nat.not_le]
    exact Iff.rfl
  rw [hall]
  cases fact <;> simp [Known, operation, Operation.mentioned]

namespace InferenceOperation

/-- A call leaves the table as the table's own call does, and the errors with
    those that it records at the end. -/
theorem after_run (operation : InferenceOperation) (state : Inference) :
    Action.after operation.run state =
      { table := match operation.operation? with
          | some call => Action.after (call.run typeVars) state.table
          | none => state.table
        errors := state.errors ++ (operation.recorded state).toArray } := by
  cases operation with
  | fresh =>
    rw [run, Action.after_map, Inference.fresh,
      Action.after_of_eq_ending (Inference.onTable_eq _ _)]
    simp only [operation?, Operation.run, Action.after_map, recorded, Array.append_empty]
  | constrain constraint =>
    rw [run, Action.after_map, Action.after_of_eq_ending (constraint.run_eq state)]
    rfl
  | resolve var =>
    rw [run, Action.after_map, Action.after_of_eq_ending (Inference.resolve_eq var state)]
    simp only [operation?, Operation.run, Action.after_map, recorded, Array.append_empty]
  | representative var =>
    rw [run, Action.after_map, Inference.representative,
      Action.after_of_eq_ending (Inference.onTable_eq _ _)]
    simp only [operation?, Operation.run, Action.after_map, recorded, Array.append_empty]
  | errors =>
    simp only [operation?, recorded, Array.append_empty]
    rfl

end InferenceOperation

end Unification
