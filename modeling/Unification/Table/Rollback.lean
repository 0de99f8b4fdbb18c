import Unification.Table.Basic

namespace Unification.Table

variable {κ α ε δ β : Type}

/-- Opens a snapshot within those that are open. -/
def snapshot : TableM α δ Snapshot :=
  modifyGet fun table =>
    let (handle, journal) := table.journal.start table.size
    (handle, { table with journal })

/-- Closes a snapshot and keeps its changes, if it is the innermost one. -/
def tryCommit (handle : Snapshot) : TableM α δ Bool := do
  match (← get).journal.commit? handle with
  | none => pure false
  | some journal =>
    modify fun table => { table with journal }
    pure true

/-- Closes a snapshot and undoes the entries that the journal gives up for it, if
    it is the innermost one. The snapshot is closed before, and its entries are
    dropped after they are undone. -/
def tryRollback (handle : Snapshot) : TableM α δ Bool := do
  match (← get).journal.rollback? handle with
  | none => pure false
  | some (entries, left) =>
    modify fun table => { table with journal := { table.journal with frames := left.frames } }
    entries.forM undo
    modify fun table => { table with journal := left }
    pure true

/-- The refusal to close a snapshot that is not the innermost one. -/
def mismatch (handle : Snapshot) : TableM α (TableError ε) β := do
  Failure.refuse (.snapshotMismatch handle.id (← get).journal.innermost?)

/-- Closes a snapshot and keeps its changes. -/
def commit (handle : Snapshot) : TableM α (TableError ε) Unit := do
  unless ← tryCommit handle do mismatch handle

/-- Closes a snapshot and undoes its changes. Keys made since are unknown again. -/
def rollback (handle : Snapshot) : TableM α (TableError ε) Unit := do
  unless ← tryRollback handle do mismatch handle

/-- The keys made since an open snapshot was opened, by index. -/
def newKeysSince (keys : KeyScheme κ α ε) (handle : Snapshot) :
    TableM α (TableError ε) (List κ) := do
  let table ← get
  match table.journal.count? handle with
  | none => mismatch handle
  | some start =>
    if maxKeys < start ∨ maxKeys < table.size then
      Failure.refuse (.keySpaceExhausted table.size)
    pure ((List.range' start (table.size - start)).map keys.ofIndex)

/-- Runs an action in a snapshot of its own, whose changes are kept if the
    action ends with a result and undone if it is refused. An action that leaves
    another snapshot open, or closes this one, breaks the nesting; one that
    meets a fault closes nothing. -/
def commitIfOk (action : TableM α δ β) : TableM α δ β := do
  let handle ← snapshot
  match ← Failure.relay (Failure.attempt action) with
  | .ok result =>
    unless ← tryCommit handle do Failure.raise .snapshotLeftOpen
    pure result
  | .error reason =>
    unless ← tryRollback handle do Failure.raise .snapshotLeftOpen
    Failure.refuse reason

theorem tryCommit_eq (table : Table α) (handle : Snapshot) :
    (tryCommit handle : TableM α δ Bool) table =
      match table.journal.commit? handle with
      | none => .ok false table
      | some journal => .ok true { table with journal } := by
  simp only [tryCommit, bind, EStateM.bind, get_eq]
  cases table.journal.commit? handle <;> rfl

/-- A snapshot other than the innermost one cannot be rolled back, and the
    attempt changes nothing. -/
theorem tryRollback_of_ne {table : Table α} {handle : Snapshot}
    (hinnermost : table.journal.innermost? ≠ some handle.id) :
    (tryRollback handle : TableM α δ Bool) table = .ok false table := by
  have hrollback : table.journal.rollback? handle = none := by
    rw [Journal.rollback?, Journal.close?_eq_none_iff.mpr hinnermost, Option.map_none]
  simp only [tryRollback, bind, EStateM.bind, get_eq, hrollback]
  rfl

end Unification.Table
