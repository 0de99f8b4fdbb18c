import Unification.Proofs.Snapshot.CopyMachine

namespace Unification

variable {κ α ε δ β : Type}

namespace Table

variable {action : TableM α δ β} {table left last : Table α}

theorem commitIfOk_of_fault {cause : Fault}
    (hrun : action table.opened = .error (.fault cause) left) :
    commitIfOk action table = .error (.fault cause) left := by
  have hattempt := Action.relay_attempt_eq (γ := δ) action table.opened
  rw [Action.outcome_of_error hrun, Action.after_of_error hrun] at hattempt
  rw [commitIfOk, Action.bind_of_ok (snapshot_eq table), Action.bind_of_error hattempt]

/-- An action that ends with a result is committed. That fails exactly if its
    snapshot is not the innermost one any more. -/
theorem commitIfOk_of_ok {result : β} {closed : Bool}
    (hrun : action table.opened = .ok result left)
    (hclose : (tryCommit { id := table.journal.nextId } : TableM α δ Bool) left =
      .ok closed last) :
    commitIfOk action table =
      if closed then .ok result last else .error (.fault .snapshotLeftOpen) last := by
  have hattempt := Action.relay_attempt_eq (γ := δ) action table.opened
  rw [Action.outcome_of_ok hrun, Action.after_of_ok hrun] at hattempt
  rw [commitIfOk, Action.bind_of_ok (snapshot_eq table), Action.bind_of_ok hattempt]
  dsimp only
  rw [Action.bind_of_ok hclose]
  cases closed <;> rfl

theorem commitIfOk_of_refused {reason : δ} {closed : Bool}
    (hrun : action table.opened = .error (.refused reason) left)
    (hclose : (tryRollback { id := table.journal.nextId } : TableM α δ Bool) left =
      .ok closed last) :
    commitIfOk action table =
      .error (if closed then .refused reason else .fault .snapshotLeftOpen) last := by
  have hattempt := Action.relay_attempt_eq (γ := δ) action table.opened
  rw [Action.outcome_of_error hrun, Action.after_of_error hrun] at hattempt
  rw [commitIfOk, Action.bind_of_ok (snapshot_eq table), Action.bind_of_ok hattempt]
  dsimp only
  rw [Action.bind_of_ok hclose]
  cases closed <;> rfl

/-- What an action does in a snapshot of its own depends on nothing but what it
    does to the table in which the snapshot has just been opened. -/
theorem commitIfOk_congr {action' : TableM α δ β} (h : action table.opened = action' table.opened) :
    commitIfOk action table = commitIfOk action' table := by
  rw [commitIfOk, commitIfOk, Action.bind_of_ok (snapshot_eq table),
    Action.bind_of_ok (snapshot_eq table)]
  exact Action.attempt_bind_congr h fun _ => rfl

end Table

namespace Savepoints

variable {table : Table α} {starts : List (Table α)}

/-- Trying to commit a snapshot does what the call does, the refusal apart. -/
theorem tryCommit_eq_run (keys : KeyScheme κ α ε) (h : Savepoints table starts)
    (handle : Snapshot) :
    (Table.tryCommit handle : TableM α δ Bool) table =
      .ok (table.journal.innermost? = some handle.id)
        (Action.after ((Operation.commit handle).run keys) table) := by
  rw [Operation.run, Action.after_map]
  by_cases hinnermost : table.journal.innermost? = some handle.id
  · simp only [hinnermost, decide_true]
    obtain ⟨start, rest, rfl, rfl⟩ := h.exists_cons hinnermost
    obtain ⟨journal, hcommit, -⟩ := h.commit?_eq
    rw [Action.after_of_ok (Table.commit_of_some hcommit)]
    exact Table.tryCommit_of_some hcommit
  · simp only [hinnermost, decide_false]
    rw [Action.after_of_error (Table.commit_of_ne hinnermost)]
    exact Table.tryCommit_of_ne hinnermost

theorem tryRollback_eq_run (keys : KeyScheme κ α ε) (h : Savepoints table starts)
    (handle : Snapshot) :
    (Table.tryRollback handle : TableM α δ Bool) table =
      .ok (table.journal.innermost? = some handle.id)
        (Action.after ((Operation.rollback handle).run keys) table) := by
  rw [Operation.run, Action.after_map]
  by_cases hinnermost : table.journal.innermost? = some handle.id
  · simp only [hinnermost, decide_true]
    obtain ⟨start, rest, rfl, rfl⟩ := h.exists_cons hinnermost
    rw [Action.after_of_ok (Table.rollback_of_tryRollback h.tryRollback_eq)]
    exact h.tryRollback_eq
  · simp only [hinnermost, decide_false]
    rw [Action.after_of_error (Table.rollback_of_ne hinnermost)]
    exact Table.tryRollback_of_ne hinnermost

end Savepoints

namespace Table

/-- The calls that close the snapshot of an action, by what the action ended
    with. There is none after a fault. -/
def closing (handle : Snapshot) : Except (Failure δ) β → List (Operation κ α)
  | .ok _ => [.commit handle]
  | .error (.refused _) => [.rollback handle]
  | .error (.fault _) => []

end Table

/-- An action in a snapshot of its own ends with at most one more call, which
    closes the snapshot or is refused. -/
theorem Savepoints.after_commitIfOk (keys : KeyScheme κ α ε) {action : TableM α δ β}
    {table : Table α} {starts : List (Table α)}
    (h : Savepoints (Action.after action table.opened) starts) :
    Action.after (Table.commitIfOk action) table =
      Table.perform keys
        (Table.closing { id := table.journal.nextId } (Action.outcome action table.opened))
        (Action.after action table.opened) := by
  have hrun := Action.run_eq_ending action table.opened
  rcases hend : Action.outcome action table.opened with (reason | cause) | result
  · rw [hend] at hrun
    have hclose := h.tryRollback_eq_run (δ := δ) keys { id := table.journal.nextId }
    exact Action.after_of_error (Table.commitIfOk_of_refused hrun hclose)
  · rw [hend] at hrun
    exact Action.after_of_error (Table.commitIfOk_of_fault hrun)
  · rw [hend] at hrun
    have hcommit := Table.commitIfOk_of_ok hrun
      (h.tryCommit_eq_run (δ := δ) keys { id := table.journal.nextId })
    split at hcommit
    · exact Action.after_of_ok hcommit
    · exact Action.after_of_error hcommit

namespace Program

/-- The calls that a program makes one after the other when it starts in a
    table. An action in a snapshot of its own makes the call that opens the
    snapshot, and after its own calls the one that is to close it. -/
def calls (keys : KeyScheme κ α ε) {δ β : Type} :
    Program κ α ε δ β → Table α → List (Operation κ α)
  | finish _, _ => []
  | call operation next, table =>
    operation :: Action.onward (Failure.attempt (operation.run keys)) table fun reply left =>
      (next reply).calls keys left
  | commitIfOk body next, table =>
    .snapshot :: (body.calls keys table.opened ++
      (Table.closing { id := table.journal.nextId } (Action.outcome (body.run keys) table.opened) ++
        Action.onward (Failure.attempt (Table.commitIfOk (body.run keys))) table fun reply left =>
          (next reply).calls keys left))

/-- A program does to a table what the calls do that it makes. -/
theorem after_run (keys : KeyScheme κ α ε) (program : Program κ α ε δ β) {table : Table α}
    {starts : List (Table α)} (h : Savepoints table starts) :
    Action.after (program.run keys) table =
      Table.perform keys (program.calls keys table) table := by
  induction program generalizing table starts with
  | finish outcome => cases outcome <;> rfl
  | call operation next ih =>
    have hnext := Action.view_after_onward (fun table => table) (Table.perform keys) (fun _ => rfl)
      fun reply => ih reply (h.run keys operation).1
    rw [run, hnext, calls, Table.perform]
  | commitIfOk body next ihBody ih =>
    obtain ⟨inside, hinside⟩ := h.opened.perform keys (body.calls keys table.opened)
    rw [← ihBody h.opened] at hinside
    have hclosed := hinside.after_commitIfOk keys
    obtain ⟨last, hlast⟩ := hinside.perform keys
      (Table.closing { id := table.journal.nextId } (Action.outcome (body.run keys) table.opened))
    rw [← hclosed] at hlast
    have hnext := Action.view_after_onward (fun table => table) (Table.perform keys) (fun _ => rfl)
      fun reply => ih reply hlast
    rw [run, hnext, hclosed, ihBody h.opened, calls, Table.perform, Table.perform_append,
      Table.perform_append]
    rfl

/-- Running an action in a snapshot of its own opens a snapshot, and then closes
    it or fails to. So it reaches no table that calls do not reach, if the action
    does not. -/
theorem reaches_commitIfOk (keys : KeyScheme κ α ε) {action : TableM α δ β} {table : Table α}
    {starts : List (Table α)} (h : Savepoints table starts)
    (haction : Table.Reaches keys table.opened (Action.after action table.opened)) :
    Table.Reaches keys table (Action.after (Table.commitIfOk action) table) := by
  obtain ⟨inside, hinside⟩ := haction
  obtain ⟨rest, hrest⟩ := h.opened.perform keys inside
  have hopen : Table.Reaches keys table table.opened := ⟨[.snapshot], rfl⟩
  rw [← hinside] at hrest
  exact hopen.trans (.trans ⟨inside, hinside⟩ ⟨_, hrest.after_commitIfOk keys⟩)

/-- Programs reach no table that calls made one after the other do not reach. -/
theorem reaches (keys : KeyScheme κ α ε) (program : Program κ α ε δ β)
    {table : Table α} {starts : List (Table α)} (h : Savepoints table starts) :
    Table.Reaches keys table (Action.after (program.run keys) table) :=
  ⟨program.calls keys table, program.after_run keys h⟩

/-- What programs reach from an empty table calls reach, made one after the other. -/
theorem exists_perform (keys : KeyScheme κ α ε) (program : Program κ α ε δ β) :
    ∃ operations, Action.after (program.run keys) {} = Table.perform keys operations {} :=
  program.reaches keys (.nil rfl)

/-- In every table that programs reach, each open snapshot can be rolled back to
    the table in which it was opened. -/
theorem exists_savepoints (keys : KeyScheme κ α ε) (program : Program κ α ε δ β) :
    ∃ starts, Savepoints (Action.after (program.run keys) {}) starts := by
  have hempty : Savepoints ({} : Table α) [] := .nil rfl
  obtain ⟨operations, hoperations⟩ := program.exists_perform keys
  rw [hoperations]
  exact hempty.perform keys operations

end Program

end Unification
