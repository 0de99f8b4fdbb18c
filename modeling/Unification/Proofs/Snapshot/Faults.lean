import Unification.Proofs.Journal.Orderly
import Unification.Proofs.Refusal.Exactness

namespace Unification

variable {κ α ε δ β : Type}

/-- An action in a snapshot of its own ends as it does, unless another snapshot
    is the innermost one in the end. -/
theorem Savepoints.outcome_commitIfOk (keys : KeyScheme κ α ε) {table : Table α}
    {starts : List (Table α)} {action : TableM α δ β}
    (h : Savepoints (Action.after action table.opened) starts) :
    Action.outcome (Failure.attempt (Table.commitIfOk action)) table =
      match Action.outcome (Failure.attempt action) table.opened with
      | .ok reply =>
        if (Action.after action table.opened).journal.innermost? = some table.journal.nextId then
          .ok reply
        else .error .snapshotLeftOpen
      | .error cause => .error cause := by
  have hrun := Action.run_eq_ending action table.opened
  rw [Action.outcome_attempt, Action.outcome_attempt]
  rcases hend : Action.outcome action table.opened with (reason | cause) | result
  · rw [hend] at hrun
    have hclose := h.tryRollback_eq_run (δ := δ) keys { id := table.journal.nextId }
    rw [Action.outcome_of_error (Table.commitIfOk_of_refused hrun hclose)]
    by_cases hinnermost :
        (Action.after action table.opened).journal.innermost? = some table.journal.nextId <;>
      simp [hinnermost, Action.settle]
  · rw [hend] at hrun
    rw [Action.outcome_of_error (Table.commitIfOk_of_fault hrun)]
    rfl
  · rw [hend] at hrun
    have hcommit := Table.commitIfOk_of_ok hrun
      (h.tryCommit_eq_run (δ := δ) keys { id := table.journal.nextId })
    simp only [decide_eq_true_eq, Action.settle] at hcommit ⊢
    split at hcommit
    next hinnermost => rw [Action.outcome_of_ok hcommit, if_pos hinnermost]
    next hinnermost => rw [Action.outcome_of_error hcommit, if_neg hinnermost]

namespace Table.Reaches

variable {keys : KeyScheme κ α ε} {table : Table α}

theorem savepoints (h : Reaches keys {} table) :
    ∃ starts, Savepoints table starts ∧ table.Orderly ∧ ∀ start ∈ starts, start.Orderly := by
  obtain ⟨operations, rfl⟩ := h
  exact Savepoints.exists_orderly keys operations (.nil rfl) (.of_nothing .empty rfl)
    (List.forall_mem_nil _)

/-- No call reads or writes out of bounds, and no search runs in a cycle. -/
theorem outcome_ne_fault (h : Reaches keys {} table) (operation : Operation κ α) (cause : Fault) :
    Action.outcome (operation.run keys) table ≠ .error (.fault cause) := by
  obtain ⟨starts, hsavepoints, horderly, -⟩ := h.savepoints
  rcases operation.refusal_or_ok keys horderly.forest hsavepoints with
    ⟨reason, hrefusal⟩ | ⟨result, left, hrun⟩
  · obtain ⟨left, hrun, -⟩ := hrefusal.exists_run horderly.forest
    simp [Action.outcome_of_error hrun]
  · simp [Action.outcome_of_ok hrun]

theorem exists_reply (h : Reaches keys {} table) (operation : Operation κ α) :
    ∃ reply, Action.outcome (Failure.attempt (operation.run keys)) table = .ok reply := by
  rw [Action.outcome_attempt]
  rcases hend : Action.outcome (operation.run keys) table with (reason | cause) | result
  · exact ⟨_, rfl⟩
  · exact absurd hend (h.outcome_ne_fault operation cause)
  · exact ⟨_, rfl⟩

end Table.Reaches

/-- A program that comes to the end of an action in a snapshot of its own while
    another snapshot is the innermost one. -/
def Program.Unbalanced (keys : KeyScheme κ α ε) {δ β : Type} :
    Program κ α ε δ β → Table α → Prop
  | finish _, _ => False
  | call operation next, table =>
    ∃ reply, Action.outcome (Failure.attempt (operation.run keys)) table = .ok reply ∧
      (next reply).Unbalanced keys (Action.after (operation.run keys) table)
  | commitIfOk body next, table =>
    body.Unbalanced keys table.opened ∨
    ∃ reply, Action.outcome (Failure.attempt (body.run keys)) table.opened = .ok reply ∧
      ((Action.after (body.run keys) table.opened).journal.innermost? ≠
          some table.journal.nextId ∨
        (next reply).Unbalanced keys (Action.after (Table.commitIfOk (body.run keys)) table))

/-- Nothing but an unbalanced snapshot ends a program before its time. -/
theorem Program.outcome_fault_iff (keys : KeyScheme κ α ε) (program : Program κ α ε δ β)
    {table : Table α} (h : Table.Reaches keys {} table) {cause : Fault} :
    Action.outcome (program.run keys) table = .error (.fault cause) ↔
      cause = .snapshotLeftOpen ∧ program.Unbalanced keys table := by
  induction program generalizing table cause with
  | finish outcome =>
    cases outcome <;> exact iff_of_false (fun hfault => nomatch hfault) fun hfault => hfault.2
  | call operation next ih =>
    obtain ⟨reply, hreply⟩ := h.exists_reply operation
    have hleft : Table.Reaches keys {} (Action.after (operation.run keys) table) :=
      h.trans ⟨[operation], rfl⟩
    rw [run, Action.outcome_attempt_bind, Unbalanced]
    simp only [hreply, Except.ok.injEq, exists_eq_left']
    exact ih reply hleft
  | commitIfOk body next ihBody ih =>
    obtain ⟨starts, hsavepoints, -⟩ := h.savepoints
    have hopened : Table.Reaches keys {} table.opened := h.trans ⟨[.snapshot], rfl⟩
    have hbody := body.reaches keys hsavepoints.opened
    obtain ⟨inner, hinner, -⟩ := (hopened.trans hbody).savepoints
    have hleft : Table.Reaches keys {} (Action.after (Table.commitIfOk (body.run keys)) table) :=
      h.trans (reaches_commitIfOk keys hsavepoints hbody)
    rw [run, Action.outcome_attempt_bind, Unbalanced, hinner.outcome_commitIfOk keys]
    cases hend : Action.outcome (Failure.attempt (body.run keys)) table.opened with
    | error fault =>
      obtain ⟨rfl, hunbalanced⟩ := (ihBody hopened).mp (Action.outcome_attempt_eq_error.mp hend)
      constructor
      · intro hcause
        cases hcause
        exact ⟨rfl, .inl hunbalanced⟩
      · rintro ⟨rfl, -⟩
        rfl
    | ok reply =>
      have hbalanced : ¬ body.Unbalanced keys table.opened := by
        intro hunbalanced
        have hfault := Action.outcome_attempt_eq_error.mpr ((ihBody hopened).mpr ⟨rfl, hunbalanced⟩)
        rw [hend] at hfault
        cases hfault
      by_cases hinnermost : (Action.after (body.run keys) table.opened).journal.innermost? =
          some table.journal.nextId
      · simp only [hinnermost, if_true, hbalanced, false_or, Except.ok.injEq, exists_eq_left',
          ne_eq, not_true_eq_false]
        exact ih reply hleft
      · simp only [hinnermost, if_false, hbalanced, false_or, Except.ok.injEq, exists_eq', ne_eq,
          not_false_eq_true, true_or, and_true, Except.error.injEq, Failure.fault.injEq]
        exact eq_comm

/-- At any moment of a call, reading or writing a node out of bounds is a fault.
    In no table that programs reach does a call meet one, whatever its keys and
    handles are. The entries of the journal are undone in order, each at a moment
    when it is in place. So no program that goes on from there meets a fault, but
    for one that runs an action in a snapshot of its own and breaks the nesting of
    snapshots in it. -/
theorem Program.stays_in_bounds (keys : KeyScheme κ α ε) (program : Program κ α ε δ β) :
    let table := Action.after (program.run keys) {}
    (∀ (moment : Table α), ∀ index ≥ moment.size, ∀ (change : Node α → Node α) (fuel : Nat),
      Action.outcome (Table.nodeAt index : TableM α (TableError ε) (Node α)) moment =
          .error (.fault .indexOutOfBounds) ∧
        Action.outcome (Table.update index change : TableM α (TableError ε) Unit) moment =
          .error (.fault .indexOutOfBounds) ∧
        Table.climb moment.nodes (fuel + 1) index = .error .indexOutOfBounds) ∧
      (∀ (operation : Operation κ α) (cause : Fault),
        Action.outcome (operation.run keys) table ≠ .error (.fault cause)) ∧
      table.JournalInOrder (TableError ε) ∧
      ∀ {δ' β' : Type} (next : Program κ α ε δ' β') (cause : Fault),
        Action.outcome (next.run keys) table = .error (.fault cause) ↔
          cause = .snapshotLeftOpen ∧ next.Unbalanced keys table := by
  intro table
  have hreach : Table.Reaches keys {} table := program.exists_perform keys
  obtain ⟨starts, hsavepoints, horderly, hstarts⟩ := hreach.savepoints
  refine ⟨fun moment index hindex change fuel => ?_, hreach.outcome_ne_fault,
    hsavepoints.journalInOrder horderly hstarts, fun next _ => next.outcome_fault_iff keys hreach⟩
  have hnone : moment.nodes[index]? = none := Array.getElem?_eq_none hindex
  refine ⟨Action.outcome_of_error (Table.nodeAt_of_none hnone),
    Action.outcome_of_error (Table.update_of_none hnone change), ?_⟩
  rw [Table.climb, hnone]

end Unification
