import Unification.Proofs.Inference.Calls
import Unification.Proofs.Snapshot.CommitIfOk

namespace Unification

variable {δ β : Type}

namespace Inference

section Ends

variable {action : InferenceM δ β} {state left : Inference}

private theorem snapshot_eq (state : Inference) :
    (onTable Table.snapshot : InferenceM δ Snapshot) state =
      .ok { id := state.table.journal.nextId } state.opened :=
  onTable_of_ok (Table.snapshot_eq state.table)

theorem speculate_of_fault {cause : Fault}
    (hrun : Failure.attempt action state.opened = .error cause left) :
    speculate action state = .error (.fault cause) left := by
  rw [speculate, attemptClean]
  simp only [bind_assoc]
  rw [Action.bind_of_ok (snapshot_eq state), Action.get_bind, Action.relay_bind, hrun]

/-- A result without a new type error is committed. -/
theorem speculate_of_clean {result : β}
    (hrun : Failure.attempt action state.opened = .ok (.ok result) left)
    (hclean : left.errors.size = state.errors.size) :
    speculate action state =
      let close : TableM Binding δ Bool := Table.tryCommit { id := state.table.journal.nextId }
      Action.ending
        ((Action.outcome close left.table).bind fun closed =>
          if closed then .ok (some result) else .error (.fault .snapshotLeftOpen))
        { left with table := Action.after close left.table } := by
  have hsize : (left.errors.size == state.opened.errors.size) = true := by
    rw [opened, hclean, beq_self_eq_true]
  rw [speculate, attemptClean]
  simp only [bind_assoc]
  rw [Action.bind_of_ok (snapshot_eq state), Action.get_bind, Action.relay_bind, hrun]
  dsimp only
  rw [Action.get_bind]
  simp only [hsize]
  rw [bind_assoc, onTable_bind]
  cases Action.outcome (Table.tryCommit { id := state.table.journal.nextId }) left.table with
  | ok closed => cases closed <;> rfl
  | error failure => rfl

/-- All else is rolled back, the errors ahead of the table. -/
theorem speculate_of_failed {outcome : Except δ β}
    (hrun : Failure.attempt action state.opened = .ok outcome left)
    (hfailed : ∀ result, outcome = .ok result → left.errors.size ≠ state.errors.size) :
    speculate action state =
      let close : TableM Binding δ Bool := Table.tryRollback { id := state.table.journal.nextId }
      Action.ending
        ((Action.outcome close left.table).bind fun closed =>
          if closed then (outcome.mapError .refused).map fun _ => none
          else .error (.fault .snapshotLeftOpen))
        { table := Action.after close left.table
          errors := left.errors.take state.errors.size } := by
  rw [speculate, attemptClean]
  simp only [bind_assoc]
  rw [Action.bind_of_ok (snapshot_eq state), Action.get_bind, Action.relay_bind, hrun]
  dsimp only
  rw [Action.get_bind]
  cases outcome with
  | ok result =>
    have hsize : (left.errors.size == state.opened.errors.size) = false := by
      rw [beq_eq_false_iff_ne]
      exact hfailed result rfl
    simp only [hsize, bind_assoc]
    refine (Action.bind_of_ok rfl).trans ((onTable_bind _ _ _).trans ?_)
    dsimp only [opened]
    cases Action.outcome (Table.tryRollback { id := state.table.journal.nextId }) left.table with
    | ok closed => cases closed <;> rfl
    | error failure => rfl
  | error reason =>
    simp only [bind_assoc]
    refine (Action.bind_of_ok rfl).trans ((onTable_bind _ _ _).trans ?_)
    dsimp only [opened]
    cases Action.outcome (Table.tryRollback { id := state.table.journal.nextId }) left.table with
    | ok closed => cases closed <;> rfl
    | error failure => rfl

end Ends

/-- A speculation leaves the errors that it finds, whether it is kept or not. It
    is kept only if none was added to them. -/
theorem errors_of_speculate {action : InferenceM δ β} {state left : Inference}
    {recorded : List TypeError} {outcome : Except δ (Option β)}
    (hrecorded : ∀ {result : Except δ β} {middle : Inference},
      Failure.attempt action state.opened = .ok result middle →
        middle.errors = state.errors ++ recorded.toArray)
    (hrun : Failure.attempt (speculate action) state = .ok outcome left) :
    left.errors = state.errors ∧ ∀ result, outcome = .ok (some result) → recorded = [] := by
  have hafter := Action.after_attempt (speculate action) state
  have houtcome := Action.outcome_attempt (speculate action) state
  rw [Action.after_of_ok hrun] at hafter
  rw [Action.outcome_of_ok hrun] at houtcome
  rcases hbody : Failure.attempt action state.opened with ⟨result, middle⟩ | ⟨cause, middle⟩
  · have hmiddle := hrecorded hbody
    by_cases hclean : ∃ value, result = .ok value ∧ middle.errors.size = state.errors.size
    · obtain ⟨value, rfl, hsize⟩ := hclean
      have hnone : recorded = [] := by simpa [hmiddle] using hsize
      rw [Action.after_of_eq_ending (speculate_of_clean hbody hsize)] at hafter
      rw [hafter, hmiddle, hnone, Array.append_empty]
      exact ⟨rfl, fun _ _ => rfl⟩
    · have hfailed : ∀ value, result = .ok value → middle.errors.size ≠ state.errors.size :=
        fun value hok hsize => hclean ⟨value, hok, hsize⟩
      have hspeculate := speculate_of_failed hbody hfailed
      rw [Action.after_of_eq_ending hspeculate] at hafter
      rw [Action.outcome_of_eq_ending hspeculate] at houtcome
      refine ⟨by simp [hafter, hmiddle], fun value hkept => ?_⟩
      -- A speculation that is given up has no result to show, whatever closing it ends with.
      subst hkept
      generalize Action.outcome _ middle.table = closing at houtcome
      rcases closing with (reason | cause) | (_ | _) <;> cases result <;> cases houtcome
  · rw [Action.outcome_of_error (speculate_of_fault hbody)] at houtcome
    cases houtcome

/-- The calls that close the snapshot of a speculation in a state, by what its
    action ended with. There is none after a fault. -/
def closing (state : Inference) :
    EStateM.Result Fault Inference (Except δ β) → List (Operation TypeVar Binding)
  | .ok (.ok _) left =>
    if left.errors.size = state.errors.size then [.commit { id := state.table.journal.nextId }]
    else [.rollback { id := state.table.journal.nextId }]
  | .ok (.error _) _ => [.rollback { id := state.table.journal.nextId }]
  | .error _ _ => []

/-- A speculation ends with at most one more call on the table, which closes
    its snapshot or is refused. -/
theorem table_after_speculate {action : InferenceM δ β} {state : Inference}
    {starts : List (Table Binding)}
    (h : Savepoints (Action.after action state.opened).table starts) :
    (Action.after (speculate action) state).table =
      Table.perform typeVars (closing state (Failure.attempt action state.opened))
        (Action.after action state.opened).table := by
  have hafter := Action.after_attempt action state.opened
  have hcommit := h.tryCommit_eq_run (δ := δ) typeVars { id := state.table.journal.nextId }
  have hrollback := h.tryRollback_eq_run (δ := δ) typeVars { id := state.table.journal.nextId }
  rcases hrun : Failure.attempt action state.opened with ⟨reason | result, left⟩ | ⟨cause, left⟩
  · rw [Action.after_of_ok hrun] at hafter
    rw [← hafter] at hrollback ⊢
    rw [Action.after_of_eq_ending (speculate_of_failed hrun fun _ hok => nomatch hok)]
    exact Action.after_of_ok hrollback
  · rw [Action.after_of_ok hrun] at hafter
    rw [← hafter] at hcommit hrollback ⊢
    rw [closing]
    split
    next hclean =>
      rw [Action.after_of_eq_ending (speculate_of_clean hrun hclean)]
      exact Action.after_of_ok hcommit
    next hmore =>
      rw [Action.after_of_eq_ending (speculate_of_failed hrun fun _ _ => hmore)]
      exact Action.after_of_ok hrollback
  · rw [Action.after_of_error hrun] at hafter
    rw [Action.after_of_error (speculate_of_fault hrun), hafter]
    rfl

end Inference

namespace InferenceProgram

/-- The calls that a program makes on the table of a pass, one after the other,
    when it starts in a state. A speculation makes the call that opens its
    snapshot, and after the calls of its body the one that is to close it. -/
def calls {δ β : Type} : InferenceProgram δ β → Inference → List (Operation TypeVar Binding)
  | finish _, _ => []
  | call operation next, state =>
    operation.operation?.toList ++
      Action.onward (Failure.attempt operation.run) state fun reply left => (next reply).calls left
  | onTable program next, state =>
    program.calls typeVars state.table ++
      Action.onward (Failure.attempt (Inference.onTable (program.run typeVars))) state
        fun reply left => (next reply).calls left
  | speculate body next, state =>
    .snapshot :: (body.calls state.opened ++
      (Inference.closing state (Failure.attempt body.run state.opened) ++
        Action.onward (Failure.attempt (Inference.speculate body.run)) state
          fun reply left => (next reply).calls left))

/-- A program does to the table of a pass what the calls do that it makes on it. -/
theorem table_after_run (program : InferenceProgram δ β) {state : Inference}
    {starts : List (Table Binding)} (h : Savepoints state.table starts) :
    (Action.after program.run state).table =
      Table.perform typeVars (program.calls state) state.table := by
  induction program generalizing state starts with
  | finish outcome => cases outcome <;> rfl
  | call operation next ih =>
    have hafter : (Action.after operation.run state).table =
        Table.perform typeVars operation.operation?.toList state.table := by
      rw [operation.after_run]
      cases operation.operation? <;> rfl
    obtain ⟨last, hlast⟩ := h.perform typeVars operation.operation?.toList
    rw [← hafter] at hlast
    have hnext := Action.view_after_onward Inference.table (Table.perform typeVars) (fun _ => rfl)
      fun reply => ih reply hlast
    rw [run, hnext, hafter, calls, Table.perform_append]
  | onTable program next ih =>
    have hafter : (Action.after (Inference.onTable (program.run typeVars)) state).table =
        Table.perform typeVars (program.calls typeVars state.table) state.table := by
      rw [Action.after_of_eq_ending (Inference.onTable_eq _ _)]
      exact program.after_run typeVars h
    obtain ⟨last, hlast⟩ := h.perform typeVars (program.calls typeVars state.table)
    rw [← hafter] at hlast
    have hnext := Action.view_after_onward Inference.table (Table.perform typeVars) (fun _ => rfl)
      fun reply => ih reply hlast
    rw [run, hnext, hafter, calls, Table.perform_append]
  | speculate body next ihBody ih =>
    have hopened : Savepoints state.opened.table (state.table :: starts) := h.opened
    obtain ⟨inside, hinside⟩ := hopened.perform typeVars (body.calls state.opened)
    rw [← ihBody hopened] at hinside
    have hclosed := Inference.table_after_speculate hinside
    obtain ⟨last, hlast⟩ := hinside.perform typeVars
      (Inference.closing state (Failure.attempt body.run state.opened))
    rw [← hclosed] at hlast
    have hnext := Action.view_after_onward Inference.table (Table.perform typeVars) (fun _ => rfl)
      fun reply => ih reply hlast
    rw [run, hnext, hclosed, ihBody hopened, calls, Table.perform, Table.perform_append,
      Table.perform_append]
    rfl

/-- Programs bring the table of a pass to no state that calls on it made one
    after the other do not bring it to. -/
theorem reaches (program : InferenceProgram δ β) {state : Inference}
    {starts : List (Table Binding)} (h : Savepoints state.table starts) :
    Table.Reaches typeVars state.table (Action.after program.run state).table :=
  ⟨program.calls state, program.table_after_run h⟩

/-- The tables that programs reach from the start calls reach, one after the other. -/
theorem exists_perform (program : InferenceProgram δ β) :
    ∃ operations, (Action.after program.run {}).table = Table.perform typeVars operations {} :=
  program.reaches (.nil rfl)

theorem exists_savepoints (program : InferenceProgram δ β) :
    ∃ starts, Savepoints (Action.after program.run {}).table starts := by
  have hempty : Savepoints ({} : Table Binding) [] := .nil rfl
  obtain ⟨operations, hoperations⟩ := program.exists_perform
  rw [hoperations]
  exact hempty.perform typeVars operations

/-- A program that comes to its end leaves the errors that it finds, and adds
    those that it has recorded for good. -/
theorem errors_of_attempt (program : InferenceProgram δ β) {state left : Inference}
    {outcome : Except δ β} (hrun : Failure.attempt program.run state = .ok outcome left) :
    left.errors = state.errors ++ (program.recorded state).toArray := by
  induction program generalizing state left with
  | finish verdict =>
    have hleft : left = state := by
      have hafter := Action.after_attempt (finish verdict).run state
      rw [Action.after_of_ok hrun] at hafter
      rw [hafter]
      cases verdict <;> rfl
    rw [hleft, recorded, Array.append_empty]
  | call operation next ih =>
    obtain ⟨first, middle, hfirst, hrest⟩ := Action.exists_of_attempt_bind hrun
    have hmiddle : middle.errors = state.errors ++ (operation.recorded state).toArray := by
      have hafter := Action.after_attempt operation.run state
      rw [Action.after_of_ok hfirst, operation.after_run] at hafter
      rw [hafter]
    rw [ih first hrest, hmiddle, recorded, hfirst]
    simp only [Array.append_assoc, List.append_toArray]
  | onTable program next ih =>
    obtain ⟨first, middle, hfirst, hrest⟩ := Action.exists_of_attempt_bind hrun
    have hmiddle : middle.errors = state.errors := by
      have hafter := Action.after_attempt (Inference.onTable (program.run typeVars)) state
      rw [Action.after_of_ok hfirst, Action.after_of_eq_ending (Inference.onTable_eq _ _)] at hafter
      rw [hafter]
    rw [ih first hrest, hmiddle, recorded, hfirst]
  | speculate body next ihBody ih =>
    obtain ⟨first, middle, hfirst, hrest⟩ := Action.exists_of_attempt_bind hrun
    have hbody : ∀ {result : Except _ _} {middle : Inference},
        Failure.attempt body.run state.opened = .ok result middle →
          middle.errors = state.errors ++ (body.recorded state.opened).toArray :=
      fun hbody => ihBody hbody
    obtain ⟨hmiddle, hkept⟩ := Inference.errors_of_speculate hbody hfirst
    rw [ih first hrest, hmiddle, recorded, hfirst]
    rcases first with reason | (_ | result)
    · rfl
    · rfl
    · simp only [hkept result rfl, List.nil_append]

end InferenceProgram

/-- The state that another one goes back to. The numbers that snapshots were
    given since are not given again. -/
def Inference.restored (state left : Inference) : Inference :=
  { state with
    table.journal.nextId := left.table.journal.nextId }

namespace Inference

variable {action : InferenceM δ β} {state left : Inference} {starts : List (Table Binding)}
  {recorded : List TypeError}

private theorem speculate_of_tracks_clean {result : β}
    (htracks : Tracks state.table starts left.table)
    (hrun : Failure.attempt action state.opened = .ok (.ok result) left)
    (hclean : left.errors = state.errors) :
    if left.table.journal.innermost? = some state.table.journal.nextId then
      ∃ after, speculate action state = .ok (some result) after ∧
        after.table.nodes = left.table.nodes ∧
        after.table.journal.frames = state.table.journal.frames ∧ after.errors = state.errors
    else
      speculate action state =
        .error (.fault .snapshotLeftOpen) { left with errors := state.errors } := by
  have hspeculate := speculate_of_clean hrun (congrArg Array.size hclean)
  split
  next hinnermost =>
    obtain ⟨journal, hcommit, hframes, -, -⟩ := (htracks.of_innermost hinnermost).commit?_eq
    have hclose := Table.tryCommit_of_some (δ := δ) hcommit
    dsimp only at hspeculate
    rw [Action.outcome_of_ok hclose, Action.after_of_ok hclose] at hspeculate
    exact ⟨_, hspeculate, rfl, hframes, hclean⟩
  next hinnermost =>
    have hother : left.table.journal.innermost? ≠
        some ({ id := state.table.journal.nextId } : Snapshot).id := hinnermost
    have hclose := Table.tryCommit_of_ne (δ := δ) hother
    dsimp only at hspeculate
    rw [Action.outcome_of_ok hclose, Action.after_of_ok hclose] at hspeculate
    rw [hspeculate, hclean]
    rfl

private theorem speculate_of_tracks_failed {outcome : Except δ β}
    (htracks : Tracks state.table starts left.table)
    (hrun : Failure.attempt action state.opened = .ok outcome left)
    (hfailed : ∀ result, outcome = .ok result → left.errors.size ≠ state.errors.size)
    (herrors : left.errors = state.errors ++ recorded.toArray) :
    speculate action state =
      if left.table.journal.innermost? = some state.table.journal.nextId then
        Action.ending ((outcome.mapError .refused).map fun _ => none) (state.restored left)
      else .error (.fault .snapshotLeftOpen) { left with errors := state.errors } := by
  have htake : left.errors.take state.errors.size = state.errors := by
    rw [herrors]
    simp
  have hspeculate := speculate_of_failed hrun hfailed
  dsimp only at hspeculate
  rw [hspeculate, htake]
  split
  next hinnermost =>
    have hclose := (htracks.of_innermost hinnermost).tryRollback_eq (δ := δ)
    rw [Action.outcome_of_ok hclose, Action.after_of_ok hclose]
    rfl
  next hinnermost =>
    have hother : left.table.journal.innermost? ≠
        some ({ id := state.table.journal.nextId } : Snapshot).id := hinnermost
    have hclose := Table.tryRollback_of_ne (δ := δ) hother
    rw [Action.outcome_of_ok hclose, Action.after_of_ok hclose]
    rfl

end Inference

/-- To speculate is a transaction on the table and on the errors, whatever
    program it is about, and whatever program came before. The result of the
    program is kept if it has recorded no type error that outlived the
    speculations within it; then the nodes are those that the program left.
    Otherwise the nodes, the journal, the open snapshots and the errors are
    those from before. The nesting is broken exactly if another snapshot than
    its own is the innermost one in the end. -/
theorem Inference.speculate_transaction {δ' β' : Type} (history : InferenceProgram δ' β')
    (program : InferenceProgram δ β) :
    let state := Action.after history.run {}
    let recorded := program.recorded state.opened
    match program.run state.opened with
    | .error (.fault cause) left => speculate program.run state = .error (.fault cause) left
    | .ok result left =>
      left.errors = state.errors ++ recorded.toArray ∧
      if left.table.journal.innermost? = some state.table.journal.nextId then
        if recorded = [] then
          ∃ after, speculate program.run state = .ok (some result) after ∧
            after.table.nodes = left.table.nodes ∧
            after.table.journal.frames = state.table.journal.frames ∧ after.errors = state.errors
        else speculate program.run state = .ok none (state.restored left)
      else
        speculate program.run state =
          .error (.fault .snapshotLeftOpen) { left with errors := state.errors }
    | .error (.refused reason) left =>
      if left.table.journal.innermost? = some state.table.journal.nextId then
        speculate program.run state = .error (.refused reason) (state.restored left)
      else
        speculate program.run state =
          .error (.fault .snapshotLeftOpen) { left with errors := state.errors } := by
  intro state recorded
  obtain ⟨starts, hsavepoints⟩ : ∃ starts, Savepoints state.table starts :=
    history.exists_savepoints
  have hopened : Savepoints state.opened.table (state.table :: starts) := hsavepoints.opened
  have htracks : Tracks state.table starts (Action.after program.run state.opened).table := by
    obtain ⟨operations, hoperations⟩ := program.reaches hopened
    rw [hoperations]
    exact Tracks.perform typeVars operations (.above [] hopened)
  split
  next cause left hrun => exact speculate_of_fault (Action.attempt_of_fault hrun)
  next result left hrun =>
    rw [Action.after_of_ok hrun] at htracks
    have hattempt := Action.attempt_of_ok hrun
    have herrors : left.errors = state.errors ++ recorded.toArray :=
      program.errors_of_attempt hattempt
    refine ⟨herrors, ?_⟩
    by_cases hclean : recorded = []
    · simp only [hclean, if_true]
      rw [hclean, Array.append_empty] at herrors
      exact speculate_of_tracks_clean htracks hattempt herrors
    · have hsize : left.errors.size ≠ state.errors.size := by simpa [herrors] using hclean
      simp only [hclean, if_false]
      have hspeculate := speculate_of_tracks_failed htracks hattempt (fun _ _ => hsize) herrors
      split
      next hinnermost => exact hspeculate.trans (if_pos hinnermost)
      next hinnermost => exact hspeculate.trans (if_neg hinnermost)
  next reason left hrun =>
    rw [Action.after_of_error hrun] at htracks
    have hattempt := Action.attempt_of_refused hrun
    have herrors : left.errors = state.errors ++ recorded.toArray :=
      program.errors_of_attempt hattempt
    have hspeculate :=
      speculate_of_tracks_failed htracks hattempt (fun _ hok => by cases hok) herrors
    split
    next hinnermost => exact hspeculate.trans (if_pos hinnermost)
    next hinnermost => exact hspeculate.trans (if_neg hinnermost)

end Unification
