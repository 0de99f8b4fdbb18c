import Unification.Proofs.Snapshot.Closing

namespace Unification

variable {κ α ε δ β : Type}

/-- Rolling back the open snapshots of a table from the innermost one outward,
    up to any of them, gives back the nodes of its copy. -/
structure Table.RestoresCopies (ε : Type) (table : Table α)
    (copies : List (Nat × Array (Node α))) : Prop where
  openIds : table.journal.openIds = copies.map (·.1)
  restores : ∀ (n : Nat) (copy : Nat × Array (Node α)), copies[n]? = some copy →
    ∃ restored, ((table.journal.openIds.take (n + 1)).forM fun id => Table.rollback { id } :
        TableM α (TableError ε) PUnit) table = .ok ⟨⟩ restored ∧
      restored.nodes = copy.2

namespace Savepoints

variable {table : Table α} {starts : List (Table α)}

theorem restoresCopies (h : Savepoints table starts) :
    table.RestoresCopies ε (starts.map fun start => (start.journal.nextId, start.nodes)) where
  openIds := by
    rw [h.openIds_eq, List.map_map]
    rfl
  restores := by
    rw [h.openIds_eq]
    intro n copy hcopy
    induction n generalizing table starts with
    | zero =>
      cases starts with
      | nil => simp at hcopy
      | cons start rest =>
        have hrun := Table.rollback_of_tryRollback (ε := ε) h.tryRollback_eq
        have hstart : (start.journal.nextId, start.nodes) = copy := by simpa using hcopy
        exact ⟨_, Action.bind_of_ok hrun, by rw [← hstart]⟩
    | succ n ih =>
      cases starts with
      | nil => simp at hcopy
      | cons start rest =>
        have hrun := Table.rollback_of_tryRollback (ε := ε) h.tryRollback_eq
        obtain ⟨restored, hrest, hnodes⟩ := ih h.rolledBack (by simpa using hcopy)
        exact ⟨restored, (Action.bind_of_ok hrun).trans hrest, hnodes⟩

end Savepoints

/-- After some calls the snapshot that was opened in a table is still open, and
    whatever lies below it is as it was, or it is closed and stays closed,
    because its number is not given again. -/
inductive Tracks (first : Table α) (below : List (Table α)) (table : Table α) : Prop where
  | above (inner : List (Table α)) (hsavepoints : Savepoints table (inner ++ first :: below))
  | closed {starts : List (Table α)} (hsavepoints : Savepoints table starts)
      (hnext : first.journal.nextId < table.journal.nextId)
      (hclosed : first.journal.nextId ∉ starts.map (·.journal.nextId))

namespace Tracks

variable {first table : Table α} {below : List (Table α)}

/-- Of all snapshots opened since, the one that was opened in the table itself
    is the first. If it is the innermost one again, all others are closed. -/
theorem of_innermost (h : Tracks first below table)
    (hinnermost : table.journal.innermost? = some first.journal.nextId) :
    Savepoints table (first :: below) := by
  cases h with
  | above inner hsavepoints =>
    rw [hsavepoints.innermost?_eq] at hinnermost
    cases inner with
    | nil => exact hsavepoints
    | cons start inner =>
      obtain _ | ⟨-, -, -, -, hstart⟩ := hsavepoints
      have hid : start.journal.nextId = first.journal.nextId := by simpa using hinnermost
      have hless := hstart.lt_nextId first (by simp)
      omega
  | closed hsavepoints _ hclosed =>
    rw [hsavepoints.innermost?_eq] at hinnermost
    refine absurd ?_ hclosed
    obtain ⟨start, hhead, hid⟩ := Option.map_eq_some_iff.mp hinnermost
    exact List.mem_map.mpr ⟨start, List.mem_of_mem_head? hhead, hid⟩

theorem run (keys : KeyScheme κ α ε) (operation : Operation κ α) (h : Tracks first below table) :
    Tracks first below (Action.after (operation.run keys) table) := by
  cases h with
  | above inner hsavepoints =>
    obtain ⟨hleft, hnext⟩ := hsavepoints.run keys operation
    rcases operation.savepoints_cases table (inner ++ first :: below) with hsame | hmore | hless
    · rw [hsame] at hleft
      exact .above inner hleft
    · rw [hmore] at hleft
      exact .above (table :: inner) hleft
    · rw [hless] at hleft
      cases inner with
      | cons start inner => exact .above inner hleft
      | nil =>
        obtain _ | ⟨-, -, -, hfirst, hbelow⟩ := hsavepoints
        refine .closed hleft (by omega) fun hmem => ?_
        obtain ⟨start, hstart, hid⟩ := List.mem_map.mp hmem
        have hstartless := hbelow.lt_nextId start hstart
        omega
  | @closed starts hsavepoints hnext hclosed =>
    obtain ⟨hleft, hgrow⟩ := hsavepoints.run keys operation
    refine .closed hleft (by omega) ?_
    rcases operation.savepoints_cases table starts with hsame | hmore | hless
    · rwa [hsame]
    · rw [hmore, List.map_cons, List.mem_cons, not_or]
      exact ⟨by omega, hclosed⟩
    · rw [hless, List.map_tail]
      exact fun hmem => hclosed (List.mem_of_mem_tail hmem)

theorem perform (keys : KeyScheme κ α ε) (operations : List (Operation κ α))
    (h : Tracks first below table) : Tracks first below (Table.perform keys operations table) := by
  induction operations generalizing table with
  | nil => exact h
  | cons operation rest ih => exact ih (h.run keys operation)

end Tracks

/-- An action in a snapshot of its own is all or nothing, whatever program it
    is, and whatever program came before. It breaks the nesting exactly if
    another snapshot than its own is the innermost one in the end. Otherwise a
    result keeps the nodes as the program left them, and a refusal restores the
    nodes and the journal, but for the numbers that were given; both ways the
    open snapshots are those from before, and each can still be rolled back to
    the nodes with which it was opened, which are the copies that a machine took
    in the calls that led to the table. -/
theorem Table.commitIfOk_all_or_nothing {δ' β' : Type} (keys : KeyScheme κ α ε)
    (history : Program κ α ε δ' β') (program : Program κ α ε δ β) :
    ∃ calls,
      let table := Action.after (history.run keys) {}
      let copies := (CopyMachine.perform keys calls {}).copies
      table = perform keys calls {} ∧
      match program.run keys table.opened with
      | .error (.fault cause) left =>
        commitIfOk (program.run keys) table = .error (.fault cause) left
      | .ok result left =>
        if left.journal.innermost? = some table.journal.nextId then
          ∃ after, commitIfOk (program.run keys) table = .ok result after ∧
            after.nodes = left.nodes ∧ after.journal.frames = table.journal.frames ∧
            after.RestoresCopies ε copies
        else commitIfOk (program.run keys) table = .error (.fault .snapshotLeftOpen) left
      | .error (.refused reason) left =>
        if left.journal.innermost? = some table.journal.nextId then
          ∃ after, commitIfOk (program.run keys) table = .error (.refused reason) after ∧
            after.nodes = table.nodes ∧ after.journal.entries = table.journal.entries ∧
            after.journal.frames = table.journal.frames ∧ after.RestoresCopies ε copies
        else commitIfOk (program.run keys) table = .error (.fault .snapshotLeftOpen) left := by
  obtain ⟨calls, hcalls⟩ := history.reaches keys CopyMachine.Mirrors.empty.savepoints
  obtain ⟨starts, hmirrors⟩ := CopyMachine.Mirrors.empty.perform keys calls
  rw [← hcalls] at hmirrors
  refine ⟨calls, hcalls, ?_⟩
  generalize Action.after (history.run keys) {} = table at hmirrors ⊢
  have hsavepoints := hmirrors.savepoints
  have htracks : Tracks table starts (Action.after (program.run keys) table.opened) := by
    obtain ⟨operations, hoperations⟩ := program.reaches keys hsavepoints.opened
    rw [hoperations]
    exact Tracks.perform keys operations (.above [] hsavepoints.opened)
  split
  next cause left hrun => exact commitIfOk_of_fault hrun
  next result left hrun =>
    rw [Action.after_of_ok hrun] at htracks
    split
    next hinnermost =>
      obtain ⟨journal, hcommit, hframes, -, hrest⟩ := (htracks.of_innermost hinnermost).commit?_eq
      refine ⟨_, commitIfOk_of_ok hrun (tryCommit_of_some hcommit), rfl, hframes, ?_⟩
      rw [hmirrors.copies]
      exact hrest.restoresCopies
    next hinnermost => exact commitIfOk_of_ok hrun (tryCommit_of_ne hinnermost)
  next reason left hrun =>
    rw [Action.after_of_error hrun] at htracks
    split
    next hinnermost =>
      have hown := htracks.of_innermost hinnermost
      refine ⟨_, commitIfOk_of_refused hrun hown.tryRollback_eq, rfl, rfl, rfl, ?_⟩
      rw [hmirrors.copies]
      exact hown.rolledBack.restoresCopies
    next hinnermost => exact commitIfOk_of_refused hrun (tryRollback_of_ne hinnermost)

end Unification
