import Mathlib.Data.List.Induction
import Mathlib.Tactic.ByContra
import Unification.Proofs.Snapshot.Closing

namespace Unification

variable {κ α ε δ β : Type}

/-- Whether a call opens a snapshot. None that does is refused. -/
def Operation.opensSnapshot : Operation κ α → Bool
  | snapshot => true
  | _ => false

namespace Savepoints

variable {table start : Table α} {rest starts : List (Table α)}

theorem exists_commit (h : Savepoints table (start :: rest)) :
    ∃ left, (Table.commit { id := start.journal.nextId } : TableM α (TableError ε) Unit) table =
        .ok () left ∧ left.nodes = table.nodes ∧ left.journal.nextId = table.journal.nextId ∧
      Savepoints left rest := by
  obtain ⟨journal, hcommit, -, hnext, hrest⟩ := h.commit?_eq
  exact ⟨_, Table.commit_of_some hcommit, rfl, hnext, hrest⟩

theorem exists_rollback (h : Savepoints table (start :: rest)) :
    ∃ left, (Table.rollback { id := start.journal.nextId } : TableM α (TableError ε) Unit) table =
        .ok () left ∧ left.nodes = start.nodes ∧ left.journal.nextId = table.journal.nextId ∧
      Savepoints left rest :=
  ⟨_, Table.rollback_of_tryRollback h.tryRollback_eq, rfl, rfl, h.rolledBack⟩

/-- What a call about snapshots does to a table and to its savepoints, call by
    call. All that opens or closes nothing changes nothing. -/
inductive SnapshotCall (ε : Type) (table : Table α) :
    Operation κ α → List (Table α) → Table α → List (Table α) → Prop where
  | snapshot (starts : List (Table α)) :
      SnapshotCall ε table .snapshot starts table.opened (table :: starts)
  | commit {start left : Table α} {rest : List (Table α)}
      (hrun : (Table.commit { id := start.journal.nextId } : TableM α (TableError ε) Unit) table =
        .ok () left)
      (hnodes : left.nodes = table.nodes) (hnext : left.journal.nextId = table.journal.nextId)
      (hrest : Savepoints left rest) :
      SnapshotCall ε table (.commit { id := start.journal.nextId }) (start :: rest) left rest
  | rollback {start left : Table α} {rest : List (Table α)}
      (hrun : (Table.rollback { id := start.journal.nextId } : TableM α (TableError ε) Unit) table =
        .ok () left)
      (hnodes : left.nodes = start.nodes) (hnext : left.journal.nextId = table.journal.nextId)
      (hrest : Savepoints left rest) :
      SnapshotCall ε table (.rollback { id := start.journal.nextId }) (start :: rest) left rest
  | unchanged {operation : Operation κ α} (hother : operation.opensSnapshot = false)
      (starts : List (Table α)) : SnapshotCall ε table operation starts table starts

theorem snapshotCall (keys : KeyScheme κ α ε) {operation : Operation κ α}
    (hplain : ¬ operation.isPlain) (h : Savepoints table starts) :
    ∃ left rest, Action.after (operation.run keys) table = left ∧
      SnapshotCall ε table operation starts left rest := by
  cases operation with
  | snapshot => exact ⟨_, _, rfl, .snapshot starts⟩
  | commit handle =>
    rw [Operation.run, Action.after_map]
    by_cases hinnermost : table.journal.innermost? = some handle.id
    · obtain ⟨start, rest, rfl, rfl⟩ := h.exists_cons hinnermost
      obtain ⟨left, hrun, hnodes, hnext, hrest⟩ := h.exists_commit (ε := ε)
      exact ⟨left, rest, Action.after_of_ok hrun, .commit hrun hnodes hnext hrest⟩
    · exact ⟨table, starts, Action.after_of_error (Table.commit_of_ne hinnermost),
        .unchanged rfl starts⟩
  | rollback handle =>
    rw [Operation.run, Action.after_map]
    by_cases hinnermost : table.journal.innermost? = some handle.id
    · obtain ⟨start, rest, rfl, rfl⟩ := h.exists_cons hinnermost
      obtain ⟨left, hrun, hnodes, hnext, hrest⟩ := h.exists_rollback (ε := ε)
      exact ⟨left, rest, Action.after_of_ok hrun, .rollback hrun hnodes hnext hrest⟩
    · exact ⟨table, starts, Action.after_of_error (Table.rollback_of_ne hinnermost),
        .unchanged rfl starts⟩
  | newKeysSince handle =>
    rw [Operation.run, Action.after_map]
    exact ⟨table, starts, Action.after_of_eq_ending (Table.newKeysSince_eq keys handle table),
      .unchanged rfl starts⟩
  | _ => exact absurd rfl hplain

/-- Each snapshot that is opened uses up one number, and nothing gives it back. -/
theorem nextId_run (keys : KeyScheme κ α ε) (operation : Operation κ α)
    (h : Savepoints table starts) :
    (Action.after (operation.run keys) table).journal.nextId =
      table.journal.nextId + if operation.opensSnapshot then 1 else 0 := by
  by_cases hplain : operation.isPlain
  · rw [(h.after_of_journaled (operation.journaled keys hplain)).2]
    cases operation <;> first | rfl | cases hplain
  obtain ⟨left, rest, hleft, hcall⟩ := h.snapshotCall keys hplain
  rw [hleft]
  cases hcall with
  | snapshot => rfl
  | commit _ _ hnext | rollback _ _ hnext =>
    rw [hnext]
    rfl
  | unchanged hother =>
    rw [hother]
    rfl

/-- The open snapshots are numbered downward from the innermost one. -/
theorem openIds_pairwise (h : Savepoints table starts) :
    table.journal.openIds.Pairwise (· > ·) := by
  rw [h.openIds_eq]
  induction h with
  | nil => exact .nil
  | cons _ _ _ _ hstarts ih =>
    refine .cons (fun id hid => ?_) ih
    obtain ⟨other, hother, rfl⟩ := List.mem_map.mp hid
    exact hstarts.lt_nextId other hother

/-- A snapshot is committed exactly if it is the innermost one. -/
theorem outcome_commit (keys : KeyScheme κ α ε) (h : Savepoints table starts) (handle : Snapshot) :
    Action.outcome ((Operation.commit handle).run keys) table = .ok .done ↔
      table.journal.innermost? = some handle.id := by
  constructor
  · intro hok
    by_contra hother
    rw [Operation.run, Action.outcome_of_error (Action.map_of_error (Table.commit_of_ne hother))]
      at hok
    cases hok
  · intro hinnermost
    obtain ⟨start, rest, rfl, rfl⟩ := h.exists_cons hinnermost
    obtain ⟨left, hrun, -⟩ := h.exists_commit (ε := ε)
    exact Action.outcome_of_ok (Action.map_of_ok hrun)

theorem outcome_rollback (keys : KeyScheme κ α ε) (h : Savepoints table starts)
    (handle : Snapshot) :
    Action.outcome ((Operation.rollback handle).run keys) table = .ok .done ↔
      table.journal.innermost? = some handle.id := by
  constructor
  · intro hok
    by_contra hother
    rw [Operation.run, Action.outcome_of_error (Action.map_of_error (Table.rollback_of_ne hother))]
      at hok
    cases hok
  · intro hinnermost
    obtain ⟨start, rest, rfl, rfl⟩ := h.exists_cons hinnermost
    obtain ⟨left, hrun, -⟩ := h.exists_rollback (ε := ε)
    exact Action.outcome_of_ok (Action.map_of_ok hrun)

end Savepoints

namespace History

variable (keys : KeyScheme κ α ε) (history more : List (Operation κ α))

/-- The table in which the call at a position of a history is made. A history
    starts with an empty table. -/
def tableAt (position : Nat) : Table α :=
  Table.perform keys (history.take position) {}

/-- The call at a position of a history, and what it answers. A call that is
    refused answers nothing. -/
structure Answers (position : Nat) (operation : Operation κ α) (answer : TableAnswer κ α) :
    Prop where
  getElem? : history[position]? = some operation
  outcome : Action.outcome (operation.run keys) (tableAt keys history position) = .ok answer

def Opens (position : Nat) (handle : Snapshot) : Prop :=
  Answers keys history position .snapshot (.handle handle)

def Closes (position : Nat) (handle : Snapshot) : Prop :=
  Answers keys history position (.commit handle) .done ∨
    Answers keys history position (.rollback handle) .done

/-- A snapshot is opened at a position of a history, and nothing closes it. -/
structure StaysOpen (position : Nat) (handle : Snapshot) : Prop where
  opens : Opens keys history position handle
  not_closes : ∀ later > position, ¬ Closes keys history later handle

variable {keys history more} {position : Nat} {operation last : Operation κ α}
  {answer : TableAnswer κ α} {handle : Snapshot}

theorem tableAt_length : tableAt keys history history.length = Table.perform keys history {} := by
  rw [tableAt, List.take_length]

theorem tableAt_append (h : position ≤ history.length) :
    tableAt keys (history ++ more) position = tableAt keys history position := by
  rw [tableAt, tableAt, List.take_append_of_le_length h]

theorem tableAt_succ (h : history[position]? = some operation) :
    tableAt keys history (position + 1) =
      Action.after (operation.run keys) (tableAt keys history position) := by
  rw [tableAt, List.take_add_one, h, Option.toList_some, Table.perform_append]
  rfl

/-- After the last call nothing happens any more. -/
theorem tableAt_succ_of_none (h : history[position]? = none) :
    tableAt keys history (position + 1) = tableAt keys history position := by
  rw [tableAt, List.take_add_one, h, Option.toList_none, List.append_nil, tableAt]

theorem exists_savepoints (keys : KeyScheme κ α ε) (history : List (Operation κ α)) :
    ∃ starts, Savepoints (Table.perform keys history {}) starts := by
  have hempty : Savepoints ({} : Table α) [] := .nil rfl
  exact hempty.perform keys history

/-- A history may go on with the calls of a program. -/
theorem after_run (keys : KeyScheme κ α ε) (history : List (Operation κ α))
    (program : Program κ α ε δ β) :
    Action.after (program.run keys) (Table.perform keys history {}) =
      Table.perform keys
        (history ++ program.calls keys (Table.perform keys history {})) {} := by
  obtain ⟨starts, hsavepoints⟩ := exists_savepoints keys history
  rw [program.after_run keys hsavepoints, Table.perform_append]

namespace Answers

theorem lt_length (h : Answers keys history position operation answer) :
    position < history.length :=
  (List.getElem?_eq_some_iff.mp h.getElem?).1

/-- What comes later changes nothing that was answered. -/
theorem append_iff (hposition : position < history.length) :
    Answers keys (history ++ more) position operation answer ↔
      Answers keys history position operation answer := by
  have hcall : (history ++ more)[position]? = history[position]? :=
    List.getElem?_append_left hposition
  have htable : tableAt keys (history ++ more) position = tableAt keys history position :=
    tableAt_append (Nat.le_of_lt hposition)
  constructor
  · rintro ⟨hget, hrun⟩
    exact ⟨hcall ▸ hget, htable ▸ hrun⟩
  · rintro ⟨hget, hrun⟩
    exact ⟨hcall ▸ hget, htable ▸ hrun⟩

theorem append (h : Answers keys history position operation answer) :
    Answers keys (history ++ more) position operation answer :=
  (append_iff h.lt_length).mpr h

/-- The last call of a history is made in the table that the others lead to. -/
theorem last_iff : Answers keys (history ++ [last]) history.length operation answer ↔
    last = operation ∧
      Action.outcome (operation.run keys) (Table.perform keys history {}) = .ok answer := by
  have hget : (history ++ [last])[history.length]? = some last := List.getElem?_concat_length
  have htable : tableAt keys (history ++ [last]) history.length =
      Table.perform keys history {} := by rw [tableAt_append (Nat.le_refl _), tableAt_length]
  constructor
  · rintro ⟨hcall, hrun⟩
    exact ⟨Option.some.inj (hget.symm.trans hcall), htable ▸ hrun⟩
  · rintro ⟨rfl, hrun⟩
    exact ⟨hget, htable.symm ▸ hrun⟩

theorem snoc_iff : Answers keys (history ++ [last]) position operation answer ↔
    Answers keys history position operation answer ∨
      position = history.length ∧ last = operation ∧
        Action.outcome (operation.run keys) (Table.perform keys history {}) = .ok answer := by
  constructor
  · intro h
    have hle := h.lt_length
    rw [List.length_append, List.length_singleton] at hle
    rcases Nat.lt_succ_iff_lt_or_eq.mp hle with hlt | rfl
    · exact .inl ((append_iff hlt).mp h)
    · exact .inr ⟨rfl, last_iff.mp h⟩
  · rintro (h | ⟨rfl, h⟩)
    · exact h.append
    · exact last_iff.mpr h

end Answers

/-- Handles are numbered in the order in which snapshots are opened. -/
theorem nextId_perform (keys : KeyScheme κ α ε) (history : List (Operation κ α)) :
    (Table.perform keys history {}).journal.nextId =
      history.countP Operation.opensSnapshot + 1 := by
  induction history using List.reverseRecOn with
  | nil => rfl
  | append_singleton history last ih =>
    obtain ⟨starts, hsavepoints⟩ := exists_savepoints keys history
    rw [Table.perform_append, List.countP_append, List.countP_singleton, Table.perform,
      Table.perform, hsavepoints.nextId_run, ih, Nat.add_right_comm]

theorem nextId_tableAt_le {later : Nat} (h : position ≤ later) :
    (tableAt keys history position).journal.nextId ≤
      (tableAt keys history later).journal.nextId := by
  have htaken : (history.take position).Sublist (history.take later) :=
    List.take_sublist_take_left h
  rw [tableAt, tableAt, nextId_perform, nextId_perform]
  exact Nat.add_le_add_right htaken.countP_le 1

theorem opens_iff : Opens keys history position handle ↔
    history[position]? = some .snapshot ∧
      handle.id = (tableAt keys history position).journal.nextId := by
  obtain ⟨id⟩ := handle
  constructor
  · rintro ⟨hcall, hrun⟩
    refine ⟨hcall, ?_⟩
    rw [Operation.run, Action.outcome_map,
      Action.outcome_of_ok (Table.snapshot_eq (tableAt keys history position))] at hrun
    cases hrun
    rfl
  · rintro ⟨hcall, rfl⟩
    refine ⟨hcall, ?_⟩
    rw [Operation.run, Action.outcome_map,
      Action.outcome_of_ok (Table.snapshot_eq (tableAt keys history position))]
    rfl

theorem Opens.id_eq (h : Opens keys history position handle) :
    handle.id = (tableAt keys history position).journal.nextId :=
  (opens_iff.mp h).2

/-- A call gives one handle. -/
theorem Opens.handle_eq {other : Snapshot} (h : Opens keys history position handle)
    (hother : Opens keys history position other) : other = handle := by
  obtain ⟨id⟩ := handle
  obtain ⟨otherId⟩ := other
  exact congrArg _ (hother.id_eq.trans h.id_eq.symm)

theorem Opens.append (h : Opens keys history position handle) :
    Opens keys (history ++ more) position handle :=
  Answers.append h

/-- The number of a snapshot tells how many were opened before it. -/
theorem opens_iff_countP : Opens keys history position handle ↔
    history[position]? = some .snapshot ∧
      handle.id = (history.take position).countP Operation.opensSnapshot + 1 := by
  rw [opens_iff, tableAt, nextId_perform]

theorem Opens.id_lt_nextId {later : Nat} (h : Opens keys history position handle)
    (hlt : position < later) : handle.id < (tableAt keys history later).journal.nextId := by
  have hnext : (tableAt keys history (position + 1)).journal.nextId = handle.id + 1 := by
    rw [tableAt_succ h.getElem?, h.id_eq]
    rfl
  have hle : (tableAt keys history (position + 1)).journal.nextId ≤
      (tableAt keys history later).journal.nextId := nextId_tableAt_le hlt
  rwa [hnext] at hle

/-- A snapshot that is opened later has a greater number. -/
theorem Opens.id_lt {earlier later : Nat} {first second : Snapshot}
    (hfirst : Opens keys history earlier first) (hsecond : Opens keys history later second)
    (hlt : earlier < later) : first.id < second.id :=
  hsecond.id_eq ▸ hfirst.id_lt_nextId hlt

/-- Fewer than `2 ^ 32 - 1` snapshots do not use up the words of 32 bits. -/
theorem ids_lt_size (hcount : history.countP Operation.opensSnapshot < UInt32.size - 1) :
    (Table.perform keys history {}).journal.nextId < UInt32.size ∧
      ∀ position handle, Opens keys history position handle → handle.id < UInt32.size := by
  have hnext : (Table.perform keys history {}).journal.nextId < UInt32.size := by
    rw [nextId_perform]
    omega
  refine ⟨hnext, fun position handle hopens => Nat.lt_trans ?_ hnext⟩
  have hless := hopens.id_lt_nextId hopens.lt_length
  rwa [tableAt_length] at hless

/-- No handle is given twice. -/
theorem Opens.unique {other : Nat} (h : Opens keys history position handle)
    (hother : Opens keys history other handle) : position = other := by
  rcases Nat.lt_trichotomy position other with hlt | heq | hlt
  · exact absurd (h.id_lt hother hlt) (Nat.lt_irrefl _)
  · exact heq
  · exact absurd (hother.id_lt h hlt) (Nat.lt_irrefl _)

/-- Whether a call that follows a history closes a snapshot. -/
def WillClose (keys : KeyScheme κ α ε) (history : List (Operation κ α))
    (operation : Operation κ α) (handle : Snapshot) : Prop :=
  (operation = .commit handle ∨ operation = .rollback handle) ∧
    (Table.perform keys history {}).journal.innermost? = some handle.id

theorem WillClose.ne_snapshot (h : WillClose keys history operation handle) :
    operation ≠ .snapshot := by
  rintro rfl
  rcases h.1 with hcall | hcall <;> cases hcall

theorem closes_snoc_iff : Closes keys (history ++ [last]) position handle ↔
    Closes keys history position handle ∨
      position = history.length ∧ WillClose keys history last handle := by
  obtain ⟨starts, hsavepoints⟩ := exists_savepoints keys history
  rw [Closes, Closes, WillClose, Answers.snoc_iff, Answers.snoc_iff,
    hsavepoints.outcome_commit keys, hsavepoints.outcome_rollback keys]
  constructor
  · rintro ((h | ⟨rfl, h, hinnermost⟩) | (h | ⟨rfl, h, hinnermost⟩))
    · exact .inl (.inl h)
    · exact .inr ⟨rfl, .inl h, hinnermost⟩
    · exact .inl (.inr h)
    · exact .inr ⟨rfl, .inr h, hinnermost⟩
  · rintro ((h | h) | ⟨rfl, h | h, hinnermost⟩)
    · exact .inl (.inl h)
    · exact .inr (.inl h)
    · exact .inl (.inr ⟨rfl, h, hinnermost⟩)
    · exact .inr (.inr ⟨rfl, h, hinnermost⟩)

theorem Closes.append (h : Closes keys history position handle) :
    Closes keys (history ++ more) position handle :=
  h.imp Answers.append Answers.append

theorem Closes.lt_length (h : Closes keys history position handle) : position < history.length :=
  h.elim Answers.lt_length Answers.lt_length

/-- The snapshots that are open after a call are those that were open before and
    that it does not close, and the one that it opens. -/
theorem staysOpen_snoc_iff : StaysOpen keys (history ++ [last]) position handle ↔
    StaysOpen keys history position handle ∧ ¬ WillClose keys history last handle ∨
      position = history.length ∧ last = .snapshot ∧
        handle.id = (Table.perform keys history {}).journal.nextId := by
  constructor
  · rintro ⟨hopens, hstays⟩
    rcases Answers.snoc_iff.mp hopens with hbefore | ⟨rfl, hlast, -⟩
    · refine .inl ⟨⟨hbefore, fun later hlater hcloses => ?_⟩, fun hcloses => ?_⟩
      · exact hstays later hlater (closes_snoc_iff.mpr (.inl hcloses))
      · exact hstays _ hbefore.lt_length (closes_snoc_iff.mpr (.inr ⟨rfl, hcloses⟩))
    · refine .inr ⟨rfl, hlast, ?_⟩
      rw [hopens.id_eq, tableAt_append (Nat.le_refl _), tableAt_length]
  · rintro (⟨⟨hopens, hstays⟩, hnot⟩ | ⟨rfl, rfl, hid⟩)
    · refine ⟨hopens.append, fun later hlater hcloses => ?_⟩
      rcases closes_snoc_iff.mp hcloses with hbefore | ⟨-, hlast⟩
      · exact hstays later hlater hbefore
      · exact hnot hlast
    · refine ⟨opens_iff.mpr ⟨List.getElem?_concat_length, ?_⟩, fun later hlater hcloses => ?_⟩
      · rw [tableAt_append (Nat.le_refl _), tableAt_length, hid]
      · have hlt := hcloses.lt_length
        rw [List.length_append, List.length_singleton] at hlt
        exact absurd (Nat.lt_succ_iff.mp hlt) (Nat.not_le.mpr hlater)

theorem StaysOpen.of_snoc (h : StaysOpen keys (history ++ [last]) position handle)
    (hcall : last ≠ .snapshot) : StaysOpen keys history position handle := by
  rcases staysOpen_snoc_iff.mp h with ⟨hbefore, -⟩ | ⟨-, hsnapshot, -⟩
  · exact hbefore
  · exact absurd hsnapshot hcall

end History

end Unification
