import Unification.Proofs.Snapshot.Savepoints

namespace Unification

variable {κ α ε δ β : Type}

/-- What a run of calls shows: the reply to each call, with the nodes and the
    open snapshots after it. -/
def Table.observations (keys : KeyScheme κ α ε) (operations : List (Operation κ α))
    (table : Table α) :
    List (Except Fault (Except (TableError ε) (TableAnswer κ α)) × Array (Node α) × List Nat) :=
  (Session.transcript (operations.map fun operation => Failure.attempt (operation.run keys))
    table).map fun (reply, left) => (reply, left.nodes, left.journal.openIds)

/-- A machine that never journals. It takes a full copy of its nodes when a
    snapshot is opened, and puts that copy back to roll the snapshot back. The
    copies stand innermost first, each with the number of its snapshot. -/
structure CopyMachine (α : Type) where
  nodes : Array (Node α) := #[]
  copies : List (Nat × Array (Node α)) := []
  nextId : Nat := 1

/-- Actions on a machine with copies. -/
abbrev CopyM (α δ : Type) := EStateM (Failure δ) (CopyMachine α)

namespace CopyMachine

/-- What an action does to nodes without a journal. -/
def onNodes (action : TableM α δ β) : CopyM α δ β := fun machine =>
  let plain : Table α := { nodes := machine.nodes }
  Action.ending (Action.outcome action plain)
    { machine with nodes := (Action.after action plain).nodes }

def mismatch (handle : Snapshot) : CopyM α (TableError ε) β := do
  Failure.refuse (.snapshotMismatch handle.id ((← get).copies.head?.map (·.1)))

def snapshot : CopyM α δ Snapshot :=
  modifyGet fun machine =>
    ({ id := machine.nextId },
      { machine with
        copies := (machine.nextId, machine.nodes) :: machine.copies
        nextId := machine.nextId + 1 })

/-- Drops the innermost copy and keeps the nodes. -/
def commit (handle : Snapshot) : CopyM α (TableError ε) Unit := do
  match (← get).copies with
  | [] => mismatch handle
  | (id, _) :: outer =>
    if id = handle.id then modify fun machine => { machine with copies := outer }
    else mismatch handle

/-- Puts the innermost copy in the place of the nodes. -/
def rollback (handle : Snapshot) : CopyM α (TableError ε) Unit := do
  match (← get).copies with
  | [] => mismatch handle
  | (id, nodes) :: outer =>
    if id = handle.id then modify fun machine => { machine with nodes, copies := outer }
    else mismatch handle

/-- The keys of the nodes that a copy does not have yet. -/
def newKeysSince (keys : KeyScheme κ α ε) (handle : Snapshot) :
    CopyM α (TableError ε) (List κ) := do
  let machine ← get
  match machine.copies.find? (·.1 == handle.id) with
  | none => mismatch handle
  | some (_, nodes) =>
    if Table.maxKeys < nodes.size ∨ Table.maxKeys < machine.nodes.size then
      Failure.refuse (.keySpaceExhausted machine.nodes.size)
    pure ((List.range' nodes.size (machine.nodes.size - nodes.size)).map keys.ofIndex)

/-- The calls on a machine with copies. Those that close no snapshot and open
    none do to its nodes what they do to the nodes of a table. -/
def run (keys : KeyScheme κ α ε) : Operation κ α → CopyM α (TableError ε) (TableAnswer κ α)
  | .snapshot => .handle <$> snapshot
  | .commit handle => (fun _ => .done) <$> commit handle
  | .rollback handle => (fun _ => .done) <$> rollback handle
  | .newKeysSince handle => .keys <$> newKeysSince keys handle
  | operation => onNodes (operation.run keys)

/-- The numbers of the open snapshots, innermost first. -/
def openIds (machine : CopyMachine α) : List Nat :=
  machine.copies.map (·.1)

/-- What a run of calls shows: the reply to each call, with the nodes and the
    open snapshots after it. -/
def observations (keys : KeyScheme κ α ε) (operations : List (Operation κ α))
    (machine : CopyMachine α) :
    List (Except Fault (Except (TableError ε) (TableAnswer κ α)) × Array (Node α) × List Nat) :=
  (Session.transcript (operations.map fun operation => Failure.attempt (run keys operation))
    machine).map fun (reply, left) => (reply, left.nodes, left.openIds)

/-- The machine after calls, one after the other, whatever each of them ends with. -/
def perform (keys : KeyScheme κ α ε) : List (Operation κ α) → CopyMachine α → CopyMachine α
  | [], machine => machine
  | operation :: rest, machine => perform keys rest (Action.after (run keys operation) machine)

/-- A machine with the nodes and the open snapshots of a table, whose copies are
    the nodes of the tables in which the snapshots were opened. -/
structure Mirrors (machine : CopyMachine α) (table : Table α) (starts : List (Table α)) :
    Prop where
  nodes : machine.nodes = table.nodes
  nextId : machine.nextId = table.journal.nextId
  copies : machine.copies = starts.map fun start => (start.journal.nextId, start.nodes)
  savepoints : Savepoints table starts

theorem run_of_plain (keys : KeyScheme κ α ε) {operation : Operation κ α}
    (hplain : operation.isPlain) : run keys operation = onNodes (operation.run keys) := by
  cases operation <;> first | rfl | cases hplain

theorem after_onNodes (action : TableM α δ β) (machine : CopyMachine α) :
    Action.after (onNodes action) machine =
      { machine with nodes := (Action.after action { nodes := machine.nodes }).nodes } :=
  Action.after_of_eq_ending rfl

theorem mismatch_eq (handle : Snapshot) (machine : CopyMachine α) :
    (mismatch handle : CopyM α (TableError ε) β) machine =
      .error (.refused (.snapshotMismatch handle.id (machine.copies.head?.map (·.1)))) machine :=
  rfl

theorem commit_of_ne {machine : CopyMachine α} {handle : Snapshot}
    (hinnermost : machine.copies.head?.map (·.1) ≠ some handle.id) :
    (commit handle : CopyM α (TableError ε) Unit) machine = mismatch handle machine := by
  rw [commit, Action.get_bind]
  cases hcopies : machine.copies with
  | nil => rfl
  | cons copy outer =>
    have hid : copy.1 ≠ handle.id := by simpa [hcopies] using hinnermost
    simp only [hid, if_false]

theorem rollback_of_ne {machine : CopyMachine α} {handle : Snapshot}
    (hinnermost : machine.copies.head?.map (·.1) ≠ some handle.id) :
    (rollback handle : CopyM α (TableError ε) Unit) machine = mismatch handle machine := by
  rw [rollback, Action.get_bind]
  cases hcopies : machine.copies with
  | nil => rfl
  | cons copy outer =>
    have hid : copy.1 ≠ handle.id := by simpa [hcopies] using hinnermost
    simp only [hid, if_false]

theorem commit_of_cons {machine : CopyMachine α} {id : Nat} {nodes : Array (Node α)}
    {outer : List (Nat × Array (Node α))} (hcopies : machine.copies = (id, nodes) :: outer) :
    (commit { id } : CopyM α (TableError ε) Unit) machine =
      .ok () { machine with copies := outer } := by
  rw [commit, Action.get_bind, hcopies]
  simp only [if_true]
  rfl

theorem rollback_of_cons {machine : CopyMachine α} {id : Nat} {nodes : Array (Node α)}
    {outer : List (Nat × Array (Node α))} (hcopies : machine.copies = (id, nodes) :: outer) :
    (rollback { id } : CopyM α (TableError ε) Unit) machine =
      .ok () { machine with nodes, copies := outer } := by
  rw [rollback, Action.get_bind, hcopies]
  simp only [if_true]
  rfl

theorem newKeysSince_eq (keys : KeyScheme κ α ε) (handle : Snapshot) (machine : CopyMachine α) :
    newKeysSince keys handle machine =
      Action.ending
        (match (machine.copies.find? (·.1 == handle.id)).map (·.2.size) with
          | none =>
            .error (.refused (.snapshotMismatch handle.id (machine.copies.head?.map (·.1))))
          | some start =>
            if Table.maxKeys < start ∨ Table.maxKeys < machine.nodes.size then
              .error (.refused (.keySpaceExhausted machine.nodes.size))
            else .ok ((List.range' start (machine.nodes.size - start)).map keys.ofIndex))
        machine := by
  rw [newKeysSince, Action.get_bind]
  cases machine.copies.find? (·.1 == handle.id) with
  | none => rfl
  | some copy =>
    by_cases hfull : Table.maxKeys < copy.2.size ∨ Table.maxKeys < machine.nodes.size
    · simp only [hfull, if_true, Option.map_some]
      rfl
    · simp only [hfull, if_false, Option.map_some]
      rfl

namespace Mirrors

variable {machine : CopyMachine α} {table : Table α} {starts : List (Table α)}

theorem empty : Mirrors ({} : CopyMachine α) {} [] where
  nodes := rfl
  nextId := rfl
  copies := rfl
  savepoints := .nil rfl

theorem head?_copies (h : Mirrors machine table starts) :
    machine.copies.head?.map (·.1) = table.journal.innermost? := by
  rw [h.copies, h.savepoints.innermost?_eq]
  cases starts <;> rfl

end Mirrors

/-- An action on the machine and one on the table end with the same, and leave
    a machine that mirrors the table. -/
structure Agree (machine : CopyMachine α) (other : CopyM α δ β) (table : Table α)
    (action : TableM α δ β) (starts : List (Table α)) : Prop where
  outcome : Action.outcome other machine = Action.outcome action table
  mirrors : Mirrors (Action.after other machine) (Action.after action table) starts

namespace Agree

variable {machine left : CopyMachine α} {other : CopyM α δ β} {table leftTable : Table α}
  {action : TableM α δ β} {starts : List (Table α)}

theorem of_eq_ending (outcome : Except (Failure δ) β)
    (hmachine : other machine = Action.ending outcome left)
    (htable : action table = Action.ending outcome leftTable) (h : Mirrors left leftTable starts) :
    Agree machine other table action starts where
  outcome := by rw [Action.outcome_of_eq_ending hmachine, Action.outcome_of_eq_ending htable]
  mirrors := by rwa [Action.after_of_eq_ending hmachine, Action.after_of_eq_ending htable]

theorem map {γ : Type} (h : Agree machine other table action starts) (f : β → γ) :
    Agree machine (f <$> other) table (f <$> action) starts where
  outcome := by rw [Action.outcome_map, Action.outcome_map, h.outcome]
  mirrors := by
    rw [Action.after_map, Action.after_map]
    exact h.mirrors

end Agree

namespace Mirrors

variable {machine : CopyMachine α} {table : Table α} {starts : List (Table α)}

/-- What the calls about keys do does not depend on the journal. -/
theorem onNodes {action : TableM α δ β} (h : Mirrors machine table starts)
    (haction : Journaled action) :
    Agree machine (CopyMachine.onNodes action) table action starts := by
  obtain ⟨hleft, hnext⟩ := h.savepoints.after_of_journaled haction
  obtain ⟨nodes, journal⟩ := table
  obtain ⟨outcome, changed, entries, -, hrun⟩ := haction nodes
  rw [Action.after_of_eq_ending (hrun journal)] at hleft hnext
  have hmachine : CopyMachine.onNodes action machine =
      Action.ending outcome { machine with nodes := changed } := by
    rw [CopyMachine.onNodes, h.nodes]
    simp only [Action.outcome_of_eq_ending (hrun {}), Action.after_of_eq_ending (hrun {})]
  exact .of_eq_ending _ hmachine (hrun journal) ⟨rfl, h.nextId.trans hnext.symm, h.copies, hleft⟩

theorem snapshot (h : Mirrors machine table starts) :
    Agree machine CopyMachine.snapshot table (Table.snapshot : TableM α δ Snapshot)
      (table :: starts) := by
  have hmachine : (CopyMachine.snapshot : CopyM α δ Snapshot) machine =
      .ok { id := table.journal.nextId }
        { machine with
          copies := (table.journal.nextId, table.nodes) :: machine.copies
          nextId := table.journal.nextId + 1 } := by
    rw [← h.nextId, ← h.nodes]
    rfl
  refine .of_eq_ending (.ok _) hmachine (Table.snapshot_eq table)
    ⟨h.nodes, rfl, ?_, h.savepoints.opened⟩
  simp [h.copies]

theorem commit (h : Mirrors machine table starts) (handle : Snapshot) :
    Agree machine (CopyMachine.commit (ε := ε) handle) table (Table.commit handle)
      (if table.journal.innermost? = some handle.id then starts.tail else starts) := by
  split
  next hinnermost =>
    obtain ⟨start, rest, rfl, rfl⟩ := h.savepoints.exists_cons hinnermost
    obtain ⟨journal, hcommit, -, hnext, hrest⟩ := h.savepoints.commit?_eq
    exact .of_eq_ending (.ok ()) (CopyMachine.commit_of_cons h.copies)
      (Table.commit_of_some hcommit) ⟨h.nodes, h.nextId.trans hnext.symm, rfl, hrest⟩
  next hinnermost =>
    have hmachine := CopyMachine.commit_of_ne (ε := ε) (h.head?_copies ▸ hinnermost)
    rw [CopyMachine.mismatch_eq, h.head?_copies] at hmachine
    exact .of_eq_ending (.error _) hmachine (Table.commit_of_ne hinnermost) h

theorem rollback (h : Mirrors machine table starts) (handle : Snapshot) :
    Agree machine (CopyMachine.rollback (ε := ε) handle) table (Table.rollback handle)
      (if table.journal.innermost? = some handle.id then starts.tail else starts) := by
  split
  next hinnermost =>
    obtain ⟨start, rest, rfl, rfl⟩ := h.savepoints.exists_cons hinnermost
    exact .of_eq_ending (.ok ()) (CopyMachine.rollback_of_cons h.copies)
      (Table.rollback_of_tryRollback h.savepoints.tryRollback_eq)
      ⟨rfl, h.nextId, rfl, h.savepoints.rolledBack⟩
  next hinnermost =>
    have hmachine := CopyMachine.rollback_of_ne (ε := ε) (h.head?_copies ▸ hinnermost)
    rw [CopyMachine.mismatch_eq, h.head?_copies] at hmachine
    exact .of_eq_ending (.error _) hmachine (Table.rollback_of_ne hinnermost) h

theorem newKeysSince (keys : KeyScheme κ α ε) (h : Mirrors machine table starts)
    (handle : Snapshot) :
    Agree machine (CopyMachine.newKeysSince keys handle) table (Table.newKeysSince keys handle)
      starts := by
  have hcount : (machine.copies.find? (·.1 == handle.id)).map (·.2.size) =
      table.journal.count? handle := by
    rw [h.savepoints.count?_eq, h.copies, List.find?_map, Option.map_map]
    rfl
  have hmachine := CopyMachine.newKeysSince_eq keys handle machine
  rw [hcount, h.head?_copies, h.nodes] at hmachine
  exact .of_eq_ending _ hmachine (Table.newKeysSince_eq keys handle table) h

/-- Every call is refused on both sides or on none, with the same answer. -/
theorem run (keys : KeyScheme κ α ε) (operation : Operation κ α)
    (h : Mirrors machine table starts) :
    Agree machine (CopyMachine.run keys operation) table (operation.run keys)
      (operation.savepoints table starts) := by
  by_cases hplain : operation.isPlain
  · rw [run_of_plain keys hplain, Operation.savepoints_of_plain hplain]
    exact h.onNodes (operation.journaled keys hplain)
  · cases operation with
    | snapshot => exact h.snapshot.map _
    | commit handle => exact (h.commit handle).map _
    | rollback handle => exact (h.rollback handle).map _
    | newKeysSince handle => exact (h.newKeysSince keys handle).map _
    | _ => exact absurd rfl hplain

/-- Calls made one after the other on both sides stay in step. -/
theorem perform (keys : KeyScheme κ α ε) (operations : List (Operation κ α))
    (h : Mirrors machine table starts) :
    ∃ starts', Mirrors (CopyMachine.perform keys operations machine)
      (Table.perform keys operations table) starts' := by
  induction operations generalizing machine table starts with
  | nil => exact ⟨starts, h⟩
  | cons operation rest ih => exact ih (h.run keys operation).mirrors

theorem openIds_eq (h : Mirrors machine table starts) :
    machine.openIds = table.journal.openIds := by
  rw [openIds, h.copies, h.savepoints.openIds_eq, List.map_map]
  rfl

theorem observations_eq (keys : KeyScheme κ α ε) (operations : List (Operation κ α))
    (h : Mirrors machine table starts) :
    observations keys operations machine = Table.observations keys operations table := by
  unfold observations Table.observations
  induction operations generalizing machine table starts with
  | nil => rfl
  | cons operation rest ih =>
    have hcall := h.run keys operation
    simp only [List.map_cons, Session.transcript_cons, Action.outcome_attempt,
      Action.after_attempt, hcall.outcome, hcall.mirrors.nodes, hcall.mirrors.openIds_eq,
      ih hcall.mirrors]

end Mirrors

/-- Undoing a journal does what restoring a full copy does. Over calls of every
    kind, in any order and with any handles, a table and a machine that copies
    its nodes give the same replies, and agree after each call on all nodes,
    those that are no roots included, and on the open snapshots. -/
theorem observations_eq_table (keys : KeyScheme κ α ε) (operations : List (Operation κ α)) :
    observations keys operations {} = Table.observations keys operations {} :=
  Mirrors.empty.observations_eq keys operations

end CopyMachine

end Unification
