import Unification.Error
import Unification.Failure
import Unification.Journal
import Unification.Keys

namespace Unification

/-- A forest of nodes whose trees are the classes, with the journal that makes
    every change undoable while a snapshot is open. -/
structure Table (α : Type) where
  nodes : Array (Node α) := #[]
  journal : Journal α := {}
  deriving DecidableEq

/-- Actions on a table. A refusal keeps the state that it finds, as it must:
    the paths that a refused call has shortened stay short. -/
abbrev TableM (α δ : Type) := EStateM (Failure δ) (Table α)

namespace Table

variable {κ α ε δ : Type}

/-- Indices are words of 32 bits, and the largest of them stays free. -/
def maxKeys : Nat := UInt32.size - 1

/-- The most bytes that can be reserved in one piece. -/
def maxBytes : Nat := UInt64.size / 2 - 1

/-- The number of keys, which is the number of nodes. -/
def size (table : Table α) : Nat :=
  table.nodes.size

def isEmpty (table : Table α) : Bool :=
  table.nodes.isEmpty

/-- Reads a node. No index out of bounds has one. -/
def nodeAt (index : Nat) : TableM α δ (Node α) := do
  match (← get).nodes[index]? with
  | some node => pure node
  | none => Failure.raise .indexOutOfBounds

/-- Journals a node ahead of a write. Outside of any snapshot nothing is read,
    so that an index out of bounds goes unnoticed. -/
def record (index : Nat) : TableM α δ Unit := do
  if (← get).journal.inSnapshot then
    let old ← nodeAt index
    modify fun table => { table with journal := table.journal.push (.overwritten index old) }

/-- Writes a node, whose former state is journaled first. -/
def update (index : Nat) (change : Node α → Node α) : TableM α δ Unit := do
  record index
  let node ← nodeAt index
  modify fun table => { table with nodes := table.nodes.setIfInBounds index (change node) }

/-- Whether a number of nodes fits into memory in one piece: a piece can be that
    large, and the allocator has one. -/
def hasRoom (payload : Payload α ε) (count : Nat) : Bool :=
  count * payload.nodeBytes ≤ maxBytes && payload.grants count

/-- An empty table with room for a number of keys. -/
def withCapacity (payload : Payload α ε) (capacity : Nat) : Except (TableError ε) (Table α) :=
  if hasRoom payload capacity then .ok {} else .error .outOfMemory

/-- Finds room for more nodes. Without it the table stays as it is. -/
def reserve (payload : Payload α ε) (count : Nat) : TableM α (TableError ε) Unit := do
  unless hasRoom payload ((← get).size + count) do
    Failure.refuse .outOfMemory

/-- Appends a node of a class of its own. -/
def push (payload : Payload α ε) (value : α) : TableM α (TableError ε) Nat := do
  let index := (← get).size
  if maxKeys ≤ index then
    Failure.refuse (.keySpaceExhausted index)
  reserve payload 1
  modify fun table =>
    { nodes := table.nodes.push (.singleton index value)
      journal := table.journal.record (.appended index) }
  pure index

/-- Undoes a change. The newest append is undone by taking away the last node,
    whatever its entry says. -/
def undo : Entry α → TableM α δ Unit
  | .appended _ => modify fun table => { table with nodes := table.nodes.pop }
  | .overwritten index old => do
    let _ ← nodeAt index
    modify fun table => { table with nodes := table.nodes.setIfInBounds index old }

/-- The inspection text of a table of keys with a tag. -/
def outline (tag : String) (table : Table α) : Outline :=
  .group (.partialRecord "UnificationTable")
    [.field "tag" (Unification.outline tag), .field "len" (Unification.outline table.size),
      .field "snapshot_depth" (Unification.outline table.journal.depth)]

/-- The inspection text of the nodes alone. What room they have is not shown. -/
def storeOutline (table : Table α) : Outline :=
  .group (.record "VarStore")
    [.field "len" (Unification.outline table.size), .field "capacity" (.word "_")]

theorem get_eq (table : Table α) : (get : TableM α δ (Table α)) table = .ok table table :=
  rfl

theorem nodeAt_of_some {table : Table α} {index : Nat} {node : Node α}
    (hnode : table.nodes[index]? = some node) :
    (nodeAt index : TableM α δ (Node α)) table = .ok node table := by
  simp only [nodeAt, bind, EStateM.bind, get_eq, hnode]
  rfl

/-- Reading out of bounds is the fault that no table is to reach. -/
theorem nodeAt_of_none {table : Table α} {index : Nat} (hnode : table.nodes[index]? = none) :
    (nodeAt index : TableM α δ (Node α)) table = .error (.fault .indexOutOfBounds) table := by
  simp only [nodeAt, bind, EStateM.bind, get_eq, hnode]
  rfl

theorem nodeAt_eq_ok {table left : Table α} {index : Nat} {node : Node α}
    (h : (nodeAt index : TableM α δ (Node α)) table = .ok node left) :
    left = table ∧ table.nodes[index]? = some node := by
  cases hread : table.nodes[index]? with
  | some found =>
    rw [nodeAt_of_some hread] at h
    cases h
    exact ⟨rfl, rfl⟩
  | none =>
    rw [nodeAt_of_none hread] at h
    cases h

theorem record_of_some {table : Table α} {index : Nat} {node : Node α}
    (hnode : table.nodes[index]? = some node) :
    (record index : TableM α δ Unit) table =
      .ok () { table with journal := table.journal.record (.overwritten index node) } := by
  by_cases hsnapshot : table.journal.inSnapshot
  · simp only [record, Journal.record, hsnapshot, if_true, bind, EStateM.bind, get_eq,
      nodeAt_of_some hnode]
    rfl
  · simp only [record, Journal.record, hsnapshot, bind, EStateM.bind, get_eq]
    rfl

/-- A write within bounds changes one node, and journals what it held if a
    snapshot is open. -/
theorem update_of_some {table : Table α} {index : Nat} {node : Node α}
    (hnode : table.nodes[index]? = some node) (change : Node α → Node α) :
    (update index change : TableM α δ Unit) table =
      .ok ()
        { nodes := table.nodes.setIfInBounds index (change node)
          journal := table.journal.record (.overwritten index node) } := by
  have hread : (nodeAt index : TableM α δ (Node α))
      { table with journal := table.journal.record (.overwritten index node) } =
      .ok node { table with journal := table.journal.record (.overwritten index node) } :=
    nodeAt_of_some hnode
  simp only [update, bind, EStateM.bind, record_of_some hnode, hread]
  rfl

/-- Writing out of bounds is the same fault, whether the write is journaled or not. -/
theorem update_of_none {table : Table α} {index : Nat} (hnode : table.nodes[index]? = none)
    (change : Node α → Node α) :
    (update index change : TableM α δ Unit) table = .error (.fault .indexOutOfBounds) table := by
  by_cases hsnapshot : table.journal.inSnapshot
  · simp only [update, record, hsnapshot, if_true, bind, EStateM.bind, get_eq, nodeAt_of_none hnode]
  · have hrecord : (record index : TableM α δ Unit) table = .ok () table := by
      simp only [record, hsnapshot, bind, EStateM.bind, get_eq]
      rfl
    simp only [update, bind, EStateM.bind, hrecord, nodeAt_of_none hnode]

end Table

end Unification
