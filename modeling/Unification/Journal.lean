import Unification.Node

namespace Unification

/-- A handle for an open snapshot. A journal numbers its snapshots 1, 2, 3, …
    and gives no number twice. -/
structure Snapshot where
  id : Nat
  deriving DecidableEq

/-- A change of the nodes, with what it takes to undo it. -/
inductive Entry (α : Type) where
  | appended (index : Nat)
  | overwritten (index : Nat) (old : Node α)
  deriving DecidableEq

/-- An open snapshot: its number, how many entries the journal had when it was
    opened, and how many nodes there were. -/
structure Frame where
  id : Nat
  mark : Nat
  count : Nat
  deriving DecidableEq

/-- The changes that open snapshots may want to undo, oldest first, and these
    snapshots, innermost first. The entries of a snapshot are those from its
    mark on, so that a snapshot owns the entries of those within it as well. -/
structure Journal (α : Type) where
  /-- The arena of the entries, taken to be a list: entries are appended to it, it
      is read by position, and it is cut off at a mark. -/
  entries : Array (Entry α) := #[]
  frames : List Frame := []
  /-- The number of the next snapshot. It is not bounded here: it stays a word of 32
      bits as long as fewer than `2 ^ 32 - 1` snapshots have been opened. -/
  nextId : Nat := 1
  deriving DecidableEq

namespace Journal

variable {α : Type}

def inSnapshot (journal : Journal α) : Bool :=
  !journal.frames.isEmpty

/-- The number of open snapshots. -/
def depth (journal : Journal α) : Nat :=
  journal.frames.length

/-- The number of the innermost open snapshot. -/
def innermost? (journal : Journal α) : Option Nat :=
  journal.frames.head?.map (·.id)

/-- The count of nodes with which a snapshot was opened, while it is open. -/
def count? (journal : Journal α) (snapshot : Snapshot) : Option Nat :=
  (journal.frames.find? (·.id == snapshot.id)).map (·.count)

def push (journal : Journal α) (entry : Entry α) : Journal α :=
  { journal with entries := journal.entries.push entry }

/-- Keeps an entry if there is a snapshot that may want to undo it. -/
def record (journal : Journal α) (entry : Entry α) : Journal α :=
  if journal.inSnapshot then journal.push entry else journal

/-- Opens a snapshot of `count` nodes, within those that are open. -/
def start (journal : Journal α) (count : Nat) : Snapshot × Journal α :=
  let frame : Frame := { id := journal.nextId, mark := journal.entries.size, count }
  ({ id := frame.id },
    { journal with frames := frame :: journal.frames, nextId := journal.nextId + 1 })

/-- Closes a snapshot without a decision on its entries. Only the innermost one
    can be closed. -/
def close? (journal : Journal α) (snapshot : Snapshot) : Option (Frame × Journal α) :=
  match journal.frames with
  | [] => none
  | frame :: outer =>
    if frame.id = snapshot.id then some (frame, { journal with frames := outer }) else none

/-- The entries from a mark on, newest first, as they have to be undone. -/
def since (journal : Journal α) (mark : Nat) : List (Entry α) :=
  (journal.entries.toList.drop mark).reverse

/-- Drops the entries from a mark on. -/
def truncate (journal : Journal α) (mark : Nat) : Journal α :=
  { journal with entries := journal.entries.take mark }

/-- Closes the innermost snapshot and keeps its changes. The entries stay for
    the enclosing snapshot; if there is none, nobody can undo them any more. -/
def commit? (journal : Journal α) (snapshot : Snapshot) : Option (Journal α) :=
  (journal.close? snapshot).map fun (frame, rest) =>
    if rest.inSnapshot then rest else rest.truncate frame.mark

/-- Closes the innermost snapshot and gives up its entries, in the order in
    which they are to be undone. -/
def rollback? (journal : Journal α) (snapshot : Snapshot) :
    Option (List (Entry α) × Journal α) :=
  (journal.close? snapshot).map fun (frame, rest) =>
    (rest.since frame.mark, rest.truncate frame.mark)

theorem inSnapshot_eq_false_iff {journal : Journal α} :
    journal.inSnapshot = false ↔ journal.frames = [] := by
  simp [inSnapshot]

/-- A snapshot can be closed only if it is the innermost one. -/
theorem close?_eq_none_iff {journal : Journal α} {snapshot : Snapshot} :
    journal.close? snapshot = none ↔ journal.innermost? ≠ some snapshot.id := by
  cases h : journal.frames with
  | nil => simp [close?, innermost?, h]
  | cons frame outer => by_cases hid : frame.id = snapshot.id <;> simp [close?, innermost?, h, hid]

/-- What a truncation drops is what the entries since its mark give back. -/
theorem truncate_append_since (journal : Journal α) (mark : Nat) :
    (journal.truncate mark).entries.toList ++ (journal.since mark).reverse =
      journal.entries.toList := by
  simp [truncate, since]

end Journal

instance : Inspect Snapshot where
  outline snapshot := .group (.record "Snapshot") [.field "id" (outline snapshot.id)]

instance {α : Type} [Inspect α] : Inspect (Entry α) where
  outline
    | .appended index => .group (.record "NewElem") [.field "index" (outline index)]
    | .overwritten index old => .group (.record "SetElem")
      [.field "index" (outline index), .field "old" (outline old)]

instance {α : Type} : Inspect (Journal α) where
  outline journal := .group (.partialRecord "UndoLog")
    [.field "len" (outline journal.entries.size), .field "depth" (outline journal.depth),
      .field "next_id" (outline journal.nextId)]

end Unification
