import Unification.Outline

namespace Unification

/-- The coarse classes of the errors of a table. -/
inductive ErrorKind where
  | invalidArgument
  | outOfMemory
  | mergeConflict
  | snapshotMismatch
  deriving DecidableEq

def ErrorKind.name : ErrorKind → String
  | invalidArgument => "InvalidArgument"
  | outOfMemory => "OutOfMemory"
  | mergeConflict => "MergeConflict"
  | snapshotMismatch => "SnapshotMismatch"

/-- Why a table refuses a call. `ε` is the reason for which two values of the
    table cannot be merged. -/
inductive TableError (ε : Type) where
  /-- The table has handed out no key with this index. -/
  | unknownKey (tag : String) (index len : Nat)
  /-- The root order of the keys nominated a pair other than the two roots. -/
  | invalidRootOrder (tag : String) (newRoot redirected a b : Nat)
  /-- There is no room for more nodes. -/
  | outOfMemory
  /-- All indices are in use. -/
  | keySpaceExhausted (len : Nat)
  /-- The values of two classes contradict each other. -/
  | mergeConflict (conflict : ε)
  /-- The snapshot is not the innermost one that is open. -/
  | snapshotMismatch (found : Nat) (innermost : Option Nat)
  deriving DecidableEq

namespace TableError

variable {ε : Type}

def kind : TableError ε → ErrorKind
  | unknownKey .. | invalidRootOrder .. => .invalidArgument
  | outOfMemory | keySpaceExhausted _ => .outOfMemory
  | mergeConflict _ => .mergeConflict
  | snapshotMismatch .. => .snapshotMismatch

/-- The name of the cause, which is finer than the kind. -/
def name : TableError ε → String
  | unknownKey .. => "UnknownKey"
  | invalidRootOrder .. => "InvalidRootOrder"
  | outOfMemory => "OutOfMemory"
  | keySpaceExhausted _ => "KeySpaceExhausted"
  | mergeConflict _ => "MergeConflict"
  | snapshotMismatch .. => "SnapshotMismatch"

def message [ToString ε] : TableError ε → String
  | unknownKey tag index len =>
    s!"{tag} key with index {index} is out of bounds for a table of {len} keys"
  | invalidRootOrder tag newRoot redirected a b =>
    s!"root ordering for {tag} keys nominated {newRoot} <- {redirected}, " ++
      s!"expected the pair \x7b{a}, {b}\x7d"
  | outOfMemory => "out of memory while growing the unification table"
  | keySpaceExhausted len => s!"key space exhausted: the table already holds {len} keys"
  | mergeConflict conflict => s!"values could not be merged: {conflict}"
  | snapshotMismatch found innermost =>
    s!"snapshot {found} is not the innermost open snapshot (innermost: " ++
      inspect innermost .line ++ ")"

/-- The reason of a merge conflict; no other error carries one. -/
def conflict? : TableError ε → Option ε
  | mergeConflict conflict => some conflict
  | _ => none

/-- Only a lack of memory is caused by an error of another layer. -/
def hasSource : TableError ε → Bool
  | outOfMemory => true
  | _ => false

theorem conflict?_eq_some_iff {error : TableError ε} {conflict : ε} :
    error.conflict? = some conflict ↔ error = mergeConflict conflict := by
  cases error <;> simp [conflict?]

theorem kind_eq_mergeConflict_iff {error : TableError ε} :
    error.kind = .mergeConflict ↔ ∃ conflict, error = mergeConflict conflict := by
  cases error <;> simp [kind]

instance [Inspect ε] : Inspect (TableError ε) where
  outline error :=
    match error with
    | unknownKey tag index len => .group (.record error.name)
      [.field "tag" (outline tag), .field "index" (outline index), .field "len" (outline len)]
    | invalidRootOrder tag newRoot redirected a b => .group (.record error.name)
      [.field "tag" (outline tag), .field "new_root" (outline newRoot),
        .field "redirected" (outline redirected), .field "a" (outline a), .field "b" (outline b)]
    | outOfMemory => .word error.name
    | keySpaceExhausted len => .group (.record error.name) [.field "len" (outline len)]
    | mergeConflict conflict => .group (.tuple error.name) [outline conflict]
    | snapshotMismatch found innermost => .group (.record error.name)
      [.field "found" (outline found), .field "innermost" (outline innermost)]

end TableError

end Unification
