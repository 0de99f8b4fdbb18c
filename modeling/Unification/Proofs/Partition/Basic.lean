import Mathlib.Logic.Function.Basic
import Unification.Proofs.Program

namespace Unification

variable {κ α ε : Type}

/-- The classes as plain data: every index has a label, and every label that is
    in use has a value. The classes are the sets of indices with one label. -/
structure Partition (α : Type) where
  size : Nat := 0
  label : Nat → Nat := id
  value : Nat → Option α := fun _ => none

namespace Partition

/-- The value of the class of an index. -/
def valueAt (partition : Partition α) (index : Nat) : Option α :=
  partition.value (partition.label index)

/-- The next index, with a label that no other one has. -/
def newKey (partition : Partition α) (value : α) : Partition α where
  size := partition.size + 1
  label := Function.update partition.label partition.size partition.size
  value := Function.update partition.value partition.size (some value)

def setValue (partition : Partition α) (label : Nat) (value : α) : Partition α :=
  { partition with value := Function.update partition.value label (some value) }

/-- Gives all indices of the second label the first one, which gets a value. -/
def join (partition : Partition α) (first second : Nat) (value : α) : Partition α where
  size := partition.size
  label := fun index =>
    if partition.label index = second then first else partition.label index
  value := Function.update partition.value first (some value)

/-- Joins the classes of two indices. Only values of different classes are
    merged, that of the second into that of the first. -/
def union (partition : Partition α) (merge : α → α → Except ε α) (a b : Nat) :
    Except ε (Partition α) :=
  if partition.label a = partition.label b then .ok partition
  else
    match partition.valueAt a, partition.valueAt b with
    | some valueA, some valueB =>
      partition.join (partition.label a) (partition.label b) <$> merge valueA valueB
    | _, _ => .ok partition

/-- Merges a value into that of the class of an index. -/
def unionValue (partition : Partition α) (merge : α → α → Except ε α) (index : Nat) (value : α) :
    Except ε (Partition α) :=
  match partition.valueAt index with
  | some old => partition.setValue (partition.label index) <$> merge old value
  | none => .ok partition

/-- The partition after a call that was not refused. -/
def apply (keys : KeyScheme κ α ε) (partition : Partition α) : Operation κ α → Partition α
  | .newKey value => partition.newKey value
  | .union a b =>
    match partition.union keys.merge (keys.index a) (keys.index b) with
    | .ok joined => joined
    | .error _ => partition
  | .unionValue key value =>
    match partition.unionValue keys.merge (keys.index key) value with
    | .ok revalued => revalued
    | .error _ => partition
  | _ => partition

/-- The partition after a call that a table has answered or refused. -/
def answered (keys : KeyScheme κ α ε) (partition : Partition α) (operation : Operation κ α) :
    Except (Failure (TableError ε)) (TableAnswer κ α) → Partition α
  | .ok _ => partition.apply keys operation
  | .error _ => partition

/-- The partition after calls on a table, of which those that it refuses do nothing. -/
def follow (keys : KeyScheme κ α ε) :
    List (Operation κ α) → Table α → Partition α → Partition α
  | [], _, partition => partition
  | operation :: rest, table, partition =>
    follow keys rest (Action.after (operation.run keys) table)
      (partition.answered keys operation (Action.outcome (operation.run keys) table))

variable {partition : Partition α}

theorem label_newKey_of_ne {index : Nat} (hindex : index ≠ partition.size) (value : α) :
    (partition.newKey value).label index = partition.label index :=
  Function.update_of_ne hindex _ _

theorem label_newKey_size (partition : Partition α) (value : α) :
    (partition.newKey value).label partition.size = partition.size :=
  Function.update_self _ _ _

theorem value_newKey_of_ne {label : Nat} (hlabel : label ≠ partition.size) (value : α) :
    (partition.newKey value).value label = partition.value label :=
  Function.update_of_ne hlabel _ _

theorem value_newKey_size (partition : Partition α) (value : α) :
    (partition.newKey value).value partition.size = some value :=
  Function.update_self _ _ _

theorem label_join (partition : Partition α) (first second : Nat) (value : α) (index : Nat) :
    (partition.join first second value).label index =
      if partition.label index = second then first else partition.label index :=
  rfl

theorem value_join_first (partition : Partition α) (first second : Nat) (value : α) :
    (partition.join first second value).value first = some value :=
  Function.update_self _ _ _

theorem value_join_of_ne {label first : Nat} (hlabel : label ≠ first) (second : Nat) (value : α) :
    (partition.join first second value).value label = partition.value label :=
  Function.update_of_ne hlabel _ _

/-- A class that is joined with itself gets another value and no other label. -/
theorem join_self (partition : Partition α) (label : Nat) (value : α) :
    partition.join label label value = partition.setValue label value := by
  have hlabel : (fun index => if partition.label index = label then label
      else partition.label index) = partition.label := by
    funext index
    split
    next hsame => exact hsame.symm
    next => rfl
  rw [join, hlabel, setValue]

variable (merge : α → α → Except ε α) {a b : Nat} {valueA valueB : α}

theorem union_of_eq (hlabel : partition.label a = partition.label b) :
    partition.union merge a b = .ok partition :=
  if_pos hlabel

theorem union_of_ne (hlabel : partition.label a ≠ partition.label b)
    (hA : partition.valueAt a = some valueA) (hB : partition.valueAt b = some valueB) :
    partition.union merge a b =
      partition.join (partition.label a) (partition.label b) <$> merge valueA valueB := by
  rw [union, if_neg hlabel, hA, hB]

theorem unionValue_of_some {index : Nat} {old : α} (hold : partition.valueAt index = some old)
    (value : α) :
    partition.unionValue merge index value =
      partition.setValue (partition.label index) <$> merge old value := by
  rw [unionValue, hold]

end Partition

end Unification
