import Unification.Outline

namespace Unification

/-- An element of the forest. It is a root if its parent is its own index. The
    rank bounds the height of the tree below it. Only the value of a root has a
    meaning: a node that was redirected keeps the value that it had then, and
    nothing reads it. -/
structure Node (α : Type) where
  parent : Nat
  rank : Nat
  value : α
  deriving DecidableEq

namespace Node

variable {α : Type}

/-- The node of a class of its own, stored at an index. -/
def singleton (index : Nat) (value : α) : Node α :=
  { parent := index, rank := 0, value }

def isRootAt (node : Node α) (index : Nat) : Bool :=
  node.parent == index

@[simp]
theorem isRootAt_iff {node : Node α} {index : Nat} : node.isRootAt index ↔ node.parent = index := by
  simp [isRootAt]

instance [Inspect α] : Inspect (Node α) where
  outline node := .group (.record "VarValue")
    [.field "parent" (outline node.parent), .field "rank" (outline node.rank),
      .field "value" (outline node.value)]

end Node

end Unification
