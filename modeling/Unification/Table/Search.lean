import Unification.Table.Basic

namespace Unification.Table

variable {κ α ε δ : Type}

/-- Follows parents upward from a node to the root of its tree, past `fuel`
    nodes at most. -/
def climb (nodes : Array (Node α)) : Nat → Nat → Except Fault Nat
  | 0, _ => .error .parentCycle
  | fuel + 1, index =>
    match nodes[index]? with
    | none => .error .indexOutOfBounds
    | some node => if node.isRootAt index then .ok index else climb nodes fuel node.parent

/-- Goes the same way once more, up to the root that was found, and points each
    node on it at that root. The nodes that do so already are left alone, and
    leave no trace in the journal. -/
def compress (root : Nat) : Nat → Nat → TableM α δ Unit
  | 0, _ => Failure.raise .parentCycle
  | fuel + 1, index => do
    if index ≠ root then
      let node ← nodeAt index
      if node.parent ≠ root then
        update index fun node => { node with parent := root }
      compress root fuel node.parent

/-- The root of a node's tree. All of the path to it is compressed. A path that
    visits more nodes than there are runs in a cycle. -/
def root (index : Nat) : TableM α δ Nat := do
  let nodes := (← get).nodes
  match climb nodes (nodes.size + 1) index with
  | .error cause => Failure.raise cause
  | .ok root =>
    compress root (nodes.size + 1) index
    pure root

variable (keys : KeyScheme κ α ε)

/-- The index of a key that the table has handed out. -/
def locate (key : κ) : TableM α (TableError ε) Nat := do
  let len := (← get).size
  let index := keys.index key
  if index < len then
    pure index
  else
    Failure.refuse (.unknownKey keys.tag index len)

/-- The representative of a key's class. -/
def find (key : κ) : TableM α (TableError ε) κ := do
  let index ← locate keys key
  let root ← root index
  pure (keys.ofIndex root)

/-- The value of a key's class. -/
def probe (key : κ) : TableM α (TableError ε) α := do
  let index ← locate keys key
  let root ← root index
  let node ← nodeAt root
  pure node.value

/-- Whether two keys are in one class. Both have to be known before either is
    searched for. -/
def unioned (a b : κ) : TableM α (TableError ε) Bool := do
  let a ← locate keys a
  let b ← locate keys b
  let rootA ← root a
  let rootB ← root b
  pure (rootA == rootB)

/-- The representative and the class value of every key, by index. -/
def classes : TableM α (TableError ε) (List (κ × α)) := do
  (List.range (← get).size).mapM fun index => do
    let key := keys.ofIndex index
    pure (← find keys key, ← probe keys key)

end Unification.Table
