import Unification.Table.Search

namespace Unification.Table

variable {κ α ε : Type} (keys : KeyScheme κ α ε)

/-- A class of its own for a value, by the key that stands for it. -/
def newKey (value : α) : TableM α (TableError ε) κ := do
  let index ← push keys.toPayload value
  pure (keys.ofIndex index)

def newKeys (values : List α) : TableM α (TableError ε) (List κ) :=
  values.mapM (newKey keys)

/-- The rank of a root after another root was redirected to it. A survivor that
    is not the higher of the two has to rise above the other one. -/
def joinedRank (survivor redirected : Nat) : Nat :=
  if redirected < survivor then survivor else redirected + 1

/-- What the root order of the keys nominates for two roots: the survivor and
    the redirected one. A nomination of any other pair is refused. -/
def nominate (a b : Nat) : TableM α (TableError ε) (Option (Nat × Nat)) := do
  let nodeA ← nodeAt a
  let nodeB ← nodeAt b
  match keys.order (keys.ofIndex a) nodeA.value (keys.ofIndex b) nodeB.value with
  | none => pure none
  | some (survivor, redirected) =>
    let pair := (keys.index survivor, keys.index redirected)
    if pair = (a, b) ∨ pair = (b, a) then
      pure (some pair)
    else
      Failure.refuse (.invalidRootOrder keys.tag pair.1 pair.2 a b)

/-- Joins the trees of two different roots, and gives the survivor the value of
    the joined class. Of two roots of one rank the second survives, unless the
    keys have it otherwise. -/
def link (a b : Nat) (value : α) : TableM α (TableError ε) Unit := do
  let rankA := (← nodeAt a).rank
  let rankB := (← nodeAt b).rank
  let nominated ← nominate keys a b
  let (survivor, redirected) := nominated.getD (if rankB < rankA then (a, b) else (b, a))
  let rank := if survivor = a then joinedRank rankA rankB else joinedRank rankB rankA
  update redirected fun node => { node with parent := survivor }
  update survivor fun node => { node with rank, value }

/-- Joins the classes of two keys. The value of the second is merged into that
    of the first; if they contradict each other, both classes stay as they are. -/
def union (a b : κ) : TableM α (TableError ε) Unit := do
  let a ← locate keys a
  let b ← locate keys b
  let rootA ← root a
  let rootB ← root b
  if rootA ≠ rootB then
    let nodeA ← nodeAt rootA
    let nodeB ← nodeAt rootB
    match keys.merge nodeA.value nodeB.value with
    | .error conflict => Failure.refuse (.mergeConflict conflict)
    | .ok value => link keys rootA rootB value

/-- Joins each key of a list with the next, up to the first refusal. -/
def unionChain : List κ → TableM α (TableError ε) Unit
  | a :: b :: rest => do
    union keys a b
    unionChain (b :: rest)
  | _ => pure ()

/-- Merges a value into that of a key's class. -/
def unionValue (key : κ) (value : α) : TableM α (TableError ε) Unit := do
  let index ← locate keys key
  let root ← root index
  let node ← nodeAt root
  match keys.merge node.value value with
  | .error conflict => Failure.refuse (.mergeConflict conflict)
  | .ok value => update root fun node => { node with value }

theorem lt_joinedRank (survivor redirected : Nat) : redirected < joinedRank survivor redirected := by
  unfold joinedRank
  split <;> omega

theorem le_joinedRank (survivor redirected : Nat) : survivor ≤ joinedRank survivor redirected := by
  unfold joinedRank
  split <;> omega

theorem joinedRank_le (survivor redirected : Nat) :
    joinedRank survivor redirected ≤ survivor + redirected + 1 := by
  unfold joinedRank
  split <;> omega

end Unification.Table
