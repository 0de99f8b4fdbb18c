namespace Unification

/-- The values of the classes: what the value of a joined class is, or why two
    classes cannot be joined, and how many bytes a node takes that holds one.
    Nothing is assumed of `merge`; the order of its arguments may matter. -/
structure Payload (α ε : Type) where
  merge : α → α → Except ε α
  nodeBytes : Nat
  /-- The answer of the allocator when it is asked for room for a number of nodes in
      all. It may refuse any number, and has only to answer the same number alike. -/
  grants : Nat → Bool := fun _ => true

/-- How keys stand for nodes. `index` and `ofIndex` are to be inverse on the
    indices of a table. `order` may choose which of two roots survives a union:
    it sees both roots with their values before the merge, and nominates the
    survivor and the root that is redirected to it. Without a nomination the
    ranks decide. -/
structure KeyScheme (κ α ε : Type) extends Payload α ε where
  tag : String
  index : κ → Nat
  ofIndex : Nat → κ
  order : κ → α → κ → α → Option (κ × κ) := fun _ _ _ _ => none

end Unification
