import Unification.Ty.Binding

namespace Unification

/-- The number of the syntax node that a constraint comes from. -/
structure NodeId where
  id : Nat
  deriving DecidableEq, Ord

/-- Why a constraint was made, and where: a function stood where none was
    expected, something else was applied to arguments, or two types were to be
    equal. -/
inductive Provenance where
  | unexpectedFun (node : NodeId)
  | appExpectedFun (node : NodeId)
  | expectedUnify (node : NodeId)
  deriving DecidableEq

/-- A constraint that could not be met. -/
structure TypeError where
  provenance : Provenance
  mismatch : TypeMismatch
  deriving DecidableEq

namespace NodeId

def text (node : NodeId) : String :=
  s!"#{node.id}"

instance : ToString NodeId := ⟨text⟩

instance : Inspect NodeId where
  outline node := .group (.tuple "NodeId") [outline node.id]

end NodeId

namespace Provenance

def node : Provenance → NodeId
  | unexpectedFun node | appExpectedFun node | expectedUnify node => node

def name : Provenance → String
  | unexpectedFun _ => "UnexpectedFun"
  | appExpectedFun _ => "AppExpectedFun"
  | expectedUnify _ => "ExpectedUnify"

instance : Inspect Provenance where
  outline provenance := .group (.tuple provenance.name) [outline provenance.node]

end Provenance

namespace TypeError

def message (error : TypeError) : String :=
  error.mismatch.text ++ " (constraint from node " ++ error.provenance.node.text ++ ")"

instance : ToString TypeError := ⟨message⟩

instance : Inspect TypeError where
  outline error := .group (.record "TypeError")
    [.field "provenance" (outline error.provenance), .field "mismatch" (outline error.mismatch)]

end TypeError

end Unification
