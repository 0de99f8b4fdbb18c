import Unification.Keys
import Unification.Outline

namespace Unification

/-- A text as a class value. A joined class is labelled with both texts, in the
    order in which they were merged. -/
structure Label where
  text : String
  deriving DecidableEq

/-- Two labels one of which is closed to merging. -/
structure LabelConflict where
  ours : Label
  theirs : Label
  deriving DecidableEq

namespace Label

/-- An exclamation mark closes a label. -/
def isClosed (label : Label) : Bool :=
  label.text.contains '!'

def merge (ours theirs : Label) : Except LabelConflict Label :=
  if ours.isClosed || theirs.isClosed then .error { ours, theirs }
  else .ok ⟨"(" ++ ours.text ++ "+" ++ theirs.text ++ ")"⟩

def payload : Payload Label LabelConflict where
  merge := merge
  nodeBytes := 32

instance : Inspect Label where
  outline label := .group (.tuple "Text") [outline label.text]

instance : ToString LabelConflict where
  toString conflict := "`" ++ conflict.ours.text ++ "` rejects `" ++ conflict.theirs.text ++ "`"

end Label

end Unification
