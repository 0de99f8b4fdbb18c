import Unification.Keys
import Unification.Outline

namespace Unification

/-- A number as a class value. Minus one stands for a number that is not known. -/
structure Number where
  value : Int
  deriving DecidableEq

/-- Two different known numbers for one class. -/
structure NumberConflict where
  ours : Number
  theirs : Number
  deriving DecidableEq

namespace Number

def unset : Number := ⟨-1⟩

def merge (ours theirs : Number) : Except NumberConflict Number :=
  if ours = unset then .ok theirs
  else if theirs = unset ∨ ours = theirs then .ok ours
  else .error { ours, theirs }

def payload : Payload Number NumberConflict where
  merge := merge
  nodeBytes := 12

instance : Inspect Number where
  outline number := .group (.tuple "Int") [.word (toString number.value)]

instance : ToString NumberConflict where
  toString conflict := s!"{conflict.ours.value} conflicts with {conflict.theirs.value}"

end Number

end Unification
