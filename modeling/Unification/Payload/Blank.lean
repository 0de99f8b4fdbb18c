import Unification.Keys

namespace Unification

/-- A class value that says nothing. -/
abbrev Blank := Unit

namespace Blank

/-- Blanks never contradict each other. -/
def merge (_ _ : Blank) : Except Empty Blank :=
  .ok ()

def payload : Payload Blank Empty where
  merge := merge
  nodeBytes := 8

instance : ToString Empty where
  toString := nofun

end Blank

end Unification
