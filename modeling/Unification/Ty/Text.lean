import Unification.Outline
import Unification.Ty

namespace Unification

def TypeVar.text (var : TypeVar) : String :=
  s!"?T{var.id}"

instance : ToString TypeVar := ⟨TypeVar.text⟩

instance : Inspect TypeVar where
  outline var := .group (.record "TypeVar") [.field "id" (outline var.id)]

namespace Ty

mutual

/-- The text of a type in messages. -/
def text : Ty → String
  | int => "int"
  | float => "float"
  | string => "string"
  | qubit => "qubit"
  | angle => "angle"
  | duration => "duration"
  | enum name => "enum " ++ name
  | var v => v.text
  | fn params ret => "fn(" ++ textAll params ++ ") -> " ++ text ret
  | struct fields => "struct \x7b " ++ textAll fields ++ " \x7d"
  | union variants => "union \x7b " ++ textAll variants ++ " \x7d"

/-- The texts of types, with a comma and a blank between them. -/
def textAll : List Ty → String
  | [] => ""
  | [t] => text t
  | t :: u :: rest => text t ++ ", " ++ textAll (u :: rest)

end

instance : ToString Ty := ⟨text⟩

mutual

def outline : Ty → Outline
  | int => .word "Int"
  | float => .word "Float"
  | string => .word "String"
  | qubit => .word "Qubit"
  | angle => .word "Angle"
  | duration => .word "Duration"
  | enum name => .group (.tuple "Enum") [Unification.outline name]
  | var v => .group (.tuple "Var") [Unification.outline v]
  | fn params ret => .group (.record "Fun")
    [.field "params" (.group .list (outlineAll params)), .field "ret" (outline ret)]
  | struct fields => .group (.tuple "Struct") [.group .list (outlineAll fields)]
  | union variants => .group (.tuple "Union") [.group .list (outlineAll variants)]

def outlineAll : List Ty → List Outline
  | [] => []
  | t :: rest => outline t :: outlineAll rest

end

instance : Inspect Ty := ⟨outline⟩

end Ty

end Unification
