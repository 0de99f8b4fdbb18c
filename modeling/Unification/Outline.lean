import Unification.Outline.Quoted

namespace Unification

/-- What encloses a group of items. A partial record has fields that it does
    not show, and says so with a last item of two dots. -/
inductive Shape where
  | tuple (name : String)
  | record (name : String)
  | partialRecord (name : String)
  | list

/-- The structure of a value that is to be shown for inspection, before it is
    laid out on one line or on several. -/
inductive Outline where
  | word (text : String)
  | field (label : String) (value : Outline)
  | group (shape : Shape) (items : List Outline)

/-- All on one line, or an item a line. -/
inductive Layout where
  | line
  | block

namespace Shape

def opening : Shape → String
  | tuple name => name ++ "("
  | record name | partialRecord name => name ++ " \x7b"
  | list => "["

def closing : Shape → String
  | tuple _ => ")"
  | record _ | partialRecord _ => "\x7d"
  | list => "]"

/-- What keeps the items apart from the brackets on one line. -/
def padding : Shape → String
  | record _ | partialRecord _ => " "
  | tuple _ | list => ""

/-- The last item, which stands for what is not shown. -/
def remainder : Shape → Option String
  | partialRecord _ => some ".."
  | tuple _ | record _ | list => none

/-- A group on one line, from the texts of its items. -/
def inline (shape : Shape) (items : List String) : String :=
  shape.opening ++ shape.padding ++ ", ".intercalate (items ++ shape.remainder.toList) ++
    shape.padding ++ shape.closing

/-- A group with each item on a line of its own, from the texts of its items.
    A comma follows each item, but not the one that stands for what is hidden;
    a group with nothing to show stays on one line. -/
def block (shape : Shape) (margin : String) (items : List String) : String :=
  let inner := margin ++ "    "
  let lines := items.map (inner ++ · ++ ",\n") ++ shape.remainder.toList.map (inner ++ · ++ "\n")
  if lines.isEmpty then shape.opening ++ shape.closing
  else shape.opening ++ "\n" ++ String.join lines ++ margin ++ shape.closing

end Shape

namespace Outline

mutual

/-- The layout on one line. -/
def inline : Outline → String
  | word text => text
  | field label value => label ++ ": " ++ inline value
  | group shape items => shape.inline (inlineAll items)

def inlineAll : List Outline → List String
  | [] => []
  | item :: rest => inline item :: inlineAll rest

end

mutual

/-- The block layout. The first line takes no margin, for it follows a label
    or the margin of its item. -/
def block : Outline → String → String
  | word text, _ => text
  | field label value, margin => label ++ ": " ++ block value margin
  | group shape items, margin => shape.block margin (blockAll items (margin ++ "    "))

def blockAll : List Outline → String → List String
  | [], _ => []
  | item :: rest, margin => block item margin :: blockAll rest margin

end

def render (outline : Outline) : Layout → String
  | .line => outline.inline
  | .block => outline.block ""

end Outline

/-- Values that have an outline for inspection. -/
class Inspect (α : Type) where
  outline : α → Outline

export Inspect (outline)

/-- The inspection text of a value. -/
def inspect {α : Type} [Inspect α] (value : α) (layout : Layout) : String :=
  (outline value).render layout

instance : Inspect Nat := ⟨fun n => .word (toString n)⟩

instance : Inspect String := ⟨fun text => .word (Outline.quoted text)⟩

instance {α : Type} [Inspect α] : Inspect (Option α) where
  outline
    | none => .word "None"
    | some value => .group (.tuple "Some") [outline value]

instance {α : Type} [Inspect α] : Inspect (List α) := ⟨fun items => .group .list (items.map outline)⟩

end Unification
