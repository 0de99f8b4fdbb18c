import Unification.Keys

namespace Unification

/-- The choice of the root that survives a union: for two roots with their
    values, the survivor and the root that is redirected to it, or no choice. -/
abbrev RootOrder (κ α : Type) := κ → α → κ → α → Option (κ × κ)

namespace RootOrder

variable {κ α : Type}

/-- Leaves every choice to the ranks. -/
def byRank : RootOrder κ α := fun _ _ _ _ => none

def least [LE κ] [DecidableLE κ] : RootOrder κ α := fun a _ b _ =>
  some (if a ≤ b then (a, b) else (b, a))

def greatest [LE κ] [DecidableLE κ] : RootOrder κ α := fun a _ b _ =>
  some (if b ≤ a then (a, b) else (b, a))

def first : RootOrder κ α := fun a _ b _ => some (a, b)

def second : RootOrder κ α := fun a _ b _ => some (b, a)

/-- The root of the greater value survives, the first one if they are equal. -/
def greatestBy {β : Type} [LE β] [DecidableLE β] (measure : α → β) : RootOrder κ α :=
  fun a valueA b valueB => some (if measure valueB ≤ measure valueA then (a, b) else (b, a))

/-- As the order by a measure, but equal values are left to the ranks. -/
def strictlyGreatestBy (measure : α → Nat) : RootOrder κ α := fun a valueA b valueB =>
  if measure valueA = measure valueB then none else greatestBy measure a valueA b valueB

/-- A root of one sort survives the union with one that is not of it. -/
def favoured (sort : κ → Bool) : RootOrder κ α := fun a _ b _ =>
  if sort a = sort b then none else some (if sort a then (a, b) else (b, a))

/-- A choice that looks at the roots alone, and may well be no choice of the two. -/
def unchecked (choose : κ → κ → Option (κ × κ)) : RootOrder κ α := fun a _ b _ => choose a b

end RootOrder

end Unification
