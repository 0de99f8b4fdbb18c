import Unification.Keys
import Unification.Ty.Text

namespace Unification

/-- What is known of a class of type variables. -/
inductive Binding where
  | unbound
  | bound (type : Ty)
  deriving DecidableEq

/-- Two different types that were required to be equal: the one that a class is
    bound to, and the one that was to be merged into it. -/
structure TypeMismatch where
  expected : Ty
  found : Ty
  deriving DecidableEq

namespace TypeMismatch

def text (mismatch : TypeMismatch) : String :=
  "expected `" ++ mismatch.expected.text ++ "`, found `" ++ mismatch.found.text ++ "`"

instance : ToString TypeMismatch := ⟨text⟩

instance : Inspect TypeMismatch where
  outline mismatch := .group (.record "TypeMismatch")
    [.field "expected" (outline mismatch.expected), .field "found" (outline mismatch.found)]

end TypeMismatch

namespace Binding

instance : Inhabited Binding := ⟨unbound⟩

def type? : Binding → Option Ty
  | unbound => none
  | bound type => some type

/-- Types that are bound are compared as they stand. The variables within them
    are not looked up. -/
def merge : Binding → Binding → Except TypeMismatch Binding
  | binding, unbound => .ok binding
  | unbound, bound type => .ok (bound type)
  | bound expected, bound found =>
    if expected = found then .ok (bound expected) else .error { expected, found }

/-- The root of a bound class survives the union with an unbound one. -/
def order (a : TypeVar) (bindingA : Binding) (b : TypeVar) (bindingB : Binding) :
    Option (TypeVar × TypeVar) :=
  match bindingA, bindingB with
  | bound _, unbound => some (a, b)
  | unbound, bound _ => some (b, a)
  | _, _ => none

instance : Inspect Binding where
  outline
    | unbound => .word "Unbound"
    | bound type => .group (.tuple "Bound") [outline type]

theorem type?_eq_some_iff {binding : Binding} {type : Ty} :
    binding.type? = some type ↔ binding = bound type := by
  cases binding <;> simp [type?]

theorem merge_unbound (binding : Binding) : merge binding unbound = .ok binding := by
  cases binding <;> rfl

theorem unbound_merge (binding : Binding) : merge unbound binding = .ok binding := by
  cases binding <;> rfl

theorem merge_eq_error_iff {a b : Binding} {mismatch : TypeMismatch} :
    merge a b = .error mismatch ↔
      a = bound mismatch.expected ∧ b = bound mismatch.found ∧
        mismatch.expected ≠ mismatch.found := by
  obtain ⟨expected, found⟩ := mismatch
  cases a with
  | unbound => cases b <;> simp [merge]
  | bound s =>
    cases b with
    | unbound => simp [merge]
    | bound t =>
      by_cases h : s = t
      · simp only [merge, if_pos h]
        grind
      · simp only [merge, if_neg h]
        grind

/-- A merged class is bound to what one of the two was bound to. -/
theorem eq_bound_iff_of_merge {a b merged : Binding} (h : merge a b = .ok merged) {type : Ty} :
    merged = bound type ↔ a = bound type ∨ b = bound type := by
  cases a with
  | unbound =>
    rw [unbound_merge] at h
    cases h
    simp
  | bound s =>
    cases b with
    | unbound =>
      rw [merge_unbound] at h
      cases h
      simp
    | bound t =>
      simp only [merge] at h
      split at h
      next hsame =>
        cases h
        simp [hsame]
      next => cases h

end Binding

/-- Type variables as keys: each stands for the index that is its number. -/
def typeVars : KeyScheme TypeVar Binding TypeMismatch where
  merge := Binding.merge
  nodeBytes := 40
  tag := "TypeVar"
  index := TypeVar.id
  ofIndex := TypeVar.mk
  order := Binding.order

end Unification
