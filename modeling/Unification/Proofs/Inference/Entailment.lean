import Mathlib.Data.Set.Insert
import Mathlib.Logic.Relation
import Unification.Proofs.Inference.Program

namespace Unification

variable {facts others : Set Fact} {fact : Fact}

/-- Two variables that facts say are equal, directly or through others. -/
def Connected (facts : Set Fact) : TypeVar → TypeVar → Prop :=
  Relation.EqvGen fun a b => .equal a b ∈ facts

/-- What facts say: connected variables are equal, and each denotes the type
    that any of them was said to denote. -/
def Follows (facts : Set Fact) : Fact → Prop
  | .equal a b => Connected facts a b
  | .denotes var type => ∃ source, .denotes source type ∈ facts ∧ Connected facts source var

/-- No variable denotes two types. -/
def Consistent (facts : Set Fact) : Prop :=
  ∀ var expected found, Follows facts (.denotes var expected) →
    Follows facts (.denotes var found) → expected = found

/-- The two types that a fact would give a variable which already has one of
    them, the first one named. -/
def Fact.Contradicts (facts : Set Fact) (mismatch : TypeMismatch) : Fact → Prop
  | .equal a b => Follows facts (.denotes a mismatch.expected) ∧
      Follows facts (.denotes b mismatch.found) ∧ mismatch.expected ≠ mismatch.found
  | .denotes var type => Follows facts (.denotes var mismatch.expected) ∧
      mismatch.found = type ∧ mismatch.expected ≠ mismatch.found

/-- What any reading of equality allows: it is an equivalence, and equal
    variables denote the same types. -/
structure Theory (holds : Fact → Prop) : Prop where
  refl : ∀ var, holds (.equal var var)
  symm : ∀ {a b}, holds (.equal a b) → holds (.equal b a)
  trans : ∀ {a b c}, holds (.equal a b) → holds (.equal b c) → holds (.equal a c)
  carry : ∀ {a b type}, holds (.equal a b) → holds (.denotes a type) → holds (.denotes b type)

theorem follows_theory (facts : Set Fact) : Theory (Follows facts) where
  refl := Relation.EqvGen.refl
  symm := Relation.EqvGen.symm _ _
  trans := Relation.EqvGen.trans _ _ _
  carry := by
    rintro a b type hequal ⟨source, hsource, hconnected⟩
    exact ⟨source, hsource, hconnected.trans _ _ _ hequal⟩

namespace Follows

theorem of_mem (hfact : fact ∈ facts) : Follows facts fact := by
  cases fact with
  | equal a b => exact .rel a b hfact
  | denotes var type => exact ⟨var, hfact, .refl var⟩

/-- What follows from facts holds in every theory in which the facts hold. -/
theorem sound {holds : Fact → Prop} (htheory : Theory holds) (hfacts : ∀ fact ∈ facts, holds fact)
    (h : Follows facts fact) : holds fact := by
  have hconnected : ∀ {a b}, Connected facts a b → holds (.equal a b) := by
    intro a b hab
    induction hab with
    | rel a b hmem => exact hfacts _ hmem
    | refl a => exact htheory.refl a
    | symm a b _ ih => exact htheory.symm ih
    | trans a b c _ _ ihFirst ihSecond => exact htheory.trans ihFirst ihSecond
  cases fact with
  | equal a b => exact hconnected h
  | denotes var type =>
    obtain ⟨source, hsource, hvar⟩ := h
    exact htheory.carry (hconnected hvar) (hfacts _ hsource)

theorem cut (hfacts : ∀ fact ∈ facts, Follows others fact) (h : Follows facts fact) :
    Follows others fact :=
  h.sound (follows_theory others) hfacts

theorem mono (hsubset : facts ⊆ others) (h : Follows facts fact) : Follows others fact :=
  h.cut fun _ hmem => of_mem (hsubset hmem)

end Follows

theorem Consistent.anti (h : Consistent others) (hsubset : facts ⊆ others) : Consistent facts :=
  fun var expected found hexpected hfound =>
    h var expected found (hexpected.mono hsubset) (hfound.mono hsubset)

theorem Consistent.congr (h : ∀ fact, Follows facts fact ↔ Follows others fact) :
    Consistent facts ↔ Consistent others := by
  simp only [Consistent, h]

/-- Facts that are consistent themselves contradict another one in one way only. -/
theorem Fact.Contradicts.unique {mismatch other : TypeMismatch} (hconsistent : Consistent facts)
    (h : fact.Contradicts facts mismatch) (h' : fact.Contradicts facts other) :
    mismatch = other := by
  obtain ⟨expected, found⟩ := mismatch
  obtain ⟨expected', found'⟩ := other
  cases fact with
  | equal a b =>
    obtain rfl : expected = expected' := hconsistent a _ _ h.1 h'.1
    obtain rfl : found = found' := hconsistent b _ _ h.2.1 h'.2.1
    rfl
  | denotes var type =>
    obtain rfl : expected = expected' := hconsistent var _ _ h.1 h'.1
    obtain rfl : found = found' := h.2.1.trans h'.2.1.symm
    rfl

/-- Taking a contradicting fact in makes facts inconsistent. -/
theorem Fact.Contradicts.not_consistent {mismatch : TypeMismatch}
    (h : fact.Contradicts facts mismatch) : ¬ Consistent (insert fact facts) := by
  intro hconsistent
  have hnew : Follows (insert fact facts) fact := .of_mem (Set.mem_insert fact facts)
  have hsubset : facts ⊆ insert fact facts := Set.subset_insert fact facts
  cases fact with
  | equal a b =>
    obtain ⟨hexpected, hfound, hne⟩ := h
    have hcarried := (follows_theory _).carry hnew (hexpected.mono hsubset)
    exact hne (hconsistent b _ _ hcarried (hfound.mono hsubset))
  | denotes var type =>
    obtain ⟨hexpected, rfl, hne⟩ := h
    exact hne (hconsistent var _ _ (hexpected.mono hsubset) hnew)

end Unification
