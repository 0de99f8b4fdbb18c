import Unification.Proofs.Forest.Alike
import Unification.Proofs.Refusal.Exactness

namespace Unification

variable {κ α ε : Type} {keys : KeyScheme κ α ε} {nodes others : Array (Node α)}
  {operation : Operation κ α} {reason : TableError ε}

/-- The condition of a refusal does not depend on the ways up to the roots. -/
theorem Refusal.alike (h : Refusal keys { nodes } operation reason) (hplain : operation.isPlain)
    (halike : Alike nodes others) : Refusal keys { nodes := others } operation reason := by
  have hsize : ({ nodes } : Table α).size = ({ nodes := others } : Table α).size := halike.size_eq
  cases h with
  | unknownKey hfirst =>
    rw [hsize] at hfirst ⊢
    exact .unknownKey hfirst
  | conflict hA hB hne hnodeA hnodeB hmerge =>
    exact .conflict (halike.hasRoot_iff.mp hA) (halike.hasRoot_iff.mp hB) hne
      (halike.getElem?_root hA.1 hnodeA) (halike.getElem?_root hB.1 hnodeB) hmerge
  | rootOrder hA hB hne hnodeA hnodeB hmerge horder hother hswapped =>
    exact .rootOrder (halike.hasRoot_iff.mp hA) (halike.hasRoot_iff.mp hB) hne
      (halike.getElem?_root hA.1 hnodeA) (halike.getElem?_root hB.1 hnodeB) hmerge horder hother
      hswapped
  | conflictingValue hroot hnode hmerge =>
    exact .conflictingValue (halike.hasRoot_iff.mp hroot) (halike.getElem?_root hroot.1 hnode) hmerge
  | noIndex value hfull =>
    rw [hsize] at hfull ⊢
    exact .noIndex value hfull
  | noRoom value hindex hroom =>
    rw [hsize] at hindex hroom
    exact .noRoom value hindex hroom
  | noReserve count hroom =>
    rw [hsize] at hroom
    exact .noReserve count hroom
  | commit | rollback | notOpen | tooManyKeys => cases hplain

namespace Operation

/-- A call about keys that is refused is refused on every forest that is alike,
    for the same reason. -/
private theorem refused_alike (hplain : operation.isPlain) (halike : Alike nodes others)
    {failure : Failure (TableError ε)} {left : Table α}
    (hrun : operation.run keys { nodes } = .error failure left)
    (heffect : Effect keys nodes operation (.error failure) left.nodes) :
    Action.outcome (operation.run keys) { nodes := others } = .error failure := by
  cases heffect with
  | refused reason =>
    have hrefusal := refusal_of_run keys halike.forest (.nil rfl) hrun
    obtain ⟨otherLeft, hother, -⟩ := (hrefusal.alike hplain halike).exists_run halike.otherForest
    exact Action.outcome_of_error hother

/-- A call about keys cannot tell forests that are alike apart, and leaves them
    alike. -/
theorem run_alike (keys : KeyScheme κ α ε) (hplain : operation.isPlain)
    (halike : Alike nodes others) :
    Action.outcome (operation.run keys) { nodes } =
        Action.outcome (operation.run keys) { nodes := others } ∧
      Alike (Action.after (operation.run keys) { nodes }).nodes
        (Action.after (operation.run keys) { nodes := others }).nodes := by
  obtain ⟨outcome, left, hrun, heffect⟩ := exists_effect keys { nodes } hplain halike.forest
  obtain ⟨otherOutcome, otherLeft, hother, hotherEffect⟩ :=
    exists_effect keys { nodes := others } hplain halike.otherForest
  rw [Action.outcome_of_eq_ending hrun, Action.after_of_eq_ending hrun,
    Action.outcome_of_eq_ending hother, Action.after_of_eq_ending hother]
  rcases outcome with failure | result
  · have hsame := refused_alike hplain halike hrun heffect
    rw [Action.outcome_of_eq_ending hother] at hsame
    subst hsame
    cases heffect with
    | refused _ hflat =>
      cases hotherEffect with
      | refused _ hotherFlat =>
        exact ⟨rfl, (hflat.alike halike.forest).symm.trans
          (halike.trans (hotherFlat.alike halike.otherForest))⟩
  rcases otherOutcome with failure | otherResult
  · have hsame := refused_alike hplain halike.symm hother hotherEffect
    rw [Action.outcome_of_eq_ending hrun] at hsame
    cases hsame
  · obtain ⟨rfl, hleft⟩ := heffect.alike halike hotherEffect
    exact ⟨rfl, hleft⟩

end Operation

/-- The calls on a table that no later call is to notice: searches, unions of
    keys that are in one class already, and all unions that fail. -/
inductive Silent (keys : KeyScheme κ α ε) (table : Table α) : Operation κ α → Prop where
  | find (key : κ) : Silent keys table (.find key)
  | probe (key : κ) : Silent keys table (.probe key)
  | unioned (a b : κ) : Silent keys table (.unioned a b)
  | sameClass {a b : κ} (hsame : Action.outcome (Table.unioned keys a b) table = .ok true) :
      Silent keys table (.union a b)
  | failedUnion {a b : κ} (failure : Failure (TableError ε))
      (hfailed : Action.outcome (Table.union keys a b) table = .error failure) :
      Silent keys table (.union a b)
  | failedValue {key : κ} {value : α} (failure : Failure (TableError ε))
      (hfailed : Action.outcome (Table.unionValue keys key value) table = .error failure) :
      Silent keys table (.unionValue key value)

namespace Silent

variable {table : Table α}

theorem isPlain (h : Silent keys table operation) : operation.isPlain := by
  cases h <;> rfl

/-- Whatever else a call does that fails, the forest keeps its trees, ranks and values. -/
private theorem alike_of_failed {outcome : Except (Failure (TableError ε)) (TableAnswer κ α)}
    {left : Array (Node α)} {failure : Failure (TableError ε)} (hforest : Forest table.nodes)
    (heffect : Effect keys table.nodes operation outcome left) (hfailed : outcome = .error failure) :
    Alike table.nodes left := by
  cases heffect with
  | refused _ hflat => exact hflat.alike hforest
  | _ => cases hfailed

/-- A silent call leaves a forest like the one that it finds. -/
theorem alike (h : Silent keys table operation) (hforest : Forest table.nodes) :
    Alike table.nodes (Action.after (operation.run keys) table).nodes := by
  obtain ⟨outcome, left, hrun, heffect⟩ := Operation.exists_effect keys table h.isPlain hforest
  rw [Action.after_of_eq_ending hrun]
  have houtcome := Action.outcome_of_eq_ending hrun
  cases h with
  | find =>
    cases heffect with
    | refused _ hflat | find _ hflat => exact hflat.alike hforest
  | probe =>
    cases heffect with
    | refused _ hflat | probe _ _ hflat => exact hflat.alike hforest
  | unioned =>
    cases heffect with
    | refused _ hflat | unioned _ _ hflat => exact hflat.alike hforest
  | sameClass hsame =>
    cases heffect with
    | refused _ hflat | same _ _ hflat => exact hflat.alike hforest
    | joined hA hB hne =>
      obtain ⟨_, hunioned, -⟩ := Table.unioned_of_hasRoot keys hforest hA hB
      rw [Action.outcome_of_ok hunioned] at hsame
      exact absurd (by simpa using hsame) hne
  | failedUnion _ hfailed | failedValue _ hfailed =>
    rw [Operation.run, Action.outcome_map, hfailed] at houtcome
    exact alike_of_failed hforest heffect houtcome.symm

end Silent

end Unification
