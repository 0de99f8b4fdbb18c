import Unification.Proofs.Forest.Reachable
import Unification.Proofs.Inference.Knowledge
import Unification.Proofs.Inference.Observation
import Unification.Proofs.Inference.Speculation

namespace Unification

variable {δ β : Type} {state : Inference} {facts : Set Fact}

/-- All states of a pass that programs reach have forests as their tables. -/
theorem InferenceProgram.forest (program : InferenceProgram δ β) :
    Forest (Action.after program.run {}).table.nodes := by
  obtain ⟨operations, hoperations⟩ := program.exists_perform
  rw [hoperations]
  exact Table.forest_perform typeVars operations

/-- A table explains what it says itself. -/
theorem Forest.explains {nodes : Array (Node Binding)} (hforest : Forest nodes) :
    Explains nodes {fact | Holds nodes fact} where
  forest := hforest
  holds_iff fact := by
    constructor
    · exact fun hfact => Follows.of_mem (Set.mem_ofPred_eq ▸ hfact)
    · exact Follows.sound (holds_theory nodes) fun _ hmem => hmem

/-- The same constraint, or the same one with its two variables exchanged. -/
inductive Constraint.Mirrors : Constraint → Constraint → Prop where
  | same (constraint : Constraint) : Mirrors constraint constraint
  | exchanged (a b : TypeVar) (provenance : Provenance) :
      Mirrors (.vars a b provenance) (.vars b a provenance)

/-- What constraints say, in whatever order they stand. -/
def Constraint.said (constraints : List Constraint) : Set Fact :=
  {fact | ∃ constraint ∈ constraints, constraint.fact = fact}

theorem Constraint.said_cons (constraint : Constraint) (rest : List Constraint) :
    said (constraint :: rest) = insert constraint.fact (said rest) := by
  ext fact
  simp [said, eq_comm]

namespace Inference

/-- The state after constraints that are imposed one after the other. -/
def imposeAll (constraints : List Constraint) (state : Inference) : Inference :=
  perform (constraints.map .constrain) state

/-- Errors stay on record. -/
theorem errors_size_le_perform (operations : List InferenceOperation) (state : Inference) :
    state.errors.size ≤ (perform operations state).errors.size := by
  induction operations generalizing state with
  | nil => exact Nat.le_refl _
  | cons operation rest ih =>
    refine Nat.le_trans ?_ (ih _)
    rw [operation.after_run, Array.size_append]
    exact Nat.le_add_right _ _

/-- How constraints on known variables come out: either all are met, and the
    table says what follows from them, or they cannot all be met. -/
inductive Imposed (facts : Set Fact) (constraints : List Constraint) (state left : Inference) :
    Prop where
  | met (hsize : left.table.size = state.table.size) (herrors : left.errors = state.errors)
      (hleft : Explains left.table.nodes (facts ∪ Constraint.said constraints))
  | conflicting (herrors : state.errors.size < left.errors.size)
      (hinconsistent : ¬ Consistent (facts ∪ Constraint.said constraints))

/-- Whether constraints can all be met shows in the end, and the first one that
    cannot be met shows that they cannot: what was accepted until then
    contradicts it, and goes on to do so. -/
theorem imposed {constraints : List Constraint} (h : Explains state.table.nodes facts)
    (hknown : ∀ constraint ∈ constraints, constraint.fact.Known state.table.size) :
    Imposed facts constraints state (imposeAll constraints state) := by
  induction constraints generalizing state facts with
  | nil => exact .met rfl rfl (by simpa [Constraint.said, imposeAll, perform] using h)
  | cons constraint rest ih =>
    have hrest : imposeAll (constraint :: rest) state =
        imposeAll rest (Action.after constraint.run state) := by
      rw [imposeAll, List.map_cons, perform, InferenceOperation.run, Action.after_map]
      rfl
    have hsaid : facts ∪ Constraint.said (constraint :: rest) =
        insert constraint.fact facts ∪ Constraint.said rest := by
      rw [Constraint.said_cons, Set.union_insert, Set.insert_union]
    have hmore : ∀ {table : Table Binding}, table.size = state.table.size →
        ∀ other ∈ rest, other.fact.Known table.size :=
      fun hsize other hmem => hsize ▸ hknown other (List.mem_cons_of_mem constraint hmem)
    rw [hrest]
    cases h.answers (hknown constraint List.mem_cons_self) with
    | @accepted left hrun hsize hleft =>
      rw [Action.after_of_ok (Constraint.run_of_ok hrun)]
      have himposed : Imposed (insert constraint.fact facts) rest { state with table := left }
          (imposeAll rest { state with table := left }) := ih hleft (hmore hsize)
      cases himposed with
      | met hsize' herrors hleft' => exact .met (hsize'.trans hsize) herrors (hsaid ▸ hleft')
      | conflicting herrors hinconsistent => exact .conflicting herrors (hsaid ▸ hinconsistent)
    | @rejected mismatch left hcontradicts hrun hflat =>
      rw [Action.after_of_ok (Constraint.run_of_conflict hrun)]
      refine .conflicting (Nat.lt_of_lt_of_le ?_ (errors_size_le_perform _ _)) ?_
      · rw [Array.size_push]
        exact Nat.lt_succ_self _
      · rw [hsaid]
        exact fun hall => hcontradicts.not_consistent (hall.anti Set.subset_union_left)

end Inference

namespace Constraint.Mirrors

variable {first second : Constraint}

theorem symm (h : Mirrors first second) : Mirrors second first := by
  cases h with
  | same => exact .same first
  | exchanged a b provenance => exact .exchanged b a provenance

theorem known (h : Mirrors first second) {size : Nat} (hknown : first.fact.Known size) :
    second.fact.Known size := by
  cases h with
  | same => exact hknown
  | exchanged => exact ⟨hknown.2, hknown.1⟩

/-- Equality has no direction. -/
theorem follows (h : Mirrors first second) (hfact : Follows facts first.fact) :
    Follows facts second.fact := by
  cases h with
  | same => exact hfact
  | exchanged => exact (follows_theory facts).symm hfact

end Constraint.Mirrors

/-- Constraints that mirror each other say the same. -/
theorem Constraint.follows_of_mirrors {constraints mirrored : List Constraint}
    (hmirrors : ∀ constraint ∈ constraints, ∃ mirror ∈ mirrored, mirror.Mirrors constraint)
    {fact : Fact} (hfact : Follows (facts ∪ said constraints) fact) :
    Follows (facts ∪ said mirrored) fact := by
  refine hfact.cut fun other hmem => ?_
  rcases hmem with hmem | ⟨constraint, hconstraint, rfl⟩
  · exact .of_mem (.inl hmem)
  · obtain ⟨mirror, hmirror, hmirrors⟩ := hmirrors constraint hconstraint
    exact hmirrors.follows (.of_mem (.inr ⟨mirror, hmirror, rfl⟩))

/-- Every constraint has its mirror among those that are shuffled and exchanged,
    and every one of these has its constraint. -/
theorem Constraint.exists_mirror {constraints shuffled mirrored : List Constraint}
    (hshuffled : constraints.Perm shuffled) (hmirrored : List.Forall₂ Mirrors shuffled mirrored) :
    (∀ constraint ∈ constraints, ∃ mirror ∈ mirrored, mirror.Mirrors constraint) ∧
      ∀ mirror ∈ mirrored, ∃ constraint ∈ constraints, constraint.Mirrors mirror := by
  simp only [hshuffled.mem_iff]
  clear hshuffled
  induction hmirrored with
  | nil => simp
  | cons hmirrors _ ih =>
    simp only [List.mem_cons, exists_eq_or_imp, forall_eq_or_imp]
    exact ⟨⟨.inl hmirrors.symm, fun constraint hmem => .inr (ih.1 constraint hmem)⟩,
      .inl hmirrors, fun mirror hmem => .inr (ih.2 mirror hmem)⟩

/-- Whether constraints on known variables can all be met does not depend on
    their order, nor on that of their variables, and if they can be met what is
    known in the end does not depend on it either, whatever program came before. -/
theorem Inference.order_independent (history : InferenceProgram δ β)
    {constraints shuffled mirrored : List Constraint}
    (hknown : ∀ constraint ∈ constraints,
      constraint.fact.Known (Action.after history.run {}).table.size)
    (hshuffled : constraints.Perm shuffled)
    (hmirrored : List.Forall₂ Constraint.Mirrors shuffled mirrored) :
    let state := Action.after history.run {}
    let left := imposeAll constraints state
    let left' := imposeAll mirrored state
    (state.errors.size < left.errors.size ↔ state.errors.size < left'.errors.size) ∧
    (¬ state.errors.size < left.errors.size →
      (∀ a b, Action.outcome (shareRepresentative a b) left' =
        Action.outcome (shareRepresentative a b) left) ∧
      ∀ var, Action.outcome (resolve var) left' = Action.outcome (resolve var) left) := by
  intro state left left'
  obtain ⟨facts, h⟩ : ∃ facts, Explains state.table.nodes facts := ⟨_, history.forest.explains⟩
  obtain ⟨hthere, hback⟩ := Constraint.exists_mirror hshuffled hmirrored
  have hfollows : ∀ fact, Follows (facts ∪ Constraint.said constraints) fact ↔
      Follows (facts ∪ Constraint.said mirrored) fact :=
    fun fact => ⟨Constraint.follows_of_mirrors hthere, Constraint.follows_of_mirrors hback⟩
  have hconsistent := Consistent.congr hfollows
  have hmirroredKnown : ∀ mirror ∈ mirrored, mirror.fact.Known state.table.size := by
    intro mirror hmem
    obtain ⟨constraint, hconstraint, hmirrors⟩ := hback mirror hmem
    exact hmirrors.known (hknown constraint hconstraint)
  cases imposed h hknown with
  | met hsize herrors hleft =>
    cases imposed h hmirroredKnown with
    | met hsize' herrors' hleft' =>
      refine ⟨by rw [herrors, herrors'], fun _ => ?_⟩
      refine outcomes_congr hleft.forest hleft'.forest (hsize'.trans hsize.symm) fun fact => ?_
      exact (hleft'.holds_iff fact).trans ((hfollows fact).symm.trans (hleft.holds_iff fact).symm)
    | conflicting _ hinconsistent =>
      exact absurd (hconsistent.mp hleft.consistent) hinconsistent
  | conflicting herrors hinconsistent =>
    cases imposed h hmirroredKnown with
    | met _ _ hleft' => exact absurd (hconsistent.mpr hleft'.consistent) hinconsistent
    | conflicting herrors' _ =>
      exact ⟨iff_of_true herrors herrors', fun hmet => absurd herrors hmet⟩

/-- Two variables are made equal before one of them is bound, or after that. -/
theorem Inference.order_independent_pair :
    let history : InferenceProgram Unit Unit :=
      .call .fresh fun _ => .call .fresh fun _ => .finish (.ok ())
    let state := Action.after history.run {}
    let node := Provenance.expectedUnify { id := 7 }
    let left := imposeAll [.vars ⟨0⟩ ⟨1⟩ node, .ty ⟨0⟩ .int node] state
    let left' := imposeAll [.ty ⟨0⟩ .int node, .vars ⟨1⟩ ⟨0⟩ node] state
    (∀ a b, Action.outcome (shareRepresentative a b) left' =
      Action.outcome (shareRepresentative a b) left) ∧
    ∀ var, Action.outcome (resolve var) left' = Action.outcome (resolve var) left := by
  intro history state node left left'
  have hknown : ∀ constraint ∈ [Constraint.vars ⟨0⟩ ⟨1⟩ node, Constraint.ty ⟨0⟩ .int node],
      constraint.fact.Known state.table.size := by
    have hsize : state.table.size = 2 := rfl
    simp [hsize, Constraint.fact, Fact.Known]
  have hmet : ¬ state.errors.size < left.errors.size := by decide +kernel
  have hmirrored : List.Forall₂ Constraint.Mirrors
      [Constraint.ty ⟨0⟩ .int node, Constraint.vars ⟨0⟩ ⟨1⟩ node]
      [Constraint.ty ⟨0⟩ .int node, Constraint.vars ⟨1⟩ ⟨0⟩ node] :=
    .cons (.same _) (.cons (.exchanged _ _ _) .nil)
  exact (order_independent history hknown (.swap _ _ _) hmirrored).2 hmet

end Unification
