import Unification.Proofs.Forest.Effect
import Unification.Proofs.Snapshot.Invariance

namespace Unification

variable {κ α ε δ β : Type}

theorem Table.forest_perform (keys : KeyScheme κ α ε) (operations : List (Operation κ α)) :
    Forest (Table.perform keys operations {}).nodes := by
  refine Table.nodes_induction keys .empty (fun operation hplain nodes hforest => ?_) operations
  obtain ⟨outcome, left, hrun, heffect⟩ := Operation.exists_effect keys { nodes } hplain hforest
  rw [Action.after_of_eq_ending hrun]
  exact heffect.forest hforest

/-- What every effect of a call preserves in forests holds of all nodes that calls
    lead to. -/
theorem Table.effect_induction {P : Array (Node α) → Prop} (keys : KeyScheme κ α ε)
    (hempty : P #[])
    (hstep : ∀ {nodes left : Array (Node α)} {operation : Operation κ α}
      {outcome : Except (Failure (TableError ε)) (TableAnswer κ α)},
      Forest nodes → P nodes → Effect keys nodes operation outcome left → P left)
    (operations : List (Operation κ α)) : P (Table.perform keys operations {}).nodes := by
  refine (Table.nodes_induction (P := fun nodes => Forest nodes ∧ P nodes) keys
    ⟨.empty, hempty⟩ (fun operation hplain nodes h => ?_) operations).2
  obtain ⟨outcome, left, hrun, heffect⟩ := Operation.exists_effect keys { nodes } hplain h.1
  rw [Action.after_of_eq_ending hrun]
  exact ⟨heffect.forest h.1, hstep h.1 h.2 heffect⟩

/-- There are never more keys than indices. -/
theorem Table.size_perform_le (keys : KeyScheme κ α ε) (operations : List (Operation κ α)) :
    (Table.perform keys operations {}).size ≤ Table.maxKeys := by
  refine (Table.nodes_induction (P := fun nodes => Forest nodes ∧ nodes.size ≤ Table.maxKeys) keys
    ⟨.empty, Nat.zero_le _⟩ (fun operation hplain nodes h => ?_) operations).2
  obtain ⟨outcome, left, hrun, heffect⟩ := Operation.exists_effect keys { nodes } hplain h.1
  have hleft := Action.after_of_eq_ending hrun
  refine ⟨hleft ▸ heffect.forest h.1, ?_⟩
  by_cases hnew : ∀ value, operation ≠ .newKey value
  · rw [hleft, heffect.size_eq hnew]
    exact h.2
  obtain ⟨value, rfl⟩ := not_forall_not.mp hnew
  rw [Operation.run, Action.after_map] at hleft ⊢
  by_cases hfull : Table.maxKeys ≤ nodes.size
  · rw [Action.after_of_error (Table.newKey_of_full keys { nodes } hfull value)]
    exact h.2
  · rw [hleft]
    generalize left.nodes = changed at heffect
    cases heffect with
    | refused _ hflat => exact hflat.size_eq ▸ h.2
    | newKey =>
      rw [Array.size_push]
      exact Nat.lt_of_not_le hfull

/-- All tables that programs reach are forests. -/
theorem Program.forest (keys : KeyScheme κ α ε) (program : Program κ α ε δ β) :
    Forest (Action.after (program.run keys) {}).nodes := by
  obtain ⟨operations, hoperations⟩ := program.exists_perform keys
  rw [hoperations]
  exact Table.forest_perform keys operations

end Unification
