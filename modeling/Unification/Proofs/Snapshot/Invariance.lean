import Unification.Proofs.Snapshot.Closing

namespace Unification

variable {κ α ε δ β : Type}

/-- A property of the nodes of a machine, and of all nodes that may come to
    stand in their place. -/
structure CopyMachine.Keeps (P : Array (Node α) → Prop) (machine : CopyMachine α) : Prop where
  nodes : P machine.nodes
  copies : ∀ copy ∈ machine.copies, P copy.2

namespace CopyMachine.Keeps

variable {P : Array (Node α) → Prop} {machine : CopyMachine α}

theorem commit (h : machine.Keeps P) (handle : Snapshot) :
    (Action.after (CopyMachine.commit handle : CopyM α (TableError ε) Unit) machine).Keeps P := by
  by_cases hinnermost : machine.copies.head?.map (·.1) = some handle.id
  · obtain ⟨⟨_, nodes⟩, hcopy, rfl⟩ := Option.map_eq_some_iff.mp hinnermost
    obtain ⟨outer, houter⟩ := List.head?_eq_some_iff.mp hcopy
    rw [Action.after_of_ok (commit_of_cons houter)]
    exact ⟨h.nodes, fun copy hmem => h.copies copy (houter ▸ List.mem_cons_of_mem _ hmem)⟩
  · rw [Action.after_of_error ((commit_of_ne hinnermost).trans (mismatch_eq handle machine))]
    exact h

theorem rollback (h : machine.Keeps P) (handle : Snapshot) :
    (Action.after (CopyMachine.rollback handle : CopyM α (TableError ε) Unit) machine).Keeps P := by
  by_cases hinnermost : machine.copies.head?.map (·.1) = some handle.id
  · obtain ⟨⟨_, nodes⟩, hcopy, rfl⟩ := Option.map_eq_some_iff.mp hinnermost
    obtain ⟨outer, houter⟩ := List.head?_eq_some_iff.mp hcopy
    rw [Action.after_of_ok (rollback_of_cons houter)]
    exact ⟨h.copies _ (houter ▸ List.mem_cons_self),
      fun copy hmem => h.copies copy (houter ▸ List.mem_cons_of_mem _ hmem)⟩
  · rw [Action.after_of_error ((rollback_of_ne hinnermost).trans (mismatch_eq handle machine))]
    exact h

variable (keys : KeyScheme κ α ε)

/-- What the calls about keys preserve, the calls about snapshots preserve too. -/
theorem run (hplain : ∀ operation : Operation κ α, operation.isPlain → ∀ nodes, P nodes →
      P (Action.after (operation.run keys) { nodes }).nodes)
    (operation : Operation κ α) (h : machine.Keeps P) :
    (Action.after (CopyMachine.run keys operation) machine).Keeps P := by
  by_cases hkind : operation.isPlain
  · rw [run_of_plain keys hkind, after_onNodes]
    exact ⟨hplain operation hkind machine.nodes h.nodes, h.copies⟩
  cases operation with
  | snapshot =>
    refine ⟨h.nodes, fun copy hmem => ?_⟩
    cases hmem with
    | head => exact h.nodes
    | tail _ hmem => exact h.copies copy hmem
  | commit handle =>
    rw [CopyMachine.run, Action.after_map]
    exact h.commit handle
  | rollback handle =>
    rw [CopyMachine.run, Action.after_map]
    exact h.rollback handle
  | newKeysSince handle =>
    rw [CopyMachine.run, Action.after_map,
      Action.after_of_eq_ending (newKeysSince_eq keys handle machine)]
    exact h
  | _ => exact absurd rfl hkind

theorem perform (hplain : ∀ operation : Operation κ α, operation.isPlain → ∀ nodes, P nodes →
      P (Action.after (operation.run keys) { nodes }).nodes)
    (operations : List (Operation κ α)) (h : machine.Keeps P) :
    (CopyMachine.perform keys operations machine).Keeps P := by
  induction operations generalizing machine with
  | nil => exact h
  | cons operation rest ih => exact ih (h.run keys hplain operation)

end CopyMachine.Keeps

/-- The nodes of every table that calls lead to have what empty ones have and
    the calls about keys preserve. Nothing is to be shown for the journal, as
    rolling back restores nodes that were there before. -/
theorem Table.nodes_induction {P : Array (Node α) → Prop} (keys : KeyScheme κ α ε)
    (hempty : P #[])
    (hplain : ∀ operation : Operation κ α, operation.isPlain → ∀ nodes, P nodes →
      P (Action.after (operation.run keys) { nodes }).nodes)
    (operations : List (Operation κ α)) : P (Table.perform keys operations {}).nodes := by
  obtain ⟨starts, hmirrors⟩ := (CopyMachine.Mirrors.empty (α := α)).perform keys operations
  have hkeeps : CopyMachine.Keeps P {} := ⟨hempty, fun copy hmem => by cases hmem⟩
  rw [← hmirrors.nodes]
  exact (hkeeps.perform keys hplain operations).nodes

end Unification
