import Unification.Proofs.Inference.Calls
import Unification.Proofs.Inference.Holds

namespace Unification.Inference

variable {state left : Inference} {a b var : TypeVar}

/-- Whether two variables have one representative, asked one after the other. -/
def shareRepresentative (a b : TypeVar) : InferenceM InferenceError Bool := do
  let first ← representative a
  let second ← representative b
  pure (first == second)

theorem representative_of_le (state : Inference) (hvar : state.table.size ≤ var.id) :
    representative var state =
      .error (.refused (.unknownKey typeVars.tag var.id state.table.size)) state := by
  have hfind : Table.find typeVars var state.table =
      .error (.refused (.unknownKey typeVars.tag var.id state.table.size)) state.table :=
    Action.bind_of_error (Table.locate_of_le typeVars hvar)
  rw [representative, onTable, hfind]

theorem resolve_of_le (state : Inference) (hvar : state.table.size ≤ var.id) :
    resolve var state =
      .error (.refused (.unknownKey typeVars.tag var.id state.table.size)) state := by
  have hprobe : Table.probe typeVars var state.table =
      .error (.refused (.unknownKey typeVars.tag var.id state.table.size)) state.table :=
    Action.bind_of_error (Table.locate_of_le typeVars hvar)
  rw [resolve, onTable_bind, Action.outcome_of_error hprobe, Action.after_of_error hprobe]

theorem representative_of_hasRoot (state : Inference) {root : Nat}
    (hforest : Forest state.table.nodes) (hroot : HasRoot state.table.nodes var.id root) :
    ∃ table, representative var state = .ok { id := root } { state with table } ∧
      Flattened state.table.nodes table.nodes := by
  obtain ⟨table, hrun, hflat⟩ := Table.find_of_hasRoot typeVars hforest hroot
  exact ⟨table, onTable_of_ok hrun, hflat⟩

/-- Variables share a representative if the table says that they are equal. -/
theorem outcome_shareRepresentative (hforest : Forest state.table.nodes)
    (ha : a.id < state.table.size) (hb : b.id < state.table.size) :
    ∃ shared, Action.outcome (shareRepresentative a b) state = .ok shared ∧
      (shared = true ↔ Holds state.table.nodes (.equal a b)) := by
  obtain ⟨rootA, hA⟩ := hforest.exists_root ha
  obtain ⟨rootB, hB⟩ := hforest.exists_root hb
  obtain ⟨middle, hfirst, hflat⟩ := representative_of_hasRoot state hforest hA
  obtain ⟨last, hsecond, -⟩ := representative_of_hasRoot { state with table := middle }
    hflat.forest (hflat.hasRoot hB)
  have hrun : shareRepresentative a b state =
      .ok (TypeVar.mk rootA == TypeVar.mk rootB) { state with table := last } := by
    rw [shareRepresentative, Action.bind_of_ok hfirst, Action.bind_of_ok hsecond]
    rfl
  refine ⟨_, Action.outcome_of_ok hrun, ?_⟩
  rw [beq_iff_eq, TypeVar.mk.injEq, holds_equal_iff hA hB]

/-- A variable resolves to the type that the table says it denotes. -/
theorem outcome_resolve (hforest : Forest state.table.nodes) (hvar : var.id < state.table.size) :
    ∃ answer, Action.outcome (resolve var) state = .ok answer ∧
      ∀ type, answer = some type ↔ Holds state.table.nodes (.denotes var type) := by
  obtain ⟨root, hroot⟩ := hforest.exists_root hvar
  obtain ⟨node, hnode, -⟩ := hroot.1
  obtain ⟨table, hprobe, -⟩ := Table.probe_of_hasRoot typeVars hforest hroot hnode
  refine ⟨node.value.type?, ?_, fun type => ?_⟩
  · rw [Action.outcome_of_eq_ending (resolve_eq var state), Action.outcome_of_ok hprobe]
    rfl
  · rw [hroot.holds_denotes_iff hnode, Binding.type?_eq_some_iff]

/-- The first variable that is not known is reported, whatever the other one is. -/
theorem outcome_shareRepresentative_of_unknown (hforest : Forest state.table.nodes)
    (hunknown : ¬ (a.id < state.table.size ∧ b.id < state.table.size)) :
    Action.outcome (shareRepresentative a b) state =
      .error (.refused (.unknownKey typeVars.tag (if a.id < state.table.size then b.id else a.id)
        state.table.size)) := by
  by_cases ha : a.id < state.table.size
  · have hb : state.table.size ≤ b.id := Nat.not_lt.mp fun hb => hunknown ⟨ha, hb⟩
    obtain ⟨root, hA⟩ := hforest.exists_root ha
    obtain ⟨middle, hfirst, hflat⟩ := representative_of_hasRoot state hforest hA
    have hsize : middle.size = state.table.size := hflat.size_eq
    have hsecond := representative_of_le { state with table := middle } (hsize.symm ▸ hb)
    rw [if_pos ha, ← hsize]
    exact Action.outcome_of_error ((Action.bind_of_ok hfirst).trans (Action.bind_of_error hsecond))
  · rw [if_neg ha]
    exact Action.outcome_of_error
      (Action.bind_of_error (representative_of_le _ (Nat.not_lt.mp ha)))

/-- What can be asked of a state depends on the number of its variables and on
    what its table says of them. -/
theorem outcomes_congr (hforest : Forest state.table.nodes) (hforest' : Forest left.table.nodes)
    (hsize : left.table.size = state.table.size)
    (hholds : ∀ fact, Holds left.table.nodes fact ↔ Holds state.table.nodes fact) :
    (∀ a b, Action.outcome (shareRepresentative a b) left =
      Action.outcome (shareRepresentative a b) state) ∧
    ∀ var, Action.outcome (resolve var) left = Action.outcome (resolve var) state := by
  constructor
  · intro a b
    by_cases hknown : a.id < state.table.size ∧ b.id < state.table.size
    · obtain ⟨shared, hshared, hiff⟩ := outcome_shareRepresentative hforest hknown.1 hknown.2
      rw [← hsize] at hknown
      obtain ⟨shared', hshared', hiff'⟩ := outcome_shareRepresentative hforest' hknown.1 hknown.2
      have hsame : shared' = shared :=
        Bool.eq_iff_iff.mpr (hiff'.trans ((hholds _).trans hiff.symm))
      rw [hshared, hshared', hsame]
    · rw [outcome_shareRepresentative_of_unknown hforest hknown]
      rw [← hsize] at hknown
      rw [outcome_shareRepresentative_of_unknown hforest' hknown, hsize]
  · intro var
    by_cases hvar : var.id < state.table.size
    · obtain ⟨answer, hanswer, hiff⟩ := outcome_resolve hforest hvar
      rw [← hsize] at hvar
      obtain ⟨answer', hanswer', hiff'⟩ := outcome_resolve hforest' hvar
      have hsame : answer' = answer :=
        Option.ext fun type => (hiff' type).trans ((hholds _).trans (hiff type).symm)
      rw [hanswer, hanswer', hsame]
    · rw [Action.outcome_of_error (resolve_of_le _ (Nat.not_lt.mp hvar))]
      rw [← hsize] at hvar
      rw [Action.outcome_of_error (resolve_of_le _ (Nat.not_lt.mp hvar)), hsize]

/-- Shorter ways up make no difference to any answer. -/
theorem outcomes_of_flattened (hforest : Forest state.table.nodes)
    (hflat : Flattened state.table.nodes left.table.nodes) (var : TypeVar) :
    Action.outcome (resolve var) left = Action.outcome (resolve var) state ∧
      Action.outcome (representative var) left = Action.outcome (representative var) state := by
  have hsize : left.table.size = state.table.size := hflat.size_eq
  refine ⟨(outcomes_congr hforest hflat.forest hsize fun _ => hflat.holds_iff hforest).2 var, ?_⟩
  by_cases hvar : var.id < state.table.size
  · obtain ⟨root, hroot⟩ := hforest.exists_root hvar
    obtain ⟨_, hrun, -⟩ := representative_of_hasRoot state hforest hroot
    obtain ⟨_, hrun', -⟩ := representative_of_hasRoot left hflat.forest (hflat.hasRoot hroot)
    rw [Action.outcome_of_ok hrun, Action.outcome_of_ok hrun']
  · rw [Action.outcome_of_error (representative_of_le _ (Nat.not_lt.mp hvar))]
    rw [← hsize] at hvar
    rw [Action.outcome_of_error (representative_of_le _ (Nat.not_lt.mp hvar)), hsize]

end Unification.Inference
