import Unification.Proofs.Forest.Reachable
import Unification.Proofs.Refusal.Conditions

namespace Unification

variable {κ α ε δ β : Type}

namespace Operation

variable (keys : KeyScheme κ α ε) {table : Table α}

private theorem refusal_or_ok_union {a b : κ} {rootA rootB : Nat} (hforest : Forest table.nodes)
    (hA : HasRoot table.nodes (keys.index a) rootA)
    (hB : HasRoot table.nodes (keys.index b) rootB) :
    (∃ reason, Refusal keys table (union a b) reason) ∨
      ∃ result left, (union a b).run keys table = .ok result left := by
  by_cases hsame : rootA = rootB
  · subst hsame
    obtain ⟨left, hrun, -⟩ := Table.union_of_same keys hforest hA hB
    exact .inr ⟨_, left, Action.map_of_ok hrun⟩
  obtain ⟨nodeA, hnodeA, -⟩ := hA.1
  obtain ⟨nodeB, hnodeB, -⟩ := hB.1
  cases hmerge : keys.merge nodeA.value nodeB.value with
  | error conflict => exact .inl ⟨_, .conflict hA hB hsame hnodeA hnodeB hmerge⟩
  | ok merged =>
    cases hnomination : keys.nomination rootA nodeA.value rootB nodeB.value with
    | error reason =>
      obtain ⟨_, _, horder, hother, hswapped, -⟩ := KeyScheme.nomination_eq_error hnomination
      exact .inl ⟨_, .rootOrder hA hB hsame hnodeA hnodeB hmerge horder hother hswapped⟩
    | ok nominated =>
      obtain ⟨_, _, _, _, _, left, -, -, -, hrun, -⟩ :=
        Table.union_of_ok keys hforest hA hB hsame hnodeA hnodeB hmerge hnomination
      exact .inr ⟨_, left, Action.map_of_ok hrun⟩

private theorem refusal_or_ok_unionValue {key : κ} {root : Nat} (hforest : Forest table.nodes)
    (hroot : HasRoot table.nodes (keys.index key) root) (value : α) :
    (∃ reason, Refusal keys table (unionValue key value) reason) ∨
      ∃ result left, (unionValue key value).run keys table = .ok result left := by
  obtain ⟨node, hnode, -⟩ := hroot.1
  cases hmerge : keys.merge node.value value with
  | error conflict => exact .inl ⟨_, .conflictingValue hroot hnode hmerge⟩
  | ok merged =>
    obtain ⟨_, left, hrun, -⟩ := Table.unionValue_of_ok keys hforest hroot hnode hmerge
    exact .inr ⟨_, left, Action.map_of_ok hrun⟩

private theorem refusal_or_ok_newKey (table : Table α) (value : α) :
    (∃ reason, Refusal keys table (newKey value) reason) ∨
      ∃ result left, (newKey value).run keys table = .ok result left := by
  by_cases hindex : table.size < Table.maxKeys
  · by_cases hroom : Table.hasRoom keys.toPayload (table.size + 1)
    · exact .inr ⟨_, _, Action.map_of_ok (Table.newKey_of_room keys table hindex hroom value)⟩
    · exact .inl ⟨_, .noRoom value hindex hroom⟩
  · exact .inl ⟨_, .noIndex value (Nat.not_lt.mp hindex)⟩

private theorem refusal_or_ok_newKeysSince (table : Table α) (handle : Snapshot) :
    (∃ reason, Refusal keys table (newKeysSince handle) reason) ∨
      ∃ result left, (newKeysSince handle).run keys table = .ok result left := by
  have hrun := Table.newKeysSince_eq keys handle table
  cases hopen : table.journal.count? handle with
  | none => exact .inl ⟨_, .notOpen handle hopen⟩
  | some start =>
    by_cases hfull : Table.maxKeys < start ∨ Table.maxKeys < table.size
    · exact .inl ⟨_, .tooManyKeys handle hopen hfull⟩
    · simp only [hopen, hfull, if_false] at hrun
      exact .inr ⟨_, table, Action.map_of_ok hrun⟩

/-- A call that is not refused under any of the conditions ends with a result. -/
theorem refusal_or_ok (operation : Operation κ α) {starts : List (Table α)}
    (hforest : Forest table.nodes) (hsavepoints : Savepoints table starts) :
    (∃ reason, Refusal keys table operation reason) ∨
      ∃ result left, operation.run keys table = .ok result left := by
  rcases hunknown : operation.unknownKey? keys table.size with _ | key
  case some => exact .inl ⟨_, .unknownKey hunknown⟩
  have hroots : ∀ key ∈ operation.mentioned, ∃ root, HasRoot table.nodes (keys.index key) root :=
    fun key hmentioned => hforest.exists_root (index_lt_of_known keys hunknown key hmentioned)
  cases operation with
  | newKey value => exact refusal_or_ok_newKey keys table value
  | find key =>
    obtain ⟨root, hroot⟩ := hroots key (by simp [mentioned])
    obtain ⟨left, hrun, -⟩ := Table.find_of_hasRoot keys hforest hroot
    exact .inr ⟨_, left, Action.map_of_ok hrun⟩
  | probe key =>
    obtain ⟨root, hroot⟩ := hroots key (by simp [mentioned])
    obtain ⟨node, hnode, -⟩ := hroot.1
    obtain ⟨left, hrun, -⟩ := Table.probe_of_hasRoot keys hforest hroot hnode
    exact .inr ⟨_, left, Action.map_of_ok hrun⟩
  | unioned a b =>
    obtain ⟨rootA, hA⟩ := hroots a (by simp [mentioned])
    obtain ⟨rootB, hB⟩ := hroots b (by simp [mentioned])
    obtain ⟨left, hrun, -⟩ := Table.unioned_of_hasRoot keys hforest hA hB
    exact .inr ⟨_, left, Action.map_of_ok hrun⟩
  | union a b =>
    obtain ⟨rootA, hA⟩ := hroots a (by simp [mentioned])
    obtain ⟨rootB, hB⟩ := hroots b (by simp [mentioned])
    exact refusal_or_ok_union keys hforest hA hB
  | unionValue key value =>
    obtain ⟨root, hroot⟩ := hroots key (by simp [mentioned])
    exact refusal_or_ok_unionValue keys hforest hroot value
  | reserve count =>
    by_cases hroom : Table.hasRoom keys.toPayload (table.size + count)
    · exact .inr ⟨_, table, Action.map_of_ok (Table.reserve_of_room table hroom)⟩
    · exact .inl ⟨_, .noReserve count hroom⟩
  | snapshot => exact .inr ⟨_, table.opened, Action.map_of_ok (Table.snapshot_eq table)⟩
  | commit handle =>
    by_cases hinnermost : table.journal.innermost? = some handle.id
    · obtain ⟨start, rest, rfl, rfl⟩ := hsavepoints.exists_cons hinnermost
      obtain ⟨journal, hcommit, -⟩ := hsavepoints.commit?_eq
      exact .inr ⟨_, _, Action.map_of_ok (Table.commit_of_some hcommit)⟩
    · exact .inl ⟨_, .commit handle hinnermost⟩
  | rollback handle =>
    by_cases hinnermost : table.journal.innermost? = some handle.id
    · obtain ⟨start, rest, rfl, rfl⟩ := hsavepoints.exists_cons hinnermost
      exact .inr ⟨_, _,
        Action.map_of_ok (Table.rollback_of_tryRollback hsavepoints.tryRollback_eq)⟩
    · exact .inl ⟨_, .rollback handle hinnermost⟩
  | newKeysSince handle => exact refusal_or_ok_newKeysSince keys table handle

/-- The refusals of a call are those that its conditions name. -/
theorem refusal_of_run {operation : Operation κ α} {starts : List (Table α)}
    {reason : TableError ε} {left : Table α} (hforest : Forest table.nodes)
    (hsavepoints : Savepoints table starts)
    (hrun : operation.run keys table = .error (.refused reason) left) :
    Refusal keys table operation reason := by
  rcases operation.refusal_or_ok keys hforest hsavepoints with ⟨other, hother⟩ | ⟨_, _, hok⟩
  · obtain ⟨_, hsame, -⟩ := hother.exists_run hforest
    rw [hrun] at hsame
    cases hsame
    exact hother
  · rw [hrun] at hok
    cases hok

end Operation

/-- In every table that programs reach, a call is refused for a reason exactly
    under the condition of that reason. A refused call changes nothing, unless
    its values contradict each other or the root order nominated other roots:
    then it has shortened ways up, and nothing else. -/
theorem Program.refusals_exact (keys : KeyScheme κ α ε) (program : Program κ α ε δ β)
    (operation : Operation κ α) :
    let table := Action.after (program.run keys) {}
    (∀ reason, Action.outcome (operation.run keys) table = .error (.refused reason) ↔
      Refusal keys table operation reason) ∧
    ∀ reason left, operation.run keys table = .error (.refused reason) left →
      table.LeftByRefusal (operation.mentioned.map keys.index) reason left := by
  intro table
  have hforest : Forest table.nodes := program.forest keys
  obtain ⟨starts, hsavepoints⟩ := program.exists_savepoints keys
  refine ⟨fun reason => ⟨fun houtcome => ?_, fun hrefusal => ?_⟩, fun reason left hrun => ?_⟩
  · have hrun := Action.run_eq_ending (operation.run keys) table
    rw [houtcome] at hrun
    exact Operation.refusal_of_run keys hforest hsavepoints hrun
  · obtain ⟨left, hrun, -⟩ := hrefusal.exists_run hforest
    exact Action.outcome_of_error hrun
  · have hrefusal := Operation.refusal_of_run keys hforest hsavepoints hrun
    obtain ⟨same, hsame, hleft⟩ := hrefusal.exists_run hforest
    rw [hrun] at hsame
    cases hsame
    exact hleft

end Unification
