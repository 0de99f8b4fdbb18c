import Unification.Keys.Numbering
import Unification.Keys.RootOrder
import Unification.Payload.Number
import Unification.Proofs.Silent.Calls

namespace Unification

variable {κ α ε δ β : Type}

namespace CopyMachine

/-- The copies of the same snapshots, each of a forest like the other one. -/
abbrev CopiesAlike : List (Nat × Array (Node α)) → List (Nat × Array (Node α)) → Prop :=
  List.Forall₂ fun copy other => copy.1 = other.1 ∧ Alike copy.2 other.2

namespace CopiesAlike

variable {copies others : List (Nat × Array (Node α))}

theorem symm (h : CopiesAlike copies others) : CopiesAlike others copies :=
  h.flip.imp fun _ _ hcopy => ⟨hcopy.1.symm, hcopy.2.symm⟩

theorem ids_eq (h : CopiesAlike copies others) : copies.map (·.1) = others.map (·.1) := by
  induction h with
  | nil => rfl
  | cons hcopy _ ih => rw [List.map_cons, List.map_cons, hcopy.1, ih]

theorem innermost_eq (h : CopiesAlike copies others) :
    copies.head?.map (·.1) = others.head?.map (·.1) := by
  rw [← List.head?_map, ← List.head?_map, h.ids_eq]

theorem count_eq (h : CopiesAlike copies others) (id : Nat) :
    (copies.find? (·.1 == id)).map (·.2.size) = (others.find? (·.1 == id)).map (·.2.size) := by
  induction h with
  | nil => rfl
  | @cons copy other _ _ hcopy _ ih =>
    by_cases hid : copy.1 = id
    · simp [← hcopy.1, hid, hcopy.2.size_eq]
    · simpa [← hcopy.1, hid] using ih

/-- Both stacks have their own copy of the innermost snapshot. -/
theorem exists_cons (h : CopiesAlike copies others) {id : Nat}
    (hinnermost : copies.head?.map (·.1) = some id) :
    ∃ nodes otherNodes outer otherOuter, copies = (id, nodes) :: outer ∧
      others = (id, otherNodes) :: otherOuter ∧ Alike nodes otherNodes ∧
      CopiesAlike outer otherOuter := by
  cases h with
  | nil => cases hinnermost
  | @cons copy other outer otherOuter hcopy houter =>
    obtain rfl : copy.1 = id := Option.some.inj hinnermost
    refine ⟨copy.2, other.2, outer, otherOuter, rfl, ?_, hcopy.2, houter⟩
    rw [hcopy.1]

end CopiesAlike

/-- Two machines with the same open snapshots, whose nodes and copies are alike. -/
structure InStep (machine other : CopyMachine α) : Prop where
  nodes : Alike machine.nodes other.nodes
  copies : CopiesAlike machine.copies other.copies
  nextId : machine.nextId = other.nextId

theorem InStep.empty : InStep ({} : CopyMachine α) {} where
  nodes := .refl .empty
  copies := .nil
  nextId := rfl

theorem InStep.symm {machine other : CopyMachine α} (h : InStep machine other) :
    InStep other machine where
  nodes := h.nodes.symm
  copies := h.copies.symm
  nextId := h.nextId.symm

/-- An action ends with the same on both machines, and leaves them in step. -/
structure KeepsStep (action : CopyM α δ β) (machine other : CopyMachine α) : Prop where
  outcome_eq : Action.outcome action machine = Action.outcome action other
  inStep : InStep (Action.after action machine) (Action.after action other)

namespace KeepsStep

variable {action : CopyM α δ β} {machine other left otherLeft : CopyMachine α}

theorem of_eq_ending (outcome : Except (Failure δ) β)
    (hmachine : action machine = Action.ending outcome left)
    (hother : action other = Action.ending outcome otherLeft) (h : InStep left otherLeft) :
    KeepsStep action machine other where
  outcome_eq := by rw [Action.outcome_of_eq_ending hmachine, Action.outcome_of_eq_ending hother]
  inStep := by rwa [Action.after_of_eq_ending hmachine, Action.after_of_eq_ending hother]

theorem map {γ : Type} (h : KeepsStep action machine other) (f : β → γ) :
    KeepsStep (f <$> action) machine other where
  outcome_eq := by rw [Action.outcome_map, Action.outcome_map, h.outcome_eq]
  inStep := by
    rw [Action.after_map, Action.after_map]
    exact h.inStep

end KeepsStep

namespace InStep

variable {machine other : CopyMachine α}

theorem onNodes (keys : KeyScheme κ α ε) {operation : Operation κ α} (hplain : operation.isPlain)
    (h : InStep machine other) : KeepsStep (onNodes (operation.run keys)) machine other := by
  obtain ⟨houtcome, hleft⟩ := Operation.run_alike keys hplain h.nodes
  have hother : CopyMachine.onNodes (operation.run keys) other =
      Action.ending (Action.outcome (operation.run keys) { nodes := machine.nodes })
        { other with
          nodes := (Action.after (operation.run keys) { nodes := other.nodes }).nodes } := by
    rw [houtcome]
    rfl
  exact .of_eq_ending _ rfl hother ⟨hleft, h.copies, h.nextId⟩

theorem snapshot (h : InStep machine other) :
    KeepsStep (snapshot : CopyM α δ Snapshot) machine other := by
  have hother : (CopyMachine.snapshot : CopyM α δ Snapshot) other =
      .ok { id := machine.nextId }
        { other with
          copies := (machine.nextId, other.nodes) :: other.copies
          nextId := machine.nextId + 1 } := by
    rw [h.nextId]
    rfl
  exact .of_eq_ending (.ok _) rfl hother ⟨h.nodes, .cons ⟨rfl, h.nodes⟩ h.copies, rfl⟩

/-- Both machines refuse a handle with the same innermost snapshot. -/
theorem of_mismatch {action : CopyM α (TableError ε) β} {handle : Snapshot}
    (hmachine : action machine = mismatch handle machine)
    (hother : action other = mismatch handle other) (h : InStep machine other) :
    KeepsStep action machine other := by
  rw [mismatch_eq] at hmachine hother
  rw [← h.copies.innermost_eq] at hother
  exact .of_eq_ending (.error _) hmachine hother h

theorem commit (h : InStep machine other) (handle : Snapshot) :
    KeepsStep (commit handle : CopyM α (TableError ε) Unit) machine other := by
  by_cases hinnermost : machine.copies.head?.map (·.1) = some handle.id
  · obtain ⟨_, _, _, _, hcopies, hother, -, houter⟩ := h.copies.exists_cons hinnermost
    exact .of_eq_ending (.ok ()) (commit_of_cons hcopies) (commit_of_cons hother)
      ⟨h.nodes, houter, h.nextId⟩
  · have hother := h.copies.innermost_eq ▸ hinnermost
    exact h.of_mismatch (commit_of_ne hinnermost) (commit_of_ne hother)

/-- The copies that come back are alike, whatever was journaled since. -/
theorem rollback (h : InStep machine other) (handle : Snapshot) :
    KeepsStep (rollback handle : CopyM α (TableError ε) Unit) machine other := by
  by_cases hinnermost : machine.copies.head?.map (·.1) = some handle.id
  · obtain ⟨_, _, _, _, hcopies, hother, hnodes, houter⟩ := h.copies.exists_cons hinnermost
    exact .of_eq_ending (.ok ()) (rollback_of_cons hcopies) (rollback_of_cons hother)
      ⟨hnodes, houter, h.nextId⟩
  · have hother := h.copies.innermost_eq ▸ hinnermost
    exact h.of_mismatch (rollback_of_ne hinnermost) (rollback_of_ne hother)

theorem newKeysSince (keys : KeyScheme κ α ε) (h : InStep machine other) (handle : Snapshot) :
    KeepsStep (newKeysSince keys handle) machine other := by
  have hother := newKeysSince_eq keys handle other
  rw [← h.copies.innermost_eq, ← h.copies.count_eq, ← h.nodes.size_eq] at hother
  exact .of_eq_ending _ (newKeysSince_eq keys handle machine) hother h

/-- Machines in step give the same reply to every call, and stay in step. -/
theorem run (keys : KeyScheme κ α ε) (operation : Operation κ α) (h : InStep machine other) :
    KeepsStep (run keys operation) machine other := by
  by_cases hplain : operation.isPlain
  · rw [run_of_plain keys hplain]
    exact h.onNodes keys hplain
  cases operation with
  | snapshot => exact h.snapshot.map _
  | commit handle => exact (h.commit handle).map _
  | rollback handle => exact (h.rollback handle).map _
  | newKeysSince handle => exact (h.newKeysSince keys handle).map _
  | _ => exact absurd rfl hplain

end InStep

end CopyMachine

/-- Two tables that machines in step mirror. -/
inductive Table.InStep : Table α → Table α → Prop where
  | mirrored {machine otherMachine : CopyMachine α} {table other : Table α}
      {starts otherStarts : List (Table α)} (h : machine.Mirrors table starts)
      (hother : otherMachine.Mirrors other otherStarts) (hstep : machine.InStep otherMachine) :
      InStep table other

namespace Table.InStep

variable {table other : Table α}

theorem empty : InStep ({} : Table α) {} :=
  .mirrored .empty .empty .empty

theorem symm (h : InStep table other) : InStep other table := by
  obtain ⟨h, hother, hstep⟩ := h
  exact .mirrored hother h hstep.symm

theorem alike (h : InStep table other) : Alike table.nodes other.nodes := by
  obtain ⟨h, hother, hstep⟩ := h
  rw [← h.nodes, ← hother.nodes]
  exact hstep.nodes

theorem openIds_eq (h : InStep table other) : table.journal.openIds = other.journal.openIds := by
  obtain ⟨h, hother, hstep⟩ := h
  rw [← h.openIds_eq, ← hother.openIds_eq]
  exact hstep.copies.ids_eq

theorem nextId_eq (h : InStep table other) : table.journal.nextId = other.journal.nextId := by
  obtain ⟨h, hother, hstep⟩ := h
  rw [← h.nextId, ← hother.nextId, hstep.nextId]

/-- A call that both tables get keeps them in step. -/
theorem run (keys : KeyScheme κ α ε) (operation : Operation κ α) (h : InStep table other) :
    Action.outcome (operation.run keys) table = Action.outcome (operation.run keys) other ∧
      InStep (Action.after (operation.run keys) table)
        (Action.after (operation.run keys) other) := by
  obtain ⟨h, hother, hstep⟩ := h
  have hcall := h.run keys operation
  have hotherCall := hother.run keys operation
  have hboth := hstep.run keys operation
  refine ⟨?_, .mirrored hcall.mirrors hotherCall.mirrors hboth.inStep⟩
  rw [← hcall.outcome, ← hotherCall.outcome, hboth.outcome_eq]

/-- A silent call that only one of the tables gets keeps them in step. -/
theorem silent {keys : KeyScheme κ α ε} {operation : Operation κ α} (h : InStep table other)
    (hsilent : Silent keys table operation) :
    InStep (Action.after (operation.run keys) table) other := by
  have halike := (hsilent.alike h.alike.forest).symm.trans h.alike
  obtain @⟨machine, otherMachine, _, _, _, _, h, hother, hstep⟩ := h
  have hcall := (h.run keys operation).mirrors
  rw [CopyMachine.run_of_plain keys hsilent.isPlain, CopyMachine.after_onNodes] at hcall
  rw [← hcall.nodes, ← hother.nodes] at halike
  exact .mirrored hcall hother ⟨halike, hstep.copies, hstep.nextId⟩

end Table.InStep

/-- How one run of calls is made into another one: a call is kept, left out or
    put in between. -/
inductive Edit (κ α : Type) where
  | keep (operation : Operation κ α)
  | leaveOut (operation : Operation κ α)
  | putIn (operation : Operation κ α)

namespace Edit

def original? : Edit κ α → Option (Operation κ α)
  | keep operation | leaveOut operation => some operation
  | putIn _ => none

def edited? : Edit κ α → Option (Operation κ α)
  | keep operation | putIn operation => some operation
  | leaveOut _ => none

/-- All calls that are left out or put in are silent, each in the run that has it. -/
def AllSilent (keys : KeyScheme κ α ε) : List (Edit κ α) → Table α → Table α → Prop
  | [], _, _ => True
  | keep operation :: rest, table, other =>
    AllSilent keys rest (Action.after (operation.run keys) table)
      (Action.after (operation.run keys) other)
  | leaveOut operation :: rest, table, other =>
    Silent keys table operation ∧
      AllSilent keys rest (Action.after (operation.run keys) table) other
  | putIn operation :: rest, table, other =>
    Silent keys other operation ∧
      AllSilent keys rest table (Action.after (operation.run keys) other)

theorem inStep_perform {keys : KeyScheme κ α ε} {done rest : List (Edit κ α)} {table other : Table α}
    (hsilent : AllSilent keys (done ++ rest) table other) (h : table.InStep other) :
    (Table.perform keys (done.filterMap original?) table).InStep
      (Table.perform keys (done.filterMap edited?) other) := by
  induction done generalizing table other with
  | nil => exact h
  | cons edit done ih =>
    cases edit with
    | keep operation => exact ih hsilent (h.run keys operation).2
    | leaveOut operation => exact ih hsilent.2 (h.silent hsilent.1)
    | putIn operation => exact ih hsilent.2 (h.symm.silent hsilent.1).symm

/-- Silent calls can be left out of a run of calls, and put in, wherever that may
    be: within snapshots that are rolled back later, or between unions. Nobody
    notices. All other calls end as before, and at every point both tables have
    the same number of nodes, of the same ranks and values and with the same
    roots, and the same open snapshots. -/
theorem unnoticed (keys : KeyScheme κ α ε) (script : List (Edit κ α))
    (hsilent : AllSilent keys script {} {}) :
    ∀ done rest, script = done ++ rest →
      let table := Table.perform keys (done.filterMap original?) {}
      let other := Table.perform keys (done.filterMap edited?) {}
      Alike table.nodes other.nodes ∧ table.journal.openIds = other.journal.openIds ∧
        table.journal.nextId = other.journal.nextId ∧
        ∀ operation later, rest = keep operation :: later →
          Action.outcome (operation.run keys) table =
            Action.outcome (operation.run keys) other := by
  rintro done rest rfl table other
  have hstep : table.InStep other := inStep_perform hsilent .empty
  exact ⟨hstep.alike, hstep.openIds_eq, hstep.nextId_eq,
    fun operation _ _ => (hstep.run keys operation).1⟩

/-- Within a snapshot one run searches, and the other one unions two keys of one
    class and fails to union two others. Then the snapshot is rolled back. -/
theorem unnoticed_numbers :
    let keys := KeyScheme.of Number.payload Numbering.direct "number" RootOrder.byRank
    let script := [.keep (.newKey ⟨1⟩), .keep (.newKey .unset), .keep (.newKey ⟨2⟩),
      .keep (.newKey .unset), .keep (.union 0 1), .keep (.union 2 3), .keep .snapshot,
      .leaveOut (.find 0), .putIn (.union 0 1), .putIn (.union 1 3), .keep (.unionValue 1 ⟨1⟩),
      .leaveOut (.unionValue 3 ⟨1⟩), .keep (.newKey ⟨2⟩), .keep (.union 4 2), .putIn (.probe 2),
      .keep (.rollback ⟨1⟩), .keep (.find 0)]
    AllSilent keys script {} {} ∧
      ∀ done rest, script = done ++ rest →
        let table := Table.perform keys (done.filterMap original?) {}
        let other := Table.perform keys (done.filterMap edited?) {}
        Alike table.nodes other.nodes ∧ table.journal.openIds = other.journal.openIds ∧
          table.journal.nextId = other.journal.nextId ∧
          ∀ operation later, rest = keep operation :: later →
            Action.outcome (operation.run keys) table =
              Action.outcome (operation.run keys) other := by
  intro keys script
  have hsilent : AllSilent keys script {} {} :=
    ⟨.find 0, .sameClass (by decide +kernel),
      .failedUnion (.refused (.mergeConflict ⟨⟨1⟩, ⟨2⟩⟩)) (by decide +kernel),
      .failedValue (.refused (.mergeConflict ⟨⟨2⟩, ⟨1⟩⟩)) (by decide +kernel),
      .probe 2, trivial⟩
  exact ⟨hsilent, unnoticed keys script hsilent⟩

end Edit

end Unification
