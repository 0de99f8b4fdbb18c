import Unification.Proofs.Journal.Undone
import Unification.Table.Union

namespace Unification

variable {κ α ε δ β γ : Type}

/-- An action that looks at nothing but the nodes, and journals all that it
    changes: what it ends with and the nodes that it leaves do not depend on the
    journal, and the entries that it adds take the nodes back to what they were. -/
def Journaled (action : TableM α δ β) : Prop :=
  ∀ nodes, ∃ outcome changed entries, Undone entries.reverse changed nodes ∧
    ∀ journal, action { nodes, journal } =
      Action.ending outcome { nodes := changed, journal := journal.recordAll entries }

namespace Journaled

/-- An action that changes nothing is journaled if the nodes decide what it
    ends with. -/
theorem of_reading {action : TableM α δ β} (outcome : Array (Node α) → Except (Failure δ) β)
    (h : ∀ table, action table = Action.ending (outcome table.nodes) table) : Journaled action := by
  intro nodes
  exact ⟨outcome nodes, nodes, [], .nil nodes, fun journal => h { nodes, journal }⟩

theorem pure (result : β) : Journaled (Pure.pure result : TableM α δ β) :=
  of_reading (fun _ => .ok result) fun _ => rfl

theorem refuse (reason : δ) : Journaled (Failure.refuse reason : TableM α δ β) :=
  of_reading (fun _ => .error (.refused reason)) fun _ => rfl

theorem raise (cause : Fault) : Journaled (Failure.raise cause : TableM α δ β) :=
  of_reading (fun _ => .error (.fault cause)) fun _ => rfl

theorem bind {action : TableM α δ β} {next : β → TableM α δ γ} (haction : Journaled action)
    (hnext : ∀ result, Journaled (next result)) : Journaled (action >>= next) := by
  intro nodes
  obtain ⟨outcome, middle, entries, hundone, hrun⟩ := haction nodes
  cases outcome with
  | error failure =>
    exact ⟨.error failure, middle, entries, hundone, fun journal => Action.bind_of_error (hrun journal)⟩
  | ok result =>
    obtain ⟨final, changed, more, hundoneMore, hrunMore⟩ := hnext result middle
    refine ⟨final, changed, entries ++ more, ?_, fun journal => ?_⟩
    · rw [List.reverse_append]
      exact undone_append_iff.mpr ⟨middle, hundoneMore, hundone⟩
    · rw [Action.bind_of_ok (hrun journal), hrunMore, Journal.recordAll_append]

theorem map {action : TableM α δ β} (haction : Journaled action) (f : β → γ) :
    Journaled (f <$> action) :=
  haction.bind fun result => Journaled.pure (f result)

/-- An action may look at the nodes before it decides how to go on. -/
theorem reads (next : Array (Node α) → TableM α δ β) (h : ∀ nodes, Journaled (next nodes)) :
    Journaled (do next (← get).nodes) :=
  fun nodes => h nodes nodes

theorem nodeAt (index : Nat) : Journaled (Table.nodeAt index : TableM α δ (Node α)) := by
  refine of_reading (fun nodes => nodes[index]?.elim (.error (.fault .indexOutOfBounds)) .ok)
    fun table => ?_
  cases hnode : table.nodes[index]? with
  | some node => exact Table.nodeAt_of_some hnode
  | none => exact Table.nodeAt_of_none hnode

/-- A write is journaled with what it replaces. One that is out of bounds is
    the same fault whether a snapshot is open or not. -/
theorem update (index : Nat) (change : Node α → Node α) :
    Journaled (Table.update index change : TableM α δ Unit) := by
  intro nodes
  cases hnode : nodes[index]? with
  | some node =>
    refine ⟨.ok (), nodes.setIfInBounds index (change node), [.overwritten index node],
      undone_of_overwrite hnode (change node), fun journal => ?_⟩
    have hread : (Table.mk nodes journal).nodes[index]? = some node := hnode
    exact Table.update_of_some hread change
  | none =>
    refine ⟨.error (.fault .indexOutOfBounds), nodes, [], .nil nodes, fun journal => ?_⟩
    have hread : (Table.nodeAt index : TableM α δ (Node α)) { nodes, journal } =
        .error (.fault .indexOutOfBounds) { nodes, journal } := Table.nodeAt_of_none hnode
    by_cases hsnapshot : journal.inSnapshot
    · have hrecord : (Table.record index : TableM α δ Unit) { nodes, journal } =
          .error (.fault .indexOutOfBounds) { nodes, journal } := by
        rw [Table.record, Action.get_bind]
        simp only [hsnapshot, if_true]
        exact Action.bind_of_error hread
      exact Action.bind_of_error hrecord
    · have hrecord : (Table.record index : TableM α δ Unit) { nodes, journal } =
          .ok () { nodes, journal } := by
        rw [Table.record, Action.get_bind]
        simp only [hsnapshot]
        rfl
      exact (Action.bind_of_ok hrecord).trans (Action.bind_of_error hread)

theorem reserve (payload : Payload α ε) (count : Nat) :
    Journaled (Table.reserve payload count) := by
  refine of_reading (fun nodes => if Table.hasRoom payload (nodes.size + count) then .ok ()
    else .error (.refused .outOfMemory)) fun table => ?_
  rw [Table.reserve, Action.get_bind, Table.size]
  cases Table.hasRoom payload (table.nodes.size + count) <;> rfl

theorem push (payload : Payload α ε) (value : α) : Journaled (Table.push payload value) := by
  refine reads (fun nodes => do
    if Table.maxKeys ≤ nodes.size then
      Failure.refuse (.keySpaceExhausted nodes.size)
    Table.reserve payload 1
    modify fun table =>
      { nodes := table.nodes.push (.singleton nodes.size value)
        journal := table.journal.record (.appended nodes.size) }
    Pure.pure nodes.size) fun nodes => ?_
  have happend : Journaled (do
      modify fun table =>
        { nodes := table.nodes.push (.singleton nodes.size value)
          journal := table.journal.record (.appended nodes.size) }
      Pure.pure nodes.size : TableM α (TableError ε) Nat) :=
    fun present => ⟨.ok nodes.size, present.push (.singleton nodes.size value),
      [.appended nodes.size], undone_of_append present nodes.size _, fun _ => rfl⟩
  by_cases hfull : Table.maxKeys ≤ nodes.size
  · simp only [hfull, if_true]
    exact (refuse _).bind fun _ => (reserve payload 1).bind fun _ => happend
  · simp only [hfull, if_false]
    exact (reserve payload 1).bind fun _ => happend

theorem compress (root fuel index : Nat) :
    Journaled (Table.compress root fuel index : TableM α δ Unit) := by
  induction fuel generalizing index with
  | zero => exact .raise .parentCycle
  | succ fuel ih =>
    by_cases hroot : index = root
    · simp only [Table.compress, hroot, ne_eq, not_true_eq_false, if_false]
      exact .pure ()
    · simp only [Table.compress, ne_eq, hroot, not_false_eq_true, if_true]
      refine (nodeAt index).bind fun node => ?_
      split
      · exact ((update index _).bind fun _ => ih node.parent)
      · exact ih node.parent

theorem root (index : Nat) : Journaled (Table.root index : TableM α δ Nat) := by
  intro nodes
  cases hclimb : Table.climb nodes (nodes.size + 1) index with
  | error cause =>
    refine ⟨.error (.fault cause), nodes, [], .nil nodes, fun journal => ?_⟩
    rw [Table.root, Action.get_bind]
    simp only [hclimb]
    rfl
  | ok root =>
    have hcompress : Journaled (do
        Table.compress root (nodes.size + 1) index
        Pure.pure root : TableM α δ Nat) := (compress root _ index).bind fun _ => .pure root
    obtain ⟨outcome, changed, entries, hundone, hrun⟩ := hcompress nodes
    refine ⟨outcome, changed, entries, hundone, fun journal => ?_⟩
    rw [Table.root, Action.get_bind]
    simp only [hclimb]
    exact hrun journal

variable (keys : KeyScheme κ α ε)

theorem locate (key : κ) : Journaled (Table.locate keys key) := by
  refine of_reading (fun nodes => if keys.index key < nodes.size then .ok (keys.index key)
    else .error (.refused (.unknownKey keys.tag (keys.index key) nodes.size))) fun table => ?_
  rw [Table.locate, Action.get_bind, Table.size]
  by_cases hindex : keys.index key < table.nodes.size
  · simp only [hindex, if_true]
    rfl
  · simp only [hindex, if_false]
    rfl

theorem find (key : κ) : Journaled (Table.find keys key) :=
  (locate keys key).bind fun index => (root index).bind fun root => .pure (keys.ofIndex root)

theorem probe (key : κ) : Journaled (Table.probe keys key) :=
  (locate keys key).bind fun index => (root index).bind fun root =>
    (nodeAt root).bind fun node => .pure node.value

theorem unioned (a b : κ) : Journaled (Table.unioned keys a b) :=
  (locate keys a).bind fun a => (locate keys b).bind fun b =>
    (root a).bind fun rootA => (root b).bind fun rootB => .pure (rootA == rootB)

theorem newKey (value : α) : Journaled (Table.newKey keys value) :=
  (push keys.toPayload value).bind fun index => .pure (keys.ofIndex index)

theorem nominate (a b : Nat) : Journaled (Table.nominate keys a b) := by
  refine (nodeAt a).bind fun nodeA => (nodeAt b).bind fun nodeB => ?_
  cases keys.order (keys.ofIndex a) nodeA.value (keys.ofIndex b) nodeB.value with
  | none => exact .pure none
  | some pair =>
    dsimp only
    split
    · exact .pure _
    · exact .refuse _

theorem link (a b : Nat) (value : α) : Journaled (Table.link keys a b value) :=
  (nodeAt a).bind fun _ => (nodeAt b).bind fun _ => (nominate keys a b).bind fun _ =>
    (update _ _).bind fun _ => update _ _

theorem union (a b : κ) : Journaled (Table.union keys a b) := by
  refine (locate keys a).bind fun a => (locate keys b).bind fun b =>
    (root a).bind fun rootA => (root b).bind fun rootB => ?_
  split
  · refine (nodeAt rootA).bind fun nodeA => (nodeAt rootB).bind fun nodeB => ?_
    cases keys.merge nodeA.value nodeB.value with
    | error conflict => exact .refuse (TableError.mergeConflict conflict)
    | ok value => exact link keys rootA rootB value
  · exact .pure ()

theorem unionValue (key : κ) (value : α) : Journaled (Table.unionValue keys key value) := by
  refine (locate keys key).bind fun index => (root index).bind fun root =>
    (nodeAt root).bind fun node => ?_
  cases keys.merge node.value value with
  | error conflict => exact .refuse (TableError.mergeConflict conflict)
  | ok value => exact update root _

end Journaled

end Unification
