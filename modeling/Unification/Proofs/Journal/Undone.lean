import Unification.Proofs.Action
import Unification.Table.Basic

namespace Unification

variable {α δ : Type}

/-- Undoing entries, in the order given, takes nodes back to earlier ones. An
    overwritten node has to be there, or undoing it would be a fault. -/
inductive Undone : List (Entry α) → Array (Node α) → Array (Node α) → Prop where
  | nil (nodes : Array (Node α)) : Undone [] nodes nodes
  | appended {rest : List (Entry α)} {nodes before : Array (Node α)} (index : Nat)
      (hrest : Undone rest nodes.pop before) : Undone (.appended index :: rest) nodes before
  | overwritten {rest : List (Entry α)} {nodes before : Array (Node α)} {index : Nat}
      {old : Node α} (hindex : index < nodes.size)
      (hrest : Undone rest (nodes.setIfInBounds index old) before) :
      Undone (.overwritten index old :: rest) nodes before

theorem undone_append_iff {first second : List (Entry α)} {nodes before : Array (Node α)} :
    Undone (first ++ second) nodes before ↔
      ∃ middle, Undone first nodes middle ∧ Undone second middle before := by
  constructor
  · intro h
    induction first generalizing nodes with
    | nil => exact ⟨nodes, .nil nodes, h⟩
    | cons entry rest ih =>
      cases h with
      | appended index hrest =>
        obtain ⟨middle, hfirst, hsecond⟩ := ih hrest
        exact ⟨middle, .appended index hfirst, hsecond⟩
      | overwritten hindex hrest =>
        obtain ⟨middle, hfirst, hsecond⟩ := ih hrest
        exact ⟨middle, .overwritten hindex hfirst, hsecond⟩
  · rintro ⟨middle, hfirst, hsecond⟩
    induction hfirst with
    | nil => exact hsecond
    | appended index _ ih => exact .appended index (ih hsecond)
    | overwritten hindex _ ih => exact .overwritten hindex (ih hsecond)

/-- Putting back what a node was before a write undoes that write. -/
theorem undone_of_overwrite {nodes : Array (Node α)} {index : Nat} {old : Node α}
    (hold : nodes[index]? = some old) (new : Node α) :
    Undone [.overwritten index old] (nodes.setIfInBounds index new) nodes := by
  obtain ⟨hindex, rfl⟩ := Array.getElem?_eq_some_iff.mp hold
  refine .overwritten (by simpa using hindex) ?_
  have hback : (nodes.setIfInBounds index new).setIfInBounds index nodes[index] = nodes := by
    apply Array.ext_getElem?
    intro i
    by_cases h : index = i
    · subst h
      simp [hindex]
    · simp [h]
  rw [hback]
  exact .nil nodes

theorem undone_of_append (nodes : Array (Node α)) (index : Nat) (node : Node α) :
    Undone [.appended index] (nodes.push node) nodes := by
  refine .appended index ?_
  rw [Array.pop_push]
  exact .nil nodes

/-- Undoing entries on a table changes nothing but its nodes. -/
theorem Table.forM_undo {table : Table α} {entries : List (Entry α)} {before : Array (Node α)}
    (h : Undone entries table.nodes before) :
    (entries.forM undo : TableM α δ PUnit) table = .ok ⟨⟩ { table with nodes := before } := by
  generalize hnodes : table.nodes = nodes at h
  induction h generalizing table with
  | nil =>
    subst hnodes
    rfl
  | appended index _ ih =>
    subst hnodes
    have hstep : (undo (.appended index) : TableM α δ Unit) table =
        .ok () { table with nodes := table.nodes.pop } := rfl
    exact (Action.bind_of_ok hstep).trans (ih rfl)
  | @overwritten _ _ _ index old hindex _ ih =>
    subst hnodes
    have hstep : (undo (.overwritten index old) : TableM α δ Unit) table =
        .ok () { table with nodes := table.nodes.setIfInBounds index old } := by
      rw [undo, Action.bind_of_ok (nodeAt_of_some (Array.getElem?_eq_getElem hindex))]
      rfl
    exact (Action.bind_of_ok hstep).trans (ih rfl)

namespace Journal

/-- Keeps entries one after the other, if there is a snapshot to undo them. -/
def recordAll (journal : Journal α) (entries : List (Entry α)) : Journal α :=
  entries.foldl record journal

@[simp]
theorem frames_record (journal : Journal α) (entry : Entry α) :
    (journal.record entry).frames = journal.frames := by
  unfold record push
  split <;> rfl

@[simp]
theorem nextId_record (journal : Journal α) (entry : Entry α) :
    (journal.record entry).nextId = journal.nextId := by
  unfold record push
  split <;> rfl

@[simp]
theorem frames_recordAll (journal : Journal α) (entries : List (Entry α)) :
    (journal.recordAll entries).frames = journal.frames := by
  induction entries generalizing journal with
  | nil => rfl
  | cons entry rest ih => exact (ih _).trans (frames_record journal entry)

@[simp]
theorem nextId_recordAll (journal : Journal α) (entries : List (Entry α)) :
    (journal.recordAll entries).nextId = journal.nextId := by
  induction entries generalizing journal with
  | nil => rfl
  | cons entry rest ih => exact (ih _).trans (nextId_record journal entry)

theorem recordAll_append (journal : Journal α) (first second : List (Entry α)) :
    journal.recordAll (first ++ second) = (journal.recordAll first).recordAll second :=
  List.foldl_append

/-- While no snapshot is open no entry is kept. -/
theorem recordAll_of_closed {journal : Journal α} (hframes : journal.frames = [])
    (entries : List (Entry α)) : journal.recordAll entries = journal := by
  induction entries with
  | nil => rfl
  | cons entry rest ih =>
    have hrecord : journal.record entry = journal := by simp [record, inSnapshot, hframes]
    rw [recordAll, List.foldl_cons, hrecord]
    exact ih

/-- While a snapshot is open every entry is kept. -/
theorem entries_recordAll {journal : Journal α} (hframes : journal.frames ≠ [])
    (entries : List (Entry α)) :
    (journal.recordAll entries).entries.toList = journal.entries.toList ++ entries := by
  induction entries generalizing journal with
  | nil => simp [recordAll]
  | cons entry rest ih =>
    have hrecord : (journal.record entry).entries.toList = journal.entries.toList ++ [entry] := by
      simp [record, inSnapshot, hframes, push]
    have hopen : (journal.record entry).frames ≠ [] := by simpa using hframes
    have hrest := ih hopen
    rw [hrecord] at hrest
    simpa [recordAll] using hrest

end Journal

end Unification
