import Unification.Proofs.Journal.Undone

namespace Unification

variable {α ε δ : Type}

/-- The index of the node that an entry is about. -/
def Entry.index : Entry α → Nat
  | appended index | overwritten index _ => index

/-- An entry that can be undone while there are some number of nodes: an append
    is that of the last of them, and an overwritten node is one of them. -/
def Entry.InPlace (size : Nat) : Entry α → Prop
  | appended index => index + 1 = size
  | overwritten index _ => index < size

/-- Entries that can be undone in the order given, each of them in place when its
    turn comes, with the number of nodes before and after. -/
inductive Replayable : List (Entry α) → Nat → Nat → Prop where
  | nil (size : Nat) : Replayable [] size size
  | appended {rest : List (Entry α)} {index before : Nat} (hrest : Replayable rest index before) :
      Replayable (.appended index :: rest) (index + 1) before
  | overwritten {rest : List (Entry α)} {index size before : Nat} (old : Node α)
      (hindex : index < size) (hrest : Replayable rest size before) :
      Replayable (.overwritten index old :: rest) size before

namespace Replayable

variable {entries more : List (Entry α)} {entry : Entry α} {size middle before : Nat}

theorem inPlace (h : Replayable (entry :: entries) size before) : entry.InPlace size := by
  cases h with
  | appended => rfl
  | overwritten _ hindex => exact hindex

theorem append (h : Replayable entries size middle) (hmore : Replayable more middle before) :
    Replayable (entries ++ more) size before := by
  induction h with
  | nil => exact hmore
  | appended _ ih => exact .appended (ih hmore)
  | overwritten old hindex _ ih => exact .overwritten old hindex (ih hmore)

/-- Nodes only go away while entries are undone, so that all entries are about
    nodes that are there before. -/
theorem index_lt (h : Replayable entries size before) : ∀ entry ∈ entries, entry.index < size := by
  induction h with
  | nil => exact List.forall_mem_nil _
  | appended _ ih =>
    exact List.forall_mem_cons.mpr
      ⟨Nat.lt_succ_self _, fun entry hmem => Nat.lt_succ_of_lt (ih entry hmem)⟩
  | overwritten _ hindex _ ih => exact List.forall_mem_cons.mpr ⟨hindex, ih⟩

/-- One entry is undone without a fault, and the others are in place after it. -/
theorem exists_undo {table : Table α} (h : Replayable (entry :: entries) table.size before) :
    ∃ left, (Table.undo entry : TableM α δ Unit) table = .ok () left ∧
      Replayable entries left.size before := by
  generalize hsize : table.size = size at h
  cases h with
  | @appended _ index _ hrest =>
    refine ⟨{ table with nodes := table.nodes.pop }, rfl, ?_⟩
    have hpopped : ({ table with nodes := table.nodes.pop } : Table α).size = index := by
      rw [Table.size, Array.size_pop]
      exact Nat.sub_eq_of_eq_add hsize
    rwa [hpopped]
  | @overwritten _ index _ _ old hindex hrest =>
    subst hsize
    refine ⟨{ table with nodes := table.nodes.setIfInBounds index old }, ?_, ?_⟩
    · rw [Table.undo, Action.bind_of_ok (Table.nodeAt_of_some (Array.getElem?_eq_getElem hindex))]
      rfl
    · rwa [Table.size, Array.size_setIfInBounds]

/-- Whatever entries have been undone, the next one is in place. -/
theorem exists_moment {table : Table α} {undone : List (Entry α)}
    (h : Replayable (undone ++ entry :: entries) table.size before) :
    ∃ moment, (undone.forM Table.undo : TableM α δ PUnit) table = .ok ⟨⟩ moment ∧
      entry.InPlace moment.size := by
  induction undone generalizing table with
  | nil => exact ⟨table, rfl, h.inPlace⟩
  | cons first undone ih =>
    obtain ⟨left, hfirst, hrest⟩ := h.exists_undo (δ := δ)
    obtain ⟨moment, hrun, hplace⟩ := ih hrest
    exact ⟨moment, (Action.bind_of_ok hfirst).trans hrun, hplace⟩

end Replayable

theorem Undone.size_le {entries : List (Entry α)} {nodes before : Array (Node α)}
    (h : Undone entries nodes before) : before.size ≤ nodes.size := by
  induction h with
  | nil => exact Nat.le_refl _
  | appended index _ ih =>
    rw [Array.size_pop] at ih
    omega
  | overwritten _ _ ih => rwa [Array.size_setIfInBounds] at ih

/-- Entries that take nodes back to as many nodes are all of overwritten ones, as
    no node comes back that an append has taken away. -/
theorem Undone.replayable {entries : List (Entry α)} {nodes before : Array (Node α)}
    (h : Undone entries nodes before) (hsize : before.size = nodes.size) (hpos : 0 < nodes.size) :
    Replayable entries nodes.size before.size := by
  induction h with
  | nil => exact .nil _
  | appended index hrest =>
    have hle := hrest.size_le
    rw [Array.size_pop] at hle
    omega
  | overwritten hindex hrest ih =>
    rw [Array.size_setIfInBounds] at ih
    exact .overwritten _ hindex (ih hsize hpos)

end Unification
