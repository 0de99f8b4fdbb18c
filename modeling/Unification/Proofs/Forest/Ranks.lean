import Mathlib.Data.Set.Finite.Lattice
import Mathlib.Order.Lattice.Nat
import Unification.Proofs.Forest.Ascent

namespace Unification

variable {α : Type} {nodes : Array (Node α)} {index : Nat} {node : Node α}

/-- A node is a root, or it hangs below a node of higher rank. -/
def Supported (nodes : Array (Node α)) (index : Nat) (node : Node α) : Prop :=
  node.parent = index ∨ ∃ parent, nodes[node.parent]? = some parent ∧ node.rank < parent.rank

/-- Ranks grow upward. As there are finitely many of them, every way up ends in a root. -/
def Forest (nodes : Array (Node α)) : Prop :=
  ∀ index node, nodes[index]? = some node → Supported nodes index node

/-- How far below a node others are in its tree. -/
def depthsBelow (nodes : Array (Node α)) (index : Nat) : Set Nat :=
  {depth | ∃ below path, Ascent nodes below path index ∧ path.length = depth}

/-- No node is gone, and none has sunk. -/
def RanksKept (nodes nodes' : Array (Node α)) : Prop :=
  ∀ (index : Nat) (node : Node α), nodes[index]? = some node →
    ∃ kept, nodes'[index]? = some kept ∧ node.rank ≤ kept.rank

theorem Supported.mono {nodes' : Array (Node α)} (h : Supported nodes index node)
    (hranks : RanksKept nodes nodes') : Supported nodes' index node := by
  rcases h with hself | ⟨parent, hparent, hless⟩
  · exact .inl hself
  · obtain ⟨kept, hkept, hmore⟩ := hranks node.parent parent hparent
    exact .inr ⟨kept, hkept, Nat.lt_of_lt_of_le hless hmore⟩

theorem RanksKept.push (nodes : Array (Node α)) (new : Node α) :
    RanksKept nodes (nodes.push new) := by
  intro index node hnode
  refine ⟨node, ?_, Nat.le_refl _⟩
  have hindex := (Array.getElem?_eq_some_iff.mp hnode).1
  rw [Array.getElem?_push, if_neg (Nat.ne_of_lt hindex), hnode]

theorem RanksKept.overwrite (hnode : nodes[index]? = some node) {new : Node α}
    (hrank : node.rank ≤ new.rank) : RanksKept nodes (nodes.setIfInBounds index new) := by
  intro other old hold
  rw [getElem?_overwritten hnode]
  split
  next hsame =>
    subst hsame
    rw [hnode] at hold
    cases hold
    exact ⟨new, rfl, hrank⟩
  next => exact ⟨old, hold, Nat.le_refl _⟩

namespace Forest

theorem parent_lt (h : Forest nodes) (hnode : nodes[index]? = some node) :
    node.parent < nodes.size := by
  rcases h index node hnode with hself | ⟨parent, hparent, -⟩
  · rw [hself]
    exact (Array.getElem?_eq_some_iff.mp hnode).1
  · exact (Array.getElem?_eq_some_iff.mp hparent).1

theorem empty : Forest (#[] : Array (Node α)) := by
  intro index node hnode
  simp at hnode

theorem push (h : Forest nodes) (value : α) :
    Forest (nodes.push (.singleton nodes.size value)) := by
  intro index node hnode
  rw [Array.getElem?_push] at hnode
  split at hnode
  next hindex =>
    cases hnode
    exact .inl hindex.symm
  next => exact (h index node hnode).mono (.push nodes _)

/-- A node may be overwritten by one of at least its rank, as long as that one
    is supported. -/
theorem overwrite (h : Forest nodes) (hnode : nodes[index]? = some node) {new : Node α}
    (hrank : node.rank ≤ new.rank) (hnew : Supported nodes index new) :
    Forest (nodes.setIfInBounds index new) := by
  intro other kept hkept
  rw [getElem?_overwritten hnode] at hkept
  split at hkept
  next hsame =>
    cases hkept
    exact hsame ▸ hnew.mono (.overwrite hnode hrank)
  next => exact (h other kept hkept).mono (.overwrite hnode hrank)

/-- On the way up the rank grows by one for each node that is left, at least. -/
theorem add_length_le (h : Forest nodes) {path : List Nat} {top : Nat} {last : Node α}
    (hpath : Ascent nodes index path top) (hnode : nodes[index]? = some node)
    (hlast : nodes[top]? = some last) : node.rank + path.length ≤ last.rank := by
  induction hpath generalizing node with
  | nil index =>
    rw [hnode] at hlast
    cases hlast
    exact Nat.le_refl _
  | @cons index top left path hleft hparent _ ih =>
    rw [hnode] at hleft
    cases hleft
    rcases h index left hnode with hself | ⟨parent, hnext, hless⟩
    · exact absurd hself hparent
    · have hrest := ih hnext hlast
      rw [List.length_cons]
      omega

/-- No way up comes back to where it began. -/
theorem path_eq_nil (h : Forest nodes) {path : List Nat} (hpath : Ascent nodes index path index) :
    path = [] := by
  cases hpath with
  | nil => rfl
  | cons hnode hparent hrest =>
    have hgrow := h.add_length_le (.cons hnode hparent hrest) hnode hnode
    rw [List.length_cons] at hgrow
    omega

/-- A search for the root comes nearer to the highest rank with every step. -/
private theorem exists_root_of_highest (h : Forest nodes) {highest : Nat}
    (hhighest : ∀ (index : Nat) (node : Node α), nodes[index]? = some node → node.rank ≤ highest)
    {index : Nat} {node : Node α} (hnode : nodes[index]? = some node) :
    ∃ root, HasRoot nodes index root := by
  by_cases hself : node.parent = index
  · exact ⟨index, IsRoot.hasRoot ⟨node, hnode, hself⟩⟩
  · obtain ⟨parent, hparent, hless⟩ := (h index node hnode).resolve_left hself
    have hbound := hhighest node.parent parent hparent
    obtain ⟨root, hroot, path, hpath⟩ := exists_root_of_highest h hhighest hparent
    exact ⟨root, hroot, index :: path, .cons hnode hself hpath⟩
termination_by highest - node.rank

/-- Every node is in a tree. -/
theorem exists_root (h : Forest nodes) (hindex : index < nodes.size) :
    ∃ root, HasRoot nodes index root := by
  obtain ⟨highest, hhighest⟩ := (Set.finite_range fun i : Fin nodes.size => nodes[i].rank).bddAbove
  have hall : ∀ (other : Nat) (node : Node α), nodes[other]? = some node →
      node.rank ≤ highest := by
    intro other node hnode
    obtain ⟨hother, rfl⟩ := Array.getElem?_eq_some_iff.mp hnode
    exact hhighest ⟨⟨other, hother⟩, rfl⟩
  exact h.exists_root_of_highest hall (Array.getElem?_eq_getElem hindex)

/-- The height of the tree below a node is at most its rank. -/
theorem exists_height (h : Forest nodes) (hnode : nodes[index]? = some node) :
    ∃ height, IsGreatest (depthsBelow nodes index) height ∧ height ≤ node.rank := by
  have hbound : ∀ depth ∈ depthsBelow nodes index, depth ≤ node.rank := by
    rintro depth ⟨below, path, hpath, rfl⟩
    cases hpath with
    | nil => exact Nat.zero_le _
    | cons hbelow hparent hrest =>
      have hgrow := h.add_length_le (.cons hbelow hparent hrest) hbelow hnode
      omega
  have hbounded : BddAbove (depthsBelow nodes index) := ⟨node.rank, hbound⟩
  have hgreatest : sSup (depthsBelow nodes index) ∈ depthsBelow nodes index :=
    Nat.sSup_mem ⟨0, index, [], .nil index, rfl⟩ hbounded
  exact ⟨_, ⟨hgreatest, fun depth hdepth => le_csSup hbounded hdepth⟩, hbound _ hgreatest⟩

end Forest

theorem HasRoot.push {root : Nat} (h : HasRoot nodes index root) (new : Node α) :
    HasRoot (nodes.push new) index root := by
  refine h.congr fun other hother => ?_
  rw [Array.getElem?_push, if_neg (Nat.ne_of_lt hother)]

theorem IsRoot.push_size (nodes : Array (Node α)) (value : α) :
    IsRoot (nodes.push (.singleton nodes.size value)) nodes.size :=
  ⟨.singleton nodes.size value, by rw [Array.getElem?_push, if_pos rfl], rfl⟩

/-- A new node has a tree of its own, and the others stay as they were. -/
theorem HasRoot.push_cases {root : Nat} {value : α}
    (h : HasRoot (nodes.push (.singleton nodes.size value)) index root) (hforest : Forest nodes) :
    HasRoot nodes index root ∨ index = nodes.size ∧ root = nodes.size := by
  have hindex := h.lt_size
  rw [Array.size_push] at hindex
  rcases Nat.lt_succ_iff_lt_or_eq.mp hindex with hless | rfl
  · obtain ⟨old, hold⟩ := hforest.exists_root hless
    rw [(hold.push _).unique h] at hold
    exact .inl hold
  · exact .inr ⟨rfl, h.unique (IsRoot.push_size nodes value).hasRoot⟩

end Unification
