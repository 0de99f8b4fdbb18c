import Mathlib.Data.List.Perm.Subperm
import Unification.Table.Search

namespace Unification

variable {α : Type}

/-- A way up through parents: the nodes that are left on it, none of which is a
    root, and the node that it comes to. -/
inductive Ascent (nodes : Array (Node α)) : Nat → List Nat → Nat → Prop where
  | nil (index : Nat) : Ascent nodes index [] index
  | cons {index top : Nat} {node : Node α} {path : List Nat} (hnode : nodes[index]? = some node)
      (hparent : node.parent ≠ index) (hrest : Ascent nodes node.parent path top) :
      Ascent nodes index (index :: path) top

def IsRoot (nodes : Array (Node α)) (index : Nat) : Prop :=
  ∃ node, nodes[index]? = some node ∧ node.parent = index

/-- The root of the tree that a node is in. -/
def HasRoot (nodes : Array (Node α)) (index root : Nat) : Prop :=
  IsRoot nodes root ∧ ∃ path, Ascent nodes index path root

theorem getElem?_overwritten {nodes : Array (Node α)} {index : Nat} {node : Node α}
    (hnode : nodes[index]? = some node) (new : Node α) (other : Nat) :
    (nodes.setIfInBounds index new)[other]? = if index = other then some new else nodes[other]? := by
  obtain ⟨hindex, -⟩ := Array.getElem?_eq_some_iff.mp hnode
  simp only [Array.getElem?_setIfInBounds, hindex, if_true]

theorem IsRoot.lt_size {nodes : Array (Node α)} {index : Nat} (h : IsRoot nodes index) :
    index < nodes.size := by
  obtain ⟨node, hnode, -⟩ := h
  exact (Array.getElem?_eq_some_iff.mp hnode).1

theorem IsRoot.parent_eq {nodes : Array (Node α)} {index : Nat} {node : Node α}
    (h : IsRoot nodes index) (hnode : nodes[index]? = some node) : node.parent = index := by
  obtain ⟨same, hsame, hself⟩ := h
  rw [hnode] at hsame
  cases hsame
  exact hself

theorem IsRoot.hasRoot {nodes : Array (Node α)} {index : Nat} (h : IsRoot nodes index) :
    HasRoot nodes index index :=
  ⟨h, [], .nil index⟩

namespace Ascent

variable {nodes : Array (Node α)} {index top : Nat} {path : List Nat}

/-- The nodes on an ascent are there and are no roots. -/
theorem exists_of_mem (h : Ascent nodes index path top) :
    ∀ visited ∈ path, ∃ node, nodes[visited]? = some node ∧ node.parent ≠ visited := by
  induction h with
  | nil => simp
  | cons hnode hparent _ ih =>
    intro visited hvisited
    cases hvisited with
    | head => exact ⟨_, hnode, hparent⟩
    | tail _ hvisited => exact ih visited hvisited

theorem not_mem_of_isRoot (h : Ascent nodes index path top) {root : Nat}
    (hroot : IsRoot nodes root) : root ∉ path := by
  intro hmem
  obtain ⟨node, hnode, hparent⟩ := h.exists_of_mem root hmem
  exact hparent (hroot.parent_eq hnode)

/-- From every node that is left on the way the rest of the way goes on. -/
theorem of_mem (h : Ascent nodes index path top) {visited : Nat} (hvisited : visited ∈ path) :
    ∃ rest, Ascent nodes visited rest top ∧ rest ≠ [] ∧ rest.length ≤ path.length := by
  induction h with
  | nil => simp at hvisited
  | @cons index top node path hnode hparent hrest ih =>
    cases hvisited with
    | head => exact ⟨_, .cons hnode hparent hrest, by simp, Nat.le_refl _⟩
    | tail _ hvisited =>
      obtain ⟨rest, hup, hne, hlength⟩ := ih hvisited
      exact ⟨rest, hup, hne, by simp only [List.length_cons]; omega⟩

/-- There is one way up to a root, and one root that it comes to. -/
theorem unique (h : Ascent nodes index path top) (hroot : IsRoot nodes top) {path' : List Nat}
    {top' : Nat} (h' : Ascent nodes index path' top') (hroot' : IsRoot nodes top') :
    path = path' ∧ top = top' := by
  induction h generalizing path' with
  | nil index =>
    cases h' with
    | nil => exact ⟨rfl, rfl⟩
    | cons hnode hparent hrest =>
      exact absurd List.mem_cons_self ((Ascent.cons hnode hparent hrest).not_mem_of_isRoot hroot)
  | cons hnode hparent hrest ih =>
    cases h' with
    | nil =>
      exact absurd List.mem_cons_self ((Ascent.cons hnode hparent hrest).not_mem_of_isRoot hroot')
    | cons hnode' _ hrest' =>
      rw [hnode] at hnode'
      cases hnode'
      obtain ⟨hpath, htop⟩ := ih hroot hrest'
      exact ⟨by rw [hpath], htop⟩

/-- A way up to a root visits no node twice. -/
theorem not_mem_rest {node : Node α} (hnode : nodes[index]? = some node)
    (hparent : node.parent ≠ index) (h : Ascent nodes node.parent path top)
    (hroot : IsRoot nodes top) : index ∉ path := by
  intro hmem
  obtain ⟨rest, hup, -, hlength⟩ := h.of_mem hmem
  have hsame := (hup.unique hroot (.cons hnode hparent h) hroot).1
  rw [hsame, List.length_cons] at hlength
  omega

theorem nodup (h : Ascent nodes index path top) (hroot : IsRoot nodes top) : path.Nodup := by
  induction h with
  | nil => exact List.nodup_nil
  | cons hnode hparent hrest ih =>
    exact List.nodup_cons.mpr ⟨not_mem_rest hnode hparent hrest hroot, ih hroot⟩

/-- A way up to a root is shorter than the number of nodes. -/
theorem length_lt_size (h : Ascent nodes index path top) (hroot : IsRoot nodes top) :
    path.length < nodes.size := by
  have hnodup : (top :: path).Nodup :=
    List.nodup_cons.mpr ⟨h.not_mem_of_isRoot hroot, h.nodup hroot⟩
  have hsubset : top :: path ⊆ List.range nodes.size := by
    intro visited hvisited
    rw [List.mem_range]
    cases hvisited with
    | head => exact hroot.lt_size
    | tail _ hvisited =>
      obtain ⟨node, hnode, -⟩ := h.exists_of_mem visited hvisited
      exact (Array.getElem?_eq_some_iff.mp hnode).1
  have hlength := (List.subperm_of_subset hnodup hsubset).length_le
  rw [List.length_range, List.length_cons] at hlength
  omega

/-- An ascent depends on nothing but the parents of the nodes that it leaves. -/
theorem congr {nodes' : Array (Node α)} (h : Ascent nodes index path top)
    (hparents : ∀ visited ∈ path, (nodes'[visited]?).map (·.parent) =
      (nodes[visited]?).map (·.parent)) : Ascent nodes' index path top := by
  induction h with
  | nil index => exact .nil index
  | @cons index top node path hnode hparent hrest ih =>
    have hsame := hparents index List.mem_cons_self
    rw [hnode, Option.map_some, Option.map_eq_some_iff] at hsame
    obtain ⟨node', hnode', hparent'⟩ := hsame
    refine .cons hnode' (hparent' ▸ hparent) (hparent' ▸ ih fun visited hvisited => ?_)
    exact hparents visited (List.mem_cons_of_mem index hvisited)

end Ascent

namespace HasRoot

variable {nodes : Array (Node α)} {index root : Nat}

theorem unique {root' : Nat} (h : HasRoot nodes index root) (h' : HasRoot nodes index root') :
    root = root' := by
  obtain ⟨hroot, path, hpath⟩ := h
  obtain ⟨hroot', path', hpath'⟩ := h'
  exact (hpath.unique hroot hpath' hroot').2

theorem lt_size (h : HasRoot nodes index root) : index < nodes.size := by
  obtain ⟨hroot, path, hpath⟩ := h
  cases hpath with
  | nil => exact hroot.lt_size
  | cons hnode => exact (Array.getElem?_eq_some_iff.mp hnode).1

theorem congr {nodes' : Array (Node α)} (h : HasRoot nodes index root)
    (hparents : ∀ other : Nat, other < nodes.size →
      (nodes'[other]?).map (·.parent) = (nodes[other]?).map (·.parent)) :
    HasRoot nodes' index root := by
  obtain ⟨⟨node, hnode, hself⟩, path, hpath⟩ := h
  refine ⟨?_, path, hpath.congr fun visited hvisited => hparents visited ?_⟩
  · have hsame := hparents root (Array.getElem?_eq_some_iff.mp hnode).1
    rw [hnode, Option.map_some, Option.map_eq_some_iff] at hsame
    obtain ⟨node', hnode', hparent'⟩ := hsame
    exact ⟨node', hnode', hparent'.trans hself⟩
  · obtain ⟨left, hleft, -⟩ := hpath.exists_of_mem visited hvisited
    exact (Array.getElem?_eq_some_iff.mp hleft).1

/-- What becomes of the roots when a root, or a node somewhere below it, is
    pointed at a root: all nodes keep theirs, unless it was the one that moved. -/
theorem redirected (h : HasRoot nodes index root) {moved target : Nat} {node : Node α}
    (hnode : nodes[moved]? = some node) (htarget : IsRoot nodes target) (hne : moved ≠ target)
    (hmoved : IsRoot nodes moved ∨ HasRoot nodes moved target) :
    HasRoot (nodes.setIfInBounds moved { node with parent := target }) index
      (if root = moved then target else root) := by
  have hstays : ∀ {other : Nat}, moved ≠ other → IsRoot nodes other →
      IsRoot (nodes.setIfInBounds moved { node with parent := target }) other := by
    rintro other hother ⟨same, hsame, hself⟩
    exact ⟨same, by rw [getElem?_overwritten hnode, if_neg hother, hsame], hself⟩
  have hmoves : HasRoot (nodes.setIfInBounds moved { node with parent := target }) moved target := by
    have hnew := getElem?_overwritten hnode { node with parent := target } moved
    rw [if_pos rfl] at hnew
    exact ⟨hstays hne htarget, [moved], .cons hnew (Ne.symm hne) (.nil target)⟩
  obtain ⟨hroot, path, hpath⟩ := h
  induction hpath with
  | nil index =>
    split
    next hsame => exact hsame ▸ hmoves
    next hother => exact (hstays (Ne.symm hother) hroot).hasRoot
  | @cons index root left path hleft hparent hrest ih =>
    by_cases hsame : moved = index
    · subst hsame
      have hwas : HasRoot nodes moved root := ⟨hroot, _, .cons hleft hparent hrest⟩
      have hbelow := hmoved.resolve_left fun hself => hparent (hself.parent_eq hleft)
      obtain rfl := hwas.unique hbelow
      rwa [if_neg (Ne.symm hne)]
    · obtain ⟨hstill, rest, hup⟩ := ih hroot
      refine ⟨hstill, index :: rest, .cons ?_ hparent hup⟩
      rw [getElem?_overwritten hnode, if_neg hsame, hleft]

end HasRoot

/-- Enough fuel leads the search to the root; more of it changes nothing. -/
theorem Table.climb_of_ascent {nodes : Array (Node α)} {index root : Nat} {path : List Nat}
    (h : Ascent nodes index path root) (hroot : IsRoot nodes root) {fuel : Nat}
    (hfuel : path.length < fuel) : climb nodes fuel index = .ok root := by
  induction h generalizing fuel with
  | nil index =>
    obtain ⟨node, hnode, hself⟩ := hroot
    cases fuel with
    | zero => omega
    | succ fuel => simp [climb, hnode, hself]
  | @cons _ _ _ path hnode hparent _ ih =>
    cases fuel with
    | zero => omega
    | succ fuel =>
      have hlength : path.length < fuel := by simpa using hfuel
      simpa [climb, hnode, hparent] using ih hroot hlength

end Unification
