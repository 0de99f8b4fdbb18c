import Unification.Proofs.Forest.Calls
import Unification.Proofs.Inference.Entailment

namespace Unification

variable {nodes flat left : Array (Node Binding)} {fact : Fact} {a b var : TypeVar} {type : Ty}

/-- What the nodes of a table say: the variables of a tree are equal, and they
    denote the type that its root is bound to. -/
def Holds (nodes : Array (Node Binding)) : Fact → Prop
  | .equal a b => a = b ∨ ∃ root, HasRoot nodes a.id root ∧ HasRoot nodes b.id root
  | .denotes var type => ∃ root node, HasRoot nodes var.id root ∧ nodes[root]? = some node ∧
      node.value = .bound type

theorem holds_theory (nodes : Array (Node Binding)) : Theory (Holds nodes) where
  refl var := .inl rfl
  symm := by
    rintro a b (rfl | ⟨root, hA, hB⟩)
    · exact .inl rfl
    · exact .inr ⟨root, hB, hA⟩
  trans := by
    rintro a b c (rfl | ⟨root, hA, hB⟩) hbc
    · exact hbc
    rcases hbc with rfl | ⟨root', hB', hC⟩
    · exact .inr ⟨root, hA, hB⟩
    · obtain rfl := hB.unique hB'
      exact .inr ⟨root, hA, hC⟩
  carry := by
    rintro a b type (rfl | ⟨root, hA, hB⟩) ⟨top, node, hroot, hnode⟩
    · exact ⟨top, node, hroot, hnode⟩
    · obtain rfl := hA.unique hroot
      exact ⟨root, node, hB, hnode⟩

/-- Only one type can be read off the root of a tree. -/
theorem Holds.denotes_unique {other : Ty} (h : Holds nodes (.denotes var type))
    (h' : Holds nodes (.denotes var other)) : type = other := by
  obtain ⟨root, node, hroot, hnode, hvalue⟩ := h
  obtain ⟨root', node', hroot', hnode', hvalue'⟩ := h'
  obtain rfl := hroot.unique hroot'
  rw [hnode] at hnode'
  cases hnode'
  rw [hvalue] at hvalue'
  exact Binding.bound.inj hvalue'

theorem HasRoot.holds_denotes_iff {root : Nat} {node : Node Binding}
    (hroot : HasRoot nodes var.id root) (hnode : nodes[root]? = some node) :
    Holds nodes (.denotes var type) ↔ node.value = .bound type := by
  constructor
  · rintro ⟨root', node', hroot', hnode', hvalue⟩
    obtain rfl := hroot.unique hroot'
    rw [hnode] at hnode'
    cases hnode'
    exact hvalue
  · exact fun hvalue => ⟨root, node, hroot, hnode, hvalue⟩

/-- Known variables are equal if they have one root. -/
theorem holds_equal_iff {rootA rootB : Nat} (hA : HasRoot nodes a.id rootA)
    (hB : HasRoot nodes b.id rootB) : Holds nodes (.equal a b) ↔ rootA = rootB := by
  constructor
  · rintro (rfl | ⟨root, hrootA, hrootB⟩)
    · exact hA.unique hB
    · exact (hA.unique hrootA).trans (hrootB.unique hB)
  · rintro rfl
    exact .inr ⟨rootA, hA, hB⟩

/-- Shorter ways up say the same. -/
theorem Flattened.holds_iff (h : Flattened nodes flat) (hforest : Forest nodes) :
    Holds flat fact ↔ Holds nodes fact := by
  cases fact with
  | equal a b => simp only [Holds, h.hasRoot_iff hforest]
  | denotes var type =>
    constructor
    · rintro ⟨root, node, hroot, hnode, hvalue⟩
      have hbefore := (h.hasRoot_iff hforest).mp hroot
      obtain ⟨old, hold, -⟩ := hbefore.1
      rw [h.getElem?_root hbefore.1 hold] at hnode
      cases hnode
      exact ⟨root, _, hbefore, hold, hvalue⟩
    · rintro ⟨root, node, hroot, hnode, hvalue⟩
      exact ⟨root, node, h.hasRoot hroot, h.getElem?_root hroot.1 hnode, hvalue⟩

/-- Of a new variable nothing is said. -/
theorem Forest.holds_push_iff (hforest : Forest nodes) :
    Holds (nodes.push (.singleton nodes.size .unbound)) fact ↔ Holds nodes fact := by
  cases fact with
  | equal a b =>
    constructor
    · rintro (rfl | ⟨root, hA, hB⟩)
      · exact .inl rfl
      rcases hA.push_cases hforest with hA | ⟨ha, rfl⟩ <;>
        rcases hB.push_cases hforest with hB | ⟨hb, hsame⟩
      · exact .inr ⟨root, hA, hB⟩
      · exact absurd hsame (Nat.ne_of_lt hA.1.lt_size)
      · exact absurd rfl (Nat.ne_of_lt hB.1.lt_size)
      · exact .inl (congrArg TypeVar.mk (ha.trans hb.symm))
    · rintro (rfl | ⟨root, hA, hB⟩)
      · exact .inl rfl
      · exact .inr ⟨root, hA.push _, hB.push _⟩
  | denotes var type =>
    constructor
    · rintro ⟨root, node, hroot, hnode, hvalue⟩
      rw [Array.getElem?_push] at hnode
      rcases hroot.push_cases hforest with hroot | ⟨-, rfl⟩
      · rw [if_neg (Nat.ne_of_lt hroot.1.lt_size)] at hnode
        exact ⟨root, node, hroot, hnode, hvalue⟩
      · rw [if_pos rfl] at hnode
        cases hnode
        cases hvalue
    · rintro ⟨root, node, hroot, hnode, hvalue⟩
      refine ⟨root, node, hroot.push _, ?_, hvalue⟩
      rw [Array.getElem?_push, if_neg (Nat.ne_of_lt hroot.1.lt_size), hnode]

namespace Linked

variable {survivor redirected : Nat} {value : Binding}

/-- The nodes of both trees have the survivor as their root. -/
theorem hasRoot_survivor (h : Linked nodes survivor redirected value left) {index root : Nat}
    (hroot : HasRoot nodes index root) (hside : root = survivor ∨ root = redirected) :
    HasRoot left index survivor := by
  have hleft := h.hasRoot hroot
  rcases hside with rfl | rfl
  · rwa [ite_self] at hleft
  · rwa [if_pos rfl] at hleft

/-- Joining two trees makes the variables of both equal. -/
theorem holds_equal_iff (h : Linked nodes survivor redirected value left) {rootA rootB : Nat}
    (hA : HasRoot nodes a.id rootA) (hB : HasRoot nodes b.id rootB) :
    Holds left (.equal a b) ↔ Holds nodes (.equal a b) ∨
      (rootA = survivor ∨ rootA = redirected) ∧ (rootB = survivor ∨ rootB = redirected) := by
  constructor
  · rintro (rfl | ⟨root, hleftA, hleftB⟩)
    · exact .inl (.inl rfl)
    by_cases hsame : rootA = rootB
    · exact .inl (.inr ⟨rootA, hA, hsame ▸ hB⟩)
    have hjoined := ((h.hasRoot hA).unique hleftA).trans ((h.hasRoot hB).unique hleftB).symm
    right
    split at hjoined <;> split at hjoined
    next hredA hredB => exact absurd (hredA.trans hredB.symm) hsame
    next hredA hredB => exact ⟨.inr hredA, .inl hjoined.symm⟩
    next hredA hredB => exact ⟨.inl hjoined, .inr hredB⟩
    next hredA hredB => exact absurd hjoined hsame
  · rintro ((rfl | ⟨root, hoverA, hoverB⟩) | ⟨hsideA, hsideB⟩)
    · exact .inl rfl
    · exact .inr ⟨_, h.hasRoot hoverA, h.hasRoot hoverB⟩
    · exact .inr ⟨survivor, h.hasRoot_survivor hA hsideA, h.hasRoot_survivor hB hsideB⟩

/-- The variables of both denote the type that the survivor is given, and all
    others denote what they did. -/
theorem holds_denotes_iff (h : Linked nodes survivor redirected value left) {root : Nat}
    (hroot : HasRoot nodes var.id root) :
    Holds left (.denotes var type) ↔
      if root = survivor ∨ root = redirected then value = .bound type
      else Holds nodes (.denotes var type) := by
  split
  next hside =>
    obtain ⟨top, htop, hvalue⟩ := h.exists_survivor
    rw [(h.hasRoot_survivor hroot hside).holds_denotes_iff htop, hvalue]
  next hside =>
    obtain ⟨hsurvivor, hredirected⟩ := not_or.mp hside
    have hleft := h.hasRoot hroot
    rw [if_neg hredirected] at hleft
    obtain ⟨node, hnode, -⟩ := hroot.1
    have hstill : left[root]? = some node := (h.getElem?_other hsurvivor hredirected).trans hnode
    rw [hleft.holds_denotes_iff hstill, hroot.holds_denotes_iff hnode]

/-- Nothing that was said is taken back if the survivor keeps the types of both trees. -/
theorem holds_of_holds (h : Linked nodes survivor redirected value left)
    (hkept : ∀ {x : TypeVar} {root : Nat} {type : Ty}, HasRoot nodes x.id root →
      (root = survivor ∨ root = redirected) → Holds nodes (.denotes x type) → value = .bound type)
    (hfact : Holds nodes fact) : Holds left fact := by
  cases fact with
  | equal x y =>
    rcases hfact with rfl | ⟨root, hX, hY⟩
    · exact .inl rfl
    · exact .inr ⟨_, h.hasRoot hX, h.hasRoot hY⟩
  | denotes x type =>
    have ⟨root, node, hX, _⟩ := hfact
    rw [h.holds_denotes_iff hX]
    split
    next hside => exact hkept hX hside hfact
    next => exact hfact

end Linked

end Unification
