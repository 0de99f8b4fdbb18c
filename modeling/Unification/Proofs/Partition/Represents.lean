import Unification.Proofs.Forest.Effect
import Unification.Proofs.Partition.Basic

namespace Unification

variable {κ α ε : Type}

/-- The trees of a forest are the classes of a partition, and their roots hold
    the values. The other nodes may hold whatever they do. -/
structure Represents (nodes : Array (Node α)) (partition : Partition α) : Prop where
  size_eq : partition.size = nodes.size
  label_lt : ∀ {index : Nat}, index < nodes.size → partition.label index < nodes.size
  label_root : ∀ {index root : Nat}, HasRoot nodes index root →
    partition.label index = partition.label root
  root_inj : ∀ {root other : Nat}, IsRoot nodes root → IsRoot nodes other →
    partition.label root = partition.label other → root = other
  valueAt_root : ∀ {root : Nat} {node : Node α}, IsRoot nodes root → nodes[root]? = some node →
    partition.valueAt root = some node.value

namespace Represents

variable {nodes left : Array (Node α)} {partition : Partition α}

theorem empty : Represents (#[] : Array (Node α)) {} where
  size_eq := rfl
  label_lt := fun hindex => absurd hindex (Nat.not_lt_zero _)
  label_root := fun hroot => absurd hroot.lt_size (Nat.not_lt_zero _)
  root_inj := fun hroot => absurd hroot.lt_size (Nat.not_lt_zero _)
  valueAt_root := fun hroot => absurd hroot.lt_size (Nat.not_lt_zero _)

/-- Indices with one label are those with one root. -/
theorem label_eq_iff (h : Represents nodes partition) {a b rootA rootB : Nat}
    (hA : HasRoot nodes a rootA) (hB : HasRoot nodes b rootB) :
    partition.label a = partition.label b ↔ rootA = rootB := by
  rw [h.label_root hA, h.label_root hB]
  constructor
  · exact h.root_inj hA.1 hB.1
  · exact fun hsame => by rw [hsame]

theorem valueAt_eq (h : Represents nodes partition) {index root : Nat} {node : Node α}
    (hroot : HasRoot nodes index root) (hnode : nodes[root]? = some node) :
    partition.valueAt index = some node.value := by
  rw [Partition.valueAt, h.label_root hroot]
  exact h.valueAt_root hroot.1 hnode

theorem flattened (h : Represents nodes partition) (hforest : Forest nodes)
    (hflat : Flattened nodes left) : Represents left partition where
  size_eq := h.size_eq.trans hflat.size_eq.symm
  label_lt := by
    rw [hflat.size_eq]
    exact h.label_lt
  label_root := fun hroot => h.label_root ((hflat.hasRoot_iff hforest).mp hroot)
  root_inj := fun hroot hother => h.root_inj ((hflat.hasRoot_iff hforest).mp hroot.hasRoot).1
    ((hflat.hasRoot_iff hforest).mp hother.hasRoot).1
  valueAt_root := by
    intro root node hroot hnode
    have hwas := ((hflat.hasRoot_iff hforest).mp hroot.hasRoot).1
    have hold := Array.getElem?_eq_getElem hwas.lt_size
    rw [hflat.getElem?_root hwas hold] at hnode
    cases hnode
    exact h.valueAt_root hwas hold

theorem newKey (h : Represents nodes partition) (hforest : Forest nodes) (value : α) :
    Represents (nodes.push (.singleton nodes.size value)) (partition.newKey value) := by
  have hold : ∀ index < nodes.size, (partition.newKey value).label index =
      partition.label index := by
    intro index hindex
    exact Partition.label_newKey_of_ne (h.size_eq ▸ Nat.ne_of_lt hindex) value
  have hnew : (partition.newKey value).label nodes.size = nodes.size := by
    rw [← h.size_eq]
    exact partition.label_newKey_size value
  refine ⟨?_, ?_, ?_, ?_, ?_⟩
  · rw [Array.size_push, ← h.size_eq]
    rfl
  · intro index hindex
    rw [Array.size_push] at hindex ⊢
    rcases Nat.lt_succ_iff_lt_or_eq.mp hindex with hless | rfl
    · rw [hold index hless]
      exact Nat.lt_succ_of_lt (h.label_lt hless)
    · rw [hnew]
      exact Nat.lt_succ_self _
  · intro index root hroot
    rcases hroot.push_cases hforest with hbefore | ⟨rfl, rfl⟩
    · rw [hold index hbefore.lt_size, hold root hbefore.1.lt_size, h.label_root hbefore]
    · rfl
  · intro root other hroot hother hsame
    rcases hroot.hasRoot.push_cases hforest with hbefore | ⟨rfl, -⟩ <;>
      rcases hother.hasRoot.push_cases hforest with hbefore' | ⟨rfl, -⟩
    · rw [hold root hbefore.lt_size, hold other hbefore'.lt_size] at hsame
      exact h.root_inj hbefore.1 hbefore'.1 hsame
    · rw [hold root hbefore.lt_size, hnew] at hsame
      exact absurd hsame (Nat.ne_of_lt (h.label_lt hbefore.lt_size))
    · rw [hold other hbefore'.lt_size, hnew] at hsame
      exact absurd hsame.symm (Nat.ne_of_lt (h.label_lt hbefore'.lt_size))
    · rfl
  · intro root node hroot hnode
    rw [Array.getElem?_push] at hnode
    rcases hroot.hasRoot.push_cases hforest with hbefore | ⟨rfl, -⟩
    · have hlabel := h.label_lt hbefore.lt_size
      rw [← h.size_eq] at hlabel
      rw [if_neg (Nat.ne_of_lt hbefore.lt_size)] at hnode
      rw [Partition.valueAt, hold root hbefore.lt_size,
        Partition.value_newKey_of_ne (Nat.ne_of_lt hlabel)]
      exact h.valueAt_root hbefore.1 hnode
    · rw [if_pos rfl] at hnode
      cases hnode
      rw [Partition.valueAt, hnew, ← h.size_eq, Partition.value_newKey_size]
      rfl

section Joining

variable {a b survivor redirected : Nat} {merged : α}

/-- Whichever of two roots survives, both have the label of the first in the end. -/
private theorem label_join_ends (partition : Partition α) (merged : α)
    (hpair : (survivor, redirected) = (a, b) ∨ (survivor, redirected) = (b, a)) :
    (partition.join (partition.label a) (partition.label b) merged).label survivor =
        partition.label a ∧
      (partition.join (partition.label a) (partition.label b) merged).label redirected =
        partition.label a := by
  have hA : (partition.join (partition.label a) (partition.label b) merged).label a =
      partition.label a := by
    rw [Partition.label_join]
    split <;> rfl
  have hB : (partition.join (partition.label a) (partition.label b) merged).label b =
      partition.label a := by rw [Partition.label_join, if_pos rfl]
  rcases hpair with hpair | hpair <;> cases hpair
  · exact ⟨hA, hB⟩
  · exact ⟨hB, hA⟩

private theorem label_join_other (h : Represents nodes partition) (hA : IsRoot nodes a)
    (hB : IsRoot nodes b)
    (hpair : (survivor, redirected) = (a, b) ∨ (survivor, redirected) = (b, a)) {root : Nat}
    (hsurvivor : root ≠ survivor) (hredirected : root ≠ redirected) (hroot : IsRoot nodes root) :
    partition.label root ≠ partition.label a ∧
      (partition.join (partition.label a) (partition.label b) merged).label root =
        partition.label root := by
  have hne : root ≠ a ∧ root ≠ b := by
    rcases hpair with hpair | hpair <;> cases hpair
    · exact ⟨hsurvivor, hredirected⟩
    · exact ⟨hredirected, hsurvivor⟩
  rw [Partition.label_join, if_neg fun hsame => hne.2 (h.root_inj hroot hB hsame)]
  exact ⟨fun hsame => hne.1 (h.root_inj hroot hA hsame), rfl⟩

/-- Joining two trees joins their classes. The root that survives need not be
    the one whose label does. -/
theorem linked (h : Represents nodes partition) (hforest : Forest nodes) (hA : IsRoot nodes a)
    (hB : IsRoot nodes b)
    (hpair : (survivor, redirected) = (a, b) ∨ (survivor, redirected) = (b, a))
    (hlinked : Linked nodes survivor redirected merged left) :
    Represents left (partition.join (partition.label a) (partition.label b) merged) := by
  obtain ⟨hsurvivor, hredirected⟩ := label_join_ends partition merged hpair
  refine ⟨?_, ?_, ?_, ?_, ?_⟩
  · exact h.size_eq.trans hlinked.size_eq.symm
  · intro index hindex
    rw [hlinked.size_eq] at hindex ⊢
    rw [Partition.label_join]
    split
    · exact h.label_lt hA.lt_size
    · exact h.label_lt hindex
  · intro index root hroot
    obtain ⟨old, hold⟩ := hforest.exists_root (hlinked.size_eq ▸ hroot.lt_size)
    have hlabel : (partition.join (partition.label a) (partition.label b) merged).label index =
        (partition.join (partition.label a) (partition.label b) merged).label old := by
      rw [Partition.label_join, Partition.label_join, h.label_root hold]
    rw [hlabel, hroot.unique (hlinked.hasRoot hold)]
    split
    next hmoved => rw [hmoved, hsurvivor, hredirected]
    next => rfl
  · intro root other hroot hother hsame
    rcases hlinked.root_cases hforest hroot with rfl | ⟨hne, hne', hbefore⟩ <;>
      rcases hlinked.root_cases hforest hother with rfl | ⟨hneOther, hneOther', hbeforeOther⟩
    · rfl
    · obtain ⟨hlabel, hkept⟩ := h.label_join_other hA hB hpair hneOther hneOther' hbeforeOther
      rw [hsurvivor, hkept] at hsame
      exact absurd hsame.symm hlabel
    · obtain ⟨hlabel, hkept⟩ := h.label_join_other hA hB hpair hne hne' hbefore
      rw [hsurvivor, hkept] at hsame
      exact absurd hsame hlabel
    · rw [(h.label_join_other hA hB hpair hne hne' hbefore).2,
        (h.label_join_other hA hB hpair hneOther hneOther' hbeforeOther).2] at hsame
      exact h.root_inj hbefore hbeforeOther hsame
  · intro root node hroot hnode
    rcases hlinked.root_cases hforest hroot with rfl | ⟨hne, hne', hbefore⟩
    · obtain ⟨top, htop, hmerged⟩ := hlinked.exists_survivor
      rw [htop] at hnode
      cases hnode
      rw [Partition.valueAt, hsurvivor, Partition.value_join_first, hmerged]
    · obtain ⟨hlabel, hkept⟩ := h.label_join_other hA hB hpair hne hne' hbefore
      rw [hlinked.getElem?_other hne hne'] at hnode
      rw [Partition.valueAt, hkept, Partition.value_join_of_ne hlabel]
      exact h.valueAt_root hbefore hnode

end Joining

end Represents

end Unification
