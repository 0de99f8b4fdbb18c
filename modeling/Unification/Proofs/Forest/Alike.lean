import Unification.Proofs.Forest.Effect

namespace Unification

variable {κ α ε : Type}

/-- Two forests with the same trees, ranks and values. They may differ in the
    ways up to the roots, and in nothing else. -/
structure Alike (nodes others : Array (Node α)) : Prop where
  forest : Forest nodes
  otherForest : Forest others
  size_eq : nodes.size = others.size
  exists_parent : ∀ {index : Nat} {node : Node α}, nodes[index]? = some node →
    ∃ parent, others[index]? = some { node with parent }
  hasRoot_iff : ∀ {index root : Nat}, HasRoot nodes index root ↔ HasRoot others index root

/-- Shorter ways up are all that a search leaves. -/
theorem Flattened.alike {nodes flat : Array (Node α)} (h : Flattened nodes flat)
    (hforest : Forest nodes) : Alike nodes flat where
  forest := hforest
  otherForest := h.forest
  size_eq := h.size_eq.symm
  exists_parent := h.exists_parent
  hasRoot_iff := (h.hasRoot_iff hforest).symm

namespace Alike

variable {nodes others third : Array (Node α)} {index root : Nat}

theorem refl (h : Forest nodes) : Alike nodes nodes :=
  (Flattened.refl h).alike h

theorem symm (h : Alike nodes others) : Alike others nodes where
  forest := h.otherForest
  otherForest := h.forest
  size_eq := h.size_eq.symm
  exists_parent := by
    intro index other hother
    have hindex : index < nodes.size := h.size_eq ▸ (Array.getElem?_eq_some_iff.mp hother).1
    obtain ⟨parent, hparent⟩ := h.exists_parent (Array.getElem?_eq_getElem hindex)
    rw [hother] at hparent
    cases hparent
    exact ⟨nodes[index].parent, Array.getElem?_eq_getElem hindex⟩
  hasRoot_iff := h.hasRoot_iff.symm

theorem trans (h : Alike nodes others) (hmore : Alike others third) : Alike nodes third where
  forest := h.forest
  otherForest := hmore.otherForest
  size_eq := h.size_eq.trans hmore.size_eq
  exists_parent := by
    intro index node hnode
    obtain ⟨parent, hparent⟩ := h.exists_parent hnode
    obtain ⟨last, hlast⟩ := hmore.exists_parent hparent
    exact ⟨last, hlast⟩
  hasRoot_iff := h.hasRoot_iff.trans hmore.hasRoot_iff

/-- The same nodes are roots, and as their parents are known they are the same. -/
theorem getElem?_root (h : Alike nodes others) {node : Node α} (hroot : IsRoot nodes root)
    (hnode : nodes[root]? = some node) : others[root]? = some node := by
  obtain ⟨parent, hparent⟩ := h.exists_parent hnode
  have hself : parent = root := (h.hasRoot_iff.mp hroot.hasRoot).1.parent_eq hparent
  rw [hparent, hself, ← hroot.parent_eq hnode]

/-- The same new node keeps forests alike. -/
theorem push (h : Alike nodes others) (value : α) :
    Alike (nodes.push (.singleton nodes.size value)) (others.push (.singleton others.size value))
    where
  forest := h.forest.push value
  otherForest := h.otherForest.push value
  size_eq := by rw [Array.size_push, Array.size_push, h.size_eq]
  exists_parent := by
    intro index node hnode
    rw [Array.getElem?_push] at hnode ⊢
    rw [← h.size_eq]
    split at hnode
    next hlast =>
      cases hnode
      exact ⟨nodes.size, if_pos hlast⟩
    next hbefore =>
      rw [if_neg hbefore]
      exact h.exists_parent hnode
  hasRoot_iff := by
    intro index root
    constructor
    · intro hroot
      rcases hroot.push_cases h.forest with hbefore | ⟨rfl, rfl⟩
      · exact (h.hasRoot_iff.mp hbefore).push _
      · rw [h.size_eq]
        exact (IsRoot.push_size others value).hasRoot
    · intro hroot
      rcases hroot.push_cases h.otherForest with hbefore | ⟨rfl, rfl⟩
      · exact (h.hasRoot_iff.mpr hbefore).push _
      · rw [← h.size_eq]
        exact (IsRoot.push_size nodes value).hasRoot

/-- The same two trees made one keep forests alike. -/
theorem crowned {survivor redirected rank : Nat} {value : α} {left otherLeft : Array (Node α)}
    (h : Alike nodes others) (hcrowned : Crowned nodes survivor redirected rank value left)
    (hother : Crowned others survivor redirected rank value otherLeft) :
    Alike left otherLeft where
  forest := hcrowned.forest
  otherForest := hother.forest
  size_eq := by rw [hcrowned.size_eq, hother.size_eq, h.size_eq]
  exists_parent := by
    intro index node hnode
    have hindex := (Array.getElem?_eq_some_iff.mp hnode).1
    rw [hcrowned.size_eq] at hindex
    have hold := Array.getElem?_eq_getElem hindex
    obtain ⟨parent, hparent⟩ := h.exists_parent hold
    by_cases hsurvivor : index = survivor
    · subst hsurvivor
      rw [hcrowned.getElem?_survivor hold] at hnode
      cases hnode
      exact ⟨parent, hother.getElem?_survivor hparent⟩
    by_cases hredirected : index = redirected
    · subst hredirected
      rw [hcrowned.getElem?_redirected hsurvivor hold] at hnode
      cases hnode
      have hmoved := hother.getElem?_redirected hsurvivor hparent
      exact ⟨survivor, hmoved⟩
    · rw [hcrowned.getElem?_other hsurvivor hredirected, hold] at hnode
      cases hnode
      exact ⟨parent, (hother.getElem?_other hsurvivor hredirected).trans hparent⟩
  hasRoot_iff := by
    intro index root
    constructor
    · intro hroot
      obtain ⟨old, hold⟩ := h.forest.exists_root (hcrowned.size_eq ▸ hroot.lt_size)
      rw [hroot.unique (hcrowned.hasRoot hold)]
      exact hother.hasRoot (h.hasRoot_iff.mp hold)
    · intro hroot
      obtain ⟨old, hold⟩ := h.otherForest.exists_root (hother.size_eq ▸ hroot.lt_size)
      rw [hroot.unique (hother.hasRoot hold)]
      exact hcrowned.hasRoot (h.hasRoot_iff.mpr hold)

end Alike

/-- Calls on forests that are alike end with the same result, if they end with
    one, and leave forests that are alike. -/
theorem Effect.alike {keys : KeyScheme κ α ε} {nodes others left otherLeft : Array (Node α)}
    {operation : Operation κ α} {result otherResult : TableAnswer κ α} (h : Alike nodes others)
    (heffect : Effect keys nodes operation (.ok result) left)
    (hother : Effect keys others operation (.ok otherResult) otherLeft) :
    result = otherResult ∧ Alike left otherLeft := by
  have hshortened : ∀ {flat otherFlat : Array (Node α)}, Flattened nodes flat →
      Flattened others otherFlat → Alike flat otherFlat := fun hflat hotherFlat =>
    ((hflat.alike h.forest).symm.trans h).trans (hotherFlat.alike h.otherForest)
  cases heffect with
  | reserve =>
    cases hother
    exact ⟨rfl, h⟩
  | newKey value =>
    cases hother
    exact ⟨by rw [h.size_eq], h.push value⟩
  | find hroot hflat =>
    obtain _ | _ | _ | @⟨_, _, _, hroot', hflat'⟩ := hother
    rw [(h.hasRoot_iff.mp hroot).unique hroot']
    exact ⟨rfl, hshortened hflat hflat'⟩
  | probe hroot hnode hflat =>
    cases hother with
    | probe hroot' hnode' hflat' =>
      obtain rfl := (h.hasRoot_iff.mp hroot).unique hroot'
      rw [h.getElem?_root hroot.1 hnode] at hnode'
      cases hnode'
      exact ⟨rfl, hshortened hflat hflat'⟩
  | unioned hA hB hflat =>
    cases hother with
    | unioned hA' hB' hflat' =>
      rw [(h.hasRoot_iff.mp hA).unique hA', (h.hasRoot_iff.mp hB).unique hB']
      exact ⟨rfl, hshortened hflat hflat'⟩
  | same hA hB hflat =>
    cases hother with
    | same _ _ hflat' => exact ⟨rfl, hshortened hflat hflat'⟩
    | joined hA' hB' hne =>
      obtain rfl := (h.hasRoot_iff.mp hA).unique hA'
      exact absurd ((h.hasRoot_iff.mp hB).unique hB') hne
  | joined hA hB hne hnodeA hnodeB hmerge hsurvival htop hbelow hflat hcrowned =>
    cases hother with
    | same hA' hB' hflat' =>
      obtain rfl := (h.hasRoot_iff.mp hA).unique hA'
      exact absurd ((h.hasRoot_iff.mp hB).unique hB').symm hne
    | joined hA' hB' _ hnodeA' hnodeB' hmerge' hsurvival' htop' hbelow' hflat' hcrowned' =>
      obtain rfl := (h.hasRoot_iff.mp hA).unique hA'
      obtain rfl := (h.hasRoot_iff.mp hB).unique hB'
      rw [h.getElem?_root hA.1 hnodeA] at hnodeA'
      cases hnodeA'
      rw [h.getElem?_root hB.1 hnodeB] at hnodeB'
      cases hnodeB'
      rw [hmerge] at hmerge'
      cases hmerge'
      rw [hsurvival] at hsurvival'
      cases hsurvival'
      obtain ⟨hsurvivor, hredirected⟩ := KeyScheme.isRoot_of_survival hsurvival hA.1 hB.1
      rw [h.getElem?_root hsurvivor htop] at htop'
      cases htop'
      rw [h.getElem?_root hredirected hbelow] at hbelow'
      cases hbelow'
      exact ⟨rfl, (hshortened hflat hflat').crowned hcrowned hcrowned'⟩
  | revalued hroot hnode hmerge hflat hcrowned =>
    cases hother with
    | revalued hroot' hnode' hmerge' hflat' hcrowned' =>
      obtain rfl := (h.hasRoot_iff.mp hroot).unique hroot'
      rw [h.getElem?_root hroot.1 hnode] at hnode'
      cases hnode'
      rw [hmerge] at hmerge'
      cases hmerge'
      exact ⟨rfl, (hshortened hflat hflat').crowned hcrowned hcrowned'⟩

end Unification
