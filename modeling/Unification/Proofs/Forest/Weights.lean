import Mathlib.Data.Set.Card
import Unification.Proofs.Forest.Reachable

namespace Unification

variable {κ α ε : Type}

/-- The nodes of the class that a root stands for. -/
def classOf (nodes : Array (Node α)) (root : Nat) : Set Nat :=
  {index | HasRoot nodes index root}

section Classes

variable {nodes left : Array (Node α)} {root survivor redirected : Nat} {value : α}

theorem classOf_subset (nodes : Array (Node α)) (root : Nat) :
    classOf nodes root ⊆ Set.Iio nodes.size :=
  fun _ hroot => hroot.lt_size

theorem finite_classOf (nodes : Array (Node α)) (root : Nat) : (classOf nodes root).Finite :=
  (Set.finite_Iio nodes.size).subset (classOf_subset nodes root)

theorem ncard_classOf_le (nodes : Array (Node α)) (root : Nat) :
    (classOf nodes root).ncard ≤ nodes.size :=
  calc (classOf nodes root).ncard
    _ ≤ (Set.Iio nodes.size).ncard :=
      Set.ncard_le_ncard (classOf_subset nodes root) (Set.finite_Iio nodes.size)
    _ = nodes.size := by rw [Set.ncard_eq_toFinset_card', Set.toFinset_Iio, Nat.card_Iio]

theorem Flattened.classOf_eq (h : Flattened nodes left) (hforest : Forest nodes) (root : Nat) :
    classOf left root = classOf nodes root :=
  Set.ext fun _ => h.hasRoot_iff hforest

theorem classOf_push_size (hforest : Forest nodes) (value : α) :
    classOf (nodes.push (.singleton nodes.size value)) nodes.size = {nodes.size} := by
  ext index
  refine ⟨fun hroot => ?_, fun hindex => ?_⟩
  · rcases hroot.push_cases hforest with hbefore | ⟨rfl, -⟩
    · exact absurd hbefore.1.lt_size (Nat.lt_irrefl _)
    · rfl
  · obtain rfl := Set.mem_singleton_iff.mp hindex
    exact (IsRoot.push_size nodes value).hasRoot

theorem classOf_push (hforest : Forest nodes) (value : α) (hroot : root < nodes.size) :
    classOf (nodes.push (.singleton nodes.size value)) root = classOf nodes root := by
  ext index
  refine ⟨fun hafter => ?_, fun hbefore => hbefore.push _⟩
  rcases hafter.push_cases hforest with hbefore | ⟨-, rfl⟩
  · exact hbefore
  · exact absurd hroot (Nat.lt_irrefl _)

theorem Linked.hasRoot_iff (h : Linked nodes survivor redirected value left)
    (hforest : Forest nodes) {index : Nat} :
    HasRoot left index root ↔
      ∃ old, HasRoot nodes index old ∧ (if old = redirected then survivor else old) = root := by
  refine ⟨fun hroot => ?_, fun ⟨old, hold, hsame⟩ => hsame ▸ h.hasRoot hold⟩
  obtain ⟨old, hold⟩ := hforest.exists_root (h.size_eq ▸ hroot.lt_size)
  exact ⟨old, hold, (h.hasRoot hold).unique hroot⟩

/-- The survivor stands for both classes. -/
theorem Linked.classOf_survivor (h : Linked nodes survivor redirected value left)
    (hforest : Forest nodes) :
    classOf left survivor = classOf nodes survivor ∪ classOf nodes redirected := by
  ext index
  refine (h.hasRoot_iff hforest).trans ⟨fun ⟨old, hold, hsame⟩ => ?_, fun hroot => ?_⟩
  · split at hsame
    next hmoved => exact .inr (hmoved ▸ hold)
    next => exact .inl (hsame ▸ hold)
  · rcases hroot with hroot | hroot
    · exact ⟨survivor, hroot, ite_self survivor⟩
    · exact ⟨redirected, hroot, if_pos rfl⟩

theorem Linked.classOf_other (h : Linked nodes survivor redirected value left)
    (hforest : Forest nodes) (hsurvivor : root ≠ survivor) (hredirected : root ≠ redirected) :
    classOf left root = classOf nodes root := by
  ext index
  refine (h.hasRoot_iff hforest).trans ⟨fun ⟨old, hold, hsame⟩ => ?_, fun hroot => ?_⟩
  · split at hsame
    next => exact absurd hsame.symm hsurvivor
    next => exact hsame ▸ hold
  · exact ⟨root, hroot, if_neg hredirected⟩

end Classes

/-- A weight of roots, by rank and value, that no call makes greater than the
    class of the root: a new class has at most its own key to give, a union at
    most the weights of the two roots, and a value for a class nothing at all. -/
structure KeyScheme.Weighs (keys : KeyScheme κ α ε) (weight : Nat → α → Nat) : Prop where
  single : ∀ value, weight 0 value ≤ 1
  joined : ∀ {a b survivor redirected : Nat} {nodeA nodeB : Node α} {merged : α}, a ≠ b →
    keys.merge nodeA.value nodeB.value = .ok merged →
    keys.survival a nodeA b nodeB = .ok (survivor, redirected) →
      weight (if survivor = a then Table.joinedRank nodeA.rank nodeB.rank
        else Table.joinedRank nodeB.rank nodeA.rank) merged ≤
          weight nodeA.rank nodeA.value + weight nodeB.rank nodeB.value
  revalued : ∀ (rank : Nat) {old value merged : α}, keys.merge old value = .ok merged →
    weight rank merged ≤ weight rank old

/-- No root outweighs its class. -/
def Weighed (weight : Nat → α → Nat) (nodes : Array (Node α)) : Prop :=
  ∀ (root : Nat) (node : Node α), nodes[root]? = some node → node.parent = root →
    weight node.rank node.value ≤ (classOf nodes root).ncard

namespace Weighed

variable {keys : KeyScheme κ α ε} {weight : Nat → α → Nat} {nodes left : Array (Node α)}
  {survivor redirected rank : Nat} {value : α}

theorem empty (weight : Nat → α → Nat) : Weighed weight #[] :=
  fun _ _ hnode => nomatch hnode

theorem flattened (h : Weighed weight nodes) (hforest : Forest nodes)
    (hflat : Flattened nodes left) : Weighed weight left := by
  intro root node hnode hself
  have hroot : IsRoot nodes root :=
    ((hflat.hasRoot_iff hforest).mp (IsRoot.hasRoot ⟨node, hnode, hself⟩)).1
  obtain ⟨same, hsame, hparent⟩ := id hroot
  obtain rfl := Option.some.inj ((hflat.getElem?_root hroot hsame).symm.trans hnode)
  rw [hflat.classOf_eq hforest]
  exact h root same hsame hparent

theorem push (h : Weighed weight nodes) (hforest : Forest nodes)
    (hsingle : weight 0 value ≤ 1) :
    Weighed weight (nodes.push (.singleton nodes.size value)) := by
  intro root node hnode hself
  rw [Array.getElem?_push] at hnode
  split at hnode
  next hlast =>
    cases hnode
    rw [hlast, classOf_push_size hforest, Set.ncard_singleton]
    exact hsingle
  next =>
    rw [classOf_push hforest value (Array.getElem?_eq_some_iff.mp hnode).1]
    exact h root node hnode hself

/-- Two roots together do not outweigh their classes together. -/
theorem add_le (h : Weighed weight nodes) {a b : Nat} {nodeA nodeB : Node α} (hne : a ≠ b)
    (hA : IsRoot nodes a) (hB : IsRoot nodes b) (hnodeA : nodes[a]? = some nodeA)
    (hnodeB : nodes[b]? = some nodeB) :
    weight nodeA.rank nodeA.value + weight nodeB.rank nodeB.value ≤
      (classOf nodes a ∪ classOf nodes b).ncard := by
  have hdisjoint : Disjoint (classOf nodes a) (classOf nodes b) :=
    Set.disjoint_left.mpr fun _ hroot hother => hne (hroot.unique hother)
  rw [Set.ncard_union_eq hdisjoint (finite_classOf nodes a) (finite_classOf nodes b)]
  exact Nat.add_le_add (h a nodeA hnodeA (hA.parent_eq hnodeA))
    (h b nodeB hnodeB (hB.parent_eq hnodeB))

/-- What is written into the survivor may weigh what both classes have keys. -/
theorem crowned (h : Weighed weight nodes) (hforest : Forest nodes)
    (hcrowned : Crowned nodes survivor redirected rank value left)
    {top : Node α} (htop : nodes[survivor]? = some top)
    (hweight : weight rank value ≤ (classOf nodes survivor ∪ classOf nodes redirected).ncard) :
    Weighed weight left := by
  intro root node hnode hself
  rcases hcrowned.root_cases hforest ⟨node, hnode, hself⟩ with rfl | ⟨hother, hother', -⟩
  · obtain rfl := Option.some.inj ((hcrowned.getElem?_survivor htop).symm.trans hnode)
    rw [hcrowned.classOf_survivor hforest]
    exact hweight
  · rw [hcrowned.getElem?_other hother hother'] at hnode
    rw [hcrowned.classOf_other hforest hother hother']
    exact h root node hnode hself

theorem effect {operation : Operation κ α}
    {outcome : Except (Failure (TableError ε)) (TableAnswer κ α)} (hkeys : keys.Weighs weight)
    (h : Weighed weight nodes) (hforest : Forest nodes)
    (heffect : Effect keys nodes operation outcome left) : Weighed weight left := by
  cases heffect with
  | refused _ hflat | find _ hflat | probe _ _ hflat | unioned _ _ hflat | same _ _ hflat =>
    exact h.flattened hforest hflat
  | reserve => exact h
  | newKey value => exact h.push hforest (hkeys.single value)
  | joined hA hB hne hnodeA hnodeB hmerge hsurvival htop hbelow hflat hcrowned =>
    have hboth := (hkeys.joined hne hmerge hsurvival).trans
      (h.add_le hne hA.1 hB.1 hnodeA hnodeB)
    have hsurvivor := (KeyScheme.isRoot_of_survival hsurvival hA.1 hB.1).1
    refine (h.flattened hforest hflat).crowned hflat.forest hcrowned
      (hflat.getElem?_root hsurvivor htop) ?_
    rw [hflat.classOf_eq hforest, hflat.classOf_eq hforest]
    -- Whichever of the two survives, it stands for the keys of both.
    rcases KeyScheme.survival_cases hsurvival with hpair | hpair <;> cases hpair
    · rw [if_pos rfl] at hboth
      obtain rfl := Option.some.inj (htop.symm.trans hnodeA)
      obtain rfl := Option.some.inj (hbelow.symm.trans hnodeB)
      exact hboth
    · rw [if_neg (Ne.symm hne)] at hboth
      obtain rfl := Option.some.inj (htop.symm.trans hnodeB)
      obtain rfl := Option.some.inj (hbelow.symm.trans hnodeA)
      rwa [Set.union_comm]
  | @revalued _ _ _ root node flat _ hroot hnode hmerge hflat hcrowned =>
    have hstill := hflat.getElem?_root hroot.1 hnode
    refine (h.flattened hforest hflat).crowned hflat.forest hcrowned hstill ?_
    rw [Set.union_self, hflat.classOf_eq hforest]
    exact (hkeys.revalued node.rank hmerge).trans (h root node hnode (hroot.1.parent_eq hnode))

end Weighed

theorem Table.weighed_perform {keys : KeyScheme κ α ε} {weight : Nat → α → Nat}
    (hkeys : keys.Weighs weight) (operations : List (Operation κ α)) :
    Weighed weight (Table.perform keys operations {}).nodes :=
  Table.effect_induction keys (.empty weight)
    (fun hforest hweighed heffect => hweighed.effect hkeys hforest heffect) operations

namespace KeyScheme

variable {keys : KeyScheme κ α ε} {a b survivor redirected : Nat} {nodeA nodeB : Node α}

/-- Between two roots that the root order leaves to the ranks the higher one
    survives and keeps its rank. If neither is higher, the survivor rises by one,
    and has twice the weight of either to show for it. -/
theorem weight_le_of_unordered (weight : Nat → Nat)
    (hdouble : ∀ rank, weight (rank + 1) ≤ weight rank + weight rank) (hne : a ≠ b)
    (horder : keys.order (keys.ofIndex a) nodeA.value (keys.ofIndex b) nodeB.value = none)
    (h : keys.survival a nodeA b nodeB = .ok (survivor, redirected)) :
    weight (if survivor = a then Table.joinedRank nodeA.rank nodeB.rank
      else Table.joinedRank nodeB.rank nodeA.rank) ≤ weight nodeA.rank + weight nodeB.rank := by
  obtain ⟨nominated, hnomination, hchosen⟩ := survival_eq_ok_iff.mp h
  rw [nomination, horder] at hnomination
  cases hnomination
  rw [Option.getD_none] at hchosen
  by_cases hless : nodeB.rank < nodeA.rank
  · rw [if_pos hless] at hchosen
    cases hchosen
    rw [if_pos rfl, Table.joinedRank, if_pos hless]
    exact Nat.le_add_right _ _
  · rw [if_neg hless] at hchosen
    cases hchosen
    rw [if_neg (Ne.symm hne), Table.joinedRank]
    split
    next => exact Nat.le_add_left _ _
    next hnot =>
      have hsame : nodeA.rank = nodeB.rank := by omega
      rw [← hsame]
      exact hdouble nodeA.rank

/-- If all is left to the ranks, each rank costs twice as many keys as the one below. -/
theorem weighs_pow (horder : ∀ a valueA b valueB, keys.order a valueA b valueB = none) :
    keys.Weighs fun rank _ => 2 ^ rank where
  single := fun _ => Nat.le_refl 1
  joined := fun hne _ hsurvival =>
    weight_le_of_unordered (2 ^ ·) (fun rank => by rw [Nat.pow_succ, Nat.mul_two]) hne
      (horder _ _ _ _) hsurvival
  revalued := fun _ _ _ _ _ => Nat.le_refl _

end KeyScheme

end Unification
