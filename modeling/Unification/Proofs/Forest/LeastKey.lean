import Mathlib.Order.Bounds.Basic
import Unification.Keys.Numbering
import Unification.Keys.RootOrder
import Unification.Payload.Number
import Unification.Proofs.Forest.Reachable

namespace Unification

variable {κ α ε δ β : Type}

section LeastRoots

variable [LinearOrder κ] {keys : KeyScheme κ α ε} {nodes left : Array (Node α)}

/-- The root order nominates the smaller of two keys to survive, whatever the
    values of their classes are. -/
def KeyScheme.NominatesLeast (keys : KeyScheme κ α ε) : Prop :=
  ∀ a valueA b valueB, a ≠ b → keys.order a valueA b valueB = some (min a b, max a b)

/-- Of two roots the one with the smaller key survives, if that is what the root
    order nominates. -/
theorem KeyScheme.NominatesLeast.ofIndex_survivor_le {a b survivor redirected : Nat}
    {nodeA nodeB : Node α} (horder : keys.NominatesLeast) (hA : keys.index (keys.ofIndex a) = a)
    (hB : keys.index (keys.ofIndex b) = b) (hne : a ≠ b)
    (h : keys.survival a nodeA b nodeB = .ok (survivor, redirected)) :
    keys.ofIndex survivor ≤ keys.ofIndex redirected := by
  have hkeys : keys.ofIndex a ≠ keys.ofIndex b := by
    intro hsame
    rw [← hA, hsame, hB] at hne
    exact hne rfl
  obtain ⟨nominated, hnomination, hchosen⟩ := KeyScheme.survival_eq_ok_iff.mp h
  unfold KeyScheme.nomination at hnomination
  simp only [horder _ _ _ _ hkeys] at hnomination
  rcases le_total (keys.ofIndex a) (keys.ofIndex b) with hle | hle
  · simp only [min_eq_left hle, max_eq_right hle, hA, hB, true_or, if_true] at hnomination
    cases hnomination
    cases hchosen
    exact hle
  · simp only [min_eq_right hle, max_eq_left hle, hA, hB, or_true, if_true] at hnomination
    cases hnomination
    cases hchosen
    exact hle

/-- Every root stands for the least key of its tree, provided that the keys of
    all nodes have the indices that they were made from. -/
def LeastRoots (keys : KeyScheme κ α ε) (nodes : Array (Node α)) : Prop :=
  (∀ index < nodes.size, keys.index (keys.ofIndex index) = index) →
    ∀ {index root : Nat}, HasRoot nodes index root → keys.ofIndex root ≤ keys.ofIndex index

namespace LeastRoots

theorem empty : LeastRoots keys #[] := by
  intro _ index root hroot
  exact absurd hroot.lt_size (Nat.not_lt_zero _)

theorem flattened (h : LeastRoots keys nodes) (hforest : Forest nodes)
    (hflat : Flattened nodes left) : LeastRoots keys left := by
  intro hkeys index root hroot
  rw [hflat.size_eq] at hkeys
  exact h hkeys ((hflat.hasRoot_iff hforest).mp hroot)

theorem push (h : LeastRoots keys nodes) (hforest : Forest nodes) (value : α) :
    LeastRoots keys (nodes.push (.singleton nodes.size value)) := by
  intro hkeys index root hroot
  rw [Array.size_push] at hkeys
  rcases hroot.push_cases hforest with hbefore | ⟨rfl, rfl⟩
  · exact h (fun other hother => hkeys other (Nat.lt_succ_of_lt hother)) hbefore
  · exact le_refl _

/-- A tree that is joined to another one has its root above the smaller key. -/
theorem linked (h : LeastRoots keys nodes) (hforest : Forest nodes) {survivor redirected : Nat}
    {value : α} (hlinked : Linked nodes survivor redirected value left)
    (hle : (∀ index < nodes.size, keys.index (keys.ofIndex index) = index) →
      keys.ofIndex survivor ≤ keys.ofIndex redirected) : LeastRoots keys left := by
  intro hkeys index root hroot
  rw [hlinked.size_eq] at hkeys
  obtain ⟨old, hold⟩ := hforest.exists_root (hlinked.size_eq ▸ hroot.lt_size)
  have hbefore := h hkeys hold
  rw [hroot.unique (hlinked.hasRoot hold)]
  split
  next hmoved =>
    subst hmoved
    exact le_trans (hle hkeys) hbefore
  next => exact hbefore

theorem effect {operation : Operation κ α}
    {outcome : Except (Failure (TableError ε)) (TableAnswer κ α)} (horder : keys.NominatesLeast)
    (h : LeastRoots keys nodes) (hforest : Forest nodes)
    (heffect : Effect keys nodes operation outcome left) : LeastRoots keys left := by
  cases heffect with
  | refused _ hflat | find _ hflat | probe _ _ hflat | unioned _ _ hflat | same _ _ hflat =>
    exact h.flattened hforest hflat
  | reserve => exact h
  | newKey value => exact h.push hforest value
  | joined hA hB hne _ _ _ hsurvival _ _ hflat hcrowned =>
    refine (h.flattened hforest hflat).linked hflat.forest hcrowned.toLinked fun hkeys => ?_
    rw [hflat.size_eq] at hkeys
    exact horder.ofIndex_survivor_le (hkeys _ hA.1.lt_size) (hkeys _ hB.1.lt_size) hne hsurvival
  | revalued _ _ _ hflat hcrowned =>
    exact (h.flattened hforest hflat).linked hflat.forest hcrowned.toLinked fun _ => le_refl _

end LeastRoots

end LeastRoots

theorem Table.leastRoots_perform [LinearOrder κ] {keys : KeyScheme κ α ε}
    (horder : keys.NominatesLeast) (operations : List (Operation κ α)) :
    LeastRoots keys (Table.perform keys operations {}).nodes :=
  Table.effect_induction keys .empty
    (fun hforest hleast heffect => hleast.effect horder hforest heffect) operations

/-- A root order that nominates the smaller of two keys keeps the least key of
    every class as its representative. In whatever table programs reach, the
    search for a key answers with the least of all keys of the table that are in
    one class with it. Ranks have no say, and neither do the classes that were
    joined in between and taken apart by rolling back. -/
theorem Program.find_isLeast [LinearOrder κ] (keys : KeyScheme κ α ε) (program : Program κ α ε δ β)
    (horder : keys.NominatesLeast)
    (hkeys : ∀ index < (Action.after (program.run keys) {}).size,
      keys.index (keys.ofIndex index) = index) :
    let table := Action.after (program.run keys) {}
    ∀ key, keys.index key < table.size →
      ∃ representative, Action.outcome (Table.find keys key) table = .ok representative ∧
        IsLeast {other | (∃ index < table.size, keys.ofIndex index = other) ∧
          Action.outcome (Table.unioned keys other key) table = .ok true} representative := by
  intro table key hkey
  have hforest : Forest table.nodes := program.forest keys
  have hleast : LeastRoots keys table.nodes := by
    obtain ⟨operations, hoperations⟩ := program.exists_perform keys
    have hperform := Table.leastRoots_perform horder operations
    rwa [← hoperations] at hperform
  have hunioned : ∀ {index root : Nat}, HasRoot table.nodes index root →
      ∀ {own : Nat}, HasRoot table.nodes (keys.index key) own →
      Action.outcome (Table.unioned keys (keys.ofIndex index) key) table = .ok (root == own) := by
    intro index root hroot own hown
    rw [← hkeys index hroot.lt_size] at hroot
    obtain ⟨left, hrun, -⟩ := Table.unioned_of_hasRoot keys hforest hroot hown
    exact Action.outcome_of_ok hrun
  obtain ⟨root, hroot⟩ := hforest.exists_root hkey
  obtain ⟨left, hfind, -⟩ := Table.find_of_hasRoot keys hforest hroot
  refine ⟨keys.ofIndex root, Action.outcome_of_ok hfind, ⟨⟨root, hroot.1.lt_size, rfl⟩, ?_⟩, ?_⟩
  · rw [hunioned hroot.1.hasRoot hroot, beq_self_eq_true]
  · rintro _ ⟨⟨index, hindex, rfl⟩, hsame⟩
    obtain ⟨own, hown⟩ := hforest.exists_root hindex
    rw [hunioned hown hroot] at hsame
    obtain rfl : own = root := by simpa using hsame
    exact hleast hkeys hown

/-- Words in the order of their numbers. -/
abbrev wordOrder : LinearOrder UInt32 :=
  LinearOrder.lift' UInt32.toNat fun _ _ => UInt32.toNat_inj.mp

/-- Keys that are handed out downward, so that the newer of two is the least. The
    key that is the least for a while is rolled back, and one class is in
    conflict with the others. -/
theorem Program.find_isLeast_reversed :
    letI := wordOrder
    let keys := KeyScheme.of Number.payload Numbering.reversed "number" RootOrder.least
    let program : Program UInt32 Number NumberConflict Unit Unit :=
      .call (.newKey .unset) fun _ => .call (.newKey ⟨1⟩) fun _ => .call (.newKey ⟨2⟩) fun _ =>
      .call (.union 0xFFFFFFFE 0xFFFFFFFF) fun _ => .call .snapshot fun _ =>
      .call (.newKey .unset) fun _ => .call (.union 0xFFFFFFFF 0xFFFFFFFC) fun _ =>
      .call (.rollback ⟨1⟩) fun _ => .call (.union 0xFFFFFFFD 0xFFFFFFFF) fun _ => .finish (.ok ())
    let table := Action.after (program.run keys) {}
    keys.NominatesLeast ∧
      (∀ index < table.size, keys.index (keys.ofIndex index) = index) ∧
      keys.index 0xFFFFFFFF < table.size ∧
      ∃ representative, Action.outcome (Table.find keys 0xFFFFFFFF) table = .ok representative ∧
        IsLeast {other | (∃ index < table.size, keys.ofIndex index = other) ∧
          Action.outcome (Table.unioned keys other 0xFFFFFFFF) table = .ok true}
          representative := by
  let _ := wordOrder
  intro keys program table
  have horder : keys.NominatesLeast := by
    intro a valueA b valueB hne
    rcases le_total a b with hle | hle
    · rw [min_eq_left hle, max_eq_right hle]
      exact congrArg some (if_pos hle)
    · rw [min_eq_right hle, max_eq_left hle]
      exact congrArg some (if_neg (not_le_of_gt (lt_of_le_of_ne hle (Ne.symm hne))))
  have hsize : table.size = 3 := by decide +kernel
  have hkeys : ∀ index < table.size, keys.index (keys.ofIndex index) = index := by
    intro index hindex
    rw [hsize] at hindex
    exact Numbering.reversed_index_ofIndex (Nat.lt_trans hindex (by decide))
  have hkey : keys.index 0xFFFFFFFF < table.size := by
    rw [hsize]
    decide
  exact ⟨horder, hkeys, hkey, Program.find_isLeast keys program horder hkeys _ hkey⟩

end Unification
