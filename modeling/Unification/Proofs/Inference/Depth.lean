import Mathlib.Data.Nat.Log
import Unification.Proofs.Forest.Weights
import Unification.Proofs.Inference.Representative

namespace Unification

variable {δ β : Type}

namespace Binding

/-- How many keys a class of type variables has at least, by the rank of its root.
    A bound root may survive the union with a higher one, so that it has just more
    than half the keys to show for its rank that an unbound one has. -/
def weight (rank : Nat) : Binding → Nat
  | unbound => 2 ^ rank
  | bound _ => 2 ^ rank / 2 + 1

theorem weight_succ_le (rank : Nat) (binding : Binding) :
    weight (rank + 1) binding ≤ weight rank binding + weight rank binding := by
  cases binding with
  | unbound => simp only [weight, Nat.pow_succ, Nat.mul_two, Nat.le_refl]
  | bound type =>
    simp only [weight, Nat.pow_succ]
    omega

/-- A bound root that survives takes over the weight of the unbound one, and has
    at least one key of its own. -/
theorem weight_joinedRank_le (rank other : Nat) (type : Ty) :
    weight (Table.joinedRank rank other) (bound type) ≤
      weight rank (bound type) + weight other unbound := by
  unfold Table.joinedRank
  split
  next => exact Nat.le_add_right _ _
  next =>
    have hpos : 0 < 2 ^ rank := Nat.two_pow_pos rank
    simp only [weight, Nat.pow_succ]
    omega

theorem pow_le_weight (rank : Nat) (binding : Binding) : 2 ^ rank ≤ weight rank binding * 2 := by
  cases binding with
  | unbound => exact Nat.le_mul_of_pos_right _ (by decide)
  | bound type =>
    simp only [weight]
    omega

theorem weight_le_of_merge {old value merged : Binding} (h : merge old value = .ok merged)
    (rank : Nat) : weight rank merged ≤ weight rank old := by
  have hpos : 0 < 2 ^ rank := Nat.two_pow_pos rank
  cases old with
  | unbound =>
    rw [unbound_merge] at h
    cases h
    cases value with
    | unbound => exact Nat.le_refl _
    | bound type =>
      simp only [weight]
      omega
  | bound type => rw [(eq_bound_iff_of_merge h).mpr (.inl rfl)]

end Binding

theorem typeVars_weighs : typeVars.Weighs Binding.weight where
  single
    | .unbound => Nat.le_refl 1
    | .bound _ => Nat.le_refl 1
  joined := by
    intro a b survivor redirected nodeA nodeB merged hne hmerge hsurvival
    replace hmerge : Binding.merge nodeA.value nodeB.value = .ok merged := hmerge
    cases hA : nodeA.value with
    | unbound =>
      rw [hA, Binding.unbound_merge] at hmerge
      cases hmerge
      cases hB : nodeB.value with
      | unbound =>
        have horder : typeVars.order ⟨a⟩ nodeA.value ⟨b⟩ nodeB.value = none := by
          rw [hA, hB]
          rfl
        exact KeyScheme.weight_le_of_unordered (Binding.weight · .unbound)
          (fun rank => Binding.weight_succ_le rank .unbound) hne horder hsurvival
      | bound type =>
        -- The bound root survives, even below the rank of the other one.
        cases (typeVars_survival hB hA).2.symm.trans hsurvival
        rw [if_neg (Ne.symm hne), Nat.add_comm]
        exact Binding.weight_joinedRank_le nodeB.rank nodeA.rank type
    | bound type =>
      rw [hA] at hmerge
      obtain rfl := (Binding.eq_bound_iff_of_merge hmerge).mpr (.inl rfl)
      cases hB : nodeB.value with
      | unbound =>
        cases (typeVars_survival hA hB).1.symm.trans hsurvival
        rw [if_pos rfl]
        exact Binding.weight_joinedRank_le nodeA.rank nodeB.rank type
      | bound other =>
        have horder : typeVars.order ⟨a⟩ nodeA.value ⟨b⟩ nodeB.value = none := by
          rw [hA, hB]
          rfl
        exact KeyScheme.weight_le_of_unordered (Binding.weight · (.bound type))
          (fun rank => Binding.weight_succ_le rank (.bound type)) hne horder hsurvival
  revalued rank _ _ _ hmerge := Binding.weight_le_of_merge hmerge rank

/-- What holds of the ranks in a table of type variables: they cost many keys, and
    so ways up are short. -/
structure Table.Shallow (table : Table Binding) : Prop where
  unbound : ∀ (root : Nat) (node : Node Binding), table.nodes[root]? = some node →
    node.parent = root → node.value = .unbound →
      2 ^ node.rank ≤ (classOf table.nodes root).ncard
  bound : ∀ (root : Nat) (node : Node Binding) (type : Ty), table.nodes[root]? = some node →
    node.parent = root → node.value = .bound type → 1 ≤ node.rank →
      2 ^ (node.rank - 1) + 1 ≤ (classOf table.nodes root).ncard
  path : ∀ index < table.size, ∃ path root, Ascent table.nodes index path root ∧
    IsRoot table.nodes root ∧ path.length ≤ 1 + Nat.log 2 table.size

theorem Weighed.shallow {table : Table Binding} (h : Weighed Binding.weight table.nodes)
    (hforest : Forest table.nodes) : table.Shallow where
  unbound := by
    intro root node hnode hself hvalue
    have hweight := h root node hnode hself
    rwa [hvalue] at hweight
  bound := by
    intro root node type hnode hself hvalue hrank
    have hweight := h root node hnode hself
    obtain ⟨rank, hrank⟩ := Nat.exists_eq_add_of_le' hrank
    rw [hvalue, Binding.weight, hrank, Nat.pow_succ, Nat.mul_div_cancel _ (by decide)] at hweight
    rwa [hrank, Nat.add_sub_cancel]
  path := by
    intro index hindex
    obtain ⟨root, htop, path, hpath⟩ := hforest.exists_root hindex
    obtain ⟨node, hnode, hself⟩ := id htop
    have hheight : path.length ≤ node.rank :=
      (Nat.le_add_left _ _).trans
        (hforest.add_length_le hpath (Array.getElem?_eq_getElem hindex) hnode)
    have hpow : 2 ^ node.rank ≤ table.size * 2 :=
      calc 2 ^ node.rank
        _ ≤ Binding.weight node.rank node.value * 2 := Binding.pow_le_weight _ _
        _ ≤ (classOf table.nodes root).ncard * 2 := Nat.mul_le_mul_right 2 (h root node hnode hself)
        _ ≤ table.size * 2 := Nat.mul_le_mul_right 2 (ncard_classOf_le table.nodes root)
    have hlog := Nat.le_log_of_pow_le (by decide) hpow
    rw [Nat.log_mul_base (by decide) (Nat.ne_of_gt (Nat.zero_lt_of_lt hindex))] at hlog
    exact ⟨path, root, hpath, htop, by omega⟩

theorem Table.shallow_perform (operations : List (Operation TypeVar Binding)) :
    (Table.perform typeVars operations {}).Shallow :=
  (Table.weighed_perform typeVars_weighs operations).shallow
    (Table.forest_perform typeVars operations)

/-- Ranks cost keys, and so ways up stay short. If the root order leaves all to
    the ranks, a root has twice as many keys in its class for every rank that it
    has. Type variables are not of this kind: a bound root survives whatever its
    rank is. It has half of these keys and one more, and so no way up is longer
    by more than one step than if the ranks had decided. All this holds in
    every state that programs reach, whatever they roll back. -/
theorem depth_logarithmic :
    (∀ {κ α ε : Type} (keys : KeyScheme κ α ε) (program : Program κ α ε δ β),
      (∀ a valueA b valueB, keys.order a valueA b valueB = none) →
        let table := Action.after (program.run keys) {}
        ∀ (root : Nat) (node : Node α), table.nodes[root]? = some node → node.parent = root →
          2 ^ node.rank ≤ (classOf table.nodes root).ncard) ∧
    (∀ program : Program TypeVar Binding TypeMismatch δ β,
      (Action.after (program.run typeVars) {}).Shallow) ∧
    ∀ program : InferenceProgram δ β, (Action.after program.run {}).table.Shallow := by
  refine ⟨fun keys program horder => ?_, fun program => ?_, fun program => ?_⟩
  · obtain ⟨operations, hoperations⟩ := program.exists_perform keys
    rw [hoperations]
    exact Table.weighed_perform (KeyScheme.weighs_pow horder) operations
  · obtain ⟨operations, hoperations⟩ := program.exists_perform typeVars
    exact hoperations ▸ Table.shallow_perform operations
  · obtain ⟨operations, hoperations⟩ := program.exists_perform
    exact hoperations ▸ Table.shallow_perform operations

/-- The bound root 2 survives the union with the root of two keys, and is of rank
    2 then, for which an unbound root would have four keys. Its class has three,
    and it is two steps from the first of them to the root. -/
theorem depth_logarithmic_bound :
    let program : InferenceProgram Unit Unit :=
      .call .fresh fun _ => .call .fresh fun _ => .call .fresh fun _ =>
      .call (.constrain (.vars ⟨0⟩ ⟨1⟩ (.expectedUnify ⟨0⟩))) fun _ =>
      .call (.constrain (.ty ⟨2⟩ .int (.expectedUnify ⟨1⟩))) fun _ =>
      .call (.constrain (.vars ⟨1⟩ ⟨2⟩ (.expectedUnify ⟨2⟩))) fun _ => .finish (.ok ())
    let table := (Action.after program.run {}).table
    table.nodes = #[⟨1, 0, .unbound⟩, ⟨2, 1, .unbound⟩, ⟨2, 2, .bound .int⟩] ∧
      (classOf table.nodes 2).ncard = 2 ^ (2 - 1) + 1 ∧
      Ascent table.nodes 0 [0, 1] 2 ∧ [0, 1].length ≤ 1 + Nat.log 2 table.size := by
  intro program table
  have hnodes : table.nodes =
      #[⟨1, 0, .unbound⟩, ⟨2, 1, .unbound⟩, ⟨2, 2, .bound .int⟩] := by decide +kernel
  have hshallow : table.Shallow := depth_logarithmic.2.2 program
  have hnode : table.nodes[2]? = some ⟨2, 2, .bound .int⟩ := by
    rw [hnodes]
    rfl
  have hway : Ascent table.nodes 0 [0, 1] 2 := by
    rw [hnodes]
    exact .cons rfl (by decide) (.cons rfl (by decide) (.nil 2))
  have hless : (classOf table.nodes 2).ncard ≤ 3 := by
    have hle := ncard_classOf_le table.nodes 2
    rwa [hnodes] at hle ⊢
  obtain ⟨path, root, hpath, hroot, hlength⟩ := hshallow.path 0 (by rw [Table.size, hnodes]; decide)
  obtain ⟨rfl, rfl⟩ := hpath.unique hroot hway ⟨_, hnode, rfl⟩
  exact ⟨hnodes, Nat.le_antisymm hless (hshallow.bound 2 _ .int hnode rfl rfl (by decide)), hway,
    hlength⟩

end Unification
