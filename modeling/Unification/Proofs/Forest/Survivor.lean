import Unification.Keys.Numbering
import Unification.Keys.RootOrder
import Unification.Payload.Number
import Unification.Proofs.Forest.Reachable

namespace Unification

variable {κ α ε δ β : Type}

/-- The one of two roots that is to survive: the one whose index the root order
    nominates for the values before the merge. If it nominates none, the root of
    the higher rank survives, and the second one of two that are of one rank. -/
def KeyScheme.survivor (keys : KeyScheme κ α ε) (a : Nat) (nodeA : Node α) (b : Nat)
    (nodeB : Node α) : Nat :=
  match keys.order (keys.ofIndex a) nodeA.value (keys.ofIndex b) nodeB.value with
  | some (nominated, _) => keys.index nominated
  | none => if nodeB.rank < nodeA.rank then a else b

theorem KeyScheme.survivor_of_survival {keys : KeyScheme κ α ε} {a b survivor redirected : Nat}
    {nodeA nodeB : Node α} (h : keys.survival a nodeA b nodeB = .ok (survivor, redirected)) :
    keys.survivor a nodeA b nodeB = survivor := by
  obtain ⟨nominated, hnomination, hchosen⟩ := survival_eq_ok_iff.mp h
  unfold KeyScheme.survivor
  unfold nomination at hnomination
  split at hnomination
  next horder =>
    cases hnomination
    rw [Option.getD_none] at hchosen
    rw [horder]
    dsimp only
    split
    next hrank => rw [if_pos hrank] at hchosen; exact congrArg Prod.fst hchosen
    next hrank => rw [if_neg hrank] at hchosen; exact congrArg Prod.fst hchosen
  next winner loser horder =>
    rw [horder]
    dsimp only at hnomination ⊢
    split at hnomination
    next =>
      cases hnomination
      exact congrArg Prod.fst hchosen
    next => cases hnomination

/-- What is left of a table after the trees of two roots were joined. -/
structure Table.JoinedUnder (keys : KeyScheme κ α ε) (table left : Table α)
    (survivor redirected : Nat) (top below : Node α) (value : α) : Prop where
  size_eq : left.size = table.size
  /-- The survivor keeps its rank if it is the higher one, and rises just above
      the other root if it is not. -/
  getElem?_survivor : left.nodes[survivor]? =
    some { top with rank := if below.rank < top.rank then top.rank else below.rank + 1, value }
  getElem?_redirected : left.nodes[redirected]? = some { below with parent := survivor }
  exists_parent : ∀ (index : Nat) (node : Node α), index ≠ survivor → index ≠ redirected →
    table.nodes[index]? = some node → ∃ parent, left.nodes[index]? = some { node with parent }
  /-- The survivor stands for all keys of both trees. -/
  find : ∀ (key : κ) (root : Nat), HasRoot table.nodes (keys.index key) root →
    root = survivor ∨ root = redirected →
      Action.outcome (Table.find keys key) left = .ok (keys.ofIndex survivor)
  /-- Nothing is new for the keys of other trees. -/
  elsewhere : ∀ (key : κ) (root : Nat), HasRoot table.nodes (keys.index key) root →
    root ≠ survivor → root ≠ redirected →
      Action.outcome (Table.find keys key) left = Action.outcome (Table.find keys key) table ∧
      Action.outcome (Table.probe keys key) left = Action.outcome (Table.probe keys key) table

/-- A link after searches that have shortened ways up. -/
theorem Flattened.joinedUnder (keys : KeyScheme κ α ε) {table left : Table α}
    {flat : Array (Node α)} {survivor redirected : Nat} {top below : Node α} {value : α}
    (h : Flattened table.nodes flat) (hforest : Forest table.nodes)
    (hsurvivor : IsRoot table.nodes survivor) (hredirected : IsRoot table.nodes redirected)
    (hne : redirected ≠ survivor) (htop : table.nodes[survivor]? = some top)
    (hbelow : table.nodes[redirected]? = some below)
    (hcrowned : Crowned flat survivor redirected (Table.joinedRank top.rank below.rank) value
      left.nodes) :
    table.JoinedUnder keys left survivor redirected top below value where
  size_eq := hcrowned.size_eq.trans h.size_eq
  getElem?_survivor := hcrowned.getElem?_survivor (h.getElem?_root hsurvivor htop)
  getElem?_redirected := hcrowned.getElem?_redirected hne (h.getElem?_root hredirected hbelow)
  exists_parent := by
    intro index node hother hother' hnode
    rw [hcrowned.getElem?_other hother hother']
    exact h.exists_parent hnode
  find := by
    intro key root hroot hside
    have hleft := hcrowned.hasRoot (h.hasRoot hroot)
    have hjoined : (if root = redirected then survivor else root) = survivor := by
      split
      next => rfl
      next hother => exact hside.resolve_right hother
    rw [hjoined] at hleft
    obtain ⟨last, hfind, -⟩ := Table.find_of_hasRoot keys hcrowned.forest hleft
    exact Action.outcome_of_ok hfind
  elsewhere := by
    intro key root hroot hother hother'
    have hleft := hcrowned.hasRoot (h.hasRoot hroot)
    rw [if_neg hother'] at hleft
    obtain ⟨node, hnode, -⟩ := hroot.1
    have hstill : left.nodes[root]? = some node := by
      rw [hcrowned.getElem?_other hother hother', h.getElem?_root hroot.1 hnode]
    obtain ⟨_, hfind, -⟩ := Table.find_of_hasRoot keys hforest hroot
    obtain ⟨_, hprobe, -⟩ := Table.probe_of_hasRoot keys hforest hroot hnode
    obtain ⟨_, hfind', -⟩ := Table.find_of_hasRoot keys hcrowned.forest hleft
    obtain ⟨_, hprobe', -⟩ := Table.probe_of_hasRoot keys hcrowned.forest hleft hstill
    rw [Action.outcome_of_ok hfind, Action.outcome_of_ok hfind', Action.outcome_of_ok hprobe,
      Action.outcome_of_ok hprobe']
    exact ⟨rfl, rfl⟩

/-- The root that survives a union is the one that the root order nominates for
    the values before the merge. Without a nomination it is the one of the higher
    rank, and that of the second key if both are of one rank. In every table that
    programs reach, a union of two classes that is not refused leaves it above
    all keys of both, with its own rank or one more than that of the other root.
    That root keeps its rank and its value, as do all other nodes, and the keys
    of other classes keep their representatives and their values. -/
theorem Program.union_survivor (keys : KeyScheme κ α ε) (program : Program κ α ε δ β) {a b : κ}
    (hdifferent : Action.outcome (Table.unioned keys a b) (Action.after (program.run keys) {}) =
      .ok false)
    (hunion : Action.outcome (Table.union keys a b) (Action.after (program.run keys) {}) =
      .ok ()) :
    let table := Action.after (program.run keys) {}
    ∃ rootA rootB nodeA nodeB survivor redirected top below merged,
      Action.outcome (Table.find keys a) table = .ok (keys.ofIndex rootA) ∧
      Action.outcome (Table.find keys b) table = .ok (keys.ofIndex rootB) ∧
      HasRoot table.nodes (keys.index a) rootA ∧ HasRoot table.nodes (keys.index b) rootB ∧
      table.nodes[rootA]? = some nodeA ∧ table.nodes[rootB]? = some nodeB ∧
      keys.merge nodeA.value nodeB.value = .ok merged ∧
      survivor = keys.survivor rootA nodeA rootB nodeB ∧
      ((survivor, top, redirected, below) = (rootA, nodeA, rootB, nodeB) ∨
        (survivor, top, redirected, below) = (rootB, nodeB, rootA, nodeA)) ∧
      table.JoinedUnder keys (Action.after (Table.union keys a b) table) survivor redirected top
        below merged := by
  intro table
  have hforest : Forest table.nodes := program.forest keys
  obtain ⟨rootA, rootB, hA, hB, hroots⟩ := Table.hasRoots_of_unioned keys hforest hdifferent
  have hne : rootA ≠ rootB := by simpa using hroots.symm
  obtain ⟨_, hfindA, -⟩ := Table.find_of_hasRoot keys hforest hA
  obtain ⟨_, hfindB, -⟩ := Table.find_of_hasRoot keys hforest hB
  obtain ⟨outcome, left, hrun, heffect⟩ :=
    (Operation.union a b).exists_effect keys table rfl hforest
  have houtcome : outcome = .ok .done := by
    rw [← Action.outcome_of_eq_ending hrun, Operation.run, Action.outcome_map, hunion]
    rfl
  have hleft : Action.after (Table.union keys a b) table = left := by
    rw [← Action.after_of_eq_ending hrun, Operation.run, Action.after_map]
  subst houtcome
  rw [hleft]
  cases heffect with
  | same hA' hB' => exact absurd ((hA.unique hA').trans (hB'.unique hB)) hne
  | joined hA' hB' _ hnodeA hnodeB hmerge hsurvival htop hbelow hflat hcrowned =>
    obtain rfl := hA.unique hA'
    obtain rfl := hB.unique hB'
    have hsurvives := KeyScheme.survivor_of_survival hsurvival
    rcases KeyScheme.survival_cases hsurvival with hpair | hpair
    · cases hpair
      obtain rfl := Option.some.inj (hnodeA.symm.trans htop)
      obtain rfl := Option.some.inj (hnodeB.symm.trans hbelow)
      exact ⟨_, _, _, _, _, _, _, _, _, Action.outcome_of_ok hfindA, Action.outcome_of_ok hfindB,
        hA, hB, hnodeA, hnodeB, hmerge, hsurvives.symm, .inl rfl,
        hflat.joinedUnder keys hforest hA.1 hB.1 (Ne.symm hne) hnodeA hnodeB hcrowned⟩
    · cases hpair
      obtain rfl := Option.some.inj (hnodeB.symm.trans htop)
      obtain rfl := Option.some.inj (hnodeA.symm.trans hbelow)
      exact ⟨_, _, _, _, _, _, _, _, _, Action.outcome_of_ok hfindA, Action.outcome_of_ok hfindB,
        hA, hB, hnodeA, hnodeB, hmerge, hsurvives.symm, .inr rfl,
        hflat.joinedUnder keys hforest hB.1 hA.1 hne hnodeB hnodeA hcrowned⟩

/-- The higher of two roots, which the root order redirects to the other one for
    its greater value. That value is the one before the merge. -/
theorem Program.union_survivor_greatest :
    let keys := KeyScheme.of Number.payload Numbering.reversed "number"
      (RootOrder.greatestBy Number.value)
    let program : Program UInt32 Number NumberConflict Unit Unit :=
      .call (.newKey .unset) fun _ => .call (.newKey .unset) fun _ => .call (.newKey ⟨5⟩) fun _ =>
      .call (.newKey ⟨7⟩) fun _ => .call (.union 0xFFFFFFFF 0xFFFFFFFE) fun _ => .finish (.ok ())
    let table := Action.after (program.run keys) {}
    Action.outcome (Table.unioned keys 0xFFFFFFFE 0xFFFFFFFD) table = .ok false ∧
      Action.outcome (Table.union keys 0xFFFFFFFE 0xFFFFFFFD) table = .ok () ∧
      ∃ rootA rootB nodeA nodeB survivor redirected top below merged,
        Action.outcome (Table.find keys 0xFFFFFFFE) table = .ok (keys.ofIndex rootA) ∧
        Action.outcome (Table.find keys 0xFFFFFFFD) table = .ok (keys.ofIndex rootB) ∧
        HasRoot table.nodes (keys.index 0xFFFFFFFE) rootA ∧
        HasRoot table.nodes (keys.index 0xFFFFFFFD) rootB ∧
        table.nodes[rootA]? = some nodeA ∧ table.nodes[rootB]? = some nodeB ∧
        keys.merge nodeA.value nodeB.value = .ok merged ∧
        survivor = keys.survivor rootA nodeA rootB nodeB ∧
        ((survivor, top, redirected, below) = (rootA, nodeA, rootB, nodeB) ∨
          (survivor, top, redirected, below) = (rootB, nodeB, rootA, nodeA)) ∧
        table.JoinedUnder keys (Action.after (Table.union keys 0xFFFFFFFE 0xFFFFFFFD) table)
          survivor redirected top below merged := by
  intro keys program table
  have hdifferent : Action.outcome (Table.unioned keys 0xFFFFFFFE 0xFFFFFFFD) table =
      .ok false := by decide +kernel
  have hunion : Action.outcome (Table.union keys 0xFFFFFFFE 0xFFFFFFFD) table = .ok () := by
    decide +kernel
  exact ⟨hdifferent, hunion, Program.union_survivor keys program hdifferent hunion⟩

end Unification
