import Unification.Proofs.Forest.Compression
import Unification.Table.Union

namespace Unification

variable {κ α ε δ : Type}

/-- Two trees made one: a root is redirected to another one, which survives with
    the value of both. No other node changes. -/
structure Linked (nodes : Array (Node α)) (survivor redirected : Nat) (value : α)
    (linked : Array (Node α)) : Prop where
  forest : Forest linked
  size_eq : linked.size = nodes.size
  hasRoot : ∀ {index root : Nat}, HasRoot nodes index root →
    HasRoot linked index (if root = redirected then survivor else root)
  exists_survivor : ∃ node, linked[survivor]? = some node ∧ node.value = value
  getElem?_other : ∀ {other : Nat}, other ≠ survivor → other ≠ redirected →
    linked[other]? = nodes[other]?

/-- Two trees made one, with all that is written into both of their roots. -/
structure Crowned (nodes : Array (Node α)) (survivor redirected rank : Nat) (value : α)
    (crowned : Array (Node α)) : Prop
    extends Linked nodes survivor redirected value crowned where
  getElem?_survivor : ∀ {node : Node α}, nodes[survivor]? = some node →
    crowned[survivor]? = some { node with rank, value }
  getElem?_redirected : ∀ {node : Node α}, redirected ≠ survivor →
    nodes[redirected]? = some node → crowned[redirected]? = some { node with parent := survivor }

/-- A root of the joined trees is the one that survived, or another one than both. -/
theorem Linked.root_cases {nodes linked : Array (Node α)} {survivor redirected root : Nat}
    {value : α} (h : Linked nodes survivor redirected value linked) (hforest : Forest nodes)
    (hroot : IsRoot linked root) :
    root = survivor ∨ root ≠ survivor ∧ root ≠ redirected ∧ IsRoot nodes root := by
  obtain ⟨top, htop⟩ := hforest.exists_root (h.size_eq ▸ hroot.lt_size)
  have hsame := hroot.hasRoot.unique (h.hasRoot htop)
  split at hsame
  next => exact .inl hsame
  next hne =>
    subst hsame
    by_cases hsurvivor : root = survivor
    · exact .inl hsurvivor
    · exact .inr ⟨hsurvivor, hne, htop.1⟩

/-- A root with another rank and another value. -/
theorem HasRoot.crowned {nodes : Array (Node α)} {index root : Nat} (h : HasRoot nodes index root)
    {crowned : Nat} {node : Node α} (hnode : nodes[crowned]? = some node) (rank : Nat) (value : α) :
    HasRoot (nodes.setIfInBounds crowned { node with rank, value }) index root := by
  refine h.congr fun other _ => ?_
  rw [getElem?_overwritten hnode]
  split
  next hsame => rw [← hsame, hnode, Option.map_some, Option.map_some]
  next => rfl

theorem Forest.crowned {nodes : Array (Node α)} (h : Forest nodes) {root : Nat} {node : Node α}
    (hroot : IsRoot nodes root) (hnode : nodes[root]? = some node) {rank : Nat}
    (hrank : node.rank ≤ rank) (value : α) :
    Forest (nodes.setIfInBounds root { node with rank, value }) := by
  have hself := hroot.parent_eq hnode
  exact h.overwrite hnode hrank (.inl hself)

/-- The survivor has to rise above the other root. Which of the two was the
    higher one does not matter, so that any of them may survive. -/
theorem Forest.linked {nodes : Array (Node α)} (h : Forest nodes) {survivor redirected : Nat}
    {top below : Node α} (hsurvivor : IsRoot nodes survivor) (hredirected : IsRoot nodes redirected)
    (hne : redirected ≠ survivor) (htop : nodes[survivor]? = some top)
    (hbelow : nodes[redirected]? = some below) {rank : Nat} (hrank : top.rank ≤ rank)
    (hless : below.rank < rank) (value : α) :
    Crowned nodes survivor redirected rank value
      ((nodes.setIfInBounds redirected { below with parent := survivor }).setIfInBounds survivor
        { top with rank, value }) where
  forest := by
    -- The writes commute, and ranks grow upward in between only if the survivor rises first.
    rw [Array.setIfInBounds_comm _ _ hne]
    have hrisen := getElem?_overwritten htop { top with rank, value }
    have hstill : (nodes.setIfInBounds survivor { top with rank, value })[redirected]? =
        some below := by rw [hrisen, if_neg (Ne.symm hne), hbelow]
    exact (h.crowned hsurvivor htop hrank value).overwrite hstill (Nat.le_refl _)
      (.inr ⟨_, by rw [hrisen, if_pos rfl], hless⟩)
  size_eq := by rw [Array.size_setIfInBounds, Array.size_setIfInBounds]
  hasRoot := by
    intro index root hroot
    have hstill : (nodes.setIfInBounds redirected { below with parent := survivor })[survivor]? =
        some top := by rw [getElem?_overwritten hbelow, if_neg hne, htop]
    exact (hroot.redirected hbelow hsurvivor hne (.inl hredirected)).crowned hstill rank value
  exists_survivor := by
    refine ⟨{ top with rank, value }, ?_, rfl⟩
    rw [Array.getElem?_setIfInBounds_self, Array.size_setIfInBounds, if_pos hsurvivor.lt_size]
  getElem?_other := by
    intro other hother hother'
    rw [Array.getElem?_setIfInBounds_ne (Ne.symm hother),
      Array.getElem?_setIfInBounds_ne (Ne.symm hother')]
  getElem?_survivor := by
    intro node hnode
    rw [htop] at hnode
    cases hnode
    rw [Array.getElem?_setIfInBounds_self, Array.size_setIfInBounds, if_pos hsurvivor.lt_size]
  getElem?_redirected := by
    intro node _ hnode
    rw [hbelow] at hnode
    cases hnode
    rw [Array.getElem?_setIfInBounds_ne (Ne.symm hne), getElem?_overwritten hbelow, if_pos rfl]

/-- What comes of asking the root order for two roots with their values: no
    choice, the indices of the survivor and of the other root, or a refusal. -/
def KeyScheme.nomination (keys : KeyScheme κ α ε) (a : Nat) (valueA : α) (b : Nat) (valueB : α) :
    Except (TableError ε) (Option (Nat × Nat)) :=
  match keys.order (keys.ofIndex a) valueA (keys.ofIndex b) valueB with
  | none => .ok none
  | some (survivor, redirected) =>
    let pair := (keys.index survivor, keys.index redirected)
    if pair = (a, b) ∨ pair = (b, a) then .ok (some pair)
    else .error (.invalidRootOrder keys.tag pair.1 pair.2 a b)

theorem KeyScheme.nomination_eq_ok {keys : KeyScheme κ α ε} {a b : Nat} {valueA valueB : α}
    {pair : Nat × Nat} (h : keys.nomination a valueA b valueB = .ok (some pair)) :
    pair = (a, b) ∨ pair = (b, a) := by
  unfold nomination at h
  split at h
  · cases h
  · dsimp only at h
    split at h
    next hpair =>
      cases h
      exact hpair
    next => cases h

/-- Which of two roots survives when they are joined, and which is redirected: as
    the root order nominates them, or else the higher one survives, and the
    second of two that are of one rank. -/
def KeyScheme.survival (keys : KeyScheme κ α ε) (a : Nat) (nodeA : Node α) (b : Nat)
    (nodeB : Node α) : Except (TableError ε) (Nat × Nat) :=
  (·.getD (if nodeB.rank < nodeA.rank then (a, b) else (b, a))) <$>
    keys.nomination a nodeA.value b nodeB.value

theorem KeyScheme.survival_eq_ok_iff {keys : KeyScheme κ α ε} {a b : Nat} {nodeA nodeB : Node α}
    {pair : Nat × Nat} :
    keys.survival a nodeA b nodeB = .ok pair ↔
      ∃ nominated, keys.nomination a nodeA.value b nodeB.value = .ok nominated ∧
        nominated.getD (if nodeB.rank < nodeA.rank then (a, b) else (b, a)) = pair := by
  unfold survival
  cases keys.nomination a nodeA.value b nodeB.value with
  | error reason => simp [Functor.map, Except.map]
  | ok nominated => simp [Functor.map, Except.map]

theorem KeyScheme.survival_cases {keys : KeyScheme κ α ε} {a b : Nat} {nodeA nodeB : Node α}
    {pair : Nat × Nat} (h : keys.survival a nodeA b nodeB = .ok pair) :
    pair = (a, b) ∨ pair = (b, a) := by
  obtain ⟨nominated, hnomination, rfl⟩ := survival_eq_ok_iff.mp h
  cases nominated with
  | none =>
    rw [Option.getD_none]
    split
    · exact .inl rfl
    · exact .inr rfl
  | some pair => exact nomination_eq_ok hnomination

theorem KeyScheme.isRoot_of_survival {keys : KeyScheme κ α ε} {nodes : Array (Node α)}
    {a b survivor redirected : Nat} {nodeA nodeB : Node α}
    (h : keys.survival a nodeA b nodeB = .ok (survivor, redirected)) (hA : IsRoot nodes a)
    (hB : IsRoot nodes b) : IsRoot nodes survivor ∧ IsRoot nodes redirected := by
  rcases survival_cases h with hpair | hpair <;> cases hpair
  · exact ⟨hA, hB⟩
  · exact ⟨hB, hA⟩

namespace Table

variable (keys : KeyScheme κ α ε) {table : Table α} {a b : Nat} {nodeA nodeB : Node α}

theorem nominate_eq (hA : table.nodes[a]? = some nodeA) (hB : table.nodes[b]? = some nodeB) :
    nominate keys a b table =
      Action.ending ((keys.nomination a nodeA.value b nodeB.value).mapError .refused) table := by
  rw [nominate, Action.bind_of_ok (nodeAt_of_some hA), Action.bind_of_ok (nodeAt_of_some hB),
    KeyScheme.nomination]
  cases keys.order (keys.ofIndex a) nodeA.value (keys.ofIndex b) nodeB.value with
  | none => rfl
  | some pair =>
    dsimp only
    split <;> rfl

/-- A nomination that is refused leaves the table alone. -/
theorem link_of_refused (hA : table.nodes[a]? = some nodeA) (hB : table.nodes[b]? = some nodeB)
    {reason : TableError ε} (h : keys.nomination a nodeA.value b nodeB.value = .error reason)
    (value : α) : link keys a b value table = .error (.refused reason) table := by
  have hnominate := nominate_eq keys hA hB
  rw [h] at hnominate
  rw [link, Action.bind_of_ok (nodeAt_of_some hA), Action.bind_of_ok (nodeAt_of_some hB),
    Action.bind_of_error hnominate]

private theorem exists_linked {survivor redirected rank : Nat} {top below : Node α}
    (hforest : Forest table.nodes) (hsurvivor : IsRoot table.nodes survivor)
    (hredirected : IsRoot table.nodes redirected) (hne : redirected ≠ survivor)
    (htop : table.nodes[survivor]? = some top) (hbelow : table.nodes[redirected]? = some below)
    (hrank : top.rank ≤ rank) (hless : below.rank < rank) (value : α) :
    ∃ left, (do
        update redirected fun node => { node with parent := survivor }
        update survivor fun node => { node with rank, value } : TableM α δ Unit) table =
          .ok () left ∧ Crowned table.nodes survivor redirected rank value left.nodes := by
  obtain ⟨middle, hfirst, hmiddle⟩ := exists_update (δ := δ) hbelow
    fun node => { node with parent := survivor }
  have hstill : middle.nodes[survivor]? = some top := by
    rw [hmiddle, getElem?_overwritten hbelow, if_neg hne, htop]
  obtain ⟨left, hsecond, hleft⟩ := exists_update (δ := δ) hstill
    fun node => { node with rank, value }
  refine ⟨left, (Action.bind_of_ok hfirst).trans hsecond, ?_⟩
  rw [hleft, hmiddle]
  exact hforest.linked hsurvivor hredirected hne htop hbelow hrank hless value

/-- One of two roots survives, and it makes no difference to the forest which one.
    It rises above the other one if it has to. -/
theorem link_of_ok {survivor redirected : Nat} {top below : Node α} (hforest : Forest table.nodes)
    (hrootA : IsRoot table.nodes a) (hrootB : IsRoot table.nodes b) (hne : a ≠ b)
    (hA : table.nodes[a]? = some nodeA) (hB : table.nodes[b]? = some nodeB)
    (h : keys.survival a nodeA b nodeB = .ok (survivor, redirected))
    (htop : table.nodes[survivor]? = some top) (hbelow : table.nodes[redirected]? = some below)
    (value : α) :
    ∃ left, link keys a b value table = .ok () left ∧
      Crowned table.nodes survivor redirected (joinedRank top.rank below.rank) value left.nodes := by
  obtain ⟨nominated, hnomination, hchosen⟩ := KeyScheme.survival_eq_ok_iff.mp h
  have hnominate := nominate_eq keys hA hB
  rw [hnomination] at hnominate
  rw [link, Action.bind_of_ok (nodeAt_of_some hA), Action.bind_of_ok (nodeAt_of_some hB),
    Action.bind_of_ok hnominate]
  simp only [hchosen]
  rcases KeyScheme.survival_cases h with hpair | hpair <;> cases hpair
  · obtain rfl := Option.some.inj (hA.symm.trans htop)
    obtain rfl := Option.some.inj (hB.symm.trans hbelow)
    rw [if_pos rfl]
    exact exists_linked hforest hrootA hrootB (Ne.symm hne) hA hB
      (le_joinedRank nodeA.rank nodeB.rank) (lt_joinedRank nodeA.rank nodeB.rank) value
  · obtain rfl := Option.some.inj (hB.symm.trans htop)
    obtain rfl := Option.some.inj (hA.symm.trans hbelow)
    rw [if_neg (Ne.symm hne)]
    exact exists_linked hforest hrootB hrootA hne hB hA
      (le_joinedRank nodeB.rank nodeA.rank) (lt_joinedRank nodeB.rank nodeA.rank) value

end Table

end Unification
