import Unification.Keys.Numbering
import Unification.Keys.RootOrder
import Unification.Payload.Number
import Unification.Proofs.Forest.Weights
import Unification.Proofs.Snapshot.Faults

namespace Unification

variable {κ α ε δ β : Type}

/-- Each rank costs a key, whichever of two roots survives: its rank is greater
    than both together by one at most, and each root has one key more than ranks. -/
theorem KeyScheme.weighs_succ (keys : KeyScheme κ α ε) : keys.Weighs fun rank _ => rank + 1 where
  single := fun _ => Nat.le_refl 1
  joined := by
    intro a b survivor redirected nodeA nodeB merged _ _ _
    have hfirst := Table.joinedRank_le nodeA.rank nodeB.rank
    have hsecond := Table.joinedRank_le nodeB.rank nodeA.rank
    split <;> omega
  revalued := fun _ _ _ _ _ => Nat.le_refl _

/-- The rank of a node is less than the number of keys in its class. -/
theorem Weighed.rank_lt_ncard {nodes : Array (Node α)} {index root : Nat} {node : Node α}
    (h : Weighed (fun rank _ => rank + 1) nodes) (hforest : Forest nodes)
    (hnode : nodes[index]? = some node) (hroot : HasRoot nodes index root) :
    node.rank < (classOf nodes root).ncard := by
  obtain ⟨⟨top, htop, hself⟩, path, hpath⟩ := hroot
  have hrise : node.rank + path.length ≤ top.rank := hforest.add_length_le hpath hnode htop
  have hweight : top.rank + 1 ≤ (classOf nodes root).ncard := h root top htop hself
  omega

/-- The ranks of nodes leave room for one more in a word of 32 bits. -/
def RanksFit (nodes : Array (Node α)) : Prop :=
  ∀ (index : Nat) (node : Node α), nodes[index]? = some node → node.rank + 1 ≤ 2 ^ 32 - 1

/-- Searches leave the ranks alone. -/
theorem Flattened.ranksFit {nodes flat : Array (Node α)} (h : Flattened nodes flat)
    (hfit : RanksFit nodes) : RanksFit flat := by
  intro index node hnode
  have hindex : index < nodes.size := h.size_eq ▸ (Array.getElem?_eq_some_iff.mp hnode).1
  have hold := Array.getElem?_eq_getElem hindex
  obtain ⟨parent, hparent⟩ := h.exists_parent hold
  rw [hnode] at hparent
  cases hparent
  exact hfit index nodes[index] hold

/-- How many nodes a table has or had, and the indices of nodes, in the nodes
    themselves and in the journal, are words of 32 bits. So is one more than any
    rank. The largest word is no index. -/
structure Table.FitsWords (table : Table α) : Prop where
  size_le : table.size ≤ 2 ^ 32 - 1
  index_lt : ∀ (index : Nat) (node : Node α), table.nodes[index]? = some node →
    index < 2 ^ 32 - 1 ∧ node.parent < 2 ^ 32 - 1
  ranksFit : RanksFit table.nodes
  entry : ∀ entry ∈ table.journal.entries, entry.index < 2 ^ 32 - 1
  count : ∀ frame ∈ table.journal.frames, frame.count ≤ 2 ^ 32 - 1

namespace Table.Reaches

variable {keys : KeyScheme κ α ε} {table : Table α} {index root : Nat} {node : Node α}

theorem forest (h : Reaches keys {} table) : Forest table.nodes := by
  obtain ⟨operations, rfl⟩ := h
  exact forest_perform keys operations

theorem size_le (h : Reaches keys {} table) : table.size ≤ 2 ^ 32 - 1 := by
  obtain ⟨operations, rfl⟩ := h
  exact size_perform_le keys operations

theorem rank_lt_ncard (h : Reaches keys {} table) (hnode : table.nodes[index]? = some node)
    (hroot : HasRoot table.nodes index root) : node.rank < (classOf table.nodes root).ncard := by
  have hforest := h.forest
  obtain ⟨operations, rfl⟩ := h
  exact (weighed_perform keys.weighs_succ operations).rank_lt_ncard hforest hnode hroot

/-- No rank reaches the number of keys, and there are no more keys than indices. -/
theorem ranksFit (h : Reaches keys {} table) : RanksFit table.nodes := by
  intro index node hnode
  obtain ⟨root, hroot⟩ := h.forest.exists_root (Array.getElem?_eq_some_iff.mp hnode).1
  calc node.rank + 1
    _ ≤ (classOf table.nodes root).ncard := h.rank_lt_ncard hnode hroot
    _ ≤ table.size := ncard_classOf_le table.nodes root
    _ ≤ 2 ^ 32 - 1 := h.size_le

theorem fitsWords (h : Reaches keys {} table) : table.FitsWords where
  size_le := h.size_le
  index_lt := fun index node hnode =>
    ⟨(Array.getElem?_eq_some_iff.mp hnode).1.trans_le h.size_le,
      (h.forest.parent_lt hnode).trans_le h.size_le⟩
  ranksFit := h.ranksFit
  entry := by
    obtain ⟨starts, -, horderly, -⟩ := h.savepoints
    obtain ⟨before, hreplay⟩ := horderly.exists_replayable
    intro entry hentry
    have hindex := hreplay.index_lt entry (List.mem_reverse.mpr hentry.val)
    exact hindex.trans_le h.size_le
  count := by
    obtain ⟨starts, hsavepoints, -⟩ := h.savepoints
    exact fun frame hframe => (hsavepoints.count_le frame hframe).trans h.size_le

end Table.Reaches

/-- A way to add one to a rank, which is exact as long as the sum is a word of 32
    bits. What a greater sum comes to is open: another number, a refusal or a fault. -/
structure Increment (α ε : Type) where
  add : Nat → TableM α (TableError ε) Nat
  add_eq : ∀ rank, rank + 1 ≤ 2 ^ 32 - 1 → add rank = pure (rank + 1)

namespace Increment

/-- The sum in words of 32 bits, which start again at zero beyond the largest. -/
def wrapping : Increment α ε where
  add rank := pure (UInt32.ofNat rank + 1).toNat
  add_eq rank hrank := by
    have hsum : (UInt32.ofNat rank + 1).toNat = rank + 1 := by
      rw [UInt32.toNat_add, UInt32.toNat_ofNat', UInt32.toNat_one]
      omega
    rw [hsum]

variable (increment : Increment α ε) (keys : KeyScheme κ α ε) {table : Table α}

/-- The rank of a survivor, which is the only sum of ranks that there is. -/
def joinedRank (survivor redirected : Nat) : TableM α (TableError ε) Nat :=
  if redirected < survivor then pure survivor else increment.add redirected

/-- `Table.link` with the sum as the increment has it. -/
def link (a b : Nat) (value : α) : TableM α (TableError ε) Unit := do
  let rankA := (← Table.nodeAt a).rank
  let rankB := (← Table.nodeAt b).rank
  let nominated ← Table.nominate keys a b
  let (survivor, redirected) := nominated.getD (if rankB < rankA then (a, b) else (b, a))
  let rank ← (if survivor = a then increment.joinedRank rankA rankB
    else increment.joinedRank rankB rankA)
  Table.update redirected fun node => { node with parent := survivor }
  Table.update survivor fun node => { node with rank, value }

/-- `Table.union` with the sum as the increment has it. -/
def union (a b : κ) : TableM α (TableError ε) Unit := do
  let a ← Table.locate keys a
  let b ← Table.locate keys b
  let rootA ← Table.root a
  let rootB ← Table.root b
  if rootA ≠ rootB then
    let nodeA ← Table.nodeAt rootA
    let nodeB ← Table.nodeAt rootB
    match keys.merge nodeA.value nodeB.value with
    | .error conflict => Failure.refuse (.mergeConflict conflict)
    | .ok value => increment.link keys rootA rootB value

/-- The calls on a table, with the sums as the increment has them. -/
def run : Operation κ α → TableM α (TableError ε) (TableAnswer κ α)
  | .union a b => (fun _ => .done) <$> increment.union keys a b
  | operation => operation.run keys

theorem joinedRank_eq {redirected : Nat} (hfit : redirected + 1 ≤ 2 ^ 32 - 1) (survivor : Nat) :
    increment.joinedRank survivor redirected = pure (Table.joinedRank survivor redirected) := by
  unfold joinedRank Table.joinedRank
  split
  · rfl
  · exact increment.add_eq redirected hfit

theorem link_eq (hfit : RanksFit table.nodes) (a b : Nat) (value : α) :
    increment.link keys a b value table = Table.link keys a b value table := by
  rw [link, Table.link]
  refine Action.bind_congr fun nodeA left hA => ?_
  obtain ⟨rfl, hnodeA⟩ := Table.nodeAt_eq_ok hA
  refine Action.bind_congr fun nodeB left hB => ?_
  obtain ⟨rfl, hnodeB⟩ := Table.nodeAt_eq_ok hB
  refine Action.bind_congr fun nominated left _ => ?_
  generalize nominated.getD (if nodeB.rank < nodeA.rank then (a, b) else (b, a)) = pair
  obtain ⟨survivor, redirected⟩ := pair
  dsimp only
  rw [increment.joinedRank_eq (hfit a nodeA hnodeA), increment.joinedRank_eq (hfit b nodeB hnodeB),
    ← apply_ite]
  rfl

/-- Up to the link both unions are the same, and leave the ranks alone. -/
theorem union_eq (hforest : Forest table.nodes) (hfit : RanksFit table.nodes) (a b : κ) :
    increment.union keys a b table = Table.union keys a b table := by
  rw [union, Table.union]
  refine Action.bind_congr fun indexA left hA => ?_
  obtain ⟨rfl, hlessA⟩ := Table.locate_eq_ok keys hA
  refine Action.bind_congr fun indexB left hB => ?_
  obtain ⟨rfl, hlessB⟩ := Table.locate_eq_ok keys hB
  refine Action.bind_congr fun rootA middle hrootA => ?_
  have hfirst := Table.flattened_of_root hforest hlessA hrootA
  refine Action.bind_congr fun rootB flat hrootB => ?_
  have hsecond :=
    Table.flattened_of_root hfirst.forest (hlessB.trans_eq hfirst.size_eq.symm) hrootB
  by_cases hsame : rootA = rootB
  · simp only [hsame, ne_eq, not_true_eq_false, if_false]
  simp only [hsame, ne_eq, not_false_eq_true, if_true]
  refine Action.bind_congr fun nodeA left hA => ?_
  obtain ⟨rfl, -⟩ := Table.nodeAt_eq_ok hA
  refine Action.bind_congr fun nodeB left hB => ?_
  obtain ⟨rfl, -⟩ := Table.nodeAt_eq_ok hB
  cases keys.merge nodeA.value nodeB.value with
  | error conflict => rfl
  | ok value => exact increment.link_eq keys (hsecond.ranksFit (hfirst.ranksFit hfit)) _ _ value

theorem run_eq (h : Table.Reaches keys {} table) (operation : Operation κ α) :
    increment.run keys operation table = operation.run keys table := by
  cases operation with
  | union a b =>
    rw [run, Operation.run]
    simp only [Functor.map, EStateM.map, increment.union_eq keys h.forest h.ranksFit a b]
  | _ => rfl

end Increment

/-- A program sees no difference if its calls are run in another way that comes
    to the same in all tables that can be reached. -/
theorem Program.runBy_eq_run (keys : KeyScheme κ α ε)
    {run : Operation κ α → TableM α (TableError ε) (TableAnswer κ α)}
    (hrun : ∀ {table : Table α}, Table.Reaches keys {} table → ∀ operation,
      run operation table = operation.run keys table)
    (program : Program κ α ε δ β) {table : Table α} (h : Table.Reaches keys {} table) :
    program.runBy run table = program.run keys table := by
  induction program generalizing table with
  | finish outcome => cases outcome <;> rfl
  | call operation next ih =>
    have hleft : Table.Reaches keys {} (Action.after (operation.run keys) table) :=
      h.trans ⟨[operation], rfl⟩
    rw [runBy, Program.run]
    exact Action.attempt_bind_congr (hrun h operation) fun reply => ih reply hleft
  | commitIfOk body next ihBody ih =>
    obtain ⟨starts, hsavepoints, -⟩ := h.savepoints
    have hopened : Table.Reaches keys {} table.opened := h.trans ⟨[.snapshot], rfl⟩
    have hbody := body.reaches keys hsavepoints.opened
    have hleft : Table.Reaches keys {} (Action.after (Table.commitIfOk (body.run keys)) table) :=
      h.trans (reaches_commitIfOk keys hsavepoints hbody)
    rw [runBy, Program.run]
    exact Action.attempt_bind_congr (Table.commitIfOk_congr (ihBody hopened)) fun reply =>
      ih reply hleft

/-- No number in a table outgrows a word of 32 bits. A root order may let a root
    rise with every union, but each rank costs a key: in all tables that programs
    reach, whatever they roll back, the rank of a node is less than the number of
    keys in its class, and there are no more keys than indices. So one more than
    a rank is still a word, and no program can tell what a greater sum comes to. -/
theorem Program.ranks_fit_words (keys : KeyScheme κ α ε) (program : Program κ α ε δ β) :
    let table := Action.after (program.run keys) {}
    (∀ (index : Nat) (node : Node α), table.nodes[index]? = some node →
      ∃ root, HasRoot table.nodes index root ∧ node.rank < (classOf table.nodes root).ncard) ∧
    table.FitsWords ∧
    ∀ increment : Increment α ε, program.runBy (increment.run keys) {} = program.run keys {} := by
  intro table
  have hreach : Table.Reaches keys {} table := program.exists_perform keys
  refine ⟨fun index node hnode => ?_, hreach.fitsWords, fun increment => ?_⟩
  · obtain ⟨root, hroot⟩ := hreach.forest.exists_root (Array.getElem?_eq_some_iff.mp hnode).1
    exact ⟨root, hroot, hreach.rank_lt_ncard hnode hroot⟩
  · exact program.runBy_eq_run keys (increment.run_eq keys) ⟨[], rfl⟩

/-- A root order for which the first root always survives, so that the rank grows
    with every union and is one less than the number of keys in the end. What was
    rolled back has left no rank. -/
theorem Program.ranks_fit_words_first :
    let keys := KeyScheme.of Number.payload Numbering.direct "number" RootOrder.first
    let program : Program UInt32 Number NumberConflict Unit Unit :=
      .call (.newKey .unset) fun _ => .call (.newKey .unset) fun _ => .call (.newKey .unset) fun _ =>
      .call (.newKey .unset) fun _ => .call (.union 1 0) fun _ => .call .snapshot fun _ =>
      .call (.union 3 1) fun _ => .call (.rollback ⟨1⟩) fun _ => .call (.union 2 1) fun _ =>
      .call (.union 3 2) fun _ => .finish (.ok ())
    let table := Action.after (program.run keys) {}
    table.nodes = #[⟨1, 0, .unset⟩, ⟨2, 1, .unset⟩, ⟨3, 2, .unset⟩, ⟨3, 3, .unset⟩] ∧
      (classOf table.nodes 3).ncard = 3 + 1 ∧
      program.runBy (Increment.wrapping.run keys) {} = program.run keys {} := by
  intro keys program table
  have hnodes : table.nodes =
      #[⟨1, 0, .unset⟩, ⟨2, 1, .unset⟩, ⟨3, 2, .unset⟩, ⟨3, 3, .unset⟩] := by decide +kernel
  obtain ⟨hrank, -, hrun⟩ := Program.ranks_fit_words keys program
  have hnode : table.nodes[3]? = some ⟨3, 3, .unset⟩ := by
    rw [hnodes]
    rfl
  have hless : (classOf table.nodes 3).ncard ≤ 4 := by
    have hle := ncard_classOf_le table.nodes 3
    rwa [hnodes] at hle ⊢
  obtain ⟨root, hroot, hmore⟩ := hrank 3 _ hnode
  obtain rfl := (IsRoot.hasRoot ⟨_, hnode, rfl⟩).unique hroot
  exact ⟨hnodes, Nat.le_antisymm hless hmore, hrun .wrapping⟩

end Unification
