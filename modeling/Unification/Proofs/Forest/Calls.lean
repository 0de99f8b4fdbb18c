import Unification.Proofs.Forest.Linking
import Unification.Proofs.Program

namespace Unification

variable {κ α ε δ β : Type}

/-- A root that is linked to itself gets another value and nothing else. -/
theorem Forest.revalued {nodes : Array (Node α)} (h : Forest nodes) {root : Nat} {node : Node α}
    (hroot : IsRoot nodes root) (hnode : nodes[root]? = some node) (value : α) :
    Crowned nodes root root node.rank value (nodes.setIfInBounds root { node with value }) where
  forest := h.crowned hroot hnode (Nat.le_refl _) value
  size_eq := Array.size_setIfInBounds
  hasRoot := by
    intro index top htop
    have hsame : (if top = root then root else top) = top := by
      split
      next heq => exact heq.symm
      next => rfl
    rw [hsame]
    exact htop.crowned hnode node.rank value
  exists_survivor := by
    refine ⟨{ node with value }, ?_, rfl⟩
    rw [getElem?_overwritten hnode, if_pos rfl]
  getElem?_other := fun hother _ => Array.getElem?_setIfInBounds_ne (Ne.symm hother)
  getElem?_survivor := by
    intro same hsame
    rw [hnode] at hsame
    cases hsame
    rw [getElem?_overwritten hnode, if_pos rfl]
  getElem?_redirected := fun hne => absurd rfl hne

namespace Table

section Search

variable (keys : KeyScheme κ α ε) {table : Table α} {key a b : κ} {root rootA rootB : Nat}

theorem locate_of_lt (h : keys.index key < table.size) :
    locate keys key table = .ok (keys.index key) table := by
  rw [locate, Action.get_bind]
  simp only [h, if_true]
  rfl

theorem locate_of_le (h : table.size ≤ keys.index key) :
    locate keys key table =
      .error (.refused (.unknownKey keys.tag (keys.index key) table.size)) table := by
  rw [locate, Action.get_bind]
  simp only [Nat.not_lt.mpr h, if_false]
  rfl

theorem locate_eq_ok {index : Nat} {left : Table α} (h : locate keys key table = .ok index left) :
    left = table ∧ index < table.size := by
  by_cases hindex : keys.index key < table.size
  · rw [locate_of_lt keys hindex] at h
    cases h
    exact ⟨rfl, hindex⟩
  · rw [locate_of_le keys (Nat.not_lt.mp hindex)] at h
    cases h

theorem find_of_hasRoot (hforest : Forest table.nodes)
    (hroot : HasRoot table.nodes (keys.index key) root) :
    ∃ left, find keys key table = .ok (keys.ofIndex root) left ∧
      Flattened table.nodes left.nodes := by
  obtain ⟨left, hrun, hshort⟩ := root_of_hasRoot (δ := TableError ε) hforest hroot
  refine ⟨left, ?_, hshort.toFlattened⟩
  rw [find, Action.bind_of_ok (locate_of_lt keys hroot.lt_size), Action.bind_of_ok hrun]
  rfl

theorem probe_of_hasRoot {node : Node α} (hforest : Forest table.nodes)
    (hroot : HasRoot table.nodes (keys.index key) root)
    (hnode : table.nodes[root]? = some node) :
    ∃ left, probe keys key table = .ok node.value left ∧ Flattened table.nodes left.nodes := by
  obtain ⟨left, hrun, hshort⟩ := root_of_hasRoot (δ := TableError ε) hforest hroot
  refine ⟨left, ?_, hshort.toFlattened⟩
  rw [probe, Action.bind_of_ok (locate_of_lt keys hroot.lt_size), Action.bind_of_ok hrun,
    Action.bind_of_ok (nodeAt_of_some (hshort.getElem?_root hroot.1 hnode))]
  rfl

/-- The second search comes after the first one, and finds the same root as before. -/
private theorem roots_of_hasRoot {indexA indexB : Nat} (hforest : Forest table.nodes)
    (hA : HasRoot table.nodes indexA rootA) (hB : HasRoot table.nodes indexB rootB) :
    ∃ middle left, (Table.root indexA : TableM α δ Nat) table = .ok rootA middle ∧
      (Table.root indexB : TableM α δ Nat) middle = .ok rootB left ∧
      Shortened table.nodes [indexA, indexB] left.nodes := by
  obtain ⟨middle, hfirst, hshort⟩ := root_of_hasRoot (δ := δ) hforest hA
  obtain ⟨left, hsecond, hmore⟩ := root_of_hasRoot (δ := δ) hshort.forest (hshort.hasRoot hB)
  exact ⟨middle, left, hfirst, hsecond, hshort.trans hforest hmore⟩

theorem unioned_of_hasRoot (hforest : Forest table.nodes)
    (hA : HasRoot table.nodes (keys.index a) rootA)
    (hB : HasRoot table.nodes (keys.index b) rootB) :
    ∃ left, unioned keys a b table = .ok (rootA == rootB) left ∧
      Flattened table.nodes left.nodes := by
  obtain ⟨middle, left, hfirst, hsecond, hshort⟩ :=
    roots_of_hasRoot (δ := TableError ε) hforest hA hB
  refine ⟨left, ?_, hshort.toFlattened⟩
  rw [unioned, Action.bind_of_ok (locate_of_lt keys hA.lt_size),
    Action.bind_of_ok (locate_of_lt keys hB.lt_size), Action.bind_of_ok hfirst,
    Action.bind_of_ok hsecond]
  rfl

/-- A call on a key that ends with a result has found the key. -/
private theorem index_lt_of_locate {next : Nat → TableM α (TableError ε) β} {result : β}
    (h : Action.outcome (locate keys key >>= next) table = .ok result) :
    keys.index key < table.size := by
  refine Nat.lt_of_not_le fun hle => ?_
  rw [Action.outcome_of_error (Action.bind_of_error (locate_of_le keys hle))] at h
  cases h

/-- What a search answers is the root of its node. -/
theorem hasRoot_of_find {found : κ} (hforest : Forest table.nodes)
    (h : Action.outcome (find keys key) table = .ok found) :
    ∃ root, HasRoot table.nodes (keys.index key) root ∧ found = keys.ofIndex root := by
  obtain ⟨root, hroot⟩ := hforest.exists_root (index_lt_of_locate keys h)
  obtain ⟨left, hrun, -⟩ := find_of_hasRoot keys hforest hroot
  rw [Action.outcome_of_ok hrun] at h
  cases h
  exact ⟨root, hroot, rfl⟩

theorem hasRoot_of_probe {value : α} (hforest : Forest table.nodes)
    (h : Action.outcome (probe keys key) table = .ok value) :
    ∃ root node, HasRoot table.nodes (keys.index key) root ∧ table.nodes[root]? = some node ∧
      node.value = value := by
  obtain ⟨root, hroot⟩ := hforest.exists_root (index_lt_of_locate keys h)
  obtain ⟨node, hnode, -⟩ := hroot.1
  obtain ⟨left, hrun, -⟩ := probe_of_hasRoot keys hforest hroot hnode
  rw [Action.outcome_of_ok hrun] at h
  cases h
  exact ⟨root, node, hroot, hnode, rfl⟩

theorem hasRoots_of_unioned {same : Bool} (hforest : Forest table.nodes)
    (h : Action.outcome (unioned keys a b) table = .ok same) :
    ∃ rootA rootB, HasRoot table.nodes (keys.index a) rootA ∧
      HasRoot table.nodes (keys.index b) rootB ∧ same = (rootA == rootB) := by
  have ha := index_lt_of_locate keys h
  have hb : keys.index b < table.size := by
    rw [unioned, Action.outcome, Action.bind_of_ok (locate_of_lt keys ha)] at h
    exact index_lt_of_locate keys h
  obtain ⟨rootA, hA⟩ := hforest.exists_root ha
  obtain ⟨rootB, hB⟩ := hforest.exists_root hb
  obtain ⟨left, hrun, -⟩ := unioned_of_hasRoot keys hforest hA hB
  rw [Action.outcome_of_ok hrun] at h
  cases h
  exact ⟨rootA, rootB, hA, hB, rfl⟩

end Search

section Merging

variable (keys : KeyScheme κ α ε) {table : Table α} {key a b : κ} {root rootA rootB : Nat}
  {node nodeA nodeB : Node α} {value merged : α} {conflict : ε}

private theorem unionValue_of_hasRoot (hforest : Forest table.nodes)
    (hroot : HasRoot table.nodes (keys.index key) root) (hnode : table.nodes[root]? = some node)
    (value : α) :
    ∃ left, Shortened table.nodes [keys.index key] left.nodes ∧ unionValue keys key value table =
      (match keys.merge node.value value with
        | .error conflict => Failure.refuse (.mergeConflict conflict)
        | .ok merged => update root fun node => { node with value := merged } :
          TableM α (TableError ε) Unit) left := by
  obtain ⟨left, hrun, hshort⟩ := root_of_hasRoot (δ := TableError ε) hforest hroot
  refine ⟨left, hshort, (Action.bind_of_ok (locate_of_lt keys hroot.lt_size)).trans ?_⟩
  refine (Action.bind_of_ok hrun).trans ?_
  refine (Action.bind_of_ok (nodeAt_of_some (hshort.getElem?_root hroot.1 hnode))).trans ?_
  cases keys.merge node.value value <;> rfl

theorem unionValue_of_conflict (hforest : Forest table.nodes)
    (hroot : HasRoot table.nodes (keys.index key) root) (hnode : table.nodes[root]? = some node)
    (hmerge : keys.merge node.value value = .error conflict) :
    ∃ left, unionValue keys key value table = .error (.refused (.mergeConflict conflict)) left ∧
      Shortened table.nodes [keys.index key] left.nodes := by
  obtain ⟨left, hshort, hrun⟩ := unionValue_of_hasRoot keys hforest hroot hnode value
  rw [hmerge] at hrun
  exact ⟨left, hrun, hshort⟩

theorem unionValue_of_ok (hforest : Forest table.nodes)
    (hroot : HasRoot table.nodes (keys.index key) root) (hnode : table.nodes[root]? = some node)
    (hmerge : keys.merge node.value value = .ok merged) :
    ∃ flat left, unionValue keys key value table = .ok () left ∧ Flattened table.nodes flat ∧
      Crowned flat root root node.rank merged left.nodes := by
  obtain ⟨middle, hshort, hrun⟩ := unionValue_of_hasRoot keys hforest hroot hnode value
  have hstill := hshort.getElem?_root hroot.1 hnode
  obtain ⟨left, hwrite, hleft⟩ := exists_update (δ := TableError ε) hstill
    fun node => { node with value := merged }
  rw [hmerge] at hrun
  refine ⟨middle.nodes, left, hrun.trans hwrite, hshort.toFlattened, ?_⟩
  rw [hleft]
  exact hshort.forest.revalued (hshort.hasRoot hroot.1.hasRoot).1 hstill merged

theorem union_of_same (hforest : Forest table.nodes)
    (hA : HasRoot table.nodes (keys.index a) root) (hB : HasRoot table.nodes (keys.index b) root) :
    ∃ left, union keys a b table = .ok () left ∧ Flattened table.nodes left.nodes := by
  obtain ⟨middle, left, hfirst, hsecond, hshort⟩ :=
    roots_of_hasRoot (δ := TableError ε) hforest hA hB
  refine ⟨left, ?_, hshort.toFlattened⟩
  rw [union, Action.bind_of_ok (locate_of_lt keys hA.lt_size),
    Action.bind_of_ok (locate_of_lt keys hB.lt_size), Action.bind_of_ok hfirst,
    Action.bind_of_ok hsecond]
  simp only [ne_eq, not_true_eq_false, if_false]
  rfl

/-- The values of two different roots are merged, and nothing is written before. -/
private theorem union_of_ne (hforest : Forest table.nodes)
    (hA : HasRoot table.nodes (keys.index a) rootA) (hB : HasRoot table.nodes (keys.index b) rootB)
    (hne : rootA ≠ rootB) (hnodeA : table.nodes[rootA]? = some nodeA)
    (hnodeB : table.nodes[rootB]? = some nodeB) :
    ∃ left, Shortened table.nodes [keys.index a, keys.index b] left.nodes ∧ union keys a b table =
      (match keys.merge nodeA.value nodeB.value with
        | .error conflict => Failure.refuse (.mergeConflict conflict)
        | .ok merged => link keys rootA rootB merged : TableM α (TableError ε) Unit) left := by
  obtain ⟨middle, left, hfirst, hsecond, hshort⟩ :=
    roots_of_hasRoot (δ := TableError ε) hforest hA hB
  refine ⟨left, hshort, (Action.bind_of_ok (locate_of_lt keys hA.lt_size)).trans ?_⟩
  refine (Action.bind_of_ok (locate_of_lt keys hB.lt_size)).trans ?_
  refine (Action.bind_of_ok hfirst).trans ((Action.bind_of_ok hsecond).trans ?_)
  simp only [ne_eq, hne, not_false_eq_true, if_true]
  refine (Action.bind_of_ok (nodeAt_of_some (hshort.getElem?_root hA.1 hnodeA))).trans ?_
  refine (Action.bind_of_ok (nodeAt_of_some (hshort.getElem?_root hB.1 hnodeB))).trans ?_
  cases keys.merge nodeA.value nodeB.value <;> rfl

theorem union_of_conflict (hforest : Forest table.nodes)
    (hA : HasRoot table.nodes (keys.index a) rootA) (hB : HasRoot table.nodes (keys.index b) rootB)
    (hne : rootA ≠ rootB) (hnodeA : table.nodes[rootA]? = some nodeA)
    (hnodeB : table.nodes[rootB]? = some nodeB)
    (hmerge : keys.merge nodeA.value nodeB.value = .error conflict) :
    ∃ left, union keys a b table = .error (.refused (.mergeConflict conflict)) left ∧
      Shortened table.nodes [keys.index a, keys.index b] left.nodes := by
  obtain ⟨left, hshort, hrun⟩ := union_of_ne keys hforest hA hB hne hnodeA hnodeB
  rw [hmerge] at hrun
  exact ⟨left, hrun, hshort⟩

theorem union_of_refused {reason : TableError ε} (hforest : Forest table.nodes)
    (hA : HasRoot table.nodes (keys.index a) rootA) (hB : HasRoot table.nodes (keys.index b) rootB)
    (hne : rootA ≠ rootB) (hnodeA : table.nodes[rootA]? = some nodeA)
    (hnodeB : table.nodes[rootB]? = some nodeB)
    (hmerge : keys.merge nodeA.value nodeB.value = .ok merged)
    (hnomination : keys.nomination rootA nodeA.value rootB nodeB.value = .error reason) :
    ∃ left, union keys a b table = .error (.refused reason) left ∧
      Shortened table.nodes [keys.index a, keys.index b] left.nodes := by
  obtain ⟨left, hshort, hrun⟩ := union_of_ne keys hforest hA hB hne hnodeA hnodeB
  rw [hmerge] at hrun
  exact ⟨left, hrun.trans (link_of_refused keys (hshort.getElem?_root hA.1 hnodeA)
    (hshort.getElem?_root hB.1 hnodeB) hnomination merged), hshort⟩

theorem union_of_ok {nominated : Option (Nat × Nat)} (hforest : Forest table.nodes)
    (hA : HasRoot table.nodes (keys.index a) rootA) (hB : HasRoot table.nodes (keys.index b) rootB)
    (hne : rootA ≠ rootB) (hnodeA : table.nodes[rootA]? = some nodeA)
    (hnodeB : table.nodes[rootB]? = some nodeB)
    (hmerge : keys.merge nodeA.value nodeB.value = .ok merged)
    (hnomination : keys.nomination rootA nodeA.value rootB nodeB.value = .ok nominated) :
    ∃ survivor redirected top below flat left,
      keys.survival rootA nodeA rootB nodeB = .ok (survivor, redirected) ∧
      table.nodes[survivor]? = some top ∧ table.nodes[redirected]? = some below ∧
      union keys a b table = .ok () left ∧ Flattened table.nodes flat ∧
      Crowned flat survivor redirected (joinedRank top.rank below.rank) merged left.nodes := by
  obtain ⟨middle, hshort, hrun⟩ := union_of_ne keys hforest hA hB hne hnodeA hnodeB
  rw [hmerge] at hrun
  have hsurvival := KeyScheme.survival_eq_ok_iff.mpr ⟨nominated, hnomination, rfl⟩
  generalize nominated.getD (if nodeB.rank < nodeA.rank then (rootA, rootB) else (rootB, rootA)) =
    pair at hsurvival
  obtain ⟨survivor, redirected⟩ := pair
  obtain ⟨⟨top, htop, hroot⟩, ⟨below, hbelow, hother⟩⟩ :=
    KeyScheme.isRoot_of_survival hsurvival hA.1 hB.1
  obtain ⟨left, hlink, hcrowned⟩ :=
    link_of_ok keys hshort.forest (hshort.hasRoot hA.1.hasRoot).1 (hshort.hasRoot hB.1.hasRoot).1
      hne (hshort.getElem?_root hA.1 hnodeA) (hshort.getElem?_root hB.1 hnodeB) hsurvival
      (hshort.getElem?_root ⟨top, htop, hroot⟩ htop)
      (hshort.getElem?_root ⟨below, hbelow, hother⟩ hbelow) merged
  exact ⟨survivor, redirected, top, below, middle.nodes, left, hsurvival, htop, hbelow,
    hrun.trans hlink, hshort.toFlattened, hcrowned⟩

end Merging

section Growing

variable (keys : KeyScheme κ α ε) (table : Table α)

theorem reserve_of_room {payload : Payload α ε} {count : Nat}
    (hroom : hasRoom payload (table.size + count)) :
    reserve payload count table = .ok () table := by
  rw [reserve, Action.get_bind]
  simp only [hroom, if_true]
  rfl

theorem reserve_of_noRoom {payload : Payload α ε} {count : Nat}
    (hroom : ¬ hasRoom payload (table.size + count)) :
    reserve payload count table = .error (.refused .outOfMemory) table := by
  rw [reserve, Action.get_bind]
  simp only [hroom]
  rfl

theorem reserve_cases (payload : Payload α ε) (count : Nat) :
    reserve payload count table = .ok () table ∨
      reserve payload count table = .error (.refused .outOfMemory) table := by
  by_cases hroom : hasRoom payload (table.size + count)
  · exact .inl (reserve_of_room table hroom)
  · exact .inr (reserve_of_noRoom table hroom)

/-- With an index left and room for a node a key is new, and its class too. -/
theorem newKey_of_room (hindex : table.size < maxKeys)
    (hroom : hasRoom keys.toPayload (table.size + 1)) (value : α) :
    newKey keys value table = .ok (keys.ofIndex table.size)
      { nodes := table.nodes.push (.singleton table.size value)
        journal := table.journal.record (.appended table.size) } := by
  have hpush : push keys.toPayload value table = .ok table.size
      { nodes := table.nodes.push (.singleton table.size value)
        journal := table.journal.record (.appended table.size) } := by
    rw [push, Action.get_bind]
    simp only [Nat.not_le.mpr hindex, if_false]
    exact Action.bind_of_ok (reserve_of_room table hroom)
  exact Action.bind_of_ok hpush

/-- That no index is left is noticed before any room is asked for. -/
theorem newKey_of_full (hfull : maxKeys ≤ table.size) (value : α) :
    newKey keys value table = .error (.refused (.keySpaceExhausted table.size)) table := by
  have hpush : push keys.toPayload value table =
      .error (.refused (.keySpaceExhausted table.size)) table := by
    rw [push, Action.get_bind]
    simp only [hfull, if_true]
    rfl
  exact Action.bind_of_error hpush

theorem newKey_of_noRoom (hindex : table.size < maxKeys)
    (hroom : ¬ hasRoom keys.toPayload (table.size + 1)) (value : α) :
    newKey keys value table = .error (.refused .outOfMemory) table := by
  have hpush : push keys.toPayload value table = .error (.refused .outOfMemory) table := by
    rw [push, Action.get_bind]
    simp only [Nat.not_le.mpr hindex, if_false]
    exact Action.bind_of_error (reserve_of_noRoom table hroom)
  exact Action.bind_of_error hpush

theorem newKey_cases (value : α) :
    newKey keys value table = .ok (keys.ofIndex table.size)
      { nodes := table.nodes.push (.singleton table.size value)
        journal := table.journal.record (.appended table.size) } ∨
    ∃ reason, newKey keys value table = .error (.refused reason) table := by
  by_cases hindex : table.size < maxKeys
  · by_cases hroom : hasRoom keys.toPayload (table.size + 1)
    · exact .inl (newKey_of_room keys table hindex hroom value)
    · exact .inr ⟨_, newKey_of_noRoom keys table hindex hroom value⟩
  · exact .inr ⟨_, newKey_of_full keys table (Nat.not_lt.mp hindex) value⟩

end Growing

end Table

end Unification
