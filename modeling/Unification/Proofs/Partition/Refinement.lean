import Unification.Keys.Numbering
import Unification.Keys.RootOrder
import Unification.Payload.Number
import Unification.Proofs.Partition.Represents

namespace Unification

variable {κ α ε : Type}

/-- The answers that a table gives, in terms of a partition: for all keys that
    it has handed out, and for every value. -/
structure Agrees (keys : KeyScheme κ α ε) (table : Table α) (partition : Partition α) : Prop where
  size_eq : partition.size = table.size
  newKey : ∀ value, table.size < Table.maxKeys →
    Table.hasRoom keys.toPayload (table.size + 1) →
    Action.outcome (Table.newKey keys value) table = .ok (keys.ofIndex partition.size)
  probe : ∀ key, keys.index key < table.size →
    ∃ value, partition.valueAt (keys.index key) = some value ∧
      Action.outcome (Table.probe keys key) table = .ok value
  unioned : ∀ a b, keys.index a < table.size → keys.index b < table.size →
    Action.outcome (Table.unioned keys a b) table =
      .ok (partition.label (keys.index a) == partition.label (keys.index b))
  /-- A representative is a key of its class, and represents itself. -/
  find : ∀ key, keys.index key < table.size →
    ∃ representative left, Table.find keys key table = .ok representative left ∧
      keys.index representative < table.size ∧
      partition.label (keys.index representative) = partition.label (keys.index key) ∧
      Action.outcome (Table.find keys representative) left = .ok representative
  find_eq_iff : ∀ a b, keys.index a < table.size → keys.index b < table.size →
    ∃ representativeA representativeB left, Table.find keys a table = .ok representativeA left ∧
      Action.outcome (Table.find keys b) left = .ok representativeB ∧
      (representativeA = representativeB ↔
        partition.label (keys.index a) = partition.label (keys.index b))
  /-- Values of different classes are merged first to second. If they can be,
      the root order still has a say on the representatives. -/
  union : ∀ a b, keys.index a < table.size → keys.index b < table.size →
    ∃ rootA rootB valueA valueB,
      Action.outcome (Table.find keys a) table = .ok (keys.ofIndex rootA) ∧
      Action.outcome (Table.find keys b) table = .ok (keys.ofIndex rootB) ∧
      partition.valueAt (keys.index a) = some valueA ∧
      partition.valueAt (keys.index b) = some valueB ∧
      Action.outcome (Table.union keys a b) table =
        match partition.union keys.merge (keys.index a) (keys.index b) with
        | .error conflict => .error (.refused (.mergeConflict conflict))
        | .ok _ =>
          if partition.label (keys.index a) = partition.label (keys.index b) then .ok ()
          else
            match keys.nomination rootA valueA rootB valueB with
            | .error reason => .error (.refused reason)
            | .ok _ => .ok ()
  unionValue : ∀ key value, keys.index key < table.size →
    Action.outcome (Table.unionValue keys key value) table =
      match partition.unionValue keys.merge (keys.index key) value with
      | .error conflict => .error (.refused (.mergeConflict conflict))
      | .ok _ => .ok ()

namespace Represents

variable {keys : KeyScheme κ α ε} {table : Table α} {nodes left : Array (Node α)}
  {partition : Partition α}

/-- A call that is not refused does to the partition what its name says. -/
theorem step {operation : Operation κ α}
    {outcome : Except (Failure (TableError ε)) (TableAnswer κ α)}
    (h : Represents nodes partition) (hforest : Forest nodes)
    (heffect : Effect keys nodes operation outcome left) :
    Represents left (partition.answered keys operation outcome) := by
  cases heffect with
  | refused _ hflat | find _ hflat | probe _ _ hflat | unioned _ _ hflat =>
    exact h.flattened hforest hflat
  | reserve => exact h
  | newKey value => exact h.newKey hforest value
  | same hA hB hflat =>
    have hunion := Partition.union_of_eq keys.merge ((h.label_eq_iff hA hB).mpr rfl)
    simp only [Partition.answered, Partition.apply, hunion]
    exact h.flattened hforest hflat
  | @joined a b rootA rootB _ _ _ _ _ _ merged _ _ hA hB hne hnodeA hnodeB hmerge hsurvival _ _
      hflat hcrowned =>
    have hunion : partition.union keys.merge (keys.index a) (keys.index b) =
        .ok (partition.join (partition.label rootA) (partition.label rootB) merged) := by
      rw [Partition.union_of_ne keys.merge (mt (h.label_eq_iff hA hB).mp hne)
        (h.valueAt_eq hA hnodeA) (h.valueAt_eq hB hnodeB), hmerge, h.label_root hA,
        h.label_root hB]
      rfl
    simp only [Partition.answered, Partition.apply, hunion]
    exact (h.flattened hforest hflat).linked hflat.forest (hflat.hasRoot hA.1.hasRoot).1
      (hflat.hasRoot hB.1.hasRoot).1 (KeyScheme.survival_cases hsurvival) hcrowned.toLinked
  | @revalued key value merged root _ _ _ hroot hnode hmerge hflat hcrowned =>
    have hunion : partition.unionValue keys.merge (keys.index key) value =
        .ok (partition.join (partition.label root) (partition.label root) merged) := by
      rw [Partition.unionValue_of_some keys.merge (h.valueAt_eq hroot hnode), hmerge,
        h.label_root hroot, Partition.join_self]
      rfl
    simp only [Partition.answered, Partition.apply, hunion]
    have htop := (hflat.hasRoot hroot.1.hasRoot).1
    exact (h.flattened hforest hflat).linked hflat.forest htop htop (.inl rfl) hcrowned.toLinked

/-- Of the calls about snapshots only rolling back changes nodes. -/
private theorem nodes_after_of_not_plain (keys : KeyScheme κ α ε) {operation : Operation κ α}
    (hplain : ¬ operation.isPlain) (hrollback : ∀ handle, operation ≠ .rollback handle)
    (table : Table α) : (Action.after (operation.run keys) table).nodes = table.nodes := by
  cases operation with
  | snapshot => rfl
  | commit handle =>
    rw [Operation.run, Action.after_map]
    cases hcommit : table.journal.commit? handle with
    | some journal => rw [Action.after_of_ok (Table.commit_of_some hcommit)]
    | none =>
      have hrefused : (Table.tryCommit handle : TableM α (TableError ε) Bool) table =
          .ok false table := by rw [Table.tryCommit_eq, hcommit]
      rw [Table.commit, Action.after_bind, hrefused]
      rfl
  | newKeysSince handle =>
    rw [Operation.run, Action.after_map,
      Action.after_of_eq_ending (Table.newKeysSince_eq keys handle table)]
  | rollback handle => exact absurd rfl (hrollback handle)
  | _ => exact absurd rfl hplain

theorem run (operation : Operation κ α) (hrollback : ∀ handle, operation ≠ .rollback handle)
    (hforest : Forest table.nodes) (h : Represents table.nodes partition) :
    Forest (Action.after (operation.run keys) table).nodes ∧
      Represents (Action.after (operation.run keys) table).nodes
        (partition.answered keys operation (Action.outcome (operation.run keys) table)) := by
  by_cases hplain : operation.isPlain
  · obtain ⟨outcome, left, hrun, heffect⟩ := Operation.exists_effect keys table hplain hforest
    rw [Action.after_of_eq_ending hrun, Action.outcome_of_eq_ending hrun]
    exact ⟨heffect.forest hforest, h.step hforest heffect⟩
  · have happly : partition.apply keys operation = partition := by
      cases operation <;> first | rfl | exact absurd rfl hplain
    rw [nodes_after_of_not_plain keys hplain hrollback]
    refine ⟨hforest, ?_⟩
    cases Action.outcome (operation.run keys) table with
    | error _ => exact h
    | ok _ =>
      rw [Partition.answered, happly]
      exact h

theorem perform (operations : List (Operation κ α))
    (hrollback : ∀ handle, .rollback handle ∉ operations) (hforest : Forest table.nodes)
    (h : Represents table.nodes partition) :
    Forest (Table.perform keys operations table).nodes ∧
      Represents (Table.perform keys operations table).nodes
        (Partition.follow keys operations table partition) := by
  induction operations generalizing table partition with
  | nil => exact ⟨hforest, h⟩
  | cons operation rest ih =>
    have hfirst : ∀ handle, operation ≠ .rollback handle := by
      rintro handle rfl
      exact hrollback handle List.mem_cons_self
    obtain ⟨hleft, hrest⟩ := h.run operation hfirst hforest
    exact ih (fun handle hmem => hrollback handle (List.mem_cons_of_mem _ hmem)) hleft hrest

section Answers

variable {key a b : κ} {root rootA rootB : Nat} {node nodeA nodeB : Node α}

theorem outcome_unioned (h : Represents table.nodes partition) (hforest : Forest table.nodes)
    (hA : HasRoot table.nodes (keys.index a) rootA)
    (hB : HasRoot table.nodes (keys.index b) rootB) :
    Action.outcome (Table.unioned keys a b) table =
      .ok (partition.label (keys.index a) == partition.label (keys.index b)) := by
  obtain ⟨left, hrun, -⟩ := Table.unioned_of_hasRoot keys hforest hA hB
  have hsame : (rootA == rootB) =
      (partition.label (keys.index a) == partition.label (keys.index b)) := by
    rw [Bool.eq_iff_iff, beq_iff_eq, beq_iff_eq, h.label_eq_iff hA hB]
  rw [Action.outcome_of_ok hrun, hsame]

theorem exists_find (h : Represents table.nodes partition) (hforest : Forest table.nodes)
    (hroot : HasRoot table.nodes (keys.index key) root)
    (hindex : keys.index (keys.ofIndex root) = root) :
    ∃ representative left, Table.find keys key table = .ok representative left ∧
      keys.index representative < table.size ∧
      partition.label (keys.index representative) = partition.label (keys.index key) ∧
      Action.outcome (Table.find keys representative) left = .ok representative := by
  obtain ⟨left, hrun, hflat⟩ := Table.find_of_hasRoot keys hforest hroot
  have hself : HasRoot left.nodes (keys.index (keys.ofIndex root)) root := by
    rw [hindex]
    exact hflat.hasRoot hroot.1.hasRoot
  obtain ⟨last, hagain, -⟩ := Table.find_of_hasRoot keys hflat.forest hself
  refine ⟨keys.ofIndex root, left, hrun, ?_, ?_, Action.outcome_of_ok hagain⟩
  · rw [hindex]
    exact hroot.1.lt_size
  · rw [hindex, h.label_root hroot]

theorem exists_find_pair (h : Represents table.nodes partition) (hforest : Forest table.nodes)
    (hA : HasRoot table.nodes (keys.index a) rootA)
    (hB : HasRoot table.nodes (keys.index b) rootB)
    (hindexA : keys.index (keys.ofIndex rootA) = rootA)
    (hindexB : keys.index (keys.ofIndex rootB) = rootB) :
    ∃ representativeA representativeB left, Table.find keys a table = .ok representativeA left ∧
      Action.outcome (Table.find keys b) left = .ok representativeB ∧
      (representativeA = representativeB ↔
        partition.label (keys.index a) = partition.label (keys.index b)) := by
  obtain ⟨left, hrunA, hflat⟩ := Table.find_of_hasRoot keys hforest hA
  obtain ⟨last, hrunB, -⟩ := Table.find_of_hasRoot keys hflat.forest (hflat.hasRoot hB)
  refine ⟨_, _, left, hrunA, Action.outcome_of_ok hrunB, ?_⟩
  rw [h.label_eq_iff hA hB]
  constructor
  · intro hsame
    have hroots := congrArg keys.index hsame
    rwa [hindexA, hindexB] at hroots
  · exact fun hsame => by rw [hsame]

theorem outcome_union (h : Represents table.nodes partition) (hforest : Forest table.nodes)
    (hA : HasRoot table.nodes (keys.index a) rootA)
    (hB : HasRoot table.nodes (keys.index b) rootB)
    (hnodeA : table.nodes[rootA]? = some nodeA) (hnodeB : table.nodes[rootB]? = some nodeB) :
    Action.outcome (Table.union keys a b) table =
      match partition.union keys.merge (keys.index a) (keys.index b) with
      | .error conflict => .error (.refused (.mergeConflict conflict))
      | .ok _ =>
        if partition.label (keys.index a) = partition.label (keys.index b) then .ok ()
        else
          match keys.nomination rootA nodeA.value rootB nodeB.value with
          | .error reason => .error (.refused reason)
          | .ok _ => .ok () := by
  by_cases hsame : rootA = rootB
  · subst hsame
    obtain ⟨left, hrun, -⟩ := Table.union_of_same keys hforest hA hB
    have hlabel := (h.label_eq_iff hA hB).mpr rfl
    simp only [Action.outcome_of_ok hrun, Partition.union_of_eq keys.merge hlabel, hlabel, if_true]
  have hlabel := mt (h.label_eq_iff hA hB).mp hsame
  have hunion := Partition.union_of_ne keys.merge hlabel (h.valueAt_eq hA hnodeA)
    (h.valueAt_eq hB hnodeB)
  cases hmerge : keys.merge nodeA.value nodeB.value with
  | error conflict =>
    obtain ⟨left, hrun, -⟩ := Table.union_of_conflict keys hforest hA hB hsame hnodeA hnodeB hmerge
    simp only [hunion, hmerge, Action.outcome_of_error hrun]
    rfl
  | ok merged =>
    cases hnomination : keys.nomination rootA nodeA.value rootB nodeB.value with
    | error reason =>
      obtain ⟨left, hrun, -⟩ :=
        Table.union_of_refused keys hforest hA hB hsame hnodeA hnodeB hmerge hnomination
      simp only [hunion, hmerge, hlabel, if_false, Action.outcome_of_error hrun]
      rfl
    | ok nominated =>
      obtain ⟨_, _, _, _, _, left, -, -, -, hrun, -⟩ :=
        Table.union_of_ok keys hforest hA hB hsame hnodeA hnodeB hmerge hnomination
      simp only [hunion, hmerge, hlabel, if_false, Action.outcome_of_ok hrun]
      rfl

theorem outcome_unionValue (h : Represents table.nodes partition) (hforest : Forest table.nodes)
    (hroot : HasRoot table.nodes (keys.index key) root) (hnode : table.nodes[root]? = some node)
    (value : α) :
    Action.outcome (Table.unionValue keys key value) table =
      match partition.unionValue keys.merge (keys.index key) value with
      | .error conflict => .error (.refused (.mergeConflict conflict))
      | .ok _ => .ok () := by
  have hunion := Partition.unionValue_of_some keys.merge (h.valueAt_eq hroot hnode) value
  cases hmerge : keys.merge node.value value with
  | error conflict =>
    obtain ⟨left, hrun, -⟩ := Table.unionValue_of_conflict keys hforest hroot hnode hmerge
    simp only [hunion, hmerge, Action.outcome_of_error hrun]
    rfl
  | ok merged =>
    obtain ⟨_, left, hrun, -⟩ := Table.unionValue_of_ok keys hforest hroot hnode hmerge
    simp only [hunion, hmerge, Action.outcome_of_ok hrun]
    rfl

end Answers

theorem agrees (h : Represents table.nodes partition) (hforest : Forest table.nodes)
    (hkeys : ∀ index < table.size, keys.index (keys.ofIndex index) = index) :
    Agrees keys table partition where
  size_eq := h.size_eq
  newKey := by
    intro value hindex hroom
    have hrun := Table.newKey_of_room keys table hindex hroom value
    rw [Action.outcome_of_ok hrun, h.size_eq]
    rfl
  probe := by
    intro key hkey
    obtain ⟨root, hroot⟩ := hforest.exists_root hkey
    obtain ⟨node, hnode, -⟩ := hroot.1
    obtain ⟨left, hrun, -⟩ := Table.probe_of_hasRoot keys hforest hroot hnode
    exact ⟨node.value, h.valueAt_eq hroot hnode, Action.outcome_of_ok hrun⟩
  unioned := by
    intro a b ha hb
    obtain ⟨rootA, hA⟩ := hforest.exists_root ha
    obtain ⟨rootB, hB⟩ := hforest.exists_root hb
    exact h.outcome_unioned hforest hA hB
  find := by
    intro key hkey
    obtain ⟨root, hroot⟩ := hforest.exists_root hkey
    exact h.exists_find hforest hroot (hkeys root hroot.1.lt_size)
  find_eq_iff := by
    intro a b ha hb
    obtain ⟨rootA, hA⟩ := hforest.exists_root ha
    obtain ⟨rootB, hB⟩ := hforest.exists_root hb
    exact h.exists_find_pair hforest hA hB (hkeys rootA hA.1.lt_size) (hkeys rootB hB.1.lt_size)
  union := by
    intro a b ha hb
    obtain ⟨rootA, hA⟩ := hforest.exists_root ha
    obtain ⟨rootB, hB⟩ := hforest.exists_root hb
    obtain ⟨nodeA, hnodeA, -⟩ := hA.1
    obtain ⟨nodeB, hnodeB, -⟩ := hB.1
    obtain ⟨_, hfindA, -⟩ := Table.find_of_hasRoot keys hforest hA
    obtain ⟨_, hfindB, -⟩ := Table.find_of_hasRoot keys hforest hB
    exact ⟨rootA, rootB, nodeA.value, nodeB.value, Action.outcome_of_ok hfindA,
      Action.outcome_of_ok hfindB, h.valueAt_eq hA hnodeA, h.valueAt_eq hB hnodeB,
      h.outcome_union hforest hA hB hnodeA hnodeB⟩
  unionValue := by
    intro key value hkey
    obtain ⟨root, hroot⟩ := hforest.exists_root hkey
    obtain ⟨node, hnode, -⟩ := hroot.1
    exact h.outcome_unionValue hforest hroot hnode value

end Represents

namespace Partition

/-- A table is a partition of its keys. After calls of every kind but rolling
    back, in any order, it answers all questions about its keys as the partition
    does that followed these calls, whatever merging does and whichever roots
    survive. The keys that were handed out have to stand for their indices. -/
theorem agrees_follow (keys : KeyScheme κ α ε) (operations : List (Operation κ α))
    (hrollback : ∀ handle, .rollback handle ∉ operations)
    (hkeys : ∀ index < (Table.perform keys operations {}).size,
      keys.index (keys.ofIndex index) = index) :
    Agrees keys (Table.perform keys operations {}) (follow keys operations {} {}) := by
  have hempty : Forest ({} : Table α).nodes ∧ Represents ({} : Table α).nodes {} :=
    ⟨.empty, .empty⟩
  obtain ⟨hforest, h⟩ := hempty.2.perform operations hrollback hempty.1
  exact h.agrees hforest hkeys

/-- Numbers in three classes, of which two are joined under a root of lower rank
    than the other one, and the third is in conflict with them. -/
theorem agrees_follow_numbers :
    let keys := KeyScheme.of Number.payload Numbering.reversed "number" RootOrder.second
    let operations := [.newKey ⟨1⟩, .newKey .unset, .newKey .unset, .newKey ⟨2⟩,
      .union 0xFFFFFFFF 0xFFFFFFFE, .snapshot, .union 0xFFFFFFFF 0xFFFFFFFD,
      .unionValue 0xFFFFFFFD ⟨1⟩, .union 0xFFFFFFFE 0xFFFFFFFC, .commit ⟨1⟩]
    (∀ handle, Operation.rollback handle ∉ operations) ∧
      (∀ index < (Table.perform keys operations {}).size,
        keys.index (keys.ofIndex index) = index) ∧
      Agrees keys (Table.perform keys operations {}) (follow keys operations {} {}) := by
  intro keys operations
  have hrollback : ∀ handle, Operation.rollback handle ∉ operations := by
    simp [operations]
  have hsize : (Table.perform keys operations {}).size = 4 := by decide
  have hkeys : ∀ index < (Table.perform keys operations {}).size,
      keys.index (keys.ofIndex index) = index := by
    intro index hindex
    rw [hsize] at hindex
    exact Numbering.reversed_index_ofIndex (Nat.lt_trans hindex (by decide))
  exact ⟨hrollback, hkeys, agrees_follow keys operations hrollback hkeys⟩

end Partition

end Unification
