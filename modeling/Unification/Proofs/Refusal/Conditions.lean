import Unification.Proofs.Forest.Effect

namespace Unification

variable {κ α ε : Type}

/-- When a call is refused, and for which reason. All keys of a call have to be
    known before anything else counts. Two values are merged before the root
    order has a say, and the pair that it nominates is compared by indices. -/
inductive Refusal (keys : KeyScheme κ α ε) (table : Table α) :
    Operation κ α → TableError ε → Prop where
  | unknownKey {operation : Operation κ α} {key : κ}
      (hfirst : operation.unknownKey? keys table.size = some key) :
      Refusal keys table operation (.unknownKey keys.tag (keys.index key) table.size)
  | conflict {a b : κ} {rootA rootB : Nat} {nodeA nodeB : Node α} {conflict : ε}
      (hA : HasRoot table.nodes (keys.index a) rootA)
      (hB : HasRoot table.nodes (keys.index b) rootB) (hne : rootA ≠ rootB)
      (hnodeA : table.nodes[rootA]? = some nodeA) (hnodeB : table.nodes[rootB]? = some nodeB)
      (hmerge : keys.merge nodeA.value nodeB.value = .error conflict) :
      Refusal keys table (.union a b) (.mergeConflict conflict)
  | rootOrder {a b survivor redirected : κ} {rootA rootB : Nat} {nodeA nodeB : Node α} {merged : α}
      (hA : HasRoot table.nodes (keys.index a) rootA)
      (hB : HasRoot table.nodes (keys.index b) rootB) (hne : rootA ≠ rootB)
      (hnodeA : table.nodes[rootA]? = some nodeA) (hnodeB : table.nodes[rootB]? = some nodeB)
      (hmerge : keys.merge nodeA.value nodeB.value = .ok merged)
      (horder : keys.order (keys.ofIndex rootA) nodeA.value (keys.ofIndex rootB) nodeB.value =
        some (survivor, redirected))
      (hother : (keys.index survivor, keys.index redirected) ≠ (rootA, rootB))
      (hswapped : (keys.index survivor, keys.index redirected) ≠ (rootB, rootA)) :
      Refusal keys table (.union a b)
        (.invalidRootOrder keys.tag (keys.index survivor) (keys.index redirected) rootA rootB)
  | conflictingValue {key : κ} {value : α} {root : Nat} {node : Node α} {conflict : ε}
      (hroot : HasRoot table.nodes (keys.index key) root) (hnode : table.nodes[root]? = some node)
      (hmerge : keys.merge node.value value = .error conflict) :
      Refusal keys table (.unionValue key value) (.mergeConflict conflict)
  | noIndex (value : α) (hfull : Table.maxKeys ≤ table.size) :
      Refusal keys table (.newKey value) (.keySpaceExhausted table.size)
  | noRoom (value : α) (hindex : table.size < Table.maxKeys)
      (hroom : ¬ Table.hasRoom keys.toPayload (table.size + 1)) :
      Refusal keys table (.newKey value) .outOfMemory
  | noReserve (count : Nat) (hroom : ¬ Table.hasRoom keys.toPayload (table.size + count)) :
      Refusal keys table (.reserve count) .outOfMemory
  | commit (handle : Snapshot) (hinnermost : table.journal.innermost? ≠ some handle.id) :
      Refusal keys table (.commit handle)
        (.snapshotMismatch handle.id table.journal.innermost?)
  | rollback (handle : Snapshot) (hinnermost : table.journal.innermost? ≠ some handle.id) :
      Refusal keys table (.rollback handle)
        (.snapshotMismatch handle.id table.journal.innermost?)
  | notOpen (handle : Snapshot) (hclosed : table.journal.count? handle = none) :
      Refusal keys table (.newKeysSince handle)
        (.snapshotMismatch handle.id table.journal.innermost?)
  | tooManyKeys (handle : Snapshot) {start : Nat} (hopen : table.journal.count? handle = some start)
      (hfull : Table.maxKeys < start ∨ Table.maxKeys < table.size) :
      Refusal keys table (.newKeysSince handle) (.keySpaceExhausted table.size)

/-- What a call leaves that has searched upward from some nodes and done nothing
    else. No node has another rank, value or root. Nodes on the ways up may
    point at their roots now, and the journal can take that back. -/
structure Table.Searched (table : Table α) (starts : List Nat) (left : Table α) : Prop where
  size_eq : left.size = table.size
  hasRoot_iff : ∀ {index root : Nat},
    HasRoot left.nodes index root ↔ HasRoot table.nodes index root
  getElem?_cases : ∀ {index : Nat} {node : Node α}, table.nodes[index]? = some node →
    left.nodes[index]? = some node ∨
      ∃ start ∈ starts, ∃ path root, Ascent table.nodes start path root ∧
        IsRoot table.nodes root ∧ index ∈ path ∧
        left.nodes[index]? = some { node with parent := root }
  frames_eq : left.journal.frames = table.journal.frames
  nextId_eq : left.journal.nextId = table.journal.nextId
  exists_entries : ∃ entries, left.journal = table.journal.recordAll entries ∧
    Undone entries.reverse left.nodes table.nodes

/-- What a refused call leaves. Only contradicting values and a wrong nomination
    are noticed after a search; all else is checked before anything changes. -/
def Table.LeftByRefusal (table : Table α) (starts : List Nat) : TableError ε → Table α → Prop
  | .mergeConflict _, left | .invalidRootOrder .., left => table.Searched starts left
  | _, left => left = table

/-- An order that nominates other roots is the only one that is refused. -/
theorem KeyScheme.nomination_eq_error {keys : KeyScheme κ α ε} {a b : Nat} {valueA valueB : α}
    {reason : TableError ε} (h : keys.nomination a valueA b valueB = .error reason) :
    ∃ survivor redirected,
      keys.order (keys.ofIndex a) valueA (keys.ofIndex b) valueB = some (survivor, redirected) ∧
      (keys.index survivor, keys.index redirected) ≠ (a, b) ∧
      (keys.index survivor, keys.index redirected) ≠ (b, a) ∧
      reason = .invalidRootOrder keys.tag (keys.index survivor) (keys.index redirected) a b := by
  unfold nomination at h
  split at h
  next => cases h
  next survivor redirected horder =>
    dsimp only at h
    split at h
    next => cases h
    next hpair =>
      cases h
      exact ⟨survivor, redirected, horder, (not_or.mp hpair).1, (not_or.mp hpair).2, rfl⟩

theorem KeyScheme.nomination_of_other {keys : KeyScheme κ α ε} {a b : Nat} {valueA valueB : α}
    {survivor redirected : κ}
    (horder : keys.order (keys.ofIndex a) valueA (keys.ofIndex b) valueB =
      some (survivor, redirected))
    (hother : (keys.index survivor, keys.index redirected) ≠ (a, b))
    (hswapped : (keys.index survivor, keys.index redirected) ≠ (b, a)) :
    keys.nomination a valueA b valueB =
      .error (.invalidRootOrder keys.tag (keys.index survivor) (keys.index redirected) a b) := by
  simp only [nomination, horder, hother, hswapped, or_self, if_false]

/-- A journaled call that has only shortened ways up. -/
theorem Shortened.searched {keys : KeyScheme κ α ε} {table left : Table α} {starts : List Nat}
    {operation : Operation κ α} {failure : Failure (TableError ε)}
    (h : Shortened table.nodes starts left.nodes) (hforest : Forest table.nodes)
    (hplain : operation.isPlain) (hrun : operation.run keys table = .error failure left) :
    table.Searched starts left := by
  obtain ⟨outcome, changed, entries, hundone, hjournaled⟩ :=
    operation.journaled keys hplain table.nodes
  have hleft : left = { nodes := changed, journal := table.journal.recordAll entries } := by
    rw [← Action.after_of_error hrun, ← Action.after_of_eq_ending (hjournaled table.journal)]
  have hjournal : left.journal = table.journal.recordAll entries := by rw [hleft]
  exact {
    size_eq := h.size_eq
    hasRoot_iff := h.hasRoot_iff hforest
    getElem?_cases := h.getElem?_cases
    frames_eq := by rw [hjournal, Journal.frames_recordAll]
    nextId_eq := by rw [hjournal, Journal.nextId_recordAll]
    exists_entries := ⟨entries, hjournal, by rwa [hleft]⟩ }

namespace Refusal

variable {keys : KeyScheme κ α ε} {table : Table α} {operation : Operation κ α}
  {reason : TableError ε}

/-- Under each of the conditions the call is refused for the reason. -/
theorem exists_run (h : Refusal keys table operation reason) (hforest : Forest table.nodes) :
    ∃ left, operation.run keys table = .error (.refused reason) left ∧
      table.LeftByRefusal (operation.mentioned.map keys.index) reason left := by
  cases h with
  | unknownKey hfirst => exact ⟨table, Operation.run_of_unknown keys hfirst, rfl⟩
  | @conflict a b _ _ _ _ _ hA hB hne hnodeA hnodeB hmerge =>
    obtain ⟨left, hunion, hshort⟩ :=
      Table.union_of_conflict keys hforest hA hB hne hnodeA hnodeB hmerge
    have hrun : (Operation.union a b).run keys table = .error _ left := Action.map_of_error hunion
    exact ⟨left, hrun, hshort.searched hforest rfl hrun⟩
  | @rootOrder a b _ _ _ _ _ _ _ hA hB hne hnodeA hnodeB hmerge horder hother hswapped =>
    obtain ⟨left, hunion, hshort⟩ := Table.union_of_refused keys hforest hA hB hne hnodeA hnodeB
      hmerge (KeyScheme.nomination_of_other horder hother hswapped)
    have hrun : (Operation.union a b).run keys table = .error _ left := Action.map_of_error hunion
    exact ⟨left, hrun, hshort.searched hforest rfl hrun⟩
  | @conflictingValue key value _ _ _ hroot hnode hmerge =>
    obtain ⟨left, hunion, hshort⟩ := Table.unionValue_of_conflict keys hforest hroot hnode hmerge
    have hrun : (Operation.unionValue key value).run keys table = .error _ left :=
      Action.map_of_error hunion
    exact ⟨left, hrun, hshort.searched hforest rfl hrun⟩
  | noIndex value hfull =>
    exact ⟨table, Action.map_of_error (Table.newKey_of_full keys table hfull value), rfl⟩
  | noRoom value hindex hroom =>
    exact ⟨table, Action.map_of_error (Table.newKey_of_noRoom keys table hindex hroom value), rfl⟩
  | noReserve count hroom =>
    exact ⟨table, Action.map_of_error (Table.reserve_of_noRoom table hroom), rfl⟩
  | commit handle hinnermost =>
    exact ⟨table, Action.map_of_error (Table.commit_of_ne hinnermost), rfl⟩
  | rollback handle hinnermost =>
    exact ⟨table, Action.map_of_error (Table.rollback_of_ne hinnermost), rfl⟩
  | notOpen handle hclosed =>
    have hrun := Table.newKeysSince_eq keys handle table
    rw [hclosed] at hrun
    exact ⟨table, Action.map_of_error hrun, rfl⟩
  | tooManyKeys handle hopen hfull =>
    have hrun := Table.newKeysSince_eq keys handle table
    simp only [hopen, hfull, if_true] at hrun
    exact ⟨table, Action.map_of_error hrun, rfl⟩

end Refusal

end Unification
