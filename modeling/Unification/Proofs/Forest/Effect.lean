import Unification.Proofs.Forest.Calls
import Unification.Proofs.Snapshot.Savepoints

namespace Unification

variable {κ α ε β : Type}

/-- What a call about keys can do to a forest, and how it ends. A refused call
    may have shortened ways up, and changes nothing else. -/
inductive Effect (keys : KeyScheme κ α ε) (nodes : Array (Node α)) :
    Operation κ α → Except (Failure (TableError ε)) (TableAnswer κ α) → Array (Node α) → Prop where
  | refused {operation : Operation κ α} (reason : TableError ε) {left : Array (Node α)}
      (hflat : Flattened nodes left) : Effect keys nodes operation (.error (.refused reason)) left
  | reserve (count : Nat) : Effect keys nodes (.reserve count) (.ok .done) nodes
  | newKey (value : α) :
      Effect keys nodes (.newKey value) (.ok (.key (keys.ofIndex nodes.size)))
        (nodes.push (.singleton nodes.size value))
  | find {key : κ} {root : Nat} {left : Array (Node α)}
      (hroot : HasRoot nodes (keys.index key) root) (hflat : Flattened nodes left) :
      Effect keys nodes (.find key) (.ok (.key (keys.ofIndex root))) left
  | probe {key : κ} {root : Nat} {node : Node α} {left : Array (Node α)}
      (hroot : HasRoot nodes (keys.index key) root) (hnode : nodes[root]? = some node)
      (hflat : Flattened nodes left) :
      Effect keys nodes (.probe key) (.ok (.value node.value)) left
  | unioned {a b : κ} {rootA rootB : Nat} {left : Array (Node α)}
      (hA : HasRoot nodes (keys.index a) rootA) (hB : HasRoot nodes (keys.index b) rootB)
      (hflat : Flattened nodes left) :
      Effect keys nodes (.unioned a b) (.ok (.flag (rootA == rootB))) left
  | same {a b : κ} {root : Nat} {left : Array (Node α)}
      (hA : HasRoot nodes (keys.index a) root) (hB : HasRoot nodes (keys.index b) root)
      (hflat : Flattened nodes left) : Effect keys nodes (.union a b) (.ok .done) left
  | joined {a b : κ} {rootA rootB survivor redirected : Nat} {nodeA nodeB top below : Node α}
      {merged : α} {flat left : Array (Node α)} (hA : HasRoot nodes (keys.index a) rootA)
      (hB : HasRoot nodes (keys.index b) rootB) (hne : rootA ≠ rootB)
      (hnodeA : nodes[rootA]? = some nodeA) (hnodeB : nodes[rootB]? = some nodeB)
      (hmerge : keys.merge nodeA.value nodeB.value = .ok merged)
      (hsurvival : keys.survival rootA nodeA rootB nodeB = .ok (survivor, redirected))
      (htop : nodes[survivor]? = some top) (hbelow : nodes[redirected]? = some below)
      (hflat : Flattened nodes flat)
      (hcrowned : Crowned flat survivor redirected (Table.joinedRank top.rank below.rank) merged
        left) :
      Effect keys nodes (.union a b) (.ok .done) left
  | revalued {key : κ} {value merged : α} {root : Nat} {node : Node α} {flat left : Array (Node α)}
      (hroot : HasRoot nodes (keys.index key) root) (hnode : nodes[root]? = some node)
      (hmerge : keys.merge node.value value = .ok merged) (hflat : Flattened nodes flat)
      (hcrowned : Crowned flat root root node.rank merged left) :
      Effect keys nodes (.unionValue key value) (.ok .done) left

/-- Every call about keys leaves a forest. -/
theorem Effect.forest {keys : KeyScheme κ α ε} {nodes left : Array (Node α)}
    {operation : Operation κ α} {outcome : Except (Failure (TableError ε)) (TableAnswer κ α)}
    (h : Effect keys nodes operation outcome left) (hforest : Forest nodes) : Forest left := by
  cases h with
  | refused _ hflat | find _ hflat | probe _ _ hflat | unioned _ _ hflat | same _ _ hflat =>
    exact hflat.forest
  | reserve => exact hforest
  | newKey value => exact hforest.push value
  | joined _ _ _ _ _ _ _ _ _ _ hcrowned | revalued _ _ _ _ hcrowned => exact hcrowned.forest

/-- No call about keys changes the number of nodes, but for a new key. -/
theorem Effect.size_eq {keys : KeyScheme κ α ε} {nodes left : Array (Node α)}
    {operation : Operation κ α} {outcome : Except (Failure (TableError ε)) (TableAnswer κ α)}
    (h : Effect keys nodes operation outcome left) (hnew : ∀ value, operation ≠ .newKey value) :
    left.size = nodes.size := by
  cases h with
  | refused _ hflat | find _ hflat | probe _ _ hflat | unioned _ _ hflat | same _ _ hflat =>
    exact hflat.size_eq
  | reserve => rfl
  | newKey value => exact absurd rfl (hnew value)
  | joined _ _ _ _ _ _ _ _ _ hflat hcrowned | revalued _ _ _ hflat hcrowned =>
    rw [hcrowned.size_eq, hflat.size_eq]

namespace Operation

/-- The keys that a call is about. -/
def mentioned : Operation κ α → List κ
  | find key | probe key | unionValue key _ => [key]
  | unioned a b | union a b => [a, b]
  | _ => []

variable (keys : KeyScheme κ α ε) {table : Table α}

/-- The first key of a call that a table of some size has not handed out. -/
def unknownKey? (operation : Operation κ α) (size : Nat) : Option κ :=
  operation.mentioned.find? fun key => size ≤ keys.index key

theorem index_lt_of_known {operation : Operation κ α} {size : Nat}
    (h : operation.unknownKey? keys size = none) :
    ∀ key ∈ operation.mentioned, keys.index key < size := by
  intro key hmentioned
  have hknown := List.find?_eq_none.mp h key hmentioned
  simpa using hknown

/-- Both keys have to be known before anything else is done. -/
private theorem locate_both_of_unknown {a b key : κ} (next : Nat → Nat → TableM α (TableError ε) β)
    (h : [a, b].find? (fun key => table.size ≤ keys.index key) = some key) :
    (do
      let a ← Table.locate keys a
      let b ← Table.locate keys b
      next a b) table =
        .error (.refused (.unknownKey keys.tag (keys.index key) table.size)) table := by
  by_cases hA : keys.index a < table.size
  · rw [List.find?_cons_of_neg (by simpa using hA)] at h
    obtain ⟨hB, hb⟩ : table.size ≤ keys.index key ∧ b = key := by
      have hmem := List.mem_of_find?_eq_some h
      have hfound := List.find?_some h
      exact ⟨by simpa using hfound, (List.mem_singleton.mp hmem).symm⟩
    subst hb
    rw [Action.bind_of_ok (Table.locate_of_lt keys hA)]
    exact Action.bind_of_error (Table.locate_of_le keys hB)
  · have hle := Nat.not_lt.mp hA
    rw [List.find?_cons_of_pos (by simpa using hle)] at h
    cases h
    exact Action.bind_of_error (Table.locate_of_le keys hle)

/-- A call about a key that the table has not handed out is refused, and
    changes nothing. The first such key is reported. -/
theorem run_of_unknown {operation : Operation κ α} {key : κ}
    (h : operation.unknownKey? keys table.size = some key) :
    operation.run keys table =
      .error (.refused (.unknownKey keys.tag (keys.index key) table.size)) table := by
  have hmentioned := List.mem_of_find?_eq_some h
  have hindex : table.size ≤ keys.index key := by simpa using List.find?_some h
  cases operation with
  | find other | probe other | unionValue other _ =>
    obtain rfl := List.mem_singleton.mp hmentioned
    exact Action.map_of_error (Action.bind_of_error (Table.locate_of_le keys hindex))
  | unioned a b | union a b => exact Action.map_of_error (locate_both_of_unknown keys _ h)
  | _ => cases hmentioned

/-- A call about keys of an empty table finds none of them, and changes nothing. -/
theorem after_of_empty {operation : Operation κ α} (hplain : operation.isPlain)
    (hnew : ∀ value, operation ≠ newKey value) (hempty : table.size = 0) :
    Action.after (operation.run keys) table = table := by
  rcases hunknown : operation.unknownKey? keys table.size with _ | key
  case some => exact Action.after_of_error (run_of_unknown keys hunknown)
  have hknown := index_lt_of_known keys hunknown
  rw [hempty] at hknown
  cases operation with
  | newKey value => exact absurd rfl (hnew value)
  | reserve count =>
    rw [run, Action.after_map]
    rcases Table.reserve_cases table keys.toPayload count with hrun | hrun
    · exact Action.after_of_ok hrun
    · exact Action.after_of_error hrun
  | find key | probe key | unionValue key _ | unioned key _ | union key _ =>
    exact absurd (hknown key (by simp [mentioned])) (Nat.not_lt_zero _)
  | _ => cases hplain

private theorem effect_union {a b : κ} {rootA rootB : Nat} (h : Forest table.nodes)
    (hA : HasRoot table.nodes (keys.index a) rootA)
    (hB : HasRoot table.nodes (keys.index b) rootB) :
    ∃ outcome left, (union a b).run keys table = Action.ending outcome left ∧
      Effect keys table.nodes (union a b) outcome left.nodes := by
  by_cases hsame : rootA = rootB
  · subst hsame
    obtain ⟨left, hrun, hflat⟩ := Table.union_of_same keys h hA hB
    exact ⟨.ok .done, left, Action.map_of_ok hrun, .same hA hB hflat⟩
  obtain ⟨nodeA, hnodeA, -⟩ := hA.1
  obtain ⟨nodeB, hnodeB, -⟩ := hB.1
  cases hmerge : keys.merge nodeA.value nodeB.value with
  | error conflict =>
    obtain ⟨left, hrun, hflat⟩ := Table.union_of_conflict keys h hA hB hsame hnodeA hnodeB hmerge
    exact ⟨.error _, left, Action.map_of_error hrun, .refused _ hflat.toFlattened⟩
  | ok merged =>
    cases hnomination : keys.nomination rootA nodeA.value rootB nodeB.value with
    | error reason =>
      obtain ⟨left, hrun, hflat⟩ :=
        Table.union_of_refused keys h hA hB hsame hnodeA hnodeB hmerge hnomination
      exact ⟨.error _, left, Action.map_of_error hrun, .refused reason hflat.toFlattened⟩
    | ok nominated =>
      obtain ⟨_, _, _, _, _, left, hsurvival, htop, hbelow, hrun, hflat, hcrowned⟩ :=
        Table.union_of_ok keys h hA hB hsame hnodeA hnodeB hmerge hnomination
      exact ⟨.ok .done, left, Action.map_of_ok hrun,
        .joined hA hB hsame hnodeA hnodeB hmerge hsurvival htop hbelow hflat hcrowned⟩

private theorem effect_unionValue {key : κ} {root : Nat} (h : Forest table.nodes)
    (hroot : HasRoot table.nodes (keys.index key) root) (value : α) :
    ∃ outcome left, (unionValue key value).run keys table = Action.ending outcome left ∧
      Effect keys table.nodes (unionValue key value) outcome left.nodes := by
  obtain ⟨node, hnode, -⟩ := hroot.1
  cases hmerge : keys.merge node.value value with
  | error conflict =>
    obtain ⟨left, hrun, hflat⟩ := Table.unionValue_of_conflict keys h hroot hnode hmerge
    exact ⟨.error _, left, Action.map_of_error hrun, .refused _ hflat.toFlattened⟩
  | ok merged =>
    obtain ⟨_, left, hrun, hflat, hcrowned⟩ := Table.unionValue_of_ok keys h hroot hnode hmerge
    exact ⟨.ok .done, left, Action.map_of_ok hrun, .revalued hroot hnode hmerge hflat hcrowned⟩

/-- On a forest a call about keys has one of these effects, and meets no fault. -/
theorem exists_effect (table : Table α) {operation : Operation κ α} (hplain : operation.isPlain)
    (h : Forest table.nodes) :
    ∃ outcome left, operation.run keys table = Action.ending outcome left ∧
      Effect keys table.nodes operation outcome left.nodes := by
  rcases hunknown : operation.unknownKey? keys table.size with _ | key
  case some => exact ⟨.error _, table, run_of_unknown keys hunknown, .refused _ (.refl h)⟩
  have hroots : ∀ key ∈ operation.mentioned, ∃ root, HasRoot table.nodes (keys.index key) root :=
    fun key hmentioned => h.exists_root (index_lt_of_known keys hunknown key hmentioned)
  cases operation with
  | reserve count =>
    rcases Table.reserve_cases table keys.toPayload count with hrun | hrun
    · exact ⟨.ok .done, table, Action.map_of_ok hrun, .reserve count⟩
    · exact ⟨.error _, table, Action.map_of_error hrun, .refused _ (.refl h)⟩
  | newKey value =>
    rcases Table.newKey_cases keys table value with hrun | ⟨reason, hrun⟩
    · exact ⟨.ok _, _, Action.map_of_ok hrun, .newKey value⟩
    · exact ⟨.error _, table, Action.map_of_error hrun, .refused reason (.refl h)⟩
  | find key =>
    obtain ⟨root, hroot⟩ := hroots key (by simp [mentioned])
    obtain ⟨left, hrun, hflat⟩ := Table.find_of_hasRoot keys h hroot
    exact ⟨.ok _, left, Action.map_of_ok hrun, .find hroot hflat⟩
  | probe key =>
    obtain ⟨root, hroot⟩ := hroots key (by simp [mentioned])
    obtain ⟨node, hnode, -⟩ := hroot.1
    obtain ⟨left, hrun, hflat⟩ := Table.probe_of_hasRoot keys h hroot hnode
    exact ⟨.ok _, left, Action.map_of_ok hrun, .probe hroot hnode hflat⟩
  | unioned a b =>
    obtain ⟨rootA, hA⟩ := hroots a (by simp [mentioned])
    obtain ⟨rootB, hB⟩ := hroots b (by simp [mentioned])
    obtain ⟨left, hrun, hflat⟩ := Table.unioned_of_hasRoot keys h hA hB
    exact ⟨.ok _, left, Action.map_of_ok hrun, .unioned hA hB hflat⟩
  | union a b =>
    obtain ⟨rootA, hA⟩ := hroots a (by simp [mentioned])
    obtain ⟨rootB, hB⟩ := hroots b (by simp [mentioned])
    exact effect_union keys h hA hB
  | unionValue key value =>
    obtain ⟨root, hroot⟩ := hroots key (by simp [mentioned])
    exact effect_unionValue keys h hroot value
  | _ => cases hplain

end Operation

end Unification
