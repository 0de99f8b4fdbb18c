import Mathlib.Data.Set.Basic
import Unification.Proofs.Journal.Undone
import Unification.Table.Union

namespace Unification

variable {κ α ε δ β γ : Type}

/-- As many nodes, and the same ones in a region. -/
structure AgreeOn (region : Set Nat) (nodes others : Array (Node α)) : Prop where
  size_eq : nodes.size = others.size
  getElem?_eq : ∀ index ∈ region, nodes[index]? = others[index]?

/-- A region that no way up leads out of. -/
def Enclosed (region : Set Nat) (nodes : Array (Node α)) : Prop :=
  ∀ index ∈ region, ∀ node, nodes[index]? = some node → node.parent ∈ region

/-- An action that looks at nothing but the number of nodes and the nodes of a
    region, and writes nothing else: what it ends with, the nodes of the region
    that it leaves and the entries that it adds to the journal depend on nothing
    else, and all nodes outside the region stay as they are. Of its results one
    may expect something, such as that an index is in the region again. -/
def Confined (region : Set Nat) (expected : β → Prop) (action : TableM α δ β) : Prop :=
  ∀ nodes, Enclosed region nodes → ∃ outcome final entries,
    Enclosed region final ∧ (∀ result, outcome = .ok result → expected result) ∧
    ∀ others, AgreeOn region nodes others → ∃ changed,
      AgreeOn region final changed ∧ AgreeOn regionᶜ others changed ∧
      ∀ journal, action { nodes := others, journal } =
        Action.ending outcome { nodes := changed, journal := journal.recordAll entries }

namespace AgreeOn

variable {region : Set Nat} {nodes others third : Array (Node α)}

theorem refl (region : Set Nat) (nodes : Array (Node α)) : AgreeOn region nodes nodes where
  size_eq := rfl
  getElem?_eq := fun _ _ => rfl

theorem trans (h : AgreeOn region nodes others) (hmore : AgreeOn region others third) :
    AgreeOn region nodes third where
  size_eq := h.size_eq.trans hmore.size_eq
  getElem?_eq := fun index hindex =>
    (h.getElem?_eq index hindex).trans (hmore.getElem?_eq index hindex)

theorem mono {larger : Set Nat} (h : AgreeOn larger nodes others) (hsubset : region ⊆ larger) :
    AgreeOn region nodes others where
  size_eq := h.size_eq
  getElem?_eq := fun index hindex => h.getElem?_eq index (hsubset hindex)

/-- The same write keeps nodes in agreement. -/
theorem overwrite (h : AgreeOn region nodes others) (index : Nat) (new : Node α) :
    AgreeOn region (nodes.setIfInBounds index new) (others.setIfInBounds index new) where
  size_eq := by rw [Array.size_setIfInBounds, Array.size_setIfInBounds, h.size_eq]
  getElem?_eq := by
    intro other hother
    rw [Array.getElem?_setIfInBounds, Array.getElem?_setIfInBounds, h.size_eq,
      h.getElem?_eq other hother]

/-- A write is not noticed where it does not take place. -/
theorem of_overwrite {index : Nat} (hindex : index ∉ region) (nodes : Array (Node α))
    (new : Node α) : AgreeOn region nodes (nodes.setIfInBounds index new) where
  size_eq := Array.size_setIfInBounds.symm
  getElem?_eq := by
    intro other hother
    have hne : index ≠ other := fun hsame => hindex (hsame ▸ hother)
    rw [Array.getElem?_setIfInBounds_ne hne]

/-- A search goes the same way up, and does not leave the region. -/
theorem climb_eq (h : AgreeOn region nodes others) (hnodes : Enclosed region nodes) (fuel : Nat)
    {index : Nat} (hindex : index ∈ region) :
    Table.climb others fuel index = Table.climb nodes fuel index ∧
      ∀ root, Table.climb nodes fuel index = .ok root → root ∈ region := by
  induction fuel generalizing index with
  | zero => exact ⟨rfl, nofun⟩
  | succ fuel ih =>
    rw [Table.climb, Table.climb, ← h.getElem?_eq index hindex]
    cases hnode : nodes[index]? with
    | none => exact ⟨rfl, nofun⟩
    | some node =>
      dsimp only
      split
      · exact ⟨rfl, fun root hroot => by cases hroot; exact hindex⟩
      · exact ih (hnodes index hindex node hnode)

end AgreeOn

theorem Enclosed.overwrite {region : Set Nat} {nodes : Array (Node α)} (h : Enclosed region nodes)
    (index : Nat) {new : Node α} (hnew : new.parent ∈ region) :
    Enclosed region (nodes.setIfInBounds index new) := by
  intro other hother node hnode
  rw [Array.getElem?_setIfInBounds] at hnode
  split at hnode
  next =>
    split at hnode
    next =>
      cases hnode
      exact hnew
    next => cases hnode
  next => exact h other hother node hnode

namespace Confined

variable {region : Set Nat} {expected : β → Prop} {wanted : γ → Prop} {index : Nat}

/-- An action that changes nothing is confined if the nodes of the region and the
    number of nodes decide what it ends with. -/
theorem of_reading {action : TableM α δ β} (outcome : Array (Node α) → Except (Failure δ) β)
    (hrun : ∀ table, action table = Action.ending (outcome table.nodes) table)
    (hsame : ∀ nodes others, AgreeOn region nodes others → outcome others = outcome nodes)
    (hexpected : ∀ nodes result, Enclosed region nodes → outcome nodes = .ok result →
      expected result) : Confined region expected action := by
  intro nodes hnodes
  refine ⟨outcome nodes, nodes, [], hnodes, fun result => hexpected nodes result hnodes,
    fun others hagree => ⟨others, hagree, .refl _ others, fun journal => ?_⟩⟩
  rw [hrun, hsame nodes others hagree]
  rfl

theorem pure {result : β} (hresult : expected result) :
    Confined region expected (Pure.pure result : TableM α δ β) :=
  of_reading (fun _ => .ok result) (fun _ => rfl) (fun _ _ _ => rfl)
    fun _ _ _ hsame => by cases hsame; exact hresult

theorem refuse (reason : δ) : Confined region expected (Failure.refuse reason : TableM α δ β) :=
  of_reading (fun _ => .error (.refused reason)) (fun _ => rfl) (fun _ _ _ => rfl) nofun

theorem raise (cause : Fault) : Confined region expected (Failure.raise cause : TableM α δ β) :=
  of_reading (fun _ => .error (.fault cause)) (fun _ => rfl) (fun _ _ _ => rfl) nofun

theorem bind {action : TableM α δ β} {next : β → TableM α δ γ}
    (haction : Confined region expected action)
    (hnext : ∀ result, expected result → Confined region wanted (next result)) :
    Confined region wanted (action >>= next) := by
  intro nodes hnodes
  obtain ⟨outcome, middle, entries, hmiddle, hexpected, hrun⟩ := haction nodes hnodes
  cases outcome with
  | error failure =>
    refine ⟨.error failure, middle, entries, hmiddle, nofun, fun others hagree => ?_⟩
    obtain ⟨changed, hinside, houtside, heq⟩ := hrun others hagree
    exact ⟨changed, hinside, houtside, fun journal => Action.bind_of_error (heq journal)⟩
  | ok result =>
    obtain ⟨last, final, more, hfinal, hwanted, hrunMore⟩ :=
      hnext result (hexpected result rfl) middle hmiddle
    refine ⟨last, final, entries ++ more, hfinal, hwanted, fun others hagree => ?_⟩
    obtain ⟨between, hinside, houtside, heq⟩ := hrun others hagree
    obtain ⟨changed, hinsideMore, houtsideMore, heqMore⟩ := hrunMore between hinside
    refine ⟨changed, hinsideMore, houtside.trans houtsideMore, fun journal => ?_⟩
    rw [Action.bind_of_ok (heq journal), heqMore, Journal.recordAll_append]

theorem map {action : TableM α δ β} (haction : Confined region expected action) (f : β → γ) :
    Confined region (fun _ => True) (f <$> action) :=
  haction.bind fun _ _ => .pure trivial

theorem nodeAt (hindex : index ∈ region) :
    Confined region (·.parent ∈ region) (Table.nodeAt index : TableM α δ (Node α)) := by
  refine of_reading (fun nodes => nodes[index]?.elim (.error (.fault .indexOutOfBounds)) .ok)
    (fun table => ?_) (fun nodes others hagree => ?_) fun nodes node hnodes hnode => ?_
  · cases hnode : table.nodes[index]? with
    | some node => exact Table.nodeAt_of_some hnode
    | none => exact Table.nodeAt_of_none hnode
  · rw [hagree.getElem?_eq index hindex]
  · refine hnodes index hindex node ?_
    cases hread : nodes[index]? with
    | some same =>
      rw [hread] at hnode
      cases hnode
      rfl
    | none =>
      rw [hread] at hnode
      cases hnode

/-- A write within the region, of a node whose parent stays in it. -/
theorem update (hindex : index ∈ region) {change : Node α → Node α}
    (hchange : ∀ node, node.parent ∈ region → (change node).parent ∈ region) :
    Confined region (fun _ => True) (Table.update index change : TableM α δ Unit) := by
  intro nodes hnodes
  cases hnode : nodes[index]? with
  | some node =>
    refine ⟨.ok (), nodes.setIfInBounds index (change node), [.overwritten index node],
      hnodes.overwrite index (hchange node (hnodes index hindex node hnode)), fun _ _ => trivial,
      fun others hagree => ⟨others.setIfInBounds index (change node), hagree.overwrite index _,
        .of_overwrite (not_not_intro hindex) others _, fun journal => ?_⟩⟩
    have hread : (Table.mk others journal).nodes[index]? = some node :=
      (hagree.getElem?_eq index hindex).symm.trans hnode
    exact Table.update_of_some hread change
  | none =>
    refine ⟨.error (.fault .indexOutOfBounds), nodes, [], hnodes, nofun, fun others hagree =>
      ⟨others, hagree, .refl _ others, fun journal => ?_⟩⟩
    have hread : (Table.mk others journal).nodes[index]? = none :=
      (hagree.getElem?_eq index hindex).symm.trans hnode
    exact Table.update_of_none hread change

theorem compress {root : Nat} (hroot : root ∈ region) (fuel : Nat) (hindex : index ∈ region) :
    Confined region (fun _ => True) (Table.compress root fuel index : TableM α δ Unit) := by
  induction fuel generalizing index with
  | zero => exact .raise .parentCycle
  | succ fuel ih =>
    by_cases hsame : index = root
    · simp only [Table.compress, hsame, ne_eq, not_true_eq_false, if_false]
      exact .pure trivial
    · simp only [Table.compress, ne_eq, hsame, not_false_eq_true, if_true]
      refine (nodeAt hindex).bind fun node hparent => ?_
      split
      · exact (update hindex fun _ _ => hroot).bind fun _ _ => ih hparent
      · exact ih hparent

theorem root (hindex : index ∈ region) :
    Confined region (· ∈ region) (Table.root index : TableM α δ Nat) := by
  intro nodes hnodes
  have hclimb : ∀ others, AgreeOn region nodes others →
      Table.climb others (others.size + 1) index = Table.climb nodes (nodes.size + 1) index :=
    fun others hagree => hagree.size_eq ▸ (hagree.climb_eq hnodes (nodes.size + 1) hindex).1
  cases hfound : Table.climb nodes (nodes.size + 1) index with
  | error cause =>
    refine ⟨.error (.fault cause), nodes, [], hnodes, nofun, fun others hagree =>
      ⟨others, hagree, .refl _ others, fun journal => ?_⟩⟩
    rw [Table.root, Action.get_bind]
    simp only [hclimb others hagree, hfound]
    rfl
  | ok root =>
    have hroot : root ∈ region :=
      ((AgreeOn.refl region nodes).climb_eq hnodes (nodes.size + 1) hindex).2 root hfound
    have hcompress : Confined region (· ∈ region) (do
        Table.compress root (nodes.size + 1) index
        Pure.pure root : TableM α δ Nat) :=
      (compress hroot (nodes.size + 1) hindex).bind fun _ _ => .pure hroot
    obtain ⟨outcome, final, entries, hfinal, hexpected, hrun⟩ := hcompress nodes hnodes
    refine ⟨outcome, final, entries, hfinal, hexpected, fun others hagree => ?_⟩
    obtain ⟨changed, hinside, houtside, heq⟩ := hrun others hagree
    refine ⟨changed, hinside, houtside, fun journal => ?_⟩
    rw [Table.root, Action.get_bind]
    simp only [hclimb others hagree, hfound]
    rw [← hagree.size_eq]
    exact heq journal

variable (keys : KeyScheme κ α ε) {key a b : κ}

theorem locate (key : κ) : Confined region (· = keys.index key) (Table.locate keys key) := by
  refine of_reading (fun nodes => if keys.index key < nodes.size then .ok (keys.index key)
    else .error (.refused (.unknownKey keys.tag (keys.index key) nodes.size))) (fun table => ?_)
    (fun nodes others hagree => by rw [hagree.size_eq]) fun nodes result _ hresult => ?_
  · rw [Table.locate, Action.get_bind, Table.size]
    by_cases hindex : keys.index key < table.nodes.size
    · simp only [hindex, if_true]
      rfl
    · simp only [hindex, if_false]
      rfl
  · split at hresult
    · cases hresult
      rfl
    · cases hresult

/-- The root of a key is searched for, if the table knows the key. -/
private theorem search (hkey : keys.index key ∈ region) {next : Nat → TableM α (TableError ε) γ}
    (hnext : ∀ root ∈ region, Confined region wanted (next root)) :
    Confined region wanted (do
      let index ← Table.locate keys key
      let root ← Table.root index
      next root) :=
  (locate keys key).bind fun _ hindex => (root (hindex ▸ hkey)).bind hnext

/-- Both keys are searched for, if the table knows both of them. -/
private theorem searchBoth (ha : keys.index a ∈ region) (hb : keys.index b ∈ region)
    {next : Nat → Nat → TableM α (TableError ε) γ}
    (hnext : ∀ rootA ∈ region, ∀ rootB ∈ region, Confined region wanted (next rootA rootB)) :
    Confined region wanted (do
      let a ← Table.locate keys a
      let b ← Table.locate keys b
      let rootA ← Table.root a
      let rootB ← Table.root b
      next rootA rootB) :=
  (locate keys a).bind fun _ hindexA => (locate keys b).bind fun _ hindexB =>
    (root (hindexA ▸ ha)).bind fun rootA hrootA =>
      (root (hindexB ▸ hb)).bind fun rootB hrootB => hnext rootA hrootA rootB hrootB

theorem find (hkey : keys.index key ∈ region) :
    Confined region (fun _ => True) (Table.find keys key) :=
  search keys hkey fun _ _ => .pure trivial

theorem probe (hkey : keys.index key ∈ region) :
    Confined region (fun _ => True) (Table.probe keys key) :=
  search keys hkey fun _ hroot => (nodeAt hroot).bind fun _ _ => .pure trivial

theorem unioned (ha : keys.index a ∈ region) (hb : keys.index b ∈ region) :
    Confined region (fun _ => True) (Table.unioned keys a b) :=
  searchBoth keys ha hb fun _ _ _ _ => .pure trivial

theorem unionValue (hkey : keys.index key ∈ region) (value : α) :
    Confined region (fun _ => True) (Table.unionValue keys key value) := by
  refine search keys hkey fun root hroot => (nodeAt hroot).bind fun node _ => ?_
  cases keys.merge node.value value with
  | error conflict => exact .refuse (TableError.mergeConflict conflict)
  | ok merged => exact update hroot fun _ hparent => hparent

/-- What the root order nominates are the two roots that it is asked about. -/
theorem nominate {rootA rootB : Nat} (hA : rootA ∈ region) (hB : rootB ∈ region) :
    Confined region (fun nominated => ∀ pair ∈ nominated, pair.1 ∈ region ∧ pair.2 ∈ region)
      (Table.nominate keys rootA rootB) := by
  refine (nodeAt hA).bind fun nodeA _ => (nodeAt hB).bind fun nodeB _ => ?_
  cases keys.order (keys.ofIndex rootA) nodeA.value (keys.ofIndex rootB) nodeB.value with
  | none => exact .pure nofun
  | some nominated =>
    dsimp only
    split
    next hpair =>
      refine .pure fun pair hmem => ?_
      obtain rfl := Option.mem_some.mp hmem
      rcases hpair with hpair | hpair <;> rw [hpair]
      · exact ⟨hA, hB⟩
      · exact ⟨hB, hA⟩
    next => exact .refuse _

theorem link {rootA rootB : Nat} (hA : rootA ∈ region) (hB : rootB ∈ region) (value : α) :
    Confined region (fun _ => True) (Table.link keys rootA rootB value) := by
  refine (nodeAt hA).bind fun nodeA _ => (nodeAt hB).bind fun nodeB _ =>
    (nominate keys hA hB).bind fun nominated hnominated => ?_
  have hchosen : (nominated.getD
        (if nodeB.rank < nodeA.rank then (rootA, rootB) else (rootB, rootA))).1 ∈ region ∧
      (nominated.getD
        (if nodeB.rank < nodeA.rank then (rootA, rootB) else (rootB, rootA))).2 ∈ region := by
    cases nominated with
    | some pair => exact hnominated pair rfl
    | none =>
      rw [Option.getD_none]
      split
      · exact ⟨hA, hB⟩
      · exact ⟨hB, hA⟩
  exact (update hchosen.2 fun _ _ => hchosen.1).bind fun _ _ =>
    update hchosen.1 fun _ hparent => hparent

theorem union (ha : keys.index a ∈ region) (hb : keys.index b ∈ region) :
    Confined region (fun _ => True) (Table.union keys a b) := by
  refine searchBoth keys ha hb fun rootA hA rootB hB => ?_
  split
  · refine (nodeAt hA).bind fun nodeA _ => (nodeAt hB).bind fun nodeB _ => ?_
    cases keys.merge nodeA.value nodeB.value with
    | error conflict => exact .refuse (TableError.mergeConflict conflict)
    | ok merged => exact link keys hA hB merged
  · exact .pure trivial

end Confined

end Unification
