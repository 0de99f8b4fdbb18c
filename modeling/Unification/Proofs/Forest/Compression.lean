import Unification.Proofs.Forest.Ranks
import Unification.Proofs.Journal.Undone

namespace Unification

variable {κ α ε δ : Type}

/-- The same trees, but with shorter ways up. A search for a root changes
    nothing but parents, and takes no node to another root. -/
structure Flattened (nodes flat : Array (Node α)) : Prop where
  forest : Forest flat
  size_eq : flat.size = nodes.size
  hasRoot : ∀ {index root : Nat}, HasRoot nodes index root → HasRoot flat index root
  exists_parent : ∀ {index : Nat} {node : Node α}, nodes[index]? = some node →
    ∃ parent, flat[index]? = some { node with parent }

/-- A node may be pointed at the root of its tree. -/
theorem Forest.shortcut {nodes : Array (Node α)} (h : Forest nodes) {index root : Nat}
    {node : Node α} (hnode : nodes[index]? = some node) (hroot : HasRoot nodes index root)
    (hne : index ≠ root) :
    Flattened nodes (nodes.setIfInBounds index { node with parent := root }) where
  forest := by
    obtain ⟨⟨top, htop, -⟩, path, hpath⟩ := hroot
    refine h.overwrite hnode (Nat.le_refl _) (.inr ⟨top, htop, ?_⟩)
    have hgrow := h.add_length_le hpath hnode htop
    cases hpath with
    | nil => exact absurd rfl hne
    | cons =>
      rw [List.length_cons] at hgrow
      show node.rank < top.rank
      omega
  size_eq := Array.size_setIfInBounds
  hasRoot := by
    intro other top htop
    have hnotRoot : top ≠ index := fun hsame => hne ((hsame ▸ htop.1).hasRoot.unique hroot)
    have hmoved := htop.redirected hnode hroot.1 hne (.inr hroot)
    rwa [if_neg hnotRoot] at hmoved
  exists_parent := by
    intro other old hold
    rw [getElem?_overwritten hnode]
    split
    next hsame =>
      subst hsame
      rw [hnode] at hold
      cases hold
      exact ⟨root, rfl⟩
    next => exact ⟨old.parent, hold⟩

namespace Flattened

variable {nodes flat flatter : Array (Node α)} {index root : Nat}

theorem refl (h : Forest nodes) : Flattened nodes nodes where
  forest := h
  size_eq := rfl
  hasRoot := id
  exists_parent := fun {_ node} hnode => ⟨node.parent, hnode⟩

theorem trans (h : Flattened nodes flat) (hmore : Flattened flat flatter) :
    Flattened nodes flatter where
  forest := hmore.forest
  size_eq := hmore.size_eq.trans h.size_eq
  hasRoot := fun hroot => hmore.hasRoot (h.hasRoot hroot)
  exists_parent := by
    intro index node hnode
    obtain ⟨parent, hparent⟩ := h.exists_parent hnode
    obtain ⟨last, hlast⟩ := hmore.exists_parent hparent
    exact ⟨last, hlast⟩

theorem hasRoot_iff (h : Flattened nodes flat) (hforest : Forest nodes) :
    HasRoot flat index root ↔ HasRoot nodes index root := by
  constructor
  · intro hflat
    obtain ⟨top, htop⟩ := hforest.exists_root (h.size_eq ▸ hflat.lt_size)
    rwa [(h.hasRoot htop).unique hflat] at htop
  · exact h.hasRoot

/-- Roots stay as they are. -/
theorem getElem?_root (h : Flattened nodes flat) {node : Node α} (hroot : IsRoot nodes root)
    (hnode : nodes[root]? = some node) : flat[root]? = some node := by
  obtain ⟨parent, hparent⟩ := h.exists_parent hnode
  have hself : parent = root := (h.hasRoot hroot.hasRoot).1.parent_eq hparent
  rw [hparent, hself, ← hroot.parent_eq hnode]

end Flattened

/-- What searches upward from some nodes leave: the same trees, in which nodes
    on these ways may point at their roots. All other nodes are as they were. -/
structure Shortened (nodes : Array (Node α)) (starts : List Nat) (flat : Array (Node α)) : Prop
    extends Flattened nodes flat where
  getElem?_cases : ∀ {index : Nat} {node : Node α}, nodes[index]? = some node →
    flat[index]? = some node ∨
      ∃ start ∈ starts, ∃ path root, Ascent nodes start path root ∧ IsRoot nodes root ∧
        index ∈ path ∧ flat[index]? = some { node with parent := root }

namespace Shortened

variable {nodes flat flatter : Array (Node α)} {starts more : List Nat} {index root : Nat}
  {path path' : List Nat}

/-- Ways up only get shorter. -/
theorem subset (h : Shortened nodes starts flat) (hpath : Ascent nodes index path root)
    (hroot : IsRoot nodes root) (hpath' : Ascent flat index path' root) : path' ⊆ path := by
  have htop := (h.hasRoot hroot.hasRoot).1
  induction hpath generalizing path' with
  | nil index =>
    rw [(hpath'.unique htop (.nil index) htop).1]
    exact List.Subset.refl _
  | @cons index root node path hnode hparent hrest ih =>
    obtain _ | @⟨_, _, _, rest, hnode', hparent', hrest'⟩ := hpath'
    · exact List.nil_subset _
    rcases h.getElem?_cases hnode with hsame | ⟨start, -, way, top, hway, hend, hmem, hmoved⟩
    · rw [hnode'] at hsame
      cases hsame
      exact List.cons_subset_cons index (ih hroot hrest' htop)
    · rw [hnode'] at hmoved
      cases hmoved
      -- The node lies on the way that was shortened, and both ways end in the same root.
      obtain ⟨onward, honward, -⟩ := hway.of_mem hmem
      obtain rfl := (honward.unique hend (.cons hnode hparent hrest) hroot).2
      rw [(hrest'.unique htop (.nil _) htop).1]
      exact List.cons_subset_cons index (List.nil_subset _)

theorem trans (h : Shortened nodes starts flat) (hforest : Forest nodes)
    (hmore : Shortened flat more flatter) : Shortened nodes (starts ++ more) flatter where
  toFlattened := h.toFlattened.trans hmore.toFlattened
  getElem?_cases := by
    intro index node hnode
    obtain ⟨parent, hflat⟩ := h.exists_parent hnode
    rcases hmore.getElem?_cases hflat with
      hsame | ⟨start, hstart, way, root, hway, hroot, hmem, hend⟩
    · rw [hsame]
      rcases h.getElem?_cases hnode with hold | ⟨start, hstart, hrest⟩
      · rw [hflat] at hold
        exact .inl hold
      · rw [hflat] at hrest
        exact .inr ⟨start, List.mem_append_left _ hstart, hrest⟩
    · have hfound : HasRoot flat start root := ⟨hroot, way, hway⟩
      obtain ⟨old, hold, path, hpath⟩ := hforest.exists_root (h.size_eq ▸ hfound.lt_size)
      obtain rfl := (h.hasRoot ⟨hold, path, hpath⟩).unique hfound
      exact .inr ⟨start, List.mem_append_right _ hstart, path, old, hpath, hold,
        h.subset hpath hold hway hmem, hend⟩

end Shortened

/-- What a search journals of the nodes on its way up: those that do not point at
    the root yet, as they are, in the order of the way. -/
def redirections (nodes : Array (Node α)) (root : Nat) (path : List Nat) : List (Entry α) :=
  path.filterMap fun visited =>
    (nodes[visited]?).bind fun node =>
      if node.parent = root then none else some (.overwritten visited node)

theorem redirections_congr {nodes nodes' : Array (Node α)} {path : List Nat}
    (h : ∀ visited ∈ path, nodes'[visited]? = nodes[visited]?) (root : Nat) :
    redirections nodes' root path = redirections nodes root path :=
  List.filterMap_congr fun visited hvisited => by rw [h visited hvisited]

namespace Table

/-- What a search leaves of a table that has gone up a path to a root: all nodes
    on the path point at the root. -/
structure Compressed (table : Table α) (path : List Nat) (root : Nat) (left : Table α) : Prop
    extends Flattened table.nodes left.nodes where
  getElem?_eq : ∀ other : Nat, left.nodes[other]? = if other ∈ path then
    (table.nodes[other]?).map fun node => { node with parent := root }
    else table.nodes[other]?
  journal_eq : left.journal = table.journal.recordAll (redirections table.nodes root path)

/-- What a write does to the nodes, whatever it journals. -/
theorem exists_update {table : Table α} {index : Nat} {node : Node α}
    (hnode : table.nodes[index]? = some node) (change : Node α → Node α) :
    ∃ written, (update index change : TableM α δ Unit) table = .ok () written ∧
      written.nodes = table.nodes.setIfInBounds index (change node) :=
  ⟨_, update_of_some hnode change, rfl⟩

private theorem compress_succ {table : Table α} {index root : Nat} {node : Node α}
    (hnode : table.nodes[index]? = some node) (hne : index ≠ root) (fuel : Nat) :
    (compress root (fuel + 1) index : TableM α δ Unit) table =
      (do
        if node.parent ≠ root then
          update index fun node => { node with parent := root }
        compress root fuel node.parent : TableM α δ Unit) table := by
  simp only [compress, ne_eq, hne, not_false_eq_true, if_true]
  rw [Action.bind_of_ok (nodeAt_of_some hnode)]

/-- A node that points at the root is passed by, and leaves no entry. -/
private theorem Compressed.skip {table left : Table α} {current root : Nat} {path : List Nat}
    {node : Node α} (h : table.Compressed path root left)
    (hnode : table.nodes[current]? = some node) (hflat : node.parent = root)
    (hbeyond : current ∉ path) : table.Compressed (current :: path) root left where
  toFlattened := h.toFlattened
  getElem?_eq := by
    intro other
    rw [h.getElem?_eq]
    by_cases hother : other = current
    · subst hother
      simp only [hbeyond, if_false, List.mem_cons_self, if_true, hnode, Option.map_some, ← hflat]
    · simp only [List.mem_cons, hother, false_or]
  journal_eq := by
    rw [h.journal_eq, redirections, redirections, List.filterMap_cons]
    simp only [hnode, Option.bind_some, hflat, if_true]

/-- A node that does not is written first. The rest of the way does not come back
    to it, and is journaled as it was before. -/
private theorem Compressed.write {table written left : Table α} {current root : Nat}
    {path : List Nat} {node : Node α} (h : written.Compressed path root left)
    (hshort : Flattened table.nodes written.nodes) (hnode : table.nodes[current]? = some node)
    (hmoved : node.parent ≠ root) (hbeyond : current ∉ path)
    (hread : ∀ other : Nat, written.nodes[other]? =
      if current = other then some { node with parent := root } else table.nodes[other]?)
    (hjournal : written.journal = table.journal.record (.overwritten current node)) :
    table.Compressed (current :: path) root left where
  toFlattened := hshort.trans h.toFlattened
  getElem?_eq := by
    intro other
    rw [h.getElem?_eq, hread]
    by_cases hother : other = current
    · subst hother
      simp only [hbeyond, if_false, if_true, List.mem_cons_self, hnode, Option.map_some]
    · simp only [Ne.symm hother, if_false, List.mem_cons, hother, false_or]
  journal_eq := by
    have hrest : redirections written.nodes root path = redirections table.nodes root path := by
      refine redirections_congr (fun visited hvisited => ?_) root
      rw [hread, if_neg]
      exact fun hsame => hbeyond (hsame ▸ hvisited)
    rw [h.journal_eq, hrest, hjournal, redirections, redirections, List.filterMap_cons]
    simp only [hnode, Option.bind_some, hmoved, if_false]
    rfl

/-- The way up is gone once more to its end, whatever fuel is left then. In the
    end all nodes that were left on it point at the root. -/
theorem compress_of_ascent {table : Table α} {index root : Nat} {path : List Nat}
    (hforest : Forest table.nodes) (hpath : Ascent table.nodes index path root)
    (hroot : IsRoot table.nodes root) :
    ∃ left, (∀ fuel > path.length, (compress root fuel index : TableM α δ Unit) table =
      .ok () left) ∧ table.Compressed path root left := by
  induction path generalizing index table with
  | nil =>
    cases hpath
    refine ⟨table, fun fuel hfuel => ?_, .refl hforest, fun other => by simp, rfl⟩
    obtain ⟨fuel, rfl⟩ := Nat.exists_eq_succ_of_ne_zero (Nat.ne_of_gt hfuel)
    simp only [compress, ne_eq, not_true_eq_false, if_false]
    rfl
  | cons current path ih =>
    obtain _ | @⟨_, _, node, _, hnode, hparent, hrest⟩ := hpath
    have hne : current ≠ root := fun hsame => hparent ((hsame ▸ hroot).parent_eq hnode)
    have hbeyond : current ∉ path := Ascent.not_mem_rest hnode hparent hrest hroot
    by_cases hflat : node.parent = root
    · obtain ⟨left, hrun, hmore⟩ := ih hforest hrest hroot
      refine ⟨left, fun fuel hfuel => ?_, hmore.skip hnode hflat hbeyond⟩
      obtain ⟨fuel, rfl⟩ := Nat.exists_eq_succ_of_ne_zero (Nat.ne_zero_of_lt hfuel)
      rw [compress_succ hnode hne]
      simp only [hflat, ne_eq, not_true_eq_false, if_false]
      exact hflat ▸ hrun fuel (Nat.lt_of_succ_lt_succ hfuel)
    · obtain ⟨written, hwrite, hwritten, hjournal⟩ : ∃ written,
          (update current fun node => { node with parent := root } : TableM α δ Unit) table =
              .ok () written ∧
            written.nodes = table.nodes.setIfInBounds current { node with parent := root } ∧
            written.journal = table.journal.record (.overwritten current node) :=
        ⟨_, update_of_some hnode _, rfl, rfl⟩
      have hshort := hforest.shortcut hnode ⟨hroot, _, .cons hnode hparent hrest⟩ hne
      have hread := getElem?_overwritten hnode { node with parent := root }
      -- The node itself does not lie on the rest of the way, which is therefore as it was.
      have hup : Ascent (table.nodes.setIfInBounds current { node with parent := root })
          node.parent path root := by
        refine hrest.congr fun visited hvisited => ?_
        rw [hread, if_neg]
        exact fun hsame => hbeyond (hsame ▸ hvisited)
      rw [← hwritten] at hshort hread hup
      obtain ⟨left, hrun, hmore⟩ := ih hshort.forest hup (hshort.hasRoot hroot.hasRoot).1
      refine ⟨left, fun fuel hfuel => ?_,
        hmore.write hshort hnode hflat hbeyond hread hjournal⟩
      obtain ⟨fuel, rfl⟩ := Nat.exists_eq_succ_of_ne_zero (Nat.ne_zero_of_lt hfuel)
      rw [compress_succ hnode hne]
      simp only [hflat, ne_eq, not_false_eq_true, if_true]
      rw [Action.bind_of_ok hwrite]
      exact hrun fuel (Nat.lt_of_succ_lt_succ hfuel)

/-- Both ways of a search end, whatever fuel above the number of nodes they are
    given, and the search with them. -/
theorem root_of_ascent {table : Table α} {index root : Nat} {path : List Nat}
    (hforest : Forest table.nodes) (hpath : Ascent table.nodes index path root)
    (hroot : IsRoot table.nodes root) :
    ∃ left, (Table.root index : TableM α δ Nat) table = .ok root left ∧
      (∀ fuel ≥ table.size, climb table.nodes fuel index = .ok root ∧
        (compress root fuel index : TableM α δ Unit) table = .ok () left) ∧
      table.Compressed path root left := by
  have hlength := hpath.length_lt_size hroot
  obtain ⟨left, hcompress, hleft⟩ := compress_of_ascent (δ := δ) hforest hpath hroot
  refine ⟨left, ?_, fun fuel hfuel => ?_, hleft⟩
  · rw [Table.root, Action.get_bind]
    simp only [climb_of_ascent hpath hroot (Nat.lt_succ_of_lt hlength)]
    rw [Action.bind_of_ok (hcompress _ (Nat.lt_succ_of_lt hlength))]
    rfl
  · have henough := Nat.lt_of_lt_of_le hlength hfuel
    exact ⟨climb_of_ascent hpath hroot henough, hcompress fuel henough⟩

theorem Compressed.shortened {table left : Table α} {index root : Nat} {path : List Nat}
    (h : table.Compressed path root left) (hpath : Ascent table.nodes index path root)
    (hroot : IsRoot table.nodes root) : Shortened table.nodes [index] left.nodes where
  toFlattened := h.toFlattened
  getElem?_cases := by
    intro other node hnode
    rw [h.getElem?_eq, hnode]
    split
    next hmem =>
      exact .inr ⟨index, List.mem_singleton_self index, path, root, hpath, hroot, hmem, rfl⟩
    next => exact .inl rfl

theorem root_of_hasRoot {table : Table α} {index root : Nat} (hforest : Forest table.nodes)
    (hroot : HasRoot table.nodes index root) :
    ∃ left, (Table.root index : TableM α δ Nat) table = .ok root left ∧
      Shortened table.nodes [index] left.nodes := by
  obtain ⟨htop, path, hpath⟩ := hroot
  obtain ⟨left, hrun, -, hleft⟩ := root_of_ascent (δ := δ) hforest hpath htop
  exact ⟨left, hrun, hleft.shortened hpath htop⟩

theorem flattened_of_root {table left : Table α} {index root : Nat} (hforest : Forest table.nodes)
    (hindex : index < table.size) (h : (Table.root index : TableM α δ Nat) table = .ok root left) :
    Flattened table.nodes left.nodes := by
  obtain ⟨top, htop⟩ := hforest.exists_root hindex
  obtain ⟨flat, hrun, hshort⟩ := root_of_hasRoot (δ := δ) hforest htop
  rw [hrun] at h
  cases h
  exact hshort.toFlattened

end Table

end Unification
