import Unification.Keys.Numbering
import Unification.Keys.RootOrder
import Unification.Payload.Number
import Unification.Proofs.Forest.Reachable

namespace Unification

variable {κ α ε δ β : Type}

/-- All that a search does to a table when it goes up a path to a root: it points
    the nodes on the path at the root, and journals those that did not do so. -/
structure Table.SearchedUp (table : Table α) (path : List Nat) (root : Nat) (left : Table α) :
    Prop where
  size_eq : left.size = table.size
  parent_eq : ∀ visited ∈ path ++ [root], ∃ node, left.nodes[visited]? = some node ∧
    node.parent = root
  getElem?_other : ∀ other ∉ path, left.nodes[other]? = table.nodes[other]?
  /-- No rank and no value changes. -/
  exists_parent : ∀ (index : Nat) (node : Node α), table.nodes[index]? = some node →
    ∃ parent, left.nodes[index]? = some { node with parent }
  /-- Whatever hangs off the path, however far below it, keeps its root. -/
  hasRoot_iff : ∀ index top, HasRoot left.nodes index top ↔ HasRoot table.nodes index top
  rank_lt : ∀ (index : Nat) (node : Node α), left.nodes[index]? = some node →
    node.parent ≠ index → ∃ parent, left.nodes[node.parent]? = some parent ∧ node.rank < parent.rank
  journal_of_open : table.journal.inSnapshot → left.journal =
    { table.journal with
      entries := table.journal.entries ++ (redirections table.nodes root path).toArray }
  journal_of_closed : ¬ table.journal.inSnapshot → left.journal = table.journal

theorem Journal.recordAll_of_open {journal : Journal α} (h : journal.inSnapshot)
    (entries : List (Entry α)) :
    journal.recordAll entries =
      { journal with entries := journal.entries ++ entries.toArray } := by
  have hframes : journal.frames ≠ [] := fun hnone => by simp [inSnapshot, hnone] at h
  have hentries : (journal.recordAll entries).entries = journal.entries ++ entries.toArray :=
    Array.toList_inj.mp (by simp [entries_recordAll hframes])
  rw [← hentries, ← journal.frames_recordAll entries, ← journal.nextId_recordAll entries]

namespace Table.Compressed

variable {table left : Table α} {path : List Nat} {index root : Nat}

theorem searchedUp (h : table.Compressed path root left) (hforest : Forest table.nodes)
    (hpath : Ascent table.nodes index path root) (hroot : IsRoot table.nodes root) :
    table.SearchedUp path root left where
  size_eq := h.size_eq
  parent_eq := by
    intro visited hvisited
    rw [h.getElem?_eq]
    rcases List.mem_append.mp hvisited with hmem | hmem
    · obtain ⟨node, hnode, -⟩ := hpath.exists_of_mem visited hmem
      rw [if_pos hmem, hnode]
      exact ⟨_, rfl, rfl⟩
    · obtain rfl := List.mem_singleton.mp hmem
      rw [if_neg (hpath.not_mem_of_isRoot hroot)]
      exact hroot
  getElem?_other := fun other hother => by rw [h.getElem?_eq, if_neg hother]
  exists_parent := fun _ _ hnode => h.exists_parent hnode
  hasRoot_iff := fun _ _ => h.hasRoot_iff hforest
  rank_lt := fun index node hnode hparent => (h.forest index node hnode).resolve_left hparent
  journal_of_open := fun hopen => h.journal_eq.trans (Journal.recordAll_of_open hopen _)
  journal_of_closed := fun hclosed => by
    rw [h.journal_eq]
    exact Journal.recordAll_of_closed
      (Journal.inSnapshot_eq_false_iff.mp (Bool.eq_false_iff.mpr hclosed)) _

/-- A search that finds all nodes on its way point at the root has nothing to do. -/
theorem eq_self (h : table.Compressed path root left)
    (hflat : ∀ visited ∈ path, ∃ node, table.nodes[visited]? = some node ∧ node.parent = root) :
    left = table := by
  have hnodes : left.nodes = table.nodes := by
    apply Array.ext_getElem?
    intro other
    rw [h.getElem?_eq]
    split
    next hmem =>
      obtain ⟨node, hnode, rfl⟩ := hflat other hmem
      rw [hnode, Option.map_some]
    next => rfl
  have hentries : redirections table.nodes root path = [] := by
    refine List.filterMap_eq_nil_iff.mpr fun visited hvisited => ?_
    obtain ⟨node, hnode, hparent⟩ := hflat visited hvisited
    rw [hnode, Option.bind_some, if_pos hparent]
  have hjournal : left.journal = table.journal := by
    rw [h.journal_eq, hentries]
    rfl
  cases left
  cases table
  simp only at hnodes hjournal
  rw [hnodes, hjournal]

/-- Another search from a node on the way finds the same root next to it. -/
theorem root_again (h : table.Compressed path root left)
    (hpath : Ascent table.nodes index path root) (hroot : IsRoot table.nodes root) :
    ∀ visited ∈ path ++ [root], (Table.root visited : TableM α δ Nat) left = .ok root left := by
  have htop : IsRoot left.nodes root := (h.hasRoot hroot.hasRoot).1
  intro visited hvisited
  obtain ⟨way, hway, hflat⟩ : ∃ way, Ascent left.nodes visited way root ∧
      ∀ other ∈ way, ∃ node, left.nodes[other]? = some node ∧ node.parent = root := by
    rcases List.mem_append.mp hvisited with hmem | hmem
    · obtain ⟨node, hnode, -⟩ := hpath.exists_of_mem visited hmem
      have hmoved : left.nodes[visited]? = some { node with parent := root } := by
        rw [h.getElem?_eq, if_pos hmem, hnode, Option.map_some]
      have hne : root ≠ visited := fun hsame =>
        hpath.not_mem_of_isRoot hroot (hsame ▸ hmem)
      refine ⟨[visited], .cons hmoved hne (.nil root), fun other hother => ?_⟩
      obtain rfl := List.mem_singleton.mp hother
      exact ⟨_, hmoved, rfl⟩
    · obtain rfl := List.mem_singleton.mp hmem
      exact ⟨[], .nil visited, fun other hother => absurd hother List.not_mem_nil⟩
  obtain ⟨last, hrun, -, hlast⟩ := root_of_ascent (δ := δ) h.forest hway htop
  rwa [hlast.eq_self hflat] at hrun

end Table.Compressed

/-- In every table that programs reach, parents are nodes of the table, ranks
    grow from every node to its parent, and the rank of a node bounds the height
    of the tree below it. So parents make no cycle, and both ways of a search
    end at the one root above its node, whatever fuel they are given that is not
    less than the number of nodes. The second one then has pointed all nodes on
    the way at the root that the first one has found. -/
theorem Program.search_terminates (keys : KeyScheme κ α ε) (program : Program κ α ε δ β) :
    let table := Action.after (program.run keys) {}
    (∀ (index : Nat) (node : Node α), table.nodes[index]? = some node →
      node.parent < table.size ∧
      (node.parent ≠ index →
        ∃ parent, table.nodes[node.parent]? = some parent ∧ node.rank < parent.rank) ∧
      ∃ height, IsGreatest (depthsBelow table.nodes index) height ∧ height ≤ node.rank) ∧
    (∀ (index : Nat) (path : List Nat), Ascent table.nodes index path index → path = []) ∧
    ∀ index < table.size, ∃ root left, HasRoot table.nodes index root ∧
      (Table.root index : TableM α δ Nat) table = .ok root left ∧
      (∃ path, Ascent table.nodes index path root ∧ table.SearchedUp path root left) ∧
      ∀ fuel ≥ table.size, Table.climb table.nodes fuel index = .ok root ∧
        (Table.compress root fuel index : TableM α δ Unit) table = .ok () left := by
  intro table
  have hforest : Forest table.nodes := program.forest keys
  refine ⟨fun index node hnode => ?_, fun index path hpath => hforest.path_eq_nil hpath,
    fun index hindex => ?_⟩
  · exact ⟨hforest.parent_lt hnode, fun hne => (hforest index node hnode).resolve_left hne,
      hforest.exists_height hnode⟩
  · obtain ⟨root, htop, path, hpath⟩ := hforest.exists_root hindex
    obtain ⟨left, hrun, hways, hleft⟩ := Table.root_of_ascent (δ := δ) hforest hpath htop
    exact ⟨root, left, ⟨htop, path, hpath⟩, hrun,
      ⟨path, hpath, hleft.searchedUp hforest hpath htop⟩, hways⟩

/-- Searches compress the whole way up, and nothing else. In every table that
    programs reach, a search from a node finds the one root above it. It leaves
    the nodes on the way pointing at that root and all other nodes as they were,
    so that every node of the table keeps its root, its rank and its value. Each
    node that did not point at the root is journaled once, in the order of the
    way. Another search from any node on the way has nothing left to do. -/
theorem Program.search_compresses (keys : KeyScheme κ α ε) (program : Program κ α ε δ β)
    {index : Nat} (hindex : index < (Action.after (program.run keys) {}).size) (φ : Type) :
    let table := Action.after (program.run keys) {}
    ∃ path root left, Ascent table.nodes index path root ∧ path.Nodup ∧
      IsRoot table.nodes root ∧ (∀ other, HasRoot table.nodes index other → other = root) ∧
      (Table.root index : TableM α φ Nat) table = .ok root left ∧ table.SearchedUp path root left ∧
      ∀ visited ∈ path ++ [root], (Table.root visited : TableM α φ Nat) left = .ok root left := by
  intro table
  have hforest : Forest table.nodes := program.forest keys
  obtain ⟨root, hroot⟩ := hforest.exists_root hindex
  obtain ⟨htop, path, hpath⟩ := id hroot
  obtain ⟨left, hrun, -, hleft⟩ := Table.root_of_ascent (δ := φ) hforest hpath htop
  exact ⟨path, root, left, hpath, hpath.nodup htop, htop, fun _ hother => hother.unique hroot,
    hrun, hleft.searchedUp hforest hpath htop, hleft.root_again hpath htop⟩

/-- A way past three nodes to the root 3, which one of them points at already. The
    entries of the two others follow those that the snapshot has kept so far. -/
theorem Program.search_compresses_chain :
    let keys := KeyScheme.of Number.payload Numbering.direct "number" RootOrder.second
    let program : Program UInt32 Number NumberConflict Unit Unit :=
      .call (.newKey .unset) fun _ => .call (.newKey ⟨5⟩) fun _ => .call (.newKey .unset) fun _ =>
      .call (.newKey .unset) fun _ => .call (.union 0 1) fun _ => .call .snapshot fun _ =>
      .call (.union 1 2) fun _ => .call (.union 2 3) fun _ => .finish (.ok ())
    let table := Action.after (program.run keys) {}
    0 < table.size ∧ ∃ left, (Table.root 0 : TableM Number Unit Nat) table = .ok 3 left ∧
      table.SearchedUp [0, 1, 2] 3 left ∧
      redirections table.nodes 3 [0, 1, 2] = [.overwritten 0 ⟨1, 0, .unset⟩,
        .overwritten 1 ⟨2, 1, ⟨5⟩⟩] ∧
      ∀ visited ∈ [0, 1, 2, 3],
        (Table.root visited : TableM Number Unit Nat) left = .ok 3 left := by
  intro keys program table
  have hindex : 0 < table.size := by decide +kernel
  have hnodes : table.nodes = #[⟨1, 0, .unset⟩, ⟨2, 1, ⟨5⟩⟩, ⟨3, 2, ⟨5⟩⟩, ⟨3, 3, ⟨5⟩⟩] := by
    decide +kernel
  have hway : Ascent table.nodes 0 [0, 1, 2] 3 := by
    rw [hnodes]
    exact .cons rfl (by decide) (.cons rfl (by decide) (.cons rfl (by decide) (.nil 3)))
  have htop : IsRoot table.nodes 3 := by
    rw [hnodes]
    exact ⟨_, rfl, rfl⟩
  obtain ⟨path, root, left, hpath, -, hroot, -, hrun, hleft, hagain⟩ :=
    Program.search_compresses keys program hindex Unit
  obtain ⟨rfl, rfl⟩ := hpath.unique hroot hway htop
  refine ⟨hindex, left, hrun, hleft, ?_, hagain⟩
  rw [hnodes]
  rfl

end Unification
