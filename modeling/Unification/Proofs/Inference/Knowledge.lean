import Unification.Proofs.Inference.Calls
import Unification.Proofs.Inference.Holds

namespace Unification

variable {nodes flat left : Array (Node Binding)} {facts : Set Fact} {fact : Fact}

/-- The order by bindings nominates two roots in some order, or leaves the choice. -/
theorem typeVars_nomination (a : Nat) (bindingA : Binding) (b : Nat) (bindingB : Binding) :
    ∃ nominated, typeVars.nomination a bindingA b bindingB = .ok nominated := by
  cases bindingA <;> cases bindingB <;>
    simp [KeyScheme.nomination, typeVars, Binding.order]

/-- A table says what follows from facts, and nothing else. -/
structure Explains (nodes : Array (Node Binding)) (facts : Set Fact) : Prop where
  forest : Forest nodes
  holds_iff : ∀ fact, Holds nodes fact ↔ Follows facts fact

namespace Explains

theorem empty : Explains #[] ∅ where
  forest := .empty
  holds_iff fact := by
    constructor
    · cases fact with
      | equal a b =>
        rintro (rfl | ⟨root, hA, -⟩)
        · exact .refl a
        · exact absurd hA.lt_size (Nat.not_lt_zero _)
      | denotes var type =>
        rintro ⟨root, node, hroot, -⟩
        exact absurd hroot.lt_size (Nat.not_lt_zero _)
    · exact Follows.sound (holds_theory _) (fun _ hmem => absurd hmem (Set.notMem_empty _))

/-- What a table says is consistent, as a root is bound to one type at most. -/
theorem consistent (h : Explains nodes facts) : Consistent facts :=
  fun _ _ _ hexpected hfound =>
    ((h.holds_iff _).mpr hexpected).denotes_unique ((h.holds_iff _).mpr hfound)

theorem flattened (h : Explains nodes facts) (hflat : Flattened nodes flat) :
    Explains flat facts where
  forest := hflat.forest
  holds_iff fact := (hflat.holds_iff h.forest).trans (h.holds_iff fact)

theorem push (h : Explains nodes facts) :
    Explains (nodes.push (.singleton nodes.size .unbound)) facts where
  forest := h.forest.push .unbound
  holds_iff fact := h.forest.holds_push_iff.trans (h.holds_iff fact)

theorem follows_insert (h : Explains nodes facts) (new : Fact) (hfact : Holds nodes fact) :
    Follows (insert new facts) fact :=
  ((h.holds_iff fact).mp hfact).mono (Set.subset_insert new facts)

/-- Nodes that say a new fact, and all that was said before, say what follows
    from them. -/
theorem holds_of_follows_insert (h : Explains nodes facts) {new : Fact} (hnew : Holds left new)
    (hkept : ∀ {other}, Holds nodes other → Holds left other)
    (hfact : Follows (insert new facts) fact) : Holds left fact := by
  refine hfact.sound (holds_theory left) fun other hmem => ?_
  rcases hmem with rfl | hmem
  · exact hnew
  · exact hkept ((h.holds_iff other).mpr (.of_mem hmem))

/-- A fact that the table says already may be taken in. -/
theorem insert_of_holds (h : Explains nodes facts) (hfact : Holds nodes fact) :
    Explains nodes (insert fact facts) where
  forest := h.forest
  holds_iff _ := ⟨h.follows_insert fact, h.holds_of_follows_insert hfact id⟩

section Linking

variable {survivor redirected : Nat} {merged : Binding}

/-- Two trees that are made one, or a tree whose root is bound, take a fact in
    if it makes all of their variables equal to one of them, and that one
    denotes the types that follow from the fact and those that it denoted. -/
private theorem insert_of_linked (h : Explains nodes facts)
    (hlinked : Linked nodes survivor redirected merged left) (center : TypeVar)
    (hfact : Holds left fact)
    (hcenter : ∀ {x : TypeVar} {root : Nat}, HasRoot nodes x.id root →
      (root = survivor ∨ root = redirected) → Follows (insert fact facts) (.equal center x))
    (hkept : ∀ {x : TypeVar} {root : Nat} {type : Ty}, HasRoot nodes x.id root →
      (root = survivor ∨ root = redirected) → Holds nodes (.denotes x type) → merged = .bound type)
    (hmerged : ∀ {type : Ty}, merged = .bound type →
      Follows (insert fact facts) (.denotes center type)) :
    Explains left (insert fact facts) where
  forest := hlinked.forest
  holds_iff other := by
    have htheory := follows_theory (insert fact facts)
    have hroots : ∀ {index root}, HasRoot left index root → ∃ root, HasRoot nodes index root :=
      fun hroot => h.forest.exists_root (hlinked.size_eq ▸ hroot.lt_size)
    constructor
    · cases other with
      | equal x y =>
        rintro (rfl | ⟨root, hX, hY⟩)
        · exact .refl x
        obtain ⟨rootX, hrootX⟩ := hroots hX
        obtain ⟨rootY, hrootY⟩ := hroots hY
        rcases (hlinked.holds_equal_iff hrootX hrootY).mp (.inr ⟨root, hX, hY⟩) with
          hsame | ⟨hsideX, hsideY⟩
        · exact h.follows_insert fact hsame
        · exact htheory.trans (htheory.symm (hcenter hrootX hsideX)) (hcenter hrootY hsideY)
      | denotes x type =>
        rintro ⟨root, node, hX, hnode, hvalue⟩
        obtain ⟨rootX, hrootX⟩ := hroots hX
        have hdenotes := (hlinked.holds_denotes_iff hrootX).mp ⟨root, node, hX, hnode, hvalue⟩
        split at hdenotes
        next hside => exact htheory.carry (hcenter hrootX hside) (hmerged hdenotes)
        next => exact h.follows_insert fact hdenotes
    · exact h.holds_of_follows_insert hfact (hlinked.holds_of_holds hkept)

theorem joined (h : Explains nodes facts) {a b : TypeVar} {rootA rootB : Nat}
    {nodeA nodeB : Node Binding} (hA : HasRoot nodes a.id rootA) (hB : HasRoot nodes b.id rootB)
    (hnodeA : nodes[rootA]? = some nodeA) (hnodeB : nodes[rootB]? = some nodeB)
    (hmerge : Binding.merge nodeA.value nodeB.value = .ok merged)
    (hpair : (survivor, redirected) = (rootA, rootB) ∨ (survivor, redirected) = (rootB, rootA))
    (hlinked : Linked nodes survivor redirected merged left) :
    Explains left (insert (.equal a b) facts) := by
  have hside : ∀ {root}, (root = survivor ∨ root = redirected) ↔ (root = rootA ∨ root = rootB) := by
    intro root
    rcases hpair with hpair | hpair
    · cases hpair
      exact Iff.rfl
    · cases hpair
      exact or_comm
  have htheory := follows_theory (insert (.equal a b) facts)
  have hnew : Follows (insert (.equal a b) facts) (.equal a b) := .of_mem (Set.mem_insert _ facts)
  refine h.insert_of_linked hlinked a ?_ ?_ ?_ ?_
  · exact (hlinked.holds_equal_iff hA hB).mpr
      (.inr ⟨hside.mpr (.inl rfl), hside.mpr (.inr rfl)⟩)
  · intro x root hX hroot
    rcases hside.mp hroot with rfl | rfl
    · exact h.follows_insert _ (.inr ⟨root, hA, hX⟩)
    · exact htheory.trans hnew (h.follows_insert _ (.inr ⟨root, hB, hX⟩))
  · intro x root type hX hroot hdenotes
    rw [Binding.eq_bound_iff_of_merge hmerge]
    rcases hside.mp hroot with rfl | rfl
    · exact .inl ((hX.holds_denotes_iff hnodeA).mp hdenotes)
    · exact .inr ((hX.holds_denotes_iff hnodeB).mp hdenotes)
  · intro type hmerged
    rcases (Binding.eq_bound_iff_of_merge hmerge).mp hmerged with hvalue | hvalue
    · exact h.follows_insert _ ((hA.holds_denotes_iff hnodeA).mpr hvalue)
    · have hdenotes := h.follows_insert (.equal a b) ((hB.holds_denotes_iff hnodeB).mpr hvalue)
      exact htheory.carry (htheory.symm hnew) hdenotes

theorem revalued (h : Explains nodes facts) {var : TypeVar} {type : Ty} {root : Nat}
    {node : Node Binding} (hvar : HasRoot nodes var.id root) (hnode : nodes[root]? = some node)
    (hmerge : Binding.merge node.value (.bound type) = .ok merged)
    (hlinked : Linked nodes root root merged left) :
    Explains left (insert (.denotes var type) facts) := by
  refine h.insert_of_linked hlinked var ?_ ?_ ?_ ?_
  · rw [hlinked.holds_denotes_iff hvar, if_pos (.inl rfl)]
    exact (Binding.eq_bound_iff_of_merge hmerge).mpr (.inr rfl)
  · intro x top hX htop
    obtain rfl := or_self_iff.mp htop
    exact h.follows_insert _ (.inr ⟨top, hvar, hX⟩)
  · intro x top other hX htop hdenotes
    obtain rfl := or_self_iff.mp htop
    exact (Binding.eq_bound_iff_of_merge hmerge).mpr
      (.inl ((hX.holds_denotes_iff hnode).mp hdenotes))
  · intro other hmerged
    rcases (Binding.eq_bound_iff_of_merge hmerge).mp hmerged with hvalue | hvalue
    · exact h.follows_insert _ ((hvar.holds_denotes_iff hnode).mpr hvalue)
    · cases hvalue
      exact .of_mem (Set.mem_insert _ facts)

end Linking

end Explains

/-- How a table that says what follows from facts answers to another fact: it
    takes it in, or it names two types that contradict each other and says what
    it said before. -/
inductive Answers (facts : Set Fact) (fact : Fact) (table : Table Binding) : Prop where
  | accepted {left : Table Binding} (hrun : fact.operation.run typeVars table = .ok .done left)
      (hsize : left.size = table.size) (hleft : Explains left.nodes (insert fact facts))
  | rejected {mismatch : TypeMismatch} {left : Table Binding}
      (hcontradicts : fact.Contradicts facts mismatch)
      (hrun : fact.operation.run typeVars table = .error (.refused (.mergeConflict mismatch)) left)
      (hflat : Flattened table.nodes left.nodes)

namespace Explains

variable {table : Table Binding}

private theorem answers_equal (h : Explains table.nodes facts) {a b : TypeVar}
    (ha : a.id < table.size) (hb : b.id < table.size) : Answers facts (.equal a b) table := by
  obtain ⟨rootA, hA⟩ := h.forest.exists_root ha
  obtain ⟨rootB, hB⟩ := h.forest.exists_root hb
  by_cases hsame : rootA = rootB
  · subst hsame
    obtain ⟨left, hrun, hflat⟩ := Table.union_of_same typeVars h.forest hA hB
    have hfact : Holds left.nodes (.equal a b) := .inr ⟨rootA, hflat.hasRoot hA, hflat.hasRoot hB⟩
    exact .accepted (Action.map_of_ok hrun) hflat.size_eq
      ((h.flattened hflat).insert_of_holds hfact)
  obtain ⟨nodeA, hnodeA, -⟩ := hA.1
  obtain ⟨nodeB, hnodeB, -⟩ := hB.1
  cases hmerge : Binding.merge nodeA.value nodeB.value with
  | error mismatch =>
    obtain ⟨left, hrun, hshort⟩ :=
      Table.union_of_conflict typeVars h.forest hA hB hsame hnodeA hnodeB hmerge
    obtain ⟨hexpected, hfound, hne⟩ := Binding.merge_eq_error_iff.mp hmerge
    have hcontradicts : (Fact.equal a b).Contradicts facts mismatch :=
      ⟨(h.holds_iff _).mp ((hA.holds_denotes_iff hnodeA).mpr hexpected),
        (h.holds_iff _).mp ((hB.holds_denotes_iff hnodeB).mpr hfound), hne⟩
    exact .rejected hcontradicts (Action.map_of_error hrun) hshort.toFlattened
  | ok merged =>
    obtain ⟨nominated, hnomination⟩ := typeVars_nomination rootA nodeA.value rootB nodeB.value
    obtain ⟨_, _, _, _, flat, left, hsurvival, -, -, hrun, hflat, hcrowned⟩ :=
      Table.union_of_ok typeVars h.forest hA hB hsame hnodeA hnodeB hmerge hnomination
    have hleft := (h.flattened hflat).joined (hflat.hasRoot hA) (hflat.hasRoot hB)
      (hflat.getElem?_root hA.1 hnodeA) (hflat.getElem?_root hB.1 hnodeB) hmerge
      (KeyScheme.survival_cases hsurvival) hcrowned.toLinked
    exact .accepted (Action.map_of_ok hrun) (hcrowned.size_eq.trans hflat.size_eq) hleft

private theorem answers_denotes (h : Explains table.nodes facts) {var : TypeVar} (type : Ty)
    (hvar : var.id < table.size) : Answers facts (.denotes var type) table := by
  obtain ⟨root, hroot⟩ := h.forest.exists_root hvar
  obtain ⟨node, hnode, -⟩ := hroot.1
  cases hmerge : Binding.merge node.value (.bound type) with
  | error mismatch =>
    obtain ⟨left, hrun, hshort⟩ :=
      Table.unionValue_of_conflict typeVars h.forest hroot hnode hmerge
    obtain ⟨hexpected, hfound, hne⟩ := Binding.merge_eq_error_iff.mp hmerge
    have hcontradicts : (Fact.denotes var type).Contradicts facts mismatch :=
      ⟨(h.holds_iff _).mp ((hroot.holds_denotes_iff hnode).mpr hexpected),
        (Binding.bound.inj hfound).symm, hne⟩
    exact .rejected hcontradicts (Action.map_of_error hrun) hshort.toFlattened
  | ok merged =>
    obtain ⟨flat, left, hrun, hflat, hcrowned⟩ :=
      Table.unionValue_of_ok typeVars h.forest hroot hnode hmerge
    have hleft := (h.flattened hflat).revalued (hflat.hasRoot hroot)
      (hflat.getElem?_root hroot.1 hnode) hmerge hcrowned.toLinked
    exact .accepted (Action.map_of_ok hrun) (hcrowned.size_eq.trans hflat.size_eq) hleft

/-- A fact about known variables is taken in unless it contradicts what the
    table says. The order of roots never stands in the way. -/
theorem answers (h : Explains table.nodes facts) (hknown : fact.Known table.size) :
    Answers facts fact table := by
  cases fact with
  | equal a b => exact h.answers_equal hknown.1 hknown.2
  | denotes var type => exact h.answers_denotes type hknown

end Explains

end Unification
