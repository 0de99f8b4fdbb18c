import Mathlib.Tactic.IntervalCases
import Unification.Proofs.Forest.Reachable
import Unification.Proofs.Inference.Speculation
import Unification.Proofs.Snapshot.Handles

namespace Unification

variable {nodes flat left : Array (Node Binding)} {var : TypeVar} {root survivor redirected : Nat}
  {type : Ty} {merged : Binding}

/-- Of a bound root and an unbound one the bound one survives, in whatever order
    they come and of whatever rank they are. -/
theorem typeVars_survival {a b : Nat} {nodeA nodeB : Node Binding} (hA : nodeA.value = .bound type)
    (hB : nodeB.value = .unbound) :
    typeVars.survival a nodeA b nodeB = .ok (a, b) ∧
      typeVars.survival b nodeB a nodeA = .ok (a, b) := by
  constructor <;> simp [KeyScheme.survival, KeyScheme.nomination, typeVars, Binding.order, hA, hB,
    Functor.map, Except.map]

/-- A root that is bound to a type, above the node of a variable. -/
structure BoundUnder (var : TypeVar) (root : Nat) (type : Ty) (nodes : Array (Node Binding)) :
    Prop where
  forest : Forest nodes
  hasRoot : HasRoot nodes var.id root
  exists_node : ∃ node, nodes[root]? = some node ∧ node.value = .bound type

namespace BoundUnder

theorem flattened (h : BoundUnder var root type nodes) (hflat : Flattened nodes flat) :
    BoundUnder var root type flat where
  forest := hflat.forest
  hasRoot := hflat.hasRoot h.hasRoot
  exists_node := h.exists_node.imp fun _ ⟨hnode, hvalue⟩ =>
    ⟨hflat.getElem?_root h.hasRoot.1 hnode, hvalue⟩

theorem push (h : BoundUnder var root type nodes) (binding : Binding) :
    BoundUnder var root type (nodes.push (.singleton nodes.size binding)) where
  forest := h.forest.push binding
  hasRoot := h.hasRoot.push _
  exists_node := h.exists_node.imp fun _ ⟨hnode, hvalue⟩ => by
    rw [Array.getElem?_push, if_neg (Nat.ne_of_lt h.hasRoot.1.lt_size)]
    exact ⟨hnode, hvalue⟩

/-- The root stays if it survives with the type that it is bound to, or if it is
    none of the two that are joined. -/
theorem linked (h : BoundUnder var root type nodes)
    (hlinked : Linked nodes survivor redirected merged left)
    (hside : root = survivor ∧ merged = .bound type ∨ root ≠ survivor ∧ root ≠ redirected) :
    BoundUnder var root type left where
  forest := hlinked.forest
  hasRoot := by
    have hroot := hlinked.hasRoot h.hasRoot
    rcases hside with ⟨rfl, -⟩ | ⟨-, hother⟩
    · rwa [ite_self] at hroot
    · rwa [if_neg hother] at hroot
  exists_node := by
    rcases hside with ⟨rfl, rfl⟩ | ⟨hother, hother'⟩
    · exact hlinked.exists_survivor
    · rw [hlinked.getElem?_other hother hother']
      exact h.exists_node

/-- A bound root stays the root of its class in every call, unless the class is
    joined with another one that is bound. -/
theorem effect {operation : Operation TypeVar Binding}
    {outcome : Except (Failure InferenceError) (TableAnswer TypeVar Binding)}
    (h : BoundUnder var root type nodes) (heffect : Effect typeVars nodes operation outcome left)
    (hother : ∀ a b, operation = .union a b → outcome = .ok .done →
      ∀ own other, (own, other) = (a, b) ∨ (own, other) = (b, a) → HasRoot nodes own.id root →
        ∀ otherRoot node, HasRoot nodes other.id otherRoot → otherRoot ≠ root →
          nodes[otherRoot]? = some node → node.value = .unbound) :
    BoundUnder var root type left := by
  obtain ⟨node, hnode, hvalue⟩ := h.exists_node
  cases heffect with
  | refused _ hflat | find _ hflat | probe _ _ hflat | unioned _ _ hflat | same _ _ hflat =>
    exact h.flattened hflat
  | reserve => exact h
  | newKey binding => exact h.push binding
  | @joined a b rootA rootB _ _ nodeA nodeB _ _ _ _ _ hA hB hne hnodeA hnodeB hmerge hsurvival _ _
      hflat hcrowned =>
    refine (h.flattened hflat).linked hcrowned.toLinked ?_
    -- The other class is unbound, on whichever side of the union the bound one is.
    by_cases hrootA : root = rootA
    · subst hrootA
      obtain rfl := Option.some.inj (hnode.symm.trans hnodeA)
      have hunbound := hother a b rfl rfl a b (.inl rfl) hA rootB nodeB hB (Ne.symm hne) hnodeB
      cases (typeVars_survival hvalue hunbound).1.symm.trans hsurvival
      rw [hunbound] at hmerge
      cases (Binding.merge_unbound node.value).symm.trans hmerge
      exact .inl ⟨rfl, hvalue⟩
    by_cases hrootB : root = rootB
    · subst hrootB
      obtain rfl := Option.some.inj (hnode.symm.trans hnodeB)
      have hunbound := hother a b rfl rfl b a (.inr rfl) hB rootA nodeA hA hne hnodeA
      cases (typeVars_survival hvalue hunbound).2.symm.trans hsurvival
      rw [hunbound] at hmerge
      cases (Binding.unbound_merge node.value).symm.trans hmerge
      exact .inl ⟨rfl, hvalue⟩
    · rcases KeyScheme.survival_cases hsurvival with hpair | hpair <;> cases hpair
      · exact .inr ⟨hrootA, hrootB⟩
      · exact .inr ⟨hrootB, hrootA⟩
  | @revalued _ _ _ valued old _ _ hroot hold hmerge hflat hcrowned =>
    refine (h.flattened hflat).linked hcrowned.toLinked ?_
    by_cases hsame : root = valued
    · subst hsame
      obtain rfl := Option.some.inj (hnode.symm.trans hold)
      exact .inl ⟨rfl, (Binding.eq_bound_iff_of_merge hmerge).mpr (.inl hvalue)⟩
    · exact .inr ⟨hsame, hsame⟩

end BoundUnder

namespace History

variable {history : List (Operation TypeVar Binding)} {since position : Nat}

/-- A call that can give the class of a variable another representative, though
    the class was bound at an earlier position: it rolls back a snapshot that was
    opened before that position, or it joins the class with another bound one. -/
inductive Displaces (history : List (Operation TypeVar Binding)) (since : Nat) (var : TypeVar)
    (position : Nat) : Prop where
  | rolledBack {opening : Nat} {handle : Snapshot} (hbefore : opening < since)
      (hopens : Opens typeVars history opening handle)
      (hanswers : Answers typeVars history position (.rollback handle) .done) :
      Displaces history since var position
  | joined {a b own other : TypeVar} {type : Ty}
      (hanswers : Answers typeVars history position (.union a b) .done)
      (hpair : (own, other) = (a, b) ∨ (own, other) = (b, a))
      (hown : Action.outcome (Table.unioned typeVars own var)
        (tableAt typeVars history position) = .ok true)
      (hother : Action.outcome (Table.unioned typeVars other var)
        (tableAt typeVars history position) = .ok false)
      (hbound : Action.outcome (Table.probe typeVars other)
        (tableAt typeVars history position) = .ok (.bound type)) :
      Displaces history since var position

/-- A union with a class that is not bound displaces no representative. -/
theorem value_eq_unbound {a b own other : TypeVar} {otherRoot : Nat} {node : Node Binding}
    (h : BoundUnder var root type (tableAt typeVars history position).nodes)
    (hkept : ¬ Displaces history since var position)
    (hanswers : Answers typeVars history position (.union a b) .done)
    (hpair : (own, other) = (a, b) ∨ (own, other) = (b, a))
    (hown : HasRoot (tableAt typeVars history position).nodes own.id root)
    (hother : HasRoot (tableAt typeVars history position).nodes other.id otherRoot)
    (hne : otherRoot ≠ root)
    (hnode : (tableAt typeVars history position).nodes[otherRoot]? = some node) :
    node.value = .unbound := by
  obtain ⟨_, hsame, -⟩ := Table.unioned_of_hasRoot typeVars h.forest hown h.hasRoot
  obtain ⟨_, hdifferent, -⟩ := Table.unioned_of_hasRoot typeVars h.forest hother h.hasRoot
  obtain ⟨_, hprobe, -⟩ := Table.probe_of_hasRoot typeVars h.forest hother hnode
  rw [beq_self_eq_true] at hsame
  rw [beq_false_of_ne hne] at hdifferent
  cases hvalue : node.value with
  | unbound => rfl
  | bound otherType =>
    rw [hvalue] at hprobe
    exact absurd (.joined hanswers hpair (Action.outcome_of_ok hsame)
      (Action.outcome_of_ok hdifferent) (Action.outcome_of_ok hprobe)) hkept

/-- A table that may be restored has a variable bound under a root, or else only
    rolling back a snapshot restores it that was opened before a position. -/
def KeptOrBefore (history : List (Operation TypeVar Binding)) (since : Nat) (var : TypeVar)
    (root : Nat) (type : Ty) (start : Table Binding) : Prop :=
  BoundUnder var root type start.nodes ∨ ∃ opening handle, opening < since ∧
    Opens typeVars history opening handle ∧ handle.id = start.journal.nextId

/-- At a position of a history a variable is bound under a root, and so it is in
    all tables that can be restored by rolling back snapshots opened since. -/
structure KeepsRoot (history : List (Operation TypeVar Binding)) (since : Nat) (var : TypeVar)
    (root : Nat) (type : Ty) (position : Nat) : Prop where
  boundUnder : BoundUnder var root type (tableAt typeVars history position).nodes
  exists_starts : ∃ starts, Savepoints (tableAt typeVars history position) starts ∧
    ∀ start ∈ starts, KeptOrBefore history since var root type start

namespace KeepsRoot

/-- At first all tables that can be restored are those of earlier positions. -/
theorem of_boundUnder (h : BoundUnder var root type (tableAt typeVars history since).nodes) :
    KeepsRoot history since var root type since where
  boundUnder := h
  exists_starts := by
    obtain ⟨positions, hpositions⟩ := exists_openings typeVars (history.take since)
    refine ⟨_, hpositions.savepoints, fun start hstart => .inr ?_⟩
    obtain ⟨opening, hopening, rfl⟩ := List.mem_map.mp hstart
    obtain ⟨handle, hopen⟩ := (hpositions.mem_iff opening).mp hopening
    have hopens : Opens typeVars (history.take since ++ history.drop since) opening handle :=
      hopen.opens.append
    rw [List.take_append_drop] at hopens
    exact ⟨opening, handle, Nat.lt_of_lt_of_le hopen.opens.lt_length (List.length_take_le _ _),
      hopens, hopen.opens.id_eq⟩

/-- A call that does not displace the representative keeps it. -/
theorem succ {operation : Operation TypeVar Binding}
    (h : KeepsRoot history since var root type position)
    (hcall : history[position]? = some operation)
    (hkept : ¬ Displaces history since var position) :
    KeepsRoot history since var root type (position + 1) := by
  obtain ⟨hbound, starts, hsavepoints, hstarts⟩ := h
  by_cases hplain : operation.isPlain
  · obtain ⟨outcome, left, hrun, heffect⟩ :=
      operation.exists_effect typeVars _ hplain hbound.forest
    have hanswers := Action.outcome_of_eq_ending hrun
    have hleft := (hsavepoints.after_of_journaled (operation.journaled typeVars hplain)).1
    rw [← tableAt_succ hcall] at hleft
    refine ⟨?_, starts, hleft, hstarts⟩
    rw [tableAt_succ hcall, Action.after_of_eq_ending hrun]
    refine hbound.effect heffect fun a b hunion hok own other hpair hown otherRoot node => ?_
    subst hunion hok
    exact value_eq_unbound hbound hkept ⟨hcall, hanswers⟩ hpair hown
  obtain ⟨left, rest, hleft, hturn⟩ := hsavepoints.snapshotCall typeVars hplain
  rw [← tableAt_succ hcall] at hleft
  subst hleft
  generalize hafter : tableAt typeVars history (position + 1) = left at hturn
  cases hturn with
  | snapshot =>
    refine ⟨hafter ▸ hbound, _, hafter ▸ hsavepoints.opened, fun start hstart => ?_⟩
    cases hstart with
    | head => exact .inl hbound
    | tail _ hstart => exact hstarts start hstart
  | commit _ hnodes _ hrest =>
    refine ⟨?_, _, hafter ▸ hrest, fun start hstart => hstarts start (.tail _ hstart)⟩
    rwa [hafter, hnodes]
  | @rollback start _ _ hrun hnodes _ hrest =>
    refine ⟨?_, _, hafter ▸ hrest, fun start hstart => hstarts start (.tail _ hstart)⟩
    rw [hafter, hnodes]
    -- No table from before can be restored, as that would displace the representative.
    rcases hstarts start (.head _) with hstart | ⟨opening, ⟨_⟩, hbefore, hopens, rfl⟩
    · exact hstart
    · exact absurd (.rolledBack hbefore hopens
        ⟨hcall, Action.outcome_of_ok (Action.map_of_ok hrun)⟩) hkept
  | unchanged => exact ⟨hafter ▸ hbound, starts, hafter ▸ hsavepoints, hstarts⟩

theorem of_le (h : KeepsRoot history since var root type since)
    (hkept : ∀ position ≥ since, ¬ Displaces history since var position) :
    ∀ later ≥ since, KeepsRoot history since var root type later := by
  intro later hlater
  induction later, hlater using Nat.le_induction with
  | base => exact h
  | succ later hlater ih =>
    cases hcall : history[later]? with
    | none =>
      have hsame : tableAt typeVars history (later + 1) = tableAt typeVars history later :=
        tableAt_succ_of_none hcall
      obtain ⟨hbound, hstarts⟩ := ih
      exact ⟨hsame ▸ hbound, hsame ▸ hstarts⟩
    | some operation => exact ih.succ hcall (hkept later hlater)

end KeepsRoot

/-- The class of a type variable that is bound keeps its representative, whatever
    is called: it grows by unions in either order with classes of any rank, unions
    fail, ways up are shortened, and snapshots are rolled back that were opened
    since. Only two things can change the representative: to roll back a snapshot
    that was opened before, and to join the class with another one that is bound.
    The calls of programs are calls like these, speculations included. -/
theorem bound_keeps_representative (history : List (Operation TypeVar Binding)) (since : Nat)
    {var representative : TypeVar} {type : Ty}
    (hfind : Action.outcome (Table.find typeVars var) (tableAt typeVars history since) =
      .ok representative)
    (hbound : Action.outcome (Table.probe typeVars var) (tableAt typeVars history since) =
      .ok (.bound type))
    (hkept : ∀ position ≥ since, ¬ Displaces history since var position) :
    (∀ later ≥ since,
      Action.outcome (Table.find typeVars var) (tableAt typeVars history later) =
        .ok representative ∧
      ∀ errors, Action.outcome (Inference.representative var)
        { table := tableAt typeVars history later, errors } = .ok representative) ∧
    (∀ {δ β : Type} (program : Program TypeVar Binding TypeMismatch δ β),
      Action.after (program.run typeVars) (Table.perform typeVars history {}) =
        Table.perform typeVars
          (history ++ program.calls typeVars (Table.perform typeVars history {})) {}) ∧
    ∀ {δ β : Type} (program : InferenceProgram δ β) (state : Inference),
      state.table = Table.perform typeVars history {} →
        (Action.after program.run state).table =
          Table.perform typeVars (history ++ program.calls state) {} := by
  have hforest : Forest (tableAt typeVars history since).nodes := Table.forest_perform _ _
  obtain ⟨root, hroot, rfl⟩ := Table.hasRoot_of_find typeVars hforest hfind
  obtain ⟨top, node, htop, hnode, hvalue⟩ := Table.hasRoot_of_probe typeVars hforest hbound
  obtain rfl := hroot.unique htop
  have hunder : BoundUnder var root type (tableAt typeVars history since).nodes :=
    ⟨hforest, hroot, node, hnode, hvalue⟩
  obtain ⟨starts, hsavepoints⟩ := exists_savepoints typeVars history
  refine ⟨fun later hlater => ?_, after_run typeVars history, fun program state hstate => ?_⟩
  · have hlast := ((KeepsRoot.of_boundUnder hunder).of_le hkept later hlater).boundUnder
    obtain ⟨_, hrun, -⟩ := Table.find_of_hasRoot typeVars hlast.forest hlast.hasRoot
    exact ⟨Action.outcome_of_ok hrun, fun errors =>
      Action.outcome_of_ok (Inference.onTable_of_ok hrun)⟩
  · rw [← hstate] at hsavepoints
    rw [program.table_after_run hsavepoints, Table.perform_append, hstate]

/-- The class of the variable 0 is bound. It is joined twice with unbound classes
    of a higher rank, in either order, and once in vain with another bound one. An
    inner snapshot is rolled back, and the one that was opened before is committed. -/
theorem bound_keeps_representative_int :
    let history : List (Operation TypeVar Binding) := [.newKey .unbound, .newKey .unbound,
      .newKey .unbound, .newKey (.bound .float), .unionValue ⟨0⟩ (.bound .int), .union ⟨1⟩ ⟨2⟩,
      .snapshot, .union ⟨3⟩ ⟨0⟩, .snapshot, .union ⟨1⟩ ⟨0⟩, .newKey .unbound, .rollback ⟨2⟩,
      .union ⟨0⟩ ⟨2⟩, .unionValue ⟨1⟩ (.bound .int), .commit ⟨1⟩]
    Action.outcome (Table.find typeVars ⟨0⟩) (tableAt typeVars history 7) = .ok ⟨0⟩ ∧
      Action.outcome (Table.probe typeVars ⟨0⟩) (tableAt typeVars history 7) = .ok (.bound .int) ∧
      (∀ position ≥ 7, ¬ Displaces history 7 ⟨0⟩ position) ∧
      (∀ later ≥ 7,
        Action.outcome (Table.find typeVars ⟨0⟩) (tableAt typeVars history later) = .ok ⟨0⟩ ∧
        ∀ errors, Action.outcome (Inference.representative ⟨0⟩)
          { table := tableAt typeVars history later, errors } = .ok ⟨0⟩) ∧
      Action.outcome (Table.find typeVars ⟨1⟩) (tableAt typeVars history 15) = .ok ⟨0⟩ := by
  intro history
  have hfind : Action.outcome (Table.find typeVars ⟨0⟩) (tableAt typeVars history 7) =
      .ok ⟨0⟩ := by decide +kernel
  have hbound : Action.outcome (Table.probe typeVars ⟨0⟩) (tableAt typeVars history 7) =
      .ok (.bound .int) := by decide +kernel
  have hconflict : Action.outcome (Table.union typeVars ⟨3⟩ ⟨0⟩) (tableAt typeVars history 7) =
      .error (.refused (.mergeConflict ⟨.float, .int⟩)) := by decide +kernel
  have hinside : Action.outcome (Table.probe typeVars ⟨1⟩) (tableAt typeVars history 9) =
      .ok .unbound := by decide +kernel
  have hoffside : Action.outcome (Table.probe typeVars ⟨2⟩) (tableAt typeVars history 12) =
      .ok .unbound := by decide +kernel
  have hself : ∀ position, Action.outcome (Table.unioned typeVars ⟨0⟩ ⟨0⟩)
      (tableAt typeVars history position) ≠ .ok false := by
    intro position hdifferent
    obtain ⟨_, _, hA, hB, hroots⟩ :=
      Table.hasRoots_of_unioned typeVars (Table.forest_perform _ _) hdifferent
    obtain rfl := hA.unique hB
    rw [beq_self_eq_true] at hroots
    cases hroots
  have hkept : ∀ position ≥ 7, ¬ Displaces history 7 ⟨0⟩ position := by
    rintro position hposition (⟨hbefore, hopens, hanswers⟩ | ⟨hanswers, hpair, -, hother, hprobe⟩)
    · have hinner : Opens typeVars history 8 ⟨2⟩ := opens_iff_countP.mpr ⟨rfl, rfl⟩
      have hlt : position < 15 := hanswers.lt_length
      have hcall := hanswers.getElem?
      interval_cases position <;> cases hcall
      cases hopens.unique hinner
      exact absurd hbefore (by decide)
    · have hlt : position < 15 := hanswers.lt_length
      obtain ⟨hcall, hrun⟩ := hanswers
      interval_cases position <;> cases hcall
      · rw [Operation.run, Action.outcome_map, hconflict] at hrun
        cases hrun
      · rcases hpair with hpair | hpair <;> cases hpair
        · exact hself 9 hother
        · cases hinside.symm.trans hprobe
      · rcases hpair with hpair | hpair <;> cases hpair
        · cases hoffside.symm.trans hprobe
        · exact hself 12 hother
  exact ⟨hfind, hbound, hkept, (bound_keeps_representative history 7 hfind hbound hkept).1,
    by decide +kernel⟩

end History

end Unification
