import Unification.Keys.Numbering
import Unification.Keys.RootOrder
import Unification.Payload.Number
import Unification.Proofs.Forest.Reachable
import Unification.Proofs.Locality.Confined

namespace Unification

variable {κ α ε δ β γ : Type}

/-- What is left by two actions that are confined to regions of their own does
    not depend on which of them runs first, but for the order of the entries that
    they add to the journal. -/
theorem Confined.commute {region other : Set Nat} {expected : β → Prop} {wanted : γ → Prop}
    {action : TableM α δ β} {further : TableM α δ γ} (haction : Confined region expected action)
    (hfurther : Confined other wanted further) (hapart : ∀ index ∈ region, index ∉ other)
    {table : Table α} (hregion : Enclosed region table.nodes)
    (hother : Enclosed other table.nodes) :
    ∃ nodes entries more,
      Action.outcome action (Action.after further table) = Action.outcome action table ∧
      Action.outcome further (Action.after action table) = Action.outcome further table ∧
      Action.after further (Action.after action table) =
        { nodes, journal := table.journal.recordAll (entries ++ more) } ∧
      Action.after action (Action.after further table) =
        { nodes, journal := table.journal.recordAll (more ++ entries) } := by
  obtain ⟨nodes, journal⟩ := table
  have hinside : region ⊆ otherᶜ := hapart
  have hoverthere : other ⊆ regionᶜ := fun index hindex hboth => hapart index hboth hindex
  obtain ⟨outcome, final, entries, -, -, hrun⟩ := haction nodes hregion
  obtain ⟨outcome', final', more, -, -, hrun'⟩ := hfurther nodes hother
  obtain ⟨once, honce, hrest, heq⟩ := hrun nodes (.refl region nodes)
  obtain ⟨once', honce', hrest', heq'⟩ := hrun' nodes (.refl other nodes)
  -- Each action finds its own region as it was before the other one ran.
  obtain ⟨both, hboth, hkept, heqLast⟩ := hrun once' (hrest'.mono hinside)
  obtain ⟨both', hboth', hkept', heqLast'⟩ := hrun' once (hrest.mono hoverthere)
  have hsame : both' = both := by
    apply Array.ext_getElem?
    intro index
    by_cases hindex : index ∈ region
    · rw [← hkept'.getElem?_eq index (hinside hindex), ← honce.getElem?_eq index hindex,
        hboth.getElem?_eq index hindex]
    · rw [← hkept.getElem?_eq index hindex]
      by_cases hindex' : index ∈ other
      · rw [← hboth'.getElem?_eq index hindex', honce'.getElem?_eq index hindex']
      · rw [← hkept'.getElem?_eq index hindex', ← hrest.getElem?_eq index hindex,
          hrest'.getElem?_eq index hindex']
  refine ⟨both, entries, more, ?_, ?_, ?_, ?_⟩
  · rw [Action.after_of_eq_ending (heq' journal), Action.outcome_of_eq_ending (heq journal),
      Action.outcome_of_eq_ending (heqLast _)]
  · rw [Action.after_of_eq_ending (heq journal), Action.outcome_of_eq_ending (heq' journal),
      Action.outcome_of_eq_ending (heqLast' _)]
  · rw [Action.after_of_eq_ending (heq journal), Action.after_of_eq_ending (heqLast' _), hsame,
      Journal.recordAll_append]
  · rw [Action.after_of_eq_ending (heq' journal), Action.after_of_eq_ending (heqLast _),
      Journal.recordAll_append]

namespace Operation

variable (keys : KeyScheme κ α ε)

/-- A call about keys is confined to every region in which these keys are. -/
theorem confined {region : Set Nat} : ∀ {operation : Operation κ α}, operation.mentioned ≠ [] →
    (∀ key ∈ operation.mentioned, keys.index key ∈ region) →
      Confined region (fun _ => True) (operation.run keys)
  | find key, _, hkeys => (Confined.find keys (hkeys key (by simp [mentioned]))).map _
  | probe key, _, hkeys => (Confined.probe keys (hkeys key (by simp [mentioned]))).map _
  | unioned a b, _, hkeys =>
    (Confined.unioned keys (hkeys a (by simp [mentioned])) (hkeys b (by simp [mentioned]))).map _
  | union a b, _, hkeys =>
    (Confined.union keys (hkeys a (by simp [mentioned])) (hkeys b (by simp [mentioned]))).map _
  | unionValue key value, _, hkeys =>
    (Confined.unionValue keys (hkeys key (by simp [mentioned])) value).map _
  | newKey _, hmentioned, _ => absurd rfl hmentioned
  | reserve _, hmentioned, _ => absurd rfl hmentioned
  | snapshot, hmentioned, _ => absurd rfl hmentioned
  | commit _, hmentioned, _ => absurd rfl hmentioned
  | rollback _, hmentioned, _ => absurd rfl hmentioned
  | newKeysSince _, hmentioned, _ => absurd rfl hmentioned

theorem isPlain_of_mentioned {operation : Operation κ α} (h : operation.mentioned ≠ []) :
    operation.isPlain := by
  cases operation <;> first | rfl | exact absurd rfl h

/-- The nodes of the classes that a call is about. -/
def touched (operation : Operation κ α) (nodes : Array (Node α)) : Set Nat :=
  {index | ∃ key ∈ operation.mentioned, ∃ root,
    HasRoot nodes (keys.index key) root ∧ HasRoot nodes index root}

variable {keys} {nodes : Array (Node α)}

theorem enclosed_touched (operation : Operation κ α) :
    Enclosed (operation.touched keys nodes) nodes := by
  rintro index ⟨key, hkey, root, hroot, htop, path, hpath⟩ node hnode
  refine ⟨key, hkey, root, hroot, htop, ?_⟩
  cases hpath with
  | nil => exact ⟨[], htop.parent_eq hnode ▸ .nil _⟩
  | cons hsame _ hrest =>
    rw [hnode] at hsame
    cases hsame
    exact ⟨_, hrest⟩

theorem mem_touched {operation : Operation κ α} {key : κ} {root : Nat}
    (hkey : key ∈ operation.mentioned) (hroot : HasRoot nodes (keys.index key) root) :
    keys.index key ∈ operation.touched keys nodes :=
  ⟨key, hkey, root, hroot, hroot⟩

/-- Two calls touch no node in common if no class has keys of both. -/
theorem touched_apart {first second : Operation κ α}
    (h : ∀ a ∈ first.mentioned, ∀ b ∈ second.mentioned, ∃ rootA rootB,
      HasRoot nodes (keys.index a) rootA ∧ HasRoot nodes (keys.index b) rootB ∧ rootA ≠ rootB) :
    ∀ index ∈ first.touched keys nodes, index ∉ second.touched keys nodes := by
  rintro index ⟨a, ha, root, hroot, hindex⟩ ⟨b, hb, root', hroot', hindex'⟩
  obtain ⟨rootA, rootB, hA, hB, hne⟩ := h a ha b hb
  obtain rfl := hindex.unique hindex'
  exact hne ((hA.unique hroot).trans (hroot'.unique hB))

end Operation

/-- Whatever two calls about keys have done, the innermost snapshot takes the
    table back to the one in which it was opened. -/
theorem Savepoints.rollback_after_both {table start : Table α} {rest : List (Table α)}
    (h : Savepoints table (start :: rest)) {action : TableM α δ β} {further : TableM α δ γ}
    (haction : Journaled action) (hfurther : Journaled further) :
    (Table.rollback { id := start.journal.nextId } : TableM α (TableError ε) Unit)
        (Action.after further (Action.after action table)) =
      .ok () { start with journal := { start.journal with nextId := table.journal.nextId } } := by
  obtain ⟨hmiddle, hnext⟩ := h.after_of_journaled haction
  obtain ⟨hlast, hnextLast⟩ := hmiddle.after_of_journaled hfurther
  rw [← hnext, ← hnextLast]
  exact Table.rollback_of_tryRollback hlast.tryRollback_eq

/-- Calls on unrelated classes commute. In every table that programs reach, let
    no key of one call be in a class with a key of another. Then each of the two
    calls ends in the same way before and after the other one, and the nodes that
    the two leave do not depend on their order. The journal lists the entries of
    both, those of the first call first. If a snapshot is open, the innermost one
    can be rolled back after both, to one and the same table. -/
theorem Program.unrelated_calls_commute (keys : KeyScheme κ α ε) (program : Program κ α ε δ β)
    {first second : Operation κ α} (hfirst : first.mentioned ≠ [])
    (hsecond : second.mentioned ≠ [])
    (hunrelated : ∀ a ∈ first.mentioned, ∀ b ∈ second.mentioned,
      Action.outcome (Table.unioned keys a b) (Action.after (program.run keys) {}) = .ok false) :
    let table := Action.after (program.run keys) {}
    ∃ nodes entries more,
      Action.outcome (first.run keys) (Action.after (second.run keys) table) =
        Action.outcome (first.run keys) table ∧
      Action.outcome (second.run keys) (Action.after (first.run keys) table) =
        Action.outcome (second.run keys) table ∧
      Action.after (second.run keys) (Action.after (first.run keys) table) =
        { nodes, journal := table.journal.recordAll (entries ++ more) } ∧
      Action.after (first.run keys) (Action.after (second.run keys) table) =
        { nodes, journal := table.journal.recordAll (more ++ entries) } ∧
      ∀ handle : Snapshot, table.journal.innermost? = some handle.id → ∃ left,
        (Table.rollback handle : TableM α (TableError ε) Unit)
          (Action.after (second.run keys) (Action.after (first.run keys) table)) = .ok () left ∧
        (Table.rollback handle : TableM α (TableError ε) Unit)
          (Action.after (first.run keys) (Action.after (second.run keys) table)) = .ok () left := by
  intro table
  have hforest : Forest table.nodes := program.forest keys
  have hroots : ∀ a ∈ first.mentioned, ∀ b ∈ second.mentioned, ∃ rootA rootB,
      HasRoot table.nodes (keys.index a) rootA ∧ HasRoot table.nodes (keys.index b) rootB ∧
      rootA ≠ rootB := by
    intro a ha b hb
    obtain ⟨rootA, rootB, hA, hB, hsame⟩ :=
      Table.hasRoots_of_unioned keys hforest (hunrelated a ha b hb)
    exact ⟨rootA, rootB, hA, hB, by simpa using hsame.symm⟩
  obtain ⟨a, hmemA⟩ := List.exists_mem_of_ne_nil _ hfirst
  obtain ⟨b, hmemB⟩ := List.exists_mem_of_ne_nil _ hsecond
  have hconfined := Operation.confined keys hfirst fun key hkey =>
    have ⟨_, _, hroot, _⟩ := hroots key hkey b hmemB
    Operation.mem_touched hkey hroot
  have hconfined' := Operation.confined keys hsecond fun key hkey =>
    have ⟨_, _, _, hroot, _⟩ := hroots a hmemA key hkey
    Operation.mem_touched hkey hroot
  obtain ⟨nodes, entries, more, hagain, hagain', hleft, hleft'⟩ :=
    hconfined.commute hconfined' (Operation.touched_apart hroots) first.enclosed_touched
      second.enclosed_touched
  refine ⟨nodes, entries, more, hagain, hagain', hleft, hleft', fun handle hinnermost => ?_⟩
  obtain ⟨starts, hsavepoints⟩ := program.exists_savepoints keys
  obtain ⟨start, rest, rfl, rfl⟩ := hsavepoints.exists_cons hinnermost
  have hjournaled := first.journaled keys (Operation.isPlain_of_mentioned hfirst)
  have hjournaled' := second.journaled keys (Operation.isPlain_of_mentioned hsecond)
  exact ⟨_, hsavepoints.rollback_after_both hjournaled hjournaled',
    hsavepoints.rollback_after_both hjournaled' hjournaled⟩

/-- A union that fails, but shortens a way up before it does, and a value for
    another class. The snapshot was opened before either. -/
theorem Program.unrelated_calls_commute_conflict :
    let keys := KeyScheme.of Number.payload Numbering.direct "number" RootOrder.second
    let program : Program UInt32 Number NumberConflict Unit Unit :=
      .call (.newKey .unset) fun _ => .call (.newKey .unset) fun _ => .call (.newKey ⟨5⟩) fun _ =>
      .call (.newKey ⟨7⟩) fun _ => .call (.newKey .unset) fun _ => .call (.newKey .unset) fun _ =>
      .call (.newKey .unset) fun _ => .call (.union 0 1) fun _ => .call (.union 1 2) fun _ =>
      .call (.union 4 5) fun _ => .call (.union 5 6) fun _ => .call .snapshot fun _ =>
      .finish (.ok ())
    let table := Action.after (program.run keys) {}
    let first := (Operation.union 0 3 : Operation UInt32 Number).run keys
    let second := (Operation.unionValue 4 ⟨9⟩ : Operation UInt32 Number).run keys
    Action.outcome (Table.union keys 0 3) table =
      .error (.refused (.mergeConflict { ours := ⟨5⟩, theirs := ⟨7⟩ })) ∧
    Action.outcome (Table.unionValue keys 4 ⟨9⟩) table = .ok () ∧
    (Action.after second (Action.after first table)).journal.entries =
      #[.overwritten 0 ⟨1, 0, .unset⟩, .overwritten 4 ⟨5, 0, .unset⟩,
        .overwritten 6 ⟨6, 2, .unset⟩] ∧
    (Action.after first (Action.after second table)).journal.entries =
      #[.overwritten 4 ⟨5, 0, .unset⟩, .overwritten 6 ⟨6, 2, .unset⟩,
        .overwritten 0 ⟨1, 0, .unset⟩] ∧
    Action.outcome first (Action.after second table) = Action.outcome first table ∧
    Action.outcome second (Action.after first table) = Action.outcome second table ∧
    (Action.after second (Action.after first table)).nodes =
      (Action.after first (Action.after second table)).nodes ∧
    ∃ left,
      (Table.rollback { id := 1 } : TableM Number (TableError NumberConflict) Unit)
        (Action.after second (Action.after first table)) = .ok () left ∧
      (Table.rollback { id := 1 } : TableM Number (TableError NumberConflict) Unit)
        (Action.after first (Action.after second table)) = .ok () left := by
  intro keys program table first second
  have hfirst : Action.outcome (Table.unioned keys 0 4) table = .ok false := by decide +kernel
  have hlast : Action.outcome (Table.unioned keys 3 4) table = .ok false := by decide +kernel
  have hunrelated : ∀ a ∈ (Operation.union 0 3 : Operation UInt32 Number).mentioned,
      ∀ b ∈ (Operation.unionValue 4 ⟨9⟩ : Operation UInt32 Number).mentioned,
        Action.outcome (Table.unioned keys a b) table = .ok false :=
    List.forall_mem_cons.mpr ⟨List.forall_mem_singleton.mpr hfirst,
      List.forall_mem_singleton.mpr (List.forall_mem_singleton.mpr hlast)⟩
  obtain ⟨nodes, entries, more, hagain, hagain', hleft, hleft', hrollback⟩ :=
    Program.unrelated_calls_commute keys program (by simp [Operation.mentioned])
      (by simp [Operation.mentioned]) hunrelated
  refine ⟨by decide +kernel, by decide +kernel, by decide +kernel, by decide +kernel, hagain,
    hagain', ?_, hrollback { id := 1 } (by decide +kernel)⟩
  rw [hleft, hleft']

end Unification
