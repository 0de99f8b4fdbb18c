import Unification.Proofs.Snapshot.History

namespace Unification

variable {κ α ε δ β : Type}

namespace History

variable {keys : KeyScheme κ α ε} {history more : List (Operation κ α)} {position : Nat}
  {operation last : Operation κ α} {handle : Snapshot}

/-- The positions of a history at which its open snapshots were opened,
    innermost first. Each of them can be rolled back to the table of its position. -/
structure Openings (keys : KeyScheme κ α ε) (history : List (Operation κ α))
    (positions : List Nat) : Prop where
  savepoints : Savepoints (Table.perform keys history {}) (positions.map (tableAt keys history))
  mem_iff : ∀ position, position ∈ positions ↔ ∃ handle, StaysOpen keys history position handle

namespace Openings

variable {positions rest : List Nat}

theorem lt_length (h : Openings keys history positions) :
    ∀ position ∈ positions, position < history.length := by
  intro position hposition
  obtain ⟨handle, hopen⟩ := (h.mem_iff position).mp hposition
  exact hopen.opens.lt_length

theorem map_tableAt_snoc (h : Openings keys history positions) (last : Operation κ α) :
    positions.map (tableAt keys (history ++ [last])) = positions.map (tableAt keys history) :=
  List.map_congr_left fun position hposition =>
    tableAt_append (Nat.le_of_lt (h.lt_length position hposition))

theorem opened (h : Openings keys history positions) :
    Openings keys (history ++ [.snapshot]) (history.length :: positions) where
  savepoints := by
    have hrun := (h.savepoints.run keys .snapshot).1
    rw [Table.perform_append, List.map_cons, h.map_tableAt_snoc, tableAt_append (Nat.le_refl _),
      tableAt_length]
    exact hrun
  mem_iff := by
    intro position
    simp only [List.mem_cons, h.mem_iff, staysOpen_snoc_iff, true_and]
    constructor
    · rintro (rfl | ⟨handle, hopen⟩)
      · exact ⟨⟨_⟩, .inr ⟨rfl, rfl⟩⟩
      · exact ⟨handle, .inl ⟨hopen, fun hcloses => hcloses.ne_snapshot rfl⟩⟩
    · rintro ⟨handle, ⟨hopen, -⟩ | ⟨rfl, -⟩⟩
      · exact .inr ⟨handle, hopen⟩
      · exact .inl rfl

theorem pairwise (h : Openings keys history positions) : positions.Pairwise (· > ·) := by
  have hids := h.savepoints.openIds_pairwise
  rw [h.savepoints.openIds_eq, List.map_map, List.pairwise_map] at hids
  refine hids.imp_of_mem fun {position other} hposition hother hid => ?_
  obtain ⟨handle, hopen⟩ := (h.mem_iff position).mp hposition
  obtain ⟨otherHandle, hotherOpen⟩ := (h.mem_iff other).mp hother
  refine Nat.lt_of_le_of_ne (Nat.le_of_not_lt fun hlt => ?_) fun heq => ?_
  · have hless := hopen.opens.id_lt hotherOpen.opens hlt
    rw [hopen.opens.id_eq, hotherOpen.opens.id_eq] at hless
    exact absurd hid (Nat.lt_asymm hless)
  · subst heq
    exact Nat.lt_irrefl _ hid

/-- The call that closes a snapshot closes the one that was opened last. -/
theorem closed (h : Openings keys history (position :: rest))
    (hopens : Opens keys history position handle) (hcloses : WillClose keys history last handle) :
    Openings keys (history ++ [last]) rest where
  savepoints := by
    have hrun := (h.savepoints.run keys last).1
    have hrest := List.cons.inj (h.map_tableAt_snoc last)
    rw [Table.perform_append, hrest.2]
    obtain ⟨rfl | rfl, hinnermost⟩ := hcloses <;>
      rwa [Operation.savepoints, if_pos hinnermost] at hrun
  mem_iff := by
    have hcall := hcloses.ne_snapshot
    have hinside : position ∉ rest := fun hmem =>
      Nat.lt_irrefl _ (List.rel_of_pairwise_cons h.pairwise hmem)
    intro other
    have hcons := h.mem_iff other
    rw [List.mem_cons] at hcons
    simp only [staysOpen_snoc_iff, hcall, false_and, and_false, or_false]
    -- The call closes one handle only, and that one was given at the head.
    constructor
    · intro hrest
      obtain ⟨otherHandle, hopen⟩ := hcons.mp (.inr hrest)
      refine ⟨otherHandle, hopen, fun hsame => hinside ?_⟩
      have hid := Option.some.inj (hsame.2.symm.trans hcloses.2)
      obtain rfl : otherHandle = handle := by
        cases otherHandle
        exact congrArg _ hid
      rwa [← hopen.opens.unique hopens]
    · rintro ⟨otherHandle, hopen, hnot⟩
      refine (hcons.mpr ⟨otherHandle, hopen⟩).resolve_left ?_
      rintro rfl
      rw [hopens.handle_eq hopen.opens] at hnot
      exact hnot hcloses

theorem kept (h : Openings keys history positions) (hcall : last ≠ .snapshot)
    (hcloses : ∀ handle, ¬ WillClose keys history last handle) :
    Openings keys (history ++ [last]) positions where
  savepoints := by
    have hrun := (h.savepoints.run keys last).1
    rw [Table.perform_append, h.map_tableAt_snoc]
    cases last with
    | snapshot => exact absurd rfl hcall
    | commit handle =>
      rwa [Operation.savepoints, if_neg fun hinnermost => hcloses handle ⟨.inl rfl, hinnermost⟩]
        at hrun
    | rollback handle =>
      rwa [Operation.savepoints, if_neg fun hinnermost => hcloses handle ⟨.inr rfl, hinnermost⟩]
        at hrun
    | _ => exact hrun
  mem_iff := by
    intro position
    simp only [h.mem_iff, staysOpen_snoc_iff, hcloses, hcall, not_false_eq_true, and_true,
      false_and, and_false, or_false]

/-- What can be closed was opened last of all that is open. -/
theorem exists_cons (h : Openings keys history positions)
    (hcloses : WillClose keys history operation handle) :
    ∃ position rest, positions = position :: rest ∧ StaysOpen keys history position handle := by
  obtain ⟨start, starts, hstarts, rfl⟩ := h.savepoints.exists_cons hcloses.2
  obtain ⟨position, rest, rfl, rfl, -⟩ := List.map_eq_cons_iff.mp hstarts
  obtain ⟨other, hopen⟩ := (h.mem_iff position).mp List.mem_cons_self
  have hopens : Opens keys history position ⟨(tableAt keys history position).journal.nextId⟩ :=
    opens_iff.mpr ⟨hopen.opens.getElem?, rfl⟩
  exact ⟨position, rest, rfl, hopens.handle_eq hopen.opens ▸ hopen⟩

/-- A call opens a snapshot, closes the innermost one, or leaves all as it is. -/
theorem snoc (h : Openings keys history positions) (last : Operation κ α) :
    ∃ left, Openings keys (history ++ [last]) left := by
  by_cases hcall : last = .snapshot
  · subst hcall
    exact ⟨_, h.opened⟩
  by_cases hcloses : ∃ handle, WillClose keys history last handle
  · obtain ⟨handle, hcloses⟩ := hcloses
    obtain ⟨position, rest, rfl, hopen⟩ := h.exists_cons hcloses
    exact ⟨rest, h.closed hopen.opens hcloses⟩
  · exact ⟨positions, h.kept hcall (not_exists.mp hcloses)⟩

end Openings

theorem exists_openings (keys : KeyScheme κ α ε) (history : List (Operation κ α)) :
    ∃ positions, Openings keys history positions := by
  induction history using List.reverseRecOn with
  | nil =>
    refine ⟨[], .nil rfl, fun position => ?_⟩
    refine iff_of_false List.not_mem_nil fun ⟨handle, hopen⟩ => ?_
    exact Nat.not_lt_zero _ hopen.opens.lt_length
  | append_singleton history last ih =>
    obtain ⟨positions, hpositions⟩ := ih
    exact hpositions.snoc last

theorem Openings.mem_openIds_iff {positions : List Nat} (h : Openings keys history positions) :
    handle.id ∈ (Table.perform keys history {}).journal.openIds ↔
      ∃ position, StaysOpen keys history position handle := by
  rw [h.savepoints.openIds_eq, List.map_map, List.mem_map]
  constructor
  · rintro ⟨position, hposition, hid⟩
    obtain ⟨other, hopen⟩ := (h.mem_iff position).mp hposition
    have hopens : Opens keys history position handle :=
      opens_iff.mpr ⟨hopen.opens.getElem?, hid.symm⟩
    exact ⟨position, hopens.handle_eq hopen.opens ▸ hopen⟩
  · rintro ⟨position, hopen⟩
    exact ⟨position, (h.mem_iff position).mpr ⟨handle, hopen⟩, hopen.opens.id_eq.symm⟩

end History

theorem Journal.innermost?_eq_head? (journal : Journal α) :
    journal.innermost? = journal.openIds.head? := by
  rw [innermost?, openIds, List.head?_map]

theorem Journal.count?_eq_none_iff {journal : Journal α} {handle : Snapshot} :
    journal.count? handle = none ↔ handle.id ∉ journal.openIds := by
  simp [count?, openIds]

/-- A table in which nothing can be done with a handle. Each call with it is
    refused and changes nothing. -/
structure Table.RefusesHandle (keys : KeyScheme κ α ε) (table : Table α) (handle : Snapshot) :
    Prop where
  commit : Table.commit handle table =
    .error (.refused (.snapshotMismatch handle.id table.journal.openIds.head?) :
      Failure (TableError ε)) table
  rollback : Table.rollback handle table =
    .error (.refused (.snapshotMismatch handle.id table.journal.openIds.head?) :
      Failure (TableError ε)) table
  newKeysSince : Table.newKeysSince keys handle table =
    .error (.refused (.snapshotMismatch handle.id table.journal.openIds.head?)) table

/-- Only the handles of open snapshots are good for anything. -/
theorem Table.refusesHandle_iff (keys : KeyScheme κ α ε) {table : Table α} {handle : Snapshot} :
    table.RefusesHandle keys handle ↔ handle.id ∉ table.journal.openIds := by
  constructor
  · intro h hopen
    have hlist := h.newKeysSince
    rw [newKeysSince_eq] at hlist
    cases hcount : table.journal.count? handle with
    | none => exact Journal.count?_eq_none_iff.mp hcount hopen
    | some start =>
      simp only [hcount] at hlist
      split at hlist <;> cases hlist
  · intro hclosed
    have hhead : table.journal.openIds.head? ≠ some handle.id :=
      fun hhead => hclosed (List.mem_of_head? hhead)
    have hlist := newKeysSince_eq keys handle table
    rw [Journal.count?_eq_none_iff.mpr hclosed] at hlist
    rw [← Journal.innermost?_eq_head?] at hhead
    constructor <;> rw [← Journal.innermost?_eq_head?]
    · exact commit_of_ne hhead
    · exact rollback_of_ne hhead
    · exact hlist

namespace History

variable {keys : KeyScheme κ α ε} {history more : List (Operation κ α)} {position : Nat}
  {handle : Snapshot}

theorem Closes.innermost?_eq (h : Closes keys history position handle) :
    (tableAt keys history position).journal.innermost? = some handle.id := by
  obtain ⟨starts, hsavepoints⟩ := exists_savepoints keys (history.take position)
  rcases h with hcommit | hrollback
  · exact (hsavepoints.outcome_commit keys handle).mp hcommit.outcome
  · exact (hsavepoints.outcome_rollback keys handle).mp hrollback.outcome

/-- A snapshot that was closed has a number below all that are given later. -/
theorem Closes.not_staysOpen (h : Closes keys history position handle) (other : Nat) :
    ¬ StaysOpen keys history other handle := by
  intro hopen
  have hle : position ≤ other := Nat.le_of_not_lt fun hlt => hopen.not_closes position hlt h
  obtain ⟨starts, hsavepoints⟩ := exists_savepoints keys (history.take position)
  obtain ⟨start, rest, rfl, rfl⟩ := hsavepoints.exists_cons h.innermost?_eq
  have hless := hsavepoints.lt_nextId start List.mem_cons_self
  have hge : (tableAt keys history position).journal.nextId ≤ start.journal.nextId :=
    Nat.le_trans (nextId_tableAt_le hle) (Nat.le_of_eq hopen.opens.id_eq.symm)
  exact Nat.not_lt.mpr hge hless

theorem refusesHandle_perform_iff (keys : KeyScheme κ α ε) (history : List (Operation κ α))
    (handle : Snapshot) :
    (Table.perform keys history {}).RefusesHandle keys handle ↔
      ∀ position, ¬ StaysOpen keys history position handle := by
  obtain ⟨positions, hpositions⟩ := exists_openings keys history
  rw [Table.refusesHandle_iff, hpositions.mem_openIds_iff, not_exists]

/-- Snapshots are numbered 1, 2, 3, … as they are opened, by words of 32 bits as long
    as fewer than `2 ^ 32 - 1` have been opened, and those that are open are
    numbered upward from the outermost to the innermost one. Only that one can
    be closed: with any other handle a call is refused, says which snapshot is the
    innermost one, and changes nothing. A handle that was not handed out is refused
    by every call that takes one, and so is the handle of a snapshot that was closed,
    whatever is called after that, as no handle is handed out twice. The calls of
    programs are calls like these. -/
theorem handles_lifo (keys : KeyScheme κ α ε) (history : List (Operation κ α)) :
    let table := Table.perform keys history {}
    (∀ position handle, Opens keys history position handle ↔
      history[position]? = some .snapshot ∧
        handle.id = (history.take position).countP Operation.opensSnapshot + 1) ∧
    (history.countP Operation.opensSnapshot < UInt32.size - 1 →
      table.journal.nextId < UInt32.size ∧
        ∀ position handle, Opens keys history position handle → handle.id < UInt32.size) ∧
    table.journal.openIds.Pairwise (· > ·) ∧
    (∀ handle, handle.id ∈ table.journal.openIds ↔
      ∃ position, StaysOpen keys history position handle) ∧
    (∀ handle : Snapshot,
      if table.journal.openIds.head? = some handle.id then
        Action.outcome (Table.commit handle : TableM α (TableError ε) Unit) table = .ok () ∧
        Action.outcome (Table.rollback handle : TableM α (TableError ε) Unit) table = .ok ()
      else
        Table.commit handle table =
          .error (.refused (.snapshotMismatch handle.id table.journal.openIds.head?) :
            Failure (TableError ε)) table ∧
        Table.rollback handle table =
          .error (.refused (.snapshotMismatch handle.id table.journal.openIds.head?) :
            Failure (TableError ε)) table) ∧
    (∀ handle, table.RefusesHandle keys handle ↔
      ∀ position, ¬ StaysOpen keys history position handle) ∧
    (∀ position handle, Closes keys history position handle →
      ∀ more, (Table.perform keys (history ++ more) {}).RefusesHandle keys handle) ∧
    (∀ position handle, Opens keys history position handle →
      ∀ more later, Opens keys (history ++ more) later handle → later = position) ∧
    ∀ {δ β : Type} (program : Program κ α ε δ β), Action.after (program.run keys) table =
      Table.perform keys (history ++ program.calls keys table) {} := by
  intro table
  obtain ⟨positions, hpositions⟩ := exists_openings keys history
  have hsavepoints := hpositions.savepoints
  refine ⟨fun _ _ => opens_iff_countP, ids_lt_size, hsavepoints.openIds_pairwise,
    fun _ => hpositions.mem_openIds_iff, fun handle => ?_, refusesHandle_perform_iff keys history,
    fun _ _ hcloses more =>
      (refusesHandle_perform_iff keys _ _).mpr hcloses.append.not_staysOpen,
    fun _ _ hopens more _ hlater => hlater.unique hopens.append, after_run keys history⟩
  rw [← Journal.innermost?_eq_head?]
  split
  next hinnermost =>
    obtain ⟨start, rest, hstarts, rfl⟩ := hsavepoints.exists_cons hinnermost
    rw [hstarts] at hsavepoints
    obtain ⟨_, hcommit, -⟩ := hsavepoints.exists_commit (ε := ε)
    obtain ⟨_, hrollback, -⟩ := hsavepoints.exists_rollback (ε := ε)
    exact ⟨Action.outcome_of_ok hcommit, Action.outcome_of_ok hrollback⟩
  next hother => exact ⟨Table.commit_of_ne hother, Table.rollback_of_ne hother⟩

end History

end Unification
