import Unification.Proofs.Journal.Journaled
import Unification.Proofs.Program

namespace Unification

variable {κ α ε δ β : Type}

/-- The numbers of the open snapshots, innermost first. -/
def Journal.openIds (journal : Journal α) : List Nat :=
  journal.frames.map (·.id)

namespace Table

/-- The table in which a snapshot has just been opened. -/
def opened (table : Table α) : Table α :=
  { table with journal := (table.journal.start table.size).2 }

theorem snapshot_eq (table : Table α) :
    (snapshot : TableM α δ Snapshot) table = .ok { id := table.journal.nextId } table.opened :=
  rfl

theorem tryCommit_of_some {table : Table α} {handle : Snapshot} {journal : Journal α}
    (h : table.journal.commit? handle = some journal) :
    (tryCommit handle : TableM α δ Bool) table = .ok true { table with journal } := by
  rw [tryCommit_eq, h]

theorem commit_of_some {table : Table α} {handle : Snapshot} {journal : Journal α}
    (h : table.journal.commit? handle = some journal) :
    (commit handle : TableM α (TableError ε) Unit) table = .ok () { table with journal } := by
  rw [commit, Action.bind_of_ok (tryCommit_of_some h)]
  rfl

/-- A snapshot other than the innermost one cannot be committed, and the
    attempt changes nothing. -/
theorem tryCommit_of_ne {table : Table α} {handle : Snapshot}
    (hinnermost : table.journal.innermost? ≠ some handle.id) :
    (tryCommit handle : TableM α δ Bool) table = .ok false table := by
  rw [tryCommit_eq, Journal.commit?, Journal.close?_eq_none_iff.mpr hinnermost]
  rfl

theorem commit_of_ne {table : Table α} {handle : Snapshot}
    (hinnermost : table.journal.innermost? ≠ some handle.id) :
    (commit handle : TableM α (TableError ε) Unit) table =
      .error (.refused (.snapshotMismatch handle.id table.journal.innermost?)) table := by
  rw [commit, Action.bind_of_ok (tryCommit_of_ne hinnermost)]
  rfl

theorem rollback_of_tryRollback {table left : Table α} {handle : Snapshot}
    (h : (tryRollback handle : TableM α (TableError ε) Bool) table = .ok true left) :
    (rollback handle : TableM α (TableError ε) Unit) table = .ok () left := by
  rw [rollback, Action.bind_of_ok h]
  rfl

theorem rollback_of_ne {table : Table α} {handle : Snapshot}
    (hinnermost : table.journal.innermost? ≠ some handle.id) :
    (rollback handle : TableM α (TableError ε) Unit) table =
      .error (.refused (.snapshotMismatch handle.id table.journal.innermost?)) table := by
  rw [rollback, Action.bind_of_ok (tryRollback_of_ne hinnermost)]
  rfl

/-- Listing the keys since a snapshot changes nothing. -/
theorem newKeysSince_eq (keys : KeyScheme κ α ε) (handle : Snapshot) (table : Table α) :
    newKeysSince keys handle table =
      Action.ending
        (match table.journal.count? handle with
          | none => .error (.refused (.snapshotMismatch handle.id table.journal.innermost?))
          | some start =>
            if maxKeys < start ∨ maxKeys < table.size then
              .error (.refused (.keySpaceExhausted table.size))
            else .ok ((List.range' start (table.size - start)).map keys.ofIndex))
        table := by
  rw [newKeysSince, Action.get_bind]
  cases table.journal.count? handle with
  | none => rfl
  | some start =>
    by_cases hfull : maxKeys < start ∨ maxKeys < table.size
    · simp only [hfull, if_true]
      rfl
    · simp only [hfull, if_false]
      rfl

/-- A snapshot is rolled back by undoing what the journal gives up for it. -/
theorem tryRollback_of_undone {table : Table α} {handle : Snapshot} {entries : List (Entry α)}
    {journal : Journal α} {before : Array (Node α)}
    (hrollback : table.journal.rollback? handle = some (entries, journal))
    (hundone : Undone entries table.nodes before) :
    (tryRollback handle : TableM α δ Bool) table = .ok true { nodes := before, journal } := by
  have hundo : (entries.forM undo : TableM α δ PUnit)
      { table with journal := { table.journal with frames := journal.frames } } =
      .ok ⟨⟩
        { nodes := before, journal := { table.journal with frames := journal.frames } } :=
    forM_undo hundone
  rw [tryRollback, Action.get_bind, hrollback]
  exact Action.bind_of_ok hundo

end Table

/-- The tables in which the open snapshots of a table were opened, innermost
    first. The entries since then take the nodes back to what they were, and
    the entries before are still those of that time. -/
inductive Savepoints : Table α → List (Table α) → Prop where
  | nil {table : Table α} (hframes : table.journal.frames = []) : Savepoints table []
  | cons {table start : Table α} {starts : List (Table α)} {recent : List (Entry α)}
      (hframes : table.journal.frames = start.opened.journal.frames)
      (hentries : table.journal.entries.toList = start.journal.entries.toList ++ recent)
      (hundone : Undone recent.reverse table.nodes start.nodes)
      (hnext : start.journal.nextId < table.journal.nextId)
      (hstarts : Savepoints start starts) : Savepoints table (start :: starts)

namespace Savepoints

variable {table start left : Table α} {starts : List (Table α)}

theorem openIds_eq (h : Savepoints table starts) :
    table.journal.openIds = starts.map (·.journal.nextId) := by
  unfold Journal.openIds
  induction h with
  | nil hframes => simp [hframes]
  | cons hframes _ _ _ _ ih => simp [hframes, Table.opened, Journal.start, ih]

theorem innermost?_eq (h : Savepoints table starts) :
    table.journal.innermost? = starts.head?.map (·.journal.nextId) := by
  have hids := congrArg List.head? h.openIds_eq
  simpa [Journal.innermost?, Journal.openIds] using hids

theorem count?_eq (h : Savepoints table starts) (handle : Snapshot) :
    table.journal.count? handle =
      (starts.find? (·.journal.nextId == handle.id)).map (·.size) := by
  induction h with
  | nil hframes => simp [Journal.count?, hframes]
  | @cons table start starts _ hframes _ _ _ _ ih =>
    simp only [Journal.count?, hframes, Table.opened, Journal.start] at ih ⊢
    by_cases hid : start.journal.nextId = handle.id
    · simp [hid]
    · simpa [hid] using ih

/-- Snapshots are numbered upward, and the next number is above all that are in use. -/
theorem lt_nextId (h : Savepoints table starts) :
    ∀ start ∈ starts, start.journal.nextId < table.journal.nextId := by
  induction h with
  | nil => simp
  | cons _ _ _ hnext _ ih =>
    intro other hother
    cases hother with
    | head => exact hnext
    | tail _ hother => exact Nat.lt_trans (ih other hother) hnext

/-- The next number may grow: what matters is only that it is not in use. -/
theorem congr (h : Savepoints table starts) (hnodes : left.nodes = table.nodes)
    (hentries : left.journal.entries = table.journal.entries)
    (hframes : left.journal.frames = table.journal.frames)
    (hnext : table.journal.nextId ≤ left.journal.nextId) : Savepoints left starts := by
  cases h with
  | nil hempty => exact .nil (hframes.trans hempty)
  | cons hopen hprefix hundone hstart hstarts =>
    exact .cons (hframes.trans hopen) (by rw [hentries, hprefix]) (hnodes ▸ hundone)
      (Nat.lt_of_lt_of_le hstart hnext) hstarts

/-- The journal of a table without a savepoint keeps no entry, and that of
    another keeps all of them. -/
theorem recordAll {nodes changed : Array (Node α)} {journal : Journal α}
    {entries : List (Entry α)} (h : Savepoints { nodes, journal } starts)
    (hundone : Undone entries.reverse changed nodes) :
    Savepoints { nodes := changed, journal := journal.recordAll entries } starts := by
  cases h with
  | nil hframes => exact .nil (by simpa using hframes)
  | @cons _ start starts recent hframes hentries hback hnext hstarts =>
    have hopen : journal.frames ≠ [] := by
      simp only at hframes
      simp [hframes, Table.opened, Journal.start]
    have hmore : (journal.recordAll entries).entries.toList =
        start.journal.entries.toList ++ (recent ++ entries) := by
      rw [Journal.entries_recordAll hopen, hentries, List.append_assoc]
    refine .cons (by simpa using hframes) hmore ?_ (by simpa using hnext) hstarts
    rw [List.reverse_append]
    exact undone_append_iff.mpr ⟨nodes, hundone, hback⟩

theorem opened (h : Savepoints table starts) : Savepoints table.opened (table :: starts) := by
  have hentries : table.opened.journal.entries.toList = table.journal.entries.toList ++ [] := by
    simp [Table.opened, Journal.start]
  exact .cons rfl hentries (.nil _) (by simp [Table.opened, Journal.start]) h

/-- Closing the innermost snapshot takes its frame away. -/
theorem close?_eq (h : Savepoints table (start :: starts)) :
    table.journal.close? { id := start.journal.nextId } = some
      ({ id := start.journal.nextId, mark := start.journal.entries.size, count := start.size },
        { table.journal with frames := start.journal.frames }) := by
  obtain _ | ⟨hframes, -, -, -, -⟩ := h
  simp [Journal.close?, hframes, Table.opened, Journal.start]

/-- The journal gives up the innermost snapshot with the entries that take the
    nodes back, and keeps those of the table in which it was opened. -/
theorem rollback?_eq (h : Savepoints table (start :: starts)) :
    ∃ entries, table.journal.rollback? { id := start.journal.nextId } =
        some (entries, { start.journal with nextId := table.journal.nextId }) ∧
      Undone entries table.nodes start.nodes := by
  rw [Journal.rollback?, h.close?_eq]
  obtain _ | @⟨_, _, _, recent, -, hentries, hundone, -, -⟩ := h
  have hmark : start.journal.entries.size = start.journal.entries.toList.length := by simp
  have hsince : table.journal.entries.toList.drop start.journal.entries.size = recent := by
    rw [hentries, hmark, List.drop_left]
  have htruncate : table.journal.entries.take start.journal.entries.size =
      start.journal.entries := by
    apply Array.toList_inj.mp
    simp [hentries]
  refine ⟨recent.reverse, ?_, hundone⟩
  simp only [Option.map_some, Journal.since, Journal.truncate, hsince, htruncate]

/-- Rolling back the innermost snapshot restores the nodes, the entries and the
    open snapshots of the table in which it was opened. -/
theorem tryRollback_eq (h : Savepoints table (start :: starts)) :
    (Table.tryRollback { id := start.journal.nextId } : TableM α δ Bool) table =
      .ok true
        { start with journal := { start.journal with nextId := table.journal.nextId } } := by
  obtain ⟨entries, hrollback, hundone⟩ := h.rollback?_eq
  exact Table.tryRollback_of_undone hrollback hundone

theorem rolledBack (h : Savepoints table (start :: starts)) :
    Savepoints { start with journal := { start.journal with nextId := table.journal.nextId } }
      starts := by
  obtain _ | ⟨-, -, -, hnext, hstarts⟩ := h
  exact hstarts.congr rfl rfl rfl (Nat.le_of_lt hnext)

/-- Committing the innermost snapshot leaves the nodes alone, and hands its
    entries to the enclosing snapshot, which can be rolled back as before. -/
theorem commit?_eq (h : Savepoints table (start :: starts)) :
    ∃ journal, table.journal.commit? { id := start.journal.nextId } = some journal ∧
      journal.frames = start.journal.frames ∧ journal.nextId = table.journal.nextId ∧
      Savepoints { table with journal } starts := by
  rw [Journal.commit?, h.close?_eq]
  obtain _ | @⟨_, _, _, recent, hframes, hentries, hundone, hnext, hstarts⟩ := h
  refine ⟨_, rfl, ?_⟩
  cases hstarts with
  | nil hempty => simp [Journal.inSnapshot, hempty, Journal.truncate, Savepoints.nil]
  | @cons _ outer starts older houter holder hback hless hrest =>
    have hopen : start.journal.frames ≠ [] := by
      rw [houter]
      simp [Table.opened, Journal.start]
    have hinside : (!start.journal.frames.isEmpty) = true := by simpa using hopen
    simp only [Journal.inSnapshot, hinside, if_true, true_and]
    have hboth : table.journal.entries.toList =
        outer.journal.entries.toList ++ (older ++ recent) := by
      rw [hentries, holder, List.append_assoc]
    refine .cons houter hboth ?_ (Nat.lt_trans hless hnext) hrest
    rw [List.reverse_append]
    exact undone_append_iff.mpr ⟨start.nodes, hundone, hback⟩

end Savepoints

namespace Operation

/-- The calls that are about keys, and not about snapshots. -/
def isPlain : Operation κ α → Bool
  | snapshot | commit _ | rollback _ | newKeysSince _ => false
  | _ => true

theorem journaled (keys : KeyScheme κ α ε) :
    ∀ operation : Operation κ α, operation.isPlain → Journaled (operation.run keys)
  | newKey value, _ => (Journaled.newKey keys value).map _
  | find key, _ => (Journaled.find keys key).map _
  | probe key, _ => (Journaled.probe keys key).map _
  | unioned a b, _ => (Journaled.unioned keys a b).map _
  | union a b, _ => (Journaled.union keys a b).map _
  | unionValue key value, _ => (Journaled.unionValue keys key value).map _
  | reserve count, _ => (Journaled.reserve keys.toPayload count).map _

/-- What becomes of the savepoints of a table in a call: a snapshot adds the
    table itself, and closing the innermost one takes its savepoint away. -/
def savepoints (operation : Operation κ α) (table : Table α) (starts : List (Table α)) :
    List (Table α) :=
  match operation with
  | snapshot => table :: starts
  | commit handle | rollback handle =>
    if table.journal.innermost? = some handle.id then starts.tail else starts
  | _ => starts

theorem savepoints_cases (operation : Operation κ α) (table : Table α) (starts : List (Table α)) :
    operation.savepoints table starts = starts ∨
      operation.savepoints table starts = table :: starts ∨
      operation.savepoints table starts = starts.tail := by
  cases operation with
  | snapshot => exact .inr (.inl rfl)
  | commit handle | rollback handle =>
    rw [savepoints]
    split
    · exact .inr (.inr rfl)
    · exact .inl rfl
  | _ => exact .inl rfl

theorem savepoints_of_plain {operation : Operation κ α} (hplain : operation.isPlain)
    (table : Table α) (starts : List (Table α)) : operation.savepoints table starts = starts := by
  cases operation <;> first | rfl | cases hplain

end Operation

namespace Savepoints

variable {table : Table α} {starts : List (Table α)}

/-- The table in which the innermost snapshot was opened, from its number. -/
theorem exists_cons (h : Savepoints table starts) {handle : Snapshot}
    (hinnermost : table.journal.innermost? = some handle.id) :
    ∃ start rest, starts = start :: rest ∧ handle = { id := start.journal.nextId } := by
  rw [h.innermost?_eq] at hinnermost
  cases starts with
  | nil => simp at hinnermost
  | cons start rest =>
    obtain ⟨id⟩ := handle
    exact ⟨start, rest, rfl, by simpa using hinnermost.symm⟩

theorem after_of_journaled {action : TableM α δ β} (haction : Journaled action)
    (h : Savepoints table starts) :
    Savepoints (Action.after action table) starts ∧
      (Action.after action table).journal.nextId = table.journal.nextId := by
  obtain ⟨nodes, journal⟩ := table
  obtain ⟨outcome, changed, entries, hundone, hrun⟩ := haction nodes
  rw [Action.after_of_eq_ending (hrun journal)]
  exact ⟨h.recordAll hundone, Journal.nextId_recordAll journal entries⟩

/-- What a call about snapshots does to a table and to its savepoints: it is
    refused or just lists keys, or it opens or closes a snapshot. -/
inductive SnapshotStep (table : Table α) :
    List (Table α) → Table α → List (Table α) → Prop where
  | unchanged (starts : List (Table α)) : SnapshotStep table starts table starts
  | opened (starts : List (Table α)) : SnapshotStep table starts table.opened (table :: starts)
  | committed {start : Table α} {rest : List (Table α)} {journal : Journal α}
      (hcommit : table.journal.commit? { id := start.journal.nextId } = some journal) :
      SnapshotStep table (start :: rest) { table with journal } rest
  | rolledBack (start : Table α) (rest : List (Table α)) :
      SnapshotStep table (start :: rest)
        { start with journal := { start.journal with nextId := table.journal.nextId } } rest

theorem snapshotStep (keys : KeyScheme κ α ε) {operation : Operation κ α}
    (hplain : ¬ operation.isPlain) (h : Savepoints table starts) :
    SnapshotStep table starts (Action.after (operation.run keys) table)
      (operation.savepoints table starts) := by
  cases operation with
  | snapshot => exact .opened starts
  | commit handle =>
    rw [Operation.run, Action.after_map, Operation.savepoints]
    split
    next hinnermost =>
      obtain ⟨start, rest, rfl, rfl⟩ := h.exists_cons hinnermost
      obtain ⟨journal, hcommit, -⟩ := h.commit?_eq
      rw [Action.after_of_ok (Table.commit_of_some hcommit)]
      exact .committed hcommit
    next hinnermost =>
      rw [Action.after_of_error (Table.commit_of_ne hinnermost)]
      exact .unchanged starts
  | rollback handle =>
    rw [Operation.run, Action.after_map, Operation.savepoints]
    split
    next hinnermost =>
      obtain ⟨start, rest, rfl, rfl⟩ := h.exists_cons hinnermost
      rw [Action.after_of_ok (Table.rollback_of_tryRollback h.tryRollback_eq)]
      exact .rolledBack start rest
    next hinnermost =>
      rw [Action.after_of_error (Table.rollback_of_ne hinnermost)]
      exact .unchanged starts
  | newKeysSince handle =>
    rw [Operation.run, Action.after_map,
      Action.after_of_eq_ending (Table.newKeysSince_eq keys handle table)]
    exact .unchanged starts
  | _ => exact absurd rfl hplain

/-- A call keeps the savepoints in step: every snapshot that is open after it
    can be rolled back to the table in which it was opened. No call takes the
    number of the next snapshot back. -/
theorem run (keys : KeyScheme κ α ε) (operation : Operation κ α) (h : Savepoints table starts) :
    Savepoints (Action.after (operation.run keys) table) (operation.savepoints table starts) ∧
      table.journal.nextId ≤ (Action.after (operation.run keys) table).journal.nextId := by
  by_cases hplain : operation.isPlain
  · rw [Operation.savepoints_of_plain hplain]
    obtain ⟨hleft, hnext⟩ := h.after_of_journaled (operation.journaled keys hplain)
    exact ⟨hleft, Nat.le_of_eq hnext.symm⟩
  have hstep := h.snapshotStep keys hplain
  generalize Action.after (operation.run keys) table = left, operation.savepoints table starts =
    leftStarts at hstep
  cases hstep with
  | unchanged => exact ⟨h, Nat.le_refl _⟩
  | opened => exact ⟨h.opened, Nat.le_succ _⟩
  | committed hcommit =>
    obtain ⟨journal, hsame, -, hnext, hrest⟩ := h.commit?_eq
    rw [hcommit] at hsame
    cases hsame
    exact ⟨hrest, Nat.le_of_eq hnext.symm⟩
  | rolledBack => exact ⟨h.rolledBack, Nat.le_refl _⟩

theorem perform (keys : KeyScheme κ α ε) (operations : List (Operation κ α))
    (h : Savepoints table starts) : ∃ rest, Savepoints (Table.perform keys operations table) rest := by
  induction operations generalizing table starts with
  | nil => exact ⟨starts, h⟩
  | cons operation rest ih => exact ih (h.run keys operation).1

end Savepoints

end Unification
