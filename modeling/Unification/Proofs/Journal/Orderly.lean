import Unification.Proofs.Forest.Effect
import Unification.Proofs.Journal.Replay

namespace Unification

variable {κ α ε δ : Type}

/-- The snapshot that a commit closes gives its entries to the enclosing one. If
    there is none, they are dropped from its mark on. -/
theorem Journal.commit?_cases {journal left : Journal α} {handle : Snapshot}
    (h : journal.commit? handle = some left) :
    (left.frames ≠ [] ∧ left.entries = journal.entries) ∨
      ∃ frame, journal.frames = [frame] ∧ left.frames = [] ∧
        left.entries = journal.entries.take frame.mark := by
  cases hframes : journal.frames with
  | nil => simp [commit?, close?, hframes] at h
  | cons frame outer =>
    by_cases hid : frame.id = handle.id
    · cases outer with
      | nil =>
        simp only [commit?, close?, hframes, hid, if_true, Option.map_some, inSnapshot,
          List.isEmpty_nil, Bool.not_true] at h
        cases h
        exact .inr ⟨frame, rfl, rfl, rfl⟩
      | cons below rest =>
        simp only [commit?, close?, hframes, hid, if_true, Option.map_some, inSnapshot,
          List.isEmpty_cons, Bool.not_false] at h
        cases h
        exact .inl ⟨List.cons_ne_nil below rest, rfl⟩
    · simp [commit?, close?, hframes, hid] at h

/-- Every position from a mark on is read once, from the last one downward. -/
theorem Journal.map_some_since {journal : Journal α} {mark count : Nat}
    (hcount : mark + count = journal.entries.size) :
    (journal.since mark).map some =
      (List.range' mark count).reverse.map (journal.entries[·]?) := by
  rw [since, List.map_reverse, List.map_reverse]
  congr 1
  apply List.ext_getElem
  · simp only [List.length_map, List.length_drop, Array.length_toList, List.length_range']
    omega
  · intro n hn hn'
    simp only [List.length_map, List.length_range'] at hn'
    have hposition : mark + n < journal.entries.size := by omega
    simp [hposition]

/-- What a call about keys journals can be undone in order. -/
theorem Operation.exists_replayable (keys : KeyScheme κ α ε) {table : Table α}
    {operation : Operation κ α} (hplain : operation.isPlain) (hforest : Forest table.nodes) :
    ∃ entries, (Action.after (operation.run keys) table).journal = table.journal.recordAll entries ∧
      Replayable entries.reverse (Action.after (operation.run keys) table).size table.size := by
  by_cases hnew : ∃ value, operation = newKey value
  · obtain ⟨value, rfl⟩ := hnew
    rw [run, Action.after_map]
    rcases Table.newKey_cases keys table value with hrun | ⟨reason, hrun⟩
    · rw [Action.after_of_ok hrun]
      refine ⟨[.appended table.size], rfl, ?_⟩
      have hgrown : ({ nodes := table.nodes.push (.singleton table.size value) : Table α }).size =
          table.size + 1 := Array.size_push _
      exact hgrown ▸ .appended (.nil table.size)
    · rw [Action.after_of_error hrun]
      exact ⟨[], rfl, .nil _⟩
  have hother : ∀ value, operation ≠ newKey value := fun value heq => hnew ⟨value, heq⟩
  rcases Nat.eq_zero_or_pos table.size with hempty | hpos
  · rw [operation.after_of_empty keys hplain hother hempty]
    exact ⟨[], rfl, .nil _⟩
  obtain ⟨_, left, hrun, heffect⟩ := exists_effect keys table hplain hforest
  obtain ⟨_, changed, entries, hundone, hjournaled⟩ := operation.journaled keys hplain table.nodes
  have hleft : left = { nodes := changed, journal := table.journal.recordAll entries } := by
    rw [← Action.after_of_eq_ending hrun, ← Action.after_of_eq_ending (hjournaled table.journal)]
  have hsize := heffect.size_eq hother
  rw [Action.after_of_eq_ending hrun]
  subst hleft
  exact ⟨entries, rfl, hundone.replayable hsize.symm (hsize ▸ hpos)⟩

/-- A forest with a journal that can be undone in order, from its last entry to
    its first one. Nothing is journaled while no snapshot is open. -/
structure Table.Orderly (table : Table α) : Prop where
  forest : Forest table.nodes
  entries_eq : table.journal.frames = [] → table.journal.entries = #[]
  exists_replayable : ∃ before, Replayable table.journal.entries.toList.reverse table.size before

theorem Table.Orderly.of_nothing {table : Table α} (hforest : Forest table.nodes)
    (hentries : table.journal.entries = #[]) : table.Orderly where
  forest := hforest
  entries_eq := fun _ => hentries
  exists_replayable := by
    rw [hentries]
    exact ⟨table.size, .nil _⟩

/-- What counts is what can be undone, and whether there is a snapshot to do it. -/
theorem Table.Orderly.congr {table left : Table α} (h : table.Orderly)
    (hnodes : left.nodes = table.nodes) (hentries : left.journal.entries = table.journal.entries)
    (hframes : left.journal.frames = [] → table.journal.frames = []) : left.Orderly where
  forest := hnodes ▸ h.forest
  entries_eq := fun hnone => hentries.trans (h.entries_eq (hframes hnone))
  exists_replayable := by
    rw [hentries, Table.size, hnodes]
    exact h.exists_replayable

theorem Table.Orderly.recordAll {table left : Table α} {entries : List (Entry α)}
    (h : table.Orderly) (hforest : Forest left.nodes)
    (hjournal : left.journal = table.journal.recordAll entries)
    (hreplay : Replayable entries.reverse left.size table.size) : left.Orderly := by
  by_cases hframes : table.journal.frames = []
  · rw [Journal.recordAll_of_closed hframes] at hjournal
    exact .of_nothing hforest (hjournal ▸ h.entries_eq hframes)
  · have hopen : left.journal.frames ≠ [] := by rwa [hjournal, Journal.frames_recordAll]
    obtain ⟨before, hbefore⟩ := h.exists_replayable
    refine ⟨hforest, fun hnone => absurd hnone hopen, before, ?_⟩
    rw [hjournal, Journal.entries_recordAll hframes, List.reverse_append]
    exact hreplay.append hbefore

namespace Savepoints

variable {table : Table α} {starts : List (Table α)}

/-- Nodes are taken away only by rolling back, and none that was there when a
    snapshot was opened is taken away while it is open. -/
theorem size_le (h : Savepoints table starts) : ∀ start ∈ starts, start.size ≤ table.size := by
  induction h with
  | nil => exact List.forall_mem_nil _
  | cons _ _ hundone _ _ ih =>
    intro other hother
    cases hother with
    | head => exact hundone.size_le
    | tail _ hother => exact Nat.le_trans (ih other hother) hundone.size_le

/-- An open snapshot has its mark within the journal. -/
theorem mark_le (h : Savepoints table starts) :
    ∀ frame ∈ table.journal.frames, frame.mark ≤ table.journal.entries.size := by
  induction h with
  | nil hframes => simp [hframes]
  | @cons table start starts recent hframes hentries _ _ _ ih =>
    have hmore : start.journal.entries.size ≤ table.journal.entries.size := by
      have hlength := congrArg List.length hentries
      simp only [Array.length_toList, List.length_append] at hlength
      omega
    intro frame hframe
    rw [hframes] at hframe
    cases hframe with
    | head => exact hmore
    | tail _ hframe => exact Nat.le_trans (ih frame hframe) hmore

/-- The nodes that a snapshot has counted are still there. -/
theorem count_le (h : Savepoints table starts) :
    ∀ frame ∈ table.journal.frames, frame.count ≤ table.size := by
  induction h with
  | nil hframes => simp [hframes]
  | cons hframes _ hundone _ _ ih =>
    intro frame hframe
    rw [hframes] at hframe
    cases hframe with
    | head => exact hundone.size_le
    | tail _ hframe => exact Nat.le_trans (ih frame hframe) hundone.size_le

/-- Nothing is journaled before the outermost snapshot is opened. -/
theorem mark_eq_zero (h : Savepoints table starts) (horderly : ∀ start ∈ starts, start.Orderly)
    {frame : Frame} (hframe : table.journal.frames = [frame]) : frame.mark = 0 := by
  cases h with
  | nil hframes =>
    rw [hframes] at hframe
    cases hframe
  | @cons _ start starts recent hframes hentries hundone hnext hstarts =>
    rw [hframes] at hframe
    obtain ⟨rfl, houter⟩ := List.cons.inj hframe
    have hempty := (horderly start List.mem_cons_self).entries_eq houter
    simp [hempty]

/-- Calls leave a table orderly, if those in which its snapshots were opened are. -/
theorem orderly_run (keys : KeyScheme κ α ε) (operation : Operation κ α)
    (h : Savepoints table starts) (htable : table.Orderly)
    (hstarts : ∀ start ∈ starts, start.Orderly) :
    (Action.after (operation.run keys) table).Orderly := by
  by_cases hplain : operation.isPlain
  · obtain ⟨outcome, left, hrun, heffect⟩ := operation.exists_effect keys table hplain htable.forest
    obtain ⟨entries, hjournal, hreplay⟩ := operation.exists_replayable keys hplain htable.forest
    rw [Action.after_of_eq_ending hrun] at hjournal hreplay ⊢
    exact htable.recordAll (heffect.forest htable.forest) hjournal hreplay
  have hstep := h.snapshotStep keys hplain
  generalize Action.after (operation.run keys) table = left, operation.savepoints table starts =
    leftStarts at hstep
  cases hstep with
  | unchanged => exact htable
  | opened => exact htable.congr rfl rfl fun hnone => by cases hnone
  | committed hcommit =>
    rcases Journal.commit?_cases hcommit with ⟨hopen, hentries⟩ | ⟨frame, hframe, -, hentries⟩
    · exact htable.congr rfl hentries fun hnone => absurd hnone hopen
    · rw [h.mark_eq_zero hstarts hframe] at hentries
      exact .of_nothing htable.forest (by simp [hentries])
  | rolledBack start rest => exact (hstarts start List.mem_cons_self).congr rfl rfl id

/-- All tables that calls lead to are orderly, and so are those in which their
    snapshots were opened. -/
theorem exists_orderly (keys : KeyScheme κ α ε) (operations : List (Operation κ α))
    (h : Savepoints table starts) (htable : table.Orderly)
    (hstarts : ∀ start ∈ starts, start.Orderly) :
    ∃ rest, Savepoints (Table.perform keys operations table) rest ∧
      (Table.perform keys operations table).Orderly ∧ ∀ start ∈ rest, start.Orderly := by
  induction operations generalizing table starts with
  | nil => exact ⟨starts, h, htable, hstarts⟩
  | cons operation rest ih =>
    refine ih (h.run keys operation).1 (h.orderly_run keys operation htable hstarts) ?_
    rcases operation.savepoints_cases table starts with hsame | hmore | hless
    · rwa [hsame]
    · rw [hmore]
      exact List.forall_mem_cons.mpr ⟨htable, hstarts⟩
    · rw [hless]
      exact fun start hmem => hstarts start (List.mem_of_mem_tail hmem)

end Savepoints

/-- How the journal of a table stands to the nodes: whatever is to be undone is
    there, and is in place when its turn comes. -/
structure Table.JournalInOrder (δ : Type) (table : Table α) : Prop where
  /-- Without an open snapshot nothing is kept. -/
  entries_eq : table.journal.frames = [] → table.journal.entries = #[]
  mark_le : ∀ frame ∈ table.journal.frames, frame.mark ≤ table.journal.entries.size
  /-- A rollback reads as many positions from the mark on as there are entries left,
      and each of them is the position of an entry. -/
  exists_count : ∀ frame ∈ table.journal.frames, ∃ count,
    frame.mark + count = table.journal.entries.size ∧
    (∀ position ∈ List.range' frame.mark count, position < table.journal.entries.size) ∧
    (table.journal.since frame.mark).map some =
      (List.range' frame.mark count).reverse.map (table.journal.entries[·]?)
  /-- While the innermost snapshot is rolled back, each of its entries finds the
      nodes as it needs them, after all those before it have been undone. -/
  inPlace : ∀ (frame : Frame) (outer : List Frame), table.journal.frames = frame :: outer →
    ∀ (undone rest : List (Entry α)) (entry : Entry α),
      table.journal.since frame.mark = undone ++ entry :: rest →
        ∃ moment, (undone.forM undo : TableM α δ PUnit)
            { table with journal := { table.journal with frames := outer } } = .ok ⟨⟩ moment ∧
          entry.InPlace moment.size
  /-- The outermost snapshot owns the whole journal, and its commit empties it. -/
  outermost : ∀ frame, table.journal.frames = [frame] →
    frame.mark = 0 ∧ ∃ journal, table.journal.commit? { id := frame.id } = some journal ∧
      journal.entries = #[] ∧ journal.frames = []

/-- What keeps the journal in order are the tables in which the snapshots were opened. -/
theorem Savepoints.journalInOrder {table : Table α} {starts : List (Table α)}
    (h : Savepoints table starts) (htable : table.Orderly)
    (hstarts : ∀ start ∈ starts, start.Orderly) : table.JournalInOrder δ where
  entries_eq := htable.entries_eq
  mark_le := h.mark_le
  exists_count := by
    intro frame hframe
    obtain ⟨count, hcount⟩ := Nat.exists_eq_add_of_le (h.mark_le frame hframe)
    refine ⟨count, hcount.symm, fun position hposition => ?_, Journal.map_some_since hcount.symm⟩
    rw [List.mem_range'_1] at hposition
    exact hcount ▸ hposition.2
  inPlace := by
    intro frame outer hframes undone rest entry hsince
    obtain ⟨before, hreplay⟩ := htable.exists_replayable
    have hsplit := congrArg List.reverse (table.journal.truncate_append_since frame.mark)
    rw [List.reverse_append, List.reverse_reverse, hsince, List.append_assoc] at hsplit
    rw [← hsplit] at hreplay
    have hclosed : Replayable _
        ({ table with journal := { table.journal with frames := outer } } : Table α).size before :=
      hreplay
    exact hclosed.exists_moment
  outermost := by
    intro frame hframe
    have hmark := h.mark_eq_zero hstarts hframe
    refine ⟨hmark, ?_⟩
    simp [Journal.commit?, Journal.close?, hframe, Journal.inSnapshot, Journal.truncate, hmark]

end Unification
