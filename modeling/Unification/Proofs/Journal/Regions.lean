import Unification.Proofs.Snapshot.Savepoints
import Unification.Session.Store

namespace Unification

variable {α ε : Type}

/-- The calls on a journal alone. Nothing keeps their entries, counts and
    handles in step with nodes. A rollback answers with its entries, in the
    order in which they are undone, and undoes none of them. -/
inductive JournalCall (α : Type) where
  | push (entry : Entry α)
  | start (count : Nat)
  | count (handle : Snapshot)
  | innermost
  | inSnapshot
  | commit (handle : Snapshot)
  | rollback (handle : Snapshot)

def JournalCall.toStore : JournalCall α → StoreCall α
  | .push entry => .journal entry
  | .start size => .snapshot (some size)
  | .count handle => .count handle
  | .innermost => .innermost
  | .inSnapshot => .inSnapshot
  | .commit handle => .commit handle
  | .rollback handle => .rollback handle false none

/-- What calls on a journal show: the reply to each of them, with the entries
    and the open snapshots after it. -/
def Journal.observations [Inspect α] (payload : Payload α ε) (calls : List (JournalCall α))
    (journal : Journal α) :
    List (Except Fault (StoreReply α ε) × List (Entry α) × List (Nat × Nat)) :=
  (Session.transcript (calls.map fun call => call.toStore.run payload) { journal }).map
    fun (reply, left) => (reply, left.journal.entries.toList,
      left.journal.frames.map fun frame => (frame.id, frame.count))

/-- An open snapshot that holds its entries itself. -/
structure Region (α : Type) where
  id : Nat
  count : Nat
  entries : List (Entry α) := []

/-- A journal in pieces: the entries that were pushed while no snapshot was
    open, and the open snapshots, innermost first, each with its own entries. -/
structure Regions (α : Type) where
  base : List (Entry α) := []
  stack : List (Region α) := []
  nextId : Nat := 1

namespace Regions

/-- Pushes an entry onto the innermost region, if there is one. -/
def push (regions : Regions α) (entry : Entry α) : Regions α :=
  match regions.stack with
  | [] => { regions with base := regions.base ++ [entry] }
  | region :: outer =>
    { regions with stack := { region with entries := region.entries ++ [entry] } :: outer }

def start (regions : Regions α) (count : Nat) : Regions α :=
  { regions with
    stack := { id := regions.nextId, count } :: regions.stack
    nextId := regions.nextId + 1 }

def count? (regions : Regions α) (handle : Snapshot) : Option Nat :=
  (regions.stack.find? (·.id == handle.id)).map (·.count)

def innermost? (regions : Regions α) : Option Nat :=
  regions.stack.head?.map (·.id)

/-- Closes the innermost region, whose entries go to the one around it. If there
    is none, they are dropped. -/
def commit? (regions : Regions α) (handle : Snapshot) : Option (Regions α) :=
  match regions.stack with
  | [] => none
  | region :: outer =>
    if region.id = handle.id then
      match outer with
      | [] => some { regions with stack := [] }
      | below :: rest =>
        some
          { regions with
            stack := { below with entries := below.entries ++ region.entries } :: rest }
    else none

/-- Closes the innermost region and gives up its entries, newest first. -/
def rollback? (regions : Regions α) (handle : Snapshot) :
    Option (List (Entry α) × Regions α) :=
  match regions.stack with
  | [] => none
  | region :: outer =>
    if region.id = handle.id then
      some (region.entries.reverse, { regions with stack := outer })
    else none

/-- All entries, oldest first. -/
def entries (regions : Regions α) : List (Entry α) :=
  regions.base ++ regions.stack.reverse.flatMap (·.entries)

def mismatch (regions : Regions α) (handle : Snapshot) :
    Except (TableError ε) (StoreAnswer α) × Regions α :=
  (.error (.snapshotMismatch handle.id regions.innermost?), regions)

/-- What a call comes to, and the regions after it. -/
def answer (regions : Regions α) :
    JournalCall α → Except (TableError ε) (StoreAnswer α) × Regions α
  | .push entry => (.ok .done, regions.push entry)
  | .start count => (.ok (.handle { id := regions.nextId }), regions.start count)
  | .count handle => (.ok (.count (regions.count? handle)), regions)
  | .innermost => (.ok (.count regions.innermost?), regions)
  | .inSnapshot => (.ok (.flag !regions.stack.isEmpty), regions)
  | .commit handle =>
    match regions.commit? handle with
    | some left => (.ok .done, left)
    | none => regions.mismatch handle
  | .rollback handle =>
    match regions.rollback? handle with
    | some (entries, left) => (.ok (.entries entries), left)
    | none => regions.mismatch handle

/-- What calls on regions show, in the form of calls on a journal. -/
def observations : List (JournalCall α) → Regions α →
    List (Except Fault (StoreReply α ε) × List (Entry α) × List (Nat × Nat))
  | [], _ => []
  | call :: rest, regions =>
    let (outcome, left) := regions.answer call
    (.ok { outcome, size := 0, entries := left.entries.length, depth := left.stack.length },
      left.entries, left.stack.map fun region => (region.id, region.count)) ::
        observations rest left

/-- The frames of regions: each has its mark where its entries begin, behind
    those of all regions around it. -/
def frames (base : List (Entry α)) : List (Region α) → List Frame
  | [] => []
  | region :: outer =>
    { id := region.id
      mark := (base ++ outer.reverse.flatMap (·.entries)).length
      count := region.count } :: frames base outer

/-- The journal that holds the same in one piece. -/
def toJournal (regions : Regions α) : Journal α where
  entries := regions.entries.toArray
  frames := frames regions.base regions.stack
  nextId := regions.nextId

variable {regions : Regions α} {region : Region α} {outer : List (Region α)} {handle : Snapshot}

/-- The innermost region has the newest entries. -/
theorem entries_of_cons (hstack : regions.stack = region :: outer) :
    regions.entries = { regions with stack := outer }.entries ++ region.entries := by
  simp [entries, hstack]

theorem frames_of_cons (hstack : regions.stack = region :: outer) :
    regions.toJournal.frames =
      { id := region.id
        mark := { regions with stack := outer }.entries.length
        count := region.count } :: { regions with stack := outer }.toJournal.frames := by
  simp only [toJournal, hstack, frames, entries]

theorem map_frames (base : List (Entry α)) (stack : List (Region α)) :
    (frames base stack).map (fun frame => (frame.id, frame.count)) =
      stack.map fun region => (region.id, region.count) := by
  induction stack with
  | nil => rfl
  | cons region outer ih => simp only [frames, List.map_cons, ih]

theorem toJournal_push (regions : Regions α) (entry : Entry α) :
    (regions.push entry).toJournal = regions.toJournal.push entry := by
  cases hstack : regions.stack with
  | nil => simp [push, toJournal, Journal.push, entries, hstack, frames]
  | cons region outer => simp [push, toJournal, Journal.push, entries, hstack, frames]

theorem start_toJournal (regions : Regions α) (count : Nat) :
    regions.toJournal.start count = ({ id := regions.nextId }, (regions.start count).toJournal) := by
  simp [start, toJournal, Journal.start, entries, frames]

theorem innermost?_toJournal (regions : Regions α) :
    regions.toJournal.innermost? = regions.innermost? := by
  cases hstack : regions.stack <;> simp [Journal.innermost?, innermost?, toJournal, frames, hstack]

theorem count?_toJournal (regions : Regions α) (handle : Snapshot) :
    regions.toJournal.count? handle = regions.count? handle := by
  unfold Journal.count? count? toJournal
  induction regions.stack with
  | nil => rfl
  | cons region outer ih =>
    by_cases hid : region.id = handle.id
    · simp [frames, hid]
    · simpa [frames, hid] using ih

theorem inSnapshot_toJournal (regions : Regions α) :
    regions.toJournal.inSnapshot = !regions.stack.isEmpty := by
  cases hstack : regions.stack <;> simp [Journal.inSnapshot, toJournal, frames, hstack]

theorem exists_cons (hinnermost : regions.innermost? = some handle.id) :
    ∃ region outer, regions.stack = region :: outer ∧ region.id = handle.id := by
  obtain ⟨region, hregion, hid⟩ := Option.map_eq_some_iff.mp hinnermost
  obtain ⟨outer, hstack⟩ := List.head?_eq_some_iff.mp hregion
  exact ⟨region, outer, hstack, hid⟩

/-- No region but the innermost one can be closed. -/
theorem closed_of_ne (hinnermost : regions.innermost? ≠ some handle.id) :
    regions.commit? handle = none ∧ regions.rollback? handle = none := by
  cases hstack : regions.stack with
  | nil => simp [commit?, rollback?, hstack]
  | cons region outer =>
    have hid : region.id ≠ handle.id := by simpa [innermost?, hstack] using hinnermost
    simp [commit?, rollback?, hstack, hid]

/-- Closing the innermost region of a journal in one piece takes its frame away
    and leaves all entries where they are. -/
theorem close?_toJournal (hstack : regions.stack = region :: outer) (hid : region.id = handle.id) :
    regions.toJournal.close? handle =
      some
        ({ id := region.id
           mark := { regions with stack := outer }.entries.length
           count := region.count },
          { regions.toJournal with frames := { regions with stack := outer }.toJournal.frames }) := by
  simp only [Journal.close?, frames_of_cons hstack, hid, if_true]

theorem close?_toJournal_of_ne (hinnermost : regions.innermost? ≠ some handle.id) :
    regions.toJournal.close? handle = none := by
  rwa [Journal.close?_eq_none_iff, innermost?_toJournal]

/-- The entries since the mark of the innermost region are its own. -/
theorem rollback?_toJournal (regions : Regions α) (handle : Snapshot) :
    regions.toJournal.rollback? handle =
      (regions.rollback? handle).map fun (entries, left) => (entries, left.toJournal) := by
  by_cases hinnermost : regions.innermost? = some handle.id
  · obtain ⟨region, outer, hstack, hid⟩ := exists_cons hinnermost
    rw [Journal.rollback?, close?_toJournal hstack hid]
    simp [rollback?, hstack, hid, Journal.since, Journal.truncate, toJournal,
      entries_of_cons hstack]
  · rw [(closed_of_ne hinnermost).2, Journal.rollback?, close?_toJournal_of_ne hinnermost]
    rfl

/-- Handing entries on to the region below moves none of them; only the base
    keeps nothing of what the outermost region had. -/
theorem commit?_toJournal (regions : Regions α) (handle : Snapshot) :
    regions.toJournal.commit? handle = (regions.commit? handle).map toJournal := by
  by_cases hinnermost : regions.innermost? = some handle.id
  · obtain ⟨region, outer, hstack, hid⟩ := exists_cons hinnermost
    rw [Journal.commit?, close?_toJournal hstack hid]
    cases outer with
    | nil =>
      simp [commit?, hstack, hid, Journal.inSnapshot, Journal.truncate, toJournal, frames, entries]
    | cons below rest =>
      simp [commit?, hstack, hid, Journal.inSnapshot, toJournal, frames, entries]
  · rw [(closed_of_ne hinnermost).1, Journal.commit?, close?_toJournal_of_ne hinnermost]
    rfl

theorem entries_length (regions : Regions α) :
    regions.toJournal.entries.size = regions.entries.length := by
  simp [toJournal]

theorem depth_toJournal (regions : Regions α) : regions.toJournal.depth = regions.stack.length := by
  have hlength := congrArg List.length (map_frames regions.base regions.stack)
  simpa [Journal.depth, toJournal] using hlength

end Regions

/-- A call is made once its answer is known. -/
theorem StoreCall.run_of_answer [Inspect α] {payload : Payload α ε} {call : StoreCall α}
    {table left : Table α} {outcome : Except (TableError ε) (StoreAnswer α)}
    (h : call.answer payload table = Action.ending (outcome.mapError .refused) left) :
    call.run payload table =
      .ok
        { outcome
          size := left.size
          entries := left.journal.entries.size
          depth := left.journal.depth }
        left := by
  cases outcome with
  | ok result => exact Action.bind_of_ok (Action.attempt_of_ok h)
  | error reason => exact Action.bind_of_ok (Action.attempt_of_refused h)

namespace Regions

variable {regions left : Regions α} {outcome : Except (TableError ε) (StoreAnswer α)}

/-- A journal and its regions answer a call alike, and stay alike. -/
theorem answer_toStore [Inspect α] (payload : Payload α ε) {call : JournalCall α}
    (h : regions.answer call = (outcome, left)) :
    call.toStore.answer payload { journal := regions.toJournal } =
      Action.ending (outcome.mapError .refused) { journal := left.toJournal } := by
  cases call with
  | push entry =>
    cases h
    rw [toJournal_push]
    rfl
  | start count =>
    cases h
    have hstart : (regions.toJournal.start count).2 = (regions.start count).toJournal := by
      rw [start_toJournal]
    rw [← hstart]
    rfl
  | count handle =>
    cases h
    rw [← count?_toJournal]
    rfl
  | innermost =>
    cases h
    rw [← innermost?_toJournal]
    rfl
  | inSnapshot =>
    cases h
    rw [← inSnapshot_toJournal]
    rfl
  | commit handle =>
    have hcommit := commit?_toJournal regions handle
    rw [answer] at h
    cases hclosed : regions.commit? handle with
    | some closed =>
      rw [hclosed] at h hcommit
      cases h
      exact Action.map_of_ok (Table.commit_of_some hcommit)
    | none =>
      rw [hclosed] at h hcommit
      have hinnermost : regions.toJournal.innermost? ≠ some handle.id := by
        rwa [Option.map_none, Journal.commit?, Option.map_eq_none_iff,
          Journal.close?_eq_none_iff] at hcommit
      cases h
      rw [← innermost?_toJournal]
      exact Action.map_of_error (Table.commit_of_ne hinnermost)
  | rollback handle =>
    have hrollback := rollback?_toJournal regions handle
    rw [answer] at h
    rw [JournalCall.toStore, StoreCall.answer, Action.get_bind, hrollback]
    cases hclosed : regions.rollback? handle with
    | some closed =>
      rw [hclosed] at h
      cases h
      rfl
    | none =>
      rw [hclosed] at h
      cases h
      rw [← innermost?_toJournal]
      rfl

/-- So a journal replies as its regions do. -/
theorem run_toStore [Inspect α] (payload : Payload α ε) {call : JournalCall α}
    (h : regions.answer call = (outcome, left)) :
    call.toStore.run payload { journal := regions.toJournal } =
      .ok { outcome, size := 0, entries := left.entries.length, depth := left.stack.length }
        { journal := left.toJournal } := by
  rw [StoreCall.run_of_answer (answer_toStore payload h), ← entries_length, ← depth_toJournal]
  rfl

/-- A journal in one piece and a stack of regions cannot be told apart by any
    calls, whatever their entries, counts and handles are: they answer the same,
    they give up the same entries in the same order, and after every call they
    have the same entries and the same open snapshots. -/
theorem observations_eq_journal [Inspect α] (payload : Payload α ε) (calls : List (JournalCall α)) :
    observations calls {} = Journal.observations payload calls {} := by
  have halike : ∀ regions : Regions α,
      observations calls regions = Journal.observations payload calls regions.toJournal := by
    induction calls with
    | nil => exact fun _ => rfl
    | cons call rest ih =>
      intro regions
      rcases hanswer : (regions.answer call : Except (TableError ε) _ × _) with ⟨outcome, left⟩
      have hrun := run_toStore payload hanswer
      rw [observations, hanswer, Journal.observations, List.map_cons, Session.transcript_cons,
        Action.outcome_of_ok hrun, Action.after_of_ok hrun, List.map_cons]
      dsimp only
      rw [ih left, Journal.observations]
      simp only [toJournal, map_frames]
  exact halike {}

end Regions

end Unification
