import Mathlib.Data.List.Forall2
import Unification.Keys.Numbering
import Unification.Keys.RootOrder
import Unification.Payload.Number
import Unification.Proofs.Forest.Reachable
import Unification.Proofs.Journal.Orderly
import Unification.Proofs.Snapshot.Handles

namespace Unification

variable {κ α ε δ β : Type}

/-- A key that was made is that of the next index. -/
theorem Table.newKey_of_answer {keys : KeyScheme κ α ε} {table : Table α} {value : α} {key : κ}
    (h : Action.outcome ((Operation.newKey value).run keys) table = .ok (.key key)) :
    key = keys.ofIndex table.size ∧
      (Action.after ((Operation.newKey value).run keys) table).size = table.size + 1 := by
  rw [Operation.run, Action.outcome_map] at h
  rw [Operation.run, Action.after_map]
  rcases Table.newKey_cases keys table value with hrun | ⟨reason, hrun⟩
  · rw [Action.outcome_of_ok hrun] at h
    cases h
    rw [Action.after_of_ok hrun]
    exact ⟨rfl, Array.size_push _⟩
  · rw [Action.outcome_of_error hrun] at h
    cases h

/-- Only a new key and a rollback change how many nodes there are. -/
theorem Savepoints.size_run {keys : KeyScheme κ α ε} {operation : Operation κ α} {table : Table α}
    {starts : List (Table α)} (h : Savepoints table starts) (hforest : Forest table.nodes)
    (hnew : ∀ value key, operation = .newKey value →
      Action.outcome (operation.run keys) table ≠ .ok (.key key))
    (hback : ∀ handle, operation = .rollback handle →
      table.journal.innermost? ≠ some handle.id) :
    (Action.after (operation.run keys) table).size = table.size := by
  by_cases hplain : operation.isPlain
  · obtain ⟨outcome, left, hrun, heffect⟩ := operation.exists_effect keys table hplain hforest
    have houtcome := Action.outcome_of_eq_ending hrun
    rw [Action.after_of_eq_ending hrun, Table.size, Table.size]
    by_cases hkind : ∀ value, operation ≠ .newKey value
    · exact heffect.size_eq hkind
    obtain ⟨value, rfl⟩ := not_forall_not.mp hkind
    generalize left.nodes = changed at heffect
    cases heffect with
    | refused _ hflat => exact hflat.size_eq
    | newKey => exact absurd houtcome (hnew value _ rfl)
  obtain ⟨left, rest, hleft, hcall⟩ := h.snapshotCall keys hplain
  rw [hleft]
  cases hcall with
  | snapshot | unchanged => rfl
  | commit _ hnodes => rw [Table.size, hnodes, Table.size]
  | @rollback start _ rest =>
    have hinnermost : table.journal.innermost? = some start.journal.nextId := h.innermost?_eq
    exact absurd hinnermost (hback _ rfl)

namespace History

variable {keys : KeyScheme κ α ε} {history more : List (Operation κ α)} {position opening : Nat}
  {operation last : Operation κ α} {handle : Snapshot}

namespace StaysOpen

theorem size_le (h : StaysOpen keys history opening handle) :
    (tableAt keys history opening).size ≤ (Table.perform keys history {}).size := by
  obtain ⟨positions, hpositions⟩ := exists_openings keys history
  have hmem := (hpositions.mem_iff opening).mpr ⟨handle, h⟩
  exact hpositions.savepoints.size_le _ (List.mem_map_of_mem hmem)

/-- An open snapshot has kept how many nodes there were when it was opened. -/
theorem count?_eq (h : StaysOpen keys history opening handle) :
    (Table.perform keys history {}).journal.count? handle =
      some (tableAt keys history opening).size := by
  obtain ⟨positions, hpositions⟩ := exists_openings keys history
  rw [hpositions.savepoints.count?_eq, List.find?_map, Option.map_map]
  cases hfound : positions.find? _ with
  | none =>
    have hnone := List.find?_eq_none.mp hfound opening ((hpositions.mem_iff opening).mpr ⟨_, h⟩)
    simp [h.opens.id_eq] at hnone
  | some other =>
    obtain ⟨otherHandle, hother⟩ := (hpositions.mem_iff other).mp (List.mem_of_find?_eq_some hfound)
    have hid : (tableAt keys history other).journal.nextId = handle.id := by
      simpa using List.find?_some hfound
    have hopens : Opens keys history other handle :=
      opens_iff.mpr ⟨hother.opens.getElem?, hid.symm⟩
    rw [h.opens.unique hopens]
    rfl

theorem of_append (h : StaysOpen keys (history ++ more) opening handle)
    (hlt : opening < history.length) : StaysOpen keys history opening handle where
  opens := (Answers.append_iff hlt).mp h.opens
  not_closes := fun later hlater hcloses => h.not_closes later hlater hcloses.append

end StaysOpen

/-- What is closed was opened last of all that is open. -/
theorem WillClose.exists_last (h : WillClose keys history operation handle) :
    ∃ opening starts, StaysOpen keys history opening handle ∧
      Savepoints (Table.perform keys history {}) (tableAt keys history opening :: starts) ∧
      ∀ other otherHandle, StaysOpen keys history other otherHandle → other ≤ opening := by
  obtain ⟨positions, hpositions⟩ := exists_openings keys history
  obtain ⟨opening, rest, rfl, hopen⟩ := hpositions.exists_cons h
  refine ⟨opening, _, hopen, hpositions.savepoints, fun other otherHandle hother => ?_⟩
  rcases List.mem_cons.mp ((hpositions.mem_iff other).mpr ⟨otherHandle, hother⟩) with rfl | hrest
  · exact Nat.le_refl _
  · exact Nat.le_of_lt (List.rel_of_pairwise_cons hpositions.pairwise hrest)

/-- Rolling back leaves as many nodes as there were when the snapshot was opened. -/
theorem size_rollback (h : WillClose keys history (.rollback handle) handle)
    (hopen : StaysOpen keys history opening handle) :
    (Table.perform keys (history ++ [.rollback handle]) {}).size =
      (tableAt keys history opening).size := by
  obtain ⟨other, starts, hother, hsavepoints, -⟩ := h.exists_last
  obtain rfl := hopen.opens.unique hother.opens
  obtain ⟨left, hrun, hnodes, -⟩ := hsavepoints.exists_rollback (ε := ε)
  rw [← hopen.opens.id_eq] at hrun
  have hleft : Table.perform keys (history ++ [.rollback handle]) {} = left := by
    rw [Table.perform_append, Table.perform, Table.perform, Operation.run, Action.after_map]
    exact Action.after_of_ok hrun
  rw [hleft, Table.size, hnodes, Table.size]

/-- The call at a position of a history makes a key. -/
def Creates (keys : KeyScheme κ α ε) (history : List (Operation κ α)) (position : Nat) (key : κ) :
    Prop :=
  ∃ value, Answers keys history position (.newKey value) (.key key)

/-- A snapshot that is opened before a position is rolled back after it, and takes
    back what was made there. -/
structure TakesBack (keys : KeyScheme κ α ε) (history : List (Operation κ α))
    (opened closed position : Nat) : Prop where
  opened_lt : opened < position
  lt_closed : position < closed
  exists_handle : ∃ handle, Opens keys history opened handle ∧
    Answers keys history closed (.rollback handle) .done

/-- A key is made at a position, and nothing takes it back. -/
structure Survives (keys : KeyScheme κ α ε) (history : List (Operation κ α)) (position : Nat) :
    Prop where
  exists_key : ∃ key, Creates keys history position key
  not_takesBack : ∀ opened closed, ¬ TakesBack keys history opened closed position

theorem Creates.lt_length {key : κ} (h : Creates keys history position key) :
    position < history.length :=
  h.choose_spec.lt_length

theorem Creates.append {key : κ} (h : Creates keys history position key) :
    Creates keys (history ++ more) position key :=
  h.imp fun _ h => h.append

theorem creates_snoc_iff {key : κ} : Creates keys (history ++ [last]) position key ↔
    Creates keys history position key ∨ position = history.length ∧ ∃ value, last = .newKey value ∧
      Action.outcome ((Operation.newKey value).run keys) (Table.perform keys history {}) =
        .ok (.key key) := by
  simp only [Creates, Answers.snoc_iff, exists_or, exists_and_left]

/-- What a last call takes back are the keys that were made since the snapshot
    was opened that it rolls back. -/
theorem takesBack_snoc_iff {opened closed : Nat} (hposition : position < history.length) :
    TakesBack keys (history ++ [last]) opened closed position ↔
      TakesBack keys history opened closed position ∨
        closed = history.length ∧ opened < position ∧ ∃ handle, last = .rollback handle ∧
          WillClose keys history last handle ∧ Opens keys history opened handle := by
  obtain ⟨starts, hsavepoints⟩ := exists_savepoints keys history
  constructor
  · rintro ⟨hopened, hclosed, handle, hopens, hanswers⟩
    have hbefore : Opens keys history opened handle :=
      (Answers.append_iff (Nat.lt_trans hopened hposition)).mp hopens
    rcases Answers.snoc_iff.mp hanswers with hanswers | ⟨rfl, rfl, hok⟩
    · exact .inl ⟨hopened, hclosed, handle, hbefore, hanswers⟩
    · have hinnermost := (hsavepoints.outcome_rollback keys handle).mp hok
      exact .inr ⟨rfl, hopened, handle, rfl, ⟨.inr rfl, hinnermost⟩, hbefore⟩
  · rintro (⟨hopened, hclosed, handle, hopens, hanswers⟩ |
      ⟨rfl, hopened, handle, rfl, hcloses, hopens⟩)
    · exact ⟨hopened, hclosed, handle, hopens.append, hanswers.append⟩
    · have hok := (hsavepoints.outcome_rollback keys handle).mpr hcloses.2
      exact ⟨hopened, hposition, handle, hopens.append, Answers.last_iff.mpr ⟨rfl, hok⟩⟩

theorem Survives.lt_length (h : Survives keys history position) : position < history.length :=
  h.exists_key.choose_spec.lt_length

/-- The call that opens a snapshot makes no key. -/
theorem Survives.ne_opening (h : Survives keys history position)
    (hopens : Opens keys history opening handle) : position ≠ opening := by
  rintro rfl
  obtain ⟨key, value, hanswers⟩ := h.exists_key
  cases hanswers.getElem?.symm.trans hopens.getElem?

/-- A key that has survived a call was made by it, or was there before and was
    not made since a snapshot that the call has rolled back. -/
theorem survives_snoc_iff : Survives keys (history ++ [last]) position ↔
    (Survives keys history position ∧ ∀ opened handle, last = .rollback handle →
      WillClose keys history last handle → Opens keys history opened handle →
        ¬ opened < position) ∨
      position = history.length ∧ ∃ value key, last = .newKey value ∧
        Action.outcome ((Operation.newKey value).run keys) (Table.perform keys history {}) =
          .ok (.key key) := by
  constructor
  · rintro ⟨⟨key, hcreates⟩, hnot⟩
    rcases creates_snoc_iff.mp hcreates with hbefore | ⟨rfl, value, rfl, hok⟩
    · have hposition := hbefore.lt_length
      refine .inl ⟨⟨⟨key, hbefore⟩, fun opened closed htakes => ?_⟩,
        fun opened handle hlast hcloses hopens hlt => ?_⟩
      · exact hnot opened closed ((takesBack_snoc_iff hposition).mpr (.inl htakes))
      · exact hnot opened history.length
          ((takesBack_snoc_iff hposition).mpr (.inr ⟨rfl, hlt, handle, hlast, hcloses, hopens⟩))
    · exact .inr ⟨rfl, value, key, rfl, hok⟩
  · rintro (⟨⟨⟨key, hcreates⟩, hnot⟩, hback⟩ | ⟨rfl, value, key, rfl, hok⟩)
    · refine ⟨⟨key, hcreates.append⟩, fun opened closed htakes => ?_⟩
      rcases (takesBack_snoc_iff hcreates.lt_length).mp htakes with
        hbefore | ⟨-, hlt, handle, hlast, hcloses, hopens⟩
      · exact hnot opened closed hbefore
      · exact hback opened handle hlast hcloses hopens hlt
    · refine ⟨⟨key, value, Answers.last_iff.mpr ⟨rfl, hok⟩⟩, fun opened closed htakes => ?_⟩
      obtain ⟨handle, -, hanswers⟩ := htakes.exists_handle
      have hlt := hanswers.lt_length
      rw [List.length_append, List.length_singleton] at hlt
      exact absurd htakes.lt_closed (Nat.not_lt.mpr (Nat.lt_succ_iff.mp hlt))

/-- The positions at which the keys of a table were made, by index. -/
structure Ledger (keys : KeyScheme κ α ε) (history : List (Operation κ α)) (made : List Nat) :
    Prop where
  length_eq : made.length = (Table.perform keys history {}).size
  pairwise : made.Pairwise (· < ·)
  mem_iff : ∀ position, position ∈ made ↔ Survives keys history position
  creates : ∀ (index position : Nat), made[index]? = some position →
    Creates keys history position (keys.ofIndex index)
  /-- An open snapshot has the keys made before it below its count of nodes. -/
  lt_iff : ∀ (opening : Nat) (handle : Snapshot), StaysOpen keys history opening handle →
    ∀ (index position : Nat), made[index]? = some position →
      (position < opening ↔ index < (tableAt keys history opening).size)

namespace Ledger

variable {made : List Nat}

theorem lt_length (h : Ledger keys history made) (hposition : position ∈ made) :
    position < history.length :=
  ((h.mem_iff position).mp hposition).lt_length

/-- A call that makes no key and takes none back. -/
theorem kept (h : Ledger keys history made)
    (hnew : ∀ value key, last = .newKey value →
      Action.outcome (last.run keys) (Table.perform keys history {}) ≠ .ok (.key key))
    (hback : ∀ handle, last = .rollback handle →
      (Table.perform keys history {}).journal.innermost? ≠ some handle.id) :
    Ledger keys (history ++ [last]) made where
  length_eq := by
    obtain ⟨starts, hsavepoints⟩ := exists_savepoints keys history
    have hsize := hsavepoints.size_run (Table.forest_perform keys history) hnew hback
    rw [h.length_eq, Table.perform_append]
    exact hsize.symm
  pairwise := h.pairwise
  mem_iff := by
    intro position
    rw [h.mem_iff, survives_snoc_iff]
    constructor
    · exact fun hsurvives => .inl ⟨hsurvives, fun _ handle hlast hcloses _ =>
        absurd hcloses.2 (hback handle hlast)⟩
    · rintro (⟨hsurvives, -⟩ | ⟨-, value, key, rfl, hok⟩)
      · exact hsurvives
      · exact absurd hok (hnew value key rfl)
  creates := fun index position hget => (h.creates index position hget).append
  lt_iff := by
    intro opening handle hopen index position hget
    rcases staysOpen_snoc_iff.mp hopen with ⟨hbefore, -⟩ | ⟨rfl, -⟩
    · rw [tableAt_append (Nat.le_of_lt hbefore.opens.lt_length)]
      exact h.lt_iff opening handle hbefore index position hget
    · rw [tableAt_append (Nat.le_refl _), tableAt_length, ← h.length_eq]
      exact iff_of_true (h.creates index position hget).lt_length
        (List.getElem?_eq_some_iff.mp hget).1

private theorem getElem?_snoc {made : List Nat} {next index position : Nat}
    (h : (made ++ [next])[index]? = some position) :
    made[index]? = some position ∨ index = made.length ∧ position = next := by
  rcases Nat.lt_or_ge index made.length with hlt | hge
  · exact .inl (List.getElem?_append_left hlt ▸ h)
  · rw [List.getElem?_append_right hge, List.getElem?_singleton] at h
    split at h
    next hzero =>
      exact .inr ⟨Nat.le_antisymm (Nat.le_of_sub_eq_zero hzero) hge, (Option.some.inj h).symm⟩
    next => cases h

/-- The next index is that of the key that is made next. -/
theorem appended (h : Ledger keys history made) {value : α} {key : κ}
    (hok : Action.outcome ((Operation.newKey value).run keys) (Table.perform keys history {}) =
      .ok (.key key)) :
    Ledger keys (history ++ [.newKey value]) (made ++ [history.length]) where
  length_eq := by
    rw [List.length_append, List.length_singleton, h.length_eq, Table.perform_append]
    exact (Table.newKey_of_answer hok).2.symm
  pairwise := by
    refine List.pairwise_append.mpr ⟨h.pairwise, List.pairwise_singleton _ _, ?_⟩
    intro position hposition other hother
    rw [List.mem_singleton.mp hother]
    exact h.lt_length hposition
  mem_iff := by
    intro position
    rw [List.mem_append, List.mem_singleton, h.mem_iff, survives_snoc_iff]
    constructor
    · rintro (hsurvives | rfl)
      · exact .inl ⟨hsurvives, fun _ _ hlast => nomatch hlast⟩
      · exact .inr ⟨rfl, value, key, rfl, hok⟩
    · rintro (⟨hsurvives, -⟩ | ⟨rfl, -⟩)
      · exact .inl hsurvives
      · exact .inr rfl
  creates := by
    intro index position hget
    rcases getElem?_snoc hget with hbefore | ⟨rfl, rfl⟩
    · exact (h.creates index position hbefore).append
    · rw [h.length_eq, ← (Table.newKey_of_answer hok).1]
      exact ⟨value, Answers.last_iff.mpr ⟨rfl, hok⟩⟩
  lt_iff := by
    intro opening handle hopen index position hget
    have hbefore := hopen.of_snoc (by simp)
    have hopening := Nat.le_of_lt hbefore.opens.lt_length
    rw [tableAt_append hopening]
    rcases getElem?_snoc hget with hget | ⟨rfl, rfl⟩
    · exact h.lt_iff opening handle hbefore index position hget
    · rw [h.length_eq]
      exact iff_of_false (Nat.not_lt.mpr hopening) (Nat.not_lt.mpr hbefore.size_le)

theorem mem_take_iff (h : Ledger keys history made)
    (hopen : StaysOpen keys history opening handle) :
    position ∈ made.take (tableAt keys history opening).size ↔
      Survives keys history position ∧ position < opening := by
  rw [← h.mem_iff, List.mem_iff_getElem?, List.mem_iff_getElem?, ← exists_and_right]
  refine exists_congr fun index => ?_
  rw [List.getElem?_take]
  constructor
  · intro hget
    split at hget
    next hlt => exact ⟨hget, (h.lt_iff opening handle hopen index position hget).mpr hlt⟩
    next => cases hget
  · rintro ⟨hget, hlt⟩
    rw [if_pos ((h.lt_iff opening handle hopen index position hget).mp hlt), hget]

theorem mem_drop_iff (h : Ledger keys history made)
    (hopen : StaysOpen keys history opening handle) :
    position ∈ made.drop (tableAt keys history opening).size ↔
      Survives keys history position ∧ opening < position := by
  rw [← h.mem_iff, List.mem_iff_getElem?]
  constructor
  · rintro ⟨index, hget⟩
    rw [List.getElem?_drop] at hget
    have hmem := List.mem_of_getElem? hget
    have hle : opening ≤ position := Nat.not_lt.mp fun hlt =>
      Nat.not_lt.mpr (Nat.le_add_right _ index) ((h.lt_iff opening handle hopen _ _ hget).mp hlt)
    have hne := ((h.mem_iff position).mp hmem).ne_opening hopen.opens
    exact ⟨hmem, Nat.lt_of_le_of_ne hle (Ne.symm hne)⟩
  · rintro ⟨hmem, hlt⟩
    obtain ⟨index, hget⟩ := List.mem_iff_getElem?.mp hmem
    have hle : (tableAt keys history opening).size ≤ index := Nat.not_lt.mp fun hindex =>
      Nat.lt_asymm hlt ((h.lt_iff opening handle hopen index position hget).mpr hindex)
    refine ⟨index - (tableAt keys history opening).size, ?_⟩
    rw [List.getElem?_drop, Nat.add_sub_cancel' hle, hget]

/-- Rolling back leaves the keys that were made before the snapshot was opened. -/
theorem rolledBack (h : Ledger keys history made)
    (hcloses : WillClose keys history (.rollback handle) handle)
    (hopen : StaysOpen keys history opening handle) :
    Ledger keys (history ++ [.rollback handle])
      (made.take (tableAt keys history opening).size) where
  length_eq := by
    rw [List.length_take, h.length_eq, Nat.min_eq_left hopen.size_le, size_rollback hcloses hopen]
  pairwise := h.pairwise.take
  mem_iff := by
    intro position
    rw [h.mem_take_iff hopen, survives_snoc_iff]
    constructor
    · rintro ⟨hsurvives, hlt⟩
      refine .inl ⟨hsurvives, fun opened other hlast _ hopens => ?_⟩
      cases hlast
      rw [hopens.unique hopen.opens]
      exact Nat.lt_asymm hlt
    · rintro (⟨hsurvives, hback⟩ | ⟨-, value, key, hlast, -⟩)
      · have hle := Nat.not_lt.mp (hback opening handle rfl hcloses hopen.opens)
        exact ⟨hsurvives, Nat.lt_of_le_of_ne hle (hsurvives.ne_opening hopen.opens)⟩
      · cases hlast
  creates := by
    intro index position hget
    rw [List.getElem?_take] at hget
    split at hget
    next => exact (h.creates index position hget).append
    next => cases hget
  lt_iff := by
    intro other otherHandle hother index position hget
    have hbefore := hother.of_snoc (by simp)
    rw [tableAt_append (Nat.le_of_lt hbefore.opens.lt_length)]
    rw [List.getElem?_take] at hget
    split at hget
    next => exact h.lt_iff other otherHandle hbefore index position hget
    next => cases hget

end Ledger

theorem exists_ledger (keys : KeyScheme κ α ε) (history : List (Operation κ α)) :
    ∃ made, Ledger keys history made := by
  induction history using List.reverseRecOn with
  | nil =>
    refine ⟨[], rfl, .nil, fun position => ?_, fun _ _ hget => (nomatch hget),
      fun _ _ _ _ _ hget => (nomatch hget)⟩
    exact iff_of_false List.not_mem_nil fun hsurvives => Nat.not_lt_zero _ hsurvives.lt_length
  | append_singleton history last ih =>
    -- Positions are added at the end and taken from the end, as nodes are.
    obtain ⟨made, hmade⟩ := ih
    by_cases hnew : ∃ value key, last = .newKey value ∧
        Action.outcome (last.run keys) (Table.perform keys history {}) = .ok (.key key)
    · obtain ⟨value, key, rfl, hok⟩ := hnew
      exact ⟨_, hmade.appended hok⟩
    by_cases hback : ∃ handle, last = .rollback handle ∧
        (Table.perform keys history {}).journal.innermost? = some handle.id
    · obtain ⟨handle, rfl, hinnermost⟩ := hback
      have hcloses : WillClose keys history (.rollback handle) handle := ⟨.inr rfl, hinnermost⟩
      obtain ⟨opening, starts, hopen, -⟩ := hcloses.exists_last
      exact ⟨_, hmade.rolledBack hcloses hopen⟩
    · refine ⟨made, hmade.kept (fun value key hlast hok => ?_) fun handle hlast hinnermost => ?_⟩
      · exact hnew ⟨value, key, hlast, hok⟩
      · exact hback ⟨handle, hlast, hinnermost⟩

/-- While a snapshot is open, no snapshot that encloses it can be rolled back. -/
theorem StaysOpen.lt_opened {opened closed : Nat} (h : StaysOpen keys history opening handle)
    (hlt : opening < position) (htakes : TakesBack keys history opened closed position) :
    opening < opened := by
  obtain ⟨other, hopens, hanswers⟩ := htakes.exists_handle
  have hclosed := Nat.lt_trans hlt htakes.lt_closed
  have hsplit := List.take_append_drop closed history
  obtain ⟨starts, hsavepoints⟩ := exists_savepoints keys (history.take closed)
  have hinnermost := (hsavepoints.outcome_rollback keys other).mp hanswers.outcome
  have hcloses : WillClose keys (history.take closed) (.rollback other) other :=
    ⟨.inr rfl, hinnermost⟩
  -- The snapshot was open at that moment too, and what is closed was opened last.
  obtain ⟨last, -, hlast, -, hmax⟩ := hcloses.exists_last
  have hopening : opening < (history.take closed).length := by
    rw [List.length_take, Nat.min_eq_left (Nat.le_of_lt hanswers.lt_length)]
    exact hclosed
  have hle := hmax opening handle (StaysOpen.of_append (hsplit ▸ h) hopening)
  have hsame : last = opened := (hsplit ▸ hlast.opens.append : Opens keys history last other).unique
    hopens
  subst hsame
  refine Nat.lt_of_le_of_ne hle fun heq => ?_
  subst heq
  obtain rfl := h.opens.handle_eq hopens
  exact h.not_closes closed hclosed (.inr hanswers)

/-- Taking back what was made since an open snapshot was opened is up to the
    snapshots within it. -/
theorem StaysOpen.survives_iff (h : StaysOpen keys history opening handle)
    (hlt : opening < position) : Survives keys history position ↔
      (∃ key, Creates keys history position key) ∧
        ∀ opened closed, opening < opened → ¬ TakesBack keys history opened closed position := by
  constructor
  · exact fun hsurvives => ⟨hsurvives.exists_key, fun opened closed _ =>
      hsurvives.not_takesBack opened closed⟩
  · exact fun ⟨hkey, hnot⟩ => ⟨hkey, fun opened closed htakes =>
      hnot opened closed (h.lt_opened hlt htakes) htakes⟩

theorem StaysOpen.newKeysSince_eq (h : StaysOpen keys history opening handle) :
    Table.newKeysSince keys handle (Table.perform keys history {}) =
      .ok
        ((List.range' (tableAt keys history opening).size
          ((Table.perform keys history {}).size - (tableAt keys history opening).size)).map
            keys.ofIndex)
        (Table.perform keys history {}) := by
  have hsize := Table.size_perform_le keys history
  have hroom : ¬ (Table.maxKeys < (tableAt keys history opening).size ∨
      Table.maxKeys < (Table.perform keys history {}).size) :=
    not_or.mpr ⟨Nat.not_lt.mpr (Nat.le_trans h.size_le hsize), Nat.not_lt.mpr hsize⟩
  rw [Table.newKeysSince_eq, h.count?_eq]
  simp only [hroom, if_false]
  rfl

theorem Ledger.forall₂_creates {made : List Nat} (h : Ledger keys history made) (start : Nat) :
    List.Forall₂ (Creates keys history) (made.drop start)
      ((List.range' start ((Table.perform keys history {}).size - start)).map keys.ofIndex) := by
  rw [List.forall₂_map_right_iff, List.forall₂_iff_get]
  constructor
  · rw [List.length_drop, List.length_range', h.length_eq]
  · intro index hposition hindex
    rw [List.get_eq_getElem, List.get_eq_getElem, List.getElem_drop, List.getElem_range',
      Nat.one_mul]
    exact h.creates _ _ (List.getElem?_eq_getElem _)

/-- Listing the keys made since a snapshot that is open, whether it is the
    innermost one or not, gives each key that was made since then and was not
    taken back by rolling back a snapshot within it. The keys come in the order in
    which they were made, and none comes twice, even if its index was given before
    to a key that was taken back. All of them are keys of the table, and none was
    one when the snapshot was opened. Any other handle is refused. The calls of
    programs are calls like these. -/
theorem newKeysSince_survivors (keys : KeyScheme κ α ε) (history : List (Operation κ α))
    (hkeys : ∀ index < (Table.perform keys history {}).size,
      keys.index (keys.ofIndex index) = index) :
    let table := Table.perform keys history {}
    (∀ opening handle, StaysOpen keys history opening handle →
      ∃ positions listed, Table.newKeysSince keys handle table = .ok listed table ∧
        positions.Pairwise (· < ·) ∧
        (∀ position, position ∈ positions ↔ opening < position ∧
          (∃ key, Creates keys history position key) ∧
          ∀ opened closed, opening < opened →
            ¬ TakesBack keys history opened closed position) ∧
        List.Forall₂ (Creates keys history) positions listed ∧ listed.Nodup ∧
        ∀ key ∈ listed, keys.index key < table.size ∧
          (tableAt keys history opening).size ≤ keys.index key) ∧
    (∀ handle, (∀ opening, ¬ StaysOpen keys history opening handle) →
      Table.newKeysSince keys handle table =
        .error (.refused (.snapshotMismatch handle.id table.journal.openIds.head?)) table) ∧
    (∀ handle len, Action.outcome (Table.newKeysSince keys handle) table ≠
      .error (.refused (.keySpaceExhausted len))) ∧
    ∀ {δ β : Type} (program : Program κ α ε δ β), Action.after (program.run keys) table =
      Table.perform keys (history ++ program.calls keys table) {} := by
  intro table
  obtain ⟨made, hmade⟩ := exists_ledger keys history
  have hrefused : ∀ handle, (∀ opening, ¬ StaysOpen keys history opening handle) →
      Table.newKeysSince keys handle table =
        .error (.refused (.snapshotMismatch handle.id table.journal.openIds.head?)) table :=
    fun handle hclosed => ((refusesHandle_perform_iff keys history handle).mpr hclosed).newKeysSince
  refine ⟨fun opening handle hopen => ?_, hrefused, fun handle len hexhausted => ?_,
    after_run keys history⟩
  · refine ⟨_, _, hopen.newKeysSince_eq, hmade.pairwise.drop, fun position => ?_,
      hmade.forall₂_creates _, ?_, fun key hkey => ?_⟩
    · rw [hmade.mem_drop_iff hopen, and_comm]
      exact and_congr_right fun hlt => hopen.survives_iff hlt
    · refine List.Nodup.map_on (fun index hindex other hother hsame => ?_) (List.nodup_range' 1)
      rw [List.mem_range'_1, Nat.add_sub_cancel' hopen.size_le] at hindex hother
      rw [← hkeys index hindex.2, hsame, hkeys other hother.2]
    · obtain ⟨index, hindex, rfl⟩ := List.mem_map.mp hkey
      rw [List.mem_range'_1, Nat.add_sub_cancel' hopen.size_le] at hindex
      rw [hkeys index hindex.2]
      exact hindex.symm
  · by_cases hopen : ∃ opening, StaysOpen keys history opening handle
    · obtain ⟨opening, hopen⟩ := hopen
      rw [Action.outcome_of_ok hopen.newKeysSince_eq] at hexhausted
      cases hexhausted
    · rw [Action.outcome_of_error (hrefused handle (not_exists.mp hopen))] at hexhausted
      cases hexhausted

/-- Two snapshots are open in the end. Since the outer one was opened, a key was
    taken back, and its index was given to another one. -/
theorem newKeysSince_survivors_reversed :
    let keys := KeyScheme.of Number.payload Numbering.reversed "number" RootOrder.byRank
    let history : List (Operation UInt32 Number) := [.newKey .unset, .snapshot, .newKey ⟨1⟩,
      .snapshot, .newKey ⟨2⟩, .union 0xFFFFFFFE 0xFFFFFFFF, .rollback ⟨2⟩, .newKey ⟨3⟩, .snapshot,
      .newKey ⟨4⟩, .commit ⟨3⟩, .rollback ⟨2⟩, .snapshot, .newKey ⟨5⟩]
    let table := Table.perform keys history {}
    (∀ index < table.size, keys.index (keys.ofIndex index) = index) ∧
      StaysOpen keys history 1 ⟨1⟩ ∧
      (∃ positions listed, Table.newKeysSince keys ⟨1⟩ table = .ok listed table ∧
        positions.Pairwise (· < ·) ∧
        (∀ position, position ∈ positions ↔ 1 < position ∧
          (∃ key, Creates keys history position key) ∧
          ∀ opened closed, 1 < opened → ¬ TakesBack keys history opened closed position) ∧
        List.Forall₂ (Creates keys history) positions listed ∧ listed.Nodup ∧
        ∀ key ∈ listed, keys.index key < table.size ∧
          (tableAt keys history 1).size ≤ keys.index key) ∧
      Action.outcome (Table.newKeysSince keys ⟨1⟩) table =
        .ok [0xFFFFFFFE, 0xFFFFFFFD, 0xFFFFFFFC, 0xFFFFFFFB] := by
  intro keys history table
  have hsize : table.size = 5 := by decide +kernel
  have hkeys : ∀ index < table.size, keys.index (keys.ofIndex index) = index := by
    intro index hindex
    rw [hsize] at hindex
    exact Numbering.reversed_index_ofIndex (Nat.lt_trans hindex (by decide))
  have hopens : Opens keys history 1 ⟨1⟩ := opens_iff_countP.mpr ⟨rfl, rfl⟩
  have hmem : (⟨1⟩ : Snapshot).id ∈ table.journal.openIds := by decide +kernel
  obtain ⟨positions, hpositions⟩ := exists_openings keys history
  obtain ⟨opening, hopen⟩ := hpositions.mem_openIds_iff.mp hmem
  obtain rfl := hopen.opens.unique hopens
  exact ⟨hkeys, hopen, (newKeysSince_survivors keys history hkeys).1 1 ⟨1⟩ hopen, by decide +kernel⟩

end History

end Unification
