import Unification.Proofs.Action
import Unification.Session.Table

namespace Unification

variable {κ α ε δ β : Type}

/-- The calls on a table that make no calls of their own. -/
inductive Operation (κ α : Type) where
  | newKey (value : α)
  | find (key : κ)
  | probe (key : κ)
  | unioned (a b : κ)
  | union (a b : κ)
  | unionValue (key : κ) (value : α)
  | reserve (count : Nat)
  | snapshot
  | commit (handle : Snapshot)
  | rollback (handle : Snapshot)
  | newKeysSince (handle : Snapshot)

def Operation.run (keys : KeyScheme κ α ε) :
    Operation κ α → TableM α (TableError ε) (TableAnswer κ α)
  | newKey value => .key <$> Table.newKey keys value
  | find key => .key <$> Table.find keys key
  | probe key => .value <$> Table.probe keys key
  | unioned a b => .flag <$> Table.unioned keys a b
  | union a b => (fun _ => .done) <$> Table.union keys a b
  | unionValue key value => (fun _ => .done) <$> Table.unionValue keys key value
  | reserve count => (fun _ => .done) <$> Table.reserve keys.toPayload count
  | snapshot => .handle <$> Table.snapshot
  | commit handle => (fun _ => .done) <$> Table.commit handle
  | rollback handle => (fun _ => .done) <$> Table.rollback handle
  | newKeysSince handle => .keys <$> Table.newKeysSince keys handle

/-- The table after calls, one after the other, whatever each of them ends with. -/
def Table.perform (keys : KeyScheme κ α ε) : List (Operation κ α) → Table α → Table α
  | [], table => table
  | operation :: rest, table => perform keys rest (Action.after (operation.run keys) table)

/-- A finite program of calls, which ends with a result or with a reason of its
    own to refuse one. It sees what every call ends with, so that a refused call
    may end it or be ignored. The calls within `commitIfOk` are a program too,
    and have the run of all handles that the enclosing one has seen. -/
inductive Program (κ α ε : Type) : Type → Type → Type 1 where
  | finish {δ β : Type} (outcome : Except δ β) : Program κ α ε δ β
  | call {δ β : Type} (operation : Operation κ α)
      (next : Except (TableError ε) (TableAnswer κ α) → Program κ α ε δ β) : Program κ α ε δ β
  | commitIfOk {δ β δ' β' : Type} (body : Program κ α ε δ' β')
      (next : Except δ' β' → Program κ α ε δ β) : Program κ α ε δ β

/-- What a program does to a table. Only a fault ends it before its time. -/
def Program.run (keys : KeyScheme κ α ε) {δ β : Type} : Program κ α ε δ β → TableM α δ β
  | finish (.ok result) => pure result
  | finish (.error reason) => Failure.refuse reason
  | call operation next => do
    let outcome ← Failure.relay (Failure.attempt (operation.run keys))
    (next outcome).run keys
  | commitIfOk body next => do
    let outcome ← Failure.relay (Failure.attempt (Table.commitIfOk (body.run keys)))
    (next outcome).run keys

/-- What a program does to a table if its calls are run in some way of their own. -/
def Program.runBy (run : Operation κ α → TableM α (TableError ε) (TableAnswer κ α)) {δ β : Type} :
    Program κ α ε δ β → TableM α δ β
  | finish (.ok result) => pure result
  | finish (.error reason) => Failure.refuse reason
  | call operation next => do
    let outcome ← Failure.relay (Failure.attempt (run operation))
    (next outcome).runBy run
  | commitIfOk body next => do
    let outcome ← Failure.relay (Failure.attempt (Table.commitIfOk (body.runBy run)))
    (next outcome).runBy run

namespace Table

theorem perform_append (keys : KeyScheme κ α ε) (first second : List (Operation κ α))
    (table : Table α) :
    perform keys (first ++ second) table = perform keys second (perform keys first table) := by
  induction first generalizing table with
  | nil => rfl
  | cons operation rest ih => exact ih _

/-- Whether calls, made one after the other, lead from one table to another. -/
def Reaches (keys : KeyScheme κ α ε) (table left : Table α) : Prop :=
  ∃ operations, left = perform keys operations table

theorem Reaches.trans {keys : KeyScheme κ α ε} {table middle left : Table α}
    (h : Reaches keys table middle) (hmore : Reaches keys middle left) :
    Reaches keys table left := by
  obtain ⟨first, rfl⟩ := h
  obtain ⟨rest, rfl⟩ := hmore
  exact ⟨first ++ rest, (perform_append keys first rest table).symm⟩

end Table

end Unification
