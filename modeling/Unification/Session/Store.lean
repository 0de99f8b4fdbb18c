import Unification.Session.Trial
import Unification.Table.Rollback

namespace Unification

/-- The calls that a session can make on the nodes and the journal of a table,
    one apart from the other. No keys are involved, and nothing keeps the two in
    step: an entry can be journaled for a change that was never made. -/
inductive StoreCall (α : Type) where
  | push (value : α)
  | node (index : Nat)
  | isRootAt (index position : Nat)
  | record (index : Nat)
  | update (index : Nat) (parent rank : Option Nat) (value : Option α)
  | reserve (extra : Nat)
  | undo (entry : Entry α)
  | journal (entry : Entry α)
  | snapshot (size : Option Nat)
  | count (handle : Snapshot)
  | innermost
  | inSnapshot
  | isEmpty
  | commit (handle : Snapshot)
  | rollback (handle : Snapshot) (apply : Bool) (layout : Option Layout)
  | inspectJournal (layout : Layout)
  | inspectNode (index : Nat) (layout : Layout)
  | inspectStore (layout : Layout)
  | nodes

inductive StoreAnswer (α : Type) where
  | done
  | index (index : Nat)
  | node (node : Node α)
  | flag (flag : Bool)
  | flags (nodes journal : Bool)
  | handle (handle : Snapshot)
  | count (count : Option Nat)
  | entries (entries : List (Entry α))
  | texts (texts : List String)
  | text (text : String)
  | nodes (nodes : List (Node α))

/-- What comes of a call, with the numbers of nodes, of journal entries and of
    open snapshots after it. -/
structure StoreReply (α ε : Type) where
  outcome : Except (TableError ε) (StoreAnswer α)
  size : Nat
  entries : Nat
  depth : Nat

namespace StoreCall

variable {α ε : Type}

/-- What a call does, and its answer. A rollback answers with the entries in the
    order in which they are undone, and undoes them only if it is told to. -/
def answer [Inspect α] (payload : Payload α ε) :
    StoreCall α → TableM α (TableError ε) (StoreAnswer α)
  | push value => .index <$> Table.push payload value
  | node index => .node <$> Table.nodeAt index
  | isRootAt index position => (fun node => .flag (node.isRootAt position)) <$> Table.nodeAt index
  | record index => (fun _ => .done) <$> Table.record index
  | update index parent rank value => do
    Table.update index fun node =>
      { parent := parent.getD node.parent
        rank := rank.getD node.rank
        value := value.getD node.value }
    pure .done
  | reserve extra => (fun _ => .done) <$> Table.reserve payload extra
  | undo entry => (fun _ => .done) <$> Table.undo entry
  | journal entry => do
    modify fun table => { table with journal := table.journal.push entry }
    pure .done
  | snapshot size =>
    modifyGet fun table =>
      let (handle, started) := table.journal.start (size.getD table.size)
      (.handle handle, { table with journal := started })
  | count handle => do pure (.count ((← get).journal.count? handle))
  | innermost => do pure (.count (← get).journal.innermost?)
  | inSnapshot => do pure (.flag (← get).journal.inSnapshot)
  | isEmpty => do
    let table ← get
    pure (.flags table.isEmpty table.journal.entries.isEmpty)
  | commit handle => (fun _ => .done) <$> Table.commit handle
  | rollback handle apply layout => do
    match (← get).journal.rollback? handle with
    | none => Table.mismatch handle
    | some (entries, closed) =>
      if apply then
        Table.rollback handle
      else
        modify fun table => { table with journal := closed }
      match layout with
      | none => pure (.entries entries)
      | some layout => pure (.texts (entries.map (Unification.inspect · layout)))
  | inspectJournal layout => do pure (.text (Unification.inspect (← get).journal layout))
  | inspectNode index layout =>
    (fun node => .text (Unification.inspect node layout)) <$> Table.nodeAt index
  | inspectStore layout => do pure (.text ((← get).storeOutline.render layout))
  | nodes => do pure (.nodes (← get).nodes.toList)

/-- Makes a call and replies to it. -/
def run [Inspect α] (payload : Payload α ε) (call : StoreCall α) :
    EStateM Fault (Table α) (StoreReply α ε) := do
  let outcome ← Failure.attempt (call.answer payload)
  let table ← get
  pure
    { outcome
      size := table.size
      entries := table.journal.entries.size
      depth := table.journal.depth }

end StoreCall

end Unification
