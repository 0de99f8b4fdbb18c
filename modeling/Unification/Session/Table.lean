import Unification.Session.Trial
import Unification.Table.Rollback
import Unification.Table.Union

namespace Unification

/-- The calls that a session can make on a table. `commitIfOk` makes the calls
    of a trial, with a veto that holds the count for its refusal. -/
inductive TableCall (κ α : Type) where
  | newKey (value : α)
  | newKeys (values : List α)
  | find (key : κ)
  | probe (key : κ)
  | unioned (a b : κ)
  | union (a b : κ)
  | unionChain (keys : List κ)
  | unionValue (key : κ) (value : α)
  | reserve (count : Nat)
  | snapshot
  | rollback (handle : Snapshot)
  | commit (handle : Snapshot)
  | newKeysSince (handle : Snapshot)
  | isEmpty
  | inSnapshot
  | inspect (layout : Layout)
  | tag
  | classes
  | commitIfOk (calls : List (TableCall κ α)) (lenient : Bool) (veto : Option Nat)

inductive TableAnswer (κ α : Type) where
  | done
  | key (key : κ)
  | keys (keys : List κ)
  | value (value : α)
  | flag (flag : Bool)
  | handle (handle : Snapshot)
  | text (text : String)
  | classes (classes : List (κ × α))
  | count (count : Nat)

/-- What comes of a call, with the numbers of keys and of open snapshots after
    it. The replies within it are those of the calls of its trial. -/
structure TableReply (κ α ε : Type) where
  outcome : Except (TableError ε) (TableAnswer κ α)
  size : Nat
  depth : Nat
  inner : Option (List (TableReply κ α ε)) := none

namespace TableReply

variable {κ α ε : Type}

def refusal (reply : TableReply κ α ε) : Option (TableError ε) :=
  match reply.outcome with
  | .ok _ => none
  | .error reason => some reason

/-- The reply to a call that has come to its end. -/
def close (outcome : Except (TableError ε) (TableAnswer κ α))
    (inner : Option (List (TableReply κ α ε))) :
    EStateM Fault (Table α) (TableReply κ α ε) := do
  let table ← get
  pure { outcome, size := table.size, depth := table.journal.depth, inner }

end TableReply

namespace TableCall

variable {κ α ε : Type}

/-- The call of an operation that makes no calls of its own. -/
def simple (action : TableM α (TableError ε) (TableAnswer κ α)) :
    EStateM Fault (Table α) (TableReply κ α ε) := do
  let outcome ← Failure.attempt action
  TableReply.close outcome none

mutual

/-- Makes a call and replies to it. A refusal is part of the reply, and only a
    fault ends the call without one. -/
def run (keys : KeyScheme κ α ε) : TableCall κ α → EStateM Fault (Table α) (TableReply κ α ε)
  | newKey value => simple (.key <$> Table.newKey keys value)
  | newKeys values => simple (.keys <$> Table.newKeys keys values)
  | find key => simple (.key <$> Table.find keys key)
  | probe key => simple (.value <$> Table.probe keys key)
  | unioned a b => simple (.flag <$> Table.unioned keys a b)
  | union a b => simple ((fun _ => .done) <$> Table.union keys a b)
  | unionChain chain => simple ((fun _ => .done) <$> Table.unionChain keys chain)
  | unionValue key value => simple ((fun _ => .done) <$> Table.unionValue keys key value)
  | reserve count => simple ((fun _ => .done) <$> Table.reserve keys.toPayload count)
  | snapshot => simple (.handle <$> Table.snapshot)
  | rollback handle => simple ((fun _ => .done) <$> Table.rollback handle)
  | commit handle => simple ((fun _ => .done) <$> Table.commit handle)
  | newKeysSince handle => simple (.keys <$> Table.newKeysSince keys handle)
  | isEmpty => simple ((fun table => .flag table.isEmpty) <$> get)
  | inSnapshot => simple ((fun table => .flag table.journal.inSnapshot) <$> get)
  | inspect layout => simple ((fun table => .text ((table.outline keys.tag).render layout)) <$> get)
  | tag => simple (pure (.text keys.tag))
  | classes => simple (.classes <$> Table.classes keys)
  | commitIfOk calls lenient veto => do
    let trial := Session.trial TableReply.refusal lenient veto (runEach keys calls)
    match ← Failure.attempt (Table.commitIfOk trial) with
    | .ok inner => TableReply.close (.ok (.count inner.length)) (some inner)
    | .error (reason, inner) => TableReply.close (.error reason) (some inner)

def runEach (keys : KeyScheme κ α ε) :
    List (TableCall κ α) → List (EStateM Fault (Table α) (TableReply κ α ε))
  | [] => []
  | call :: rest => run keys call :: runEach keys rest

end

end TableCall

end Unification
