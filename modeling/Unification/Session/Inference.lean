import Unification.Inference
import Unification.Session.Table

namespace Unification

/-- The calls that a session can make on the state of a pass. `takeErrors` ends
    the pass and begins another one; `table` reaches past it to its table. -/
inductive InferenceCall where
  | fresh
  | unifyVars (a b : TypeVar) (provenance : Provenance)
  | unifyTy (var : TypeVar) (type : Ty) (provenance : Provenance)
  | resolve (var : TypeVar)
  | representative (var : TypeVar)
  | errors
  | takeErrors
  | inspect (layout : Layout)
  | table (call : TableCall TypeVar Binding)
  | speculate (calls : List InferenceCall) (lenient : Bool) (veto : Option Nat)

inductive InferenceAnswer where
  | done
  | var (var : TypeVar)
  | type (type : Option Ty)
  | errors (errors : List TypeError)
  | text (text : String)
  | kept (count : Option Nat)

/-- What comes of a call, with the numbers of keys, of open snapshots and of
    recorded errors after it. The reply to a call on the table is the table's. -/
inductive InferenceReply where
  | direct (outcome : Except InferenceError InferenceAnswer) (size depth errors : Nat)
    (inner : Option (List InferenceReply))
  | table (reply : TableReply TypeVar Binding TypeMismatch) (errors : Nat)

namespace InferenceReply

def refusal : InferenceReply → Option InferenceError
  | direct (.ok _) .. => none
  | direct (.error reason) .. => some reason
  | table reply _ => reply.refusal

/-- The reply to a call that has come to its end. -/
def close (outcome : Except InferenceError InferenceAnswer)
    (inner : Option (List InferenceReply)) : EStateM Fault Inference InferenceReply := do
  let state ← get
  pure (direct outcome state.table.size state.table.journal.depth state.errors.size inner)

end InferenceReply

namespace InferenceCall

/-- The call of an operation that makes no calls of its own. -/
def simple (action : InferenceM InferenceError InferenceAnswer) :
    EStateM Fault Inference InferenceReply := do
  let outcome ← Failure.attempt action
  InferenceReply.close outcome none

mutual

/-- Makes a call and replies to it. A refusal is part of the reply, and only a
    fault ends the call without one. -/
def run : InferenceCall → EStateM Fault Inference InferenceReply
  | fresh => simple (.var <$> Inference.fresh)
  | unifyVars a b provenance =>
    simple ((fun _ => .done) <$> Inference.unifyVars a b provenance)
  | unifyTy var type provenance =>
    simple ((fun _ => .done) <$> Inference.unifyTy var type provenance)
  | resolve var => simple (.type <$> Inference.resolve var)
  | representative var => simple (.var <$> Inference.representative var)
  | errors => simple ((fun state => .errors state.errors.toList) <$> get)
  | takeErrors => simple (modifyGet fun state => (.errors state.errors.toList, {}))
  | inspect layout => simple ((fun state => .text (Unification.inspect state layout)) <$> get)
  | table call => do
    let reply ← Inference.onTable (call.run typeVars)
    pure (.table reply (← get).errors.size)
  | speculate calls lenient veto => do
    let trial := Session.trial InferenceReply.refusal lenient veto (runEach calls)
    match ← Failure.attempt (Inference.attemptClean trial) with
    | .ok (kept, inner) =>
      InferenceReply.close (.ok (.kept (if kept then some inner.length else none))) (some inner)
    | .error (reason, inner) => InferenceReply.close (.error reason) (some inner)

def runEach : List InferenceCall → List (EStateM Fault Inference InferenceReply)
  | [] => []
  | call :: rest => run call :: runEach rest

end

end InferenceCall

end Unification
