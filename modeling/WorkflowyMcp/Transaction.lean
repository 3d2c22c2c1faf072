import Mathlib.Algebra.Ring.Int.Defs
import Mathlib.Algebra.Ring.Nat
import WorkflowyMcp.Text
import WorkflowyMcp.Client

/-! `transaction`: a sequence of operations, each with the inverse that undoes it,
and the replay of the inverses when one operation fails. -/
namespace WorkflowyMcp

/- Node ids a workflow touched, for the caller to invalidate, and the nodes it created. -/
structure MutationFootprint where
  invalidatedNodes : List String := []
  invalidatedNameIndex : List String := []
  createdNodes : List WorkflowyNode := []
deriving DecidableEq, Repr

namespace MutationFootprint

def invalidateNode (fp : MutationFootprint) (id : String) : MutationFootprint :=
  { fp with
    invalidatedNodes := fp.invalidatedNodes++[id]
    invalidatedNameIndex := fp.invalidatedNameIndex++[id] }

def invalidateCacheOnly (fp : MutationFootprint) (id : String) : MutationFootprint :=
  { fp with invalidatedNodes := fp.invalidatedNodes++[id] }

def recordCreated (fp : MutationFootprint) (id name : String)
    (description parentId : Option String) :
    MutationFootprint :=
  { fp with createdNodes := fp.createdNodes++[{ id, name, description, parentId }] }

def extend (fp other : MutationFootprint) : MutationFootprint where
  invalidatedNodes := fp.invalidatedNodes++other.invalidatedNodes
  invalidatedNameIndex := fp.invalidatedNameIndex++other.invalidatedNameIndex
  createdNodes := fp.createdNodes++other.createdNodes

end MutationFootprint

namespace Transaction

inductive TxnOpKind where
  | Create | Edit | Delete | Move | Complete | Uncomplete
deriving DecidableEq, Repr

def TxnOpKind.parse : String → Option TxnOpKind
  | "create" => some .Create
  | "edit" => some .Edit
  | "delete" => some .Delete
  | "move" => some .Move
  | "complete" => some .Complete
  | "uncomplete" => some .Uncomplete
  | _ => none

def TxnOpKind.asStr : TxnOpKind → String
  | .Create => "create"
  | .Edit => "edit"
  | .Delete => "delete"
  | .Move => "move"
  | .Complete => "complete"
  | .Uncomplete => "uncomplete"

structure TxnOp where
  op : String
  nodeId : Option String := none
  parentId : Option String := none
  newParentId : Option String := none
  name : Option String := none
  description : Option String := none
  priority : Option Int := none
  expectName : Option String := none
deriving DecidableEq, Repr

inductive TxnInverse where
  | DeleteCreated (nodeId : String) (parentId : Option String)
  | RestoreEdit (nodeId : String) (prevName prevDescription : Option String)
  | UnMove (nodeId : String) (prevParentId : Option String) (prevPriority : Option Int)
  | RestoreCompletion (nodeId : String) (prevCompleted : Bool)
deriving DecidableEq, Repr

inductive TransactionOutcome where
  | Applied (operations : List Json)
  | RolledBack (failedAtIndex : Nat) (error : String)
      (appliedBeforeFailure rollback : List Json)

/- The locals that are lost with the future: the inverses not yet run to their
   end, the next one first, and the results of the applied operations. -/
structure TxnFrame where
  applied : List TxnInverse
  appliedResults : List Json

abbrev Txn : Type → Type := Proc ApiCall ApiReply TxnFrame

def invalidInput {α : Type} (reason : String) : Api (Except WorkflowyError α) :=
  return .error (.InvalidInput reason)

section
variable (renderDisplay : String → String)

def destructiveEchoMatches (currentName echoedName : String) : Bool :=
  trim currentName == trim echoedName || trim (renderDisplay currentName) == trim echoedName

abbrev TxnStepResult := Json × Option TxnInverse × MutationFootprint

def applyCreate (op : TxnOp) : Api (Except WorkflowyError TxnStepResult) :=
  match op.name with
  | none => invalidInput "create requires `name`"
  | some name => do
    match ← Client.createNode name op.description op.parentId op.priority with
    | .error e => return .error e
    | .ok created =>
      let fp := match op.parentId with
        | some pid => MutationFootprint.invalidateCacheOnly {} pid
        | none => {}
      let fp := fp.recordCreated created.id created.name op.description op.parentId
      let summary := Json.obj [("op",.str "create"),("id",.str created.id),
        ("name",.str (renderDisplay created.name))]
      return .ok (summary,some (.DeleteCreated created.id op.parentId),fp)

/-- A pre-read that fails leaves the operation without an inverse. -/
def applyEdit (op : TxnOp) : Api (Except WorkflowyError TxnStepResult) :=
  match op.nodeId with
  | none => invalidInput "edit requires `node_id`"
  | some nodeId =>
    if op.name.isNone && op.description.isNone then
      invalidInput "edit requires at least one of `name`/`description`"
    else do
      let prev := (← Client.getNode nodeId).toOption
      match ← Client.editNode nodeId op.name op.description with
      | .error e => return .error e
      | .ok () =>
        return .ok (.obj [("op",.str "edit"),("id",.str nodeId)],
          prev.map fun n => .RestoreEdit nodeId (some n.name) n.description,
          MutationFootprint.invalidateNode {} nodeId)

def deleteRefused (nodeId currentName expected : String) : WorkflowyError :=
  .InvalidInput ("delete refused: node `" ++ nodeId ++ "` is named " ++ debugStr currentName ++
    " but expect_name was " ++ debugStr expected ++ " — the node_id may have been coerced to a different node than intended; re-resolve and confirm before retrying")

/-- The name-echo guard: without an echo there is nothing to check. -/
def deleteGuard (nodeId : String) : Option String → Api (Except WorkflowyError Unit)
  | none => return .ok ()
  | some expected => do
    match ← Client.getNode nodeId with
    | .error e => return .error e
    | .ok current =>
      if destructiveEchoMatches renderDisplay current.name expected then return .ok ()
      else return .error (deleteRefused nodeId current.name expected)

/-- A delete has no inverse. -/
def applyDelete (op : TxnOp) : Api (Except WorkflowyError TxnStepResult) :=
  match op.nodeId with
  | none => invalidInput "delete requires `node_id`"
  | some nodeId => do
    match ← deleteGuard renderDisplay nodeId op.expectName with
    | .error e => return .error e
    | .ok () =>
      match ← Client.deleteNode nodeId with
      | .error e => return .error e
      | .ok () =>
        return .ok (.obj [("op",.str "delete"),("id",.str nodeId)],none,
          MutationFootprint.invalidateNode {} nodeId)

/-- The cast `as i32`, which keeps the low 32 bits. -/
def asI32 (p : Int) : Int := p.bmod (2^32)

def applyMove (op : TxnOp) : Api (Except WorkflowyError TxnStepResult) :=
  match op.nodeId,op.newParentId with
  | none,_ => invalidInput "move requires `node_id`"
  | some _,none => invalidInput "move requires `new_parent_id`"
  | some nodeId,some newParent => do
    let prev := (← Client.getNode nodeId).toOption
    let prevParentId := prev.bind WorkflowyNode.parentId
    let prevPriority := (prev.bind WorkflowyNode.priority).map asI32
    match ← Client.moveNode nodeId newParent op.priority with
    | .error e => return .error e
    | .ok () =>
      let fp := MutationFootprint.invalidateCacheOnly {} newParent
      let fp := match prevParentId with
        | some pid => fp.invalidateCacheOnly pid
        | none => fp
      return .ok (.obj [("op",.str "move"),("id",.str nodeId),("to",.str newParent)],
        some (.UnMove nodeId prevParentId prevPriority),fp.invalidateNode nodeId)

def applyCompletion (kind : TxnOpKind) (op : TxnOp) : Api (Except WorkflowyError TxnStepResult) :=
  match op.nodeId with
  | none => invalidInput (kind.asStr ++ " requires `node_id`")
  | some nodeId => do
    let prev := (← Client.getNode nodeId).toOption
    let prevCompleted := prev.map fun n => n.completedAt.isSome
    match ← Client.setCompletion nodeId (kind == .Complete) with
    | .error e => return .error e
    | .ok () =>
      return .ok (.obj [("op",.str kind.asStr),("id",.str nodeId)],
        prevCompleted.map fun p => .RestoreCompletion nodeId p,
        MutationFootprint.invalidateNode {} nodeId)

def applyTxnStep (op : TxnOp) : Api (Except WorkflowyError TxnStepResult) :=
  match TxnOpKind.parse op.op with
  | none => invalidInput ("unknown transaction op '" ++ op.op ++
      "'; expected create/edit/delete/move/complete/uncomplete")
  | some .Create => applyCreate renderDisplay op
  | some .Edit => applyEdit op
  | some .Delete => applyDelete renderDisplay op
  | some .Move => applyMove op
  | some .Complete => applyCompletion .Complete op
  | some .Uncomplete => applyCompletion .Uncomplete op

end

def runTxnInverse (inv : TxnInverse) : Api (Except WorkflowyError (Json × MutationFootprint)) :=
  match inv with
  | .DeleteCreated nodeId parentId => do
    match ← Client.deleteNode nodeId with
    | .error e => return .error e
    | .ok () =>
      let fp := match parentId with
        | some pid => MutationFootprint.invalidateCacheOnly {} pid
        | none => {}
      return .ok (.obj [("rolled_back",.str "create"),("id",.str nodeId)],fp.invalidateNode nodeId)
  | .RestoreEdit nodeId prevName prevDescription => do
    match ← Client.editNode nodeId prevName prevDescription with
    | .error e => return .error e
    | .ok () =>
      return .ok (.obj [("rolled_back",.str "edit"),("id",.str nodeId)],
        MutationFootprint.invalidateNode {} nodeId)
  | .UnMove nodeId (some pid) prevPriority => do
    match ← Client.moveNode nodeId pid prevPriority with
    | .error e => return .error e
    | .ok () =>
      return .ok (.obj [("rolled_back",.str "move"),("id",.str nodeId),("to",.str pid)],
        (MutationFootprint.invalidateCacheOnly {} nodeId).invalidateCacheOnly pid)
  | .UnMove nodeId none _ =>
      return .ok (.obj [("skipped",.str "move"),("id",.str nodeId),
        ("reason",.str "previous parent unknown")],{})
  | .RestoreCompletion nodeId prevCompleted => do
    match ← Client.setCompletion nodeId prevCompleted with
    | .error e => return .error e
    | .ok () =>
      return .ok (.obj [("rolled_back",.str "completion"),("id",.str nodeId),
        ("restored_to",.bool prevCompleted)],MutationFootprint.invalidateNode {} nodeId)

/-- Replay the inverses, the latest first. A failed inverse is logged and the rest go on. -/
def rollback (appliedResults : List Json) :
    List TxnInverse → List Json → MutationFootprint → Txn (List Json × MutationFootprint)
  | [],log,fp => return (log,fp)
  | inv::queue,log,fp => do
    match ← (runTxnInverse inv).own fun () => ⟨inv::queue,appliedResults⟩ with
    | .ok (summary,fp') =>
      rollback appliedResults queue (log++[.obj [("ok",.bool true),("summary",summary)]])
        (fp.extend fp')
    | .error e =>
      rollback appliedResults queue (log++[.obj [("ok",.bool false),("error",.str e.display)]]) fp

variable (renderDisplay : String → String)

def txnLoop : Nat → List TxnOp → List TxnInverse → List Json → MutationFootprint →
    Txn (TransactionOutcome × MutationFootprint)
  | _,[],_,results,fp => return (.Applied results,fp)
  | idx,op::ops,applied,results,fp => do
    match ← (applyTxnStep renderDisplay op).own fun () => ⟨applied,results⟩ with
    | .ok (summary,inverse,fp') =>
      txnLoop (idx+1) ops (inverse.toList++applied)
        (results++[.obj [("index",.num idx),("ok",.bool true),("summary",summary)]])
        (fp.extend fp')
    | .error e => do
      let (log,fp) ← rollback results applied [] fp
      return (.RolledBack idx e.display results log,fp)

def runTransaction (ops : List TxnOp) :
    Txn (Except WorkflowyError (TransactionOutcome × MutationFootprint)) :=
  if ops.isEmpty then return .error (.InvalidInput "operations must not be empty")
  else do
    return .ok (← txnLoop renderDisplay 0 ops [] [] {})

end Transaction
end WorkflowyMcp
