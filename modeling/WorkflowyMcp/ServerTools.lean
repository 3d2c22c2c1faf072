import WorkflowyMcp.NameIndex
import WorkflowyMcp.NodeCache
import WorkflowyMcp.Transaction
import WorkflowyMcp.Idempotency

/-! The server around the workflows: its cache and its name index, the two ways a handler
drops entries from them, and the handlers of single-node writes and of `bulk_update`. Ids are
resolved when a handler starts. -/
namespace WorkflowyMcp

namespace Client
variable {α : Type}

/-- Attempts with `left` more to follow; only a 404 uses them. -/
def withPropagationRetry (attempt : Api (Except WorkflowyError α)) :
    Nat → Api (Except WorkflowyError α)
  | 0 => attempt
  | left+1 => do
    match ← attempt with
    | .ok a => return .ok a
    | .error e => if is404Like e then withPropagationRetry attempt left else return .error e

def getNodeWithPropagationRetry (nodeId : String) : Api (Except WorkflowyError WorkflowyNode) :=
  withPropagationRetry (getNode nodeId) (maxPropRetries-1)

def deleteNodeWithPropagationRetry (nodeId : String) : Api (Except WorkflowyError Unit) :=
  withPropagationRetry (deleteNode nodeId) (maxPropRetries-1)

end Client

/- The envelope of an operational error is classified from the text of the error. -/
inductive McpError where
  | toolError (operation : String) (nodeId : Option String) (error : String)
  | toolInvalidParams (operation : String) (nodeId : Option String) (msg : String)
deriving DecidableEq, Repr

def workflowErrorToMcp (operation : String) (nodeId : Option String) : WorkflowyError → McpError
  | .InvalidInput reason => .toolInvalidParams operation nodeId reason
  | other => .toolError operation nodeId other.display

def scopeResolvedLabel : Option String → String
  | none => "workspace_root"
  | some uuid => "scoped:" ++ uuid

structure Server where
  cache : NodeCache := {}
  nameIndex : NameIndex := {}

namespace Server

def invalidateForMutation (s : Server) (ids : List String) : Server :=
  ids.foldl (fun s id => ⟨s.cache.invalidateNode id,s.nameIndex.invalidateNode id⟩) s

/-- What the workflow names is dropped first, what it created is ingested after. -/
def applyFootprint (toLowercase : String → String) (s : Server) (fp : MutationFootprint) :
    Server where
  cache := fp.invalidatedNodes.foldl NodeCache.invalidateNode s.cache
  nameIndex :=
    let idx := fp.invalidatedNameIndex.foldl NameIndex.invalidateNode s.nameIndex
    if fp.createdNodes.isEmpty then idx else idx.ingest toLowercase fp.createdNodes

end Server

/- The reply of a handler and the server it leaves behind. -/
abbrev Handled (α : Type) : Type := Except McpError α × Server

def LAYOUT_MODES : List String :=
  ["bullets","todo","h1","h2","h3","code-block","quote-block"]

def isValidLayoutMode (mode : String) : Bool := LAYOUT_MODES.contains mode

def invalidLayout (mode : String) : String :=
  "invalid layout '" ++ mode ++ "'; expected one of: " ++ String.intercalate ", " LAYOUT_MODES

/- The empty parent of a request stands for the workspace root, here `none`. -/
structure CreateNodeParams where
  name : String
  description : Option String := none
  parentId : Option String := none
  priority : Option Int := none
  layout : Option String := none
  idempotencyKey : Option String := none
deriving DecidableEq, Repr

/- What `record` is called with, the time apart. -/
structure IdempotencyRecord where
  key : String
  itemId : String
  name : String
  parentId : Option String
deriving DecidableEq, Repr

structure CreateNodeReply where
  text : String
  recorded : Option IdempotencyRecord
deriving DecidableEq, Repr

def idempotentReplay (key : String) (hit : IdempotencyHit) : String :=
  "idempotent_replay: NO new node created — idempotency_key `" ++ key ++ "` was already used " ++
    toString (hit.ageMs/1000) ++ "s ago for a successful create. Returning the original node '" ++
    hit.name ++ "' (id: `" ++ hit.itemId ++ "`) " ++
    (match hit.parentId with | some p => "under `" ++ p ++ "`" | none => "at workspace root") ++
    ". If you did NOT intend a retry, reissue with a fresh key. (Best-effort, server-process-scoped; an ambiguous timeout AFTER a prior write was sent is NOT covered by this key — read the node back to confirm before assuming a single write.)"

def createdText (p : CreateNodeParams) (id : String) (degradedWarning : Option String) : String :=
  "scope_resolved: " ++ scopeResolvedLabel p.parentId ++ "\n\nCreated node '" ++ p.name ++
    "' (id: `" ++ id ++ "`) " ++
    (match p.parentId with
      | some pid => "under `" ++ pid ++ "`"
      | none => "at workspace root (parent_id=\"\")") ++
    (match degradedWarning with | some warn => "\n\n⚠ DEGRADED: " ++ warn | none => "")

section
variable (toLowercase : String → String)

/-- `check` is the lookup of the idempotency key, `degradedWarning` what the op log says of
recent failures. -/
def Server.createNode (s : Server) (params : CreateNodeParams)
    (check : String → Option IdempotencyHit)
    (degradedWarning : Option String) : Api (Handled CreateNodeReply) :=
  match params.idempotencyKey,params.idempotencyKey.bind check with
  | some key,some hit => return (.ok ⟨idempotentReplay key hit,none⟩,s)
  | _,_ =>
    match params.layout.filter fun lm => !isValidLayoutMode lm with
    | some lm =>
      return (.error (.toolInvalidParams "create_node" params.parentId (invalidLayout lm)),s)
    | none => do
      let s := s.invalidateForMutation params.parentId.toList
      match Client.createdNode params.name params.parentId
        (← Client.request (.createNode params.name
          params.description params.parentId params.priority params.layout)) with
      | .error e => return (.error (.toolError "create_node" params.parentId e.display),s)
      | .ok created =>
        let node : WorkflowyNode :=
          { id := created.id, name := params.name, description := params.description
            parentId := params.parentId }
        return (.ok ⟨createdText params created.id degradedWarning,
            params.idempotencyKey.map fun key => ⟨key,created.id,params.name,params.parentId⟩⟩,
          { s with nameIndex := s.nameIndex.ingest toLowercase [node] })

end

def deleteRefusedText (currentName expected : String) : String :=
  "delete refused: node is named " ++ debugStr currentName ++ " but expect_name was " ++
    debugStr expected ++ " — the node_id may have been coerced to a different node than intended; re-resolve and confirm before retrying"

/-- The name-echo guard of the tool: nothing is dropped before it has passed. -/
def expectNameGuard (renderDisplay : String → String) (nodeId : String) :
    Option String → Api (Except McpError Unit)
  | none => return .ok ()
  | some expected => do
    match ← Client.getNodeWithPropagationRetry nodeId with
    | .error e => return .error (.toolError "delete_node" (some nodeId) e.display)
    | .ok current =>
      if Transaction.destructiveEchoMatches renderDisplay current.name expected then return .ok ()
      else return .error (.toolInvalidParams "delete_node" (some nodeId)
        (deleteRefusedText current.name expected))

def Server.deleteNode (renderDisplay : String → String) (s : Server) (nodeId : String)
    (expectName : Option String) : Api (Handled String) := do
  match ← expectNameGuard renderDisplay nodeId expectName with
  | .error e => return (.error e,s)
  | .ok () =>
    let s := s.invalidateForMutation [nodeId]
    match ← Client.deleteNodeWithPropagationRetry nodeId with
    | .error e => return (.error (.toolError "delete_node" (some nodeId) e.display),s)
    | .ok () =>
      return (.ok ("scope_resolved: " ++ scopeResolvedLabel (some nodeId) ++
        "\n\nDeleted node `" ++ nodeId ++ "`"),s)

/-- A pre-read that fails leaves the old parent unknown. -/
def Server.moveNode (s : Server) (nodeId newParentId : String) (priority : Option Int) :
    Api (Handled String) := do
  let oldParentId := (← Client.getNode nodeId).toOption.bind WorkflowyNode.parentId
  let s := s.invalidateForMutation
    ([nodeId,newParentId] ++ (oldParentId.filter fun pid => pid ≠ newParentId).toList)
  match ← Client.moveNode nodeId newParentId priority with
  | .error e => return (.error (.toolError "move_node" (some nodeId) e.display),s)
  | .ok () =>
    return (.ok ("scope_resolved: node=" ++ scopeResolvedLabel (some nodeId) ++ "; new_parent=" ++
      scopeResolvedLabel (some newParentId) ++ "\n\nMoved node `" ++ nodeId ++ "` under `" ++
      newParentId ++ "`"),s)

inductive BulkOp where
  | Delete | Complete | Uncomplete | AddTag | RemoveTag
deriving DecidableEq, Repr

namespace BulkOp

def parse : String → Option BulkOp
  | "delete" => some .Delete
  | "complete" => some .Complete
  | "uncomplete" => some .Uncomplete
  | "add_tag" => some .AddTag
  | "remove_tag" => some .RemoveTag
  | _ => none

def asStr : BulkOp → String
  | .Delete => "delete"
  | .Complete => "complete"
  | .Uncomplete => "uncomplete"
  | .AddTag => "add_tag"
  | .RemoveTag => "remove_tag"

def requiresTag : BulkOp → Bool
  | .AddTag | .RemoveTag => true
  | _ => false

end BulkOp

structure BulkOpResult where
  matchedCount : Nat
  affectedCount : Nat
  affectedIds : List String
deriving DecidableEq, Repr

section
variable (addTagToName : String → String → Option String)
  (removeTagFromName : String → String → String)

/-- Whether the operation on one node went through; the tag is present where it is needed. -/
def bulkStep (op : BulkOp) (operationTag : String) (node : WorkflowyNode) : Api Bool :=
  match op with
  | .Delete => return (← Client.deleteNode node.id).isOk
  | .Complete => return (← Client.setCompletion node.id true).isOk
  | .Uncomplete => return (← Client.setCompletion node.id false).isOk
  | .AddTag =>
    match addTagToName node.name operationTag with
    | none => return true
    | some newName => return (← Client.editNode node.id (some newName) none).isOk
  | .RemoveTag =>
    return (← Client.editNode node.id (some (removeTagFromName node.name operationTag)) none).isOk

def bulkLoop (op : BulkOp) (operationTag : String) :
    List WorkflowyNode → List String → MutationFootprint → Api (List String × MutationFootprint)
  | [],affectedIds,fp => return (affectedIds,fp)
  | node::nodes,affectedIds,fp => do
    if ← bulkStep addTagToName removeTagFromName op operationTag node then
      let fp := fp.invalidateNode node.id
      let fp := match node.parentId with
        | some pid => fp.invalidateCacheOnly pid
        | none => fp
      bulkLoop op operationTag nodes (affectedIds++[node.id]) fp
    else bulkLoop op operationTag nodes affectedIds fp

def applyBulkOp (op : BulkOp) (nodes : List WorkflowyNode) (operationTag : Option String) :
    Api (Except WorkflowyError (BulkOpResult × MutationFootprint)) :=
  if op.requiresTag && operationTag.isNone then
    return .error (.InvalidInput ("operation_tag required for " ++ op.asStr))
  else do
    let (affectedIds,fp) ← bulkLoop addTagToName removeTagFromName op
      (operationTag.getD "") nodes [] {}
    return .ok (⟨nodes.length,affectedIds.length,affectedIds⟩,fp)

/- The tail of the tool, behind its walk, its filter and its refusals: `nodes` are the matched
   ones. The sweep of the root's subtree from the node cache is left out. -/
def Server.bulkUpdate (toLowercase : String → String) (s : Server) (rootId : Option String)
    (op : BulkOp)
    (nodes : List WorkflowyNode) (operationTag : Option String) : Api (Handled BulkOpResult) := do
  match ← applyBulkOp addTagToName removeTagFromName op nodes operationTag with
  | .error e => return (.error (workflowErrorToMcp "bulk_update" rootId e),s)
  | .ok (result,fp) => return (.ok result,s.applyFootprint toLowercase fp)

end

/-- The tool behind the resolution of its references. -/
def Server.transaction (toLowercase renderDisplay : String → String) (s : Server)
    (ops : List Transaction.TxnOp) :
    Transaction.Txn (Handled Transaction.TransactionOutcome) := do
  match ← Transaction.runTransaction renderDisplay ops with
  | .error e => return (.error (workflowErrorToMcp "transaction" none e),s)
  | .ok (outcome,fp) => return (.ok outcome,s.applyFootprint toLowercase fp)

end WorkflowyMcp
