import WorkflowyMcp.Lib.Proc
import WorkflowyMcp.ApiCall

/-! Client methods as programs over the API. One request of a program is one call
of `request_cancellable`; what that call retries internally is not visible here. -/
namespace WorkflowyMcp

abbrev ApiResult : ApiCall → Type
  | .getNode _ => WorkflowyNode
  | .getChildren _ | .getTopLevel => List WorkflowyNode
  | .createNode .. => Option String
  | .postNode .. | .deleteNode _ | .moveNode .. => Unit

abbrev ApiReply (q : ApiCall) : Type := Except WorkflowyError (ApiResult q)

abbrev Api : Type → Type := Proc ApiCall ApiReply Unit

namespace Client

def request (q : ApiCall) : Api (ApiReply q) := .call () q .ret

def getNode (nodeId : String) : Api (Except WorkflowyError WorkflowyNode) :=
  request (.getNode nodeId)

def getChildren (nodeId : String) : Api (Except WorkflowyError (List WorkflowyNode)) :=
  request (.getChildren nodeId)

/- The reply to a create is the id found under `item_id` or `id`. The echo of the
   response in the parse error is left out. -/
def createdNode (name : String) (parentId : Option String) :
    Except WorkflowyError (Option String) → Except WorkflowyError CreatedNode
  | .error e => .error e
  | .ok none => .error (.ParseError "Response missing 'item_id' field after node creation")
  | .ok (some id) => .ok { id, name, parentId }

def createNode (name : String) (description parentId : Option String) (priority : Option Int) :
    Api (Except WorkflowyError CreatedNode) := do
  return createdNode name parentId
    (← request (.createNode name description parentId priority none))

/-- Both fields are written by two requests, the name first. -/
def editNode (nodeId : String) (name description : Option String) :
    Api (Except WorkflowyError Unit) :=
  if name.isSome && description.isSome then do
    match ← request (.postNode nodeId name none none) with
    | .error e => return .error e
    | .ok () => request (.postNode nodeId none description none)
  else request (.postNode nodeId name description none)

def setCompletion (nodeId : String) (completed : Bool) : Api (Except WorkflowyError Unit) :=
  request (.postNode nodeId none none (some completed))

def deleteNode (nodeId : String) : Api (Except WorkflowyError Unit) :=
  request (.deleteNode nodeId)

def maxPropRetries : Nat := 3

/-- One logical attempt: a parent-related error refreshes the parent's listing and
sends the move once more. -/
def moveAttempt (nodeId newParentId : String) (priority : Option Int) :
    Api (Except WorkflowyError Unit) := do
  match ← request (.moveNode nodeId newParentId priority) with
  | .ok () => return .ok ()
  | .error e =>
    if isParentRelatedError e then do
      let _ ← getChildren newParentId
      request (.moveNode nodeId newParentId priority)
    else return .error e

/-- Attempts with `left` more to follow; only a 404 uses them. -/
def moveLoop (nodeId newParentId : String) (priority : Option Int) :
    Nat → Api (Except WorkflowyError Unit)
  | 0 => moveAttempt nodeId newParentId priority
  | left+1 => do
    match ← moveAttempt nodeId newParentId priority with
    | .ok () => return .ok ()
    | .error e =>
      if is404Like e then moveLoop nodeId newParentId priority left else return .error e

def moveNode (nodeId newParentId : String) (priority : Option Int) :
    Api (Except WorkflowyError Unit) :=
  moveLoop nodeId newParentId priority (maxPropRetries-1)

end Client
end WorkflowyMcp
