import WorkflowyMcp.Types

/-! The requests the client sends and the endpoint and body each is sent with. -/
namespace WorkflowyMcp

inductive Json where
  | null
  | bool (b : Bool)
  | num (n : Int)
  | str (s : String)
  | obj (fields : List (String × Json))

def Json.get (j : Json) (key : String) : Option Json :=
  match j with
  | .obj fields => (fields.find? fun f => f.1 = key).map Prod.snd
  | _ => none

def Json.asStr : Json → Option String
  | .str s => some s
  | _ => none

inductive ApiCall where
  | getNode (nodeId : String)
  | getChildren (nodeId : String)
  | getTopLevel
  | createNode (name : String) (description parentId : Option String) (priority : Option Int)
      (layout : Option String)
  | postNode (nodeId : String) (name note : Option String) (completed : Option Bool)
  | deleteNode (nodeId : String)
  | moveNode (nodeId newParentId : String) (priority : Option Int)
deriving DecidableEq, Repr

namespace ApiCall

def method : ApiCall → String
  | .getNode _ | .getChildren _ | .getTopLevel => "GET"
  | .createNode .. | .postNode .. | .moveNode .. => "POST"
  | .deleteNode _ => "DELETE"

def endpoint : ApiCall → String
  | .getNode nodeId | .postNode nodeId .. | .deleteNode nodeId => "/nodes/" ++ nodeId
  | .getChildren nodeId => "/nodes?parent_id=" ++ nodeId
  | .getTopLevel | .createNode .. => "/nodes"
  | .moveNode nodeId .. => "/nodes/" ++ (nodeId ++ "/move")

/-- A body field that is sent only when the argument is present. -/
def field (key : String) (v : Option Json) : List (String × Json) :=
  (v.map fun j => (key,j)).toList

def body : ApiCall → Option Json
  | .getNode _ | .getChildren _ | .getTopLevel | .deleteNode _ => none
  | .createNode name description parentId priority layout =>
      some (.obj ([("name",.str name)] ++ field "note" (description.map .str) ++
        field "parent_id" (parentId.map .str) ++ field "priority" (priority.map .num) ++
        field "layoutMode" (layout.map .str)))
  | .postNode _ name note completed =>
      some (.obj (field "name" (name.map .str) ++ field "note" (note.map .str) ++
        field "completed" (completed.map .bool)))
  | .moveNode _ newParentId priority =>
      some (.obj ([("parent_id",.str newParentId)] ++ field "priority" (priority.map .num)))

/-- The node a write changes; a create names none, its node does not exist yet. -/
def mutated : ApiCall → Option String
  | .postNode nodeId .. | .deleteNode nodeId | .moveNode nodeId .. => some nodeId
  | _ => none

/-- The listing a write adds a child to, `""` standing for the workspace root. -/
def destination : ApiCall → Option String
  | .createNode _ _ parentId _ _ => some (parentId.getD "")
  | .moveNode _ newParentId _ => some newParentId
  | _ => none

/-- The string under `parent_id` in the request body, if the body has one. -/
def bodyParent (body : Option Json) : Option String :=
  (body.bind fun b => b.get "parent_id").bind Json.asStr

theorem bodyParent_body (q : ApiCall) :
    bodyParent q.body =
      match q with
      | .createNode _ _ parentId _ _ => parentId
      | .moveNode _ newParentId _ => some newParentId
      | _ => none := by
  cases q with
  | createNode name description parentId priority layout =>
    cases description <;> cases parentId <;> cases priority <;> cases layout <;>
      simp [bodyParent,body,field,Json.get,Json.asStr]
  | postNode nodeId name note completed =>
    cases name <;> cases note <;> cases completed <;>
      simp [bodyParent,body,field,Json.get]
  | moveNode nodeId newParentId priority => simp [bodyParent,body,Json.get,Json.asStr]
  | getNode | getChildren | getTopLevel | deleteNode => rfl

end ApiCall
end WorkflowyMcp
