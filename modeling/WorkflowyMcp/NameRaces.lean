import Mathlib.Data.List.Permutation
import WorkflowyMcp.Lib.Pool
import WorkflowyMcp.ServerTools
import WorkflowyMcp.TagParser

/-! Tasks that change the name of one node while others do: renames, `bulk_tag` and the tag
operations of `bulk_update`. No request carries the name its task read, so the upstream
cannot refuse a write that comes too late. -/
namespace WorkflowyMcp.NameRaces
open TagParser

/- One id of `bulk_tag`: whether the tag was written. The name is read live. The dropping of
   cached entries behind a write is left out. -/
def bulkTagNode (addTagToName : String → String → Option String) (id bareTag : String) :
    Api (Except String Bool) := do
  match ← Client.getNode id with
  | .error e => return .error e.display
  | .ok node =>
    match addTagToName node.name bareTag with
    | none => return .ok false
    | some newName =>
      match ← Client.editNode id (some newName) none with
      | .error e => return .error e.display
      | .ok () => return .ok true

inductive NameTask where
  | EditNode (name : String)
  | BulkTag (tag : String)
  | AddTag (tag : String)
  | RemoveTag (tag : String)
deriving DecidableEq, Repr

/-- Tasks in flight on one node, whose name is the shared state. -/
abbrev NamePool := Pool ApiCall ApiReply Unit Bool String NameTask

section tasks
variable (toLowercase : String → String) (isWord : Char → Bool) (nodeId parentId : String)

/-- What `bulk_update` does about the node: its walk meets it in a listing, then comes the step. -/
def bulkUpdateNode (op : BulkOp) (tag : String) : Api Bool := do
  match ← Client.getChildren parentId with
  | .error _ => return false
  | .ok nodes =>
    match nodes.find? fun n => n.id = nodeId with
    | none => return false
    | some node =>
      bulkStep (addTagToName toLowercase isWord) (removeTagFromName isWord) op tag node

/-- Whether the task went through. -/
def program : NameTask → Api Bool
  | .EditNode name => return (← Client.editNode nodeId (some name) none).isOk
  | .BulkTag tag => return (← bulkTagNode (addTagToName toLowercase isWord) nodeId tag).isOk
  | .AddTag tag => bulkUpdateNode toLowercase isWord nodeId parentId .AddTag tag
  | .RemoveTag tag => bulkUpdateNode toLowercase isWord nodeId parentId .RemoveTag tag

/- Every request about the node succeeds, and the state is its name. A listing may come from
   the cache, so the name it shows is any name `seen`. -/
def nameServer (seen : String) : Proc.Server ApiCall ApiReply String
  | .getNode id,name => (.ok { id, name },name)
  | .getChildren p,name => (.ok [{ id := nodeId, name := seen, parentId := some p }],name)
  | .postNode _ new _ _,name => (.ok (),new.getD name)
  | .getTopLevel,name | .createNode .., name | .deleteNode _,name | .moveNode ..,name =>
    (.error .Timeout,name)

/-- The name after the task ran with no other task about. -/
def alone (t : NameTask) (name : String) : String :=
  ((program toLowercase isWord nodeId parentId t).run
    (fun q name => nameServer nodeId name q name) name).2

/- The number of a task whose next request is served, and the name a listing would show it. -/
abbrev step : NamePool → Nat × String → NamePool := Pool.step (nameServer nodeId)

abbrev start (tasks : List NameTask) (name : String) : NamePool :=
  Pool.start (program toLowercase isWord nodeId parentId) tasks name

/-- The name that is left when the tasks run one after another. -/
abbrev sequential (order : List NameTask) (name : String) : String :=
  Pool.sequential (alone toLowercase isWord nodeId parentId) order name

/-- The name the task writes when it read `name`, if it writes one. -/
def makes : NameTask → String → Option String
  | .EditNode new,_ => some new
  | .BulkTag tag,name | .AddTag tag,name => addTagToName toLowercase isWord name tag
  | .RemoveTag tag,name => some (removeTagFromName isWord name tag)

/-- The last request of a task, which has the name it writes. -/
def write (id : String) : Option String → Api Bool
  | none => .ret true
  | some new => .call () (.postNode id (some new) none none) fun r => .ret r.isOk

/-- A task by its requests: at most one read, then the write that depends on it. -/
def staged : NameTask → Api Bool
  | .EditNode new => write nodeId (some new)
  | .BulkTag tag => .call () (.getNode nodeId) fun
    | .error _ => .ret false
    | .ok node => write nodeId (makes toLowercase isWord (.BulkTag tag) node.name)
  | .AddTag tag => .call () (.getChildren parentId) fun
    | .error _ => .ret false
    | .ok nodes => match nodes.find? fun n => n.id = nodeId with
      | none => .ret false
      | some node => write node.id (makes toLowercase isWord (.AddTag tag) node.name)
  | .RemoveTag tag => .call () (.getChildren parentId) fun
    | .error _ => .ret false
    | .ok nodes => match nodes.find? fun n => n.id = nodeId with
      | none => .ret false
      | some node => write node.id (makes toLowercase isWord (.RemoveTag tag) node.name)

theorem editNode_isOk (id : String) (new : String) :
    (Client.editNode id (some new) none).bind (fun r => .ret r.isOk) = write id (some new) := rfl

theorem program_eq_staged (t : NameTask) :
    program toLowercase isWord nodeId parentId t =
      staged toLowercase isWord nodeId parentId t := by
  cases t with
  | EditNode new => rfl
  | BulkTag tag =>
    refine congrArg (Proc.call () _) (funext fun r => ?_)
    cases r with
    | error e => rfl
    | ok node =>
      simp only [Proc.ret_bind,makes]
      cases addTagToName toLowercase isWord node.name tag with
      | none => rfl
      | some new =>
        refine congrArg (Proc.call () _) (funext fun r => ?_)
        cases r <;> rfl
  | AddTag tag =>
    refine congrArg (Proc.call () _) (funext fun r => ?_)
    cases r with
    | error e => rfl
    | ok nodes =>
      cases hf : nodes.find? fun n => n.id = nodeId with
      | none => simp [hf]
      | some node => cases ha : addTagToName toLowercase isWord node.name tag <;>
          simp [hf,ha,bulkStep,makes,write,editNode_isOk]
  | RemoveTag tag =>
    refine congrArg (Proc.call () _) (funext fun r => ?_)
    cases r with
    | error e => rfl
    | ok nodes => cases hf : nodes.find? fun n => n.id = nodeId <;>
        simp [hf,bulkStep,makes,editNode_isOk]

theorem alone_eq (t : NameTask) (name : String) :
    alone toLowercase isWord nodeId parentId t name =
      (makes toLowercase isWord t name).getD name := by
  rw [alone,program_eq_staged]
  cases t with
  | EditNode new => rfl
  | BulkTag tag | AddTag tag =>
    cases ha : addTagToName toLowercase isWord name tag <;>
      simp [staged,nameServer,makes,write,ha]
  | RemoveTag tag => simp [staged,nameServer,makes,write]

theorem lastChanges_write (id : String) (new : Option String) :
    (write id new).LastChanges (nameServer nodeId) := by
  cases new with
  | none => trivial
  | some new =>
    refine ⟨fun _ _ h => ?_,fun _ => trivial⟩
    cases h

theorem lastChanges_staged (t : NameTask) :
    (staged toLowercase isWord nodeId parentId t).LastChanges (nameServer nodeId) := by
  cases t with
  | EditNode new => exact lastChanges_write nodeId nodeId (some new)
  | BulkTag tag =>
    refine ⟨fun _ _ _ => rfl,fun r => ?_⟩
    cases r with
    | error e => trivial
    | ok node => exact lastChanges_write nodeId nodeId _
  | AddTag tag | RemoveTag tag =>
    refine ⟨fun _ _ _ => rfl,fun r => ?_⟩
    cases r with
    | error e => trivial
    | ok nodes =>
      cases hf : nodes.find? fun n => n.id = nodeId with
      | none => simp [hf,Proc.LastChanges]
      | some node => simpa [hf] using lastChanges_write nodeId node.id _

/-- How far a task has come. -/
inductive Stage (t : NameTask) : Api Bool → Prop where
  | fresh : Stage t (staged toLowercase isWord nodeId parentId t)
  | writing (id : String) (new : Option String) : Stage t (write id new)
  | failed : Stage t (.ret false)
  | written (r : Except WorkflowyError Unit) : Stage t (.ret r.isOk)

theorem Stage.next {t : NameTask} {fr : Unit} {q : ApiCall} {k : ApiReply q → Api Bool}
    (h : Stage toLowercase isWord nodeId parentId t (.call fr q k)) (r : ApiReply q) :
    Stage toLowercase isWord nodeId parentId t (k r) := by
  generalize hp : Proc.call fr q k = p at h
  cases h with
  | fresh =>
    cases t with
    | EditNode new =>
      cases hp
      exact .written r
    | BulkTag tag =>
      cases hp
      cases r with
      | error e => exact .failed
      | ok node => exact .writing _ _
    | AddTag tag | RemoveTag tag =>
      cases hp
      cases r with
      | error e => exact .failed
      | ok nodes =>
        cases hf : nodes.find? fun n => n.id = nodeId with
        | none => simpa [hf] using .failed
        | some node => simpa [hf] using .writing _ _
  | writing id new =>
    cases new with
    | none => cases hp
    | some new =>
      cases hp
      exact .written r
  | failed => cases hp
  | written r => cases hp

/- The name a task is about to write is the one its operation makes of the name the node has
   at that moment. A tag that a listing shows already is not written: it is on the node too. -/
def Fits (s : NamePool) (e : Nat × String) : Prop :=
  match s.tasks[e.1]? with
  | some (t,.call _ (.postNode _ (some new) _ _) _) =>
    new = (makes toLowercase isWord t s.state).getD s.state
  | some (.AddTag tag,.call _ (.getChildren _) _) =>
    addTagToName toLowercase isWord e.2 tag = none →
      addTagToName toLowercase isWord s.state tag = none
  | _ => True

instance (s : NamePool) (e : Nat × String) : Decidable (Fits toLowercase isWord s e) := by
  unfold Fits
  split <;> infer_instance

theorem commits_iff_fits {s : NamePool} {e : Nat × String}
    (hs : ∀ x∈s.tasks, Stage toLowercase isWord nodeId parentId x.1 x.2) :
    Pool.Commits (nameServer nodeId) (alone toLowercase isWord nodeId parentId) s e ↔
      Fits toLowercase isWord s e := by
  simp only [Pool.Commits,Fits,alone_eq]
  cases hx : s.tasks[e.1]? with
  | none => simp
  | some x =>
    obtain ⟨t,p⟩ := x
    have h : Stage toLowercase isWord nodeId parentId t p := hs (t,p) (List.mem_of_getElem? hx)
    cases h with
    | fresh =>
      cases t with
      | EditNode new => simp [staged,write,nameServer]
      | BulkTag tag =>
        cases ha : addTagToName toLowercase isWord s.state tag <;>
          simp [staged,nameServer,makes,write,ha]
      | AddTag tag =>
        -- a write that adds a tag never leaves the name as it was
        have hsame : s.state = (addTagToName toLowercase isWord s.state tag).getD s.state ↔
            addTagToName toLowercase isWord s.state tag = none := by
          cases ha : addTagToName toLowercase isWord s.state tag with
          | none => simp
          | some new => simpa using (addTagToName_ne toLowercase isWord ha).symm
        cases hseen : addTagToName toLowercase isWord e.2 tag <;>
          simp [staged,nameServer,makes,write,hseen,hsame]
      | RemoveTag tag => simp [staged,nameServer,makes,write]
    | writing id new => cases new <;> simp [write,nameServer]
    | failed => simp
    | written r => simp

theorem not_returned (t : NameTask) :
    (program toLowercase isWord nodeId parentId t).returned = false := by
  rw [program_eq_staged]
  cases t <;> rfl

theorem always_serial_iff (tasks : List NameTask) (name : String) (es : List (Nat × String)) :
    Runs.Always (step nodeId)
        (fun s => s.state = sequential toLowercase isWord nodeId parentId s.landed name)
        (start toLowercase isWord nodeId parentId tasks name) es ↔
      Runs.Meets (step nodeId) (Fits toLowercase isWord)
        (start toLowercase isWord nodeId parentId tasks name) es := by
  have hstage : ∀ x∈(start toLowercase isWord nodeId parentId tasks name).tasks,
      Stage toLowercase isWord nodeId parentId x.1 x.2 := by
    intro x hx
    obtain ⟨t,-,rfl⟩ := List.mem_map.mp hx
    rw [program_eq_staged]
    exact .fresh
  have hlast : ∀ x∈(start toLowercase isWord nodeId parentId tasks name).tasks,
      x.2.LastChanges (nameServer nodeId) := by
    intro x hx
    obtain ⟨t,-,rfl⟩ := List.mem_map.mp hx
    rw [program_eq_staged]
    exact lastChanges_staged toLowercase isWord nodeId parentId t
  refine (Pool.always_sequential_iff _ _ rfl hlast es).trans ?_
  refine Runs.meets_congr (I := fun s : NamePool =>
    ∀ x∈s.tasks, Stage toLowercase isWord nodeId parentId x.1 x.2) ?_ ?_ hstage es
  · exact fun s e hs => Pool.step_tasks (fun t fr q k r h => h.next _ _ _ _ r) hs
  · exact fun s e hs => commits_iff_fits toLowercase isWord nodeId parentId hs

/-- A run is all along the sequential execution of the tasks that have returned, exactly when
each task's last request fits the name it finds. The name that all of them leave is then that
of a sequential execution. -/
theorem names_serial_iff (tasks : List NameTask) (name : String) (es : List (Nat × String)) :
    (Runs.Always (step nodeId)
        (fun s => s.state = sequential toLowercase isWord nodeId parentId s.landed name)
        (start toLowercase isWord nodeId parentId tasks name) es ↔
      Runs.Meets (step nodeId) (Fits toLowercase isWord)
        (start toLowercase isWord nodeId parentId tasks name) es) ∧
    (Runs.Meets (step nodeId) (Fits toLowercase isWord)
        (start toLowercase isWord nodeId parentId tasks name) es →
      (Runs.run (step nodeId) (start toLowercase isWord nodeId parentId tasks name) es).Returned →
      ∃ order, order.Perm tasks ∧
        (Runs.run (step nodeId) (start toLowercase isWord nodeId parentId tasks name) es).state =
          sequential toLowercase isWord nodeId parentId order name) := by
  have hiff := always_serial_iff toLowercase isWord nodeId parentId tasks name es
  refine ⟨hiff,fun hm hr => ⟨_,Pool.returned_perm _ (not_returned _ _ _ _) hr,?_⟩⟩
  exact hiff.mpr hm es (List.prefix_refl es)

end tasks

section runs

abbrev asciiStart : List NameTask → String → NamePool :=
  start asciiLowercase Char.isAlphanum "x" "p"

abbrev asciiSequential : List NameTask → String → String :=
  sequential asciiLowercase Char.isAlphanum "x" "p"

/-- The tag task reads the old name, the rename lands, the tag task writes. -/
def undoneRename : NamePool :=
  Runs.run (step "x") (asciiStart [.EditNode "renamed",.BulkTag "a"] "task") [(1,""),(0,""),(1,"")]

/-- Both tag tasks read before either writes. -/
def lostTag : NamePool :=
  Runs.run (step "x") (asciiStart [.BulkTag "a",.BulkTag "b"] "task") [(0,""),(1,""),(0,""),(1,"")]

theorem updates_lost :
    (undoneRename.Returned ∧ ∀ order, order.Perm [.EditNode "renamed",.BulkTag "a"] →
      undoneRename.state ≠ asciiSequential order "task") ∧
    (lostTag.Returned ∧ ∀ order, order.Perm [.BulkTag "a",.BulkTag "b"] →
      lostTag.state ≠ asciiSequential order "task") := by
  have hundone : ∀ order ∈ [NameTask.EditNode "renamed",.BulkTag "a"].permutations',
      undoneRename.state ≠ asciiSequential order "task" := by decide
  have hlost : ∀ order ∈ [NameTask.BulkTag "a",.BulkTag "b"].permutations',
      lostTag.state ≠ asciiSequential order "task" := by decide
  refine ⟨⟨by decide,fun order h => ?_⟩,by decide,fun order h => ?_⟩
  · exact hundone order (List.mem_permutations'.mpr h)
  · exact hlost order (List.mem_permutations'.mpr h)

/- A tag is added, taken off again by a task whose listing shows it, and the node renamed. -/
theorem fitting_run_serial : ∃ order,
    order.Perm [.BulkTag "a",.EditNode "renamed",.RemoveTag "a"] ∧
    (Runs.run (step "x") (asciiStart [.BulkTag "a",.EditNode "renamed",.RemoveTag "a"] "task")
      [(0,""),(0,""),(2,"task #a"),(2,""),(1,"")]).state = asciiSequential order "task" := by
  refine (names_serial_iff asciiLowercase Char.isAlphanum "x" "p"
    [.BulkTag "a",.EditNode "renamed",.RemoveTag "a"] "task" _).2 ?_ ?_
  · decide
  · decide

end runs

end WorkflowyMcp.NameRaces
