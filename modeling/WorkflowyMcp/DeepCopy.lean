import Mathlib.Data.Set.Card
import WorkflowyMcp.Lib.Forest
import WorkflowyMcp.Lib.KeyMap
import WorkflowyMcp.Connection
import WorkflowyMcp.Transaction
import WorkflowyMcp.WalkOrder

/-! `deep_copy_subtree` and the two workflows that go through it: a bounded walk of the
source, then one create for each fetched node, parents first. -/
namespace WorkflowyMcp.DeepCopy
open SubtreeWalk

def MAX_TREE_DEPTH : Nat := 10
def MAX_SUBTREE_NODES : Nat := 10000

/- What the checks between two creates see, by how many nodes were created before. -/
structure WorkflowContext where
  isCancelled : Nat → Bool := fun _ => false
  isPastDeadline : Nat → Bool := fun _ => false

structure CopyState where
  idMap : KeyMap String String := ∅
  createdCount : Nat := 0
  footprint : MutationFootprint := {}

def truncationRefusal (label : String) (limit : Nat) : WorkflowyError :=
  .InvalidInput ("Cannot " ++ label ++ ": source subtree exceeds " ++ toString limit ++
    " nodes. Refusing to produce a partial copy. Narrow the source or copy sub-branches individually.")

def rootNotFound (label sourceId : String) : WorkflowyError :=
  .InvalidInput (label ++ " '" ++ sourceId ++ "' not found")

def copyStopped (why : String) (created total : Nat) : WorkflowyError :=
  .Internal ("copy " ++ why ++ " after creating " ++ toString created ++ " of " ++ toString total ++
    " nodes; re-read the target to inspect the partial tree")

/-- The entry of `children_of`, in the order the nodes were fetched. -/
def childrenOf (nodes : List WorkflowyNode) (id : String) : List WorkflowyNode :=
  nodes.filter fun n => n.parentId = some id

namespace CopyState

def newParent (st : CopyState) (newRootId : String) (node : WorkflowyNode) : String :=
  (node.parentId.bind fun pid => st.idMap.lookup pid).getD newRootId

def book (st : CopyState) (node : WorkflowyNode) (id : String) (copied : String × Option String)
    (parent : String) : CopyState where
  idMap := st.idMap.insert node.id id
  createdCount := st.createdCount+1
  footprint := st.footprint.recordCreated id copied.1 copied.2 (some parent)

end CopyState

section copy
variable (transform : WorkflowyNode → String × Option String)

/-- Create the copy of one node and book it. -/
def copyNode (parent : String) (node : WorkflowyNode) (st : CopyState) :
    Api (Except WorkflowyError (String × CopyState)) := do
  match ← Client.createNode (transform node).1 (transform node).2 (some parent) none with
  | .error e => return .error e
  | .ok created => return .ok (created.id,st.book node created.id (transform node) parent)

/- The queue of nodes whose parents were copied. A fetch whose parent links run in a circle
   would keep it busy for ever, so it gives no result when the fuel runs out. -/
def copyQueue (ctx : WorkflowContext) (nodes : List WorkflowyNode) (newRootId : String) :
    Nat → List WorkflowyNode → CopyState → Api (Option (Except WorkflowyError CopyState))
  | _,[],st => return some (.ok st)
  | 0,_::_,_ => return none
  | fuel+1,node::queue,st =>
    if ctx.isCancelled st.createdCount then
      return some (.error (copyStopped "cancelled" st.createdCount nodes.length))
    else if ctx.isPastDeadline st.createdCount then
      return some (.error (copyStopped "timed out" st.createdCount nodes.length))
    else do
      match ← copyNode transform (st.newParent newRootId node) node st with
      | .error e => return some (.error e)
      | .ok (_,st) => copyQueue ctx nodes newRootId fuel (queue++childrenOf nodes node.id) st

/-- The new root, the number of nodes created and the footprint. -/
def deepCopySubtree (w : WalkEnv) (fuel : Nat) (sourceId targetParentId : String) (walkDepth : Nat)
    (truncationRefusalLabel notFoundLabel : String) (ctx : WorkflowContext) :
    Api (Option (Except WorkflowyError (String × Nat × MutationFootprint))) :=
  match getSubtreeWithControls w (some sourceId) walkDepth MAX_SUBTREE_NODES with
  | .error e => return some (.error e)
  | .ok fetch =>
    if fetch.truncated then return some (.error (truncationRefusal truncationRefusalLabel fetch.limit))
    else match fetch.nodes.find? fun n => n.id = sourceId with
      | none => return some (.error (rootNotFound notFoundLabel sourceId))
      | some root => do
        let footprint := MutationFootprint.invalidateCacheOnly {} targetParentId
        match ← copyNode transform targetParentId root { footprint } with
        | .error e => return some (.error e)
        | .ok (newRootId,st) =>
          return (← copyQueue transform ctx fetch.nodes newRootId fuel
              (childrenOf fetch.nodes root.id) st).map
            (Except.map fun st => (newRootId,st.createdCount,st.footprint))

end copy

structure DuplicateOutcome where
  originalId : String
  newRootId : String
  nodesCreated : Nat
deriving DecidableEq, Repr

/-- The prefix goes before the name of the source itself only. -/
def prefixed (sourceId : String) (namePrefix : Option String) (node : WorkflowyNode) :
    String × Option String :=
  (if node.id = sourceId then namePrefix.getD "" ++ node.name else node.name,node.description)

def duplicateSubtree (w : WalkEnv) (fuel : Nat) (sourceId targetParentId : String)
    (includeChildren : Bool) (namePrefix : Option String) (ctx : WorkflowContext) :
    Api (Option (Except WorkflowyError (DuplicateOutcome × MutationFootprint))) := do
  let walkDepth := if includeChildren then MAX_TREE_DEPTH else 0
  return (← deepCopySubtree (prefixed sourceId namePrefix) w fuel sourceId targetParentId walkDepth
      "duplicate" "Node" ctx).map
    (Except.map fun (newRootId,nodesCreated,footprint) =>
      ({ originalId := sourceId, newRootId, nodesCreated },footprint))

section template
variable (isWord : Char → Bool) (vars : KeyMap String String)

/- A match of `\x7b\x7b(\w+)\x7d\x7d` at the head of the text: what it captures and what
   follows. A brace is no word character, so the longest run of them is the one to try. -/
def matchVar : List Char → Option (List Char × List Char)
  | '\x7b' :: '\x7b' :: cs =>
    match cs.takeWhile isWord,cs.dropWhile isWord with
    | [],_ => none
    | c::name, '\x7d' :: '\x7d' :: rest => some (c::name,rest)
    | _,_ => none
  | _ => none

/-- The leftmost match is replaced and the search goes on behind it. -/
def replaceAll : Nat → List Char → List Char
  | 0,cs => cs
  | _+1,[] => []
  | fuel+1,c::cs =>
    match matchVar isWord (c::cs) with
    | some (name,rest) =>
      ((vars.lookup (String.ofList name)).map String.toList).getD
        (['\x7b','\x7b']++name++['\x7d','\x7d'])++replaceAll fuel rest
    | none => c::replaceAll fuel cs

def substituteVars (text : String) : String :=
  String.ofList (replaceAll isWord vars text.toList.length text.toList)

def substituted (node : WorkflowyNode) : String × Option String :=
  (substituteVars isWord vars node.name,node.description.map (substituteVars isWord vars))

structure TemplateOutcome where
  templateId : String
  newRootId : String
  nodesCreated : Nat
  variablesApplied : List String
deriving DecidableEq, Repr

def instantiateTemplate (w : WalkEnv) (fuel : Nat) (templateId targetParentId : String)
    (ctx : WorkflowContext) :
    Api (Option (Except WorkflowyError (TemplateOutcome × MutationFootprint))) := do
  return (← deepCopySubtree (substituted isWord vars) w fuel templateId targetParentId MAX_TREE_DEPTH
      "instantiate template" "Template" ctx).map
    (Except.map fun (newRootId,nodesCreated,footprint) =>
      ({ templateId, newRootId, nodesCreated,
         variablesApplied := vars.keys.mergeSort fun a b => decide (a ≤ b) },footprint))

end template

/- No create is refused and the caller never gives up. -/
structure Unhindered (svc : Service) (ctx : WorkflowContext) : Prop where
  creates : ∀ t name description parentId priority layout,
    svc.refuses t (.createNode name description parentId priority layout) = none
  wanted : ∀ k, ctx.isCancelled k = false
  inTime : ∀ k, ctx.isPastDeadline k = false

/-- What is stored when the copy of `node` is created under `parent`. -/
abbrev copied (transform : WorkflowyNode → String × Option String) (parent id : String)
    (node : WorkflowyNode) : WorkflowyNode :=
  { id, name := (transform node).1, description := (transform node).2, parentId := some parent }

section run
variable {transform : WorkflowyNode → String × Option String} {source target newRootId : String} {before : List WorkflowyNode}

theorem run_copyNode (svc : Service) (ctx : WorkflowContext) (parent : String)
    (node : WorkflowyNode) (st : CopyState) (u : Upstream) :
    let r := (copyNode transform parent node st).run svc.serve u
    ((∃ e, r.1 = .error e) ∧ r.2.nodes = u.nodes ∧
      (Unhindered svc ctx → findNode u.nodes parent = none)) ∨
    ∃ id, World.Fresh u.nodes id ∧ parent≠id ∧
      r.1 = .ok (id,st.book node id (transform node) parent) ∧
      r.2.nodes = u.nodes++[copied transform parent id node] := by
  have hcases := svc.serve_create_cases (transform node).1 (transform node).2 (some parent) none
    none u
  simp only [copyNode,Client.createNode,Client.request,Proc.bind_eq,Proc.call_bind,Proc.ret_bind,
    Proc.pure_eq,Proc.run_call]
  rcases hcases with ⟨hsame,hreply⟩ | ⟨id,hfresh,hp,hnodes,hreply⟩
  · left
    cases hr : (svc.serve (.createNode (transform node).1 (transform node).2 (some parent) none none)
        u).1 with
    | ok r =>
      cases r with
      | none =>
        refine ⟨⟨_,rfl⟩,hsame,fun hun => ?_⟩
        obtain ⟨-,ha⟩ := svc.serve_ok hr
        simp only [Service.apply] at ha
        split at ha <;> cases ha
      | some c => exact absurd hr (hreply c)
    | error e =>
      refine ⟨⟨e,rfl⟩,hsame,fun hun => ?_⟩
      cases hf : findNode u.nodes parent with
      | none => rfl
      | some p =>
        have ha : svc.apply (.createNode (transform node).1 (transform node).2 (some parent) none none)
            u = .ok (some (svc.freshId u.clock u.nodes),u.nodes++[copied transform parent
              (svc.freshId u.clock u.nodes) node]) := by
          simp [Service.apply,hf]
        rw [svc.serve_of_apply (hun.creates _ _ _ _ _ _) ha] at hr
        cases hr
  · refine .inr ⟨id,hfresh,fun h => hp (by rw [h]),?_,?_⟩
    · rw [hreply]
      rfl
    · rw [hreply]
      exact hnodes

/-- The id of the copy of `x`. -/
def CopyState.newId (st : CopyState) (x : String) : String := (st.idMap.lookup x).getD ""

/-- The copy of a node as the state so far has it. -/
def image (transform : WorkflowyNode → String × Option String) (source target newRootId : String)
    (st : CopyState) (node : WorkflowyNode) : WorkflowyNode :=
  copied transform (if node.id = source then target else st.newParent newRootId node)
    (st.newId node.id) node

/- The loop invariant: the store holds the copies of the nodes in `done` and nothing new
   besides, each under the copy of its parent. -/
structure Booked (transform : WorkflowyNode → String × Option String)
    (source target newRootId : String) (before done : List WorkflowyNode) (st : CopyState)
    (nodes : List WorkflowyNode) : Prop where
  nodes : nodes = before++done.map (image transform source target newRootId st)
  sources : (done.map WorkflowyNode.id).Nodup
  mapped : ∀ n∈done, st.idMap.lookup n.id = some (st.newId n.id)
  fresh : ∀ n∈done, World.Fresh before (st.newId n.id) ∧ target≠st.newId n.id
  distinct : (done.map fun n => st.newId n.id).Nodup
  root : ∃ r∈done, r.id = source ∧ st.newId source = newRootId
  born : ∀ n∈done, n.id≠source → ∃ p∈done, n.parentId = some p.id
  count : st.createdCount = done.length
  footprint : st.footprint = ⟨[target],[],done.map (image transform source target newRootId st)⟩

variable {done : List WorkflowyNode} {st : CopyState} {nodes : List WorkflowyNode}

theorem Booked.newParent (h : Booked transform source target newRootId before done st nodes)
    {n p : WorkflowyNode} (hp : p∈done) (hn : n.parentId = some p.id) :
    st.newParent newRootId n = st.newId p.id := by
  simp [CopyState.newParent,hn,h.mapped p hp]

theorem newId_book (st : CopyState) (n : WorkflowyNode) (id : String) (c : String × Option String)
    (parent x : String) :
    (st.book n id c parent).newId x = if x = n.id then id else st.newId x := by
  simp only [CopyState.newId,CopyState.book,KeyMap.lookup_insert_ite]
  split <;> rfl

/-- Booking one more node moves none of the copies made before. -/
theorem Booked.image_book (h : Booked transform source target newRootId before done st nodes)
    {n m : WorkflowyNode} (hn : n.id∉done.map WorkflowyNode.id) (hm : m∈done) (id : String)
    (c : String × Option String) (parent : String) :
    image transform source target newRootId (st.book n id c parent) m =
      image transform source target newRootId st m := by
  have hne : ∀ x∈done, x.id≠n.id := fun x hx he => hn (List.mem_map.mpr ⟨x,hx,he⟩)
  unfold image
  rw [newId_book,if_neg (hne m hm)]
  by_cases hs : m.id = source
  · simp [hs]
  · obtain ⟨p,hp,hpar⟩ := h.born m hm hs
    rw [if_neg hs,if_neg hs,h.newParent hp hpar]
    simp [CopyState.newParent,hpar,CopyState.book,hne p hp,h.mapped p hp]

theorem Booked.start {r : WorkflowyNode} {id : String}
    (hr : r.id = source) (hfresh : World.Fresh before id) (htarget : target≠id) :
    Booked transform source target id before [r]
      (CopyState.book { footprint := .invalidateCacheOnly {} target } r id (transform r) target)
      (before++[copied transform target id r]) where
  nodes := by simp [image,newId_book,hr]
  sources := by simp
  mapped := by
    intro n hn
    obtain rfl : n = r := by simpa using hn
    rw [newId_book,if_pos rfl]
    exact AList.lookup_insert _
  fresh := by simpa [newId_book] using ⟨hfresh,htarget⟩
  distinct := by simp
  root := ⟨r,by simp,hr,by simp [newId_book,hr]⟩
  born := by simp [hr]
  count := rfl
  footprint := by
    rw [List.map_singleton,image,if_pos hr,newId_book,if_pos rfl]
    rfl

/-- One more node is copied, under the copy of its parent. -/
theorem Booked.step (h : Booked transform source target newRootId before done st nodes)
    {n p : WorkflowyNode} (hn : n.id∉done.map WorkflowyNode.id) (hp : p∈done)
    (hpar : n.parentId = some p.id) {id : String} (hfresh : World.Fresh nodes id) :
    Booked transform source target newRootId before (done++[n])
      (st.book n id (transform n) (st.newParent newRootId n))
      (nodes++[copied transform (st.newParent newRootId n) id n]) := by
  have hne : ∀ m∈done, m.id≠n.id := fun m hm he => hn (List.mem_map.mpr ⟨m,hm,he⟩)
  have hstored : ∀ m∈done, image transform source target newRootId st m∈nodes := fun m hm => by
    rw [h.nodes]
    exact List.mem_append_right _ (List.mem_map_of_mem hm)
  have hnew : ∀ m∈done, st.newId m.id≠id := fun m hm => (hfresh _ (hstored m hm)).1
  obtain ⟨r,hr,hrid,hroot⟩ := h.root
  have hsource : n.id≠source := fun he => hne r hr (hrid.trans he.symm)
  have htarget : target≠id := fun he => (hfresh _ (hstored r hr)).2 (by simp [image,hrid,he])
  have hkept : ∀ m∈done, (st.book n id (transform n) (st.newParent newRootId n)).newId m.id =
      st.newId m.id := fun m hm => by rw [newId_book,if_neg (hne m hm)]
  have hown : (st.book n id (transform n) (st.newParent newRootId n)).newId n.id = id := by
    rw [newId_book,if_pos rfl]
  have hparent : (st.book n id (transform n) (st.newParent newRootId n)).newParent newRootId n =
      st.newParent newRootId n := by
    simp [CopyState.newParent,hpar,CopyState.book,hne p hp]
  have himages : (done++[n]).map (image transform source target newRootId
        (st.book n id (transform n) (st.newParent newRootId n))) =
      done.map (image transform source target newRootId st)++
        [copied transform (st.newParent newRootId n) id n] := by
    rw [List.map_append,List.map_congr_left fun m hm => h.image_book hn hm id _ _]
    simp [image,hsource,hown,hparent]
  refine ⟨?_,?_,?_,?_,?_,?_,?_,?_,?_⟩
  · rw [himages,← List.append_assoc,← h.nodes]
  · rw [List.map_append,List.nodup_append']
    exact ⟨h.sources,by simp,by simpa [List.disjoint_singleton] using hn⟩
  · intro m hm
    rcases List.mem_append.mp hm with hm | hm
    · rw [hkept m hm,← h.mapped m hm]
      simp [CopyState.book,hne m hm]
    · obtain rfl : m = n := by simpa using hm
      rw [hown]
      simp [CopyState.book]
  · intro m hm
    rcases List.mem_append.mp hm with hm | hm
    · rw [hkept m hm]
      exact h.fresh m hm
    · obtain rfl : m = n := by simpa using hm
      rw [hown]
      exact ⟨fun x hx => hfresh x (by rw [h.nodes]; exact List.mem_append_left _ hx),htarget⟩
  · rw [List.map_append,List.map_congr_left hkept,List.nodup_append']
    refine ⟨h.distinct,by simp,?_⟩
    simpa [hown] using hnew
  · exact ⟨r,List.mem_append_left _ hr,hrid,by rw [← hrid,hkept r hr,hrid,hroot]⟩
  · intro m hm hms
    rcases List.mem_append.mp hm with hm | hm
    · obtain ⟨q,hq,hmq⟩ := h.born m hm hms
      exact ⟨q,List.mem_append_left _ hq,hmq⟩
    · obtain rfl : m = n := by simpa using hm
      exact ⟨p,List.mem_append_left _ hp,hpar⟩
  · simp [CopyState.book,h.count]
  · rw [himages]
    simp [CopyState.book,MutationFootprint.recordCreated,h.footprint]

/-- The creates of `copyQueue`, once the order in which the nodes leave the queue is known. -/
def copyEach (transform : WorkflowyNode → String × Option String) (ctx : WorkflowContext)
    (total : Nat) (newRootId : String) :
    List WorkflowyNode → CopyState → Api (Except WorkflowyError CopyState)
  | [],st => return .ok st
  | node::l,st =>
    if ctx.isCancelled st.createdCount then
      return .error (copyStopped "cancelled" st.createdCount total)
    else if ctx.isPastDeadline st.createdCount then
      return .error (copyStopped "timed out" st.createdCount total)
    else do
      match ← copyNode transform (st.newParent newRootId node) node st with
      | .error e => return .error e
      | .ok (_,st) => copyEach transform ctx total newRootId l st

theorem copyQueue_eq {ctx : WorkflowContext} {all : List WorkflowyNode} {fuel : Nat}
    {queue l : List WorkflowyNode}
    (h : Forest.breadth (fun p => childrenOf all p.id) fuel queue = some l) (st : CopyState) :
    copyQueue transform ctx all newRootId fuel queue st =
      (copyEach transform ctx all.length newRootId l st).bind fun r => .ret (some r) := by
  induction fuel generalizing queue l st with
  | zero =>
    cases queue with
    | nil =>
      obtain rfl : [] = l := by simpa [Forest.breadth] using h
      rfl
    | cons n queue => simp [Forest.breadth] at h
  | succ fuel ih =>
    cases queue with
    | nil =>
      obtain rfl : [] = l := by simpa [Forest.breadth] using h
      rfl
    | cons n queue =>
      simp only [Forest.breadth,Option.map_eq_some_iff] at h
      obtain ⟨l,hl,rfl⟩ := h
      simp only [copyQueue,copyEach]
      split
      · rfl
      · split
        · rfl
        · simp only [Proc.bind_eq,Proc.bind_assoc]
          refine congrArg (Proc.bind _) (funext fun reply => ?_)
          cases reply with
          | error e => rfl
          | ok r => exact ih hl r.2

/-- Copying a list in which every node comes after its parent. -/
theorem run_copyEach (svc : Service) (ctx : WorkflowContext) (total : Nat)
    {all l : List WorkflowyNode} {u : Upstream}
    (hb : Booked transform source target newRootId before done st u.nodes)
    (hgrown : Forest.Grown (fun p => childrenOf all p.id) done l)
    (hnodup : ((done++l).map WorkflowyNode.id).Nodup) :
    let r := (copyEach transform ctx total newRootId l st).run svc.serve u
    ((∃ e, r.1 = .error e) ∧ ¬Unhindered svc ctx) ∨
    ∃ st', r.1 = .ok st' ∧
      Booked transform source target newRootId before (done++l) st' r.2.nodes := by
  induction l generalizing done st u with
  | nil => exact .inr ⟨st,rfl,by rwa [List.append_nil]⟩
  | cons n l ih =>
    obtain ⟨⟨p,hp,hpar⟩,hgrown⟩ := hgrown
    have hpar : n.parentId = some p.id := by simpa using (List.mem_filter.mp hpar).2
    have hn : n.id∉done.map WorkflowyNode.id := fun hmem => by
      rw [List.map_append,List.nodup_append'] at hnodup
      exact hnodup.2.2 hmem (by simp)
    have hlist : done++n::l = done++[n]++l := by simp
    simp only [copyEach]
    split
    · rename_i hc
      exact .inl ⟨⟨_,rfl⟩,fun hun => by simp [hun.wanted] at hc⟩
    · split
      · rename_i hd
        exact .inl ⟨⟨_,rfl⟩,fun hun => by simp [hun.inTime] at hd⟩
      · simp only [Proc.bind_eq,Proc.run_bind]
        rcases run_copyNode svc ctx (st.newParent newRootId n) n st u with
          ⟨⟨e,he⟩,-,hmissing⟩ | ⟨id,hfresh,-,hreply,hstored⟩
        · rw [he]
          refine .inl ⟨⟨e,rfl⟩,fun hun => ?_⟩
          have hnone := hmissing hun
          rw [hb.newParent hp hpar] at hnone
          have hmem : image transform source target newRootId st p∈u.nodes := by
            rw [hb.nodes]
            exact List.mem_append_right _ (List.mem_map_of_mem hp)
          have hno := List.find?_eq_none.mp hnone _ hmem
          simp [image] at hno
        · rw [hreply]
          rw [hlist] at hnodup ⊢
          exact ih (hstored ▸ hb.step hn hp hpar hfresh) hgrown hnodup

end run

section whole
variable {tree : Tree} {source target : String} {depth : Nat}

theorem childrenOf_sublist (nodes : List WorkflowyNode) (id : String) :
    (childrenOf nodes id).Sublist nodes := List.filter_sublist

theorem mem_childrenOf {nodes : List WorkflowyNode} {id : String} {n : WorkflowyNode} :
    n∈childrenOf nodes id ↔ n∈nodes ∧ n.parentId = some id := by
  simp [childrenOf]

/-- A node of the subtree never has its root for a child. -/
theorem root_orphan {r x : WorkflowyNode} {d : Nat} (hr : r∈tree.nodes)
    (hx : tree.InSubtree (some r.id) d x) : r.parentId≠some x.id := by
  intro hpar
  have hlt := tree.acyclic r hr x.id hpar
  rcases hx with ⟨-,hid⟩ | ⟨k,-,hk⟩
  · rw [Option.some.inj hid] at hlt
    exact lt_irrefl _ hlt
  · exact lt_asymm hlt hk.rank_lt

theorem docOrder_isTree {r : WorkflowyNode} (hr : r∈tree.nodes) (depth : Nat) :
    Forest.IsTree (fun p => childrenOf (tree.docOrder (some r.id) depth) p.id) r
      (tree.docOrder (some r.id) depth) where
  nodup := (Tree.docOrder_nodup _ _).of_map _
  mem := Tree.mem_docOrder.mpr (.inl ⟨hr,rfl⟩)
  closed _ _ c hc := (mem_childrenOf.mp hc).1
  siblings _ _ := ((Tree.docOrder_nodup _ _).of_map _).sublist (childrenOf_sublist _ _)
  parent x hx y hy c hcx hcy := by
    have hpx := (mem_childrenOf.mp hcx).2
    have hpy := (mem_childrenOf.mp hcy).2
    exact Tree.eq_of_id (Tree.docOrder_subset hx) (Tree.docOrder_subset hy)
      (by simpa [hpx] using hpy)
  orphan x hx hroot := root_orphan hr (Tree.mem_docOrder.mp hx) (mem_childrenOf.mp hroot).2
  reached x hx := by
    rcases Tree.mem_docOrder.mp hx with ⟨hmem,hid⟩ | ⟨k,hk,hd⟩
    · obtain rfl := Tree.eq_of_id hmem hr (Option.some.inj hid)
      exact .refl
    · clear hx
      induction k generalizing x with
      | zero =>
        exact .single (mem_childrenOf.mpr ⟨Tree.mem_docOrder.mpr (.inr ⟨0,hk,hd⟩),hd.2⟩)
      | succ k ih =>
        have hx := Tree.mem_docOrder.mpr (.inr ⟨k+1,hk,hd⟩)
        obtain ⟨-,p,hp,hpar⟩ := hd
        exact .tail (ih p (by omega) hp) (mem_childrenOf.mpr ⟨hx,hpar⟩)

/-- The source itself, or a node at any depth below it. -/
def Under (tree : Tree) (source : String) (n : WorkflowyNode) : Prop :=
  ∃ d, tree.InSubtree (some source) d n

/-- No node of the subtree lies more than `depth` levels below the children of the source. -/
def Shallow (tree : Tree) (source : String) (depth : Nat) : Prop :=
  ∀ k n, tree.AtDepth (some source) k n → k ≤ depth

/- The nodes in `made` are the copies of all nodes of the subtree, the source under the target
   and every other node under the copy of its parent. -/
structure IsCopy (tree : Tree) (source target : String)
    (transform : WorkflowyNode → String × Option String) (newRootId : String)
    (made : List WorkflowyNode) (copyOf : WorkflowyNode → WorkflowyNode) : Prop where
  distinct : (made.map WorkflowyNode.id).Nodup
  bijection : Set.BijOn copyOf {n | Under tree source n} {m | m∈made}
  root : ∀ n, Under tree source n → n.id = source →
    (copyOf n).id = newRootId ∧ (copyOf n).parentId = some target
  parent : ∀ n p, Under tree source n → Under tree source p →
    ((copyOf n).parentId = some (copyOf p).id ↔ n.parentId = some p.id)
  content : ∀ n, Under tree source n → ((copyOf n).name,(copyOf n).description) = transform n

/-- What the store gained from `before` to `after` is a copy of the whole subtree. -/
def CompleteCopy (tree : Tree) (source target : String)
    (transform : WorkflowyNode → String × Option String) (before after : List WorkflowyNode)
    (newRootId : String) (nodesCreated : Nat) : Prop :=
  nodesCreated = {n | Under tree source n}.ncard ∧
    ∃ made copyOf, after = before++made ∧ IsCopy tree source target transform newRootId made copyOf

theorem under_mem {n : WorkflowyNode} (h : Under tree source n) : n∈tree.nodes := by
  obtain ⟨d,h⟩ := h
  exact Tree.docOrder_subset (Tree.mem_docOrder.mpr h)

theorem under_finite (tree : Tree) (source : String) : {n | Under tree source n}.Finite :=
  (List.finite_toSet tree.nodes).subset fun _ h => under_mem h

theorem ncard_of_nodup {l : List WorkflowyNode} (h : l.Nodup) : {n | n∈l}.ncard = l.length := by
  rw [← List.toFinset_card_of_nodup h,← Set.ncard_coe_finset]
  congr 1
  ext n
  simp

variable {transform : WorkflowyNode → String × Option String} {newRootId : String}
  {before done nodes : List WorkflowyNode} {st : CopyState}

theorem Booked.isCopy (h : Booked transform source target newRootId before done st nodes)
    (hdone : ∀ n, n∈done ↔ Under tree source n) :
    IsCopy tree source target transform newRootId
      (done.map (image transform source target newRootId st))
      (image transform source target newRootId st) where
  distinct := by
    rw [List.map_map]
    exact h.distinct
  bijection := by
    refine ⟨fun n hn => List.mem_map_of_mem ((hdone n).mpr hn),fun n hn m hm he => ?_,fun m hm => ?_⟩
    · have hid : st.newId n.id = st.newId m.id := congrArg WorkflowyNode.id he
      exact List.inj_on_of_nodup_map h.distinct ((hdone n).mpr hn) ((hdone m).mpr hm) hid
    · obtain ⟨n,hn,rfl⟩ := List.mem_map.mp hm
      exact ⟨n,(hdone n).mp hn,rfl⟩
  root n hn hid := by
    obtain ⟨r,-,-,hroot⟩ := h.root
    exact ⟨by simpa [image,hid] using hroot,by simp [image,hid]⟩
  parent n p hn hp := by
    have hpd := (hdone p).mpr hp
    by_cases hid : n.id = source
    · have hne : n.parentId≠some p.id := by
        obtain ⟨d,hp⟩ := hp
        exact root_orphan (under_mem hn) (hid ▸ hp)
      have htarget := (h.fresh p hpd).2
      simpa [image,hid,htarget] using hne
    · obtain ⟨q,hq,hpar⟩ := h.born n ((hdone n).mpr hn) hid
      rw [image,if_neg hid,h.newParent hq hpar,hpar]
      constructor
      · intro he
        have hsame := List.inj_on_of_nodup_map h.distinct hq hpd (Option.some.inj he)
        rw [hsame]
      · intro he
        have hqp : q.id = p.id := Option.some.inj he
        rw [hqp]
        rfl
  content n _ := rfl

/-- A copy of the subtree down to some depth is complete if there is nothing deeper. -/
theorem Booked.complete_iff (h : Booked transform source target newRootId before done st nodes)
    (hdone : ∀ n, n∈done ↔ tree.InSubtree (some source) depth n) :
    CompleteCopy tree source target transform before nodes newRootId st.createdCount ↔
      Shallow tree source depth := by
  have hcount : {n | n∈done}.ncard = st.createdCount := by
    rw [ncard_of_nodup (h.sources.of_map _),h.count]
  constructor
  · rintro ⟨hsize,-⟩ k n hk
    by_contra hdeep
    have hout : n∉done := fun hn => by
      rcases (hdone n).mp hn with ⟨-,hid⟩ | ⟨j,hj,hd⟩
      · rw [← hid] at hk
        exact lt_irrefl _ hk.rank_lt
      · rw [hd.unique hk] at hj
        exact hdeep hj
    have hsub : {n | n∈done} ⊂ {n | Under tree source n} := by
      refine ⟨fun m hm => ⟨depth,(hdone m).mp hm⟩,fun hall => hout (hall ?_)⟩
      exact ⟨k,.inr ⟨k,le_refl k,hk⟩⟩
    have hlt := Set.ncard_lt_ncard hsub (under_finite tree source)
    rw [hcount,hsize] at hlt
    exact lt_irrefl _ hlt
  · intro hshallow
    have hall : ∀ n, n∈done ↔ Under tree source n := fun n => by
      rw [hdone n]
      constructor
      · exact fun hn => ⟨depth,hn⟩
      · rintro ⟨d,hn | ⟨k,-,hk⟩⟩
        · exact .inl hn
        · exact .inr ⟨k,hshallow k n hk,hk⟩
    refine ⟨?_,_,_,h.nodes,h.isCopy hall⟩
    rw [← hcount]
    congr 1
    ext n
    exact hall n

/-- The children of each node leave the queue in the order they were fetched in. -/
theorem childrenOf_breadth {all l : List WorkflowyNode} {r : WorkflowyNode} {fuel : Nat}
    (h : Forest.breadth (fun p => childrenOf all p.id) fuel (childrenOf all r.id) = some l)
    (hperm : (r::l).Perm all) {p : WorkflowyNode} (hp : p∈r::l) :
    childrenOf (r::l) p.id = childrenOf all p.id := by
  obtain ⟨hfirst,hrest⟩ := Forest.breadth_siblings h
  have hsub : (childrenOf all p.id).Sublist (r::l) := by
    rcases List.mem_cons.mp hp with rfl | hp
    · exact hfirst.sublist.cons p
    · exact (hrest p hp).cons r
  have hkept : (childrenOf all p.id).Sublist (childrenOf (r::l) p.id) := by
    have hall : childrenOf (childrenOf all p.id) p.id = childrenOf all p.id :=
      List.filter_eq_self.mpr fun n hn => (List.mem_filter.mp hn).2
    rw [← hall]
    exact hsub.filter _
  exact (hkept.eq_of_length (hperm.filter _).length_eq.symm).symm

/-- What comes of one copy: it fails, and then leaves nothing behind unless the upstream or the
caller stopped it, or it returns with every node down to `depth` copied, siblings in order. -/
theorem run_deepCopySubtree_booked {w : WalkEnv} (hw : w.Serves tree) (svc : Service) (u : Upstream)
    (ctx : WorkflowContext) {fuel : Nat} (hfuel : tree.nodes.length ≤ fuel)
    (transform : WorkflowyNode → String × Option String) (source target : String) (depth : Nat)
    (truncationRefusalLabel notFoundLabel : String) :
    let r := (deepCopySubtree transform w fuel source target depth truncationRefusalLabel
      notFoundLabel ctx).run svc.serve u
    (∃ e, r.1 = some (.error e) ∧ (Unhindered svc ctx → (findNode u.nodes target).isSome →
      r.2.nodes = u.nodes ∧
        ∀ f, getSubtreeWithControls w (some source) depth MAX_SUBTREE_NODES = .ok f →
          f.truncated = true ∨ ∀ n∈f.nodes, n.id≠source)) ∨
    ∃ newRootId done st, r.1 = some (.ok (newRootId,st.createdCount,st.footprint)) ∧
      done.Perm (tree.docOrder (some source) depth) ∧
      (∀ p∈done, childrenOf done p.id = childrenOf (tree.docOrder (some source) depth) p.id) ∧
      Booked transform source target newRootId u.nodes done st r.2.nodes := by
  unfold deepCopySubtree
  cases hfetch : getSubtreeWithControls w (some source) depth MAX_SUBTREE_NODES with
  | error e => exact .inl ⟨e,rfl,fun _ _ => ⟨rfl,fun f hf => by cases hf⟩⟩
  | ok fetch =>
    by_cases htrunc : fetch.truncated = true
    · simp only [htrunc,if_true]
      refine .inl ⟨_,rfl,fun _ _ => ⟨rfl,fun f hf => ?_⟩⟩
      cases hf
      exact .inl htrunc
    simp only [htrunc,Bool.false_eq_true,if_false]
    have hnodes := fetch_docOrder hw hfetch (by simpa using htrunc)
    cases hroot : fetch.nodes.find? fun n => n.id = source with
    | none =>
      refine .inl ⟨_,rfl,fun _ _ => ⟨rfl,fun f hf => ?_⟩⟩
      cases hf
      exact .inr (by simpa using List.find?_eq_none.mp hroot)
    | some r =>
      obtain rfl : r.id = source := by simpa using List.find?_some hroot
      have hr : r∈tree.nodes :=
        Tree.docOrder_subset (hnodes ▸ List.mem_of_find?_eq_some hroot)
      have hlen : (tree.docOrder (some r.id) depth).length ≤ tree.nodes.length :=
        (((Tree.docOrder_nodup _ _).of_map _).subperm fun n hn => Tree.docOrder_subset hn).length_le
      obtain ⟨l,hl,hperm,hgrown⟩ := Forest.breadth_tree (docOrder_isTree hr depth)
        (hlen.trans hfuel)
      simp only [Proc.bind_eq,Proc.run_bind]
      rcases run_copyNode svc ctx target r
          { footprint := MutationFootprint.invalidateCacheOnly {} target } u with
        ⟨⟨e,he⟩,-,hmissing⟩ | ⟨id,hfresh,htarget,hreply,hstored⟩
      · rw [he]
        refine .inl ⟨e,rfl,fun hun htarget => ?_⟩
        rw [hmissing hun] at htarget
        cases htarget
      · rw [hreply]
        have hstart : Booked transform r.id target id u.nodes [r] _ _ :=
          Booked.start rfl hfresh htarget
        rw [← hstored] at hstart
        have hnodup : (([r]++l).map WorkflowyNode.id).Nodup :=
          (hperm.map WorkflowyNode.id).nodup_iff.mpr (Tree.docOrder_nodup _ _)
        simp only [hnodes,copyQueue_eq hl,Proc.run_bind]
        rcases run_copyEach svc ctx (tree.docOrder (some r.id) depth).length hstart hgrown hnodup with
          ⟨⟨e,he⟩,hun⟩ | ⟨st,hst,hb⟩
        · rw [he]
          exact .inl ⟨e,rfl,fun h => absurd h hun⟩
        · rw [hst]
          refine .inr ⟨id,r::l,st,rfl,hperm,fun p hp => ?_,hb⟩
          exact childrenOf_breadth hl hperm hp

theorem run_deepCopySubtree {w : WalkEnv} (hw : w.Serves tree) (svc : Service) (u : Upstream)
    (ctx : WorkflowContext) {fuel : Nat} (hfuel : tree.nodes.length ≤ fuel)
    (transform : WorkflowyNode → String × Option String) (source target : String) (depth : Nat)
    (truncationRefusalLabel notFoundLabel : String) :
    let r := (deepCopySubtree transform w fuel source target depth truncationRefusalLabel
      notFoundLabel ctx).run svc.serve u
    (∃ e, r.1 = some (.error e) ∧ (Unhindered svc ctx → (findNode u.nodes target).isSome →
      r.2.nodes = u.nodes)) ∨
    ∃ newRootId nodesCreated made, r.1 = some (.ok (newRootId,nodesCreated,⟨[target],[],made⟩)) ∧
      r.2.nodes = u.nodes++made ∧
      (CompleteCopy tree source target transform u.nodes r.2.nodes newRootId nodesCreated ↔
        Shallow tree source depth) := by
  rcases run_deepCopySubtree_booked hw svc u ctx hfuel transform source target depth
      truncationRefusalLabel notFoundLabel with
    ⟨e,he,hsame⟩ | ⟨newRootId,done,st,hok,hperm,-,hb⟩
  · exact .inl ⟨e,he,fun hun htarget => (hsame hun htarget).1⟩
  · refine .inr ⟨newRootId,st.createdCount,_,?_,hb.nodes,hb.complete_iff fun n => ?_⟩
    · rw [hok,hb.footprint]
    · exact hperm.mem_iff.trans Tree.mem_docOrder

theorem run_duplicateSubtree {w : WalkEnv} (hw : w.Serves tree) (svc : Service) (u : Upstream)
    (ctx : WorkflowContext) {fuel : Nat} (hfuel : tree.nodes.length ≤ fuel)
    (source target : String) (namePrefix : Option String) :
    let r := (duplicateSubtree w fuel source target true namePrefix ctx).run svc.serve u
    (∃ e, r.1 = some (.error e) ∧ (Unhindered svc ctx → (findNode u.nodes target).isSome →
      r.2.nodes = u.nodes)) ∨
    ∃ out fp, r.1 = some (.ok (out,fp)) ∧
      (CompleteCopy tree source target (prefixed source namePrefix) u.nodes r.2.nodes
        out.newRootId out.nodesCreated ↔ Shallow tree source MAX_TREE_DEPTH) := by
  simp only [duplicateSubtree,Proc.bind_eq,Proc.run_bind,if_true]
  rcases run_deepCopySubtree hw svc u ctx hfuel (prefixed source namePrefix) source target
      MAX_TREE_DEPTH "duplicate" "Node" with
    ⟨e,he,hsame⟩ | ⟨newRootId,nodesCreated,made,hok,-,hiff⟩
  · exact .inl ⟨e,by rw [he]; rfl,hsame⟩
  · exact .inr ⟨⟨source,newRootId,nodesCreated⟩,_,by rw [hok]; rfl,hiff⟩

theorem run_instantiateTemplate {w : WalkEnv} (hw : w.Serves tree) (svc : Service) (u : Upstream)
    (ctx : WorkflowContext) {fuel : Nat} (hfuel : tree.nodes.length ≤ fuel)
    (template target : String) (isWord : Char → Bool) (vars : KeyMap String String) :
    let r := (instantiateTemplate isWord vars w fuel template target ctx).run svc.serve u
    (∃ e, r.1 = some (.error e) ∧ (Unhindered svc ctx → (findNode u.nodes target).isSome →
      r.2.nodes = u.nodes)) ∨
    ∃ out fp, r.1 = some (.ok (out,fp)) ∧
      (CompleteCopy tree template target (substituted isWord vars) u.nodes r.2.nodes
        out.newRootId out.nodesCreated ↔ Shallow tree template MAX_TREE_DEPTH) := by
  simp only [instantiateTemplate,Proc.bind_eq,Proc.run_bind]
  rcases run_deepCopySubtree hw svc u ctx hfuel (substituted isWord vars) template target
      MAX_TREE_DEPTH "instantiate template" "Template" with
    ⟨e,he,hsame⟩ | ⟨newRootId,nodesCreated,made,hok,-,hiff⟩
  · exact .inl ⟨e,by rw [he]; rfl,hsame⟩
  · exact .inr ⟨⟨template,newRootId,nodesCreated,_⟩,_,by rw [hok]; rfl,hiff⟩

end whole

/-- Both workflows fail and leave nothing behind, or return; what they return is a complete copy
exactly when no node of the source lies deeper than the walk goes. -/
theorem copy_complete_iff {w : WalkEnv} {tree : Tree} (hw : w.Serves tree) (svc : Service)
    (u : Upstream) (ctx : WorkflowContext) {fuel : Nat} (hfuel : tree.nodes.length ≤ fuel)
    (source target : String) :
    (∀ namePrefix,
      let r := (duplicateSubtree w fuel source target true namePrefix ctx).run svc.serve u
      (∃ e, r.1 = some (.error e) ∧ (Unhindered svc ctx → (findNode u.nodes target).isSome →
        r.2.nodes = u.nodes)) ∨
      ∃ out fp, r.1 = some (.ok (out,fp)) ∧
        (CompleteCopy tree source target (prefixed source namePrefix) u.nodes r.2.nodes
          out.newRootId out.nodesCreated ↔ Shallow tree source MAX_TREE_DEPTH)) ∧
    ∀ isWord vars,
      let r := (instantiateTemplate isWord vars w fuel source target ctx).run svc.serve u
      (∃ e, r.1 = some (.error e) ∧ (Unhindered svc ctx → (findNode u.nodes target).isSome →
        r.2.nodes = u.nodes)) ∨
      ∃ out fp, r.1 = some (.ok (out,fp)) ∧
        (CompleteCopy tree source target (substituted isWord vars) u.nodes r.2.nodes
          out.newRootId out.nodesCreated ↔ Shallow tree source MAX_TREE_DEPTH) :=
  ⟨run_duplicateSubtree hw svc u ctx hfuel source target,
    run_instantiateTemplate hw svc u ctx hfuel source target⟩

/- A walk that meets no trouble. -/
def smoothWalk (tree : Tree) : WalkEnv where
  node _ id := match tree.nodes.find? fun n => n.id = id with
    | some n => .ok n
    | none => .error (.ApiError 404 "not found")
  topLevel _ := .ok (tree.nodes.filter fun n => n.parentId = none)
  listing _ id := .ok (tree.nodes.filter fun n => n.parentId = some id)
  arrive _ ids := ids
  arrive_perm _ ids := .refl ids
  status _ := none
  retryAfterRemainingMs _ := none
  fitsBudget _ _ := true
  anyOf _ ids := ids.head?
  patient := false

theorem smoothWalk_serves (tree : Tree) : (smoothWalk tree).Serves tree where
  node t id n h := node_of_lookup h
  topLevel t ns h := by
    cases h
    rfl
  listing t id ns h := by
    cases h
    rfl

/- Beside the target `home`, a chain of `n+1` nodes below the source `c`. -/
def chain (n : Nat) : List WorkflowyNode :=
  ({ id := "home" } : WorkflowyNode)::(List.range (n+1)).map fun k =>
    { id := String.ofList (List.replicate (k+1) 'c')
      name := "step"
      parentId := if k = 0 then none else some (String.ofList (List.replicate k 'c')) }

def chainTree (n : Nat) : Tree where
  nodes := chain n
  nodup := by
    have hinj : Function.Injective fun k => String.ofList (List.replicate (k+1) 'c') := by
      intro j k h
      simpa using congrArg String.length h
    have hhome : ∀ k, String.ofList (List.replicate (k+1) 'c') ≠ "home" := by
      intro k h
      have hmem : 'h'∈(String.ofList (List.replicate (k+1) 'c')).toList := by
        rw [h]
        decide
      simp at hmem
    simp only [chain,List.map_cons,List.map_map,List.nodup_cons]
    exact ⟨by simpa using fun k _ => hhome k,List.nodup_range.map hinj⟩
  rank := String.length
  acyclic := by
    intro m hm p hp
    rcases List.mem_cons.mp hm with rfl | hm
    · cases hp
    · obtain ⟨k,-,rfl⟩ := List.mem_map.mp hm
      by_cases hk : k = 0
      · simp [hk] at hp
      · simp only [hk,if_false,Option.some.injEq] at hp
        subst hp
        simp

/- A service that refuses nothing and makes ids one character longer than any in use. -/
def lengthening : Service where
  refuses _ _ := none
  now t := t
  freshId _ nodes := String.ofList (List.replicate
    ((nodes.map fun n => max n.id.length (n.parentId.getD "").length).foldr max 0+1) 'n')
  fresh := by
    intro t nodes n hn
    have hle : max n.id.length (n.parentId.getD "").length ≤
        (nodes.map fun n => max n.id.length (n.parentId.getD "").length).foldr max 0 := by
      induction nodes with
      | nil => cases hn
      | cons m nodes ih =>
        rcases List.mem_cons.mp hn with rfl | hn
        · exact le_max_left _ _
        · exact (ih hn).trans (le_max_right _ _)
    generalize (nodes.map fun n => max n.id.length (n.parentId.getD "").length).foldr max 0 = k
      at hle ⊢
    refine ⟨fun h => ?_,fun h => ?_⟩
    · have hid := (le_max_left _ _).trans hle
      simp [h] at hid
    · have hpar := (le_max_right _ _).trans hle
      simp [h] at hpar

/-- A chain of three nodes is copied whole. -/
theorem short_chain_copied :
    let r := (duplicateSubtree (smoothWalk (chainTree 2)) 4 "c" "home" true (some "Copy of ") {}).run
      lengthening.serve { nodes := chain 2 }
    ∃ out fp, r.1 = some (.ok (out,fp)) ∧
      CompleteCopy (chainTree 2) "c" "home" (prefixed "c" (some "Copy of ")) (chain 2) r.2.nodes
        out.newRootId out.nodesCreated := by
  intro r
  have hok : (r.1.bind Except.toOption).isSome := by decide +kernel
  have hshallow : Shallow (chainTree 2) "c" MAX_TREE_DEPTH := fun k n hn => by
    by_contra hk
    have hnil : (chainTree 2).level (some "c") 2 = [] := by decide +kernel
    have hlevel := Tree.level_of_nil hnil (k-2)
    have hk2 : 2+(k-2) = k := by
      simp only [MAX_TREE_DEPTH] at hk
      omega
    rw [hk2] at hlevel
    have hmem := Tree.mem_level.mpr hn
    simp [hlevel] at hmem
  rcases (copy_complete_iff (smoothWalk_serves (chainTree 2)) lengthening { nodes := chain 2 } {}
      (show (chainTree 2).nodes.length ≤ 4 by decide) "c" "home").1 (some "Copy of ") with
    ⟨e,he,-⟩ | ⟨out,fp,hrun,hiff⟩
  · simp [r,he,Except.toOption] at hok
  · exact ⟨out,fp,hrun,hiff.mpr hshallow⟩

/-- Of a chain of thirteen nodes twelve are copied, and no error is reported. -/
theorem deep_source_cut :
    let r := (duplicateSubtree (smoothWalk (chainTree 12)) 14 "c" "home" true none {}).run
      lengthening.serve { nodes := chain 12 }
    ∃ out fp, r.1 = some (.ok (out,fp)) ∧ out.nodesCreated = 12 ∧
      ¬CompleteCopy (chainTree 12) "c" "home" (prefixed "c" none) (chain 12) r.2.nodes
        out.newRootId out.nodesCreated := by
  intro r
  have hcreated : ((r.1.bind Except.toOption).map fun out => out.1.nodesCreated) = some 12 := by
    decide +kernel
  have hdeep : ¬Shallow (chainTree 12) "c" MAX_TREE_DEPTH := fun h => by
    have hlevel : (chainTree 12).level (some "c") 11≠[] := by decide +kernel
    obtain ⟨n,hn⟩ := List.exists_mem_of_ne_nil _ hlevel
    exact absurd (h 11 n (Tree.mem_level.mp hn)) (by decide)
  rcases run_duplicateSubtree (smoothWalk_serves (chainTree 12)) lengthening { nodes := chain 12 }
      {} (show (chainTree 12).nodes.length ≤ 14 by decide) "c" "home" none with
    ⟨e,he,-⟩ | ⟨out,fp,hrun,hiff⟩
  · simp [r,he,Except.toOption] at hcreated
  · refine ⟨out,fp,hrun,?_,fun hcopy => hdeep (hiff.mp hcopy)⟩
    have hr : r.1 = some (.ok (out,fp)) := hrun
    simpa [hr,Except.toOption] using hcreated

end WorkflowyMcp.DeepCopy
