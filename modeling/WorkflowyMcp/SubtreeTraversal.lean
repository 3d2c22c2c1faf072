import WorkflowyMcp.ListingCache
import WorkflowyMcp.Opml

/-! The traversals of a slice of nodes along its parent links that keep no set of the ids they
visited, and the slices on which they end and visit no id twice. -/
namespace WorkflowyMcp.SubtreeTraversal
open DeepCopy Unfolding Worklist

/-- An entry of `node_by_id`: a later node of an id takes the place of an earlier one. -/
def nodeById (nodes : List WorkflowyNode) (id : String) : Option WorkflowyNode :=
  nodes.reverse.find? fun n => n.id = id

def childIds (nodes : List WorkflowyNode) (id : String) : List String :=
  (childrenOf nodes id).map WorkflowyNode.id

/-- The stack of `get_subtree_nodes`; none where it is not empty after `fuel` pops. -/
def subtreeLoop (nodes : List WorkflowyNode) :
    Nat → List String → List WorkflowyNode → Option (List WorkflowyNode)
  | _,[],result => some result
  | 0,_::_,_ => none
  | fuel+1,id::stack,result =>
    subtreeLoop nodes fuel ((childIds nodes id).reverse++stack) (result++(nodeById nodes id).toList)

def getSubtreeNodes (rootId : String) (nodes : List WorkflowyNode) (fuel : Nat) :
    Option (List WorkflowyNode) :=
  subtreeLoop nodes fuel [rootId] []

/-- The bullet of a node with the lines of its description, before the bullets below it. -/
def bullet (depth : Nat) (node : WorkflowyNode) (descendants : List String) : String :=
  let indent := indentation depth
  indent++"- "++node.name++"\n"++
    String.join ((node.description.elim [] lines).map fun line => indent++"    "++line++"\n")++
    String.join descendants

def renderSubtreeMarkdown (nodes : List WorkflowyNode) (rootId : String) (fuel : Nat) :
    Option String :=
  match nodes.find? fun n => n.id = rootId with
  | some root => fold (fun node => childrenOf nodes node.id) bullet fuel 0 root
  | none => some ""

/-- The index of a listing of nodes: for each parent the ids of its children, in order. -/
def rebuildChildrenIndex (c : NodeCache) (nodes : List WorkflowyNode) : NodeCache :=
  { c with childrenIndex := nodes.foldl (fun index node =>
      match node.parentId with
      | some parentId => index.insert parentId ((index.lookup parentId).getD []++[node.id])
      | none => index) ∅ }

/-- The parent links of a slice, from parent to child. -/
def parentEdges (nodes : List WorkflowyNode) : List (String×String) :=
  nodes.filterMap fun n => n.parentId.map fun p => (p,n.id)

/-- Every id at most once among the calls of a rendering that ends. -/
def RenderedOnce (render : Nat → Option String) (nodes : List WorkflowyNode) (rootId : String) :
    Prop :=
  ∃ fuel, (render fuel).isSome ∧ ∀ root, nodes.find? (fun n => n.id = rootId) = some root →
    ∃ called, calls (fun node => childrenOf nodes node.id) fuel root = some called ∧
      (called.map WorkflowyNode.id).Nodup

/-- A copy loop that ends, whatever the service answers and the context says, and whose queue brings
out every id at most once below the root. -/
def CopiedOnce {σ : Type} (srv : Proc.Server ApiCall ApiReply σ) (nodes : List WorkflowyNode)
    (root : WorkflowyNode) : Prop :=
  ∃ fuel popped, Forest.breadth (fun node => childrenOf nodes node.id) fuel
      (childrenOf nodes root.id) = some popped ∧ ((root::popped).map WorkflowyNode.id).Nodup ∧
    ∀ ctx transform newRootId st u, ((copyQueue transform ctx nodes newRootId fuel
      (childrenOf nodes root.id) st).run srv u).1.isSome

/-- The stack of `invalidate_subtree` runs empty and holds every id at most once, when the index
of the cache is that of the slice. Nothing is visited during a batch. -/
def InvalidatedOnce (c : NodeCache) (nodes : List WorkflowyNode) (rootId : String) : Prop :=
  ∃ fuel, ((rebuildChildrenIndex c nodes).invalidateSubtree fuel rootId).isSome ∧
    (c.batchDepth = 0 → ∃ popped, visits lastOnTop (fun id =>
      ((rebuildChildrenIndex c nodes).childrenIndex.lookup id).getD []) fuel [rootId] =
        some popped ∧ popped.Nodup)

/-- A service that lets every create succeed. -/
def Creates {σ : Type} (srv : Proc.Server ApiCall ApiReply σ) : Prop :=
  ∀ name description parentId priority layout u, ∃ id,
    (srv (.createNode name description parentId priority layout) u).1 = .ok (some id)

variable {nodes : List WorkflowyNode}

theorem succs_parentEdges (id : String) : succs (parentEdges nodes) id = childIds nodes id := by
  induction nodes with
  | nil => rfl
  | cons n nodes ih =>
    rw [succs,childIds,childrenOf] at ih ⊢
    cases hn : n.parentId with
    | none => simpa [parentEdges,hn] using ih
    | some p =>
      by_cases hp : p = id
      · simpa [parentEdges,hn,hp] using ih
      · simpa [parentEdges,hn,hp] using ih

theorem childIds_eq : childIds nodes = succs (parentEdges nodes) :=
  funext fun id => (succs_parentEdges id).symm

theorem exists_node {id x : String} (h : x∈childIds nodes id) : (nodeById nodes x).isSome := by
  obtain ⟨n,hn,rfl⟩ := List.mem_map.mp h
  have hmem : n∈nodes := (List.mem_filter.mp hn).1
  rw [nodeById,List.find?_isSome]
  exact ⟨n,List.mem_reverse.mpr hmem,by simp⟩

theorem nodeById_id {id : String} {n : WorkflowyNode} (h : nodeById nodes id = some n) :
    n.id = id := by
  simpa using List.find?_some h

/-- The result of `get_subtree_nodes` is the nodes of the ids that leave its stack. -/
theorem subtreeLoop_eq (fuel : Nat) (stack : List String) (result : List WorkflowyNode) :
    subtreeLoop nodes fuel stack result =
      (visits lastOnTop (childIds nodes) fuel stack).map
        fun popped => result++popped.filterMap (nodeById nodes) := by
  induction fuel generalizing stack result with
  | zero => cases stack <;> simp [subtreeLoop,visits]
  | succ fuel ih =>
    cases stack with
    | nil => simp [subtreeLoop,visits]
    | cons id stack =>
      rw [subtreeLoop,visits,ih,lastOnTop,Option.map_map]
      refine congrArg (Option.map · _) (funext fun popped => ?_)
      cases hn : nodeById nodes id <;> simp [hn]

/-- Only the root may have no node, and it is popped without one once. -/
theorem nodup_nodes_iff {fuel : Nat} {rootId : String} {popped : List String}
    (h : visits lastOnTop (childIds nodes) fuel [rootId] = some popped) :
    ((popped.filterMap (nodeById nodes)).map WorkflowyNode.id).Nodup ↔ popped.Nodup := by
  have hids : ∀ ids : List String, (ids.filterMap (nodeById nodes)).map WorkflowyNode.id =
      ids.filter fun id => (nodeById nodes id).isSome := by
    intro ids
    induction ids with
    | nil => rfl
    | cons id ids ih =>
      cases hn : nodeById nodes id with
      | none => simpa [hn] using ih
      | some n => simpa [hn,nodeById_id hn] using ih
  rw [hids]
  refine ⟨fun hnodup => List.nodup_iff_count_le_one.mpr fun id => ?_,fun hnodup => hnodup.filter _⟩
  by_cases hid : (nodeById nodes id).isSome
  · have hcount := List.nodup_iff_count_le_one.mp hnodup id
    rwa [List.count_filter (p := fun id => (nodeById nodes id).isSome) hid] at hcount
  · rw [(visits_perm pushes_lastOnTop h).count_eq,List.count_append]
    have hnone : id∉popped.flatMap (childIds nodes) := fun hmem => by
      obtain ⟨p,-,hp⟩ := List.mem_flatMap.mp hmem
      exact hid (exists_node hp)
    rw [List.count_eq_zero.mpr hnone]
    exact List.count_le_length

theorem getSubtreeNodes_once_iff (rootId : String) :
    (∃ fuel result, getSubtreeNodes rootId nodes fuel = some result ∧
      (result.map WorkflowyNode.id).Nodup) ↔ Untangled (parentEdges nodes) rootId := by
  rw [← visits_once_iff pushes_lastOnTop,← childIds_eq]
  refine exists_congr fun fuel => ?_
  simp only [getSubtreeNodes,subtreeLoop_eq,Option.map_eq_some_iff,List.nil_append]
  constructor
  · rintro ⟨-,⟨popped,hp,rfl⟩,hnodup⟩
    exact ⟨popped,hp,(nodup_nodes_iff hp).mp hnodup⟩
  · rintro ⟨popped,hp,hnodup⟩
    exact ⟨_,⟨popped,hp,rfl⟩,(nodup_nodes_iff hp).mpr hnodup⟩

/-- A walk over nodes visits their ids as a walk over ids does. -/
theorem visits_nodes (push : {α : Type} → List α → List α → List α)
    (hpush : ∀ cs pending : List WorkflowyNode, push (cs.map WorkflowyNode.id)
      (pending.map WorkflowyNode.id) = (push cs pending).map WorkflowyNode.id)
    (fuel : Nat) (pending : List WorkflowyNode) :
    visits push (succs (parentEdges nodes)) fuel (pending.map WorkflowyNode.id) =
      (visits push (fun node => childrenOf nodes node.id) fuel pending).map
        (List.map WorkflowyNode.id) := by
  refine visits_map WorkflowyNode.id hpush (fun n => ?_) fuel pending
  rw [succs_parentEdges,childIds]

theorem calls_once_iff (root : WorkflowyNode) :
    (∃ fuel called, calls (fun node => childrenOf nodes node.id) fuel root = some called ∧
      (called.map WorkflowyNode.id).Nodup) ↔ Untangled (parentEdges nodes) root.id := by
  rw [← visits_once_iff pushes_onTop]
  have hids (fuel : Nat) : visits onTop (succs (parentEdges nodes)) fuel
      ([root].map WorkflowyNode.id) =
      (visits onTop (fun node => childrenOf nodes node.id) fuel [root]).map
        (List.map WorkflowyNode.id) :=
    visits_nodes onTop (fun cs pending => (List.map_append).symm) fuel [root]
  constructor
  · rintro ⟨fuel,called,hcalled,hnodup⟩
    obtain ⟨n,hn⟩ := exists_calls_iff.mp ⟨fuel,hcalled⟩
    exact ⟨n,_,by rw [← List.map_singleton,hids,hn]; rfl,hnodup⟩
  · rintro ⟨n,ids,hn,hnodup⟩
    rw [← List.map_singleton (f := WorkflowyNode.id),hids,Option.map_eq_some_iff] at hn
    obtain ⟨called,hn,rfl⟩ := hn
    obtain ⟨fuel,hcalled⟩ := exists_calls_iff.mpr ⟨n,hn⟩
    exact ⟨fuel,called,hcalled,hnodup⟩

/-- A rendering that is a recursion from the first node of the root's id. -/
theorem renderedOnce_iff {render : Nat → Option String} {rootId : String}
    (f : Nat → WorkflowyNode → List String → String)
    (hnone : nodes.find? (fun n => n.id = rootId) = none → ∀ fuel, (render fuel).isSome)
    (hsome : ∀ root, nodes.find? (fun n => n.id = rootId) = some root → ∀ fuel,
      (render fuel).isSome = (fold (fun node => childrenOf nodes node.id) f fuel 0 root).isSome) :
    RenderedOnce render nodes rootId ↔
      ((nodes.find? fun n => n.id = rootId).isSome → Untangled (parentEdges nodes) rootId) := by
  cases hroot : nodes.find? (fun n => n.id = rootId) with
  | none => simpa [RenderedOnce,hroot] using ⟨0,hnone hroot 0⟩
  | some root =>
    have hid : root.id = rootId := by simpa using List.find?_some hroot
    have honce : _ ↔ Untangled (parentEdges nodes) root.id := calls_once_iff root
    rw [hid] at honce
    rw [← honce]
    constructor
    · rintro ⟨fuel,-,hcalled⟩ -
      exact ⟨fuel,hcalled root hroot⟩
    · intro h
      obtain ⟨fuel,called,hcalled,hnodup⟩ := h rfl
      refine ⟨fuel,?_,fun root' hroot' => ?_⟩
      · rw [hsome root hroot fuel,isSome_fold,hcalled]
        rfl
      · obtain rfl : root = root' := Option.some.inj (hroot.symm.trans hroot')
        exact ⟨called,hcalled,hnodup⟩

theorem renderMarkdown_once_iff (rootId : String) :
    RenderedOnce (renderSubtreeMarkdown nodes rootId) nodes rootId ↔
      ((nodes.find? fun n => n.id = rootId).isSome → Untangled (parentEdges nodes) rootId) := by
  refine renderedOnce_iff bullet (fun hnone fuel => ?_) fun root hroot fuel => ?_
  · simp [renderSubtreeMarkdown,hnone]
  · simp [renderSubtreeMarkdown,hroot]

theorem renderOpml_once_iff (rootId : String) :
    RenderedOnce (Opml.renderSubtreeOpml nodes rootId) nodes rootId ↔
      ((nodes.find? fun n => n.id = rootId).isSome → Untangled (parentEdges nodes) rootId) := by
  refine renderedOnce_iff Opml.outlineElement (fun hnone fuel => ?_) fun root hroot fuel => ?_
  · simp [Opml.renderSubtreeOpml,hnone]
  · simp [Opml.renderSubtreeOpml,Opml.walkOpml,hroot]

section copy
variable {σ : Type} {srv : Proc.Server ApiCall ApiReply σ}
  {transform : WorkflowyNode → String×Option String} {newRootId : String}

theorem breadth_eq_visits {α : Type} (children : α → List α) (fuel : Nat) (queue : List α) :
    Forest.breadth children fuel queue = visits behind children fuel queue := by
  induction fuel generalizing queue with
  | zero => cases queue <;> rfl
  | succ fuel ih =>
    cases queue with
    | nil => rfl
    | cons x queue => rw [Forest.breadth,visits,ih,behind]

/-- While every create succeeds the copy loop ends when its queue runs empty, and not before. -/
theorem isSome_copyQueue (hsrv : Creates srv) (fuel : Nat) (queue : List WorkflowyNode)
    (st : CopyState) (u : σ) :
    ((copyQueue transform {} nodes newRootId fuel queue st).run srv u).1.isSome ↔
      (Forest.breadth (fun node => childrenOf nodes node.id) fuel queue).isSome := by
  induction fuel generalizing queue st u with
  | zero => cases queue <;> simp [copyQueue,Forest.breadth]
  | succ fuel ih =>
    cases queue with
    | nil => simp [copyQueue,Forest.breadth]
    | cons node queue =>
      rw [Forest.breadth,Option.isSome_map]
      obtain ⟨id,hid⟩ := hsrv (transform node).1 (transform node).2
        (some (st.newParent newRootId node)) none none u
      simp only [copyQueue,copyNode,Client.createNode,Client.request,Proc.bind_eq,Proc.pure_eq,
        Proc.call_bind,Proc.ret_bind,Proc.run_call,hid,Client.createdNode,Bool.false_eq_true,
        if_false]
      exact ih _ _ _

theorem copiedOnce_iff (root : WorkflowyNode) :
    CopiedOnce srv nodes root ↔ Untangled (parentEdges nodes) root.id := by
  rw [← visits_once_iff pushes_behind]
  have hids (fuel : Nat) : visits behind (succs (parentEdges nodes)) fuel
      ([root].map WorkflowyNode.id) =
      (visits behind (fun node => childrenOf nodes node.id) fuel [root]).map
        (List.map WorkflowyNode.id) :=
    visits_nodes behind (fun cs pending => (List.map_append).symm) fuel [root]
  have hstep (fuel : Nat) : visits behind (fun node => childrenOf nodes node.id) (fuel+1) [root] =
      (Forest.breadth (fun node => childrenOf nodes node.id) fuel (childrenOf nodes root.id)).map
        (root::·) := by
    rw [breadth_eq_visits,visits,behind,List.nil_append]
  constructor
  · rintro ⟨fuel,popped,hpopped,hnodup,-⟩
    refine ⟨fuel+1,_,?_,hnodup⟩
    rw [← List.map_singleton,hids,hstep,hpopped]
    rfl
  · rintro ⟨n,ids,hn,hnodup⟩
    cases n with
    | zero => cases hn
    | succ fuel =>
      rw [← List.map_singleton (f := WorkflowyNode.id),hids,hstep,Option.map_map,
        Option.map_eq_some_iff] at hn
      obtain ⟨popped,hpopped,rfl⟩ := hn
      refine ⟨fuel,popped,hpopped,hnodup,fun ctx transform newRootId st u => ?_⟩
      rw [copyQueue_eq hpopped st,Proc.run_bind]
      rfl

end copy

section cache

theorem lookup_rebuild (c : NodeCache) (nodes : List WorkflowyNode) (id : String) :
    ((rebuildChildrenIndex c nodes).childrenIndex.lookup id).getD [] = childIds nodes id := by
  have hfold : ∀ (nodes : List WorkflowyNode) (index : KeyMap String (List String)),
      ((nodes.foldl (fun index node =>
        match node.parentId with
        | some parentId => index.insert parentId ((index.lookup parentId).getD []++[node.id])
        | none => index) index).lookup id).getD [] =
      (index.lookup id).getD []++childIds nodes id := by
    intro nodes
    induction nodes with
    | nil => simp [childIds,childrenOf]
    | cons n nodes ih =>
      intro index
      rw [List.foldl_cons,ih]
      cases hn : n.parentId with
      | none => simp [childIds,childrenOf,hn]
      | some p =>
        by_cases hp : p = id
        · subst hp
          simp [childIds,childrenOf,hn]
        · simp [childIds,childrenOf,hn,hp,Ne.symm hp]
  simpa [rebuildChildrenIndex] using hfold nodes ∅

theorem isSome_dropSubtree (c : NodeCache) (fuel : Nat) (stack : List String) :
    (c.dropSubtree fuel stack).isSome ↔
      (visits lastOnTop (fun id => (c.childrenIndex.lookup id).getD []) fuel stack).isSome := by
  induction fuel generalizing c stack with
  | zero => cases stack <;> simp [NodeCache.dropSubtree,visits]
  | succ fuel ih =>
    cases stack with
    | nil => simp [NodeCache.dropSubtree,visits]
    | cons id stack =>
      rw [NodeCache.dropSubtree,visits,Option.isSome_map,ih]
      rfl

theorem invalidatedOnce_iff (c : NodeCache) (rootId : String) :
    InvalidatedOnce c nodes rootId ↔
      (c.batchDepth = 0 → Untangled (parentEdges nodes) rootId) := by
  have hbatch : (rebuildChildrenIndex c nodes).batchDepth = c.batchDepth := rfl
  rw [InvalidatedOnce,funext (lookup_rebuild c nodes)]
  by_cases hdepth : c.batchDepth = 0
  · have hnot : ¬0 < (rebuildChildrenIndex c nodes).batchDepth := by omega
    simp only [hdepth,forall_const]
    rw [← visits_once_iff pushes_lastOnTop,← childIds_eq]
    refine exists_congr fun fuel => ?_
    rw [NodeCache.invalidateSubtree,if_neg hnot,Option.isSome_map,isSome_dropSubtree,
      funext (lookup_rebuild c nodes)]
    exact ⟨And.right,fun h => ⟨by obtain ⟨popped,hp,-⟩ := h; rw [hp]; rfl,h⟩⟩
  · have hpos : 0 < (rebuildChildrenIndex c nodes).batchDepth := by omega
    simp [hdepth,NodeCache.invalidateSubtree,hpos]

end cache

/-- Each of the traversals ends and visits no id twice if and only if, of the nodes whose parents
are reached from the root, no two have one id and none has that of the root. -/
theorem traversals_once_iff (nodes : List WorkflowyNode) (rootId : String) :
    ((∃ fuel result, getSubtreeNodes rootId nodes fuel = some result ∧
      (result.map WorkflowyNode.id).Nodup) ↔ Untangled (parentEdges nodes) rootId) ∧
    (RenderedOnce (renderSubtreeMarkdown nodes rootId) nodes rootId ↔
      ((nodes.find? fun n => n.id = rootId).isSome → Untangled (parentEdges nodes) rootId)) ∧
    (RenderedOnce (Opml.renderSubtreeOpml nodes rootId) nodes rootId ↔
      ((nodes.find? fun n => n.id = rootId).isSome → Untangled (parentEdges nodes) rootId)) ∧
    (∀ (σ : Type) (srv : Proc.Server ApiCall ApiReply σ), ∀ root∈nodes,
      CopiedOnce srv nodes root ↔ Untangled (parentEdges nodes) root.id) ∧
    ∀ c, InvalidatedOnce c nodes rootId ↔
      (c.batchDepth = 0 → Untangled (parentEdges nodes) rootId) :=
  ⟨getSubtreeNodes_once_iff rootId,renderMarkdown_once_iff rootId,renderOpml_once_iff rootId,
    fun _ _ root _ => copiedOnce_iff root,fun c => invalidatedOnce_iff c rootId⟩

/-- Two nodes that are each other's parent. -/
def hen : WorkflowyNode := { id := "hen", name := "hen", parentId := some "egg" }
def egg : WorkflowyNode := { id := "egg", name := "egg", parentId := some "hen" }

def alwaysCreates : Proc.Server ApiCall ApiReply Unit
  | .createNode .., u => (.ok (some "new"),u)
  | .getNode _, u => (.ok hen,u)
  | .getChildren _, u | .getTopLevel, u => (.ok [],u)
  | .postNode .., u | .deleteNode _, u | .moveNode .., u => (.ok (),u)

theorem circle_ids (fuel : Nat) : visits lastOnTop (childIds [hen,egg]) fuel ["hen"] = none := by
  refine visits_endless pushes_lastOnTop (P := fun id => id = "hen" ∨ id = "egg") ?_ (by simp)
    (by simp)
  rintro x (rfl | rfl)
  · exact ⟨by decide,by decide⟩
  · exact ⟨by decide,by decide⟩

theorem circle_nodes {push : List WorkflowyNode → List WorkflowyNode → List WorkflowyNode}
    (hpush : Pushes push) (fuel : Nat) (n : WorkflowyNode) (hn : n = hen ∨ n = egg) :
    visits push (fun node => childrenOf [hen,egg] node.id) fuel [n] = none := by
  refine visits_endless hpush (P := fun n => n = hen ∨ n = egg) ?_ (by simp) (by simpa using hn)
  rintro x (rfl | rfl)
  · exact ⟨by decide,by decide⟩
  · exact ⟨by decide,by decide⟩

theorem circle_fold (f : Nat → WorkflowyNode → List String → String) (fuel : Nat) :
    fold (fun node => childrenOf [hen,egg] node.id) f fuel 0 hen = none := by
  have hcalls : ¬(calls (fun node => childrenOf [hen,egg] node.id) fuel hen).isSome := by
    intro hsome
    obtain ⟨called,hcalled⟩ := Option.isSome_iff_exists.mp hsome
    obtain ⟨n,hn⟩ := exists_calls_iff.mp ⟨fuel,hcalled⟩
    rw [circle_nodes pushes_onTop n hen (.inl rfl)] at hn
    cases hn
  rwa [← isSome_fold f fuel 0 hen,Option.not_isSome_iff_eq_none] at hcalls

theorem circle_endless :
    (∀ fuel, getSubtreeNodes "hen" [hen,egg] fuel = none) ∧
    (∀ fuel, renderSubtreeMarkdown [hen,egg] "hen" fuel = none) ∧
    (∀ fuel, Opml.renderSubtreeOpml [hen,egg] "hen" fuel = none) ∧
    (∀ fuel, ((copyQueue (fun n => (n.name,none)) {} [hen,egg] "copy" fuel
      (childrenOf [hen,egg] hen.id) {}).run alwaysCreates ()).1 = none) ∧
    ∀ fuel, (rebuildChildrenIndex {} [hen,egg]).invalidateSubtree fuel "hen" = none := by
  have hfound : [hen,egg].find? (fun n => n.id = "hen") = some hen := rfl
  refine ⟨fun fuel => ?_,fun fuel => ?_,fun fuel => ?_,fun fuel => ?_,fun fuel => ?_⟩
  · rw [getSubtreeNodes,subtreeLoop_eq,circle_ids]
    rfl
  · rw [renderSubtreeMarkdown,hfound]
    exact circle_fold bullet fuel
  · simp only [Opml.renderSubtreeOpml,hfound,Opml.walkOpml,circle_fold,Option.map_none]
  · have hchildren : childrenOf [hen,egg] hen.id = [egg] := rfl
    rw [← Option.not_isSome_iff_eq_none,isSome_copyQueue (fun _ _ _ _ _ _ => ⟨"new",rfl⟩),
      breadth_eq_visits,hchildren,circle_nodes pushes_behind fuel egg (.inr rfl)]
    simp
  · have hdepth : ¬0 < (rebuildChildrenIndex {} [hen,egg]).batchDepth := by decide
    rw [NodeCache.invalidateSubtree,if_neg hdepth,Option.map_eq_none_iff,
      ← Option.not_isSome_iff_eq_none,isSome_dropSubtree,funext (lookup_rebuild {} [hen,egg]),
      circle_ids]
    simp

end WorkflowyMcp.SubtreeTraversal
