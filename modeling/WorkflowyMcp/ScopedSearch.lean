import WorkflowyMcp.DeepCopy
import WorkflowyMcp.IndexFootprint
import WorkflowyMcp.NameIndexQuery
import WorkflowyMcp.Previews
import WorkflowyMcp.TagParser

/-! `find_node` and `tag_search`: served by the name index, or by a walk below the parent. What
the two find is compared for an index that is up to date below the parent. -/
namespace WorkflowyMcp
open SubtreeWalk

structure FindNodeParams where
  name : String
  matchMode : Option String := none
  selection : Option Nat := none
  parentId : Option String := none
  maxDepth : Option Nat := none
  allowRootScan : Option Bool := none
  useIndex : Option Bool := none
  preferIndex : Option Bool := none

structure TagSearchParams where
  tag : String
  maxResults : Option Nat := none
  parentId : Option String := none
  maxDepth : Option Nat := none
  useIndex : Option Bool := none

/- A node that was found: an indexed one with its parent, a walked one with its path and its
   note, or the start of its note. -/
structure FoundNode where
  nodeId : String
  name : String
  parentId : Option String := none
  path : Option String := none
  note : Option String := none
deriving DecidableEq, Repr

inductive FindNodeAnswer where
  | notFound (message : String)
  | found (node : FoundNode) (message : String)
  | multipleMatches (options : List FoundNode) (message : String)
  | outOfRange (error : String)
deriving DecidableEq, Repr

structure FindNodeReply where
  answer : FindNodeAnswer
  truncatedAtPath : Option String := none
deriving DecidableEq, Repr

def FindNodeReply.nodeIds (r : FindNodeReply) : List String :=
  match r.answer with
  | .notFound _ | .outOfRange _ => []
  | .found node _ => [node.nodeId]
  | .multipleMatches options _ => options.map FoundNode.nodeId

/- The nodes that a tag search lists. -/
structure TagSearchReply where
  nodes : List FoundNode
deriving DecidableEq, Repr

def TagSearchReply.nodeIds (r : TagSearchReply) : List String := r.nodes.map FoundNode.nodeId

def refusesRootScan : String :=
  "find_node refuses to scan from the workspace root by default. Pass parent_id to scope the search, set allow_root_scan=true to opt in, or set use_index=true to serve from the opportunistic name index."

def needsIndex : String :=
  "tag_search use_index=true requires the persistent name index to be populated. Run `build_name_index(parent_id=...)` (or the scheduled `wflow-do reindex`) first, or omit use_index for a live walk."

namespace FindNodeParams

def mode (p : FindNodeParams) : String := p.matchMode.getD "exact"

def meets (toLowercase : String → String) (p : FindNodeParams) (name : String) : Bool :=
  nameMatches p.mode (toLowercase name) (toLowercase p.name)

/-- The match that is selected, the first if none is. -/
def select {α : Type} (p : FindNodeParams) (hits : List α) : Except String α :=
  let idx := p.selection.getD 1
  match if idx < 1 then none else hits[idx-1]? with
  | some hit => .ok hit
  | none => .error ("Selection " ++ toString idx ++ " out of range (1-" ++ toString hits.length ++
      ")")

end FindNodeParams

section reply
variable (isWord : Char → Bool)

def indexedNode (e : NameIndexEntry) : FoundNode where
  nodeId := e.nodeId
  name := Html.renderDisplay isWord e.name
  parentId := e.parentId

def renderFindNodeIndexResult (p : FindNodeParams) (hits : List NameIndexEntry) : FindNodeAnswer :=
  if hits.isEmpty then
    .notFound ("No nodes matching '" ++ p.name ++ "' in name index (mode: " ++ p.mode ++
      "). Retry without use_index for a live walk, or run build_name_index to populate.")
  else if hits.length = 1 || p.selection.isSome then
    match p.select hits with
    | .error error => .outOfRange error
    | .ok hit => .found (indexedNode isWord hit)
        ("Found '" ++ Html.renderDisplay isWord hit.name ++ "' via name index")
  else
    .multipleMatches (hits.map (indexedNode isWord)) ("Found " ++ toString hits.length ++
      " matches for '" ++ p.name ++ "' via name index. Use selection to choose.")

def optionNode (o : Previews.FindOption) : FoundNode where
  nodeId := o.id
  name := o.name
  path := o.path
  note := o.notePreview

/-- The path of the node at which the walk was cut, if it was. -/
def truncatedAtPath (fetch : SubtreeFetch) : Option (Option String) :=
  match fetch.truncatedAtNodeId with
  | none => some none
  | some id => (NodePaths.buildNodePathWithMap id fetch.nodes).map some

/- The answer of a walked search; there is none where a path or the preview of a note is cut
   inside a character. The truncation envelope is left out. -/
def walkedAnswer (p : FindNodeParams) (fetch : SubtreeFetch) (found : List WorkflowyNode) :
    Option (Except McpError FindNodeAnswer) :=
  if found.isEmpty then
    some (.ok (.notFound ("No nodes found matching '" ++ p.name ++ "' (mode: " ++ p.mode ++
      "). Try match_mode: 'contains'.")))
  else if found.length = 1 || p.selection.isSome then
    match p.select found with
    | .error error => some (.error (.toolInvalidParams "find_node" none error))
    | .ok n => (NodePaths.buildNodePathWithMap n.id fetch.nodes).map fun path =>
        let name := Html.renderDisplay isWord n.name
        let note := n.description.map (Html.renderDisplay isWord)
        .ok (.found { nodeId := n.id, name, path, note } ("Found '" ++ name ++ "'"))
  else
    (Previews.findOptions isWord fetch.nodes found).map fun options =>
      .ok (.multipleMatches (options.map optionNode) ("Found " ++ toString found.length ++
        " matches for '" ++ p.name ++ "'. Use selection parameter to choose."))

end reply

/-- The text of an entry, for the predicates on nodes. -/
def NameIndexEntry.probe (e : NameIndexEntry) : WorkflowyNode :=
  { name := e.name, description := e.description }

/-- Indexed entries that carry the tag, below the scope if there is one. -/
def NameIndex.tagged (toLowercase : String → String) (isWord : Char → Bool) (idx : NameIndex)
    (tag : String) (scope : Option String) : List NameIndexEntry :=
  let hits := idx.entries.filter fun e => TagParser.nodeHasTag toLowercase isWord e.probe tag
  match scope with
  | some scope => hits.filter fun e => idx.isDescendantOf e.nodeId scope
  | none => hits

namespace Server
variable (toLowercase : String → String) (isWord : Char → Bool)

/-- A walk whose nodes all go through the name index. -/
def walkSubtree (s : Server) (w : WalkEnv) (rootId : Option String) (maxDepth : Nat) :
    Except WorkflowyError SubtreeFetch × Server :=
  match getSubtreeWithControls w rootId maxDepth DeepCopy.MAX_SUBTREE_NODES with
  | .ok fetch => (.ok fetch,{ s with nameIndex := s.nameIndex.ingest toLowercase fetch.nodes })
  | .error e => (.error e,s)

theorem walkSubtree_ok {s s' : Server} {w : WalkEnv} {rootId : Option String} {maxDepth : Nat}
    {fetch : SubtreeFetch} (h : s.walkSubtree toLowercase w rootId maxDepth = (.ok fetch,s')) :
    getSubtreeWithControls w rootId maxDepth DeepCopy.MAX_SUBTREE_NODES = .ok fetch := by
  unfold walkSubtree at h
  split at h <;> cases h
  assumption

/- The walk of `find_node`. Without a reply the tool has panicked. -/
def findByWalk (s : Server) (w : WalkEnv) (p : FindNodeParams) : Option (Handled FindNodeReply) :=
  match s.walkSubtree toLowercase w p.parentId (p.maxDepth.getD 3) with
  | (.ok fetch,s) =>
    let found := fetch.nodes.filter fun n => p.meets toLowercase n.name
    (truncatedAtPath fetch).bind fun truncatedAtPath =>
      (walkedAnswer isWord p fetch found).map fun answer =>
        (answer.map fun answer => { answer, truncatedAtPath },s)
  | (.error e,s) => some (.error (.toolError "find_node" p.parentId e.display),s)

/- The index is asked first where it is wanted and holds anything; only a scan that may go to the
   root, or a mere preference, falls through to the walk. -/
def findNode (s : Server) (w : WalkEnv) (p : FindNodeParams) : Option (Handled FindNodeReply) :=
  let useIndex := p.useIndex.getD false
  let allowRootScan := p.allowRootScan.getD false
  let preferIndex := p.preferIndex.getD false
  if p.parentId.isNone && !allowRootScan && !useIndex then
    some (.error (.toolInvalidParams "find_node" none refusesRootScan),s)
  else
    let hits := (s.nameIndex.lookup toLowercase p.name p.mode).filter fun e =>
      p.parentId.isNone || e.parentId = p.parentId
    if (useIndex || preferIndex) && s.nameIndex.isPopulated &&
        !(preferIndex && !useIndex && hits.isEmpty) && (!hits.isEmpty || !allowRootScan) then
      some (.ok { answer := renderFindNodeIndexResult isWord p hits },s)
    else s.findByWalk toLowercase isWord w p

/- The walk takes the parent as it is given; the index path alone resolves a short form. -/
def tagSearch (s : Server) (w : WalkEnv) (p : TagSearchParams) : Handled TagSearchReply :=
  let maxResults := p.maxResults.getD 50
  let listed (nodeId name : String) : FoundNode :=
    { nodeId, name := Html.renderDisplay isWord name }
  if p.useIndex.getD false then
    if !s.nameIndex.isPopulated then (.error (.toolInvalidParams "tag_search" none needsIndex),s)
    else
      let hits := (s.nameIndex.tagged toLowercase isWord p.tag p.parentId).take maxResults
      (.ok ⟨hits.map fun e => listed e.nodeId e.name⟩,s)
  else
    match s.walkSubtree toLowercase w p.parentId (p.maxDepth.getD 3) with
    | (.ok fetch,s) =>
      let hits := (fetch.nodes.filter fun n =>
        TagParser.nodeHasTag toLowercase isWord n p.tag).take maxResults
      (.ok ⟨hits.map fun n => listed n.id n.name⟩,s)
    | (.error e,s) => (.error (.toolError "tag_search" none e.display),s)

end Server

namespace SubtreeWalk
variable {w : WalkEnv} {tree : Tree} {parent : String} {maxDepth nodeLimit : Nat}

/-- Only a walk that was cut names the node at which it was. -/
def Anchored (o : TruncationOutcome) : Prop := o.reason = none → o.truncatedAtNodeId = none

theorem anchored_stopped (reason : TruncationReason) (anchor : Option String)
    (skipped : List String) :
    Anchored ((TruncationOutcome.stopped reason anchor).withSkipped skipped) := fun h => by
  simp at h

theorem anchored_complete (skipped : List String) :
    Anchored (TruncationOutcome.complete.withSkipped skipped) := by
  intro h
  unfold TruncationOutcome.withSkipped at h ⊢
  split
  · rfl
  · rename_i hskipped
    simp [hskipped,TruncationOutcome.complete] at h

theorem anchored_fetchDescendants (s : WalkState) :
    Anchored (fetchDescendants w nodeLimit maxDepth s).outcome := by
  have hfinish (s : WalkState) : Anchored (finishWalk nodeLimit s).outcome := by
    unfold finishWalk
    dsimp only
    split
    · exact anchored_stopped _ _ _
    · exact anchored_complete _
  induction maxDepth generalizing s with
  | zero => exact hfinish s
  | succ left ih =>
    rw [fetchDescendants]
    split
    · exact hfinish s
    split
    · exact ih _
    · rename_i walked hpass
      unfold levelPass at hpass
      split at hpass
      · cases hpass
        exact anchored_stopped _ _ []
      split at hpass
      · cases hpass
        exact anchored_stopped _ _ []
      dsimp only at hpass
      split at hpass <;> cases hpass
      exact anchored_stopped _ _ _

/-- A walk that is not truncated names no node at which it was cut. -/
theorem fetch_anchor {rootId : Option String} {fetch : SubtreeFetch}
    (h : getSubtreeWithControls w rootId maxDepth nodeLimit = .ok fetch)
    (ht : fetch.truncated = false) : fetch.truncatedAtNodeId = none := by
  unfold getSubtreeWithControls walk at h
  cases hs : walkStart w rootId nodeLimit with
  | error e => simp [hs,Except.map] at h
  | ok start =>
    simp only [hs,Except.map,Except.ok.injEq] at h
    subst h
    simp only [Walked.fetch,Bool.or_eq_false_iff,Option.isSome_eq_false_iff,
      Option.isNone_iff_eq_none] at ht
    cases start with
    | inr r => exact absurd ht.1 (walkStart_reason hs)
    | inl s => exact anchored_fetchDescendants s ht.1

/-- The node itself or one below it, however deep. -/
def Tree.Within (tree : Tree) (parent : String) (n : WorkflowyNode) : Prop :=
  (n∈tree.nodes ∧ n.id = parent) ∨ ∃ k, tree.AtDepth (some parent) k n

/-- The nodes on the way up from a node, as far as the parent. -/
inductive Tree.WayUp (tree : Tree) (parent : String) : WorkflowyNode → WorkflowyNode → Prop where
  | here (n : WorkflowyNode) : tree.WayUp parent n n
  | above {n q m : WorkflowyNode} (hq : tree.Within parent q) (hparent : n.parentId = some q.id)
      (hup : tree.WayUp parent q m) : tree.WayUp parent n m

/-- The walk ends without truncation and has reached the whole subtree. -/
def Covers (w : WalkEnv) (tree : Tree) (parent : String) (maxDepth : Nat) : Prop :=
  ∃ fetch, getSubtreeWithControls w (some parent) maxDepth DeepCopy.MAX_SUBTREE_NODES = .ok fetch ∧
    fetch.truncated = false ∧ ∀ n, tree.Within parent n → n∈fetch.nodes

theorem Tree.Within.mem {n : WorkflowyNode} (h : tree.Within parent n) : n∈tree.nodes := by
  rcases h with h | ⟨k,h⟩
  · exact h.1
  · exact h.mem

/-- The nodes are those of the subtree, each once. -/
structure Subtree (tree : Tree) (parent : String) (nodes : List WorkflowyNode) : Prop where
  mem : ∀ n, n∈nodes ↔ tree.Within parent n
  nodup : (nodes.map WorkflowyNode.id).Nodup

theorem Covers.spec (hw : w.Serves tree) (h : Covers w tree parent maxDepth) :
    ∃ fetch, getSubtreeWithControls w (some parent) maxDepth DeepCopy.MAX_SUBTREE_NODES =
      .ok fetch ∧ fetch.truncatedAtNodeId = none ∧ Subtree tree parent fetch.nodes := by
  obtain ⟨fetch,hf,ht,hall⟩ := h
  have horder := fetch_docOrder hw hf ht
  refine ⟨fetch,hf,fetch_anchor hf ht,fun n => ⟨fun hn => ?_,hall n⟩,?_⟩
  · rw [horder] at hn
    rcases Tree.mem_docOrder.mp hn with ⟨hmem,hid⟩ | ⟨k,-,hk⟩
    · exact .inl ⟨hmem,Option.some.inj hid⟩
    · exact .inr ⟨k,hk⟩
  · rw [horder]
    exact Tree.docOrder_nodup _ _

section chain
open NodePaths
variable {nodes : List WorkflowyNode}

theorem Subtree.nodeMap (h : Subtree tree parent nodes) {id : String} {n : WorkflowyNode} :
    buildNodeMap nodes id = some n ↔ tree.Within parent n ∧ n.id = id := by
  constructor
  · intro hn
    exact ⟨(h.mem n).mp (List.mem_reverse.mp (List.mem_of_find?_eq_some hn)),
      by simpa using List.find?_some hn⟩
  · rintro ⟨hn,rfl⟩
    have hsome : (buildNodeMap nodes n.id).isSome :=
      List.find?_isSome.mpr ⟨n,List.mem_reverse.mpr ((h.mem n).mpr hn),decide_eq_true rfl⟩
    obtain ⟨m,hm⟩ := Option.isSome_iff_exists.mp hsome
    have hmem := (h.mem m).mp (List.mem_reverse.mp (List.mem_of_find?_eq_some hm))
    have hid : m.id = n.id := by simpa using List.find?_some hm
    rwa [Tree.eq_of_id hmem.mem hn.mem hid] at hm

/-- Ids that were seen rank above the node, so that the way up is never broken off. -/
theorem Subtree.mem_nodesUp (h : Subtree tree parent nodes) {fuel : Nat} {seen : List String}
    {n m : WorkflowyNode} (hn : tree.Within parent n) (hfuel : tree.rank n.id < fuel)
    (hseen : ∀ x∈seen, tree.rank n.id < tree.rank x) :
    m∈nodesUp (buildNodeMap nodes) fuel seen (some n.id) ↔ tree.WayUp parent n m := by
  induction fuel generalizing seen n with
  | zero => omega
  | succ fuel ih =>
    have hfresh : n.id∉seen := fun hmem => lt_irrefl _ (hseen _ hmem)
    rw [nodesUp,if_neg hfresh,h.nodeMap.mpr ⟨hn,rfl⟩]
    simp only [List.mem_cons]
    constructor
    · rintro (rfl | hup)
      · exact .here m
      cases hparent : n.parentId with
      | none =>
        rw [hparent] at hup
        cases fuel <;> simp [nodesUp] at hup
      | some pid =>
        rw [hparent] at hup
        have hrank := tree.acyclic n hn.mem pid hparent
        cases hq : buildNodeMap nodes pid with
        | none => cases fuel <;> simp [nodesUp,hq] at hup
        | some q =>
          obtain ⟨hqn,rfl⟩ := h.nodeMap.mp hq
          refine .above hqn hparent ((ih hqn (by omega) ?_).mp hup)
          exact List.forall_mem_cons.mpr ⟨hrank,fun x hx => hrank.trans (hseen x hx)⟩
    · rintro (⟨-⟩ | ⟨hq,hparent,hup⟩)
      · exact .inl rfl
      rename_i q
      have hrank := tree.acyclic n hn.mem q.id hparent
      rw [hparent]
      refine .inr ((ih hq (by omega) ?_).mpr hup)
      exact List.forall_mem_cons.mpr ⟨hrank,fun x hx => hrank.trans (hseen x hx)⟩

theorem Subtree.mem_chain (h : Subtree tree parent nodes) {n m : WorkflowyNode}
    (hn : tree.Within parent n) : m∈chain nodes n.id ↔ tree.WayUp parent n m := by
  rw [← nodesUp_eq_chain nodes n.id (tree.rank n.id)]
  exact h.mem_nodesUp hn (by omega) (by simp)

/-- The path of a node is shown if each name on the way up can be cut. -/
theorem Subtree.path_isSome (h : Subtree tree parent nodes) {n : WorkflowyNode}
    (hn : tree.Within parent n) : (buildNodePathWithMap n.id nodes).isSome ↔
      ∀ m, tree.WayUp parent n m → CuttableName m := by
  have hpath : (buildNodePathWithMap n.id nodes).isSome ↔ _ := Aggregation.pathed_iff
  simp only [h.mem_chain hn] at hpath
  exact hpath

end chain

/-- Enough is a walk that has reached every node of the tree. -/
theorem covers_of_all {fetch : SubtreeFetch}
    (hf : getSubtreeWithControls w (some parent) maxDepth DeepCopy.MAX_SUBTREE_NODES = .ok fetch)
    (ht : fetch.truncated = false) (hall : ∀ n∈tree.nodes, n∈fetch.nodes) :
    Covers w tree parent maxDepth :=
  ⟨fetch,hf,ht,fun n hn => hall n hn.mem⟩

theorem walkStart_root {nodeLimit : Nat} {s : WalkState}
    (h : walkStart w (some parent) nodeLimit = .ok (.inl s)) :
    ∃ root, w.node 1 parent = .ok root := by
  cases hn : w.node 1 parent with
  | ok root => exact ⟨root,rfl⟩
  | error e =>
    simp only [walkStart,hn] at h
    split at h
    · cases h
    · split at h <;> cases h

/-- A walk that is not truncated has found its root. -/
theorem Covers.root (hw : w.Serves tree) (h : Covers w tree parent maxDepth) :
    ∃ root∈tree.nodes, root.id = parent := by
  obtain ⟨fetch,hf,ht,-⟩ := h
  unfold getSubtreeWithControls walk at hf
  cases hs : walkStart w (some parent) DeepCopy.MAX_SUBTREE_NODES with
  | error e => simp [hs,Except.map] at hf
  | ok start =>
    simp only [hs,Except.map,Except.ok.injEq] at hf
    subst hf
    simp only [Walked.fetch,Bool.or_eq_false_iff,Option.isSome_eq_false_iff,
      Option.isNone_iff_eq_none] at ht
    cases start with
    | inr r => exact absurd ht.1 (walkStart_reason hs)
    | inl s =>
      obtain ⟨root,hroot⟩ := walkStart_root hs
      exact ⟨root,hw.node _ _ _ hroot⟩

end SubtreeWalk

namespace NameIndex
variable {idx : NameIndex} {tree : Tree} {parent : String}

/-- The index holds the node under its current name and parent. -/
def Current (idx : NameIndex) (n : WorkflowyNode) : Prop :=
  ∃ e, idx.lookupEntryById n.id = some e ∧ e.name = n.name ∧ e.parentId = n.parentId

/-- The entry of a node that is up to date, and no other has its id. -/
theorem Current.entry {toLowercase : String → String} {n : WorkflowyNode} (hn : idx.Current n)
    (h : idx.Wf toLowercase) : ∃ e∈idx.entries, e.nodeId = n.id ∧ e.name = n.name ∧
      e.parentId = n.parentId ∧ ∀ f∈idx.entries, f.nodeId = n.id → f = e := by
  obtain ⟨e,he,hname,hparent⟩ := hn
  obtain ⟨hmem,hid⟩ := (lookup_eq_some h).mp he
  exact ⟨e,hmem,hid,hname,hparent,fun f hf hfid => h.unique hf hmem (hfid.trans hid.symm)⟩

/-- In an index that is up to date below the parent, a node lies as deep as in the tree. -/
theorem under_iff_depth (hcur : ∀ n, tree.Within parent n → idx.Current n) {j k : Nat}
    {n : WorkflowyNode} (hn : tree.AtDepth (some parent) k n) :
    idx.Under parent j n.id ↔ j = k := by
  induction k generalizing j n with
  | zero =>
    obtain ⟨e,he,-,hparent⟩ := hcur n (.inr ⟨0,hn⟩)
    rw [hn.2] at hparent
    cases j with
    | zero => simp [Under,he,hparent]
    | succ j => simp [Under,he,hparent]
  | succ k ih =>
    obtain ⟨e,he,-,hparent⟩ := hcur n (.inr ⟨k+1,hn⟩)
    obtain ⟨-,m,hm,hnm⟩ := hn
    have hne : m.id≠parent := fun hid => by
      have hlt := hm.rank_lt
      rw [hid] at hlt
      exact lt_irrefl _ hlt
    rw [hnm] at hparent
    cases j with
    | zero => simp [Under,he,hparent,hne]
    | succ j => simp [Under,he,hparent,hne,ih hm]

/-- The climb reaches the parent from no deeper than its 33rd level. -/
theorem isDescendantOf_depth (hcur : ∀ n, tree.Within parent n → idx.Current n) {k : Nat}
    {n : WorkflowyNode} (hn : tree.AtDepth (some parent) k n) :
    idx.isDescendantOf n.id parent ↔ k < 33 := by
  simp [isDescendantOf_iff,under_iff_depth hcur hn]

end NameIndex

/-- Both searches answer, and name the same nodes. -/
def SameFound (a b : Option (Except McpError (List String))) : Prop :=
  ∃ xs ys, a = some (.ok xs) ∧ b = some (.ok ys) ∧ ∀ id, id∈xs ↔ id∈ys

/-- The ids in the reply of `find_node`, if there is one. -/
def foundIds (r : Option (Handled FindNodeReply)) : Option (Except McpError (List String)) :=
  r.map fun r => r.1.map FindNodeReply.nodeIds

def taggedIds (r : Handled TagSearchReply) : Option (Except McpError (List String)) :=
  some (r.1.map TagSearchReply.nodeIds)

@[simp] theorem sameFound_some {xs ys : List String} :
    SameFound (some (.ok xs)) (some (.ok ys)) ↔ ∀ id, id∈xs ↔ id∈ys := by
  simp [SameFound]

@[simp] theorem not_sameFound_none {a : Option (Except McpError (List String))} :
    ¬SameFound a none := by
  simp [SameFound]

section agree
variable {toLowercase : String → String} {isWord : Char → Bool} {s : Server} {w : WalkEnv}
  {tree : Tree} {parent : String}

/-- An indexed child of the parent that a known mode finds by its name. -/
def FindNodeParams.Hit (toLowercase : String → String) (idx : NameIndex) (parent : String)
    (p : FindNodeParams) (e : NameIndexEntry) : Prop :=
  p.mode∈matchModes ∧ e∈idx.entries ∧ e.parentId = some parent ∧ p.meets toLowercase e.name

/-- In and below the parent, each name on the way up from a node that is met can be cut, and so
can its note if another node is met too. -/
structure FindNodeParams.Displays (toLowercase : String → String) (tree : Tree) (parent : String)
    (p : FindNodeParams) : Prop where
  names : ∀ n, tree.Within parent n → p.meets toLowercase n.name →
    ∀ m, tree.WayUp parent n m → NodePaths.CuttableName m
  notes : ∀ n n', tree.Within parent n → tree.Within parent n' → n≠n' →
    p.meets toLowercase n.name → p.meets toLowercase n'.name →
    ∀ text∈n.description, NodePaths.Cuttable 60 60 text

/-- The query is in a known mode, meets no name but those of children of the parent, and no entry
that is a child of it in the index alone. -/
structure NamesAgree (toLowercase : String → String) (idx : NameIndex) (tree : Tree)
    (parent : String) (p : FindNodeParams) : Prop where
  known : ∀ n, tree.Within parent n → p.meets toLowercase n.name → p.mode∈matchModes
  direct : ∀ n, tree.Within parent n → p.meets toLowercase n.name → n.parentId = some parent
  strays : ∀ e, p.Hit toLowercase idx parent e → ∃ n, tree.Within parent n ∧ n.id = e.nodeId

/-- Where nothing is selected, the indexed search names what it has found. -/
theorem ids_indexResult {p : FindNodeParams} (hsel : p.selection = none)
    (hits : List NameIndexEntry) :
    FindNodeReply.nodeIds { answer := renderFindNodeIndexResult isWord p hits } =
      hits.map NameIndexEntry.nodeId := by
  rcases hits with _ | ⟨hit,_ | ⟨next,rest⟩⟩
  · rfl
  · simp [renderFindNodeIndexResult,hsel,FindNodeParams.select,FindNodeReply.nodeIds,indexedNode]
  · simp [renderFindNodeIndexResult,hsel,FindNodeReply.nodeIds,indexedNode]

/-- The paths of the nodes that were found are shown, and so are the starts of their notes where
there are several. -/
def Shown (nodes found : List WorkflowyNode) : Prop :=
  (∀ n∈found, Aggregation.Pathed nodes n) ∧
    (1 < found.length → ∀ n∈found, ∀ text∈n.description, NodePaths.Cuttable 60 60 text)

/-- So does the walked search, if what it has found is shown, and else there is no reply. -/
theorem ids_walkedAnswer {p : FindNodeParams} (hsel : p.selection = none) (fetch : SubtreeFetch)
    (found : List WorkflowyNode) :
    (Shown fetch.nodes found ∧ ∃ answer, walkedAnswer isWord p fetch found = some (.ok answer) ∧
      FindNodeReply.nodeIds { answer } = found.map WorkflowyNode.id) ∨
    ¬Shown fetch.nodes found ∧ walkedAnswer isWord p fetch found = none := by
  rcases found with _ | ⟨n,_ | ⟨m,rest⟩⟩
  · exact .inl ⟨⟨by simp,by simp⟩,_,rfl,rfl⟩
  · cases hpath : NodePaths.buildNodePathWithMap n.id fetch.nodes with
    | none => exact .inr ⟨fun h => by simp [Shown,Aggregation.Pathed,hpath] at h,
        by simp [walkedAnswer,hsel,FindNodeParams.select,hpath]⟩
    | some path =>
      refine .inl ⟨⟨by simp [Aggregation.Pathed,hpath],by simp⟩,?_⟩
      simp [walkedAnswer,hsel,FindNodeParams.select,hpath,FindNodeReply.nodeIds]
  · have hanswer : walkedAnswer isWord p fetch (n::m::rest) =
        (Previews.findOptions isWord fetch.nodes (n::m::rest)).map fun options =>
          .ok (.multipleMatches (options.map optionNode) ("Found " ++
            toString (n::m::rest).length ++ " matches for '" ++ p.name ++
            "'. Use selection parameter to choose.")) := by
      simp [walkedAnswer,hsel]
    have hshown : Shown fetch.nodes (n::m::rest) ↔
        (Previews.findOptions isWord fetch.nodes (n::m::rest)).isSome := by
      simp only [Previews.isSome_findOptions,Shown,Aggregation.pathed_iff,List.length_cons,
        Nat.one_lt_succ_succ,true_implies,forall₂_and]
    rw [hshown,hanswer]
    cases hoptions : Previews.findOptions isWord fetch.nodes (n::m::rest) with
    | none => exact .inr ⟨by simp,rfl⟩
    | some options =>
      refine .inl ⟨rfl,_,rfl,?_⟩
      rw [← Previews.ids_findOptions hoptions]
      exact List.map_map

/-- What is shown of the nodes of the subtree that are met. -/
theorem shown_iff {nodes : List WorkflowyNode} (hnodes : Subtree tree parent nodes)
    (p : FindNodeParams) : Shown nodes (nodes.filter fun n => p.meets toLowercase n.name) ↔
      p.Displays toLowercase tree parent := by
  set found := nodes.filter fun n => p.meets toLowercase n.name with hfound
  have hmem (n : WorkflowyNode) :
      n∈found ↔ tree.Within parent n ∧ p.meets toLowercase n.name := by
    rw [hfound,List.mem_filter,hnodes.mem]
  have hcard : found.toFinset.card = found.length :=
    List.toFinset_card_of_nodup ((List.Nodup.of_map _ hnodes.nodup).filter _)
  constructor
  · rintro ⟨hpaths,hnotes⟩
    refine ⟨fun n hn hm => ?_,fun n n' hn hn' hne hm hm' => ?_⟩
    · exact (hnodes.path_isSome hn).mp (hpaths n ((hmem n).mpr ⟨hn,hm⟩))
    · refine hnotes ?_ n ((hmem n).mpr ⟨hn,hm⟩)
      rw [← hcard,Finset.one_lt_card]
      exact ⟨n,List.mem_toFinset.mpr ((hmem n).mpr ⟨hn,hm⟩),n',
        List.mem_toFinset.mpr ((hmem n').mpr ⟨hn',hm'⟩),hne⟩
  · rintro ⟨hnames,hnotes⟩
    refine ⟨fun n hn => ?_,fun hseveral n hn => ?_⟩
    · obtain ⟨hn,hm⟩ := (hmem n).mp hn
      exact (hnodes.path_isSome hn).mpr (hnames n hn hm)
    · obtain ⟨n',hn',hne⟩ := Finset.exists_mem_ne (hcard.symm ▸ hseveral) n
      obtain ⟨hwithin,hm⟩ := (hmem n).mp hn
      obtain ⟨hwithin',hm'⟩ := (hmem n').mp (List.mem_toFinset.mp hn')
      exact hnotes n n' hwithin hwithin' hne.symm hm hm'

/-- The walk names the nodes that are met, if they are shown. -/
theorem ids_findByWalk {p : FindNodeParams} (hp : p.parentId = some parent)
    (hsel : p.selection = none) {fetch : SubtreeFetch}
    (hf : getSubtreeWithControls w (some parent) (p.maxDepth.getD 3) DeepCopy.MAX_SUBTREE_NODES =
      .ok fetch) (hanchor : fetch.truncatedAtNodeId = none)
    (hnodes : Subtree tree parent fetch.nodes) :
    (p.Displays toLowercase tree parent ∧
      foundIds (s.findByWalk toLowercase isWord w p) =
        some (.ok ((fetch.nodes.filter fun n => p.meets toLowercase n.name).map WorkflowyNode.id))) ∨
    ¬p.Displays toLowercase tree parent ∧
      foundIds (s.findByWalk toLowercase isWord w p) = none := by
  set found := fetch.nodes.filter fun n => p.meets toLowercase n.name with hfound
  have hrun : foundIds (s.findByWalk toLowercase isWord w p) =
      (walkedAnswer isWord p fetch found).map
        fun answer => answer.map fun answer => FindNodeReply.nodeIds { answer } := by
    simp only [foundIds,Server.findByWalk,Server.walkSubtree,hp,hf,truncatedAtPath,hanchor,
      Option.bind_some,Option.map_map,← hfound]
    refine congrArg (Option.map · _) (funext fun answer => ?_)
    cases answer <;> rfl
  rw [hrun,← shown_iff hnodes,← hfound]
  rcases ids_walkedAnswer hsel fetch found with
    ⟨hshown,answer,ha,hids⟩ | ⟨hno,ha⟩
  · exact .inl ⟨hshown,by rw [ha,← hids]; rfl⟩
  · exact .inr ⟨hno,by rw [ha]; rfl⟩

theorem findNode_walked {p : FindNodeParams} (hp : p.parentId = some parent) :
    s.findNode toLowercase isWord w { p with useIndex := none, preferIndex := none } =
      s.findByWalk toLowercase isWord w p := by
  have hscoped : ((none : Option Bool).getD false || (none : Option Bool).getD false) = false := rfl
  rw [Server.findNode,if_neg (by simp [hp])]
  simp only [hscoped,Bool.false_and,Bool.false_eq_true,if_false]
  rfl

/-- Asked for the index, only a search that may scan from the root and has no hit walks. -/
theorem findNode_indexed (h : s.nameIndex.Wf toLowercase) (hpop : s.nameIndex.isPopulated)
    {p : FindNodeParams} (hp : p.parentId = some parent) (hsel : p.selection = none) :
    (p.allowRootScan.getD false ∧ (¬∃ e, p.Hit toLowercase s.nameIndex parent e) ∧
      s.findNode toLowercase isWord w { p with useIndex := some true } =
        s.findByWalk toLowercase isWord w p) ∨
    ¬(p.allowRootScan.getD false ∧ ¬∃ e, p.Hit toLowercase s.nameIndex parent e) ∧
      ∃ hits : List NameIndexEntry,
        foundIds (s.findNode toLowercase isWord w { p with useIndex := some true }) =
          some (.ok (hits.map NameIndexEntry.nodeId)) ∧
        ∀ e, e∈hits ↔ p.Hit toLowercase s.nameIndex parent e := by
  let hits := (s.nameIndex.lookup toLowercase p.name p.mode).filter fun e =>
    e.parentId = some parent
  have hmem (e : NameIndexEntry) : e∈hits ↔ p.Hit toLowercase s.nameIndex parent e := by
    simp only [hits,List.mem_filter,NameIndex.mem_lookup h,decide_eq_true_eq,FindNodeParams.Hit,
      FindNodeParams.meets,and_assoc,and_comm,and_left_comm]
  have hempty : hits.isEmpty ↔ ¬∃ e, p.Hit toLowercase s.nameIndex parent e := by
    simp only [List.isEmpty_iff,List.eq_nil_iff_forall_not_mem,hmem,not_exists]
  have hrun : s.findNode toLowercase isWord w { p with useIndex := some true } =
      if !hits.isEmpty || !p.allowRootScan.getD false then
        some (.ok { answer := renderFindNodeIndexResult isWord p hits },s)
      else s.findByWalk toLowercase isWord w p := by
    have hfilter : (fun e : NameIndexEntry => p.parentId.isNone || decide (e.parentId = p.parentId)) =
        fun e => decide (e.parentId = some parent) := by
      simp [hp]
    rw [Server.findNode,if_neg (by simp [hp]),hfilter]
    simp only [hpop,Option.getD_some,Bool.true_or,Bool.true_and,Bool.not_true,Bool.and_false,
      Bool.false_and,Bool.not_false]
    rfl
  rw [hrun,← hempty]
  by_cases hwalk : p.allowRootScan.getD false = true ∧ hits.isEmpty = true
  · exact .inl ⟨hwalk.1,hwalk.2,by simp [hwalk]⟩
  · refine .inr ⟨hwalk,hits,?_,hmem⟩
    rw [if_pos]
    · rw [← ids_indexResult hsel hits]
      rfl
    · simp only [Bool.or_eq_true,Bool.not_eq_true',← Bool.not_eq_true]
      exact (not_and_or.mp hwalk).symm

theorem isPopulated_of_covers (h : s.nameIndex.Wf toLowercase) (hw : w.Serves tree)
    (hcur : ∀ n, tree.Within parent n → s.nameIndex.Current n) {maxDepth : Nat}
    (hcov : Covers w tree parent maxDepth) : s.nameIndex.isPopulated := by
  obtain ⟨root,hroot,hid⟩ := hcov.root hw
  obtain ⟨e,he,-⟩ := hcur root (.inl ⟨hroot,hid⟩)
  exact NameIndex.isPopulated_of_lookup h he

/-- The two paths of `find_node` agree where what the walk meets can be shown, and the search walks
anyway or all it can find are the children of the parent. -/
theorem findNode_agree (h : s.nameIndex.Wf toLowercase) (hw : w.Serves tree)
    (hcur : ∀ n, tree.Within parent n → s.nameIndex.Current n) {p : FindNodeParams}
    (hp : p.parentId = some parent) (hsel : p.selection = none)
    (hcov : Covers w tree parent (p.maxDepth.getD 3)) :
    SameFound (foundIds (s.findNode toLowercase isWord w { p with useIndex := some true }))
        (foundIds (s.findNode toLowercase isWord w
          { p with useIndex := none, preferIndex := none })) ↔
      p.Displays toLowercase tree parent ∧
        ((p.allowRootScan.getD false ∧ ¬∃ e, p.Hit toLowercase s.nameIndex parent e) ∨
          NamesAgree toLowercase s.nameIndex tree parent p) := by
  have hpop := isPopulated_of_covers h hw hcur hcov
  obtain ⟨fetch,hf,hanchor,hnodes⟩ := hcov.spec hw
  rw [findNode_walked hp]
  rcases ids_findByWalk hp hsel hf hanchor
    hnodes with ⟨hshown,hwalked⟩ | ⟨hno,hwalked⟩
  swap
  · rw [hwalked]
    exact iff_of_false not_sameFound_none fun hshown => hno hshown.1
  rw [and_iff_right hshown]
  rcases findNode_indexed h hpop hp hsel with
    ⟨hallow,hnone,hrun⟩ | ⟨hnot,hits,hrun,hhits⟩
  · rw [hrun,hwalked,sameFound_some]
    exact iff_of_true (fun _ => Iff.rfl) (.inl ⟨hallow,hnone⟩)
  rw [hrun,hwalked,or_iff_right hnot,sameFound_some]
  simp only [List.mem_map,hhits,List.mem_filter,hnodes.mem]
  constructor
  · intro hsame
    have hfound (n : WorkflowyNode) (hn : tree.Within parent n)
        (hm : p.meets toLowercase n.name) : p.mode∈matchModes ∧ n.parentId = some parent := by
      obtain ⟨e,⟨hknown,he,hparent,-⟩,hid⟩ := (hsame n.id).mpr ⟨n,⟨hn,hm⟩,rfl⟩
      obtain ⟨f,-,-,-,hf,honly⟩ := (hcur n hn).entry h
      obtain rfl := honly e he hid
      exact ⟨hknown,hf ▸ hparent⟩
    refine ⟨fun n hn hm => (hfound n hn hm).1,fun n hn hm => (hfound n hn hm).2,fun e he => ?_⟩
    obtain ⟨n,⟨hn,-⟩,hid⟩ := (hsame e.nodeId).mp ⟨e,he,rfl⟩
    exact ⟨n,hn,hid⟩
  · intro hagree id
    constructor
    · rintro ⟨e,he,rfl⟩
      obtain ⟨n,hn,hid⟩ := hagree.strays e he
      obtain ⟨f,-,-,hname,-,honly⟩ := (hcur n hn).entry h
      obtain rfl := honly e he.2.1 hid.symm
      exact ⟨n,⟨hn,hname ▸ he.2.2.2⟩,hid⟩
    · rintro ⟨n,⟨hn,hm⟩,rfl⟩
      obtain ⟨e,he,hid,hname,hparent,-⟩ := (hcur n hn).entry h
      exact ⟨e,⟨hagree.known n hn hm,he,hparent.trans (hagree.direct n hn hm),hname.symm ▸ hm⟩,hid⟩

/-- Neither path has to drop a match. -/
def TagSearchParams.Suffices (toLowercase : String → String) (isWord : Char → Bool)
    (idx : NameIndex) (w : WalkEnv) (parent : String) (p : TagSearchParams) : Prop :=
  (idx.tagged toLowercase isWord p.tag (some parent)).length ≤ p.maxResults.getD 50 ∧
  ∀ fetch, getSubtreeWithControls w (some parent) (p.maxDepth.getD 3) DeepCopy.MAX_SUBTREE_NODES =
    .ok fetch → (fetch.nodes.filter fun n =>
      TagParser.nodeHasTag toLowercase isWord n p.tag).length ≤ p.maxResults.getD 50

/-- No node deeper than the climb goes carries the tag, nor does the parent itself; in the index
the same nodes carry it, and none from elsewhere stands below the parent. -/
structure TagsAgree (toLowercase : String → String) (isWord : Char → Bool) (idx : NameIndex)
    (tree : Tree) (parent tag : String) : Prop where
  shallow : ∀ k n, tree.AtDepth (some parent) k n →
    TagParser.nodeHasTag toLowercase isWord n tag → k < 33
  described : ∀ k < 33, ∀ n, tree.AtDepth (some parent) k n →
    ∀ e, idx.lookupEntryById n.id = some e →
      (TagParser.nodeHasTag toLowercase isWord e.probe tag ↔
        TagParser.nodeHasTag toLowercase isWord n tag)
  root : ∀ n∈tree.nodes, n.id = parent → ∀ e, idx.lookupEntryById parent = some e →
    (TagParser.nodeHasTag toLowercase isWord n tag ↔
      TagParser.nodeHasTag toLowercase isWord e.probe tag ∧ idx.isDescendantOf parent parent)
  strays : ∀ e∈idx.entries, TagParser.nodeHasTag toLowercase isWord e.probe tag →
    idx.isDescendantOf e.nodeId parent → ∃ n, tree.Within parent n ∧ n.id = e.nodeId

theorem mem_tagged {idx : NameIndex} {tag : String} {e : NameIndexEntry} :
    e∈idx.tagged toLowercase isWord tag (some parent) ↔ e∈idx.entries ∧
      TagParser.nodeHasTag toLowercase isWord e.probe tag ∧ idx.isDescendantOf e.nodeId parent := by
  simp only [NameIndex.tagged,List.mem_filter,and_assoc]

theorem tagSearch_indexed (hpop : s.nameIndex.isPopulated) {p : TagSearchParams}
    (hp : p.parentId = some parent)
    (hsuff : p.Suffices toLowercase isWord s.nameIndex w parent) :
    taggedIds (s.tagSearch toLowercase isWord w { p with useIndex := some true }) = some (.ok
      ((s.nameIndex.tagged toLowercase isWord p.tag (some parent)).map NameIndexEntry.nodeId)) := by
  simp [taggedIds,TagSearchReply.nodeIds,Except.map,Function.comp_def,Server.tagSearch,hpop,hp,
    List.take_of_length_le hsuff.1]

theorem tagSearch_walked {p : TagSearchParams} (hp : p.parentId = some parent)
    (hsuff : p.Suffices toLowercase isWord s.nameIndex w parent) {fetch : SubtreeFetch}
    (hf : getSubtreeWithControls w (some parent) (p.maxDepth.getD 3) DeepCopy.MAX_SUBTREE_NODES =
      .ok fetch) :
    taggedIds (s.tagSearch toLowercase isWord w { p with useIndex := none }) = some (.ok
      ((fetch.nodes.filter fun n =>
        TagParser.nodeHasTag toLowercase isWord n p.tag).map WorkflowyNode.id)) := by
  simp [taggedIds,TagSearchReply.nodeIds,Except.map,Function.comp_def,Server.tagSearch,
    Server.walkSubtree,hp,hf,List.take_of_length_le (hsuff.2 fetch hf)]

/-- In and below the parent, what the index lets through is what carries the tag. -/
def Tells (toLowercase : String → String) (isWord : Char → Bool) (idx : NameIndex)
    (tree : Tree) (parent tag : String) : Prop :=
  ∀ n, tree.Within parent n → ∀ e, idx.lookupEntryById n.id = some e →
    (TagParser.nodeHasTag toLowercase isWord e.probe tag ∧ idx.isDescendantOf n.id parent ↔
      TagParser.nodeHasTag toLowercase isWord n tag)

theorem TagsAgree.tells {idx : NameIndex} {tag : String}
    (hcur : ∀ n, tree.Within parent n → idx.Current n)
    (hagree : TagsAgree toLowercase isWord idx tree parent tag) :
    Tells toLowercase isWord idx tree parent tag := by
  rintro n (⟨hn,rfl⟩ | ⟨k,hn⟩) e he
  · exact (hagree.root n hn rfl e he).symm
  · rw [NameIndex.isDescendantOf_depth hcur hn]
    constructor
    · rintro ⟨htag,hk⟩
      exact (hagree.described k hk n hn e he).mp htag
    · intro htag
      have hk := hagree.shallow k n hn htag
      exact ⟨(hagree.described k hk n hn e he).mpr htag,hk⟩

theorem Tells.agree {idx : NameIndex} {tag : String}
    (hcur : ∀ n, tree.Within parent n → idx.Current n)
    (htells : Tells toLowercase isWord idx tree parent tag)
    (hstrays : ∀ e∈idx.entries, TagParser.nodeHasTag toLowercase isWord e.probe tag →
      idx.isDescendantOf e.nodeId parent → ∃ n, tree.Within parent n ∧ n.id = e.nodeId) :
    TagsAgree toLowercase isWord idx tree parent tag where
  shallow k n hn htag := by
    obtain ⟨e,he,-⟩ := hcur n (.inr ⟨k,hn⟩)
    exact (NameIndex.isDescendantOf_depth hcur hn).mp ((htells n (.inr ⟨k,hn⟩) e he).mpr htag).2
  described k hk n hn e he := by
    have hdesc := (NameIndex.isDescendantOf_depth hcur hn).mpr hk
    rw [← htells n (.inr ⟨k,hn⟩) e he]
    exact (and_iff_left hdesc).symm
  root n hn hid e he := by
    subst hid
    exact (htells n (.inl ⟨hn,rfl⟩) e he).symm
  strays := hstrays

/-- The two paths of `tag_search` agree where the tag stands between the parent and the end of
the climb, and the index knows of it. -/
theorem tagSearch_agree (h : s.nameIndex.Wf toLowercase) (hw : w.Serves tree)
    (hcur : ∀ n, tree.Within parent n → s.nameIndex.Current n) {p : TagSearchParams}
    (hp : p.parentId = some parent) (hcov : Covers w tree parent (p.maxDepth.getD 3))
    (hsuff : p.Suffices toLowercase isWord s.nameIndex w parent) :
    SameFound (taggedIds (s.tagSearch toLowercase isWord w { p with useIndex := some true }))
        (taggedIds (s.tagSearch toLowercase isWord w { p with useIndex := none })) ↔
      TagsAgree toLowercase isWord s.nameIndex tree parent p.tag := by
  have hpop := isPopulated_of_covers h hw hcur hcov
  obtain ⟨fetch,hf,-,hnodes⟩ := hcov.spec hw
  rw [tagSearch_indexed hpop hp hsuff,tagSearch_walked hp hsuff hf,sameFound_some]
  simp only [List.mem_map,mem_tagged,List.mem_filter,hnodes.mem]
  constructor
  · intro hsame
    refine Tells.agree hcur (fun n hn e he => ?_) fun e he htag hdesc => ?_
    · obtain ⟨hentry,hid⟩ := (NameIndex.lookup_eq_some h).mp he
      constructor
      · rintro ⟨htag,hdesc⟩
        obtain ⟨m,⟨hm,hmtag⟩,hmid⟩ := (hsame n.id).mp ⟨e,⟨hentry,htag,hid ▸ hdesc⟩,hid⟩
        exact Tree.eq_of_id hm.mem hn.mem hmid ▸ hmtag
      · intro htag
        obtain ⟨f,⟨hfe,hftag,hfdesc⟩,hfid⟩ := (hsame n.id).mpr ⟨n,⟨hn,htag⟩,rfl⟩
        rw [h.unique hentry hfe (hid.trans hfid.symm),← hfid]
        exact ⟨hftag,hfdesc⟩
    · obtain ⟨n,⟨hn,-⟩,hid⟩ := (hsame e.nodeId).mp ⟨e,⟨he,htag,hdesc⟩,rfl⟩
      exact ⟨n,hn,hid⟩
  · intro hagree id
    have htells := hagree.tells hcur
    constructor
    · rintro ⟨e,⟨he,htag,hdesc⟩,rfl⟩
      obtain ⟨n,hn,hid⟩ := hagree.strays e he htag hdesc
      have hl := (NameIndex.lookup_eq_some h).mpr ⟨he,hid.symm⟩
      exact ⟨n,⟨hn,(htells n hn e hl).mp ⟨htag,hid ▸ hdesc⟩⟩,hid⟩
    · rintro ⟨n,⟨hn,htag⟩,rfl⟩
      obtain ⟨e,he,-⟩ := hcur n hn
      obtain ⟨hentry,hid⟩ := (NameIndex.lookup_eq_some h).mp he
      obtain ⟨hetag,hdesc⟩ := (htells n hn e he).mpr htag
      exact ⟨e,⟨hentry,hetag,hid.symm ▸ hdesc⟩,hid⟩

end agree

/-- For an index that is up to date below the parent and a walk that covers the subtree: the
indexed `find_node` finds what the walked one finds exactly when what is met can be shown and only
children of the parent are found, and so does the indexed `tag_search` exactly when the tag stands
between the parent and the end of the climb. -/
theorem paths_agree_iff (toLowercase : String → String) (isWord : Char → Bool) (cache : NodeCache)
    (calls : List NameIndex.IndexOp) {w : WalkEnv} {tree : Tree} (hw : w.Serves tree)
    (parent : String)
    (hcur : ∀ n, tree.Within parent n →
      (Server.after toLowercase cache calls).nameIndex.Current n) :
    let s := Server.after toLowercase cache calls
    (∀ p : FindNodeParams, p.parentId = some parent → p.selection = none →
      Covers w tree parent (p.maxDepth.getD 3) →
      (SameFound (foundIds (s.findNode toLowercase isWord w { p with useIndex := some true }))
          (foundIds (s.findNode toLowercase isWord w
            { p with useIndex := none, preferIndex := none })) ↔
        p.Displays toLowercase tree parent ∧
          ((p.allowRootScan.getD false ∧ ¬∃ e, p.Hit toLowercase s.nameIndex parent e) ∨
            NamesAgree toLowercase s.nameIndex tree parent p))) ∧
    ∀ p : TagSearchParams, p.parentId = some parent →
      Covers w tree parent (p.maxDepth.getD 3) →
      p.Suffices toLowercase isWord s.nameIndex w parent →
      (SameFound (taggedIds (s.tagSearch toLowercase isWord w { p with useIndex := some true }))
          (taggedIds (s.tagSearch toLowercase isWord w { p with useIndex := none })) ↔
        TagsAgree toLowercase isWord s.nameIndex tree parent p.tag) :=
  have h := Server.wf_after toLowercase cache calls
  ⟨fun _ hp hsel hcov => findNode_agree h hw hcur hp hsel hcov,
    fun _ hp hcov hsuff => tagSearch_agree h hw hcur hp hcov hsuff⟩

/-- A plan, a draft below it and notes below the draft. -/
def planTree (title : String) : Tree where
  nodes := [{ id := "p", name := title },
    { id := "a", name := "Draft #q3", parentId := some "p" },
    { id := "b", name := "Notes #q3", parentId := some "a" }]
  nodup := by simp
  rank id := if id = "p" then 0 else if id = "a" then 1 else 2
  acyclic := by simp

/-- A server that has indexed the plan. -/
def planServer (title : String) : Server :=
  Server.after asciiLowercase {} [.ingest (planTree title).nodes]

theorem plan_current (title : String) (hcur : ((planTree title).nodes.all fun n =>
      ((planServer title).nameIndex.lookupEntryById n.id).any fun e =>
        e.name = n.name && e.parentId = n.parentId) = true) (n : WorkflowyNode)
    (hn : (planTree title).Within "p" n) : (planServer title).nameIndex.Current n := by
  have hany := List.all_eq_true.mp hcur n hn.mem
  obtain ⟨e,he,hsame⟩ := (Option.any_eq_true _ _).mp hany
  simp only [Bool.and_eq_true,decide_eq_true_eq] at hsame
  exact ⟨e,he,hsame⟩

theorem suffices_of_run {idx : NameIndex} {w : WalkEnv} {parent : String} {p : TagSearchParams}
    (hidx : (idx.tagged asciiLowercase Char.isAlphanum p.tag (some parent)).length ≤
      p.maxResults.getD 50)
    (hrun : ((getSubtreeWithControls w (some parent) (p.maxDepth.getD 3)
      DeepCopy.MAX_SUBTREE_NODES).toOption.all fun fetch => decide ((fetch.nodes.filter fun n =>
        TagParser.nodeHasTag asciiLowercase Char.isAlphanum n p.tag).length ≤
          p.maxResults.getD 50)) = true) :
    p.Suffices asciiLowercase Char.isAlphanum idx w parent :=
  ⟨hidx,fun fetch hf => by simpa [hf,Except.toOption] using hrun⟩

theorem sameFound_iff {a b : Option (Except McpError (List String))} (xs ys : List String)
    (ha : a.bind Except.toOption = some xs) (hb : b.bind Except.toOption = some ys) :
    SameFound a b ↔ ∀ id, id∈xs ↔ id∈ys := by
  rcases a with _ | _ | xs' <;> cases ha
  rcases b with _ | _ | ys' <;> cases hb
  exact sameFound_some

/-- The draft is found by its name, and both nodes below the plan by their tag. -/
theorem plan_paths_agree :
    (FindNodeParams.Displays asciiLowercase (planTree "Plan") "p"
        { name := "draft #q3", parentId := some "p" } ∧
      NamesAgree asciiLowercase (planServer "Plan").nameIndex (planTree "Plan") "p"
        { name := "draft #q3", parentId := some "p" }) ∧
    TagsAgree asciiLowercase Char.isAlphanum (planServer "Plan").nameIndex (planTree "Plan") "p"
      "#q3" := by
  have hpaths := paths_agree_iff asciiLowercase Char.isAlphanum {} [.ingest (planTree "Plan").nodes]
    (DeepCopy.smoothWalk_serves (planTree "Plan")) "p" (plan_current "Plan" (by decide +kernel))
  have hcov : Covers (DeepCopy.smoothWalk (planTree "Plan")) (planTree "Plan") "p" 3 :=
    covers_of_all rfl rfl (by decide +kernel)
  constructor
  · refine ((hpaths.1 { name := "draft #q3", parentId := some "p" } rfl rfl hcov).mp
      ((sameFound_iff ["a"] ["a"] ?_ ?_).mpr fun _ => Iff.rfl)).imp_right fun h =>
        h.resolve_left fun h => absurd h.1 (by decide)
    all_goals decide +kernel
  · refine (hpaths.2 { tag := "#q3", parentId := some "p" } rfl hcov
      (suffices_of_run (by decide +kernel) (by decide +kernel))).mp
      ((sameFound_iff ["b","a"] ["a","b"] ?_ ?_).mpr fun id => by simp [or_comm])
    all_goals decide +kernel

/-- With the tag on the plan itself: the notes are found by walking alone, and so is the plan by
its tag. -/
theorem paths_differ :
    let tree := planTree "Plan #q3"
    let w := DeepCopy.smoothWalk tree
    let s := planServer "Plan #q3"
    let p : FindNodeParams := { name := "notes #q3", parentId := some "p" }
    let t : TagSearchParams := { tag := "#q3", parentId := some "p" }
    w.Serves tree ∧ (∀ n, tree.Within "p" n → s.nameIndex.Current n) ∧ Covers w tree "p" 3 ∧
    t.Suffices asciiLowercase Char.isAlphanum s.nameIndex w "p" ∧
    ¬SameFound (foundIds (s.findNode asciiLowercase Char.isAlphanum w { p with useIndex := some true }))
      (foundIds (s.findNode asciiLowercase Char.isAlphanum w p)) ∧
    ¬SameFound (taggedIds (s.tagSearch asciiLowercase Char.isAlphanum w { t with useIndex := some true }))
      (taggedIds (s.tagSearch asciiLowercase Char.isAlphanum w t)) := by
  intro tree w s p t
  refine ⟨DeepCopy.smoothWalk_serves _,plan_current "Plan #q3" (by decide +kernel),
    covers_of_all rfl rfl (by decide +kernel),
    suffices_of_run (by decide +kernel) (by decide +kernel),fun h => ?_,fun h => ?_⟩
  · have hids := (sameFound_iff [] ["b"] (by decide +kernel) (by decide +kernel)).mp h "b"
    simp at hids
  · have hids := (sameFound_iff ["b","a"] ["p","a","b"] (by decide +kernel)
      (by decide +kernel)).mp h "p"
    simp at hids

end WorkflowyMcp
