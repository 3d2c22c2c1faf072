import WorkflowyMcp.Html
import WorkflowyMcp.ServerTools
import WorkflowyMcp.WalkCap

/-! Resolving a path of names to a node, one listing for each segment, and the trees in which
the names as they are shown lead to the nodes that show them. -/
namespace WorkflowyMcp.NodeAtPath
open Html SubtreeWalk

section handler
variable (toLowercase : String → String) (w : WalkEnv)

structure PathState where
  position : Nat := 0
  currentId : Option String
  currentName : String := "<root>"
  traversed : List String := []
  visitedNodes : List WorkflowyNode := []
  nameIndex : NameIndex

structure PathReply where
  id : String
  name : String
  path : List String
  apiCalls : Nat
  nodesIndexed : Nat
deriving DecidableEq, Repr

/-- What a name is compared by. -/
def matched (name : String) : String := trim (toLowercase (stripHtml name))

def emptySegment (position : Nat) : McpError :=
  .toolInvalidParams "node_at_path" none
    ("path segment at index " ++ toString position ++ " is empty")

def segmentNotFound (segment : String) (traversed : List String) (children : List WorkflowyNode) :
    McpError :=
  let under := if traversed = [] then "<root>" else " / ".intercalate traversed
  .toolInvalidParams "node_at_path" none
    ("path segment '" ++ segment ++ "' not found under '" ++ under ++ "'. Children seen (" ++
      toString children.length ++ "): " ++
      ", ".intercalate ((children.take 20).map fun n => stripHtml n.name) ++ ".")

/- One segment. What was listed is ingested whether a child matches or not. -/
def pathStep (segment : String) (s : PathState) : Option McpError × PathState :=
  let needle := toLowercase (trim segment)
  if needle = "" then (some (emptySegment s.position),s)
  else
    let listed := match s.currentId with
      | some id => getChildren w s.position id
      | none => getTopLevelNodes w s.position
    match listed with
    | .error e => (some (.toolError "node_at_path" s.currentId e.display),s)
    | .ok children =>
      let s := { s with
        position := s.position+1
        nameIndex := s.nameIndex.ingest toLowercase children
        visitedNodes := s.visitedNodes++children }
      match children.find? fun n => matched toLowercase n.name = needle with
      | some node =>
        let name := stripHtml node.name
        (none,{ s with
          currentId := some node.id
          currentName := name
          traversed := s.traversed++[name] })
      | none => (some (segmentNotFound segment s.traversed children),s)

def pathLoop : List String → PathState → Option McpError × PathState
  | [],s => (none,s)
  | segment::path,s =>
    match pathStep toLowercase w segment s with
    | (some e,s) => (some e,s)
    | (none,s) => pathLoop path s

def nodeAtPath (path : List String) (startParentId : Option String) (nameIndex : NameIndex) :
    Except McpError PathReply × NameIndex :=
  if path = [] then
    (.error (.toolInvalidParams "node_at_path" none "path must contain at least one segment"),
      nameIndex)
  else
    match pathLoop toLowercase w path { currentId := startParentId, nameIndex } with
    | (some e,s) => (.error e,s.nameIndex)
    | (none,s) =>
      let reply : PathReply :=
        { id := s.currentId.getD ""
          name := s.currentName
          path := s.traversed
          apiCalls := path.length
          nodesIndexed := s.visitedNodes.length }
      (.ok reply,s.nameIndex)

end handler

section tree
variable (toLowercase : String → String) (tree : Tree)

/-- What is used of `to_lowercase` on names: it goes with trimming, and a second time it
changes nothing. -/
structure CaseFolding : Prop where
  trim : ∀ s, trim (toLowercase s) = toLowercase (trim s)
  idem : ∀ s, toLowercase (toLowercase s) = toLowercase s

/-- The visible label: tags stripped, entities decoded, trimmed and in lowercase. -/
def label (n : WorkflowyNode) : String := toLowercase (trim (decodeEntities (stripHtml n.name)))

/-- The same with its entities as they are stored. -/
def stored (n : WorkflowyNode) : String := toLowercase (trim (stripHtml n.name))

/-- Nodes from below `p` down, each the parent of the next. -/
def Descends : Option String → List WorkflowyNode → Prop
  | _,[] => True
  | p,n::ns => n∈tree.nodes ∧ n.parentId = p ∧ Descends (some n.id) ns

/-- Where a descent ends. -/
def endOf : Option String → List WorkflowyNode → Option String
  | p,[] => p
  | _,n::ns => endOf (some n.id) ns

/-- Under each parent the visible labels are distinct, and none is empty. -/
structure Labelled : Prop where
  distinct : ∀ p, ((tree.children p).map (label toLowercase)).Nodup
  nonempty : ∀ n∈tree.nodes, label toLowercase n ≠ ""

/-- The siblings that are listed before a node. -/
def before (n : WorkflowyNode) : List WorkflowyNode :=
  (tree.children n.parentId).takeWhile (·.id ≠ n.id)

/-- A node is found by its label: no entity is left in the label, and no sibling that is listed
before it shows another text than it stores and stores this label. -/
def FoundByLabel (n : WorkflowyNode) : Prop :=
  stored toLowercase n = label toLowercase n ∧ ∀ b∈before tree n,
    stored toLowercase b ≠ label toLowercase b → stored toLowercase b ≠ label toLowercase n

variable {toLowercase tree}

theorem descends_concat {p : Option String} {ns : List WorkflowyNode} {x : WorkflowyNode} :
    Descends tree p (ns++[x]) ↔
      Descends tree p ns ∧ x∈tree.nodes ∧ x.parentId = endOf p ns := by
  induction ns generalizing p with
  | nil => simp [Descends,endOf]
  | cons n ns ih => simp [Descends,endOf,ih,and_assoc]

theorem endOf_concat (p : Option String) (ns : List WorkflowyNode) (x : WorkflowyNode) :
    endOf p (ns++[x]) = some x.id := by
  induction ns generalizing p with
  | nil => rfl
  | cons n ns ih => exact ih (some n.id)

theorem Descends.mem {p : Option String} {ns : List WorkflowyNode} (h : Descends tree p ns) :
    ∀ n∈ns, n∈tree.nodes := by
  induction ns generalizing p with
  | nil => simp
  | cons n ns ih => exact List.forall_mem_cons.mpr ⟨h.1,ih h.2.2⟩

/-- Two descents of one length that end in one place start in one place. -/
theorem Descends.start_eq {p q : Option String} {ns ms : List WorkflowyNode}
    (hn : Descends tree p ns) (hm : Descends tree q ms) (hlen : ns.length = ms.length)
    (hend : endOf p ns = endOf q ms) : p = q := by
  induction ns using List.reverseRecOn generalizing ms with
  | nil =>
    obtain rfl : ms = [] := List.length_eq_zero_iff.mp hlen.symm
    exact hend
  | append_singleton ns x ih =>
    obtain ⟨ms,y,rfl⟩ : ∃ ms' y, ms = ms'++[y] := by
      refine (List.eq_nil_or_concat' ms).resolve_left fun h => ?_
      simp [h] at hlen
    rw [endOf_concat,endOf_concat] at hend
    obtain ⟨hns,hx,hpx⟩ := descends_concat.mp hn
    obtain ⟨hms,hy,hpy⟩ := descends_concat.mp hm
    have he : x = y := Tree.eq_of_id hx hy (Option.some.inj hend)
    rw [← he,hpx] at hpy
    exact ih hns hms (by simpa using hlen) hpy

theorem matched_eq (h : CaseFolding toLowercase) (n : WorkflowyNode) :
    matched toLowercase n.name = stored toLowercase n := h.trim _

/-- A label that is typed is looked for as it is. -/
theorem needle_eq (h : CaseFolding toLowercase) (n : WorkflowyNode) :
    toLowercase (trim (label toLowercase n)) = label toLowercase n := by
  rw [label,h.trim,h.idem,trim_trim]

/-- The first listed child that stores the label is the node itself. -/
theorem find_iff (hlabels : Labelled toLowercase tree) {n : WorkflowyNode} (hn : n∈tree.nodes) :
    ((tree.children n.parentId).find? fun m => stored toLowercase m = label toLowercase n) = some n ↔
      FoundByLabel toLowercase tree n := by
  have hmem : n∈tree.children n.parentId := Tree.mem_children.mpr ⟨hn,rfl⟩
  have hother (b : WorkflowyNode) (hb : b∈before tree n) : b∈tree.children n.parentId ∧ b≠n := by
    refine ⟨(List.takeWhile_prefix _).subset hb,?_⟩
    rintro rfl
    simpa using List.mem_takeWhile_imp hb
  have hsplit : before tree n++(tree.children n.parentId).dropWhile (·.id ≠ n.id) =
      tree.children n.parentId := List.takeWhile_append_dropWhile
  have hfirst : (tree.children n.parentId).dropWhile (·.id ≠ n.id) =
      n::((tree.children n.parentId).dropWhile (·.id ≠ n.id)).tail := by
    cases hd : (tree.children n.parentId).dropWhile (·.id ≠ n.id) with
    | nil => simpa using List.dropWhile_eq_nil_iff.mp hd n hmem
    | cons m rest =>
      have hid : m.id = n.id := by
        simpa using head_dropWhile (·.id ≠ n.id) (tree.children n.parentId) m (by simp only [hd]; rfl)
      have hm : m∈tree.children n.parentId := by
        rw [← hsplit,hd]
        simp
      rw [Tree.eq_of_id (Tree.mem_children.mp hm).1 hn hid,List.tail_cons]
  have hfind : ((tree.children n.parentId).find? fun m =>
      stored toLowercase m = label toLowercase n) = some n ↔
        stored toLowercase n = label toLowercase n ∧
          ∀ b∈before tree n, stored toLowercase b ≠ label toLowercase n := by
    constructor
    · intro h
      refine ⟨by simpa using List.find?_some h,fun b hb hstored => ?_⟩
      rw [← hsplit,List.find?_append] at h
      cases hf : (before tree n).find? fun m => stored toLowercase m = label toLowercase n with
      | none => simpa [hstored] using List.find?_eq_none.mp hf b hb
      | some m =>
        rw [hf,Option.some_or] at h
        exact (hother m (List.mem_of_find?_eq_some hf)).2 (Option.some.inj h)
    · rintro ⟨hown,hbefore⟩
      have hnone : ((before tree n).find? fun m =>
          stored toLowercase m = label toLowercase n) = none :=
        List.find?_eq_none.mpr fun b hb => by simpa using hbefore b hb
      rw [← hsplit,List.find?_append,hnone,Option.none_or,hfirst]
      exact List.find?_cons_of_pos (by simpa using hown)
  rw [hfind]
  refine and_congr_right fun _ => forall₂_congr fun b hb => ⟨fun h _ => h,fun h => ?_⟩
  by_cases hb' : stored toLowercase b = label toLowercase b
  · rw [hb']
    intro hsame
    obtain ⟨hlisted,hne⟩ := hother b hb
    exact hne (List.inj_on_of_nodup_map (hlabels.distinct n.parentId) hlisted hmem hsame)
  · exact h hb'

end tree

section walk
variable {toLowercase : String → String} {w : WalkEnv} {tree : Tree}

/-- Every listing comes in. -/
def Answers (w : WalkEnv) : Prop :=
  (∀ t, ∃ ns, w.topLevel t = .ok ns) ∧ ∀ t id, ∃ ns, w.listing t id = .ok ns

/-- What a segment is looked for in. -/
theorem listed_eq (hw : w.Serves tree) (ha : Answers w) (t : Nat) (p : Option String) :
    (match p with
      | some id => getChildren w t id
      | none => getTopLevelNodes w t) = .ok (tree.children p) := by
  cases p with
  | none =>
    obtain ⟨ns,hns⟩ := ha.1 t
    obtain rfl := hw.topLevel t ns hns
    rw [getTopLevelNodes,hns]
    rfl
  | some id =>
    obtain ⟨ns,hns⟩ := ha.2 t id
    have hr : getChildren w t id = .ok (sortChildrenByPriority (ns.map (fillParent id))) := by
      simp [getChildren,hns,Except.map]
    simp only [hr]
    rw [← getChildren_serves hw hr]

/-- A segment leads to the first child that stores it. -/
theorem pathStep_found (hcase : CaseFolding toLowercase) (hw : w.Serves tree) (ha : Answers w)
    {n : WorkflowyNode} (hne : label toLowercase n ≠ "") {s : PathState} {m : WorkflowyNode}
    (hfind : ((tree.children s.currentId).find? fun m =>
      stored toLowercase m = label toLowercase n) = some m) :
    ∃ s', pathStep toLowercase w (label toLowercase n) s = (none,s') ∧ s'.currentId = some m.id := by
  simp only [pathStep,needle_eq hcase,if_neg hne,listed_eq hw ha,matched_eq hcase,hfind]
  exact ⟨_,rfl,rfl⟩

theorem pathStep_missing (hcase : CaseFolding toLowercase) (hw : w.Serves tree) (ha : Answers w)
    {n : WorkflowyNode} (hne : label toLowercase n ≠ "") {s : PathState}
    (hfind : ((tree.children s.currentId).find? fun m =>
      stored toLowercase m = label toLowercase n) = none) :
    ∃ e s', pathStep toLowercase w (label toLowercase n) s = (some e,s') := by
  simp only [pathStep,needle_eq hcase,if_neg hne,listed_eq hw ha,matched_eq hcase,hfind]
  exact ⟨_,_,rfl⟩

/-- A walk goes down the tree, whatever it finds. -/
theorem pathLoop_descends (hcase : CaseFolding toLowercase) (hw : w.Serves tree) (ha : Answers w)
    {ns : List WorkflowyNode} (hne : ∀ n∈ns, label toLowercase n ≠ "") {s s' : PathState}
    (h : pathLoop toLowercase w (ns.map (label toLowercase)) s = (none,s')) :
    ∃ ms, Descends tree s.currentId ms ∧ ms.length = ns.length ∧
      s'.currentId = endOf s.currentId ms := by
  induction ns generalizing s with
  | nil =>
    obtain ⟨-,rfl⟩ := Prod.mk.inj h
    exact ⟨[],trivial,rfl,rfl⟩
  | cons n ns ih =>
    obtain ⟨hn,hns⟩ := List.forall_mem_cons.mp hne
    cases hfind : (tree.children s.currentId).find? fun m =>
        stored toLowercase m = label toLowercase n with
    | none =>
      obtain ⟨e,s1,hstep⟩ := pathStep_missing hcase hw ha hn hfind
      simp [pathLoop,hstep] at h
    | some m =>
      obtain ⟨s1,hstep,hid⟩ := pathStep_found hcase hw ha hn hfind
      simp only [List.map_cons,pathLoop,hstep] at h
      obtain ⟨ms,hdesc,hlen,hend⟩ := ih hns h
      obtain ⟨hm,hparent⟩ := Tree.mem_children.mp (List.mem_of_find?_eq_some hfind)
      rw [hid] at hdesc hend
      exact ⟨m::ms,⟨hm,hparent,hdesc⟩,by simp [hlen],hend⟩

/-- The labels of a descent lead to its end where each of its nodes is found by its label. -/
theorem pathLoop_iff (hcase : CaseFolding toLowercase) (hw : w.Serves tree) (ha : Answers w)
    (hlabels : Labelled toLowercase tree) {ns : List WorkflowyNode} {s : PathState}
    (hns : Descends tree s.currentId ns) :
    (∃ s', pathLoop toLowercase w (ns.map (label toLowercase)) s = (none,s') ∧
        s'.currentId = endOf s.currentId ns) ↔
      ∀ n∈ns, FoundByLabel toLowercase tree n := by
  induction ns generalizing s with
  | nil => simp [pathLoop,endOf]
  | cons n ns ih =>
    obtain ⟨hn,hparent,hrest⟩ := hns
    have hne := hlabels.nonempty n hn
    have hhere := find_iff hlabels hn
    rw [hparent] at hhere
    rw [List.forall_mem_cons,← hhere]
    cases hfind : (tree.children s.currentId).find? fun m =>
        stored toLowercase m = label toLowercase n with
    | none =>
      obtain ⟨e,s1,hstep⟩ := pathStep_missing hcase hw ha hne hfind
      simp [pathLoop,hstep]
    | some m =>
      obtain ⟨s1,hstep,hid⟩ := pathStep_found hcase hw ha hne hfind
      simp only [List.map_cons,pathLoop,hstep,endOf,Option.some.injEq]
      by_cases hm : m = n
      · subst hm
        rw [← hid] at hrest ⊢
        simpa using ih hrest
      · refine iff_of_false ?_ fun h => hm h.1
        -- from another child the walk cannot come back below this one
        rintro ⟨s',hloop,hend⟩
        have hnonempty : ∀ b∈ns, label toLowercase b ≠ "" := fun b hb =>
          hlabels.nonempty b (hrest.mem b hb)
        obtain ⟨ms,hdesc,hlen,hend'⟩ := pathLoop_descends hcase hw ha hnonempty hloop
        rw [hid] at hdesc hend'
        have hstart := hdesc.start_eq hrest hlen (hend'.symm.trans hend)
        obtain ⟨hmem,-⟩ := Tree.mem_children.mp (List.mem_of_find?_eq_some hfind)
        exact hm (Tree.eq_of_id hmem hn (Option.some.inj hstart))

/-- In a tree with distinct labels under each parent, the labels from the top level down to a
node lead to that node if and only if each node on the way is found by its label. -/
theorem labels_lead_iff (hcase : CaseFolding toLowercase) (hw : w.Serves tree) (ha : Answers w)
    (hlabels : Labelled toLowercase tree) (nameIndex : NameIndex) {above : List WorkflowyNode}
    {n : WorkflowyNode} (hpath : Descends tree none (above++[n])) :
    (∃ reply, (nodeAtPath toLowercase w ((above++[n]).map (label toLowercase)) none nameIndex).1 =
        .ok reply ∧ reply.id = n.id) ↔
      ∀ a∈above++[n], FoundByLabel toLowercase tree a := by
  have hne : (above++[n]).map (label toLowercase) ≠ [] := by simp
  rw [← pathLoop_iff hcase hw ha hlabels (s := { currentId := none, nameIndex }) hpath,
    nodeAtPath,if_neg hne]
  have hnonempty : ∀ a∈above++[n], label toLowercase a ≠ "" := fun a ha' =>
    hlabels.nonempty a (hpath.mem a ha')
  cases hloop : pathLoop toLowercase w ((above++[n]).map (label toLowercase))
      { currentId := none, nameIndex } with
  | mk failed s =>
    cases failed with
    | some e => simp
    | none =>
      obtain ⟨ms,-,hlen,hend⟩ := pathLoop_descends hcase hw ha hnonempty hloop
      obtain ⟨ms,x,rfl⟩ : ∃ ms' x, ms = ms'++[x] := by
        refine (List.eq_nil_or_concat' ms).resolve_left fun h => ?_
        simp [h] at hlen
      rw [endOf_concat] at hend
      simp [endOf_concat,hend]

end walk

theorem asciiLowercase_caseFolding : CaseFolding asciiLowercase :=
  ⟨trim_asciiLowercase,asciiLowercase_idem⟩

theorem answeringWalk_answers (tree : Tree) : Answers (answeringWalk tree) :=
  ⟨fun _ => ⟨_,rfl⟩,fun _ _ => ⟨_,rfl⟩⟩

/-- Two names with an entity, the one showing what the other stores. -/
def entityTree : Tree where
  nodes := [{ id := "x", name := "Q&amp;A" },{ id := "y", name := "Q&amp;amp;A" }]
  nodup := by decide
  rank _ := 0
  acyclic := by simp

/-- The label `q&a` is not found, and the label of the second node leads to the first. -/
theorem entity_label_lost :
    Labelled asciiLowercase entityTree ∧
    entityTree.nodes.map (label asciiLowercase) = ["q&a","q&amp;a"] ∧
    (nodeAtPath asciiLowercase (answeringWalk entityTree) ["q&a"] none {}).1 =
      .error (segmentNotFound "q&a" [] entityTree.nodes) ∧
    (nodeAtPath asciiLowercase (answeringWalk entityTree) ["q&amp;a"] none {}).1 =
      .ok { id := "x", name := "Q&amp;A", path := ["Q&amp;A"], apiCalls := 1, nodesIndexed := 2 } := by
  refine ⟨⟨?_,?_⟩,?_,?_,?_⟩
  · intro p
    cases p with
    | none => decide +kernel
    | some id => simp [Tree.children,entityTree,sortChildrenByPriority,sortByKey]
  · simp only [entityTree,List.forall_mem_cons]
    decide +kernel
  · decide +kernel
  · decide +kernel
  · decide +kernel

def areas : WorkflowyNode := { id := "a", name := "<b>Areas</b>" }

def home : WorkflowyNode := { id := "h", name := " <i>Home</i> base", parentId := some "a" }

/-- Names with tags, and a sibling with an entity. -/
def areasTree : Tree where
  nodes := [areas,{ id := "q", name := "Q&amp;A", parentId := some "a" },home]
  nodup := by decide
  rank id := if id = "a" then 0 else 1
  acyclic := by simp [areas,home]

theorem home_found : ∃ reply, (nodeAtPath asciiLowercase (answeringWalk areasTree)
    ["areas","home base"] none {}).1 = .ok reply ∧ reply.id = "h" := by
  have hlabelled : Labelled asciiLowercase areasTree := by
    constructor
    · intro p
      cases p with
      | none => decide +kernel
      | some id =>
        by_cases hid : id = "a"
        · subst hid
          decide +kernel
        · have hnone : areasTree.children (some id) = [] := by
            simp [Tree.children,areasTree,areas,home,sortChildrenByPriority,sortByKey,Ne.symm hid]
          simp [hnone]
    · simp only [areasTree,List.forall_mem_cons]
      decide +kernel
  have hpath : Descends areasTree none ([areas]++[home]) := by
    simp [Descends,areasTree,areas,home]
  have hfound : ∀ a∈[areas]++[home], FoundByLabel asciiLowercase areasTree a := by
    simp only [FoundByLabel,List.cons_append,List.nil_append,List.forall_mem_cons]
    decide +kernel
  have hlabels : ([areas]++[home]).map (label asciiLowercase) = ["areas","home base"] := by
    decide +kernel
  have hlead := (labels_lead_iff asciiLowercase_caseFolding (answeringWalk_serves areasTree)
    (answeringWalk_answers areasTree) hlabelled {} hpath).mpr hfound
  rw [hlabels] at hlead
  exact hlead

end WorkflowyMcp.NodeAtPath
