import WorkflowyMcp.Aggregation
import WorkflowyMcp.Audit
import WorkflowyMcp.IndexResolve
import WorkflowyMcp.ScopedSearch

/-! `find_backlinks`: the nodes that link to a node, from the name index and from a walk. -/
namespace WorkflowyMcp
open SubtreeWalk

inductive LinkIn where
  | name
  | note
  | both
deriving DecidableEq, Repr

structure Backlink where
  id : String
  name : String
  path : String
  linkIn : LinkIn
deriving DecidableEq, Repr

/-- All but the path, which the index writes out and the walk shortens. -/
def Backlink.listed (b : Backlink) : String × String × LinkIn := (b.id,b.name,b.linkIn)

structure FindBacklinksParams where
  nodeId : String
  limit : Option Nat := none
  maxDepth : Option Nat := none
  parentId : Option String := none
  useIndex : Option Bool := none
deriving DecidableEq, Repr

structure BacklinksReply where
  targetName : String
  backlinks : List Backlink
deriving DecidableEq, Repr

namespace Backlinks

/-- Ids are ASCII, so the cut is between characters. -/
def shortHash (uuid : String) : String :=
  if 12 ≤ uuid.length then String.ofList (uuid.toList.drop (uuid.length-12)) else uuid

section handler
variable (toLowercase : String → String) (isWord : Char → Bool)

def fieldLinks (uuid text : String) : Bool :=
  Audit.contains text ("https://workflowy.com/#/"++uuid) ||
    Aggregation.containsLowered toLowercase text (toLowercase (shortHash uuid))

def nodeLinksTo (node : WorkflowyNode) (targetUuid : String) : Bool :=
  let uuid := trim targetUuid
  if uuid = "" then false
  else fieldLinks toLowercase uuid node.name ||
    node.description.any (fieldLinks toLowercase uuid)

def linkIn : Bool → Bool → LinkIn
  | true,true => .both
  | true,false => .name
  | _,_ => .note

def indexedLink (idx : NameIndex) (target : String) (e : NameIndexEntry) : Backlink :=
  let inName := nodeLinksTo toLowercase { name := e.name } target
  let inDesc := nodeLinksTo toLowercase { name := "", description := e.description } target
  { id := e.nodeId
    name := Html.renderDisplay isWord e.name
    path := " > ".intercalate (idx.pathOf e.nodeId)
    linkIn := linkIn inName inDesc }

/-- Where a walked node links to the target. The description is looked at alone, where there is
one. -/
def walkedLink (target : String) (node : WorkflowyNode) : Option LinkIn :=
  let inName := nodeLinksTo toLowercase { name := node.name } target
  let inDesc := node.description.any fun d =>
    nodeLinksTo toLowercase { name := "", description := some d } target
  if node.id = target then none
  else if inName || inDesc then some (linkIn inName inDesc)
  else none

def walkedHits (target : String) (nodes : List WorkflowyNode) : List (WorkflowyNode × LinkIn) :=
  nodes.filterMap fun n => (walkedLink toLowercase target n).map fun linkIn => (n,linkIn)

/-- The hits with their paths, one of which may be cut inside a character. -/
def walkedBacklinks (nodes : List WorkflowyNode) (hits : List (WorkflowyNode × LinkIn)) :
    Option (List Backlink) :=
  hits.mapM fun (n,linkIn) => (NodePaths.buildNodePathWithMap n.id nodes).map fun path =>
    { id := n.id, name := Html.renderDisplay isWord n.name, path, linkIn }

/-- The entries that link to the target, below the scope if there is one. -/
def linking (idx : NameIndex) (target : String) (scope : Option String) : List NameIndexEntry :=
  let hits := idx.entries.filter fun e => e.nodeId ≠ target && nodeLinksTo toLowercase e.probe target
  match scope with
  | some scope => hits.filter fun e => idx.isDescendantOf e.nodeId scope
  | none => hits

def needsIndex : String :=
  "find_backlinks use_index=true requires the persistent name index to be populated. Run "++
    "\x60build_name_index(parent_id=...)\x60 (or the scheduled \x60wflow-do reindex\x60) first, "++
    "or omit use_index for a live walk."

/- The walk looks at its limit only behind a match, so that it lists one where none is asked for.
   Without a reply the tool has panicked. -/
def findBacklinks (s : Server) (w : WalkEnv) (p : FindBacklinksParams) :
    Option (Handled BacklinksReply) :=
  let limit := p.limit.getD 50
  if p.useIndex.getD false then
    if !s.nameIndex.isPopulated then
      some (.error (.toolInvalidParams "find_backlinks" (some p.nodeId) needsIndex),s)
    else
      let found := (linking toLowercase s.nameIndex p.nodeId p.parentId).take limit
      let targetName := ((s.nameIndex.lookupEntryById p.nodeId).map (·.name)).getD "unknown"
      some (.ok ⟨targetName,found.map (indexedLink toLowercase isWord s.nameIndex p.nodeId)⟩,s)
  else
    match s.walkSubtree toLowercase w p.parentId (p.maxDepth.getD 3) with
    | (.error e,s) => some (.error (.toolError "find_backlinks" (some p.nodeId) e.display),s)
    | (.ok fetch,s) =>
      let targetName :=
        ((NodePaths.buildNodeMap fetch.nodes p.nodeId).map (·.name)).getD "unknown"
      let hits := (walkedHits toLowercase p.nodeId fetch.nodes).take (max limit 1)
      (walkedBacklinks isWord fetch.nodes hits).map fun backlinks =>
        (.ok ⟨targetName,backlinks⟩,s)

end handler

section agree
variable {toLowercase : String → String} {isWord : Char → Bool} {idx : NameIndex} {tree : Tree}
  {parent target : String}

/-- The index holds the nodes in and below the parent as they are, and has nothing else below it. -/
structure Mirrors (idx : NameIndex) (tree : Tree) (parent : String) : Prop where
  current : ∀ n, tree.Within parent n → ∃ e, idx.lookupEntryById n.id = some e ∧
    e.name = n.name ∧ e.parentId = n.parentId ∧ e.description = n.description
  below : ∀ e∈idx.entries, idx.isDescendantOf e.nodeId parent →
    ∃ k n, tree.AtDepth (some parent) k n ∧ n.id = e.nodeId

theorem Mirrors.holds (h : Mirrors idx tree parent) {n : WorkflowyNode}
    (hn : tree.Within parent n) : idx.Current n := by
  obtain ⟨e,he,hname,hparent,-⟩ := h.current n hn
  exact ⟨e,he,hname,hparent⟩

/-- An empty text links to nothing. -/
theorem fieldLinks_empty (hlower : ∀ text, toLowercase text = "" ↔ text = "") {uuid : String}
    (huuid : uuid≠"") : fieldLinks toLowercase uuid "" = false := by
  have hshort : shortHash uuid≠"" := by
    unfold shortHash
    split
    · rename_i hlen
      intro h
      have hdrop := congrArg String.length h
      simp only [String.length_ofList,List.length_drop,String.length_toList,String.length_empty]
        at hdrop
      omega
    · exact huuid
  have hlowered : toLowercase (shortHash uuid)≠"" := fun h => hshort ((hlower _).mp h)
  have hblank : toLowercase "" = "" := (hlower "").mpr rfl
  simp [fieldLinks,Audit.contains,Aggregation.containsLowered,hblank,hlowered]

/-- Asked for its two fields alone, a node links where one of them does. -/
theorem nodeLinksTo_fields (hlower : ∀ text, toLowercase text = "" ↔ text = "") (name : String)
    (description : Option String) (target : String) :
    nodeLinksTo toLowercase { name := "", description } target =
        description.any (fun d => nodeLinksTo toLowercase { name := "", description := some d } target) ∧
      nodeLinksTo toLowercase { name, description } target =
        (nodeLinksTo toLowercase { name } target ||
          nodeLinksTo toLowercase { name := "", description } target) := by
  by_cases huuid : trim target = ""
  · simp [nodeLinksTo,huuid]
  · cases description <;> simp [nodeLinksTo,huuid,fieldLinks_empty hlower huuid]

/-- A node and its entry link alike. -/
theorem walkedLink_eq (hlower : ∀ text, toLowercase text = "" ↔ text = "") {n : WorkflowyNode}
    {e : NameIndexEntry} (hid : e.nodeId = n.id) (hname : e.name = n.name)
    (hdesc : e.description = n.description) :
    walkedLink toLowercase target n =
      if n.id≠target ∧ nodeLinksTo toLowercase e.probe target then
        some (indexedLink toLowercase isWord idx target e).linkIn else none := by
  obtain ⟨hany,hor⟩ := nodeLinksTo_fields hlower n.name n.description target
  have hprobe : nodeLinksTo toLowercase e.probe target =
      (nodeLinksTo toLowercase { name := n.name } target ||
        nodeLinksTo toLowercase { name := "", description := n.description } target) := by
    rw [← hor,NameIndexEntry.probe,hname,hdesc]
  unfold walkedLink
  dsimp only
  rw [hprobe,← hany]
  by_cases ht : n.id = target
  · simp [ht]
  · simp [ht,indexedLink,hid,hname,hdesc]

theorem mem_linking {e : NameIndexEntry} :
    e∈linking toLowercase idx target (some parent) ↔ e∈idx.entries ∧ e.nodeId≠target ∧
      nodeLinksTo toLowercase e.probe target ∧ idx.isDescendantOf e.nodeId parent := by
  simp only [linking,List.mem_filter,Bool.and_eq_true,decide_eq_true_eq,and_assoc]

theorem mem_walkedHits {nodes : List WorkflowyNode} {x : WorkflowyNode × LinkIn} :
    x∈walkedHits toLowercase target nodes ↔
      x.1∈nodes ∧ walkedLink toLowercase target x.1 = some x.2 := by
  simp only [walkedHits,List.mem_filterMap,Option.map_eq_some_iff]
  constructor
  · rintro ⟨n,hn,l,hl,rfl⟩
    exact ⟨hn,hl⟩
  · rintro ⟨hn,hl⟩
    exact ⟨x.1,hn,x.2,hl,rfl⟩

/-- Neither path has to drop a link. -/
def Fits (toLowercase : String → String) (idx : NameIndex) (w : WalkEnv) (parent : String)
    (p : FindBacklinksParams) : Prop :=
  (linking toLowercase idx p.nodeId (some parent)).length ≤ p.limit.getD 50 ∧
  ∀ fetch, getSubtreeWithControls w (some parent) (p.maxDepth.getD 3) DeepCopy.MAX_SUBTREE_NODES =
    .ok fetch → (walkedHits toLowercase p.nodeId fetch.nodes).length ≤ p.limit.getD 50

/-- In and below the parent, each name on the way up from a node that links to the target can be
cut. -/
def Displays (toLowercase : String → String) (tree : Tree) (parent target : String) : Prop :=
  ∀ n, tree.Within parent n → (walkedLink toLowercase target n).isSome →
    ∀ m, tree.WayUp parent n m → NodePaths.CuttableName m

variable {w : WalkEnv} {p : FindBacklinksParams} {s : Server}

theorem backlinks_indexed (hpop : s.nameIndex.isPopulated) (hp : p.parentId = some parent)
    (hfits : Fits toLowercase s.nameIndex w parent p) :
    findBacklinks toLowercase isWord s w { p with useIndex := some true } =
      some (.ok ⟨((s.nameIndex.lookupEntryById p.nodeId).map (·.name)).getD "unknown",
        (linking toLowercase s.nameIndex p.nodeId (some parent)).map
          (indexedLink toLowercase isWord s.nameIndex p.nodeId)⟩,s) := by
  simp [findBacklinks,hpop,hp,List.take_of_length_le hfits.1]

theorem backlinks_walked (hp : p.parentId = some parent)
    (hfits : Fits toLowercase s.nameIndex w parent p) {fetch : SubtreeFetch}
    (hf : getSubtreeWithControls w (some parent) (p.maxDepth.getD 3) DeepCopy.MAX_SUBTREE_NODES =
      .ok fetch) :
    (findBacklinks toLowercase isWord s w { p with useIndex := none }).map Prod.fst =
      (walkedBacklinks isWord fetch.nodes (walkedHits toLowercase p.nodeId fetch.nodes)).map
        fun backlinks => .ok ⟨((NodePaths.buildNodeMap fetch.nodes p.nodeId).map (·.name)).getD
          "unknown",backlinks⟩ := by
  have hle := (hfits.2 fetch hf).trans (Nat.le_max_left (p.limit.getD 50) 1)
  simp only [findBacklinks,Server.walkSubtree,hp,hf,Option.getD_none,Bool.false_eq_true,if_false,
    List.take_of_length_le hle,Option.map_map,Function.comp_def]

/-- The hits are listed if their paths are shown, and else there is no reply. -/
theorem isSome_walkedBacklinks {nodes : List WorkflowyNode} (hnodes : Subtree tree parent nodes) :
    (walkedBacklinks isWord nodes (walkedHits toLowercase target nodes)).isSome ↔
      Displays toLowercase tree parent target := by
  simp only [walkedBacklinks,isSome_mapM,Option.isSome_map,mem_walkedHits,hnodes.mem]
  constructor
  · intro h n hn hlink
    obtain ⟨l,hl⟩ := Option.isSome_iff_exists.mp hlink
    exact (hnodes.path_isSome hn).mp (h (n,l) ⟨hn,hl⟩)
  · rintro h ⟨n,l⟩ ⟨hn,hl⟩
    exact (hnodes.path_isSome hn).mpr (h n hn (Option.isSome_of_eq_some hl))

theorem listed_walkedBacklinks {nodes : List WorkflowyNode}
    {hits : List (WorkflowyNode × LinkIn)} {backlinks : List Backlink}
    (h : walkedBacklinks isWord nodes hits = some backlinks) :
    backlinks.map Backlink.listed =
      hits.map fun x => (x.1.id,Html.renderDisplay isWord x.1.name,x.2) := by
  refine map_of_mapM h fun x b hb => ?_
  obtain ⟨path,-,rfl⟩ := Option.map_eq_some_iff.mp hb
  rfl

/-- What the index lists below the parent is what the walk lists, but for the parent itself and the
nodes that lie deeper than the climb goes. -/
theorem listed_iff (hlower : ∀ text, toLowercase text = "" ↔ text = "")
    (hwf : idx.Wf toLowercase) (hmirror : Mirrors idx tree parent) {nodes : List WorkflowyNode}
    (hnodes : ∀ n, n∈nodes ↔ tree.Within parent n) (x : String × String × LinkIn) :
    x∈(linking toLowercase idx target (some parent)).map
        (fun e => (indexedLink toLowercase isWord idx target e).listed) ↔
      x∈(walkedHits toLowercase target nodes).map
          (fun y => (y.1.id,Html.renderDisplay isWord y.1.name,y.2)) ∧
        ∃ k < 33, ∃ n, tree.AtDepth (some parent) k n ∧ n.id = x.1 := by
  have hentry {n : WorkflowyNode} (hn : tree.Within parent n) : ∃ e∈idx.entries,
      e.nodeId = n.id ∧ e.name = n.name ∧ walkedLink toLowercase target n =
        if n.id≠target ∧ nodeLinksTo toLowercase e.probe target then
          some (indexedLink toLowercase isWord idx target e).linkIn else none := by
    obtain ⟨e,he,hname,-,hdesc⟩ := hmirror.current n hn
    obtain ⟨hmem,hid⟩ := (NameIndex.lookup_eq_some hwf).mp he
    exact ⟨e,hmem,hid,hname,walkedLink_eq hlower hid hname hdesc⟩
  simp only [List.mem_map,mem_linking,mem_walkedHits,hnodes]
  constructor
  · rintro ⟨e,⟨he,hne,hlinks,hdesc⟩,rfl⟩
    obtain ⟨k,n,hdepth,hid⟩ := hmirror.below e he hdesc
    have hn : tree.Within parent n := .inr ⟨k,hdepth⟩
    obtain ⟨f,hf,hfid,hname,hwalked⟩ := hentry hn
    obtain rfl := hwf.unique hf he (hfid.trans hid)
    have hk := (NameIndex.isDescendantOf_depth (fun m hm => hmirror.holds hm) hdepth).mp
      (hid.symm ▸ hdesc)
    refine ⟨⟨(n,_),⟨hn,hwalked.trans (if_pos ⟨?_,hlinks⟩)⟩,?_⟩,k,hk,n,hdepth,hid⟩
    · show (n.id,Html.renderDisplay isWord n.name,_) = (f.nodeId,Html.renderDisplay isWord f.name,_)
      rw [hname,hid]
    · show n.id≠target
      rwa [hid]
  · rintro ⟨⟨⟨n,l⟩,⟨hn,hlink⟩,rfl⟩,k,hk,m,hdepth,hmid⟩
    obtain ⟨e,he,hid,hname,hwalked⟩ := hentry hn
    rw [hwalked] at hlink
    obtain ⟨⟨hne,hlinks⟩,hl⟩ := Option.ite_none_right_eq_some.mp hlink
    obtain rfl : _ = l := Option.some.inj hl
    have hdesc := (NameIndex.isDescendantOf_depth (fun m hm => hmirror.holds hm) hdepth).mpr hk
    have hmid : m.id = e.nodeId := hmid.trans hid.symm
    refine ⟨e,⟨he,hid.symm ▸ hne,hlinks,hmid ▸ hdesc⟩,?_⟩
    show (e.nodeId,Html.renderDisplay isWord e.name,_) = (n.id,Html.renderDisplay isWord n.name,_)
    rw [hname,hid]

/-- Of a node in or below the parent both paths know the name. -/
theorem targetName_eq (hmirror : Mirrors idx tree parent) {nodes : List WorkflowyNode}
    (hnodes : Subtree tree parent nodes) {n : WorkflowyNode}
    (hn : tree.Within parent n) (hid : n.id = target) :
    (idx.lookupEntryById target).map (·.name) =
      (NodePaths.buildNodeMap nodes target).map (·.name) := by
  obtain ⟨e,he,hname,-⟩ := hmirror.current n hn
  rw [hnodes.nodeMap.mpr ⟨hn,hid⟩,← hid,he]
  exact congrArg some hname

end agree

/-- For an index that mirrors the subtree and a walk that covers it, the indexed path of
`find_backlinks` answers, and the walked one if and only if the paths of what it lists can be
shown. The indexed one then lists the links the walked one lists, but for those of the parent
itself and of the nodes deeper than the climb goes. -/
theorem paths_agree (toLowercase : String → String)
    (hlower : ∀ text, toLowercase text = "" ↔ text = "") (isWord : Char → Bool)
    (cache : NodeCache) (calls : List NameIndex.IndexOp) {w : WalkEnv} {tree : Tree}
    (hw : w.Serves tree) {parent : String}
    (hmirror : Mirrors (Server.after toLowercase cache calls).nameIndex tree parent)
    {p : FindBacklinksParams} (hp : p.parentId = some parent)
    (hcov : Covers w tree parent (p.maxDepth.getD 3))
    (hfits : Fits toLowercase (Server.after toLowercase cache calls).nameIndex w parent p) :
    let s := Server.after toLowercase cache calls
    let walked := (findBacklinks toLowercase isWord s w { p with useIndex := none }).map Prod.fst
    ∃ indexed, (findBacklinks toLowercase isWord s w { p with useIndex := some true }).map Prod.fst =
        some (.ok indexed) ∧
      (walked.isSome ↔ Displays toLowercase tree parent p.nodeId) ∧
      ∀ r, walked = some r → ∃ reply, r = .ok reply ∧
        (∀ x, x∈indexed.backlinks.map Backlink.listed ↔ x∈reply.backlinks.map Backlink.listed ∧
          ∃ k < 33, ∃ n, tree.AtDepth (some parent) k n ∧ n.id = x.1) ∧
        ∀ n, tree.Within parent n → n.id = p.nodeId → indexed.targetName = reply.targetName := by
  have hwf := Server.wf_after toLowercase cache calls
  have hpop := isPopulated_of_covers hwf hw (fun n hn => hmirror.holds hn) hcov
  obtain ⟨fetch,hf,-,hnodes⟩ := hcov.spec hw
  intro s walked
  have hwalked : walked = _ := backlinks_walked hp hfits hf
  refine ⟨_,congrArg (Option.map Prod.fst) (backlinks_indexed hpop hp hfits),?_,fun r hr => ?_⟩
  · rw [hwalked,Option.isSome_map]
    exact isSome_walkedBacklinks hnodes
  · rw [hwalked] at hr
    obtain ⟨backlinks,hlinks,rfl⟩ := Option.map_eq_some_iff.mp hr
    refine ⟨_,rfl,fun x => ?_,fun n hn hid => ?_⟩
    · rw [listed_walkedBacklinks hlinks,List.map_map]
      exact listed_iff hlower hwf hmirror hnodes.mem x
    · exact congrArg (·.getD "unknown") (targetName_eq hmirror hnodes hn hid)

/-- A plan whose draft names a node by its short hash, as the plan itself does, and whose notes
hold its link. -/
def linkTree : Tree where
  nodes := [{ id := "p", name := "Plan (a1b2c3d4e5f6)" },
    { id := "a", name := "Draft (A1B2C3D4E5F6)", parentId := some "p" },
    { id := "b", name := "Notes", parentId := some "a",
      description := some "https://workflowy.com/#/a1b2c3d4e5f6" }]
  nodup := by simp
  rank id := if id = "p" then 0 else if id = "a" then 1 else 2
  acyclic := by simp

def linkServer : Server := Server.after asciiLowercase {} [.ingest linkTree.nodes]

theorem link_mirrors : Mirrors linkServer.nameIndex linkTree "p" where
  current n hn := by
    have hall : (linkTree.nodes.all fun n => (linkServer.nameIndex.lookupEntryById n.id).any
        fun e => e.name = n.name && (e.parentId = n.parentId && e.description = n.description))
          = true := by decide +kernel
    obtain ⟨e,he,hsame⟩ := (Option.any_eq_true _ _).mp (List.all_eq_true.mp hall n hn.mem)
    simp only [Bool.and_eq_true,decide_eq_true_eq] at hsame
    exact ⟨e,he,hsame⟩
  below e he hdesc := by
    have hall : (linkServer.nameIndex.entries.all fun e =>
        !linkServer.nameIndex.isDescendantOf e.nodeId "p" || e.nodeId = "a" || e.nodeId = "b")
          = true := by decide +kernel
    have hab := List.all_eq_true.mp hall e he
    simp only [hdesc,Bool.not_true,Bool.false_or,Bool.or_eq_true,decide_eq_true_eq] at hab
    rcases hab with hid | hid
    · exact ⟨0,linkTree.nodes[1],⟨by simp,rfl⟩,hid.symm⟩
    · exact ⟨1,linkTree.nodes[2],⟨by simp,linkTree.nodes[1],⟨by simp,rfl⟩,rfl⟩,hid.symm⟩

theorem link_fits : Fits asciiLowercase linkServer.nameIndex (DeepCopy.smoothWalk linkTree) "p"
    { nodeId := "a1b2c3d4e5f6", parentId := some "p" } := by
  refine ⟨by decide +kernel,fun fetch hf => ?_⟩
  have hf : getSubtreeWithControls (DeepCopy.smoothWalk linkTree) (some "p") 3
    DeepCopy.MAX_SUBTREE_NODES = .ok fetch := hf
  have hrun : ((getSubtreeWithControls (DeepCopy.smoothWalk linkTree) (some "p") 3
      DeepCopy.MAX_SUBTREE_NODES).toOption.all fun fetch => decide ((walkedHits asciiLowercase
        "a1b2c3d4e5f6" fetch.nodes).length ≤ 50)) = true := by
    decide +kernel
  simpa [hf,Except.toOption] using hrun

/-- Of the plan's three links the index lists the two below it. -/
theorem links_below_plan :
    let w := DeepCopy.smoothWalk linkTree
    let p : FindBacklinksParams := { nodeId := "a1b2c3d4e5f6", parentId := some "p" }
    let indexed := (findBacklinks asciiLowercase Char.isAlphanum linkServer w
      { p with useIndex := some true }).map Prod.fst
    let walked := (findBacklinks asciiLowercase Char.isAlphanum linkServer w p).map Prod.fst
    ((indexed.bind Except.toOption).map fun r => r.backlinks.map (·.id)) = some ["b","a"] ∧
    ((walked.bind Except.toOption).map fun r => r.backlinks.map (·.id)) = some ["p","a","b"] ∧
    ∃ i r, indexed = some (.ok i) ∧ walked = some (.ok r) ∧
      ∀ x, x∈i.backlinks.map Backlink.listed ↔ x∈r.backlinks.map Backlink.listed ∧
        ∃ k < 33, ∃ n, linkTree.AtDepth (some "p") k n ∧ n.id = x.1 := by
  intro w p indexed walked
  have hids : ((walked.bind Except.toOption).map fun r => r.backlinks.map (·.id)) =
    some ["p","a","b"] := by decide +kernel
  refine ⟨by decide +kernel,hids,?_⟩
  obtain ⟨i,hi,-,hsame⟩ := paths_agree asciiLowercase (by simp [asciiLowercase])
    Char.isAlphanum {} [.ingest linkTree.nodes] (DeepCopy.smoothWalk_serves linkTree) link_mirrors
    (p := p) rfl (covers_of_all rfl rfl (by decide +kernel)) link_fits
  cases hw : walked with
  | none => simp [hw] at hids
  | some r =>
    obtain ⟨reply,rfl,hlisted,-⟩ := hsame r hw
    exact ⟨i,reply,hi,rfl,hlisted⟩

end Backlinks
end WorkflowyMcp
