import WorkflowyMcp.Aggregation
import WorkflowyMcp.Lib.Partial
import WorkflowyMcp.Text

/-! Texts that are cut at a byte: the segments of a display path, an overlong response and the
descriptions in the replies of `search_nodes` and `find_node`. -/
namespace WorkflowyMcp

namespace NodePaths

/-- `is_char_boundary` -/
def IsCharBoundary (s : String) (n : Nat) : Prop :=
  ∃ u v, s.toList = u++v ∧ (String.ofList u).utf8ByteSize = n

/-- `&s[..n]`, which panics inside a character. -/
def sliceTo (s : String) (n : Nat) : Option String := (takeBytes n s.toList).map String.ofList

theorem takeBytes_eq_some {n : Nat} {cs u : List Char} :
    takeBytes n cs = some u ↔ u <+: cs ∧ (String.ofList u).utf8ByteSize = n := by
  rw [utf8ByteSize_ofList]
  induction cs generalizing n u with
  | nil =>
    cases n with
    | zero => simp +contextual [takeBytes,eq_comm]
    | succ n => simp +contextual [takeBytes]
  | cons c cs ih =>
    have hpos := c.utf8Size_pos
    cases n with
    | zero =>
      cases u with
      | nil => simp [takeBytes]
      | cons d u =>
        have hd := d.utf8Size_pos
        simp only [takeBytes,Option.some.injEq,reduceCtorEq,List.map_cons,List.sum_cons,false_iff]
        omega
    | succ n =>
      cases u with
      | nil => simp [takeBytes]
      | cons d u =>
        simp only [takeBytes,List.cons_prefix_cons,List.map_cons,List.sum_cons]
        constructor
        · intro h
          split at h
          · obtain ⟨w,hw,hcons⟩ := Option.map_eq_some_iff.mp h
            obtain ⟨rfl,rfl⟩ := List.cons_eq_cons.mp hcons
            obtain ⟨hpre,hsum⟩ := ih.mp hw
            exact ⟨⟨rfl,hpre⟩,by omega⟩
          · simp at h
        · rintro ⟨⟨rfl,hpre⟩,hsum⟩
          rw [if_pos (by omega),ih.mpr ⟨hpre,by omega⟩,Option.map_some]

theorem sliceTo_eq_some {s p : String} {n : Nat} :
    sliceTo s n = some p ↔ p.toList <+: s.toList ∧ p.utf8ByteSize = n := by
  rw [sliceTo,Option.map_eq_some_iff]
  constructor
  · rintro ⟨u,hu,rfl⟩
    simpa using takeBytes_eq_some.mp hu
  · intro h
    exact ⟨p.toList,takeBytes_eq_some.mpr (by simpa using h),String.ofList_toList⟩

theorem isSome_sliceTo {s : String} {n : Nat} : (sliceTo s n).isSome ↔ IsCharBoundary s n := by
  rw [Option.isSome_iff_exists]
  constructor
  · rintro ⟨p,hp⟩
    obtain ⟨⟨v,hv⟩,hsize⟩ := sliceTo_eq_some.mp hp
    exact ⟨p.toList,v,hv.symm,by simpa using hsize⟩
  · rintro ⟨u,v,huv,hsize⟩
    exact ⟨String.ofList u,sliceTo_eq_some.mpr ⟨by simp [huv],hsize⟩⟩

instance (s : String) (n : Nat) : Decidable (IsCharBoundary s n) :=
  decidable_of_iff _ isSome_sliceTo

/-- Within the limit a text is left alone; above it a start of it is followed by the marker. -/
def Shortened (limit : Nat) (marker s out : String) : Prop :=
  if s.utf8ByteSize ≤ limit then out = s
  else ∃ p : String, p.toList <+: s.toList ∧ p.utf8ByteSize ≤ limit ∧ out = p++marker

/-- A text above the limit has a character boundary at the cut. -/
def Cuttable (limit cut : Nat) (s : String) : Prop := limit < s.utf8ByteSize → IsCharBoundary s cut

instance (limit cut : Nat) (s : String) : Decidable (Cuttable limit cut s) :=
  inferInstanceAs (Decidable (_ → _))

/-- A text above the limit is cut at a byte. -/
def preview (limit cut : Nat) (s : String) : Option String :=
  if s.utf8ByteSize ≤ limit then some s else (sliceTo s cut).map (·++"...")

theorem truncateSegment_eq : truncateSegment = preview MAX_SEGMENT_LEN (MAX_SEGMENT_LEN-3) := by
  funext s
  simp [truncateSegment,preview,sliceTo,Function.comp_def]

theorem shortened_of_preview {limit cut : Nat} {s out : String} (hcut : cut ≤ limit)
    (h : preview limit cut s = some out) : Shortened limit "..." s out := by
  unfold preview at h
  unfold Shortened
  split <;> rename_i hlen
  · rw [if_pos hlen] at h
    exact (Option.some.inj h).symm
  · rw [if_neg hlen] at h
    obtain ⟨p,hp,rfl⟩ := Option.map_eq_some_iff.mp h
    obtain ⟨hpre,hsize⟩ := sliceTo_eq_some.mp hp
    exact ⟨p,hpre,hsize ▸ hcut,rfl⟩

theorem isSome_preview {limit cut : Nat} {s : String} :
    (preview limit cut s).isSome ↔ Cuttable limit cut s := by
  unfold preview Cuttable
  split <;> rename_i hlen
  · simp [Nat.not_lt.mpr hlen]
  · simp [← isSome_sliceTo,Nat.not_le.mp hlen]

section path
variable (nodeMap : String → Option WorkflowyNode)

/-- The nodes from a node up, each of them once. -/
def nodesUp : Nat → List String → Option String → List WorkflowyNode
  | _,_,none => []
  | 0,_,some _ => []
  | fuel+1,seen,some id =>
    if id∈seen then []
    else match nodeMap id with
      | none => []
      | some node => node::nodesUp fuel (id::seen) node.parentId

variable {nodeMap}

theorem segmentsUp_eq (segment : String → Option String) (fuel : Nat) (seen : List String)
    (id : Option String) : segmentsUp segment nodeMap fuel seen id =
      (nodesUp nodeMap fuel seen id).mapM fun node =>
        if node.name = "" then some "(untitled)" else segment node.name := by
  induction fuel generalizing seen id with
  | zero => cases id <;> simp [segmentsUp,nodesUp]
  | succ fuel ih =>
    cases id with
    | none => simp [segmentsUp,nodesUp]
    | some id =>
      simp only [segmentsUp,nodesUp]
      split
      · simp
      · cases nodeMap id with
        | none => simp
        | some node =>
          simp only [ih,List.mapM_cons]
          cases (if node.name = "" then some "(untitled)" else segment node.name) with
          | none => rfl
          | some name => exact Option.map_eq_bind

end path

/-- The node and those above it, as far as the walk goes. -/
def chain (nodes : List WorkflowyNode) (id : String) : List WorkflowyNode :=
  nodesUp (buildNodeMap nodes) (nodes.length+1) [] (some id)

/-- Among the ids that are left are those of the nodes still to come, so the walk ends before its
fuel does. -/
theorem nodesUp_fuel {nodes : List WorkflowyNode} {fuel : Nat} {seen : List String}
    {id : Option String}
    (h : ((nodes.map WorkflowyNode.id).filter (·∉seen)).length < fuel) :
    nodesUp (buildNodeMap nodes) (fuel+1) seen id = nodesUp (buildNodeMap nodes) fuel seen id := by
  induction fuel generalizing seen id with
  | zero => omega
  | succ fuel ih =>
    cases id with
    | none => simp [nodesUp]
    | some id =>
      rw [nodesUp,nodesUp]
      split
      · rfl
      · rename_i hid
        cases hn : buildNodeMap nodes id with
        | none => rfl
        | some node =>
          have hmem : id∈(nodes.map WorkflowyNode.id).filter (·∉seen) := by
            have hfound : node.id = id := by simpa using List.find?_some hn
            have hnode := List.mem_reverse.mp (List.mem_of_find?_eq_some hn)
            exact List.mem_filter.mpr ⟨hfound ▸ List.mem_map_of_mem hnode,by simpa using hid⟩
          have hless : ((nodes.map WorkflowyNode.id).filter (·∉id::seen)).length <
              ((nodes.map WorkflowyNode.id).filter (·∉seen)).length := by
            have hsplit : (nodes.map WorkflowyNode.id).filter (·∉id::seen) =
                ((nodes.map WorkflowyNode.id).filter (·∉seen)).filter (·≠id) := by
              rw [List.filter_filter]
              exact List.filter_congr fun x _ => by simp
            rw [hsplit]
            exact List.length_filter_lt_length_iff_exists.mpr ⟨id,hmem,by simp⟩
          exact congrArg (node::·) (ih (by omega))

/-- With any more fuel the walk is the same. -/
theorem nodesUp_eq_chain (nodes : List WorkflowyNode) (id : String) (more : Nat) :
    nodesUp (buildNodeMap nodes) (nodes.length+1+more) [] (some id) = chain nodes id := by
  induction more with
  | zero => rfl
  | succ more ih =>
    rw [← ih]
    have hle := List.length_filter_le (·∉[]) (nodes.map WorkflowyNode.id)
    rw [List.length_map] at hle
    have hlt : nodes.length < nodes.length+1+more := by omega
    exact nodesUp_fuel (Nat.lt_of_le_of_lt hle hlt)

theorem path_fuel (nodes : List WorkflowyNode) (id : String) (more : Nat) :
    pathWith truncateSegment (buildNodeMap nodes) (nodes.length+1+more) id =
      buildNodePathWithMap id nodes := by
  rw [buildNodePathWithMap,pathWith,pathWith,segmentsUp_eq,segmentsUp_eq,nodesUp_eq_chain]
  rfl

/-- What stands for a node in its path. -/
def segment (node : WorkflowyNode) : Option String :=
  if node.name = "" then some "(untitled)" else truncateSegment node.name

def SegmentOf (node : WorkflowyNode) (out : String) : Prop :=
  if node.name = "" then out = "(untitled)" else Shortened MAX_SEGMENT_LEN "..." node.name out

/-- The name is short or has a character boundary where a segment is cut. -/
abbrev CuttableName (node : WorkflowyNode) : Prop :=
  Cuttable MAX_SEGMENT_LEN (MAX_SEGMENT_LEN-3) node.name

theorem isSome_segment {node : WorkflowyNode} : (segment node).isSome ↔ CuttableName node := by
  unfold segment
  split <;> rename_i hname
  · simp [CuttableName,Cuttable,hname]
  · rw [truncateSegment_eq,isSome_preview]

theorem segmentOf_of_segment {node : WorkflowyNode} {out : String} (h : segment node = some out) :
    SegmentOf node out := by
  unfold segment at h
  unfold SegmentOf
  split <;> rename_i hname
  · rw [if_pos hname] at h
    exact (Option.some.inj h).symm
  · rw [if_neg hname,truncateSegment_eq] at h
    exact shortened_of_preview (by decide) h

theorem buildNodePathWithMap_eq (nodes : List WorkflowyNode) (id : String) :
    buildNodePathWithMap id nodes =
      ((chain nodes id).mapM segment).map fun names => " > ".intercalate names.reverse := by
  rw [buildNodePathWithMap,pathWith,segmentsUp_eq]
  rfl

/-- A path shows the nodes up to the root if the names among them that are cut are cut at a
boundary, and there is none otherwise. -/
theorem path_iff (nodes : List WorkflowyNode) (id : String) :
    (∃ names, buildNodePathWithMap id nodes = some (" > ".intercalate names.reverse) ∧
      List.Forall₂ SegmentOf (chain nodes id) names) ↔ ∀ n∈chain nodes id, CuttableName n := by
  simp only [← isSome_segment]
  rw [← isSome_mapM,Option.isSome_iff_exists,buildNodePathWithMap_eq]
  constructor
  · rintro ⟨names,hpath,-⟩
    obtain ⟨names,h,-⟩ := Option.map_eq_some_iff.mp hpath
    exact ⟨names,h⟩
  · rintro ⟨names,h⟩
    exact ⟨names,by rw [h,Option.map_some],
      (mapM_eq_some_iff.mp h).imp fun _ _ hseg => segmentOf_of_segment hseg⟩

end NodePaths

open NodePaths

theorem Aggregation.pathed_iff {nodes : List WorkflowyNode} {n : WorkflowyNode} :
    Aggregation.Pathed nodes n ↔ ∀ m∈chain nodes n.id, CuttableName m := by
  rw [Aggregation.Pathed,buildNodePathWithMap_eq,Option.isSome_map,isSome_mapM]
  simp only [isSome_segment]

namespace Validation

def MAX_RESPONSE_SIZE : Nat := 50000

/-- `rfind`: the byte where the last occurrence of the character starts. -/
def rfind (c : Char) : List Char → Option Nat
  | [] => none
  | d::ds =>
    match rfind c ds with
    | some n => some (d.utf8Size+n)
    | none => if d = c then some 0 else none

def suffix : Option Nat → String
  | some total => "\n\n... (response truncated at "++toString (MAX_RESPONSE_SIZE/1000)++"KB, "++
      toString total++" total items — use offset/max_results to paginate)"
  | none => "\n\n... (response truncated at "++toString (MAX_RESPONSE_SIZE/1000)++"KB)"

/-- The cut is at the end of a line if there is one, but the end is looked for in a slice. -/
def truncateResponse (text : String) (totalCount : Option Nat) : Option String :=
  if text.utf8ByteSize ≤ MAX_RESPONSE_SIZE then some text
  else (sliceTo text MAX_RESPONSE_SIZE).bind fun head =>
    (sliceTo text ((rfind '\n' head.toList).getD MAX_RESPONSE_SIZE)).map (·++suffix totalCount)

theorem rfind_split {c : Char} {cs : List Char} {n : Nat} (h : rfind c cs = some n) :
    ∃ u v, cs = u++c::v ∧ (String.ofList u).utf8ByteSize = n := by
  induction cs generalizing n with
  | nil => simp [rfind] at h
  | cons d ds ih =>
    rw [rfind] at h
    cases hr : rfind c ds with
    | some k =>
      obtain ⟨u,v,rfl,hsize⟩ := ih hr
      simp only [hr,Option.some.injEq] at h
      refine ⟨d::u,v,rfl,?_⟩
      rw [utf8ByteSize_ofList] at hsize ⊢
      rw [List.map_cons,List.sum_cons,hsize,h]
    | none =>
      simp only [hr] at h
      split at h
      · rename_i hd
        exact ⟨[],ds,by rw [hd]; rfl,by simpa using h⟩
      · simp at h

/-- Any end of a line in the slice is a boundary of the text. -/
theorem truncateAt_boundary {text head : String} (h : sliceTo text MAX_RESPONSE_SIZE = some head) :
    ∃ p, sliceTo text ((rfind '\n' head.toList).getD MAX_RESPONSE_SIZE) = some p ∧
      p.utf8ByteSize ≤ MAX_RESPONSE_SIZE := by
  cases hr : rfind '\n' head.toList with
  | none => exact ⟨head,h,(sliceTo_eq_some.mp h).2.le⟩
  | some n =>
    obtain ⟨hpre,hsize⟩ := sliceTo_eq_some.mp h
    obtain ⟨u,v,huv,hn⟩ := rfind_split hr
    refine ⟨String.ofList u,sliceTo_eq_some.mpr ⟨?_,hn⟩,?_⟩
    · rw [String.toList_ofList]
      exact List.IsPrefix.trans ⟨_,huv.symm⟩ hpre
    · have hhead : (String.ofList head.toList).utf8ByteSize = MAX_RESPONSE_SIZE := by
        simpa using hsize
      rw [huv,utf8ByteSize_ofList,List.map_append,List.sum_append] at hhead
      rw [utf8ByteSize_ofList]
      omega

theorem truncateResponse_iff (text : String) (totalCount : Option Nat) :
    (∃ out, truncateResponse text totalCount = some out ∧
      Shortened MAX_RESPONSE_SIZE (suffix totalCount) text out) ↔
      Cuttable MAX_RESPONSE_SIZE MAX_RESPONSE_SIZE text := by
  unfold truncateResponse Shortened Cuttable
  split <;> rename_i hlen
  · simp [Nat.not_lt.mpr hlen]
  · rw [← isSome_sliceTo,Option.isSome_iff_exists]
    constructor
    · rintro ⟨out,h,-⟩ -
      obtain ⟨head,hhead,-⟩ := Option.bind_eq_some_iff.mp h
      exact ⟨head,hhead⟩
    · intro h
      obtain ⟨head,hhead⟩ := h (Nat.not_le.mp hlen)
      obtain ⟨p,hp,hsize⟩ := truncateAt_boundary hhead
      exact ⟨p++suffix totalCount,by rw [hhead,Option.bind_some,hp,Option.map_some],p,
        (sliceTo_eq_some.mp hp).1,hsize,rfl⟩

end Validation
open Validation

namespace Previews
open Aggregation Html

section replies
variable (toLowercase : String → String) (isWord : Char → Bool)

/-- The query stands in the name or in the description. -/
def searchMatches (query : String) (n : WorkflowyNode) : Bool :=
  containsLowered toLowercase n.name (toLowercase query) ||
    n.description.any (containsLowered toLowercase · (toLowercase query))

def searchResults (nodes : List WorkflowyNode) (query : String) (maxResults : Option Nat) :
    List WorkflowyNode :=
  (nodes.filter (searchMatches toLowercase query)).take (maxResults.getD 20)

def searchLine (n : WorkflowyNode) (descPreview : String) : String :=
  "- **"++n.name++"** (id: \x60"++n.id++"\x60)\n  "++descPreview

def searchText (query : String) (items : List String) : String :=
  "Found "++toString items.length++" node(s) matching '"++query++"':\n\n"++"\n".intercalate items

/-- The body of the reply of `search_nodes`, from the nodes of the walk. -/
def searchBody (nodes : List WorkflowyNode) (query : String) (maxResults : Option Nat) :
    Option String :=
  let results := searchResults toLowercase nodes query maxResults
  if results.isEmpty then some ("No nodes found matching '"++query++"'")
  else (results.mapM fun n => (preview 100 100 (n.description.getD "")).map (searchLine n)).map
    (searchText query)

structure FindOption where
  option : Nat
  name : String
  id : String
  path : String
  notePreview : Option String
deriving DecidableEq, Repr

def notePreview : Option String → Option (Option String)
  | none => some none
  | some d => (preview 60 60 d).map some

/-- What `find_node` lists where several nodes match. -/
def findOptions (nodes found : List WorkflowyNode) : Option (List FindOption) :=
  found.zipIdx.mapM fun (n,i) =>
    (buildNodePathWithMap n.id nodes).bind fun path =>
      (notePreview n.description).map fun notePreview =>
        { option := i+1, name := renderDisplay isWord n.name, id := n.id, path, notePreview }

end replies

/-- The line of a node, with its description whole or shortened. -/
def LineOf (n : WorkflowyNode) (line : String) : Prop :=
  ∃ p, Shortened 100 "..." (n.description.getD "") p ∧ line = searchLine n p

/-- The entry of the node at an index, with its path and its note whole or shortened. -/
structure OptionOf (isWord : Char → Bool) (nodes : List WorkflowyNode) (x : WorkflowyNode × Nat)
    (o : FindOption) : Prop where
  option : o.option = x.2+1
  name : o.name = renderDisplay isWord x.1.name
  id : o.id = x.1.id
  path : ∃ names, o.path = " > ".intercalate names.reverse ∧
    List.Forall₂ SegmentOf (chain nodes x.1.id) names
  notePreview : Option.Rel (Shortened 60 "...") x.1.description o.notePreview

section replies
variable {toLowercase : String → String} {isWord : Char → Bool} {nodes found : List WorkflowyNode}

theorem searchBody_iff (query : String) (maxResults : Option Nat) :
    let results := searchResults toLowercase nodes query maxResults
    (∃ body lines, searchBody toLowercase nodes query maxResults = some body ∧
      (results≠[] → body = searchText query lines) ∧ List.Forall₂ LineOf results lines) ↔
    ∀ n∈results, Cuttable 100 100 (n.description.getD "") := by
  intro results
  have hsome : (results.mapM fun n =>
      (preview 100 100 (n.description.getD "")).map (searchLine n)).isSome ↔
      ∀ n∈results, Cuttable 100 100 (n.description.getD "") := by
    simp [isSome_mapM,isSome_preview]
  rw [← hsome,Option.isSome_iff_exists]
  have hbody : searchBody toLowercase nodes query maxResults = if results.isEmpty then
      some ("No nodes found matching '"++query++"'") else (results.mapM fun n =>
        (preview 100 100 (n.description.getD "")).map (searchLine n)).map (searchText query) := rfl
  rw [hbody]
  cases hr : results with
  | nil => simp
  | cons n rest =>
    rw [List.isEmpty_cons,if_neg (by simp)]
    constructor
    · rintro ⟨body,-,h,-,-⟩
      obtain ⟨lines,h,-⟩ := Option.map_eq_some_iff.mp h
      exact ⟨lines,h⟩
    · rintro ⟨lines,h⟩
      refine ⟨_,lines,by rw [h,Option.map_some],fun _ => rfl,?_⟩
      refine (mapM_eq_some_iff.mp h).imp fun n line hline => ?_
      obtain ⟨p,hp,rfl⟩ := Option.map_eq_some_iff.mp hline
      exact ⟨p,shortened_of_preview (by decide) hp,rfl⟩

theorem isSome_notePreview {d : Option String} :
    (notePreview d).isSome ↔ ∀ text∈d, Cuttable 60 60 text := by
  cases d <;> simp [notePreview,isSome_preview]

theorem rel_of_notePreview {d out : Option String} (h : notePreview d = some out) :
    Option.Rel (Shortened 60 "...") d out := by
  cases d with
  | none =>
    obtain rfl : none = out := Option.some.inj h
    exact .none
  | some d =>
    obtain ⟨p,hp,rfl⟩ := Option.map_eq_some_iff.mp h
    exact .some (shortened_of_preview (by decide) hp)

theorem isSome_findOptions : (findOptions isWord nodes found).isSome ↔
    ∀ n∈found, (∀ m∈chain nodes n.id, CuttableName m) ∧
      ∀ text∈n.description, Cuttable 60 60 text := by
  rw [← List.zipIdx_map_fst 0 found,List.forall_mem_map,List.zipIdx_map_fst,findOptions,
    isSome_mapM]
  refine forall₂_congr fun x _ => ?_
  rw [← isSome_notePreview,← pathed_iff,Pathed]
  cases hpath : buildNodePathWithMap x.1.id nodes <;> simp [hpath]

theorem ids_findOptions {options : List FindOption}
    (h : findOptions isWord nodes found = some options) :
    options.map FindOption.id = found.map WorkflowyNode.id := by
  refine map_of_zipIdx_mapM h fun n i o ho => ?_
  obtain ⟨path,-,ho⟩ := Option.bind_eq_some_iff.mp ho
  obtain ⟨note,-,rfl⟩ := Option.map_eq_some_iff.mp ho
  rfl

theorem findOptions_iff :
    (∃ options, findOptions isWord nodes found = some options ∧
      List.Forall₂ (OptionOf isWord nodes) found.zipIdx options) ↔
    ∀ n∈found, (∀ m∈chain nodes n.id, CuttableName m) ∧
      ∀ text∈n.description, Cuttable 60 60 text := by
  rw [← isSome_findOptions,Option.isSome_iff_exists]
  constructor
  · rintro ⟨options,h,-⟩
    exact ⟨options,h⟩
  · rintro ⟨options,h⟩
    refine ⟨options,h,(mapM_eq_some_iff.mp h).imp fun x o ho => ?_⟩
    obtain ⟨path,hpath,ho⟩ := Option.bind_eq_some_iff.mp ho
    obtain ⟨note,hnote,rfl⟩ := Option.map_eq_some_iff.mp ho
    refine ⟨rfl,rfl,rfl,?_,rel_of_notePreview hnote⟩
    obtain ⟨names,hnames,hseg⟩ := (path_iff nodes x.1.id).mpr
      (pathed_iff.mp (show Pathed nodes x.1 by simp [Pathed,hpath]))
    exact ⟨names,Option.some.inj (hpath.symm.trans hnames),hseg⟩

end replies

/-- Each text that is cut at a byte comes out as a start of it and the marker if there is a
character boundary at that byte, and panics otherwise. -/
theorem previews_iff (toLowercase : String → String) (isWord : Char → Bool)
    (nodes found : List WorkflowyNode) (id text query : String) (totalCount maxResults : Option Nat) :
    ((∃ names, (∀ more, pathWith truncateSegment (buildNodeMap nodes) (nodes.length+1+more) id =
          some (" > ".intercalate names.reverse)) ∧
        buildNodePathWithMap id nodes = some (" > ".intercalate names.reverse) ∧
        List.Forall₂ SegmentOf (chain nodes id) names) ↔
      ∀ n∈chain nodes id, CuttableName n) ∧
    ((∃ out, truncateResponse text totalCount = some out ∧
        Shortened MAX_RESPONSE_SIZE (suffix totalCount) text out) ↔
      Cuttable MAX_RESPONSE_SIZE MAX_RESPONSE_SIZE text) ∧
    (let results := searchResults toLowercase nodes query maxResults;
      (∃ body lines, searchBody toLowercase nodes query maxResults = some body ∧
        (results≠[] → body = searchText query lines) ∧ List.Forall₂ LineOf results lines) ↔
      ∀ n∈results, Cuttable 100 100 (n.description.getD "")) ∧
    ((∃ options, findOptions isWord nodes found = some options ∧
        List.Forall₂ (OptionOf isWord nodes) found.zipIdx options) ↔
      ∀ n∈found, (∀ m∈chain nodes n.id, CuttableName m) ∧
        ∀ text∈n.description, Cuttable 60 60 text) := by
  refine ⟨?_,truncateResponse_iff text totalCount,searchBody_iff query maxResults,findOptions_iff⟩
  rw [← path_iff]
  exact exists_congr fun names => ⟨fun h => h.2,fun h => ⟨fun more => (path_fuel ..).trans h.1,h⟩⟩

/-- An accented letter starts at the byte. -/
def accented (n : Nat) : String := String.ofList (List.replicate n 'a'++"ébcd".toList)

theorem size_accented (n : Nat) : (accented n).utf8ByteSize = n+5 := by
  have hrest : ("ébcd".toList.map Char.utf8Size).sum = 5 := by decide
  have ha : Char.utf8Size 'a' = 1 := by decide
  rw [accented,utf8ByteSize_ofList,List.map_append,List.sum_append,hrest,List.map_replicate,ha]
  simp

/-- The letter takes two bytes, so no slice ends behind the first of them. -/
theorem sliceTo_accented (n : Nat) : sliceTo (accented n) (n+1) = none := by
  have htake : takeBytes (n+1) (List.replicate n 'a'++"ébcd".toList) = none := by
    induction n with
    | zero => decide
    | succ n ih =>
      have ha : Char.utf8Size 'a' = 1 := by decide
      rw [List.replicate_succ,List.cons_append,takeBytes,if_pos (by omega),ha,Nat.add_sub_cancel,ih,
        Option.map_none]
  rw [sliceTo,accented,String.toList_ofList,htake,Option.map_none]

/-- At each of the four cuts an accented letter may be in the way. -/
theorem accented_panics :
    buildNodePathWithMap "n" [{ id := "n", name := accented 36 }] = none ∧
      truncateResponse (accented 49999) none = none ∧
      searchBody asciiLowercase [{ id := "n", name := "a", description := some (accented 99) }] "a"
        none = none ∧
      (let found : List WorkflowyNode :=
        [{ id := "m", name := "a" },{ id := "n", name := "a", description := some (accented 59) }];
      findOptions asciiWord found found = none) ∧
      ¬CuttableName { name := accented 36 } ∧ ¬Cuttable 50000 50000 (accented 49999) := by
  refine ⟨by decide +kernel,?_,by decide +kernel,by decide +kernel,by decide +kernel,?_⟩
  · have hlen : ¬(accented 49999).utf8ByteSize ≤ MAX_RESPONSE_SIZE := by
      rw [size_accented]
      decide
    have hcut : sliceTo (accented 49999) MAX_RESPONSE_SIZE = none := sliceTo_accented 49999
    rw [truncateResponse,if_neg hlen,hcut,Option.bind_none]
  · intro h
    have hcut := isSome_sliceTo.mpr (h (by rw [size_accented]; omega))
    simp [sliceTo_accented 49999] at hcut

end Previews
end WorkflowyMcp
