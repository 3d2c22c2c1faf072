import WorkflowyMcp.Html
import WorkflowyMcp.NodeAtPath
import WorkflowyMcp.TagParser

/-! Display paths and the search for a tag below a path, against the paths that are not
truncated. -/
namespace WorkflowyMcp

namespace NodePaths

def MAX_SEGMENT_LEN : Nat := 40

/-- The first bytes of a text; none where they end inside a character. -/
def takeBytes : Nat → List Char → Option (List Char)
  | 0,_ => some []
  | _+1,[] => none
  | n+1,c::cs => if c.utf8Size ≤ n+1 then (takeBytes (n+1-c.utf8Size) cs).map (c::·) else none

/-- Slicing inside a character panics. -/
def truncateSegment (s : String) : Option String :=
  if s.utf8ByteSize ≤ MAX_SEGMENT_LEN then some s
  else (takeBytes (MAX_SEGMENT_LEN-3) s.toList).map fun cs => String.ofList cs ++ "..."

/-- A later node of the same id wins. -/
def buildNodeMap (nodes : List WorkflowyNode) (id : String) : Option WorkflowyNode :=
  nodes.reverse.find? fun n => n.id = id

section path
variable (segment : String → Option String) (nodeMap : String → Option WorkflowyNode)

/- The segments from a node up. `segment` is what is made of a name; `seen` ends a cycle. -/
def segmentsUp : Nat → List String → Option String → Option (List String)
  | _,_,none => some []
  | 0,_,some _ => some []
  | fuel+1,seen,some id =>
    if id∈seen then some []
    else match nodeMap id with
      | none => some []
      | some node =>
        (if node.name = "" then some "(untitled)" else segment node.name).bind fun name =>
          (segmentsUp fuel (id::seen) node.parentId).map (name::·)

def pathWith (fuel : Nat) (id : String) : Option String :=
  (segmentsUp segment nodeMap fuel [] (some id)).map fun names => " > ".intercalate names.reverse

end path

/-- The display path; each node of the map is visited once at most. -/
def buildNodePathWithMap (id : String) (nodes : List WorkflowyNode) : Option String :=
  pathWith truncateSegment (buildNodeMap nodes) (nodes.length+1) id

end NodePaths

open NodePaths TagParser Html

section search
variable (toLowercase : String → String) (isWord : Char → Bool)

structure FindByTagAndPathParams where
  tag : String
  pathPrefix : String
  limit : Option Nat := none

structure TagPathHit where
  id : String
  name : String
  path : String
deriving DecidableEq, Repr

/- The loop over the nodes of the walk. The limit is looked at behind each hit. -/
def tagPathLoop (nodes : List WorkflowyNode) (tag prefixLower : String) (limit : Nat) :
    List TagPathHit → List WorkflowyNode → Option (List TagPathHit)
  | hits,[] => some hits
  | hits,node::rest =>
    if !nodeHasTag toLowercase isWord node tag then
      tagPathLoop nodes tag prefixLower limit hits rest
    else match buildNodePathWithMap node.id nodes with
      | none => none
      | some path =>
        if ¬prefixLower.toList <:+: (toLowercase path).toList then
          tagPathLoop nodes tag prefixLower limit hits rest
        else
          let hits := hits++[{ id := node.id, name := renderDisplay isWord node.name, path }]
          if limit ≤ hits.length then some hits
          else tagPathLoop nodes tag prefixLower limit hits rest

/-- The hits among the nodes of the walk, if no path panics. -/
def findByTagAndPath (nodes : List WorkflowyNode) (p : FindByTagAndPathParams) :
    Option (List TagPathHit) :=
  tagPathLoop toLowercase isWord nodes p.tag (toLowercase p.pathPrefix)
    (p.limit.getD 50) [] nodes

/-- The path with its names whole. -/
def fullPath (nodes : List WorkflowyNode) (id : String) : String :=
  (pathWith some (buildNodeMap nodes) (nodes.length+1) id).getD ""

/-- The nodes that are asked for. -/
def wanted (nodes : List WorkflowyNode) (p : FindByTagAndPathParams) (n : WorkflowyNode) : Bool :=
  nodeHasTag toLowercase isWord n p.tag &&
    decide ((toLowercase p.pathPrefix).toList <+: (toLowercase (fullPath nodes n.id)).toList)

/-- The first of them are returned, in the order of the walk. -/
def FindsWanted (nodes : List WorkflowyNode) (p : FindByTagAndPathParams) : Prop :=
  ∃ hits, findByTagAndPath toLowercase isWord nodes p = some hits ∧
    hits.map TagPathHit.id =
      ((nodes.filter (wanted toLowercase isWord nodes p)).take (p.limit.getD 50)).map WorkflowyNode.id

/-- The display path contains the text if and only if the full path starts with it. -/
def PathsAgree (nodes : List WorkflowyNode) (pathPrefix : String) (n : WorkflowyNode) : Prop :=
  ∃ path, buildNodePathWithMap n.id nodes = some path ∧
    ((toLowercase pathPrefix).toList <:+: (toLowercase path).toList ↔
      (toLowercase pathPrefix).toList <+: (toLowercase (fullPath nodes n.id)).toList)

/-- The paths agree for the tagged nodes, up to the last one that is asked for. -/
def AgreeUpTo (nodes : List WorkflowyNode) (p : FindByTagAndPathParams) (limit : Nat)
    (rest : List WorkflowyNode) : Prop :=
  ∀ u n v, rest = u++n::v → (u.filter (wanted toLowercase isWord nodes p)).length < limit →
    nodeHasTag toLowercase isWord n p.tag = true → PathsAgree toLowercase nodes p.pathPrefix n

end search

section loop
variable {toLowercase : String → String} {isWord : Char → Bool}
variable {nodes : List WorkflowyNode} {p : FindByTagAndPathParams}

theorem agreeUpTo_cons {limit : Nat} (hlimit : 0 < limit) {n : WorkflowyNode}
    {rest : List WorkflowyNode} : AgreeUpTo toLowercase isWord nodes p limit (n::rest) ↔
      (nodeHasTag toLowercase isWord n p.tag = true → PathsAgree toLowercase nodes p.pathPrefix n) ∧
      AgreeUpTo toLowercase isWord nodes p
        (if wanted toLowercase isWord nodes p n then limit-1 else limit) rest := by
  constructor
  · refine fun h => ⟨h [] n rest rfl hlimit,fun u m v huv hu => h (n::u) m v (by rw [huv]; rfl) ?_⟩
    rw [List.filter_cons]
    split <;> rename_i hn
    · rw [if_pos hn] at hu
      simp only [List.length_cons]
      omega
    · rwa [if_neg hn] at hu
  · rintro ⟨hn,hrest⟩ u m v huv hu
    cases u with
    | nil =>
      obtain ⟨rfl,rfl⟩ := List.cons_eq_cons.mp huv
      exact hn
    | cons a u =>
      obtain ⟨rfl,hrest'⟩ := List.cons_eq_cons.mp huv
      refine hrest u m v hrest' ?_
      rw [List.filter_cons] at hu
      split <;> rename_i hn'
      · rw [if_pos hn'] at hu
        simp only [List.length_cons] at hu
        omega
      · rwa [if_neg hn'] at hu

/-- The hits go on from those there are, with nodes that were still to come. -/
theorem tagPathLoop_extends {tag prefixLower : String} {limit : Nat} {rest : List WorkflowyNode}
    {hits out : List TagPathHit}
    (h : tagPathLoop toLowercase isWord nodes tag prefixLower limit hits rest = some out) :
    ∃ new, out = hits++new ∧ new.map TagPathHit.id ⊆ rest.map WorkflowyNode.id := by
  induction rest generalizing hits with
  | nil => exact ⟨[],by simpa [tagPathLoop] using h.symm,by simp⟩
  | cons n rest ih =>
    have hskip (hnext : tagPathLoop toLowercase isWord nodes tag prefixLower limit
        hits rest = some out) :
        ∃ new, out = hits++new ∧ new.map TagPathHit.id ⊆ (n::rest).map WorkflowyNode.id := by
      obtain ⟨new,hnew,hids⟩ := ih hnext
      exact ⟨new,hnew,fun x hx => List.mem_cons_of_mem _ (hids hx)⟩
    simp only [tagPathLoop] at h
    split at h
    · exact hskip h
    · split at h
      · cases h
      · split at h
        · exact hskip h
        · rename_i path _ _
          split at h
          · refine ⟨[⟨n.id,renderDisplay isWord n.name,path⟩],(Option.some.inj h).symm,by simp⟩
          · obtain ⟨new,hnew,hids⟩ := ih h
            refine ⟨⟨n.id,renderDisplay isWord n.name,path⟩::new,by simp [hnew],fun x hx => ?_⟩
            rcases List.mem_cons.mp hx with rfl | hx
            · exact List.mem_cons_self
            · exact List.mem_cons_of_mem _ (hids hx)

section step
variable {n : WorkflowyNode} {rest : List WorkflowyNode} {limit : Nat} {hits : List TagPathHit}
variable {path : String}

theorem tagPathLoop_untagged (h : nodeHasTag toLowercase isWord n p.tag = false) :
    tagPathLoop toLowercase isWord nodes p.tag (toLowercase p.pathPrefix) limit hits
        (n::rest) =
      tagPathLoop toLowercase isWord nodes p.tag (toLowercase p.pathPrefix) limit hits
        rest := by
  simp [tagPathLoop,h]

theorem tagPathLoop_panic (h : nodeHasTag toLowercase isWord n p.tag = true)
    (hpath : buildNodePathWithMap n.id nodes = none) :
    tagPathLoop toLowercase isWord nodes p.tag (toLowercase p.pathPrefix) limit hits
      (n::rest) = none := by
  simp [tagPathLoop,h,hpath]

theorem tagPathLoop_elsewhere (h : nodeHasTag toLowercase isWord n p.tag = true)
    (hpath : buildNodePathWithMap n.id nodes = some path)
    (hnone : ¬(toLowercase p.pathPrefix).toList <:+: (toLowercase path).toList) :
    tagPathLoop toLowercase isWord nodes p.tag (toLowercase p.pathPrefix) limit hits
        (n::rest) =
      tagPathLoop toLowercase isWord nodes p.tag (toLowercase p.pathPrefix) limit hits
        rest := by
  simp [tagPathLoop,h,hpath,hnone]

theorem tagPathLoop_hit (h : nodeHasTag toLowercase isWord n p.tag = true)
    (hpath : buildNodePathWithMap n.id nodes = some path)
    (hin : (toLowercase p.pathPrefix).toList <:+: (toLowercase path).toList) :
    tagPathLoop toLowercase isWord nodes p.tag (toLowercase p.pathPrefix) limit hits
        (n::rest) =
      if limit ≤ hits.length+1 then some (hits++[⟨n.id,renderDisplay isWord n.name,path⟩])
      else tagPathLoop toLowercase isWord nodes p.tag (toLowercase p.pathPrefix) limit
        (hits++[⟨n.id,renderDisplay isWord n.name,path⟩]) rest := by
  simp [tagPathLoop,h,hpath,hin]

end step

variable (toLowercase isWord nodes p) in
/-- The loop finds what is asked for as long as the paths agree. -/
theorem tagPathLoop_iff {limit : Nat} {rest : List WorkflowyNode}
    (hnodup : (rest.map WorkflowyNode.id).Nodup) (hits : List TagPathHit)
    (hlt : hits.length < limit) :
    (∃ out, tagPathLoop toLowercase isWord nodes p.tag (toLowercase p.pathPrefix)
        limit hits rest = some out ∧ out.map TagPathHit.id = hits.map TagPathHit.id++
          ((rest.filter (wanted toLowercase isWord nodes p)).take (limit-hits.length)).map
            WorkflowyNode.id) ↔
      AgreeUpTo toLowercase isWord nodes p (limit-hits.length) rest := by
  induction rest generalizing hits with
  | nil => simp [tagPathLoop,AgreeUpTo]
  | cons n rest ih =>
    obtain ⟨hnew,hrest⟩ := List.nodup_cons.mp hnodup
    rw [agreeUpTo_cons (by omega)]
    cases htag : nodeHasTag toLowercase isWord n p.tag with
    | false =>
      have hwanted : wanted toLowercase isWord nodes p n = false := by simp [wanted,htag]
      rw [tagPathLoop_untagged htag,List.filter_cons_of_neg (by simp [hwanted])]
      simpa [hwanted] using ih hrest hits hlt
    | true =>
      cases hpath : buildNodePathWithMap n.id nodes with
      | none => simp [tagPathLoop_panic htag hpath,PathsAgree,hpath]
      | some path =>
        have hwanted : wanted toLowercase isWord nodes p n =
            decide ((toLowercase p.pathPrefix).toList <+: (toLowercase (fullPath nodes n.id)).toList) := by
          simp [wanted,htag]
        have hagree : PathsAgree toLowercase nodes p.pathPrefix n ↔
            ((toLowercase p.pathPrefix).toList <:+: (toLowercase path).toList ↔
              (toLowercase p.pathPrefix).toList <+: (toLowercase (fullPath nodes n.id)).toList) := by
          simp [PathsAgree,hpath]
        rw [hagree]
        obtain ⟨k,hk⟩ : ∃ k, limit-hits.length = k+1 := ⟨limit-hits.length-1,by omega⟩
        by_cases hstart :
            (toLowercase p.pathPrefix).toList <+: (toLowercase (fullPath nodes n.id)).toList
        · have hyes : wanted toLowercase isWord nodes p n = true := by simp [hwanted,hstart]
          rw [List.filter_cons_of_pos hyes,if_pos hyes,hk,List.take_succ_cons]
          by_cases hin : (toLowercase p.pathPrefix).toList <:+: (toLowercase path).toList
          · rw [tagPathLoop_hit htag hpath hin]
            simp only [hin,hstart,imp_self,true_and,Nat.add_sub_cancel]
            split
            · obtain rfl : k = 0 := by omega
              simp [AgreeUpTo]
            · have hnext := ih hrest (hits++[⟨n.id,renderDisplay isWord n.name,path⟩])
                (by simp only [List.length_append,List.length_singleton]; omega)
              have hleft : limit-(hits.length+1) = k := by omega
              rw [List.length_append,List.length_singleton,hleft] at hnext
              simpa using hnext
          · -- the node is left out, and no other has its id
            refine iff_of_false ?_ fun h => hin ((h.1 rfl).mpr hstart)
            rintro ⟨out,hout,hids⟩
            rw [tagPathLoop_elsewhere htag hpath hin] at hout
            obtain ⟨new,rfl,hsub⟩ := tagPathLoop_extends hout
            rw [List.map_append,List.append_cancel_left_eq] at hids
            exact hnew (hsub (hids ▸ List.mem_cons_self))
        · have hno : wanted toLowercase isWord nodes p n = false := by simp [hwanted,hstart]
          rw [List.filter_cons_of_neg (by simp [hno])]
          by_cases hin : (toLowercase p.pathPrefix).toList <:+: (toLowercase path).toList
          · -- the node is returned, and no other has its id
            refine iff_of_false ?_ fun h => hstart ((h.1 rfl).mp hin)
            rintro ⟨out,hout,hids⟩
            obtain ⟨new,rfl⟩ : ∃ new, out = hits++⟨n.id,renderDisplay isWord n.name,path⟩::new := by
              rw [tagPathLoop_hit htag hpath hin] at hout
              split at hout
              · exact ⟨[],(Option.some.inj hout).symm⟩
              · obtain ⟨new,hout,-⟩ := tagPathLoop_extends hout
                exact ⟨new,by simp [hout]⟩
            rw [List.map_append,List.append_cancel_left_eq] at hids
            have hmem : n.id∈((rest.filter (wanted toLowercase isWord nodes p)).take
                (limit-hits.length)).map WorkflowyNode.id := hids ▸ List.mem_cons_self
            obtain ⟨m,hm,hid⟩ := List.mem_map.mp hmem
            exact hnew (hid ▸ List.mem_map_of_mem (List.mem_of_mem_filter (List.mem_of_mem_take hm)))
          · rw [tagPathLoop_elsewhere htag hpath hin]
            simpa [hno,hin,hstart] using ih hrest hits hlt

/-- With the limit 0 the loop still returns the first hit it comes to. -/
theorem tagPathLoop_zero_iff (rest : List WorkflowyNode) :
    (∃ out, tagPathLoop toLowercase isWord nodes p.tag (toLowercase p.pathPrefix)
        0 [] rest = some out ∧ out.map TagPathHit.id = []) ↔
      ∀ n∈rest, nodeHasTag toLowercase isWord n p.tag = true →
        ∃ path, buildNodePathWithMap n.id nodes = some path ∧
          ¬(toLowercase p.pathPrefix).toList <:+: (toLowercase path).toList := by
  induction rest with
  | nil => simp [tagPathLoop]
  | cons n rest ih =>
    rw [List.forall_mem_cons]
    cases htag : nodeHasTag toLowercase isWord n p.tag with
    | false => simpa [tagPathLoop_untagged htag] using ih
    | true =>
      cases hpath : buildNodePathWithMap n.id nodes with
      | none => simp [tagPathLoop_panic htag hpath]
      | some path =>
        by_cases hin : (toLowercase p.pathPrefix).toList <:+: (toLowercase path).toList
        · simp [tagPathLoop_hit htag hpath hin,hin]
        · rw [tagPathLoop_elsewhere htag hpath hin]
          simpa [hin] using ih

theorem findsWanted_iff (hnodup : (nodes.map WorkflowyNode.id).Nodup) :
    FindsWanted toLowercase isWord nodes p ↔
      (p.limit.getD 50 = 0 → ∀ n∈nodes, nodeHasTag toLowercase isWord n p.tag = true →
        ∃ path, buildNodePathWithMap n.id nodes = some path ∧
          ¬(toLowercase p.pathPrefix).toList <:+: (toLowercase path).toList) ∧
      (0 < p.limit.getD 50 → AgreeUpTo toLowercase isWord nodes p (p.limit.getD 50) nodes) := by
  rw [FindsWanted,findByTagAndPath]
  generalize p.limit.getD 50 = limit
  rcases Nat.eq_zero_or_pos limit with rfl | hpos
  · simpa using tagPathLoop_zero_iff nodes
  · have hne : limit≠0 := by omega
    have hloop := tagPathLoop_iff toLowercase isWord nodes p hnodup [] hpos
    simpa [hne,hpos] using hloop

end loop

section lineage
open NodeAtPath SubtreeWalk
variable {tree : Tree} {q : Option String}

def titled (n : WorkflowyNode) : String := if n.name = "" then "(untitled)" else n.name

/-- The nodes from the first ancestor that is in the forest down to the node. -/
def Lineage (tree : Tree) (above : List WorkflowyNode) (n : WorkflowyNode) : Prop :=
  ∃ q, Descends tree q (above++[n]) ∧ ∀ id∈q, ∀ m∈tree.nodes, m.id≠id

theorem buildNodeMap_mem {n : WorkflowyNode} (hn : n∈tree.nodes) :
    buildNodeMap tree.nodes n.id = some n := by
  cases hf : buildNodeMap tree.nodes n.id with
  | none =>
    have hnone := List.find?_eq_none.mp hf n (List.mem_reverse.mpr hn)
    simp at hnone
  | some m =>
    have hm : m∈tree.nodes := List.mem_reverse.mp (List.mem_of_find?_eq_some hf)
    have hid : m.id = n.id := by simpa using List.find?_some hf
    rw [Tree.eq_of_id hm hn hid]

theorem descends_rank {x : String} {ns : List WorkflowyNode} (h : Descends tree (some x) ns) :
    ∀ n∈ns, tree.rank x < tree.rank n.id := by
  induction ns generalizing x with
  | nil => simp
  | cons n ns ih =>
    obtain ⟨hn,hparent,hrest⟩ := h
    have hhere := tree.acyclic n hn x hparent
    exact List.forall_mem_cons.mpr ⟨hhere,fun m hm => hhere.trans (ih hrest m hm)⟩

theorem descends_nodup {ns : List WorkflowyNode} (h : Descends tree q ns) :
    (ns.map WorkflowyNode.id).Nodup := by
  induction ns generalizing q with
  | nil => simp
  | cons n ns ih =>
    obtain ⟨-,-,hrest⟩ := h
    refine List.nodup_cons.mpr ⟨fun hmem => ?_,ih hrest⟩
    obtain ⟨m,hm,hid⟩ := List.mem_map.mp hmem
    have hlt := descends_rank hrest m hm
    rw [hid] at hlt
    omega

theorem descends_length_le {ns : List WorkflowyNode} (h : Descends tree q ns) :
    ns.length ≤ tree.nodes.length :=
  (List.subperm_of_subset (descends_nodup h).of_map h.mem).length_le

/-- The walk up the parents collects the titles of a descent. -/
theorem segmentsUp_descends {ns : List WorkflowyNode} (h : Descends tree q ns)
    (hq : ∀ id∈q, ∀ m∈tree.nodes, m.id≠id) (fuel : Nat) (hfuel : ns.length < fuel)
    (seen : List String) (hseen : ∀ n∈ns, n.id∉seen) :
    segmentsUp some (buildNodeMap tree.nodes) fuel seen (endOf q ns) =
      some (ns.reverse.map titled) := by
  induction ns using List.reverseRecOn generalizing fuel seen with
  | nil =>
    cases q with
    | none => simp [segmentsUp,endOf]
    | some id =>
      have hnone : buildNodeMap tree.nodes id = none :=
        List.find?_eq_none.mpr fun m hm => by simpa using hq id rfl m (List.mem_reverse.mp hm)
      obtain ⟨fuel,rfl⟩ : ∃ k, fuel = k+1 := ⟨fuel-1,by omega⟩
      simp [segmentsUp,endOf,hnone]
  | append_singleton ns n ih =>
    obtain ⟨fuel,rfl⟩ : ∃ k, fuel = k+1 := ⟨fuel-1,by omega⟩
    have hnodup := descends_nodup h
    obtain ⟨hns,hn,hparent⟩ := descends_concat.mp h
    have hfresh : n.id∉seen := hseen n (by simp)
    have hrest : ∀ m∈ns, m.id∉n.id::seen := by
      intro m hm hmem
      rcases List.mem_cons.mp hmem with hid | hmem
      · rw [List.map_append,List.nodup_append] at hnodup
        exact hnodup.2.2 m.id (List.mem_map_of_mem hm) n.id (by simp) hid
      · exact hseen m (by simp [hm]) hmem
    have hup := ih hns fuel (by simpa using hfuel) (n.id::seen) hrest
    rw [endOf_concat]
    simp only [segmentsUp,if_neg hfresh,buildNodeMap_mem hn,hparent,hup]
    by_cases hname : n.name = "" <;> simp [titled,hname]

/-- The full path joins the titles of the lineage. -/
theorem fullPath_eq {above : List WorkflowyNode} {n : WorkflowyNode} (h : Lineage tree above n) :
    fullPath tree.nodes n.id = " > ".intercalate ((above++[n]).map titled) := by
  obtain ⟨q,hd,hq⟩ := h
  have hup := segmentsUp_descends hd hq _ (Nat.lt_succ_of_le (descends_length_le hd)) [] (by simp)
  rw [endOf_concat] at hup
  simp [fullPath,pathWith,hup]

theorem exists_lineage {n : WorkflowyNode} (hn : n∈tree.nodes) :
    ∃ above, Lineage tree above n := by
  induction hrank : tree.rank n.id using Nat.strong_induction_on generalizing n with
  | h r ih =>
    by_cases hp : ∃ m∈tree.nodes, n.parentId = some m.id
    · obtain ⟨m,hm,hparent⟩ := hp
      obtain ⟨above,q,hd,hq⟩ := ih (tree.rank m.id) (hrank ▸ tree.acyclic n hn m.id hparent) hm rfl
      refine ⟨above++[m],q,descends_concat.mpr ⟨hd,hn,?_⟩,hq⟩
      rw [endOf_concat,hparent]
    · refine ⟨[],n.parentId,⟨hn,rfl,trivial⟩,fun id hid m hm he => hp ⟨m,hm,?_⟩⟩
      rw [he]
      exact hid

/-- The search returns what is asked for if and only if, among the tagged nodes up to the last
one that is asked for, the display path contains the text exactly where the full path starts with
it, and with the limit 0 no path contains it. -/
theorem found_by_tag_and_path_iff (toLowercase : String → String) (isWord : Char → Bool)
    (tree : Tree) (p : FindByTagAndPathParams) :
    (∀ n∈tree.nodes, ∃ above, Lineage tree above n ∧
      fullPath tree.nodes n.id = " > ".intercalate ((above++[n]).map titled)) ∧
    (FindsWanted toLowercase isWord tree.nodes p ↔
      (p.limit.getD 50 = 0 → ∀ n∈tree.nodes, nodeHasTag toLowercase isWord n p.tag = true →
        ∃ path, buildNodePathWithMap n.id tree.nodes = some path ∧
          ¬(toLowercase p.pathPrefix).toList <:+: (toLowercase path).toList) ∧
      (0 < p.limit.getD 50 →
        AgreeUpTo toLowercase isWord tree.nodes p (p.limit.getD 50) tree.nodes)) := by
  refine ⟨fun n hn => ?_,findsWanted_iff tree.nodup⟩
  obtain ⟨above,h⟩ := exists_lineage hn
  exact ⟨above,h,fullPath_eq h⟩

/-- A tag below `Old Areas`, and one below an ancestor with a long name. -/
def pathTree : Tree where
  nodes := [{ id := "a", name := "Old Areas" },{ id := "b", name := "plan #lead", parentId := some "a" },
    { id := "c", name := "Areas of responsibility, second half of the year" },
    { id := "d", name := "budget #lead", parentId := some "c" }]
  nodup := by decide
  rank id := if id = "b" ∨ id = "d" then 1 else 0
  acyclic := by simp

def areasParams : FindByTagAndPathParams := { tag := "lead", pathPrefix := "Areas" }

def longParams : FindByTagAndPathParams :=
  { tag := "lead", pathPrefix := "areas of responsibility, second half of the year > budget" }

/-- The text further down is taken for a prefix, and the long name hides its node. -/
theorem lead_under_areas :
    (findByTagAndPath asciiLowercase asciiWord pathTree.nodes areasParams).map
      (List.map TagPathHit.id) = some ["b","d"] ∧
    (pathTree.nodes.filter (wanted asciiLowercase asciiWord pathTree.nodes areasParams)).map
      WorkflowyNode.id = ["d"] ∧
    findByTagAndPath asciiLowercase asciiWord pathTree.nodes longParams = some [] ∧
    (pathTree.nodes.filter (wanted asciiLowercase asciiWord pathTree.nodes longParams)).map
      WorkflowyNode.id = ["d"] := by decide +kernel

end lineage

end WorkflowyMcp
