import WorkflowyMcp.IndentedContent
import WorkflowyMcp.SubtreeTraversal
import WorkflowyMcp.Lib.TreeOutline

/-! The Markdown export of a subtree as a payload of `insert_content`: one line for each node and
each line of a description, and nodes under the nodes they were exported under. -/
namespace WorkflowyMcp.MarkdownExport
open InsertContent SubtreeTraversal Unfolding

/-- A line of a description, two levels below its node. -/
def parseNote (depth : Nat) (line : String) : Option ParsedLine :=
  (parseLine line).map fun p => { p with indent := depth+2+p.indent }

/-- The parsed lines of a description; blank ones are gone. -/
def noteLines (depth : Nat) (node : WorkflowyNode) : List ParsedLine :=
  (node.description.elim [] lines).filterMap (parseNote depth)

def nodeLine (depth : Nat) (node : WorkflowyNode) : ParsedLine := ⟨trim ("- "++node.name),depth⟩

/-- The lines of a node before those of the nodes below it. -/
def nodeLines (depth : Nat) (node : WorkflowyNode) (below : List (List ParsedLine)) :
    List ParsedLine :=
  nodeLine depth node::noteLines depth node++below.flatten

/-- A text of ended lines: whatever follows is parsed on its own. -/
def Ended (text : String) : Prop := ∀ rest,
  parseIndentedContent (text++rest) = parseIndentedContent text++parseIndentedContent rest

theorem ended_empty : Ended "" := by
  intro rest
  simp [parseIndentedContent,lines,linesOf]

theorem Ended.append {a b : String} (ha : Ended a) (hb : Ended b) : Ended (a++b) := by
  intro rest
  rw [String.append_assoc,ha,hb,ha,List.append_assoc]

theorem ended_line {line : String} (hline : '\n'∉line.toList) : Ended (line++"\n") := by
  intro rest
  have hone := parse_line hline ""
  rw [String.append_empty] at hone
  rw [parse_line hline,hone]
  simp [parseIndentedContent,lines,linesOf]

theorem Ended.join {texts : List String} (h : ∀ t∈texts, Ended t) : Ended (String.join texts) ∧
    parseIndentedContent (String.join texts) = texts.flatMap parseIndentedContent := by
  induction texts with
  | nil => exact ⟨ended_empty,rfl⟩
  | cons t texts ih =>
    obtain ⟨ht,htexts⟩ := List.forall_mem_cons.mp h
    obtain ⟨hended,hparse⟩ := ih htexts
    rw [String.join_cons,List.flatMap_cons]
    exact ⟨ht.append hended,by rw [ht,hparse]⟩

theorem parse_ended {line : String} (hline : '\n'∉line.toList) :
    parseIndentedContent (line++"\n") = (parseLine line).toList := by
  have hone := parse_line hline ""
  rw [String.append_empty] at hone
  rw [hone]
  simp [parseIndentedContent,lines,linesOf]

section bullet
variable {depth : Nat} {node : WorkflowyNode}

theorem newline_not_mem_indented {k : Nat} {text : String} (h : '\n'∉text.toList) :
    '\n'∉(indentation k++text).toList := by
  rw [String.toList_append,toList_indentation,List.mem_append]
  rintro (hmem | hmem)
  · cases List.eq_of_mem_replicate hmem
  · exact h hmem

theorem parseLine_dash (name : String) :
    parseLine ("- "++name) = some ⟨trim ("- "++name),0⟩ := by
  have hdash : isWhiteSpace '-' = false := by decide
  have hlist : ("- "++name).toList = '-' :: ' ' :: name.toList := by simp
  have hdrop : ("- "++name).toList.dropWhile isWhiteSpace = ("- "++name).toList := by
    rw [hlist,List.dropWhile_cons_of_neg (by simp [hdash])]
  have hne : trim ("- "++name)≠"" := by
    intro hempty
    have hnil := congrArg String.toList hempty
    rw [toList_trim,hdrop,hlist] at hnil
    have hall := List.rdropWhile_eq_nil_iff.mp hnil '-' List.mem_cons_self
    rw [hdash] at hall
    cases hall
  have hstart : trimStart ("- "++name) = "- "++name := by
    rw [trimStart,hdrop,String.ofList_toList]
  simp only [parseLine,if_neg hne,hstart,Nat.sub_self,Nat.zero_div]

theorem newline_not_mem_lines {text line : String} (h : line∈lines text) : '\n'∉line.toList := by
  obtain ⟨cs,hcs,rfl⟩ := List.mem_map.mp h
  simpa using newline_not_mem_linesOf hcs

def noteText (depth : Nat) (line : String) : String := indentation depth++(indentation 2++line)

theorem parseLine_noteText (line : String) :
    parseLine (noteText depth line) = parseNote depth line := by
  rw [noteText,parseLine_indented,parseLine_indented,parseNote,Option.map_map]
  congr 1
  funext p
  simp [Nat.add_assoc]

theorem newline_not_mem_noteText {line : String} (hline : '\n'∉line.toList) :
    '\n'∉(noteText depth line).toList :=
  newline_not_mem_indented (newline_not_mem_indented hline)

theorem parse_notes {ls : List String} (hls : ∀ line∈ls, '\n'∉line.toList) :
    (ls.map fun line => noteText depth line++"\n").flatMap parseIndentedContent =
      ls.filterMap (parseNote depth) := by
  induction ls with
  | nil => rfl
  | cons line ls ih =>
    obtain ⟨hline,hls⟩ := List.forall_mem_cons.mp hls
    rw [List.map_cons,List.flatMap_cons,ih hls,parse_ended (newline_not_mem_noteText hline),
      parseLine_noteText,List.filterMap_cons]
    cases parseNote depth line <;> rfl

/-- A bullet over texts of ended lines is one itself, and says the lines of its node. -/
theorem parse_bullet (hname : '\n'∉node.name.toList) {descendants : List String}
    (hended : ∀ t∈descendants, Ended t) : Ended (bullet depth node descendants) ∧
      parseIndentedContent (bullet depth node descendants) =
        nodeLines depth node (descendants.map parseIndentedContent) := by
  have hhead : '\n'∉(indentation depth++("- "++node.name)).toList :=
    newline_not_mem_indented (by simpa using hname)
  have hdesc : ∀ line∈node.description.elim [] lines, '\n'∉line.toList := by
    intro line hline
    cases hdesc : node.description with
    | none => simp [hdesc] at hline
    | some text => exact newline_not_mem_lines (by simpa [hdesc] using hline)
  have hnotes : ∀ t∈(node.description.elim [] lines).map
      (fun line => noteText depth line++"\n"), Ended t := by
    intro t ht
    obtain ⟨line,hline,rfl⟩ := List.mem_map.mp ht
    exact ended_line (newline_not_mem_noteText (hdesc line hline))
  have hbullet : bullet depth node descendants = (indentation depth++("- "++node.name)++"\n")++
      (String.join ((node.description.elim [] lines).map
        fun line => noteText depth line++"\n")++String.join descendants) := by
    have hfour : "    " = indentation 2 := by decide
    simp only [bullet,noteText,hfour,String.append_assoc]
  obtain ⟨hnotesEnded,hnotesParse⟩ := Ended.join hnotes
  obtain ⟨hbelowEnded,hbelowParse⟩ := Ended.join hended
  refine ⟨?_,?_⟩
  · rw [hbullet]
    exact (ended_line hhead).append (hnotesEnded.append hbelowEnded)
  · rw [hbullet,ended_line hhead,hnotesEnded,parse_ended hhead,parseLine_indented,parseLine_dash,
      hnotesParse,hbelowParse,parse_notes hdesc,List.flatMap_def]
    rfl

end bullet

section walk
variable {nodes : List WorkflowyNode}

def below (nodes : List WorkflowyNode) (node : WorkflowyNode) : List WorkflowyNode :=
  DeepCopy.childrenOf nodes node.id

theorem mem_below {x c : WorkflowyNode} :
    c∈below nodes x ↔ c∈nodes ∧ c.parentId = some x.id := by
  simp [below,DeepCopy.childrenOf]

/-- What a parsed line says of an item: its indent and, for a node, its bullet. -/
def StandsFor (line : ParsedLine) (item : Nat×Option WorkflowyNode) : Prop :=
  line.indent = item.1 ∧ ∀ x, item.2 = some x → line.text = trim ("- "++x.name)

def noteIndents (depth : Nat) (node : WorkflowyNode) : List Nat :=
  (noteLines depth node).map ParsedLine.indent

theorem lt_noteIndents {depth : Nat} {node : WorkflowyNode} :
    ∀ indent∈noteIndents depth node, depth < indent := by
  intro indent hi
  obtain ⟨p,hp,rfl⟩ := List.mem_map.mp hi
  obtain ⟨line,-,hline⟩ := List.mem_filterMap.mp hp
  obtain ⟨q,-,rfl⟩ := Option.map_eq_some_iff.mp hline
  exact Nat.lt_of_lt_of_le (by omega) (Nat.le_add_right (depth+2) q.indent)

/-- What is exported of a node: text that parses to lines, one for each item of its outline. -/
structure Exported (out : String) (items : List (Nat×Option WorkflowyNode)) : Prop where
  ended : Ended out
  itemized : List.Forall₂ StandsFor (parseIndentedContent out) items

/-- The text of a walk is parsed as the outline of the same walk. -/
theorem exported_walk (hnames : ∀ n∈nodes, '\n'∉n.name.toList) {fuel depth : Nat}
    {node : WorkflowyNode} {out : String} (hname : '\n'∉node.name.toList)
    (h : fold (below nodes) bullet fuel depth node = some out) :
    ∃ items, fold (below nodes) (Outline.branch noteIndents) fuel depth node = some items ∧
      Exported out items := by
  refine fold_rel (P := fun x => '\n'∉x.name.toList) (R := fun _ _ => Exported)
    (fun x _ c hc => hnames c (mem_below.mp hc).1) (fun depth x outs blocks hx hrel => ?_) hname h
  have hended : ∀ t∈outs, Ended t := by
    intro t ht
    obtain ⟨i,hi,rfl⟩ := List.mem_iff_getElem.mp ht
    obtain ⟨y,-,hy⟩ := (List.forall₂_iff_get.mp hrel).2 i hi
      (by rw [← hrel.length_eq]; exact hi)
    exact hy.ended
  have hblocks : List.Forall₂ StandsFor (outs.map parseIndentedContent).flatten blocks.flatten := by
    clear hended
    induction hrel with
    | nil => exact .nil
    | cons hfirst _ ih =>
      obtain ⟨y,-,hy⟩ := hfirst
      exact List.rel_append hy.itemized ih
  have hnotes : List.Forall₂ StandsFor (noteLines depth x)
      ((noteIndents depth x).map fun indent => (indent,none)) := by
    rw [noteIndents,List.map_map,List.forall₂_map_right_iff]
    exact List.forall₂_same.mpr fun p _ => ⟨rfl,by simp⟩
  obtain ⟨hb,hparse⟩ : Ended (bullet depth x _) ∧ _ := parse_bullet hx hended
  refine ⟨hb,hparse ▸ .cons ⟨rfl,fun y hy => ?_⟩ (List.rel_append hnotes hblocks)⟩
  obtain rfl := Option.some.inj hy
  rfl

/-- The nodes of the items are those of the walk, in its order. -/
theorem labels_of_fold {fuel depth : Nat} {node : WorkflowyNode}
    {items : List (Nat×Option WorkflowyNode)}
    (h : fold (below nodes) (Outline.branch noteIndents) fuel depth node = some items) :
    calls (below nodes) fuel node = some ((items.map Prod.snd).filterMap id) := by
  have hstep (depth : Nat) (x : WorkflowyNode) (blocks : List (List (Nat×Option WorkflowyNode)))
      (lists : List (List WorkflowyNode)) (hrel : List.Forall₂ (fun b l => ∃ y∈below nodes x,
        (b.map Prod.snd).filterMap id = l) blocks lists) :
      ((Outline.branch noteIndents depth x blocks).map Prod.snd).filterMap id =
        x::lists.flatten := by
    have hflat : (blocks.flatten.map Prod.snd).filterMap id = lists.flatten := by
      induction hrel with
      | nil => rfl
      | cons hfirst _ ih =>
        obtain ⟨y,-,hy⟩ := hfirst
        rw [List.flatten_cons,List.map_append,List.filterMap_append,hy,ih,List.flatten_cons]
    have hnotes : (((noteIndents depth x).map
        fun indent => (indent,(none : Option WorkflowyNode))).map Prod.snd).filterMap id = [] := by
      simp
    rw [Outline.branch,List.map_append,List.filterMap_append,hflat,List.map_cons]
    change (x::_)++_ = _
    rw [hnotes]
    rfl
  obtain ⟨called,hcalled,rfl⟩ := fold_rel (P := fun _ => True)
    (g := fun _ x ls => x::ls.flatten) (R := fun _ _ items called =>
      (items.map Prod.snd).filterMap id = called) (fun _ _ _ _ => trivial)
    (fun depth x blocks lists _ hrel => hstep depth x blocks lists hrel) trivial h
  rw [← fold_eq_calls fuel depth,hcalled]

/-- A node below the root hangs, by indent, under its parent. -/
theorem nearest_of_fold {fuel : Nat} {root : WorkflowyNode}
    {items : List (Nat×Option WorkflowyNode)}
    (h : fold (below nodes) (Outline.branch noteIndents) fuel 0 root = some items) :
    (items.map Prod.snd)[0]? = some (some root) ∧
      ∀ i x, (items.map Prod.snd)[i+1]? = some (some x) → ∃ j p,
        Outline.nearest (Outline.levels 0 (items.map Prod.fst)) (i+1) = some j ∧
        (items.map Prod.snd)[j]? = some (some p) ∧ x.parentId = some p.id := by
  obtain ⟨hhead,hbranch⟩ := Outline.branch_of_fold (fun _ _ => lt_noteIndents) h
  obtain ⟨rest,hparents,hrest⟩ := hbranch.hangs [none] (by simp)
  have hzip : (items.map Prod.fst).zip (items.map Prod.snd) = items :=
    (List.zip_of_prod rfl rfl).symm
  have hnearest := Outline.parents_zip none (items.map Prod.fst) (items.map Prod.snd) (by simp)
  rw [hzip,hparents] at hnearest
  obtain ⟨tail,htail⟩ : ∃ tail, items = (0,some root)::tail := by
    cases items with
    | nil => cases hhead
    | cons item tail =>
      obtain rfl := Option.some.inj hhead
      exact ⟨tail,rfl⟩
  refine ⟨by rw [htail]; rfl,fun i x hx => ?_⟩
  rw [htail,List.tail_cons] at hrest
  obtain ⟨item,hitem,hlabel⟩ : ∃ item, tail[i]? = some item ∧ item.2 = some x := by
    simpa [htail,List.getElem?_map] using hx
  obtain ⟨hi,rfl⟩ := List.getElem?_eq_some_iff.mp hitem
  have hi' : i<rest.length := hrest.length_eq ▸ hi
  obtain ⟨p,hp,hx'⟩ := (List.forall₂_iff_get.mp hrest).2 i hi hi' x hlabel
  have hrange : i+1<(items.map Prod.snd).length := by
    rw [htail]
    simpa using hi
  have hentry : Outline.entry none (items.map Prod.snd)
      (Outline.nearest (Outline.levels 0 (items.map Prod.fst)) (i+1)) = some p := by
    have hat := congrArg (fun l => l[i+1]?) hnearest
    simp only [List.getElem?_cons_succ,List.getElem?_map,List.getElem?_range hrange,
      List.getElem?_eq_getElem hi',Option.map_some,Option.some.injEq] at hat
    exact hat.symm.trans hp
  cases hj : Outline.nearest (Outline.levels 0 (items.map Prod.fst)) (i+1) with
  | none =>
    rw [hj] at hentry
    cases hentry
  | some j =>
    rw [hj,Outline.entry,List.getD_eq_getElem?_getD] at hentry
    refine ⟨j,p,rfl,?_,(mem_below.mp hx').2⟩
    cases hat : (items.map Prod.snd)[j]? with
    | none =>
      rw [hat] at hentry
      cases hentry
    | some label =>
      rw [hat,Option.getD_some] at hentry
      rw [hentry]

end walk

section insert
variable {σ : Type}

/-- The nodes made for the nodes of an export, under one another as those are. -/
def Reimported (after : List WorkflowyNode) (base : Option String) (root : WorkflowyNode)
    (labels : List (Option WorkflowyNode)) (ids : List String) : Prop :=
  ∀ (i : Nat) x, labels[i]? = some (some x) → ∃ made∈after, some made.id = ids[i]? ∧
    made.name = trim ("- "++x.name) ∧ (i = 0 ∧ x = root ∧ made.parentId = base ∨
      ∃ (j : Nat) (p : WorkflowyNode), labels[j]? = some (some p) ∧ x.parentId = some p.id ∧
        made.parentId = ids[j]?)

theorem reimported_of_made {parsed : List ParsedLine} {items : List (Nat×Option WorkflowyNode)}
    {root : WorkflowyNode} {base : Option String} {ids : List String} {after : List WorkflowyNode}
    (hitems : List.Forall₂ StandsFor parsed items)
    (hfirst : (items.map Prod.snd)[0]? = some (some root))
    (hbelow : ∀ i x, (items.map Prod.snd)[i+1]? = some (some x) → ∃ j p,
      Outline.nearest (Outline.levels 0 (items.map Prod.fst)) (i+1) = some j ∧
      (items.map Prod.snd)[j]? = some (some p) ∧ x.parentId = some p.id)
    (hids : ids.length = parsed.length) (hmade : madeNodes base parsed ids⊆after) :
    Reimported after base root (items.map Prod.snd) ids := by
  intro i x hx
  have hindents : parsed.map ParsedLine.indent = items.map Prod.fst := by
    refine List.forall₂_eq_eq_eq ▸ List.forall₂_map_left_iff.mpr (List.forall₂_map_right_iff.mpr ?_)
    exact hitems.imp fun p item h => h.1
  obtain ⟨hi,hlabel⟩ := List.getElem?_eq_some_iff.mp hx
  rw [List.length_map] at hi
  have hparsed : i<parsed.length := hitems.length_eq ▸ hi
  have htext : (parsed.map ParsedLine.text).getD i "" = trim ("- "++x.name) := by
    have hstands := ((List.forall₂_iff_get.mp hitems).2 i hparsed hi).2 x (by simpa using hlabel)
    simpa [List.getD_eq_getElem?_getD,hparsed] using hstands
  have hlt : i < ids.length := hids ▸ hparsed
  refine ⟨_,hmade (List.mem_map_of_mem (List.mem_range.mpr hlt)),by simp [hlt],htext,?_⟩
  cases i with
  | zero =>
    rw [hfirst] at hx
    cases hx
    refine .inl ⟨rfl,rfl,?_⟩
    have hnone : parentLine parsed 0 = none := by
      cases h : parentLine parsed 0 with
      | none => rfl
      | some j => exact absurd (Outline.nearest_lt h) (Nat.not_lt_zero j)
    rw [hnone]
    rfl
  | succ i =>
    obtain ⟨j,p,hj,hp,hparent⟩ := hbelow i x hx
    have hjlt : j < ids.length := (Outline.nearest_lt hj).trans hlt
    refine .inr ⟨j,p,hp,hparent,?_⟩
    have hline : parentLine parsed (i+1) = some j := by rw [parentLine,hindents,hj]
    rw [hline]
    simp [Outline.entry,hjlt]

/-- The export of the subtree of `root` is a text whose insertion, when it completes, makes the
subtree again. -/
def KeepsTree (w : World σ) (maxAttempts : Nat) (base : Option String) (nodes : List WorkflowyNode)
    (rootId : String) (root : WorkflowyNode) : Prop :=
  ∃ fuel out labels, (∀ more, fuel ≤ more → renderSubtreeMarkdown nodes rootId more = some out) ∧
    calls (below nodes) fuel root = some (labels.filterMap id) ∧
    labels.length = (parseIndentedContent out).length ∧ ∀ s parentId count last fp,
      ((insertContentViaIndented maxAttempts base (parseIndentedContent out)).run w.serve s).1 =
        .ok (.Complete parentId count last,fp) →
      Reimported (w.nodes ((insertContentViaIndented maxAttempts base
        (parseIndentedContent out)).run w.serve s).2) base root labels
        (fp.createdNodes.map WorkflowyNode.id)

/-- Nodes go on hanging under one another as in the tree, whatever the descriptions between them
say, where every name is on one line. -/
theorem export_insert_keeps_tree (w : World σ) (maxAttempts : Nat) (base : Option String)
    {nodes : List WorkflowyNode} {rootId : String} {root : WorkflowyNode} (hacyclic : Opml.Acyclic nodes)
    (hroot : nodes.find? (fun n => n.id = rootId) = some root)
    (hnames : ∀ n∈nodes, '\n'∉n.name.toList) :
    KeepsTree w maxAttempts base nodes rootId root := by
  obtain ⟨fuel,out,hout⟩ := hacyclic.fold bullet (List.mem_of_find?_eq_some hroot)
  obtain ⟨items,hitems,hexported⟩ := exported_walk hnames
    (hnames root (List.mem_of_find?_eq_some hroot)) (hout fuel (le_refl _))
  obtain ⟨hfirst,hbelow⟩ := nearest_of_fold hitems
  have hlen := hexported.itemized.length_eq
  refine ⟨fuel,out,items.map Prod.snd,fun more hmore => ?_,labels_of_fold hitems,by simp [hlen],?_⟩
  · rw [renderSubtreeMarkdown,hroot]
    exact hout more hmore
  · intro s parentId count last fp hrun i x hx
    obtain ⟨ids,hids,-,rfl,hmade,-⟩ := complete_booked hrun
    exact reimported_of_made hexported.itemized hfirst hbelow hids hmade i x hx

/-- A plan whose description is outlined deeper than the step below it. -/
def plan : List WorkflowyNode :=
  [{ id := "p", name := "Plan", description := some "why\n\n    and how" },
    { id := "ps", name := "Step", parentId := some "p" },
    { id := "psd", name := "Detail", parentId := some "ps" }]

theorem plan_keeps_tree :
    KeepsTree (Service.reliable.world {}) RETRY_MAX_ATTEMPTS none plan "p"
      { id := "p", name := "Plan", description := some "why\n\n    and how" } :=
  export_insert_keeps_tree _ _ _
    ⟨String.length,by decide⟩ rfl (by decide)

end insert

end WorkflowyMcp.MarkdownExport
