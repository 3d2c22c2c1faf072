import WorkflowyMcp.DeepCopy
import WorkflowyMcp.Html
import WorkflowyMcp.Lib.Unfolding

/-! A subtree as an OPML outline, and that the text gives the subtree back. -/
namespace WorkflowyMcp.Opml
open DeepCopy Html Rewriting Unfolding

/-- The element of a node around those of its children, on lines of their own. -/
def outlineElement (depth : Nat) (node : WorkflowyNode) (descendants : List String) : String :=
  let indent := indentation (depth+2)
  let name := xmlEscape node.name
  let desc := (node.description.map xmlEscape).getD ""
  let selfClosing := descendants = [] ∧ desc = ""
  if selfClosing then indent++"<outline text=\""++name++"\"/>\n"
  else
    (if desc = "" then indent++"<outline text=\""++name++"\">\n"
      else indent++"<outline text=\""++name++"\" _note=\""++desc++"\">\n")++
    String.join descendants++indent++"</outline>\n"

def header : String :=
  "<?xml version=\"1.0\" encoding=\"UTF-8\"?>\n<opml version=\"2.0\">\n  <body>\n"

def footer : String := "  </body>\n</opml>\n"

/-- The children of a node are those the slice has for its id, in the order of the slice. -/
def walkOpml (nodes : List WorkflowyNode) : Nat → Nat → WorkflowyNode → Option String :=
  fold (fun node => childrenOf nodes node.id) outlineElement

/-- None where the walk needs more than `fuel` calls inside one another. -/
def renderSubtreeOpml (nodes : List WorkflowyNode) (rootId : String) (fuel : Nat) : Option String :=
  match nodes.find? fun n => n.id = rootId with
  | some root => (walkOpml nodes fuel 0 root).map fun out => header++out++footer
  | none => some (header++footer)

/-- What an outline is of: names and notes, in their order. -/
inductive OutlineTree where
  | node (name note : String) (children : List OutlineTree)

/-- The tree below a node. -/
def outlineTree (nodes : List WorkflowyNode) : Nat → Nat → WorkflowyNode → Option OutlineTree :=
  fold (fun node => childrenOf nodes node.id)
    fun _ node children => .node node.name (node.description.getD "") children

/-- Parents come before their children in some order of the ids. -/
def Acyclic (nodes : List WorkflowyNode) : Prop :=
  ∃ rank : String → Nat, ∀ n∈nodes, ∀ p, n.parentId = some p → rank p < rank n.id

def margin (depth : Nat) : List Char := (indentation (depth+2)).toList

def closing (depth : Nat) : List Char := margin depth++"</outline>\n".toList

def opening (depth : Nat) : List Char := margin depth++"<outline text=\"".toList

/-- An element behind the quote that ends its name. -/
def remainder (depth : Nat) (desc : List Char) (descendants : List (List Char)) : List Char :=
  if descendants = [] ∧ desc = [] then "/>\n".toList
  else
    (if desc = [] then ">\n".toList else " _note=\"".toList++(desc++ '"'::">\n".toList))++
      (descendants.flatten++closing depth)

theorem margin_succ (depth : Nat) : margin (depth+1) = margin depth++[' ',' '] := by
  rw [margin,margin,indentation,indentation,List.replicate_succ']
  simp

theorem toList_xmlEscape (s : String) :
    (xmlEscape s).toList = encode (entity "&apos;") special s.toList := by
  rw [xmlEscape_eq,escape,String.toList_ofList]

theorem quote_not_mem (s : String) : '"'∉(xmlEscape s).toList := by
  rw [xmlEscape_eq]
  exact escape_not_mem (x := '"') (Or.inl rfl) (by decide) (by decide) s

theorem xmlEscape_inj {s t : String} (h : (xmlEscape s).toList = (xmlEscape t).toList) : s = t := by
  rw [toList_xmlEscape,toList_xmlEscape] at h
  exact String.toList_inj.mp ((entity_codes (Or.inl rfl)).encode_inj (by decide) h)

/-- The escaped note; a note that is absent is empty. -/
def desc (node : WorkflowyNode) : List Char := (xmlEscape (node.description.getD "")).toList

theorem toList_outlineElement (depth : Nat) (node : WorkflowyNode) (descendants : List String) :
    (outlineElement depth node descendants).toList = opening depth++
      ((xmlEscape node.name).toList++ '"'::remainder depth (desc node)
        (descendants.map String.toList)) := by
  have hdesc : ((node.description.map xmlEscape).getD "").toList = desc node := by
    cases hd : node.description <;> simp [desc,hd,toList_xmlEscape,encode]
  have hempty : (node.description.map xmlEscape).getD "" = "" ↔ desc node = [] := by
    rw [← hdesc,String.toList_eq_nil_iff]
  have hself : "\"/>\n".toList = '"'::"/>\n".toList := rfl
  have hopen : "\">\n".toList = '"'::">\n".toList := rfl
  have hnote : "\" _note=\"".toList = '"'::" _note=\"".toList := rfl
  simp only [outlineElement,remainder,List.map_eq_nil_iff,← hempty]
  by_cases hleaf : descendants = [] ∧ (node.description.map xmlEscape).getD "" = ""
  · rw [if_pos hleaf,if_pos hleaf]
    simp only [String.toList_append,hself,opening,margin,List.append_assoc]
  · rw [if_neg hleaf,if_neg hleaf]
    by_cases hd : (node.description.map xmlEscape).getD "" = ""
    · rw [if_pos hd,if_pos hd]
      simp only [String.toList_append,String.toList_join,hopen,opening,closing,margin,
        List.append_assoc,List.flatMap_def,List.cons_append]
    · rw [if_neg hd,if_neg hd]
      simp only [String.toList_append,String.toList_join,hopen,hnote,hdesc,opening,closing,margin,
        List.append_assoc,List.flatMap_def,List.cons_append]

/-- The three forms of an element differ in the character behind its name. -/
theorem head_remainder (depth : Nat) (note : List Char) (inner : List (List Char)) (y : List Char) :
    (remainder depth note inner++y).head? =
      some (if inner = [] ∧ note = [] then '/' else if note = [] then '>' else ' ') := by
  rw [remainder]
  split
  · rfl
  · split <;> rfl

/-- What is behind a name is read in one way: the note, and the elements up to the end tag. -/
theorem remainder_split {depth : Nat} {note note' y y' : List Char} {inner inner' : List (List Char)}
    (hquote : '"'∉note) (hquote' : '"'∉note')
    (h : remainder depth note inner++y = remainder depth note' inner'++y') :
    note = note' ∧ inner.flatten++(closing depth++y) = inner'.flatten++(closing depth++y') := by
  have hhead := congrArg List.head? h
  rw [head_remainder,head_remainder,Option.some.injEq] at hhead
  rw [remainder,remainder] at h
  by_cases hleaf : inner = [] ∧ note = []
  · have hleaf' : inner' = [] ∧ note' = [] := by
      by_contra hne
      rw [if_pos hleaf,if_neg hne] at hhead
      split at hhead <;> cases hhead
    rw [if_pos hleaf,if_pos hleaf'] at h
    have hy := List.append_cancel_left h
    simp [hleaf.1,hleaf.2,hleaf'.1,hleaf'.2,hy]
  · have hleaf' : ¬(inner' = [] ∧ note' = []) := by
      intro hleaf'
      rw [if_neg hleaf,if_pos hleaf'] at hhead
      split at hhead <;> cases hhead
    rw [if_neg hleaf,if_neg hleaf'] at hhead h
    by_cases hnote : note = []
    · have hnote' : note' = [] := by
        by_contra hne
        rw [if_pos hnote,if_neg hne] at hhead
        cases hhead
      rw [if_pos hnote,if_pos hnote'] at h
      simp only [List.append_assoc] at h
      exact ⟨hnote.trans hnote'.symm,List.append_cancel_left h⟩
    · have hnote' : note'≠[] := by
        intro hnote'
        rw [if_neg hnote,if_pos hnote'] at hhead
        cases hhead
      rw [if_neg hnote,if_neg hnote'] at h
      simp only [List.append_assoc,List.cons_append] at h
      obtain ⟨hsame,h⟩ := split_at_mark hquote hquote' (List.append_cancel_left h)
      exact ⟨hsame,List.append_cancel_left h⟩

theorem opening_ne_closing (depth : Nat) (y z : List Char) :
    opening (depth+1)++y≠closing depth++z := by
  rw [opening,closing,margin_succ,List.append_assoc,List.append_assoc,List.append_assoc]
  intro h
  have h := congrArg List.head? (List.append_cancel_left h)
  cases h

variable {nodes nodes' : List WorkflowyNode}

/-- An element is read in one way: the tree it is of, and what is behind it. -/
theorem walk_split {fuel fuel' depth : Nat} {x x' : WorkflowyNode} {s s' : String}
    {t t' : OutlineTree} {y y' : List Char} (hs : walkOpml nodes fuel depth x = some s)
    (ht : outlineTree nodes fuel depth x = some t) (hs' : walkOpml nodes' fuel' depth x' = some s')
    (ht' : outlineTree nodes' fuel' depth x' = some t') (h : s.toList++y = s'.toList++y') :
    t = t' ∧ y = y' := by
  induction fuel generalizing fuel' depth x x' s s' t t' y y' with
  | zero => cases hs
  | succ fuel ih =>
    cases fuel' with
    | zero => cases hs'
    | succ fuel' =>
      simp only [walkOpml,outlineTree,fold,Option.map_eq_some_iff] at hs ht hs' ht'
      obtain ⟨ss,hss,rfl⟩ := hs
      obtain ⟨ts,hts,rfl⟩ := ht
      obtain ⟨ss',hss',rfl⟩ := hs'
      obtain ⟨ts',hts',rfl⟩ := ht'
      rw [toList_outlineElement,toList_outlineElement] at h
      simp only [List.append_assoc,List.cons_append] at h
      obtain ⟨hname,h⟩ := split_at_mark (quote_not_mem x.name) (quote_not_mem x'.name)
        (List.append_cancel_left h)
      obtain ⟨hnote,h⟩ := remainder_split (quote_not_mem _) (quote_not_mem _) h
      have hstart {ns : List WorkflowyNode} {n : Nat} {c : WorkflowyNode} {u : List Char}
          {v w : List Char} (hu : (walkOpml ns n (depth+1) c).map String.toList = some u) :
          u++v≠closing depth++w := by
        obtain ⟨e,he,rfl⟩ := Option.map_eq_some_iff.mp hu
        cases n with
        | zero => cases he
        | succ n =>
          simp only [walkOpml,fold,Option.map_eq_some_iff] at he
          obtain ⟨es,-,rfl⟩ := he
          rw [toList_outlineElement,List.append_assoc]
          exact opening_ne_closing depth _ _
      obtain ⟨rfl,hy⟩ := mapM_split (fun c c' u u' w w' z z' hu hw hu' hw' huv => by
          obtain ⟨e,he,rfl⟩ := Option.map_eq_some_iff.mp hu
          obtain ⟨e',he',rfl⟩ := Option.map_eq_some_iff.mp hu'
          exact ih he hw he' hw' huv)
        (fun c u v w hu => hstart hu) (fun c u v w hu => hstart hu)
        (mapM_map String.toList hss) hts (mapM_map String.toList hss') hts' h
      exact ⟨by rw [xmlEscape_inj hname,xmlEscape_inj hnote],hy⟩

/-- The text that is rendered, whatever the fuel from some amount on. -/
def Renders (nodes : List WorkflowyNode) (rootId out : String) : Prop :=
  ∃ n, ∀ fuel, n ≤ fuel → renderSubtreeOpml nodes rootId fuel = some out

def Outlines (nodes : List WorkflowyNode) (root : WorkflowyNode) (tree : OutlineTree) : Prop :=
  ∃ n, ∀ fuel, n ≤ fuel → outlineTree nodes fuel 0 root = some tree

/-- Every recursion over the children of an acyclic slice ends. -/
theorem Acyclic.fold (h : Acyclic nodes) {β : Type} (f : Nat → WorkflowyNode → List β → β)
    {root : WorkflowyNode} (hroot : root∈nodes) :
    ∃ n b, ∀ fuel, n ≤ fuel →
      Unfolding.fold (fun node => childrenOf nodes node.id) f fuel 0 root = some b := by
  obtain ⟨rank,hrank⟩ := h
  have hbound : ∃ bound, ∀ n∈nodes, rank n.id < bound :=
    ⟨(nodes.map fun n => rank n.id).sum+1,fun n hn =>
      Nat.lt_succ_of_le (List.single_le_sum (by simp) _ (List.mem_map_of_mem hn))⟩
  obtain ⟨bound,hbound⟩ := hbound
  have hchild {x c : WorkflowyNode} (hc : c∈childrenOf nodes x.id) :
      c∈nodes ∧ c.parentId = some x.id := by simpa [childrenOf] using hc
  have hcalls : (Unfolding.calls (fun node => childrenOf nodes node.id) bound root).isSome :=
    isSome_calls (fun x c hc => hrank c (hchild hc).1 _ (hchild hc).2)
      (fun x c hc => hbound c (hchild hc).1) (hbound root hroot) (Nat.le_add_left _ _)
  obtain ⟨b,hb⟩ := Option.isSome_iff_exists.mp ((isSome_fold f bound 0 root).mpr hcalls)
  exact ⟨bound,b,fun fuel hfuel => fold_le hfuel hb⟩

/-- Outlines with one text are outlines of one tree. -/
theorem render_opml_injective {rootId rootId' : String} {root root' : WorkflowyNode}
    (h : Acyclic nodes) (h' : Acyclic nodes')
    (hroot : nodes.find? (fun n => n.id = rootId) = some root)
    (hroot' : nodes'.find? (fun n => n.id = rootId') = some root') :
    ∃ out out' tree tree', Renders nodes rootId out ∧ Renders nodes' rootId' out' ∧
      Outlines nodes root tree ∧ Outlines nodes' root' tree' ∧ (out = out' → tree = tree') := by
  have hmem := List.mem_of_find?_eq_some hroot
  have hmem' := List.mem_of_find?_eq_some hroot'
  obtain ⟨n,s,hs⟩ := h.fold outlineElement hmem
  obtain ⟨n',s',hs'⟩ := h'.fold outlineElement hmem'
  obtain ⟨m,t,ht⟩ := h.fold
    (fun _ node children => OutlineTree.node node.name (node.description.getD "") children) hmem
  obtain ⟨m',t',ht'⟩ := h'.fold
    (fun _ node children => OutlineTree.node node.name (node.description.getD "") children) hmem'
  refine ⟨header++s++footer,header++s'++footer,t,t',⟨n,fun fuel hf => ?_⟩,⟨n',fun fuel hf => ?_⟩,
    ⟨m,ht⟩,⟨m',ht'⟩,fun heq => ?_⟩
  · rw [renderSubtreeOpml,hroot]
    exact congrArg (Option.map _) (hs fuel hf)
  · rw [renderSubtreeOpml,hroot']
    exact congrArg (Option.map _) (hs' fuel hf)
  · have heq := congrArg String.toList heq
    simp only [String.toList_append,List.append_assoc] at heq
    exact (walk_split (hs (max n m) (le_max_left n m)) (ht (max n m) (le_max_right n m))
      (hs' (max n' m') (le_max_left n' m')) (ht' (max n' m') (le_max_right n' m'))
      (List.append_cancel_left heq)).1

/-- A name that looks like the end of an element, and below it a quote. -/
def titled : WorkflowyNode := { id := "r", name := "\"/>\n" }

def quoting (name : String) : List WorkflowyNode :=
  [titled,{ id := "c", name := name, parentId := some "r" }]

theorem acyclic_quoting (name : String) : Acyclic (quoting name) := by
  refine ⟨fun id => if id = "r" then 0 else 1,fun n hn p hp => ?_⟩
  simp only [quoting,List.mem_cons,List.not_mem_nil,or_false] at hn
  rcases hn with rfl | rfl
  · simp [titled] at hp
  · obtain rfl : "r" = p := by simpa using hp
    simp

theorem quotes_apart : ∃ out out' tree tree', Renders (quoting "\"") "r" out ∧
    Renders (quoting "&quot;") "r" out' ∧ Outlines (quoting "\"") titled tree ∧
    Outlines (quoting "&quot;") titled tree' ∧ (out = out' → tree = tree') :=
  render_opml_injective (acyclic_quoting _) (acyclic_quoting _) rfl rfl

end WorkflowyMcp.Opml
