import WorkflowyMcp.ConvertMarkdown
import WorkflowyMcp.IndentedContent

/-! Converted Markdown as a payload of `insert_content`: the nodes it makes and their words. -/
namespace WorkflowyMcp.ConvertMarkdown
open InsertContent

theorem trim_eq_empty_iff {s : String} : trim s = "" ↔ ∀ c∈s.toList, isWhiteSpace c = true := by
  rw [← String.toList_inj,toList_trim]
  constructor
  · intro hnil c hc
    by_contra hword
    have hne : s.toList.dropWhile isWhiteSpace≠[] := fun hall =>
      hword (List.dropWhile_eq_nil_iff.mp hall c hc)
    have hspace := List.rdropWhile_eq_nil_iff.mp hnil _ (List.head_mem hne)
    rw [List.head_dropWhile_not isWhiteSpace hne] at hspace
    cases hspace
  · intro hall
    rw [List.dropWhile_eq_nil_iff.mpr hall]
    rfl

theorem isSome_parseLine {line : String} : (parseLine line).isSome = true ↔ trim line≠"" := by
  rw [parseLine]
  dsimp only
  split <;> simp_all

/-- A line that makes a node. -/
structure Solid (line : String) : Prop where
  oneLine : '\n'∉line.toList
  nonblank : trim line≠""

theorem Solid.prefixed {pre line : String} (hpre : '\n'∉pre.toList) (h : Solid line) :
    Solid (pre++line) := by
  refine ⟨by simpa using ⟨hpre,h.oneLine⟩,fun hblank => h.nonblank ?_⟩
  rw [trim_eq_empty_iff] at hblank ⊢
  exact fun c hc => hblank c (by simp [hc])

theorem Solid.suffixed {line post : String} (hpost : '\n'∉post.toList) (h : Solid line) :
    Solid (line++post) := by
  refine ⟨by simpa using ⟨h.oneLine,hpost⟩,fun hblank => h.nonblank ?_⟩
  rw [trim_eq_empty_iff] at hblank ⊢
  exact fun c hc => hblank c (by simp [hc])

theorem newline_not_mem_indentation (k : Nat) : '\n'∉(indentation k).toList := by
  rw [toList_indentation]
  intro hmem
  cases List.eq_of_mem_replicate hmem

theorem Solid.indented {line : String} (h : Solid line) (k : Nat) : Solid (indentation k++line) :=
  h.prefixed (newline_not_mem_indentation k)

section plainLine
variable {line : String}

theorem mem_trim {c : Char} {s : String} (h : c∈(trim s).toList) : c∈s.toList := by
  rw [toList_trim] at h
  exact (List.dropWhile_sublist _).subset ((List.rdropWhile_prefix _ _).subset h)

theorem last_trim {s : String} {c : Char} (h : c∈(trim s).toList.getLast?) :
    isWhiteSpace c = false := by
  rw [toList_trim] at h
  obtain ⟨hne,rfl⟩ := List.mem_getLast?_eq_getLast h
  simpa using List.rdropWhile_last_not isWhiteSpace _ hne

/-- What stands at the end of a trimmed text behind a space is not blank. -/
theorem solid_suffix {pre post : List Char} (hline : '\n'∉line.toList)
    (hpre : ∃ c∈pre.getLast?, isWhiteSpace c = true) (hsplit : (trim line).toList = pre++post) :
    Solid (String.ofList post) := by
  refine ⟨fun hmem => hline (mem_trim ?_),fun hblank => ?_⟩
  · rw [String.toList_ofList] at hmem
    rw [hsplit]
    exact List.mem_append_right pre hmem
  · have hall := trim_eq_empty_iff.mp hblank
    rw [String.toList_ofList] at hall
    obtain ⟨c,hc,hspace⟩ := hpre
    have hlast : ∃ d∈(trim line).toList.getLast?, isWhiteSpace d = true := by
      rw [hsplit,List.getLast?_append]
      cases hpost : post.getLast? with
      | none => exact ⟨c,hc,hspace⟩
      | some d => exact ⟨d,rfl,hall d (List.mem_of_getLast? hpost)⟩
    obtain ⟨d,hd,hdspace⟩ := hlast
    rw [last_trim hd] at hdspace
    cases hdspace

/-- A text without space around it is solid if it is not empty and part of the line. -/
theorem solid_trim {s : String} (hs : s.toList⊆line.toList) (hline : '\n'∉line.toList)
    (hne : trim s≠"") : Solid (trim s) :=
  ⟨fun hmem => hline (hs (mem_trim hmem)),by rwa [trim_trim]⟩

theorem mem_trimStartMatches {c d : Char} {s : String} (h : d∈(trimStartMatches c s).toList) :
    d∈s.toList := by
  rw [trimStartMatches,String.toList_ofList] at h
  exact (List.dropWhile_sublist _).subset h

theorem solid_cell (hline : '\n'∉line.toList) {cell : String} (hcell : cell∈tableCells (trim line)) :
    Solid cell := by
  obtain ⟨s,hs,hcell⟩ := List.mem_filterMap.mp hcell
  obtain ⟨part,hpart,rfl⟩ := List.mem_map.mp hs
  split at hcell
  · cases hcell
  · rename_i hne
    obtain rfl := Option.some.inj hcell
    refine solid_trim (fun c hc => mem_trim (mem_of_mem_splitOn hpart ?_)) hline hne
    rwa [String.toList_ofList] at hc

/-- Every line written outside of code makes a node. -/
theorem plainLine_solid (hline : '\n'∉line.toList) (indent : Nat) (stats : ConversionStats) :
    ∀ out∈(plainLine indent stats line).2.1, Solid out := by
  have htrim : (trim line).toList⊆line.toList := fun c hc => mem_trim hc
  have hindented (k : Nat) {text : String} (h : Solid text) :
      ∀ out∈[indentation k++text], Solid out := by
    intro out hout
    obtain rfl := List.mem_singleton.mp hout
    exact h.indented k
  rw [plainLine]
  dsimp only
  split
  · exact List.forall_mem_nil _
  rename_i hne
  split
  · split
    · rename_i htext
      refine hindented _ (solid_trim (fun c hc => htrim ?_) hline htext)
      have hrest := mem_trimStartMatches hc
      rw [String.toList_ofList] at hrest
      exact List.mem_of_mem_drop hrest
    · exact List.forall_mem_nil _
  split
  · have hquote : Solid "> " := ⟨by decide,by decide⟩
    rw [String.append_assoc]
    refine hindented _ (hquote.suffixed fun hmem => hline ?_)
    exact htrim (mem_trimStartMatches (mem_trim hmem))
  split
  · exact hindented _ ⟨by decide,by decide⟩
  split
  · rename_i hitem
    obtain ⟨c,rest,hrest,-⟩ := item_head char_alphanumeric hitem
    refine hindented _ ?_
    rw [afterMarker]
    have hpre : ∃ d∈[c,' '].getLast?, isWhiteSpace d = true := ⟨' ',rfl,by decide⟩
    refine solid_suffix hline hpre ?_
    rw [hrest]
    rfl
  split
  · rename_i text htext
    refine hindented _ ?_
    rw [orderedText] at htext
    split at htext
    · rename_i before after hdot
      split at htext
      · obtain rfl := Option.some.inj htext
        have hpre : ∃ d∈(before++['.',' ']).getLast?, isWhiteSpace d = true :=
          ⟨' ',by simp,by decide⟩
        refine solid_suffix hline hpre ?_
        rw [splitAtDot_eq hdot]
        simp
      · cases htext
    · cases htext
  split
  · split
    · exact List.forall_mem_nil _
    · simp only [List.forall_mem_map]
      intro cell hcell
      exact (solid_cell hline hcell).indented _
  · exact hindented _ (solid_trim (s := line) (fun c hc => hc) hline hne)

end plainLine

/-- The blank lines in code. -/
def blankCode : Bool → List String → Nat
  | _,[] => 0
  | inCode,line::rest =>
    if isFence line then blankCode (!inCode) rest
    else (inCode && decide (trim line = "")).toNat+blankCode inCode rest

section parse
variable {line : String} {outs outs' : List String}

/-- Lines written of which all but `blank` make a node. -/
structure Parsed (blank : Nat) (outs : List String) : Prop where
  oneLine : ∀ out∈outs, '\n'∉out.toList
  count : (outs.filterMap parseLine).length+blank = outs.length

theorem Parsed.append {b b' : Nat} (h : Parsed b outs) (h' : Parsed b' outs') :
    Parsed (b+b') (outs++outs') := by
  refine ⟨fun out hout => (List.mem_append.mp hout).elim (h.oneLine out) (h'.oneLine out),?_⟩
  rw [List.filterMap_append,List.length_append,List.length_append,← h.count,← h'.count]
  omega

theorem parsed_of_solid (h : ∀ out∈outs, Solid out) : Parsed 0 outs := by
  refine ⟨fun out hout => (h out hout).oneLine,?_⟩
  rw [Nat.add_zero,List.length_filterMap_eq_countP,List.countP_eq_length]
  exact fun out hout => isSome_parseLine.mpr (h out hout).nonblank

theorem codeLabel_solid (hline : '\n'∉line.toList) (indent : Nat) :
    Solid (codeLabel indent (fenceLang line)) := by
  have hopen : Solid "[" := ⟨by decide,by decide⟩
  have hlabel : '\n'∉(if fenceLang line = "" then "Code" else "Code: "++fenceLang line).toList := by
    split
    · decide
    · rw [String.toList_append,List.mem_append]
      rintro (hmem | hmem)
      · exact absurd hmem (by decide)
      · exact hline ((List.dropWhile_sublist _).subset
          (by simpa [trimStart] using mem_trimStartMatches (mem_trim hmem)))
  rw [codeLabel,String.append_assoc,String.append_assoc]
  exact ((hopen.suffixed (by simpa using hlabel)).indented indent)

theorem codeLine_parsed (hline : '\n'∉line.toList) (indent : Nat) :
    Parsed (decide (trim line = "")).toNat [indentation indent++"  "++line] := by
  have hpre : '\n'∉(indentation indent++"  ").toList := by
    simpa using newline_not_mem_indentation indent
  by_cases hblank : trim line = ""
  · have hnone : parseLine (indentation indent++"  "++line) = none := by
      have htwo : "  " = indentation 1 := by decide
      rw [String.append_assoc,htwo,parseLine_indented,parseLine_indented,parseLine]
      simp [hblank]
    refine ⟨List.forall_mem_singleton.mpr ?_,by simp [hnone,hblank]⟩
    rw [String.toList_append,List.mem_append]
    exact not_or.mpr ⟨hpre,hline⟩
  · have hsolid : Solid (indentation indent++"  "++line) := .prefixed hpre ⟨hline,hblank⟩
    simpa [hblank] using parsed_of_solid (List.forall_mem_singleton.mpr hsolid)

/-- The lines written for each line are on one line, and only those of blank lines in code make no
node. -/
theorem written_parsed {ls : List String} (hls : ∀ l∈ls, '\n'∉l.toList) (inCode : Bool)
    (indent : Nat) : Parsed (blankCode inCode ls) (written inCode indent ls).flatten := by
  induction ls generalizing inCode indent with
  | nil => exact parsed_of_solid (List.forall_mem_nil _)
  | cons line ls ih =>
    obtain ⟨hline,hls⟩ := List.forall_mem_cons.mp hls
    rw [blankCode]
    by_cases hfence : isFence line = true
    · rw [if_pos hfence]
      cases inCode with
      | false =>
        rw [written,if_pos hfence,List.flatten_cons]
        have hlabel : Parsed 0 (if ls = [] then [] else [codeLabel indent (fenceLang line)]) := by
          split
          · exact parsed_of_solid (List.forall_mem_nil _)
          · exact parsed_of_solid (List.forall_mem_singleton.mpr (codeLabel_solid hline indent))
        simpa using hlabel.append (ih hls true indent)
      | true =>
        rw [written,if_pos hfence,List.flatten_cons,List.nil_append]
        exact ih hls false indent
    · rw [if_neg hfence]
      cases inCode with
      | false =>
        rw [written,if_neg hfence,List.flatten_cons]
        exact (parsed_of_solid (plainLine_solid hline indent {})).append (ih hls false _)
      | true =>
        rw [written,if_neg hfence,List.flatten_cons]
        exact (codeLine_parsed hline indent).append (ih hls true indent)

end parse

theorem parse_convert (markdown : String) :
    parseIndentedContent (convertMarkdown markdown).content =
        (written false 0 (lines markdown)).flatten.filterMap parseLine ∧
      (parseIndentedContent (convertMarkdown markdown).content).length+
        blankCode false (lines markdown) = (convertMarkdown markdown).nodeCount := by
  have hlines : ∀ l∈lines markdown, '\n'∉l.toList := by
    intro l hl
    obtain ⟨cs,hcs,rfl⟩ := List.mem_map.mp hl
    simpa using newline_not_mem_linesOf hcs
  have hparsed := written_parsed hlines false 0
  have hparse := parse_intercalate hparsed.oneLine
  have hcount : (convertMarkdown markdown).nodeCount =
      (written false 0 (lines markdown)).flatten.length := by
    have hrun := (outputLines_run (lines markdown) {}).1 rfl rfl
    rw [convertMarkdown]
    simp only [hrun,List.nil_append]
  rw [convertMarkdown_lines,hcount,hparse]
  exact ⟨rfl,hparsed.count⟩

section words
variable {isAlphanumeric : Char → Bool} (h : Alphanumeric isAlphanumeric)
include h

/-- Breaking a text into lines breaks no word. -/
theorem words_linesOf (cs : List Char) :
    (linesOf cs).flatMap (words isAlphanumeric) = words isAlphanumeric cs := by
  induction hlen : cs.length using Nat.strong_induction_on generalizing cs with
  | _ n ih =>
    by_cases hbreak : '\n'∈cs
    · obtain ⟨l,rest,rfl,hl⟩ := List.eq_append_cons_of_mem hbreak
      have hreturn : words isAlphanumeric (if l.getLast? = some '\r' then l.dropLast else l) =
          words isAlphanumeric l := by
        split
        · rename_i hlast
          conv_rhs => rw [← List.dropLast_append_getLast? _ hlast]
          exact (words_append_left (List.forall_mem_singleton.mpr (h.mark (by decide)))).symm
        · rfl
      have hrest := ih rest.length (by rw [← hlen]; simp; omega) rest rfl
      rw [linesOf_append hl,List.flatMap_cons,hreturn,hrest,words_append_sep (h.mark (by decide))]
    · rw [linesOf_line hbreak]
      split
      · rename_i hnil
        rw [hnil]
        simp
      · simp

/-- The words of a payload are those of its lines: no line cuts or drops one. -/
theorem wordsOf_parse (content : String) :
    (parseIndentedContent content).flatMap (fun line => wordsOf isAlphanumeric line.text) =
      wordsOf isAlphanumeric content := by
  have hline : ∀ ls : List String, (ls.filterMap parseLine).flatMap
      (fun line => wordsOf isAlphanumeric line.text) = ls.flatMap (wordsOf isAlphanumeric) := by
    intro ls
    induction ls with
    | nil => rfl
    | cons line ls ih =>
      have htrim := wordsOf_trim h line
      rw [filterMap_parseLine,List.flatMap_append,ih,List.flatMap_cons,parseLine]
      by_cases hblank : trim line = ""
      · rw [hblank] at htrim
        simp [hblank,← htrim]
      · simp [hblank,htrim]
  rw [parseIndentedContent,hline,lines,List.flatMap_map]
  simp only [wordsOf,String.toList_ofList]
  exact words_linesOf h content.toList

omit h in
/-- The nodes made for a payload have the words of its lines as their names. -/
theorem wordsOf_madeNodes (base : Option String) {parsed : List ParsedLine} {ids : List String}
    (hids : ids.length = parsed.length) :
    (madeNodes base parsed ids).flatMap (fun n => wordsOf isAlphanumeric n.name) =
      parsed.flatMap (fun line => wordsOf isAlphanumeric line.text) := by
  have hnames : (madeNodes base parsed ids).map WorkflowyNode.name = parsed.map ParsedLine.text := by
    refine List.ext_getElem (by simp [madeNodes,hids]) fun i hi hi' => ?_
    rw [List.length_map] at hi'
    simp [madeNodes,hi']
  have hwords := congrArg (List.flatMap (wordsOf isAlphanumeric)) hnames
  rwa [List.flatMap_map,List.flatMap_map] at hwords

end words

/-- Inserting what was converted, when it completes, makes the nodes that were announced but for one
for each blank line in code; and their names have the words of the content, in order. -/
theorem insert_convert {isAlphanumeric : Char → Bool} (h : Alphanumeric isAlphanumeric) {σ : Type}
    (w : World σ) (maxAttempts : Nat) (base : Option String) (markdown : String) (s : σ)
    {parentId : Option String} {count : Nat} {last : Option String} {fp : MutationFootprint}
    (hrun : ((insertContentViaIndented maxAttempts base
      (parseIndentedContent (convertMarkdown markdown).content)).run w.serve s).1 =
        .ok (.Complete parentId count last,fp)) :
    let parsed := parseIndentedContent (convertMarkdown markdown).content
    let after := w.nodes ((insertContentViaIndented maxAttempts base parsed).run w.serve s).2
    let made := madeNodes base parsed (fp.createdNodes.map WorkflowyNode.id)
    made⊆after ∧ made.length+blankCode false (lines markdown) = (convertMarkdown markdown).nodeCount ∧
      made.flatMap (fun n => wordsOf isAlphanumeric n.name) =
        wordsOf isAlphanumeric (convertMarkdown markdown).content := by
  intro parsed after made
  obtain ⟨ids,hids,-,hfp,hmade,-⟩ := complete_booked hrun
  have hmadeEq : made = madeNodes base parsed ids := by rw [← hfp]
  have hlen : made.length = parsed.length := by simp [hmadeEq,madeNodes,hids,parsed]
  rw [hlen,hmadeEq,wordsOf_madeNodes base hids]
  exact ⟨hmade,(parse_convert markdown).2,wordsOf_parse h _⟩

/-- A heading over code with a blank line. -/
def planWithCode : String := "# Plan\n\x60\x60\x60\nx\n\n\x60\x60\x60"

theorem insert_convert_code :
    ∃ made : List WorkflowyNode, made⊆((insertContentViaIndented RETRY_MAX_ATTEMPTS none
      (parseIndentedContent (convertMarkdown planWithCode).content)).run
        (Service.reliable.world {}).serve ⟨[],0⟩).2.nodes ∧
      made.length+1 = (convertMarkdown planWithCode).nodeCount ∧
      made.flatMap (fun n => wordsOf Char.isAlphanum n.name) =
        ["Plan".toList,"Code".toList,"x".toList] := by
  have hparsed : parseIndentedContent (convertMarkdown planWithCode).content =
      [⟨"Plan",0⟩,⟨"[Code]",0⟩,⟨"x",1⟩] := by decide +kernel
  have hrun : ∃ count last fp, ((insertContentViaIndented RETRY_MAX_ATTEMPTS none
      [⟨"Plan",0⟩,⟨"[Code]",0⟩,⟨"x",1⟩]).run (Service.reliable.world {}).serve ⟨[],0⟩).1 =
        .ok (.Complete none count last,fp) := ⟨_,_,_,rfl⟩
  rw [← hparsed] at hrun
  obtain ⟨count,last,fp,hrun⟩ := hrun
  obtain ⟨hsub,hlen,hwords⟩ := insert_convert char_alphanumeric (Service.reliable.world {})
    RETRY_MAX_ATTEMPTS none planWithCode ⟨[],0⟩ hrun
  have hblank : blankCode false (lines planWithCode) = 1 := by decide +kernel
  rw [hblank] at hlen
  exact ⟨_,hsub,hlen,hwords.trans (by decide +kernel)⟩

end WorkflowyMcp.ConvertMarkdown
