import Mathlib.Data.List.Infix
import WorkflowyMcp.Lib.Words
import WorkflowyMcp.Text

/-! Markdown as indented lines, and the words of it that the lines keep. -/
namespace WorkflowyMcp.ConvertMarkdown

structure ConversionStats where
  headers : Nat := 0
  listItems : Nat := 0
  codeBlocks : Nat := 0
  tables : Nat := 0
  blockquotes : Nat := 0
  paragraphs : Nat := 0
deriving DecidableEq, Repr

structure Conversion where
  outputLines : List String := []
  currentIndent : Nat := 0
  inCodeBlock : Bool := false
  codeLang : String := ""
  codeLines : List String := []
  stats : ConversionStats := {}
deriving DecidableEq, Repr

def startsWith (pre s : String) : Bool := pre.toList <+: s.toList

def trimStartMatches (c : Char) (s : String) : String := String.ofList (s.toList.dropWhile (· = c))

/-- The text behind the first two characters. -/
def afterMarker (s : String) : String := String.ofList (s.toList.drop 2)

def isFence (line : String) : Bool := startsWith "\x60\x60\x60" (trimStart line)

def fenceLang (line : String) : String := trim (trimStartMatches '\x60' (trimStart line))

def codeLabel (indent : Nat) (codeLang : String) : String :=
  let label := if codeLang = "" then "Code" else "Code: "++codeLang
  indentation indent++"["++label++"]"

def codeBlock (indent : Nat) (codeLang : String) (codeLines : List String) : List String :=
  codeLabel indent codeLang::codeLines.map fun cl => indentation indent++"  "++cl

/-- What stands before and behind the first `. `. -/
def splitAtDot : List Char → Option (List Char×List Char)
  | '.':: ' '::rest => some ([],rest)
  | c::cs => (splitAtDot cs).map fun p => (c::p.1,p.2)
  | [] => none

/-- The text of an ordered item: up to three digits before the dot. -/
def orderedText (trimmed : String) : Option String :=
  match splitAtDot trimmed.toList with
  | some (before,after) =>
    if (String.ofList before).utf8ByteSize ≤ 3 ∧ before.all Char.isDigit then
      some (String.ofList after)
    else none
  | none => none

def listIndent (currentIndent : Nat) (line : String) : Nat :=
  currentIndent+(line.utf8ByteSize-(trimStart line).utf8ByteSize)/2+1

def isTableRow (trimmed : String) : Bool :=
  startsWith "|" trimmed && trimmed.toList.getLast? = some '|'

def tableCells (trimmed : String) : List String :=
  ((trimmed.toList.splitOn '|').map String.ofList).filterMap fun s =>
    if trim s = "" then none else some (trim s)

/-- A line outside of code: the indent after it, the lines written for it and the counts. -/
def plainLine (currentIndent : Nat) (stats : ConversionStats) (line : String) :
    Nat×List String×ConversionStats :=
  let trimmed := trim line
  if trimmed = "" then (currentIndent,[],stats)
  else if startsWith "#" trimmed then
    let rest := String.ofList (trimmed.toList.drop 1)
    let level := 1+(rest.toList.takeWhile (· = '#')).length
    let text := trim (trimStartMatches '#' rest)
    if text≠"" then
      let indent := min (level-1) 9
      (indent,[indentation indent++text],{ stats with headers := stats.headers+1 })
    else (currentIndent,[],stats)
  else if startsWith ">" trimmed then
    let text := trim (trimStartMatches '>' trimmed)
    (currentIndent,[indentation (currentIndent+1)++"> "++text],
      { stats with blockquotes := stats.blockquotes+1 })
  else if trimmed = "---" ∨ trimmed = "***" ∨ trimmed = "___" then
    (currentIndent,[indentation currentIndent++"---"],stats)
  else if startsWith "- " trimmed || startsWith "* " trimmed || startsWith "+ " trimmed then
    (currentIndent,[indentation (listIndent currentIndent line)++afterMarker trimmed],
      { stats with listItems := stats.listItems+1 })
  else
    match orderedText trimmed with
    | some text =>
      (currentIndent,[indentation (listIndent currentIndent line)++text],
        { stats with listItems := stats.listItems+1 })
    | none =>
      if isTableRow trimmed then
        -- meant for separator rows
        if "---".toList <:+: trimmed.toList then (currentIndent,[],stats)
        else (currentIndent,(tableCells trimmed).map fun cell => indentation (currentIndent+1)++cell,
          { stats with tables := stats.tables+1 })
      else (currentIndent,[indentation currentIndent++trimmed],
        { stats with paragraphs := stats.paragraphs+1 })

def step (st : Conversion) (line : String) : Conversion :=
  if isFence line then
    if st.inCodeBlock then
      { st with
        outputLines := st.outputLines++codeBlock st.currentIndent st.codeLang st.codeLines
        codeLines := []
        codeLang := ""
        inCodeBlock := false
        stats := { st.stats with codeBlocks := st.stats.codeBlocks+1 } }
    else { st with inCodeBlock := true, codeLang := fenceLang line }
  else if st.inCodeBlock then { st with codeLines := st.codeLines++[line] }
  else
    let (indent,written,stats) := plainLine st.currentIndent st.stats line
    { st with currentIndent := indent, outputLines := st.outputLines++written, stats := stats }

/-- A block that is still open at the end is written if it has a line. -/
def finish (st : Conversion) : Conversion :=
  if st.inCodeBlock && !st.codeLines.isEmpty then
    { st with
      outputLines := st.outputLines++codeBlock st.currentIndent st.codeLang st.codeLines
      stats := { st.stats with codeBlocks := st.stats.codeBlocks+1 } }
  else st

structure Converted where
  content : String
  nodeCount : Nat
  stats : ConversionStats
  originalLines : Nat
  outputLines : Nat
deriving DecidableEq, Repr

def convertMarkdown (markdown : String) : Converted :=
  let st := finish ((lines markdown).foldl step {})
  { content := "\n".intercalate st.outputLines
    nodeCount := st.outputLines.length
    stats := st.stats
    originalLines := (lines markdown).length
    outputLines := st.outputLines.length }

/-- The class of `char::is_alphanumeric`, as far as it is used. -/
structure Alphanumeric (isAlphanumeric : Char → Bool) : Prop where
  ascii : ∀ c, c.toNat < 128 → isAlphanumeric c = c.isAlphanum
  space : ∀ c, isWhiteSpace c = true → isAlphanumeric c = false

section words
variable (isAlphanumeric : Char → Bool)

abbrev wordsOf (s : String) : List (List Char) := words isAlphanumeric s.toList

/-- The words a line outside of code has to keep: all, but for the ordinal of a list item. -/
def plainWords (line : String) : List (List Char) :=
  match orderedText (trim line) with
  | some text => wordsOf isAlphanumeric text
  | none => wordsOf isAlphanumeric line

/-- The words each line has to keep. Which of the lines with three backticks delimit code, outside
of it and in it, is left to `isDelimiter`; the others have to keep theirs. -/
def required (isDelimiter : Bool → String → Bool) : Bool → List String → List (List (List Char))
  | _,[] => []
  | inCode,line::rest =>
    if isFence line then
      (if isDelimiter inCode line then [] else wordsOf isAlphanumeric line)::
        required isDelimiter (!inCode) rest
    else
      (if inCode then wordsOf isAlphanumeric line else plainWords isAlphanumeric line)::
        required isDelimiter inCode rest

/-- A table row that is taken for a separator. -/
def droppedRow (line : String) : Bool :=
  isTableRow (trim line) && decide ("---".toList <:+: (trim line).toList)

/-- No row with a word is taken for a separator, and a line with three backticks that is no
delimiter has no word, or opens code and is not the last line. -/
def NothingLost (isDelimiter : Bool → String → Bool) : Bool → List String → Prop
  | _,[] => True
  | inCode,line::rest =>
    if isFence line then
      (isDelimiter inCode line = true ∨ wordsOf isAlphanumeric line = [] ∨
        inCode = false ∧ rest≠[]) ∧ NothingLost isDelimiter (!inCode) rest
    else
      (inCode = true ∨ droppedRow line = false ∨ wordsOf isAlphanumeric line = []) ∧
        NothingLost isDelimiter inCode rest

end words

/-- The lines written for each line, in code or outside of it. -/
def written : Bool → Nat → List String → List (List String)
  | _,_,[] => []
  | false,indent,line::rest =>
    if isFence line then
      (if rest = [] then [] else [codeLabel indent (fenceLang line)])::written true indent rest
    else
      (plainLine indent {} line).2.1::written false (plainLine indent {} line).1 rest
  | true,indent,line::rest =>
    if isFence line then []::written false indent rest
    else [indentation indent++"  "++line]::written true indent rest

theorem plainLine_stats (indent : Nat) (stats : ConversionStats) (line : String) :
    (plainLine indent stats line).1 = (plainLine indent {} line).1 ∧
      (plainLine indent stats line).2.1 = (plainLine indent {} line).2.1 := by
  unfold plainLine
  dsimp only
  repeat' split
  all_goals exact ⟨rfl,rfl⟩

theorem codeBlock_concat (indent : Nat) (codeLang : String) (codeLines : List String)
    (line : String) : codeBlock indent codeLang (codeLines++[line]) =
      codeBlock indent codeLang codeLines++[indentation indent++"  "++line] := by
  simp [codeBlock]

section step
variable {st : Conversion} {line : String}

theorem step_opens (hcode : st.inCodeBlock = false) (hfence : isFence line = true) :
    step st line = { st with inCodeBlock := true, codeLang := fenceLang line } := by
  simp [step,hfence,hcode]

theorem step_writes (hcode : st.inCodeBlock = false) (hfence : ¬isFence line = true) :
    step st line = { st with
      currentIndent := (plainLine st.currentIndent st.stats line).1
      outputLines := st.outputLines++(plainLine st.currentIndent st.stats line).2.1
      stats := (plainLine st.currentIndent st.stats line).2.2 } := by
  simp [step,hfence,hcode]

theorem step_closes (hcode : st.inCodeBlock = true) (hfence : isFence line = true) :
    step st line = { st with
      outputLines := st.outputLines++codeBlock st.currentIndent st.codeLang st.codeLines
      codeLines := []
      codeLang := ""
      inCodeBlock := false
      stats := { st.stats with codeBlocks := st.stats.codeBlocks+1 } } := by
  simp [step,hfence,hcode]

theorem step_holds (hcode : st.inCodeBlock = true) (hfence : ¬isFence line = true) :
    step st line = { st with codeLines := st.codeLines++[line] } := by
  simp [step,hfence,hcode]

end step

/-- The loop writes the lines of each line in turn. In code they are held back, from the label on,
until the code is closed or the text ends. -/
theorem outputLines_run (ls : List String) (st : Conversion) :
    (st.inCodeBlock = false → st.codeLines = [] →
      (finish (ls.foldl step st)).outputLines =
        st.outputLines++(written false st.currentIndent ls).flatten) ∧
    (st.inCodeBlock = true → (finish (ls.foldl step st)).outputLines =
      st.outputLines++((if ls = [] ∧ st.codeLines = [] then []
        else codeBlock st.currentIndent st.codeLang st.codeLines)++
        (written true st.currentIndent ls).flatten)) := by
  induction ls generalizing st with
  | nil =>
    refine ⟨fun hcode _ => by simp [finish,hcode,written],fun hcode => ?_⟩
    cases hlines : st.codeLines <;> simp [finish,hcode,hlines,written]
  | cons line ls ih =>
    constructor
    · intro hcode hnone
      rw [List.foldl_cons,written]
      by_cases hfence : isFence line = true
      · rw [step_opens hcode hfence,(ih _).2 rfl,if_pos hfence,List.flatten_cons,hnone]
        by_cases hls : ls = [] <;> simp [hls,codeBlock]
      · have hplain := plainLine_stats st.currentIndent st.stats line
        have hstep := step_writes hcode hfence
        have hrun := (ih (step st line)).1 (by rw [hstep]; exact hcode) (by rw [hstep]; exact hnone)
        rw [hrun,hstep,if_neg hfence,List.flatten_cons,← hplain.1,← hplain.2,List.append_assoc]
    · intro hcode
      rw [List.foldl_cons,written,if_neg (by simp)]
      by_cases hfence : isFence line = true
      · rw [step_closes hcode hfence,(ih _).1 rfl rfl,if_pos hfence,List.flatten_cons,
          List.nil_append,List.append_assoc]
      · have hstep := step_holds hcode hfence
        have hrun := (ih (step st line)).2 (by rw [hstep]; exact hcode)
        rw [hrun,hstep,if_neg hfence,List.flatten_cons,if_neg (by simp),codeBlock_concat,
          List.append_assoc]

/-- The lines of the content. -/
theorem convertMarkdown_lines (markdown : String) : (convertMarkdown markdown).content =
    "\n".intercalate (written false 0 (lines markdown)).flatten := by
  have hrun := (outputLines_run (lines markdown) {}).1 rfl rfl
  rw [convertMarkdown]
  simp only [hrun,List.nil_append]

@[simp] theorem wordsOf_empty (isAlphanumeric : Char → Bool) : wordsOf isAlphanumeric "" = [] :=
  words_nil

theorem startsWith_iff {pre s : String} :
    startsWith pre s = true ↔ ∃ rest, s.toList = pre.toList++rest := by
  rw [startsWith,decide_eq_true_iff]
  exact ⟨fun ⟨rest,hrest⟩ => ⟨rest,hrest.symm⟩,fun ⟨rest,hrest⟩ => ⟨rest,hrest.symm⟩⟩

theorem splitAtDot_eq {cs before after : List Char} (h : splitAtDot cs = some (before,after)) :
    cs = before++ '.':: ' '::after := by
  induction cs using splitAtDot.induct generalizing before with
  | case1 rest =>
    rw [splitAtDot,Option.some.injEq] at h
    obtain ⟨rfl,rfl⟩ := Prod.mk.inj h
    rfl
  | case2 c cs hdot ih =>
    rw [splitAtDot.eq_2 c cs hdot,Option.map_eq_some_iff] at h
    obtain ⟨⟨before',after'⟩,hsplit,hp⟩ := h
    obtain ⟨rfl,rfl⟩ := Prod.mk.inj hp
    rw [ih hsplit]
    rfl
  | case3 => cases h

/-- An ordered item starts with a digit or with the dot. -/
theorem orderedText_of_head {s : String} {c : Char} {rest : List Char} (hs : s.toList = c::rest)
    (hdigit : c.isDigit = false) (hdot : c≠ '.') : orderedText s = none := by
  rw [orderedText]
  split
  · rename_i before after hsplit
    rw [if_neg]
    rintro ⟨-,hall⟩
    have heq := (splitAtDot_eq hsplit).symm.trans hs
    cases before with
    | nil => exact hdot (List.cons.inj heq).1.symm
    | cons b before =>
      obtain ⟨rfl,-⟩ := List.cons.inj heq
      simp [hdigit] at hall
  · rfl

section keeps
variable {isAlphanumeric : Char → Bool} (h : Alphanumeric isAlphanumeric)
include h

theorem Alphanumeric.mark {c : Char} (hc : c.toNat < 128 ∧ c.isAlphanum = false) :
    isAlphanumeric c = false := by
  rw [h.ascii c hc.1,hc.2]

theorem Alphanumeric.marks {cs : List Char}
    (hcs : cs.Forall fun c => c.toNat < 128 ∧ c.isAlphanum = false) :
    ∀ c∈cs, isAlphanumeric c = false :=
  fun c hc => h.mark (List.forall_iff_forall_mem.mp hcs c hc)

theorem wordsOf_trim (s : String) : wordsOf isAlphanumeric (trim s) = wordsOf isAlphanumeric s := by
  rw [wordsOf,toList_trim,words_rdropWhile h.space,words_dropWhile h.space]

omit h in
theorem wordsOf_trimStartMatches {c : Char} (hc : isAlphanumeric c = false) (s : String) :
    wordsOf isAlphanumeric (trimStartMatches c s) = wordsOf isAlphanumeric s := by
  rw [wordsOf,trimStartMatches,String.toList_ofList]
  exact words_dropWhile (fun d hd => by rw [of_decide_eq_true hd,hc]) _

theorem wordsOf_indented (n : Nat) (s : String) :
    wordsOf isAlphanumeric (indentation n++s) = wordsOf isAlphanumeric s := by
  rw [wordsOf,String.toList_append]
  refine words_append_right fun c hc => ?_
  have hspace : c = ' ' := by
    simp only [indentation,String.toList_join,List.mem_flatMap] at hc
    obtain ⟨t,ht,hc⟩ := hc
    obtain rfl := List.eq_of_mem_replicate ht
    simpa using hc
  rw [hspace]
  exact h.mark (by decide)

/-- A text without alphanumeric characters put before another. -/
theorem wordsOf_prefixed {pre : String}
    (hpre : pre.toList.Forall fun c => c.toNat < 128 ∧ c.isAlphanum = false) (s : String) :
    wordsOf isAlphanumeric (pre++s) = wordsOf isAlphanumeric s := by
  rw [wordsOf,String.toList_append]
  exact words_append_right (h.marks hpre)

theorem plainWords_of_none {line : String} (hnone : orderedText (trim line) = none) :
    plainWords isAlphanumeric line = wordsOf isAlphanumeric (trim line) := by
  rw [plainWords,hnone,wordsOf_trim h]

omit h in
theorem wordsOf_afterMarker {s : String} {c d : Char} {rest : List Char} (hs : s.toList = c::d::rest)
    (hc : isAlphanumeric c = false) (hd : isAlphanumeric d = false) :
    wordsOf isAlphanumeric (afterMarker s) = wordsOf isAlphanumeric s := by
  rw [wordsOf,wordsOf,afterMarker,hs,String.toList_ofList,words_cons_sep hc,words_cons_sep hd]
  rfl

theorem wordsOf_tableCells (s : String) :
    (tableCells s).flatMap (wordsOf isAlphanumeric) = wordsOf isAlphanumeric s := by
  have hcells : ∀ parts : List String, (parts.filterMap fun s =>
      if trim s = "" then none else some (trim s)).flatMap (wordsOf isAlphanumeric) =
        parts.flatMap (wordsOf isAlphanumeric) := by
    intro parts
    induction parts with
    | nil => rfl
    | cons part parts ih =>
      by_cases hpart : trim part = ""
      · have hwords := wordsOf_trim h part
        rw [hpart] at hwords
        rw [List.filterMap_cons_none (by simp [hpart]),ih,List.flatMap_cons,← hwords,wordsOf_empty,
          List.nil_append]
      · simp [hpart,ih,wordsOf_trim h]
  rw [tableCells,hcells,List.flatMap_map]
  simp only [wordsOf,String.toList_ofList]
  exact words_splitOn (h.mark (by decide)) s.toList

theorem wordsOf_headerText {s : String} {rest : List Char} (hs : s.toList = '#'::rest) :
    wordsOf isAlphanumeric (trim (trimStartMatches '#' (String.ofList (s.toList.drop 1)))) =
      wordsOf isAlphanumeric s := by
  rw [wordsOf_trim h,wordsOf_trimStartMatches (h.mark (by decide)),hs,wordsOf,wordsOf,
    String.toList_ofList,hs,words_cons_sep (h.mark (by decide))]
  rfl

theorem wordsOf_quoteText (indent : Nat) (s : String) :
    wordsOf isAlphanumeric (indentation (indent+1)++"> "++trim (trimStartMatches '>' s)) =
      wordsOf isAlphanumeric s := by
  rw [String.append_assoc,wordsOf_indented h,wordsOf_prefixed h (by decide),wordsOf_trim h,
    wordsOf_trimStartMatches (h.mark (by decide))]

/-- A first character that rules an ordinal and a row out. -/
structure Plain (c : Char) : Prop where
  digit : c.isDigit = false
  dot : c≠ '.'
  bar : c≠ '|'

omit h in
theorem droppedRow_of_plain {line : String} {c : Char} {rest : List Char}
    (hs : (trim line).toList = c::rest) (hc : Plain c) : droppedRow line = false := by
  simp [droppedRow,isTableRow,startsWith,hs,hc.bar.symm]

/-- Such a line is its words. -/
theorem required_of_plain {line : String} {c : Char} {rest : List Char}
    (hs : (trim line).toList = c::rest) (hc : Plain c) :
    (if droppedRow line then [] else plainWords isAlphanumeric line) =
      wordsOf isAlphanumeric (trim line) := by
  rw [droppedRow_of_plain hs hc,plainWords_of_none h (orderedText_of_head hs hc.digit hc.dot)]
  rfl

theorem rule_head {s : String} (hs : s = "---" ∨ s = "***" ∨ s = "___") :
    wordsOf isAlphanumeric s = [] ∧ ∃ c rest, s.toList = c::rest ∧ Plain c := by
  constructor
  · rcases hs with rfl | rfl | rfl <;> exact words_of_none (h.marks (by decide))
  · rcases hs with rfl | rfl | rfl
    · exact ⟨'-',['-','-'],by decide,by decide,by decide,by decide⟩
    · exact ⟨'*',['*','*'],by decide,by decide,by decide,by decide⟩
    · exact ⟨'_',['_','_'],by decide,by decide,by decide,by decide⟩

theorem item_head {s : String}
    (hs : (startsWith "- " s || startsWith "* " s || startsWith "+ " s) = true) :
    ∃ c rest, s.toList = c:: ' '::rest ∧ isAlphanumeric c = false ∧ Plain c := by
  rw [Bool.or_eq_true,Bool.or_eq_true] at hs
  rcases hs with (hs | hs) | hs <;> obtain ⟨rest,hrest⟩ := startsWith_iff.mp hs
  · exact ⟨'-',rest,hrest,h.mark (by decide),by decide,by decide,by decide⟩
  · exact ⟨'*',rest,hrest,h.mark (by decide),by decide,by decide,by decide⟩
  · exact ⟨'+',rest,hrest,h.mark (by decide),by decide,by decide,by decide⟩

omit h in
theorem droppedRow_of_ordered {line text : String} (htext : orderedText (trim line) = some text) :
    droppedRow line = false := by
  by_contra hdrop
  rw [Bool.not_eq_false,droppedRow,isTableRow,Bool.and_eq_true,Bool.and_eq_true] at hdrop
  obtain ⟨rest,hrest⟩ := startsWith_iff.mp hdrop.1.1
  have hnone := orderedText_of_head (show (trim line).toList = '|'::rest from hrest) (by decide)
    (by decide)
  rw [hnone] at htext
  cases htext

/-- A line outside of code keeps its words, or is a row taken for a separator. -/
theorem plainLine_words (indent : Nat) (stats : ConversionStats) (line : String) :
    (plainLine indent stats line).2.1.flatMap (wordsOf isAlphanumeric) =
      if droppedRow line then [] else plainWords isAlphanumeric line := by
  rw [plainLine]
  dsimp only
  split
  · rename_i hempty
    have hdropped : droppedRow line = false := by rw [droppedRow,hempty]; rfl
    have hnone : orderedText (trim line) = none := by rw [hempty]; rfl
    rw [hdropped,plainWords_of_none h hnone,hempty]
    simp
  split
  · rename_i hhash
    obtain ⟨rest,hrest⟩ := startsWith_iff.mp hhash
    have hrest : (trim line).toList = '#'::rest := hrest
    rw [required_of_plain h hrest ⟨by decide,by decide,by decide⟩,← wordsOf_headerText h hrest]
    split
    · simp [wordsOf_indented h]
    · rename_i hnil
      rw [not_not.mp hnil]
      simp
  split
  · rename_i hquote
    obtain ⟨rest,hrest⟩ := startsWith_iff.mp hquote
    have hrest : (trim line).toList = '>'::rest := hrest
    rw [required_of_plain h hrest ⟨by decide,by decide,by decide⟩]
    simp [wordsOf_quoteText h]
  split
  · rename_i hrule
    obtain ⟨htrim,c,rest,hrest,hc⟩ := rule_head h hrule
    have hrule : wordsOf isAlphanumeric "---" = [] := (rule_head h (.inl rfl)).1
    simp [required_of_plain h hrest hc,htrim,wordsOf_indented h,hrule]
  split
  · rename_i hitem
    obtain ⟨c,rest,hrest,hmark,hc⟩ := item_head h hitem
    rw [required_of_plain h hrest hc]
    simp [wordsOf_indented h,wordsOf_afterMarker hrest hmark (h.mark (by decide))]
  split
  · rename_i text htext
    rw [droppedRow_of_ordered htext,plainWords,htext]
    simp [wordsOf_indented h]
  · rename_i hnone
    rw [plainWords_of_none h hnone]
    split
    · rename_i hrow'
      split
      · rename_i hdashes
        have hdropped : droppedRow line = true := by
          rw [droppedRow,hrow',decide_eq_true hdashes]
          rfl
        rw [hdropped]
        rfl
      · rename_i hdashes
        have hdropped : droppedRow line = false := by
          rw [droppedRow,decide_eq_false hdashes,Bool.and_false]
        rw [hdropped,List.flatMap_map]
        simp only [wordsOf_indented h]
        exact wordsOf_tableCells h _
    · rename_i hrow'
      simp [droppedRow,hrow',wordsOf_indented h]

theorem wordsOf_fenceLang (line : String) :
    wordsOf isAlphanumeric (fenceLang line) = wordsOf isAlphanumeric line := by
  rw [fenceLang,wordsOf_trim h,wordsOf_trimStartMatches (h.mark (by decide)),wordsOf,trimStart,
    String.toList_ofList,words_dropWhile h.space]

/-- The label carries the words behind the backticks. -/
theorem codeLabel_words (indent : Nat) (line : String) : (wordsOf isAlphanumeric line).Sublist
    (wordsOf isAlphanumeric (codeLabel indent (fenceLang line))) := by
  rw [← wordsOf_fenceLang h line,codeLabel]
  by_cases hlang : fenceLang line = ""
  · rw [hlang,wordsOf_empty]
    exact List.nil_sublist _
  · have hsplit : (indentation indent++"["++("Code: "++fenceLang line)++"]").toList =
        (indentation indent++"[Code:").toList++ ' '::((fenceLang line).toList++"]".toList) := by
      simp [String.toList_append]
    rw [if_neg hlang,wordsOf,wordsOf,hsplit,words_append_sep (h.mark (by decide)),
      words_append_left (a := (fenceLang line).toList) (h.marks (by decide))]
    exact List.sublist_append_right _ _

theorem plainWords_of_dropped {line : String} (hdrop : droppedRow line = true) :
    plainWords isAlphanumeric line = wordsOf isAlphanumeric line := by
  rw [droppedRow,isTableRow,Bool.and_eq_true,Bool.and_eq_true] at hdrop
  obtain ⟨rest,hrest⟩ := startsWith_iff.mp hdrop.1.1
  rw [plainWords_of_none h (orderedText_of_head (show (trim line).toList = '|'::rest from hrest)
    (by decide) (by decide)),wordsOf_trim h]

theorem wordsOf_codeLine (indent : Nat) (line : String) :
    wordsOf isAlphanumeric (indentation indent++"  "++line) = wordsOf isAlphanumeric line := by
  rw [String.append_assoc,wordsOf_indented h,wordsOf_prefixed h (by decide)]

/-- Each line keeps the words it has to, or one of them is lost. -/
theorem written_keeps_iff (isDelimiter : Bool → String → Bool) (ls : List String) (inCode : Bool)
    (indent : Nat) :
    List.Forall₂ (fun kept out => kept.Sublist (out.flatMap (wordsOf isAlphanumeric)))
      (required isAlphanumeric isDelimiter inCode ls) (written inCode indent ls) ↔
    NothingLost isAlphanumeric isDelimiter inCode ls := by
  induction ls generalizing inCode indent with
  | nil => cases inCode <;> simp [required,written,NothingLost]
  | cons line ls ih =>
    by_cases hfence : isFence line = true
    · rw [required,NothingLost,if_pos hfence,if_pos hfence]
      cases inCode with
      | false =>
        rw [written,if_pos hfence,List.forall₂_cons,Bool.not_false,ih]
        refine and_congr_left fun _ => ?_
        have hlabel := codeLabel_words h indent line
        by_cases hls : ls = []
        · by_cases hdel : isDelimiter false line = true <;> simp [hls,hdel]
        · by_cases hdel : isDelimiter false line = true <;> simp [hls,hdel,hlabel]
      | true =>
        rw [written,if_pos hfence,List.forall₂_cons,Bool.not_true,ih]
        refine and_congr_left fun _ => ?_
        by_cases hdel : isDelimiter true line = true <;> simp [hdel]
    · rw [required,NothingLost,if_neg hfence,if_neg hfence]
      cases inCode with
      | false =>
        rw [written,if_neg hfence,List.forall₂_cons,ih]
        refine and_congr_left fun _ => ?_
        rw [plainLine_words h]
        by_cases hdrop : droppedRow line = true
        · simp [hdrop,plainWords_of_dropped h hdrop]
        · simp [hdrop]
      | true =>
        rw [written,if_neg hfence,List.forall₂_cons,ih]
        refine and_congr_left fun _ => ?_
        simp [wordsOf_codeLine h]

theorem wordsOf_content (markdown : String) :
    wordsOf isAlphanumeric (convertMarkdown markdown).content =
      ((written false 0 (lines markdown)).map
        fun out => out.flatMap (wordsOf isAlphanumeric)).flatten := by
  rw [convertMarkdown_lines,wordsOf,String.toList_intercalate]
  have hbreak : "\n".toList = ['\n'] := rfl
  rw [hbreak,words_intercalate (h.mark (by decide)),List.flatMap_map,List.flatMap_def,
    List.map_flatten,List.flatten_flatten,List.map_map]
  rfl

/-- Outside of code no line writes words that are not its own. -/
theorem written_own {isDelimiter : Bool → String → Bool} {ls : List String}
    (hplain : ∀ line∈ls, isFence line = false) (indent : Nat) :
    List.Forall₂ List.Sublist
      ((written false indent ls).map fun out => out.flatMap (wordsOf isAlphanumeric))
      (required isAlphanumeric isDelimiter false ls) := by
  induction ls generalizing indent with
  | nil => simp [required,written]
  | cons line ls ih =>
    obtain ⟨hline,hls⟩ := List.forall_mem_cons.mp hplain
    have hfence : ¬isFence line = true := by simp [hline]
    rw [required,written,if_neg hfence,if_neg hfence,if_neg Bool.false_ne_true,List.map_cons,
      List.forall₂_cons,plainLine_words h]
    refine ⟨?_,ih hls _⟩
    split
    · exact List.nil_sublist _
    · exact .refl _

end keeps

/-- Whether the text is in code behind these lines. -/
def inCodeAfter (inCode : Bool) (ls : List String) : Bool :=
  ls.foldl (fun inCode line => inCode ^^ isFence line) inCode

theorem written_append (pre post : List String) (inCode : Bool) (indent : Nat) :
    ∃ out indent', (written inCode indent (pre++post)).flatten =
      out++(written (inCodeAfter inCode pre) indent' post).flatten := by
  induction pre generalizing inCode indent with
  | nil => exact ⟨[],indent,rfl⟩
  | cons line pre ih =>
    rw [inCodeAfter,List.foldl_cons,← inCodeAfter,List.cons_append]
    have hstep : ∃ here indent', written inCode indent (line::(pre++post)) =
        here::written (inCode ^^ isFence line) indent' (pre++post) := by
      cases inCode <;> rw [written] <;> split <;> rename_i hfence <;> simp only [hfence] <;>
        exact ⟨_,_,rfl⟩
    obtain ⟨here,indent',hstep⟩ := hstep
    obtain ⟨out,indent'',hout⟩ := ih (inCode ^^ isFence line) indent'
    exact ⟨here++out,indent'',by rw [hstep,List.flatten_cons,hout,List.append_assoc]⟩

/-- Code that is not closed is written in full. -/
theorem written_code {ls : List String} (hopen : ∀ line∈ls, isFence line = false) (indent : Nat) :
    (written true indent ls).flatten = ls.map fun line => indentation indent++"  "++line := by
  induction ls with
  | nil => rfl
  | cons line ls ih =>
    obtain ⟨hline,hls⟩ := List.forall_mem_cons.mp hopen
    rw [written,if_neg (by simp [hline]),List.flatten_cons,ih hls]
    rfl

/-- Each line of a markdown text is written in turn, and keeps its words if and only if no row with
words is taken for a separator and no line with backticks that is no delimiter is read as one that
writes nothing. The content then has the words in their order; without backticks it has them only
then. What follows the last opening of code is there in full. -/
theorem convert_keeps_iff {isAlphanumeric : Char → Bool} (h : Alphanumeric isAlphanumeric)
    (isDelimiter : Bool → String → Bool) (markdown : String) :
    let needed := required isAlphanumeric isDelimiter false (lines markdown)
    let out := written false 0 (lines markdown)
    let content := (convertMarkdown markdown).content
    let kept := NothingLost isAlphanumeric isDelimiter false (lines markdown)
    content = "\n".intercalate out.flatten ∧
    (List.Forall₂ (fun ws ls => ws.Sublist (ls.flatMap (wordsOf isAlphanumeric))) needed out ↔
      kept) ∧
    (kept → needed.flatten.Sublist (wordsOf isAlphanumeric content)) ∧
    ((∀ line∈lines markdown, isFence line = false) →
      (needed.flatten.Sublist (wordsOf isAlphanumeric content) ↔ kept)) ∧
    ∀ pre line post, lines markdown = pre++line::post → inCodeAfter false pre = false →
      isFence line = true → (∀ l∈post, isFence l = false) →
      ∃ before indent, out.flatten = before++post.map fun l => indentation indent++"  "++l := by
  intro needed out content kept
  have hkept : List.Forall₂ (fun ws ls => ws.Sublist (ls.flatMap (wordsOf isAlphanumeric)))
      needed out ↔ kept := written_keeps_iff h isDelimiter (lines markdown) false 0
  have hwords := wordsOf_content h markdown
  have hsub : kept → needed.flatten.Sublist (wordsOf isAlphanumeric content) := fun hk => by
    rw [hwords]
    exact flatten_sublist (List.forall₂_map_right_iff.mpr (hkept.mpr hk))
  refine ⟨convertMarkdown_lines markdown,hkept,hsub,fun hplain => ⟨fun hflat => ?_,hsub⟩,
    fun pre line post hls hpre hline hpost => ?_⟩
  · rw [hwords] at hflat
    have hsame := eq_of_flatten_sublist (written_own h hplain 0) hflat
    refine hkept.mp (List.forall₂_map_right_iff.mp ?_)
    rw [← hsame]
    exact List.forall₂_same.mpr fun _ _ => .refl _
  · obtain ⟨before,indent,hbefore⟩ := written_append (pre++[line]) post false 0
    have hcode : inCodeAfter false (pre++[line]) = true := by
      have hpre' : pre.foldl (fun inCode line => inCode ^^ isFence line) false = false := hpre
      rw [inCodeAfter,List.foldl_append,hpre']
      simp [hline]
    rw [List.append_assoc,List.singleton_append,← hls,hcode,written_code hpost] at hbefore
    exact ⟨before,indent,hbefore⟩

theorem char_alphanumeric : Alphanumeric Char.isAlphanum := by
  refine ⟨fun _ _ => rfl,fun c hc => ?_⟩
  have hword := asciiWord_wordClass.space c hc
  simp only [asciiWord,Bool.or_eq_false_iff] at hword
  exact hword.1

theorem item_and_row_kept :
    (required Char.isAlphanum (fun _ _ => true) false
      (lines "1. plan\n| x | y |")).flatten.Sublist
      (wordsOf Char.isAlphanum (convertMarkdown "1. plan\n| x | y |").content) := by
  refine (convert_keeps_iff char_alphanumeric _ _).2.2.1 ?_
  have hlines : lines "1. plan\n| x | y |" = ["1. plan","| x | y |"] := by decide +kernel
  rw [hlines]
  refine ⟨.inr (.inl ?_),.inr (.inl ?_),trivial⟩
  · decide +kernel
  · decide +kernel

/-- A row with dashes in a word is taken for a separator. -/
theorem dashed_row_lost : (convertMarkdown "| a---b | c |").content = "" ∧
    ¬(required Char.isAlphanum (fun _ _ => true) false (lines "| a---b | c |")).flatten.Sublist
      (wordsOf Char.isAlphanum (convertMarkdown "| a---b | c |").content) := by
  decide +kernel

end WorkflowyMcp.ConvertMarkdown
