import WorkflowyMcp.InsertContent
import WorkflowyMcp.Text

/-! Two-space-indented text as the lines that `insert_content` creates nodes for. -/
namespace WorkflowyMcp.InsertContent

/-- A line of the text; blank lines are dropped. -/
def parseLine (line : String) : Option ParsedLine :=
  let trimmed := trim line
  if trimmed = "" then none
  else
    let leading := line.utf8ByteSize-(trimStart line).utf8ByteSize
    some ⟨trimmed,leading/2⟩

def parseIndentedContent (content : String) : List ParsedLine :=
  (lines content).filterMap parseLine

def printLine (line : ParsedLine) : String := indentation line.indent++line.text

/-- The text that says these lines. -/
def print (ls : List ParsedLine) : String := "\n".intercalate (ls.map printLine)

/-- Lines that a text can say: on one line, and neither blank nor with space around them. -/
structure ParsedLine.WellFormed (line : ParsedLine) : Prop where
  trimmed : trim line.text = line.text
  nonblank : line.text≠""
  oneLine : '\n'∉line.text.toList

section linesOf

theorem linesOf_cons {c : Char} {cs : List Char} (hc : c≠ '\n')
    (hcs : c = '\r' → cs.head? ≠ some '\n') : linesOf (c::cs) =
      match linesOf cs with
      | [] => [[c]]
      | line::ls => (c::line)::ls :=
  linesOf.eq_4 c cs (fun h => hc h) fun _ hr h => hcs hr (by rw [h]; rfl)

theorem linesOf_append {l rest : List Char} (hl : '\n'∉l) : linesOf (l++ '\n'::rest) =
    (if l.getLast? = some '\r' then l.dropLast else l)::linesOf rest := by
  induction l with
  | nil => rfl
  | cons c l ih =>
    have hc : c≠ '\n' := fun h => hl (h ▸ List.mem_cons_self)
    have hl : '\n'∉l := fun h => hl (List.mem_cons_of_mem _ h)
    cases l with
    | nil =>
      by_cases hr : c = '\r'
      · subst hr
        rfl
      · have hne : ([c].getLast? = some '\r') = False := by simpa using hr
        simp only [hne,if_false,List.cons_append,List.nil_append]
        rw [linesOf_cons hc (fun h => absurd h hr)]
        rfl
    | cons d l =>
      have hd : d≠ '\n' := fun h => hl (h ▸ List.mem_cons_self)
      rw [List.cons_append,linesOf_cons hc (by simpa using fun _ => hd),ih hl]
      dsimp only
      rw [List.getLast?_cons_cons,List.dropLast_cons_cons]
      split <;> rfl

theorem linesOf_line {l : List Char} (hl : '\n'∉l) : linesOf l = if l = [] then [] else [l] := by
  induction l with
  | nil => rfl
  | cons c l ih =>
    have hc : c≠ '\n' := fun h => hl (h ▸ List.mem_cons_self)
    have hl : '\n'∉l := fun h => hl (List.mem_cons_of_mem _ h)
    rw [linesOf_cons hc fun _ h => hl (List.mem_of_head? h),ih hl]
    cases l <;> rfl

theorem newline_not_mem_linesOf {cs l : List Char} (h : l∈linesOf cs) : '\n'∉l := by
  induction cs using linesOf.induct generalizing l with
  | case1 => cases h
  | case2 cs ih => rcases List.mem_cons.mp h with rfl | h <;> [exact List.not_mem_nil; exact ih h]
  | case3 cs ih => rcases List.mem_cons.mp h with rfl | h <;> [exact List.not_mem_nil; exact ih h]
  | case4 c cs hc hcr hnil ih =>
    rw [linesOf.eq_4 _ _ hc hcr,hnil] at h
    obtain rfl : l = [c] := by simpa using h
    simpa using fun h => hc h.symm
  | case5 c cs hc hcr line lines hlines ih =>
    rw [linesOf.eq_4 _ _ hc hcr,hlines] at h
    rw [hlines] at ih
    rcases List.mem_cons.mp h with rfl | h
    · have hline := ih List.mem_cons_self
      simpa [hline] using fun h => hc h.symm
    · exact ih (List.mem_cons_of_mem _ h)

end linesOf

section parseLine

theorem toList_indentation (k : Nat) : (indentation k).toList = List.replicate (2*k) ' ' := by
  induction k with
  | zero => rfl
  | succ k ih =>
    rw [indentation,List.replicate_succ,String.join_cons,String.toList_append]
    rw [indentation] at ih
    rw [ih,Nat.mul_succ,Nat.add_comm,List.replicate_add]
    rfl

/-- The size of the space before the first other character. -/
def leading (cs : List Char) : Nat := ((cs.takeWhile isWhiteSpace).map Char.utf8Size).sum

theorem parseLine_ofList (cs : List Char) : parseLine (String.ofList cs) =
    if (cs.dropWhile isWhiteSpace).rdropWhile isWhiteSpace = [] then none
    else some ⟨String.ofList ((cs.dropWhile isWhiteSpace).rdropWhile isWhiteSpace),leading cs/2⟩ := by
  have htrim : trim (String.ofList cs) =
      String.ofList ((cs.dropWhile isWhiteSpace).rdropWhile isWhiteSpace) := by
    rw [← String.toList_inj,toList_trim]
    simp
  have hlead : (String.ofList cs).utf8ByteSize-(trimStart (String.ofList cs)).utf8ByteSize =
      leading cs := by
    have hsplit : cs.map Char.utf8Size = (cs.takeWhile isWhiteSpace).map Char.utf8Size++
        (cs.dropWhile isWhiteSpace).map Char.utf8Size := by
      rw [← List.map_append,List.takeWhile_append_dropWhile]
    rw [trimStart,String.toList_ofList,utf8ByteSize_ofList,utf8ByteSize_ofList,hsplit,
      List.sum_append,leading]
    omega
  have hempty (t : List Char) : String.ofList t = "" ↔ t = [] := by
    rw [← String.toList_inj]
    simp
  simp only [parseLine,htrim,hlead,hempty]

/-- Space at the end of a line changes nothing. -/
theorem parseLine_concat {c : Char} (hc : isWhiteSpace c = true) (cs : List Char) :
    parseLine (String.ofList (cs++[c])) = parseLine (String.ofList cs) := by
  rw [parseLine_ofList,parseLine_ofList]
  by_cases hall : ∀ d∈cs, isWhiteSpace d = true
  · have hnone : cs.dropWhile isWhiteSpace = [] := List.dropWhile_eq_nil_iff.mpr hall
    have hall' : (cs++[c]).dropWhile isWhiteSpace = [] :=
      List.dropWhile_eq_nil_iff.mpr (by simpa [or_imp,forall_and,hc] using hall)
    simp [hnone,hall']
  · have hne : cs.dropWhile isWhiteSpace≠[] := by simpa using hall
    have hdrop : (cs++[c]).dropWhile isWhiteSpace = cs.dropWhile isWhiteSpace++[c] := by
      rw [List.dropWhile_append,if_neg (by simpa using hne)]
    have htake : (cs++[c]).takeWhile isWhiteSpace = cs.takeWhile isWhiteSpace := by
      rw [List.takeWhile_append,if_neg]
      intro hlen
      have hsplit := congrArg List.length (List.takeWhile_append_dropWhile
        (p := isWhiteSpace) (l := cs))
      have hpos := List.length_pos_of_ne_nil hne
      rw [List.length_append] at hsplit
      omega
    rw [hdrop,List.rdropWhile_concat_pos _ _ _ hc]
    simp [leading,htake]

/-- Two spaces in front of a line are one level. -/
theorem parseLine_indented (k : Nat) (text : String) : parseLine (indentation k++text) =
    (parseLine text).map fun line => { line with indent := k+line.indent } := by
  have hlist : indentation k++text = String.ofList (List.replicate (2*k) ' '++text.toList) := by
    rw [← String.toList_inj,String.toList_append,String.toList_ofList,toList_indentation]
  have hspace : ∀ c∈List.replicate (2*k) ' ', isWhiteSpace c = true := by
    intro c hc
    rw [List.eq_of_mem_replicate hc]
    decide
  have hlead : leading (List.replicate (2*k) ' '++text.toList) = 2*k+leading text.toList := by
    have hone : ' '.utf8Size = 1 := by decide
    rw [leading,List.takeWhile_append_of_pos hspace]
    simp [leading,hone]
  have htext := parseLine_ofList text.toList
  rw [String.ofList_toList] at htext
  rw [hlist,parseLine_ofList,List.dropWhile_append_of_pos hspace,hlead,htext]
  split
  · rfl
  · simp only [Option.map_some,Option.some.injEq,ParsedLine.mk.injEq,true_and]
    omega

theorem filterMap_parseLine (line : String) (ls : List String) :
    (line::ls).filterMap parseLine = (parseLine line).toList++ls.filterMap parseLine := by
  rw [List.filterMap_cons]
  cases parseLine line <;> rfl

theorem parse_line {line : String} (hline : '\n'∉line.toList) (rest : String) :
    parseIndentedContent (line++"\n"++rest) =
      (parseLine line).toList++parseIndentedContent rest := by
  have hlist : (line++"\n"++rest).toList = line.toList++ '\n'::rest.toList := by simp
  rw [parseIndentedContent,lines,hlist,linesOf_append hline,List.map_cons,List.filterMap_cons]
  have hparse : parseLine (String.ofList (if line.toList.getLast? = some '\r' then
      line.toList.dropLast else line.toList)) = parseLine line := by
    split
    · next hlast =>
      have hsplit := List.dropLast_append_getLast? _ hlast
      rw [← parseLine_concat (c := '\r') (by decide),hsplit,String.ofList_toList]
    · rw [String.ofList_toList]
  rw [← List.filterMap_cons,filterMap_parseLine,hparse]
  rfl

theorem parse_last {line : String} (hline : '\n'∉line.toList) :
    parseIndentedContent line = (parseLine line).toList := by
  rw [parseIndentedContent,lines,linesOf_line hline]
  by_cases hnil : line.toList = []
  · have hempty : line = "" := by
      rw [← String.toList_inj,hnil]
      rfl
    subst hempty
    rfl
  · rw [if_neg hnil,List.map_singleton,List.filterMap_cons,String.ofList_toList]
    cases parseLine line <;> rfl

/-- A text of lines is parsed line by line. -/
theorem parse_intercalate {ls : List String} (hls : ∀ l∈ls, '\n'∉l.toList) :
    parseIndentedContent ("\n".intercalate ls) = ls.filterMap parseLine := by
  induction ls with
  | nil => rfl
  | cons line ls ih =>
    obtain ⟨hline,hls⟩ := List.forall_mem_cons.mp hls
    cases ls with
    | nil =>
      rw [String.intercalate_singleton,parse_last hline,List.filterMap_cons]
      cases parseLine line <;> rfl
    | cons next ls =>
      rw [String.intercalate_cons_cons,parse_line hline,ih hls,← filterMap_parseLine]

end parseLine

section roundTrip

theorem wellFormed_of_parseLine {line : String} {p : ParsedLine} (hline : '\n'∉line.toList)
    (h : parseLine line = some p) : p.WellFormed := by
  unfold parseLine at h
  dsimp only at h
  split at h
  · cases h
  · next hne =>
    obtain rfl := Option.some.inj h
    refine ⟨trim_trim line,hne,fun hmem => hline ?_⟩
    rw [toList_trim] at hmem
    exact (List.dropWhile_sublist _).subset ((List.rdropWhile_prefix _ _).subset hmem)

/-- What is accepted is well formed. -/
theorem wellFormed_of_parse {content : String} {p : ParsedLine}
    (h : p∈parseIndentedContent content) : p.WellFormed := by
  obtain ⟨line,hline,hp⟩ := List.mem_filterMap.mp h
  obtain ⟨cs,hcs,rfl⟩ := List.mem_map.mp hline
  exact wellFormed_of_parseLine (by simpa using newline_not_mem_linesOf hcs) hp

theorem parseLine_printLine {p : ParsedLine} (h : p.WellFormed) :
    parseLine (printLine p) = some p := by
  have hdrop : p.text.toList.dropWhile isWhiteSpace = p.text.toList := by
    have htrim := congrArg List.length (congrArg String.toList h.trimmed)
    rw [toList_trim] at htrim
    have hle := (List.rdropWhile_prefix isWhiteSpace
      (p.text.toList.dropWhile isWhiteSpace)).length_le
    exact (List.dropWhile_sublist _).eq_of_length_le (by omega)
  have hstart : trimStart p.text = p.text := by
    rw [trimStart,hdrop,String.ofList_toList]
  have htext : parseLine p.text = some ⟨p.text,0⟩ := by
    simp only [parseLine,h.trimmed,if_neg h.nonblank,hstart,Nat.sub_self,Nat.zero_div]
  rw [printLine,parseLine_indented,htext]
  rfl

/-- Lines come back from the text that says them if and only if they are well formed. -/
theorem parse_print_iff (ls : List ParsedLine) :
    parseIndentedContent (print ls) = ls ↔ ∀ p∈ls, p.WellFormed := by
  constructor
  · intro h p hp
    rw [← h] at hp
    exact wellFormed_of_parse hp
  · intro h
    have hlines : ∀ l∈ls.map printLine, '\n'∉l.toList := by
      intro l hl
      obtain ⟨p,hp,rfl⟩ := List.mem_map.mp hl
      rw [printLine,String.toList_append,toList_indentation,List.mem_append]
      rintro (hmem | hmem)
      · cases List.eq_of_mem_replicate hmem
      · exact (h p hp).oneLine hmem
    rw [print,parse_intercalate hlines,List.filterMap_map]
    calc ls.filterMap (parseLine ∘ printLine)
      _ = ls.filterMap some := List.filterMap_congr fun p hp => parseLine_printLine (h p hp)
      _ = ls := List.filterMap_some

end roundTrip

end WorkflowyMcp.InsertContent
