import WorkflowyMcp.Lib.Rewriting
import WorkflowyMcp.Text

/-! Names as the service stores them, with markup and entities, and the text that they show. -/
namespace WorkflowyMcp.Html
open Rewriting

def replaceAll (s pat new : String) : String :=
  String.ofList (replace pat.toList new.toList s.toList)

/-- `<[^>]+>` -/
def tagAt : List Char → Option (Nat × List Char)
  | '<'::rest =>
    let inner := rest.takeWhile (· ≠ '>')
    if inner ≠ [] ∧ '>'∈rest then some (inner.length+2,[]) else none
  | _ => none

def stripHtml (s : String) : String := String.ofList (rewrite tagAt s.toList)

def nonBreakingSpace : Char := '\u00a0'

/-- `&amp;` is decoded last. -/
def decodeEntities (s : String) : String :=
  if '&'∉s.toList ∧ nonBreakingSpace∉s.toList then s
  else
    let s := replaceAll s "&lt;" "<"
    let s := replaceAll s "&gt;" ">"
    let s := replaceAll s "&quot;" "\""
    let s := replaceAll s "&#39;" "'"
    let s := replaceAll s "&apos;" "'"
    let s := replaceAll s "&nbsp;" " "
    let s := replaceAll s (String.singleton nonBreakingSpace) " "
    replaceAll s "&amp;" "&"

section anchors
variable (isWord : Char → Bool)

/-- The text starts with the literal, whatever the case of its letters. -/
def startsLike (literal : String) (cs : List Char) : Bool :=
  decide (literal.toList <+: cs.map Char.toLower)

/-- The text before the first `</a>`. -/
def untilClose : List Char → Option (List Char)
  | [] => none
  | c::cs => if startsLike "</a>" (c::cs) then some [] else (untilClose cs).map (c::·)

/- The rest of the pattern behind `k` characters of the tag: the length of the match behind
   them, the address and what is between the tags. -/
def hrefAt (before after : List Char) : Option (Nat × List Char × List Char) :=
  if isWord (before.getLastD 'a') = false ∧ startsLike "href=\"" after then
    let url := (after.drop 6).takeWhile (· ≠ '"')
    let rest := (after.drop 6).dropWhile (· ≠ '"')
    let attributes := rest.tail.takeWhile (· ≠ '>')
    let inner := rest.tail.dropWhile (· ≠ '>')
    if rest = [] ∨ inner = [] then none
    else (untilClose inner.tail).map fun text =>
      (6+url.length+1+attributes.length+1+text.length+4,url,text)
  else none

/-- `<a\b[^>]*\bhref="([^"]*)"[^>]*>(.*?)</a>`, with the longest part before `href` first. -/
def anchorAt (cs : List Char) : Option (Nat × List Char) :=
  let rest := cs.drop 2
  if startsLike "<a" cs ∧ rest.head?.all (!isWord ·) then
    let run := rest.takeWhile (· ≠ '>')
    ((List.range (run.length+1)).reverse.findSome? fun k =>
      (hrefAt isWord (rest.take k) (rest.drop k)).map fun m => (k,m)).map fun found =>
        let url := found.2.2.1
        let text := (trim (stripHtml (String.ofList found.2.2.2))).toList
        (2+found.1+found.2.1,
          if text = [] ∨ text = url then url else text++" (".toList++url++[')'])
  else none

def renderDisplay (s : String) : String :=
  if '<'∉s.toList ∧ '&'∉s.toList ∧ nonBreakingSpace∉s.toList then s
  else decodeEntities (stripHtml (String.ofList (rewrite (anchorAt isWord) s.toList)))

end anchors

def xmlEscape (s : String) : String :=
  let s := replaceAll s "&" "&amp;"
  let s := replaceAll s "<" "&lt;"
  let s := replaceAll s ">" "&gt;"
  let s := replaceAll s "\"" "&quot;"
  replaceAll s "'" "&apos;"

/-- The characters that are escaped. -/
def special : List Char := ['&','<','>','"','\'']

/-- Their entities; the one for the single quote differs. -/
def entity (apos : String) : Char → List Char
  | '&' => "&amp;".toList
  | '<' => "&lt;".toList
  | '>' => "&gt;".toList
  | '"' => "&quot;".toList
  | '\'' => apos.toList
  | c => [c]

/-- The escaped form of a text. -/
def escape (apos s : String) : String := String.ofList (encode (entity apos) special s.toList)

theorem xmlEscape_eq (s : String) : xmlEscape s = escape "&apos;" s := by
  have hpairs : special.Pairwise fun a b => a≠b ∧ b∉entity "&apos;" a := by decide
  rw [escape,← foldl_replace hpairs]
  simp only [xmlEscape,replaceAll,String.toList_ofList]
  rfl

theorem replaceAll_of_not_mem {s pat : String} {x : Char} (hpat : pat.toList.head? = some x)
    (hx : x∉s.toList) (new : String) : replaceAll s pat new = s := by
  rw [replaceAll,replace_of_not_mem hpat hx,String.ofList_toList]

/-- The check before the replacements saves time only. -/
theorem decodeEntities_eq (s : String) : decodeEntities s =
    replaceAll (replaceAll (replaceAll (replaceAll (replaceAll (replaceAll (replaceAll (replaceAll
      s "&lt;" "<") "&gt;" ">") "&quot;" "\"") "&#39;" "'") "&apos;" "'") "&nbsp;" " ")
      (String.singleton nonBreakingSpace) " ") "&amp;" "&" := by
  rw [decodeEntities]
  split
  · rename_i hfast
    obtain ⟨hamp,hspace⟩ := hfast
    have hentity {pat : String} (hpat : pat.toList.head? = some '&') (new : String) :
        replaceAll s pat new = s := replaceAll_of_not_mem hpat hamp new
    rw [hentity rfl,hentity rfl,hentity rfl,hentity rfl,hentity rfl,hentity rfl,
      replaceAll_of_not_mem (by simp) hspace,hentity rfl]
  · rfl

/-- The escaped form when the entities of some characters only are left in it. -/
def pending (apos : String) (left : List Char) (s : String) : String :=
  String.ofList (encode (entity apos) left s.toList)

section decoding
variable {apos : String} (h : apos = "&apos;" ∨ apos = "&#39;")
include h

theorem entity_codes : Codes '&' (entity apos) special := by
  have hmarked : (special.all fun a =>
      decide ((entity apos a).head? = some '&' ∧ '&'∉(entity apos a).tail)) = true := by
    obtain rfl | rfl := h <;> decide
  have hapart : (special.all fun a => special.all fun b =>
      decide (entity apos a <+: entity apos b → a = b)) = true := by
    obtain rfl | rfl := h <;> decide
  simp only [List.all_eq_true,decide_eq_true_eq] at hmarked hapart
  exact ⟨hmarked,hapart⟩

/-- An entity that is left is decoded. -/
theorem replaceAll_entity {left : List Char} (hsub : left ⊆ special) (hamp : '&'∈left) {a : Char}
    (ha : a∈left) {pat : String} (hpat : pat.toList = entity apos a) (s : String) :
    replaceAll (pending apos left s) pat (String.singleton a) =
      pending apos (left.filter (· ≠ a)) s := by
  have hcodes := (entity_codes h).mono hsub
  have hnew : (String.singleton a).toList = [a] := by simp
  rw [replaceAll,pending,String.toList_ofList,hpat,hnew,hcodes.replace_code hamp ha,pending]

/-- Another entity is not found. -/
theorem replaceAll_foreign {left : List Char} (hsub : left ⊆ special) (hamp : '&'∈left)
    {pat : String} (hpat : pat.toList.head? = some '&')
    (hforeign : (special.all fun a =>
      decide (¬entity apos a <+: pat.toList ∧ ¬pat.toList <+: entity apos a)) = true)
    (new s : String) : replaceAll (pending apos left s) pat new = pending apos left s := by
  have hcodes := (entity_codes h).mono hsub
  simp only [List.all_eq_true,decide_eq_true_eq] at hforeign
  rw [replaceAll,pending,String.toList_ofList,
    hcodes.replace_foreign hamp hpat (fun a ha => hforeign a (hsub ha))]

end decoding

theorem replaceAll_quote {apos : String} (h : apos = "&apos;" ∨ apos = "&#39;") {left : List Char}
    (hsub : left ⊆ special) (hamp : '&'∈left) (hquote : '\''∈left) (s : String) :
    replaceAll (replaceAll (pending apos left s) "&#39;" "'") "&apos;" "'" =
      pending apos (left.filter (· ≠ '\'')) s := by
  have hrest : left.filter (· ≠ '\'') ⊆ special := fun a ha => hsub (List.mem_of_mem_filter ha)
  have hamp' : '&'∈left.filter (· ≠ '\'') := List.mem_filter.mpr ⟨hamp,rfl⟩
  obtain rfl | rfl := h
  · rw [replaceAll_foreign (Or.inl rfl) hsub hamp rfl (by decide)]
    exact replaceAll_entity (Or.inl rfl) hsub hamp hquote rfl s
  · have hdone : replaceAll (pending "&#39;" left s) "&#39;" "'" =
        pending "&#39;" (left.filter (· ≠ '\'')) s :=
      replaceAll_entity (Or.inr rfl) hsub hamp hquote rfl s
    rw [hdone]
    exact replaceAll_foreign (Or.inr rfl) hrest hamp' rfl (by decide) _ s

/-- The text with its non-breaking spaces as plain ones. -/
def spaced (s : String) : String :=
  String.ofList (s.toList.map fun c => if c = nonBreakingSpace then ' ' else c)

theorem spaced_eq_self {s : String} (hs : nonBreakingSpace∉s.toList) : spaced s = s := by
  have hsame : (s.toList.map fun c => if c = nonBreakingSpace then ' ' else c) = s.toList.map id :=
    List.map_congr_left fun c hc => if_neg fun he : c = nonBreakingSpace => hs (he ▸ hc)
  rw [spaced,hsame,List.map_id,String.ofList_toList]

theorem replaceAll_space (apos s : String) :
    replaceAll (pending apos ['&'] s) (String.singleton nonBreakingSpace) " " =
      pending apos ['&'] (spaced s) := by
  have hpat : (String.singleton nonBreakingSpace).toList = [nonBreakingSpace] := by simp
  simp only [replaceAll,pending,spaced,String.toList_ofList,hpat,replace_singleton,encode,
    List.flatMap_assoc,List.flatMap_map]
  congr 1
  refine List.flatMap_congr fun c _ => ?_
  by_cases hamp : c = '&'
  · rw [hamp]
    rfl
  · by_cases hc : c = nonBreakingSpace
    · rw [hc]
      rfl
    · simp [hamp,hc]

/-- Decoding undoes escaping, but for the non-breaking spaces. -/
theorem decode_escape {apos : String} (h : apos = "&apos;" ∨ apos = "&#39;") (s : String) :
    decodeEntities (escape apos s) = spaced s := by
  have hlt : replaceAll (escape apos s) "&lt;" "<" = pending apos ['&','>','"','\''] s :=
    replaceAll_entity h (fun _ ha => ha) (by decide) (a := '<') (by decide) rfl s
  have hgt : replaceAll (pending apos ['&','>','"','\''] s) "&gt;" ">" =
      pending apos ['&','"','\''] s :=
    replaceAll_entity h (by simp [special]) (by decide) (a := '>') (by decide) rfl s
  have hquot : replaceAll (pending apos ['&','"','\''] s) "&quot;" "\"" =
      pending apos ['&','\''] s :=
    replaceAll_entity h (by simp [special]) (by decide) (a := '"') (by decide) rfl s
  have hapos : replaceAll (replaceAll (pending apos ['&','\''] s) "&#39;" "'") "&apos;" "'" =
      pending apos ['&'] s := replaceAll_quote h (by simp [special]) (by decide) (by decide) s
  have hnbsp : replaceAll (pending apos ['&'] s) "&nbsp;" " " = pending apos ['&'] s := by
    refine replaceAll_foreign h (by simp [special]) (by decide) rfl ?_ _ s
    obtain rfl | rfl := h <;> decide
  have hamp : replaceAll (pending apos ['&'] (spaced s)) "&amp;" "&" = pending apos [] (spaced s) :=
    replaceAll_entity h (by simp [special]) (by decide) (a := '&') (by decide) rfl (spaced s)
  rw [decodeEntities_eq,hlt,hgt,hquot,hapos,hnbsp,replaceAll_space,hamp,pending,encode_nil,
    String.ofList_toList]

/-- Without a `<` there is neither a tag nor a link. -/
theorem tagAt_none {cs : List Char} (h : '<'∉cs) : tagAt cs = none := by
  unfold tagAt
  split
  · exact absurd List.mem_cons_self h
  · rfl

theorem anchorAt_none (isWord : Char → Bool) {cs : List Char} (h : '<'∉cs) :
    anchorAt isWord cs = none := by
  have hstart : startsLike "<a" cs = false := by
    rw [startsLike,decide_eq_false_iff_not]
    intro hpre
    obtain ⟨c,hc,hlow⟩ := List.mem_map.mp (hpre.subset (List.mem_cons_self : '<'∈['<','a']))
    have hnat : c.toLower.toNat = 60 := by rw [hlow]; rfl
    rw [toNat_toLower] at hnat
    have hsame : c.toNat = '<'.toNat := by
      rw [show '<'.toNat = 60 from rfl]
      split at hnat <;> omega
    exact h (Char.toNat_inj.mp hsame ▸ hc)
  simp [anchorAt,hstart]

theorem stripHtml_of_not_mem {s : String} (h : '<'∉s.toList) : stripHtml s = s := by
  rw [stripHtml,rewrite_of_none fun v hv _ => tagAt_none fun hmem => h (hv.subset hmem),
    String.ofList_toList]

theorem escape_not_mem {apos : String} (h : apos = "&apos;" ∨ apos = "&#39;") {x : Char}
    (hx : x∈special) (hamp : x≠ '&') (s : String) : x∉(escape apos s).toList := by
  rw [escape,String.toList_ofList,encode,List.mem_flatMap]
  rintro ⟨c,-,hmem⟩
  by_cases hc : c∈special
  · rw [if_pos hc] at hmem
    have hnone : (special.all fun a => special.all fun x =>
        decide (x≠ '&' → x∉entity apos a)) = true := by
      obtain rfl | rfl := h <;> decide
    simp only [List.all_eq_true,decide_eq_true_eq] at hnone
    exact hnone c hc x hx hamp hmem
  · rw [if_neg hc,List.mem_singleton] at hmem
    exact hc (hmem ▸ hx)

theorem render_escape {apos : String} (h : apos = "&apos;" ∨ apos = "&#39;")
    (isWord : Char → Bool) (s : String) : renderDisplay isWord (escape apos s) = spaced s := by
  have hdecode := decode_escape h s
  have htag := escape_not_mem h (x := '<') (by decide) (by decide) s
  rw [renderDisplay]
  split
  · rename_i hfast
    rw [decodeEntities,if_pos hfast.2] at hdecode
    exact hdecode
  · have hlinks : rewrite (anchorAt isWord) (escape apos s).toList = (escape apos s).toList :=
      rewrite_of_none fun v hv _ => anchorAt_none isWord fun hmem => htag (hv.subset hmem)
    rw [hlinks,String.ofList_toList,stripHtml_of_not_mem htag,hdecode]

/-- What is rendered of an escaped text is the text. -/
theorem render_xmlEscape (isWord : Char → Bool) (s : String) (hs : nonBreakingSpace∉s.toList) :
    renderDisplay isWord (xmlEscape s) = s := by
  rw [xmlEscape_eq,render_escape (Or.inl rfl),spaced_eq_self hs]

/-- A text full of markup and entities. -/
theorem render_lookalike : renderDisplay asciiWord (xmlEscape "<a href=\"x\">&amp;lt; & '</a>") =
    "<a href=\"x\">&amp;lt; & '</a>" := render_xmlEscape asciiWord _ (by decide)

end WorkflowyMcp.Html
