import WorkflowyMcp.TagCaptures

/-! Adding a tag to a name: the text that is written against the tags that are read back. -/
namespace WorkflowyMcp.TagParser
variable {toLowercase : String → String} {isWord : Char → Bool} {sigil : Char}

/-- The tag `bulk_tag` passes on, if it accepts its parameter. -/
def bulkTagParam (tag : String) : Option String :=
  let tag := trim tag
  if tag = "" || tag.toList.any isWhiteSpace then none else some (bareTag tag)

@[simp] theorem bareTag_bareTag (tag : String) : bareTag (bareTag tag) = bareTag tag := by
  simp [bareTag,List.dropWhile_idempotent]

/-- A match behind a sigil is a part of the text that holds tag characters only. -/
theorem infix_of_mem_captures (hs : tagChar isWord sigil = false) {cs : List Char} {t : String}
    (h : t∈captures isWord sigil none (sigil::cs)) :
    (∃ u v, u++t.toList++v = cs) ∧ ∀ c∈t.toList, tagChar isWord c = true := by
  induction cs with
  | nil => simp [captures,captured] at h
  | cons c cs ih =>
    rw [captures_sigil hs] at h
    rcases List.mem_append.mp h with h | h
    · have ht : t.toList = tagRun isWord (c::cs) := by simp [(mem_captured.mp h).2]
      refine ⟨⟨[],afterRun isWord (c::cs),?_⟩,fun d hd => List.mem_takeWhile_imp (ht ▸ hd)⟩
      rw [ht,List.nil_append,List.takeWhile_append_dropWhile]
    · have hrest : t∈captures isWord sigil none (sigil::cs) := by
        by_cases hc : c=sigil
        · rwa [hc] at h
        · rw [captures_sigil hs]
          exact List.mem_append_right _ (by simpa [captures,hc] using h)
      obtain ⟨⟨u,v,huv⟩,ht⟩ := ih hrest
      exact ⟨⟨c::u,v,by simp [← huv]⟩,ht⟩

theorem captures_of_all_tag (hs : tagChar isWord sigil = false) {cs : List Char}
    (h : ∀ c∈cs, tagChar isWord c = true) : captures isWord sigil none cs = [] :=
  captures_of_not_mem fun hmem => by simpa [hs] using h _ hmem

theorem textContainsTag_iff (hl : Lowercasing toLowercase) (isWord : Char → Bool) (text : String)
    {tag : String}
    (hne : bareTag tag≠"") : textContainsTag toLowercase isWord text tag = true ↔
      toLowercase (bareTag tag)∈(parseTags toLowercase isWord text).tags := by
  simp [textContainsTag,hl.ne_empty hne]

/-- What is read of the new name: what was read of the old one, and what is read of the tag. -/
theorem captures_added (hw : WordClass isWord) (sigil : Char)
    (hs : isWhiteSpace sigil = false) (name bare : String) (hblank : ' '≠sigil) :
    captures isWord sigil none (trimEnd name ++ " #" ++ bare).toList =
      captures isWord sigil none name.toList++captures isWord sigil none ('#'::bare.toList) := by
  have htext : (trimEnd name ++ " #" ++ bare).toList =
      (trimEnd name).toList++ ' ':: '#'::bare.toList := by
    simp
  rw [htext,captures_append_break none _ hw.blank,captures_trimEnd hw hs]
  simp [captures,hblank]

/-- The law of adding a tag: it is read back, with the tags and assignees that were there and
no others, and it is not added again. -/
structure Added (toLowercase : String → String) (isWord : Char → Bool) (name tag new : String) :
    Prop where
  contains : textContainsTag toLowercase isWord new tag = true
  tags : ∀ x, x∈(parseTags toLowercase isWord new).tags ↔
    x∈(parseTags toLowercase isWord name).tags ∨ x = toLowercase (bareTag tag)
  assignees : (parseTags toLowercase isWord new).assignees =
    (parseTags toLowercase isWord name).assignees
  once : addTagToName toLowercase isWord new tag = none

/-- The law holds exactly for the tags that the reader takes for one tag. -/
theorem added_iff (hw : WordClass isWord) (hl : Lowercasing toLowercase) {name tag new : String}
    (h : addTagToName toLowercase isWord name tag = some new) :
    Added toLowercase isWord name tag new ↔
      (∀ c∈(bareTag tag).toList, tagChar isWord c = true) ∧
        isDueDate (toLowercase (bareTag tag)) = false := by
  obtain ⟨⟨hne,hnew⟩,rfl⟩ : (bareTag tag≠"" ∧
      textContainsTag toLowercase isWord name (bareTag tag) = false) ∧
      trimEnd name ++ " #" ++ bareTag tag = new := by
    simpa [addTagToName] using h
  have hnot : toLowercase (bareTag tag)∉(parseTags toLowercase isWord name).tags := by
    have hiff : textContainsTag toLowercase isWord name (bareTag tag) = true ↔ _ :=
      textContainsTag_iff hl isWord name (by simpa using hne)
    rw [bareTag_bareTag] at hiff
    rw [← hiff,hnew]
    simp
  have hsharp := captures_added hw '#' (by decide) name (bareTag tag) (by decide)
  constructor
  · intro hadd
    obtain ⟨⟨t,ht,hlow⟩,hdue⟩ := mem_tags.mp ((textContainsTag_iff hl isWord _ hne).mp hadd.contains)
    refine ⟨?_,hdue⟩
    rw [hsharp,captures_sigil hw.sharp] at ht
    have hbare : t∈captures isWord '#' none ('#'::(bareTag tag).toList) := by
      rcases List.mem_append.mp ht with ht | ht
      · exact absurd (mem_tags.mpr ⟨⟨t,ht,hlow⟩,hdue⟩) hnot
      · rwa [captures_sigil hw.sharp]
    obtain ⟨⟨u,v,huv⟩,htag⟩ := infix_of_mem_captures hw.sharp hbare
    -- a part that is as long in lowercase is the whole
    by_cases hall : u++v=[]
    · obtain ⟨rfl,rfl⟩ := List.append_eq_nil_iff.mp hall
      rw [← huv]
      simpa using htag
    · have hshort := hl.ne_of_infix (t := t.toList) hall
      rw [huv,String.ofList_toList,String.ofList_toList] at hshort
      exact absurd hlow.symm hshort
  · rintro ⟨htag,hdue⟩
    have hcap : captures isWord '#' none (trimEnd name ++ " #" ++ bareTag tag).toList =
        captures isWord '#' none name.toList++[bareTag tag] := by
      have hrun : tagRun isWord (bareTag tag).toList = (bareTag tag).toList :=
        List.takeWhile_eq_self_iff.mpr htag
      have hone : captured (some (bareTag tag).toList) = [bareTag tag] := by
        rw [captured_some (by simpa using hne),String.ofList_toList]
      rw [hsharp,captures_sigil hw.sharp,hrun,hone,captures_of_all_tag hw.sharp htag,
        List.append_nil]
    have htags : ∀ x, x∈(parseTags toLowercase isWord (trimEnd name ++ " #" ++ bareTag tag)).tags ↔
        x∈(parseTags toLowercase isWord name).tags ∨ x = toLowercase (bareTag tag) := by
      intro x
      rw [mem_tags,mem_tags,hcap]
      constructor
      · rintro ⟨⟨t,ht,rfl⟩,hx⟩
        rcases List.mem_append.mp ht with ht | ht
        · exact .inl ⟨⟨t,ht,rfl⟩,hx⟩
        · exact .inr (by rw [List.mem_singleton.mp ht])
      · rintro (⟨⟨t,ht,rfl⟩,hx⟩ | rfl)
        · exact ⟨⟨t,List.mem_append_left _ ht,rfl⟩,hx⟩
        · exact ⟨⟨bareTag tag,by simp,rfl⟩,hdue⟩
    have hcontains := (textContainsTag_iff hl isWord (trimEnd name ++ " #" ++ bareTag tag) hne).mpr
      ((htags _).mpr (.inr rfl))
    refine ⟨hcontains,htags,?_,?_⟩
    · have hat := captures_added hw '@' (by decide) name (bareTag tag) (by decide)
      have hnone : captures isWord '@' none ('#'::(bareTag tag).toList) = [] := by
        simpa [captures] using captures_of_all_tag hw.at htag
      simp only [parseTags,hat,hnone,List.append_nil]
    · simpa [addTagToName,textContainsTag] using fun _ => hcontains

/-- An accepted tag that is not read back as one tag is written again and again. -/
theorem plus_tag_added_twice : bulkTagParam "c++" = some "c++" ∧
    addTagToName asciiLowercase asciiWord "Notes" "c++" = some "Notes #c++" ∧
    ¬Added asciiLowercase asciiWord "Notes" "c++" "Notes #c++" ∧
    addTagToName asciiLowercase asciiWord "Notes #c++" "c++" = some "Notes #c++ #c++" := by
  refine ⟨by decide,by decide,fun h => ?_,by decide⟩
  exact absurd h.contains (by decide)

theorem lead_tag_added : Added asciiLowercase asciiWord "Notes " "#Lead" "Notes #Lead" :=
  (added_iff asciiWord_wordClass asciiLowercase_lowercasing (by decide)).mpr
    ⟨List.all_eq_true.mp (by decide),by decide⟩

end WorkflowyMcp.TagParser
