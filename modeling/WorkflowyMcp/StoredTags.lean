import WorkflowyMcp.Html
import WorkflowyMcp.TagCaptures

/-! The tags that are read of a stored name, where some characters stand as entities, against
those of the text that it shows. -/
namespace WorkflowyMcp.TagParser
open Html Rewriting
variable {toLowercase : String → String} {isWord : Char → Bool} {sigil : Char}

/-- A character that is no part of a match ends the one before it. -/
theorem captures_break {c : Char} (hc : tagChar isWord c = false) (hne : c≠sigil)
    (run : Option (List Char)) (cs : List Char) : captures isWord sigil run (c::cs) =
      captured run++captures isWord sigil none cs := by
  cases run with
  | none => simp [captures,hne,captured]
  | some run => simp [captures,hc,hne]

/-- What is read of a character depends on nothing behind it. -/
theorem captures_cons_congr (c : Char) {cs ds : List Char} {extra : String → Prop}
    (h : ∀ run t, t∈captures isWord sigil run cs ↔ t∈captures isWord sigil run ds ∨ extra t)
    (run : Option (List Char)) (t : String) : t∈captures isWord sigil run (c::cs) ↔
      t∈captures isWord sigil run (c::ds) ∨ extra t := by
  cases run with
  | none => exact h _ t
  | some run =>
    by_cases hc : tagChar isWord c = true
    · simpa [captures,hc] using h _ t
    · simp [captures,hc,h,or_assoc]

theorem special_break (hw : WordClass isWord) {c : Char} (hc : c∈special) :
    tagChar isWord c = false := by
  have hascii : (special.all fun c => decide (c.toNat < 128 ∧ !c.isAlphanum ∧ c≠ '_' ∧ c≠ '-')) = true := by
    decide
  simp only [List.all_eq_true,decide_eq_true_eq] at hascii
  obtain ⟨hlt,halnum,hunder,hdash⟩ := hascii c hc
  simp [tagChar,hw.ascii c hlt,hunder,hdash,by simpa using halnum]

/-- An entity without the sigil is passed over like the character it stands for. -/
theorem captures_entity (hw : WordClass isWord) {c : Char} (hc : c∈special)
    (hsigil : sigil∉entity "&#39;" c) (run : Option (List Char)) (cs : List Char) :
    captures isWord sigil run (entity "&#39;" c++cs) =
      captured run++captures isWord sigil none cs := by
  obtain ⟨w,hwc⟩ := List.head?_eq_some_iff.mp ((entity_codes (Or.inr rfl)).marked c hc).1
  rw [hwc] at hsigil ⊢
  obtain ⟨hne,hrest⟩ := not_or.mp fun h => hsigil (List.mem_cons.mpr h)
  rw [List.cons_append,captures_break (special_break hw (by decide)) (Ne.symm hne),
    captures_skip isWord hrest]

/-- The entity of the single quote is read as a tag. -/
theorem captures_quote (hw : WordClass isWord) (run : Option (List Char)) (cs : List Char) :
    captures isWord '#' run (entity "&#39;" '\''++cs) =
      captured run++"39"::captures isWord '#' none cs := by
  have hentity : entity "&#39;" '\''++cs = '&':: '#'::(['3','9',';']++cs) := rfl
  have hrun : tagRun isWord (['3','9',';']++cs) = ['3','9'] := by
    have hthree : isWord '3' = true := by simp [hw.ascii '3' (by decide)]
    have hnine : isWord '9' = true := by simp [hw.ascii '9' (by decide)]
    have hend : isWord ';' = false := by simp [hw.ascii ';' (by decide)]
    simp [tagRun,tagChar,hthree,hnine,hend]
  rw [hentity,captures_break (special_break hw (by decide)) (by decide),captures_sigil hw.sharp,
    hrun,captures_skip isWord (by decide)]
  rfl

/-- The matches in the escaped form of a text: those in the text, and `39` for its single
quotes. -/
theorem mem_captures_encode (hw : WordClass isWord) (hsigil : sigil = '#' ∨ sigil = '@')
    (cs : List Char) (run : Option (List Char)) (t : String) :
    t∈captures isWord sigil run (encode (entity "&#39;") special cs) ↔
      t∈captures isWord sigil run cs ∨ sigil = '#' ∧ '\''∈cs ∧ t = "39" := by
  induction cs generalizing run t with
  | nil => simp [encode]
  | cons c cs ih =>
    have hcons : encode (entity "&#39;") special (c::cs) =
        (if c∈special then entity "&#39;" c else [c])++encode (entity "&#39;") special cs := rfl
    rw [hcons]
    by_cases hc : c∈special
    · have hne : c≠sigil := by
        rintro rfl
        obtain rfl | rfl := hsigil <;> exact absurd hc (by decide)
      rw [if_pos hc,captures_break (special_break hw hc) hne]
      by_cases hquote : c = '\'' ∧ sigil = '#'
      · obtain ⟨rfl,rfl⟩ := hquote
        rw [captures_quote hw]
        simp only [List.mem_append,List.mem_cons,ih,true_and,true_or]
        tauto
      · have hnot : sigil∉entity "&#39;" c := by
          have hsigils : (special.all fun a => decide ('@'∉entity "&#39;" a ∧
              ('#'∈entity "&#39;" a → a = '\''))) = true := by decide
          simp only [List.all_eq_true,decide_eq_true_eq] at hsigils
          obtain rfl | rfl := hsigil
          · exact fun hmem => hquote ⟨(hsigils c hc).2 hmem,rfl⟩
          · exact (hsigils c hc).1
        rw [captures_entity hw hc hnot]
        simp only [List.mem_append,List.mem_cons,ih]
        have hother : ¬(sigil = '#' ∧ '\'' = c) := fun h => hquote ⟨h.2.symm,h.1⟩
        tauto
    · have hquote : '\''≠c := by
        rintro rfl
        exact hc (by decide)
      rw [if_neg hc,List.singleton_append,List.mem_cons,or_iff_right hquote]
      exact captures_cons_congr c (fun run t => ih run t) run t

/-- A non-breaking space is read like a plain one. -/
theorem captures_spaced (hw : WordClass isWord) (hs : isWhiteSpace sigil = false) (t : String)
    (run : Option (List Char)) : captures isWord sigil run (spaced t).toList =
      captures isWord sigil run t.toList := by
  have hno (c : Char) (hc : isWhiteSpace c = true) : tagChar isWord c = false ∧ c≠sigil := by
    refine ⟨?_,?_⟩
    · by_contra htag
      simp [hw.not_space (by simpa using htag)] at hc
    · rintro rfl
      simp [hs] at hc
  rw [spaced,String.toList_ofList]
  induction t.toList generalizing run with
  | nil => rfl
  | cons c cs ih =>
    rw [List.map_cons]
    by_cases hc : c = nonBreakingSpace
    · have hold := hno nonBreakingSpace (by decide)
      have hnew := hno ' ' (by decide)
      rw [if_pos hc,hc,captures_break hnew.1 hnew.2,captures_break hold.1 hold.2,ih]
    · rw [if_neg hc]
      cases run with
      | none => simp only [captures,ih]
      | some run => simp only [captures,ih]

/-- The same matches make the same tags. -/
theorem sorted_congr {xs ys : List String} (h : ∀ x, x∈xs ↔ x∈ys) :
    sortByKey id xs.dedup = sortByKey id ys.dedup := by
  refine sortByKey_of_perm ?_ (by simpa using List.nodup_dedup xs)
  refine (List.perm_ext_iff_of_nodup (List.nodup_dedup xs) (List.nodup_dedup ys)).mpr fun x => ?_
  rw [List.mem_dedup,List.mem_dedup]
  exact h x

/-- What is stored of a text. -/
def storedForm (t : String) : String := escape "&#39;" t

theorem mem_captures_stored (hw : WordClass isWord) (hsigil : sigil = '#' ∨ sigil = '@') (t x : String) :
    x∈captures isWord sigil none (storedForm t).toList ↔
      x∈captures isWord sigil none t.toList ∨ sigil = '#' ∧ '\''∈t.toList ∧ x = "39" := by
  rw [storedForm,escape,String.toList_ofList]
  exact mem_captures_encode hw hsigil t.toList none x

theorem parseTags_stored_iff (hw : WordClass isWord) (hl : Lowercasing toLowercase) (t : String) :
    parseTags toLowercase isWord (storedForm t) = parseTags toLowercase isWord t ↔
      ('\''∈t.toList → "39"∈(parseTags toLowercase isWord t).tags) := by
  have hlow : toLowercase "39" = "39" := by
    rw [hl.ascii "39" (by decide)]
    decide
  have hdate : isDueDate "39" = false := by decide
  have htags (x : String) : x∈(parseTags toLowercase isWord (storedForm t)).tags ↔
      x∈(parseTags toLowercase isWord t).tags ∨ '\''∈t.toList ∧ x = "39" := by
    rw [mem_tags,mem_tags]
    simp only [mem_captures_stored hw (Or.inl rfl),true_and]
    constructor
    · rintro ⟨⟨u,hu | ⟨hquote,rfl⟩,rfl⟩,hx⟩
      · exact Or.inl ⟨⟨u,hu,rfl⟩,hx⟩
      · exact Or.inr ⟨hquote,hlow⟩
    · rintro (⟨⟨u,hu,rfl⟩,hx⟩ | ⟨hquote,rfl⟩)
      · exact ⟨⟨u,Or.inl hu,rfl⟩,hx⟩
      · exact ⟨⟨"39",Or.inr ⟨hquote,rfl⟩,hlow⟩,hdate⟩
  have hassignees (x : String) : x∈(parseTags toLowercase isWord (storedForm t)).assignees ↔
      x∈(parseTags toLowercase isWord t).assignees := by
    rw [mem_assignees,mem_assignees]
    simp [mem_captures_stored hw (Or.inr rfl)]
  constructor
  · intro h hquote
    rw [← h,htags]
    exact Or.inr ⟨hquote,rfl⟩
  · intro h
    refine congrArg₂ ParsedTags.mk (sorted_congr fun x => ?_) (sorted_congr fun x => ?_)
    · have hx := htags x
      simp only [parseTags,(sortByKey_perm _).mem_iff,List.mem_dedup] at hx h ⊢
      rw [hx]
      refine or_iff_left_of_imp ?_
      rintro ⟨hquote,rfl⟩
      exact h hquote
    · simpa only [parseTags,(sortByKey_perm _).mem_iff,List.mem_dedup] using hassignees x

/-- The law: the tags of the stored name are those of the text, and the functions that ask for
tags or add one answer as they do on the text that is shown. -/
structure TagsShown (toLowercase : String → String) (isWord : Char → Bool) (t : String) : Prop where
  parse : parseTags toLowercase isWord (storedForm t) = parseTags toLowercase isWord t
  hasTag : ∀ (node : WorkflowyNode) needle,
    nodeHasTag toLowercase isWord { node with name := storedForm t } needle =
      nodeHasTag toLowercase isWord { node with name := renderDisplay isWord (storedForm t) } needle
  containsTag : ∀ tag, textContainsTag toLowercase isWord (storedForm t) tag =
    textContainsTag toLowercase isWord (renderDisplay isWord (storedForm t)) tag
  addTag : ∀ tag, (addTagToName toLowercase isWord (storedForm t) tag).isSome =
    (addTagToName toLowercase isWord (renderDisplay isWord (storedForm t)) tag).isSome

theorem addTagToName_isSome (toLowercase : String → String) (isWord : Char → Bool)
    (name tag : String) : (addTagToName toLowercase isWord name tag).isSome =
      !(bareTag tag = "" || textContainsTag toLowercase isWord name (bareTag tag)) := by
  rw [addTagToName]
  split <;> rename_i h <;> simp [h]

/-- The law holds where the text has no single quote, or `#39` as a tag of its own. -/
theorem tagsShown_iff (hw : WordClass isWord) (hl : Lowercasing toLowercase) (t : String) :
    TagsShown toLowercase isWord t ↔
      ('\''∈t.toList → textContainsTag toLowercase isWord t "39" = true) := by
  have hlow : toLowercase "39" = "39" := by
    rw [hl.ascii "39" (by decide)]
    decide
  have hneedle : textContainsTag toLowercase isWord t "39" = true ↔
      "39"∈(parseTags toLowercase isWord t).tags := by
    have hbare : bareTag "39" = "39" := by decide
    simp [textContainsTag,hbare,hlow]
  rw [hneedle,← parseTags_stored_iff hw hl]
  refine ⟨TagsShown.parse,fun h => ?_⟩
  have hshown : parseTags toLowercase isWord (renderDisplay isWord (storedForm t)) =
      parseTags toLowercase isWord (storedForm t) := by
    rw [h,storedForm,render_escape (Or.inr rfl)]
    simp only [parseTags,captures_spaced hw (show isWhiteSpace '#' = false by decide),
      captures_spaced hw (show isWhiteSpace '@' = false by decide)]
  have hcontains (tag : String) : textContainsTag toLowercase isWord (storedForm t) tag =
      textContainsTag toLowercase isWord (renderDisplay isWord (storedForm t)) tag := by
    simp only [textContainsTag,hshown]
  refine ⟨h,fun node needle => ?_,hcontains,fun tag => ?_⟩
  · simp only [nodeHasTag,parseNodeTags,hshown]
  · rw [addTagToName_isSome,addTagToName_isSome,hcontains]

/-- An apostrophe is stored as an entity that holds a tag. -/
theorem apostrophe_read_as_tag : storedForm "it's" = "it&#39;s" ∧
    (parseTags asciiLowercase asciiWord (storedForm "it's")).tags = ["39"] ∧
    (parseTags asciiLowercase asciiWord "it's").tags = [] := by decide +kernel

theorem lead_shown : TagsShown asciiLowercase asciiWord "R&D <2> #lead @bob" :=
  (tagsShown_iff asciiWord_wordClass asciiLowercase_lowercasing _).mpr fun h =>
    absurd h (by decide)

end WorkflowyMcp.TagParser
