import WorkflowyMcp.TagParser

/-! The matches of a sigil as runs of tag characters: what stands before and after a
character that is none does not interact. -/
namespace WorkflowyMcp
section wordclass
open TagParser
variable {isWord : Char → Bool}

theorem WordClass.sharp (hw : WordClass isWord) : tagChar isWord '#' = false := by
  simp [tagChar,hw.ascii '#' (by decide)]

theorem WordClass.at (hw : WordClass isWord) : tagChar isWord '@' = false := by
  simp [tagChar,hw.ascii '@' (by decide)]

theorem WordClass.blank (hw : WordClass isWord) : tagChar isWord ' ' = false := by
  simp [tagChar,hw.ascii ' ' (by decide)]

theorem WordClass.not_space (hw : WordClass isWord) {c : Char} (hc : tagChar isWord c = true) :
    isWhiteSpace c = false := by
  by_contra hspace
  have hword := hw.space c (by simpa using hspace)
  obtain rfl : c = '-' := by simpa [tagChar,hword] using hc
  exact hspace (by decide)

end wordclass

namespace TagParser
variable {isWord : Char → Bool} {sigil : Char}

/-- The run of tag characters at the head of a text, and what follows it. -/
abbrev tagRun (isWord : Char → Bool) (cs : List Char) : List Char := cs.takeWhile (tagChar isWord)

abbrev afterRun (isWord : Char → Bool) (cs : List Char) : List Char := cs.dropWhile (tagChar isWord)

theorem captured_some {run : List Char} (h : run≠[]) :
    captured (some run) = [String.ofList run] := by
  cases run with
  | nil => exact absurd rfl h
  | cons c cs => rfl

theorem mem_captured {run : List Char} {t : String} :
    t∈captured (some run) ↔ run≠[] ∧ t = String.ofList run := by
  by_cases h : run=[]
  · simp [h,captured]
  · simp [captured_some h,h]

theorem captures_of_not_mem {cs : List Char} (h : sigil∉cs) : captures isWord sigil none cs = [] := by
  induction cs with
  | nil => rfl
  | cons c cs ih =>
    have hne : c≠sigil := fun he => h (he ▸ List.mem_cons_self)
    simpa [captures,hne] using ih fun hmem => h (List.mem_cons_of_mem c hmem)

theorem captures_skip (isWord : Char → Bool) {u : List Char} (h : sigil∉u) (v : List Char) :
    captures isWord sigil none (u++v) = captures isWord sigil none v := by
  induction u with
  | nil => rfl
  | cons c u ih =>
    have hne : c≠sigil := fun he => h (he ▸ List.mem_cons_self)
    simpa [captures,hne] using ih fun hmem => h (List.mem_cons_of_mem c hmem)

/-- A match takes the whole run, and the search goes on behind it. -/
theorem captures_some (hs : tagChar isWord sigil = false) (run cs : List Char) :
    captures isWord sigil (some run) cs =
      captured (some (run++tagRun isWord cs))++captures isWord sigil none cs := by
  induction cs generalizing run with
  | nil => simp [captures,captured]
  | cons c cs ih =>
    by_cases hc : tagChar isWord c = true
    · have hne : c≠sigil := by
        rintro rfl
        simp [hs] at hc
      simp [captures,hc,hne,ih]
    · simp [captures,hc]

theorem captures_sigil (hs : tagChar isWord sigil = false) (cs : List Char) :
    captures isWord sigil none (sigil::cs) =
      captured (some (tagRun isWord cs))++captures isWord sigil none cs := by
  simpa [captures] using captures_some hs [] cs

/-- A character that is no tag character ends what was read before it. -/
theorem captures_append_break (run : Option (List Char)) (u : List Char) {c : Char}
    (hc : tagChar isWord c = false) (v : List Char) : captures isWord sigil run (u++c::v) =
      captures isWord sigil run u++captures isWord sigil none (c::v) := by
  induction u generalizing run with
  | nil => cases run <;> simp [captures,hc,captured]
  | cons d u ih =>
    cases run with
    | none => simpa [captures] using ih _
    | some run =>
      by_cases hd : tagChar isWord d = true
      · simpa [captures,hd] using ih _
      · simpa [captures,hd] using ih _

/-- Where the second part does not start with a tag character, the parts are read apart. -/
theorem captures_append (run : Option (List Char)) (u : List Char) {v : List Char}
    (hv : tagRun isWord v = []) : captures isWord sigil run (u++v) =
      captures isWord sigil run u++captures isWord sigil none v := by
  cases v with
  | nil => simp [captures,captured]
  | cons c v =>
    have hc : tagChar isWord c = false := by
      by_contra hc
      simp [tagRun,hc] at hv
    exact captures_append_break run u hc v

theorem tagRun_spaces (hw : WordClass isWord) {z : List Char}
    (hz : ∀ c∈z, isWhiteSpace c = true) : tagRun isWord z = [] := by
  refine List.takeWhile_eq_nil_iff.mpr fun hpos htag => ?_
  have hspace := hw.not_space htag
  simp [hz _ (List.getElem_mem hpos)] at hspace

theorem captures_append_spaces (hw : WordClass isWord) (hs : isWhiteSpace sigil = false)
    (u : List Char) {z : List Char} (hz : ∀ c∈z, isWhiteSpace c = true) :
    captures isWord sigil none (u++z) = captures isWord sigil none u := by
  have hnone : sigil∉z := fun hmem => by simpa [hs] using hz _ hmem
  rw [captures_append none u (tagRun_spaces hw hz),captures_of_not_mem hnone,List.append_nil]

theorem captures_trimEnd (hw : WordClass isWord) (hs : isWhiteSpace sigil = false) (s : String) :
    captures isWord sigil none (trimEnd s).toList = captures isWord sigil none s.toList := by
  have hsplit : s.toList.rdropWhile isWhiteSpace++s.toList.rtakeWhile isWhiteSpace = s.toList :=
    List.rdropWhile_append_rtakeWhile
  calc captures isWord sigil none (trimEnd s).toList
    _ = captures isWord sigil none (s.toList.rdropWhile isWhiteSpace) := by simp [trimEnd]
    _ = captures isWord sigil none (s.toList.rdropWhile isWhiteSpace++
          s.toList.rtakeWhile isWhiteSpace) :=
        (captures_append_spaces hw hs _ fun _ hc => List.mem_rtakeWhile_imp hc).symm
    _ = captures isWord sigil none s.toList := by rw [hsplit]

section tags
variable {toLowercase : String → String}

theorem mem_tags {text x : String} : x∈(parseTags toLowercase isWord text).tags ↔
    (∃ t∈captures isWord '#' none text.toList, toLowercase t = x) ∧ isDueDate x = false := by
  simp [parseTags,(sortByKey_perm _).mem_iff]

theorem mem_assignees {text x : String} : x∈(parseTags toLowercase isWord text).assignees ↔
    ∃ t∈captures isWord '@' none text.toList, toLowercase t = x := by
  simp [parseTags,(sortByKey_perm _).mem_iff]

end tags
end TagParser
end WorkflowyMcp
