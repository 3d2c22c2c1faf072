import WorkflowyMcp.TagCaptures

/-! Removing a tag from a name: the places where the strip pattern matches against the tags
that are read there. -/
namespace WorkflowyMcp.TagParser
variable {toLowercase : String → String} {isWord : Char → Bool} {sigil : Char}
variable {re : List Char}

/-- The pattern matches behind a `#`. -/
def MatchesBehind (isWord : Char → Bool) (re rest : List Char) : Prop :=
  re <+: rest ∧ tagBoundary isWord (re.getLastD '#') (rest.drop re.length) = true

instance (re rest : List Char) : Decidable (MatchesBehind isWord re rest) :=
  inferInstanceAs (Decidable (_ ∧ _))

abbrev strip (isWord : Char → Bool) (re cs : List Char) : List Char := stripAll isWord re 0 cs

theorem stripAll_skip (k : Nat) (cs : List Char) :
    stripAll isWord re k cs = strip isWord re (cs.drop k) := by
  induction cs generalizing k with
  | nil => cases k <;> rfl
  | cons c cs ih =>
    cases k with
    | zero => rfl
    | succ k => exact ih k

/-- One step, at a match and elsewhere. -/
theorem strip_cons (c : Char) (cs : List Char) : strip isWord re (c::cs) =
    match matchStrip isWord re (c::cs) with
    | some n => stripAll isWord re (n-1) cs
    | none => c::strip isWord re cs := by
  exact rfl

theorem strip_cons_some {c : Char} {cs : List Char} {n : Nat}
    (h : matchStrip isWord re (c::cs) = some (n+1)) :
    strip isWord re (c::cs) = strip isWord re (cs.drop n) := by
  rw [strip_cons,h,← stripAll_skip]
  rfl

theorem strip_cons_none {c : Char} {cs : List Char} (h : matchStrip isWord re (c::cs) = none) :
    strip isWord re (c::cs) = c::strip isWord re cs := by
  rw [strip_cons,h]

theorem matchStrip_spaces (isWord : Char → Bool) (re : List Char) {z : List Char}
    (hz : ∀ c∈z, isWhiteSpace c = true) (x : List Char) :
    matchStrip isWord re (z++ '#'::x) =
      if MatchesBehind isWord re x then some (z.length+1+re.length) else none := by
  have hsharp : isWhiteSpace '#' = false := by decide
  have hdrop : (z++ '#'::x).dropWhile isWhiteSpace = '#'::x := by
    rw [List.dropWhile_append_of_pos hz]
    simp [hsharp]
  have htake : (z++ '#'::x).takeWhile isWhiteSpace = z := by
    rw [List.takeWhile_append_of_pos hz]
    simp [hsharp]
  simp [matchStrip,hdrop,htake,MatchesBehind]

theorem matchStrip_blocked {z : List Char} (hz : ∀ c∈z, isWhiteSpace c = true) {c : Char}
    (hspace : isWhiteSpace c = false) (hsharp : c≠ '#') (x : List Char) :
    matchStrip isWord re (z++c::x) = none := by
  have hdrop : (z++c::x).dropWhile isWhiteSpace = c::x := by
    rw [List.dropWhile_append_of_pos hz]
    simp [hspace]
  simp [matchStrip,hdrop,hsharp]

/-- White space before a match goes with it. -/
theorem strip_spaces (isWord : Char → Bool) (re : List Char) {z : List Char}
    (hz : ∀ c∈z, isWhiteSpace c = true) (x : List Char) :
    strip isWord re (z++ '#'::x) =
      if MatchesBehind isWord re x then strip isWord re (x.drop re.length)
      else z++ '#'::strip isWord re x := by
  have hm := matchStrip_spaces isWord re hz x
  induction z with
  | nil =>
    split <;> rename_i h
    · rw [if_pos h] at hm
      refine strip_cons_some (hm.trans ?_)
      simp [Nat.add_comm]
    · rw [if_neg h] at hm
      exact strip_cons_none hm
  | cons c z ih =>
    obtain ⟨-,hz'⟩ := List.forall_mem_cons.mp hz
    split <;> rename_i h
    · rw [if_pos h] at hm
      have hdrop : (z++ '#'::x).drop (z.length+1+re.length) = x.drop re.length := by
        rw [← List.drop_drop]
        simp
      rw [← hdrop]
      refine strip_cons_some (hm.trans ?_)
      simp only [List.length_cons,Option.some.injEq]
      omega
    · rw [if_neg h] at hm
      have hrest := ih hz' (matchStrip_spaces isWord re hz' x)
      rw [if_neg h] at hrest
      exact (strip_cons_none hm).trans (congrArg (c::·) hrest)

/-- A text without `#` that ends in no white space stays, whatever follows. -/
theorem strip_part {w : List Char} (hw : '#'∉w)
    (hlast : ∀ c∈w.getLast?, isWhiteSpace c = false) (y : List Char) :
    strip isWord re (w++y) = w++strip isWord re y := by
  induction w with
  | nil => rfl
  | cons c w ih =>
    have hw' : '#'∉w := fun h => hw (List.mem_cons_of_mem c h)
    have hlast' : ∀ d∈w.getLast?, isWhiteSpace d = false := by
      intro d hd
      refine hlast d ?_
      rw [List.getLast?_cons,Option.mem_def.mp hd]
      rfl
    -- the white space at the head of the part is followed by something else than a `#`
    have hnone : matchStrip isWord re (c::w++y) = none := by
      have hsplit := List.takeWhile_append_dropWhile (p := isWhiteSpace) (l := c::w)
      have hz : ∀ e∈(c::w).takeWhile isWhiteSpace, isWhiteSpace e = true := fun _ he =>
        List.mem_takeWhile_imp he
      cases hd : (c::w).dropWhile isWhiteSpace with
      | nil =>
        obtain ⟨d,hd'⟩ : ∃ d, (c::w).getLast? = some d := ⟨_,List.getLast?_eq_some_getLast (by simp)⟩
        have hspace := List.dropWhile_eq_nil_iff.mp hd d (List.mem_of_getLast? hd')
        simp [hlast d hd'] at hspace
      | cons d v =>
        rw [hd] at hsplit
        have hspace : isWhiteSpace d = false :=
          head_dropWhile isWhiteSpace (c::w) d (by simp [hd])
        have hmem : d∈c::w := by
          rw [← hsplit]
          simp
        have hsharp : d≠ '#' := fun he => hw (he ▸ hmem)
        rw [← hsplit,List.append_assoc,List.cons_append]
        exact matchStrip_blocked hz hspace hsharp _
    exact (strip_cons_none hnone).trans (congrArg (c::·) (ih hw' hlast'))

/-- How a text is stripped up to its first `#`. -/
theorem strip_at {w : List Char} (hw : '#'∉w) (x : List Char) : strip isWord re (w++ '#'::x) =
    if MatchesBehind isWord re x then w.rdropWhile isWhiteSpace++strip isWord re (x.drop re.length)
    else w++ '#'::strip isWord re x := by
  have hsplit : w.rdropWhile isWhiteSpace++w.rtakeWhile isWhiteSpace = w :=
    List.rdropWhile_append_rtakeWhile
  have hpart : '#'∉w.rdropWhile isWhiteSpace := fun h => hw (hsplit ▸ List.mem_append_left _ h)
  have hspaces := strip_spaces isWord re
    (fun _ hc => List.mem_rtakeWhile_imp (p := isWhiteSpace) (l := w) hc) x
  calc strip isWord re (w++ '#'::x)
    _ = strip isWord re (w.rdropWhile isWhiteSpace++(w.rtakeWhile isWhiteSpace++ '#'::x)) := by
        rw [← List.append_assoc,hsplit]
    _ = w.rdropWhile isWhiteSpace++strip isWord re (w.rtakeWhile isWhiteSpace++ '#'::x) :=
        strip_part hpart (getLast_rdropWhile isWhiteSpace w) _
    _ = _ := by
        rw [hspaces]
        split
        · rfl
        · rw [← List.append_assoc,hsplit]

theorem strip_of_not_mem {w : List Char} (hw : '#'∉w) : strip isWord re w = w := by
  induction w with
  | nil => rfl
  | cons c w ih =>
    have hw' : '#'∉w := fun h => hw (List.mem_cons_of_mem c h)
    have hnone : matchStrip isWord re (c::w) = none := by
      unfold matchStrip
      split
      · rename_i rest hd
        have hmem : '#'∈(c::w).dropWhile isWhiteSpace := by simp [hd]
        exact absurd ((List.dropWhile_sublist isWhiteSpace).mem hmem) hw
      · rfl
    exact (strip_cons_none hnone).trans (congrArg (c::·) (ih hw'))

/-- A text is read from one `#` to the next. -/
theorem sharp_induction {motive : List Char → Prop} (plain : ∀ w, '#'∉w → motive w)
    (sharp : ∀ w x, '#'∉w → (∀ v, v <:+ x → motive v) → motive (w++ '#'::x)) (cs : List Char) :
    motive cs := by
  induction h : cs.length using Nat.strong_induction_on generalizing cs with
  | h n ih =>
    by_cases hmem : '#'∈cs
    · obtain ⟨w,x,rfl,hw⟩ := List.eq_append_cons_of_mem hmem
      refine sharp w x hw fun v hv => ih v.length ?_ v rfl
      have hle := hv.length_le
      simp only [List.length_append,List.length_cons] at h
      omega
    · exact plain cs hmem

theorem tagRun_append {u v : List Char} (hv : tagRun isWord v = []) :
    tagRun isWord (u++v) = tagRun isWord u := by
  rw [tagRun,List.takeWhile_append]
  split
  · rename_i hall
    have hself := (List.takeWhile_prefix (tagChar isWord)).eq_of_length hall
    rw [show v.takeWhile (tagChar isWord) = [] from hv,List.append_nil]
    exact hself.symm
  · rfl

theorem tagRun_afterRun (isWord : Char → Bool) (cs : List Char) :
    tagRun isWord (afterRun isWord cs) = [] := by
  cases h : afterRun isWord cs with
  | nil => rfl
  | cons c v =>
    have hc : tagChar isWord c = false := head_dropWhile (tagChar isWord) cs c (by simp [h])
    simp [tagRun,hc]

theorem sharp_notMem_of_tag (hw : WordClass isWord) {r : List Char}
    (hr : ∀ c∈r, tagChar isWord c = true) : '#'∉r :=
  fun h => by simpa [hw.sharp] using hr _ h

/-- Tag characters stay. -/
theorem strip_tag (hw : WordClass isWord) (re : List Char) {r : List Char}
    (hr : ∀ c∈r, tagChar isWord c = true) (y : List Char) :
    strip isWord re (r++y) = r++strip isWord re y :=
  strip_part (sharp_notMem_of_tag hw hr)
    (fun _ hc => hw.not_space (hr _ (List.mem_of_getLast? hc))) y

section removal
variable (toLowercase isWord re)

/-- The tags of a text that another tag is. -/
def keeps (t : String) : Bool := toLowercase t ≠ toLowercase (String.ofList re)

/-- The occurrences of tags that removing one should leave, and those that are left. -/
def toKeep (cs : List Char) : List String := (captures isWord '#' none cs).filter (keeps toLowercase re)

def left (cs : List Char) : List String := captures isWord '#' none (strip isWord re cs)

/-- The pattern matches exactly where the tag that is read is the removed one. -/
def StripsWhole (cs : List Char) : Prop :=
  ∀ x, '#'::x <:+ cs →
    (MatchesBehind isWord re x ↔
      keeps toLowercase re (String.ofList (tagRun isWord x)) = false)

instance (cs : List Char) : Decidable (StripsWhole toLowercase isWord re cs) :=
  decidable_of_iff (∀ y∈cs.tails, y.head? = some '#' → (MatchesBehind isWord re y.tail ↔
      keeps toLowercase re (String.ofList (tagRun isWord y.tail)) = false)) <| by
    constructor
    · exact fun h x hx => h _ ((List.mem_tails _ _).mpr hx) rfl
    · intro h y hy hhead
      refine h y.tail ?_
      rw [List.cons_head?_tail hhead]
      exact (List.mem_tails _ _).mp hy

end removal

section reading
variable (hw : WordClass isWord) (hre : ∀ c∈re, tagChar isWord c = true)

/-- Where the pattern matches, the tag that is read starts with the removed one. -/
theorem matched_split {x : List Char} (hm : MatchesBehind isWord re x) :
    ∃ v, x = re++v ∧ x.drop re.length = v := by
  obtain ⟨v,rfl⟩ := hm.1
  exact ⟨v,rfl,by simp⟩

theorem captured_kept {r : List Char} (hr : r≠[])
    (hk : keeps toLowercase re (String.ofList r) = true) :
    (captured (some r)).filter (keeps toLowercase re) = [String.ofList r] := by
  rw [captured_some hr,List.filter_cons_of_pos hk,List.filter_nil]

theorem captured_dropped {r : List Char} (hk : keeps toLowercase re (String.ofList r) = false) :
    (captured (some r)).filter (keeps toLowercase re) = [] := by
  by_cases hr : r=[]
  · simp [hr,captured]
  · rw [captured_some hr,List.filter_cons_of_neg (by simp [hk]),List.filter_nil]

/-- The removed tag itself is not to be kept. -/
theorem captured_removed : (captured (some re)).filter (keeps toLowercase re) = [] :=
  captured_dropped (by simp [keeps])

theorem toKeep_of_not_mem {w : List Char} (h : '#'∉w) : toKeep toLowercase isWord re w = [] := by
  simp [toKeep,captures_of_not_mem h]

theorem left_of_not_mem {w : List Char} (h : '#'∉w) : left isWord re w = [] := by
  rw [left,strip_of_not_mem h,captures_of_not_mem h]

theorem toKeep_skip (toLowercase : String → String) (isWord : Char → Bool) (re : List Char)
    {w : List Char} (h : '#'∉w) (x : List Char) :
    toKeep toLowercase isWord re (w++x) = toKeep toLowercase isWord re x := by
  rw [toKeep,captures_skip isWord h,toKeep]

theorem left_matched {w : List Char} (h : '#'∉w) {x : List Char} (hm : MatchesBehind isWord re x) :
    left isWord re (w++ '#'::x) = left isWord re (x.drop re.length) := by
  have hpart : '#'∉w.rdropWhile isWhiteSpace := fun hmem =>
    h ((List.rdropWhile_prefix isWhiteSpace w).subset hmem)
  rw [left,strip_at h,if_pos hm,captures_skip isWord hpart,left]

/-- A longer tag is another one. -/
theorem captured_longer (hl : Lowercasing toLowercase) {d : List Char} (hd : d≠[]) :
    (captured (some (re++d))).filter (keeps toLowercase re) = [String.ofList (re++d)] := by
  have hne : re++d≠[] := by simp [hd]
  have hlow : keeps toLowercase re (String.ofList (re++d)) = true := by
    simpa [keeps] using hl.ne_of_infix (u := []) (t := re) (v := d) (by simpa using hd)
  rw [captured_some hne,List.filter_singleton,hlow]
  rfl

theorem stripsWhole_of_not_mem {w : List Char} (h : '#'∉w) : StripsWhole toLowercase isWord re w :=
  fun _ hx => absurd (hx.subset List.mem_cons_self) h

theorem stripsWhole_skip {w : List Char} (h : '#'∉w) {x : List Char} :
    StripsWhole toLowercase isWord re (w++x) ↔ StripsWhole toLowercase isWord re x := by
  induction w with
  | nil => rfl
  | cons c w ih =>
    have hc : '#'≠c := fun he => h (he ▸ List.mem_cons_self)
    rw [← ih fun hmem => h (List.mem_cons_of_mem c hmem)]
    refine forall_congr' fun y => imp_congr_left ?_
    rw [List.cons_append,List.suffix_cons_iff]
    simp [hc]

theorem stripsWhole_at {w : List Char} (h : '#'∉w) {x : List Char} :
    StripsWhole toLowercase isWord re (w++ '#'::x) ↔
      (MatchesBehind isWord re x ↔
        keeps toLowercase re (String.ofList (tagRun isWord x)) = false) ∧
      StripsWhole toLowercase isWord re x := by
  rw [stripsWhole_skip h]
  constructor
  · exact fun hall => ⟨hall x List.suffix_rfl,fun y hy => hall y (hy.trans (List.suffix_cons _ _))⟩
  · rintro ⟨hx,hrest⟩ y hy
    rcases List.suffix_cons_iff.mp hy with he | hy
    · obtain ⟨-,rfl⟩ := List.cons_eq_cons.mp he
      exact hx
    · exact hrest y hy

include hw

theorem toKeep_at {w : List Char} (h : '#'∉w) (x : List Char) :
    toKeep toLowercase isWord re (w++ '#'::x) =
      (captured (some (tagRun isWord x))).filter (keeps toLowercase re)++
        toKeep toLowercase isWord re x := by
  rw [toKeep_skip toLowercase isWord re h,toKeep,captures_sigil hw.sharp,List.filter_append,toKeep]

theorem left_unmatched {w : List Char} (h : '#'∉w) {x : List Char}
    (hm : ¬MatchesBehind isWord re x) : left isWord re (w++ '#'::x) =
      captured (some (tagRun isWord (strip isWord re x)))++left isWord re x := by
  rw [left,strip_at h,if_neg hm,captures_skip isWord h,captures_sigil hw.sharp,left]

/-- What is left behind a `#` is read to the end of its own run and on into what is joined to it. -/
theorem run_unmatched (toLowercase : String → String) (re x : List Char) :
    tagRun isWord (strip isWord re x) =
      tagRun isWord x++tagRun isWord (strip isWord re (afterRun isWord x)) ∧
    left isWord re x = left isWord re (afterRun isWord x) ∧
    toKeep toLowercase isWord re x = toKeep toLowercase isWord re (afterRun isWord x) := by
  have hsplit : tagRun isWord x++afterRun isWord x = x := List.takeWhile_append_dropWhile
  have htag : ∀ c∈tagRun isWord x, tagChar isWord c = true := fun _ hc => List.mem_takeWhile_imp hc
  have hstrip := strip_tag hw re htag (afterRun isWord x)
  have hsharp := sharp_notMem_of_tag hw htag
  rw [hsplit] at hstrip
  refine ⟨?_,?_,?_⟩
  · rw [hstrip,tagRun,List.takeWhile_append_of_pos htag]
  · rw [left,hstrip,captures_skip isWord hsharp,left]
  · have hkeep := toKeep_skip toLowercase isWord re hsharp
      (afterRun isWord x)
    rwa [hsplit] at hkeep

include hre

theorem run_matched (toLowercase : String → String) {x v : List Char} (hx : x = re++v) :
    tagRun isWord x = re++tagRun isWord v ∧
      toKeep toLowercase isWord re x = toKeep toLowercase isWord re v := by
  subst hx
  exact ⟨List.takeWhile_append_of_pos hre,toKeep_skip toLowercase isWord re (sharp_notMem_of_tag hw hre) v⟩

/-- Only the end of a damaged tag is joined to a run before it. -/
theorem joined_run (toLowercase : String → String) (y : List Char) (hy : tagRun isWord y = [])
    (hs : tagRun isWord (strip isWord re y) ≠ []) :
    ∃ d v, v <:+ y ∧ d≠[] ∧ tagRun isWord v = [] ∧
      toKeep toLowercase isWord re y =
        (captured (some (re++d))).filter (keeps toLowercase re)++toKeep toLowercase isWord re v ∧
      left isWord re y = left isWord re v ∧
      tagRun isWord (strip isWord re y) = d++tagRun isWord (strip isWord re v) := by
  induction y using sharp_induction with
  | plain w h => exact absurd hy (by rwa [strip_of_not_mem h] at hs)
  | sharp w x h ih =>
    have hbreak : tagRun isWord ('#'::x) = [] := by simp [tagRun,hw.sharp]
    have hwrun : tagRun isWord w = [] := by rwa [← tagRun_append hbreak]
    by_cases hm : MatchesBehind isWord re x
    · obtain ⟨v,hx,hdrop⟩ := matched_split hm
      obtain ⟨hrun,hkeep⟩ := run_matched hw hre toLowercase hx
      have hv : v <:+ w++ '#'::x := ⟨w++ '#'::re,by simp [hx]⟩
      have hleft : left isWord re (w++ '#'::x) = left isWord re v := by rw [left_matched h hm,hdrop]
      -- what stands before the match would still be at the head
      have hpart : w.rdropWhile isWhiteSpace = [] := by
        by_contra hne
        obtain ⟨c,cs,hc⟩ := List.exists_cons_of_ne_nil hne
        obtain ⟨z,hz⟩ := List.rdropWhile_prefix isWhiteSpace w
        rw [hc] at hz
        have hnot : tagChar isWord c = false := by
          by_contra htag
          simp [← hz,tagRun,htag] at hwrun
        simp [strip_at h,if_pos hm,hc,tagRun,hnot] at hs
      have hstrip : strip isWord re (w++ '#'::x) = strip isWord re v := by
        rw [strip_at h,if_pos hm,hpart,hdrop,List.nil_append]
      rw [hstrip,hleft,toKeep_at hw h,hrun,hkeep]
      rw [hstrip] at hs
      by_cases hd : tagRun isWord v = []
      · obtain ⟨d,v',hv',hrest⟩ := ih v ⟨re,hx.symm⟩ hd hs
        refine ⟨d,v',hv'.trans hv,?_⟩
        rwa [hd,List.append_nil,captured_removed,List.nil_append]
      · obtain ⟨hjoin,hl,hk⟩ := run_unmatched hw toLowercase re v
        exact ⟨tagRun isWord v,afterRun isWord v,(List.dropWhile_suffix _).trans hv,hd,
          tagRun_afterRun isWord v,by rw [hk],hl,hjoin⟩
    · refine absurd ?_ hs
      have hbreak' : tagRun isWord ('#'::strip isWord re x) = [] := by simp [tagRun,hw.sharp]
      rw [strip_at h,if_neg hm,tagRun_append hbreak',hwrun]

/-- No more tags are left that another tag is than there should be. -/
theorem left_length_le (hl : Lowercasing toLowercase) (cs : List Char) :
    ((left isWord re cs).filter (keeps toLowercase re)).length ≤
      (toKeep toLowercase isWord re cs).length := by
  induction cs using sharp_induction with
  | plain w h => simp [left_of_not_mem h]
  | sharp w x h ih =>
    rw [toKeep_at hw h,List.length_append]
    by_cases hm : MatchesBehind isWord re x
    · obtain ⟨v,hx,hdrop⟩ := matched_split hm
      have hv := ih v ⟨re,hx.symm⟩
      rw [left_matched h hm,hdrop,(run_matched hw hre toLowercase hx).2]
      omega
    · obtain ⟨hjoin,hlx,hk⟩ := run_unmatched hw toLowercase re x
      rw [left_unmatched hw h hm,hjoin,hlx,hk,List.filter_append,List.length_append]
      by_cases hs : tagRun isWord (strip isWord re (afterRun isWord x)) = []
      · have hy := ih (afterRun isWord x) (List.dropWhile_suffix _)
        rw [hs,List.append_nil]
        omega
      · -- the tag whose end is joined here is one that should be kept
        obtain ⟨d,v,hv,hd,-,hky,hly,-⟩ := joined_run hw hre toLowercase _
          (tagRun_afterRun isWord x) hs
        have hle := ih v (hv.trans (List.dropWhile_suffix _))
        have hone := List.length_filter_le (keeps toLowercase re) (captured
          (some (tagRun isWord x++tagRun isWord (strip isWord re (afterRun isWord x)))))
        rw [captured_some (by simp [hs]),List.length_singleton] at hone
        rw [hky,hly,captured_longer hl hd,List.length_append,List.length_singleton,
          captured_some (by simp [hs])]
        omega

/-- Where the pattern matches the whole tags only, these are removed and nothing is joined. -/
theorem strip_whole (hl : Lowercasing toLowercase) (cs : List Char)
    (h : StripsWhole toLowercase isWord re cs) :
    left isWord re cs = toKeep toLowercase isWord re cs ∧
    captures isWord '@' none (strip isWord re cs) = captures isWord '@' none cs ∧
    tagRun isWord (strip isWord re cs) = tagRun isWord cs := by
  induction cs using sharp_induction with
  | plain w hw' =>
    exact ⟨by rw [left_of_not_mem hw',toKeep_of_not_mem hw'],by rw [strip_of_not_mem hw'],
      by rw [strip_of_not_mem hw']⟩
  | sharp w x hw' ih =>
    have hbreak (y : List Char) : tagRun isWord ('#'::y) = [] := by simp [tagRun,hw.sharp]
    obtain ⟨hx,hrest⟩ := (stripsWhole_at hw').mp h
    by_cases hm : MatchesBehind isWord re x
    · obtain ⟨v,rfl,hdrop⟩ := matched_split hm
      obtain ⟨hrunx,hkeep⟩ := run_matched hw hre toLowercase rfl
      have hsharp := sharp_notMem_of_tag hw hre
      -- the run is the removed tag itself, so nothing is left of it
      have hv : tagRun isWord v = [] := by
        by_contra hd
        have hlong : (captured (some (re++tagRun isWord v))).filter (keeps toLowercase re) = _ :=
          captured_longer hl hd
        have hnot := hx.mp hm
        rw [hrunx] at hnot
        rw [captured_dropped hnot] at hlong
        cases hlong
      obtain ⟨hleft,hat,hrun⟩ := ih v (List.suffix_append re v) ((stripsWhole_skip hsharp).mp hrest)
      rw [hv] at hrun hrunx
      have hspaces : w.rdropWhile isWhiteSpace++w.rtakeWhile isWhiteSpace = w :=
        List.rdropWhile_append_rtakeWhile
      have hspace : ∀ c∈w.rtakeWhile isWhiteSpace, isWhiteSpace c = true := fun _ hc =>
        List.mem_rtakeWhile_imp hc
      have hatre : '@'∉re := fun hmem => by simpa [hw.at] using hre _ hmem
      refine ⟨?_,?_,?_⟩
      · rw [left_matched hw' hm,hdrop,hleft,toKeep_at hw hw',hkeep,hrunx,List.append_nil,
          captured_removed,List.nil_append]
      · calc captures isWord '@' none (strip isWord re (w++ '#'::(re++v)))
          _ = captures isWord '@' none (w.rdropWhile isWhiteSpace)++
                captures isWord '@' none (strip isWord re v) := by
              rw [strip_at hw',if_pos hm,hdrop,captures_append none _ hrun]
          _ = captures isWord '@' none w++captures isWord '@' none v := by
              rw [hat]
              congr 1
              rw [← captures_append_spaces hw (by decide) (w.rdropWhile isWhiteSpace) hspace,hspaces]
          _ = captures isWord '@' none (w++ '#'::(re++v)) := by
              rw [captures_append none w (hbreak _)]
              congr 1
              simpa [captures] using (captures_skip isWord hatre v).symm
      · rw [strip_at hw',if_pos hm,hdrop,tagRun_append hrun,tagRun_append (hbreak _)]
        have hz : tagRun isWord (w.rtakeWhile isWhiteSpace) = [] := tagRun_spaces hw hspace
        rw [← tagRun_append hz (u := w.rdropWhile isWhiteSpace),hspaces]
    · obtain ⟨hleft,hat,hrun⟩ := ih x List.suffix_rfl hrest
      have hkeep : keeps toLowercase re (String.ofList (tagRun isWord x)) = true := by
        simpa using fun hk => hm (hx.mpr hk)
      refine ⟨?_,?_,?_⟩
      · rw [left_unmatched hw hw' hm,toKeep_at hw hw',hleft,hrun]
        congr 1
        by_cases hnil : tagRun isWord x = []
        · simp [hnil,captured]
        · rw [captured_kept hnil hkeep,captured_some hnil]
      · rw [strip_at hw',if_neg hm,captures_append none w (hbreak _),captures_append none w (hbreak _)]
        simpa [captures] using hat
      · rw [strip_at hw',if_neg hm,tagRun_append (hbreak _),tagRun_append (hbreak _)]

omit hw hre in
theorem filter_left {run : Option (List Char)} {cs v : List Char}
    (h : left isWord re cs = (captured run).filter (keeps toLowercase re)++
      toKeep toLowercase isWord re v) :
    (left isWord re cs).filter (keeps toLowercase re) = left isWord re cs := by
  rw [h,List.filter_append,toKeep]
  simp

/-- Nothing is joined where all that is left is to be kept, and no less. -/
theorem run_of_left_eq (hl : Lowercasing toLowercase) {y : List Char} (hy : tagRun isWord y = [])
    (he : left isWord re y = toKeep toLowercase isWord re y) :
    tagRun isWord (strip isWord re y) = [] := by
  by_contra hs
  obtain ⟨d,v,-,hd,-,hky,hly,-⟩ := joined_run hw hre toLowercase y hy hs
  rw [hly,hky] at he
  have hle := left_length_le hw hre hl v
  rw [filter_left he,he,captured_longer hl hd] at hle
  simp at hle

omit hw hre in
theorem boundary_of_word (hne : re≠[]) (hlast : isWord (re.getLast hne) = true) {y : List Char}
    (hy : tagRun isWord y = []) : tagBoundary isWord (re.getLastD '#') y = true := by
  cases y with
  | nil => rfl
  | cons c y =>
    have hc : isWord c = false := by
      by_contra hc
      simp [tagRun,tagChar,hc] at hy
    rw [List.getLastD_eq_getLast?,List.getLast?_eq_some_getLast hne]
    simp [tagBoundary,hlast,hc]

/-- A tag that ends in a word character: if all that should be kept is left as it is, the
pattern matches the whole tags only. -/
theorem whole_of_left_eq (hl : Lowercasing toLowercase) (hne : re≠[])
    (hlast : isWord (re.getLast hne) = true) (cs : List Char)
    (h : left isWord re cs = toKeep toLowercase isWord re cs) :
    StripsWhole toLowercase isWord re cs := by
  induction cs using sharp_induction with
  | plain w hw' => exact stripsWhole_of_not_mem hw'
  | sharp w x hw' ih =>
    rw [stripsWhole_at hw']
    rw [toKeep_at hw hw'] at h
    by_cases hm : MatchesBehind isWord re x
    · obtain ⟨v,rfl,hdrop⟩ := matched_split hm
      obtain ⟨hrun,hkeep⟩ := run_matched hw hre toLowercase rfl
      rw [left_matched hw' hm,hdrop,hrun,hkeep] at h
      have hv : tagRun isWord v = [] := by
        by_contra hd
        have hle := left_length_le hw hre hl v
        rw [filter_left h,h,captured_longer hl hd] at hle
        simp at hle
      rw [hv,List.append_nil,captured_removed,List.nil_append] at h
      rw [hrun,hv,List.append_nil]
      refine ⟨iff_of_true hm (by simp [keeps]),?_⟩
      exact (stripsWhole_skip (sharp_notMem_of_tag hw hre)).mpr (ih v (List.suffix_append re v) h)
    · have hrunless := tagRun_afterRun isWord x
      have hsplit : tagRun isWord x++afterRun isWord x = x := List.takeWhile_append_dropWhile
      have htag : ∀ c∈tagRun isWord x, tagChar isWord c = true := fun _ hc =>
        List.mem_takeWhile_imp hc
      obtain ⟨hjoin,hlx,hkx⟩ := run_unmatched hw toLowercase re x
      rw [left_unmatched hw hw' hm,hjoin,hlx,hkx] at h
      generalize hr : tagRun isWord x = r at h hsplit htag ⊢
      generalize hy : afterRun isWord x = y at h hsplit hrunless
      have hskip : StripsWhole toLowercase isWord re y → StripsWhole toLowercase isWord re x := by
        intro hwhole
        rw [← hsplit]
        exact (stripsWhole_skip (sharp_notMem_of_tag hw htag)).mpr hwhole
      have hsuffix : y <:+ x := ⟨r,hsplit⟩
      by_cases hs : tagRun isWord (strip isWord re y) = []
      · rw [hs,List.append_nil] at h
        have hkeep : keeps toLowercase re (String.ofList r) = true ∧
            left isWord re y = toKeep toLowercase isWord re y := by
          by_cases hnil : r=[]
          · refine ⟨?_,by simpa [hnil,captured] using h⟩
            have hempty := hl.ne_of_infix (u := re) (t := []) (v := []) (by simpa using hne)
            rw [hnil,keeps,decide_eq_true_eq]
            simpa using hempty.symm
          · cases hk : keeps toLowercase re (String.ofList r) with
            | true =>
              rw [captured_kept hnil hk,captured_some hnil] at h
              exact ⟨rfl,List.append_cancel_left h⟩
            | false =>
              rw [captured_dropped hk,captured_some hnil,List.nil_append] at h
              have hmem : String.ofList r∈toKeep toLowercase isWord re y := h ▸ List.mem_cons_self
              simp [toKeep,hk] at hmem
        exact ⟨iff_of_false hm (by simp [hkeep.1]),hskip (ih y hsuffix hkeep.2)⟩
      · -- the end of a damaged tag is joined here, and makes the same text of the removed one
        exfalso
        obtain ⟨d,v,-,hd,hv,hky,hly,hjoined⟩ := joined_run hw hre toLowercase y
          hrunless hs
        rw [captured_some (by simp [hs]),hky,hly,captured_longer hl hd] at h
        have hdropped : (captured (some r)).filter (keeps toLowercase re) = [] := by
          cases hk : keeps toLowercase re (String.ofList r) with
          | false => exact captured_dropped hk
          | true =>
            by_cases hnil : r=[]
            · simp [hnil,captured]
            · rw [captured_kept hnil hk] at h
              have hhead := (List.cons_eq_cons.mp h).1
              rw [String.ofList_inj,List.append_right_eq_self] at hhead
              exact absurd hhead hs
        rw [hdropped,List.nil_append,List.singleton_append,List.singleton_append] at h
        obtain ⟨hhead,hrest⟩ := List.cons_eq_cons.mp h
        rw [hjoined,run_of_left_eq hw hre hl hv hrest,List.append_nil,String.ofList_inj] at hhead
        obtain rfl : r=re := List.append_cancel_right hhead
        refine hm ⟨⟨y,hsplit⟩,?_⟩
        rw [← hsplit,List.drop_left]
        exact boundary_of_word hne hlast hrunless

end reading

section spelling
variable (toLowercase : String → String) (isWord : Char → Bool)

/-- Each occurrence of the tag is spelled like it, and ends the text where the tag ends in a
hyphen; a longer tag goes on from it with a character of the same class as its last. -/
def SpelledAlike (tag : List Char) (cs : List Char) : Prop :=
  ∀ x, '#'::x <:+ cs →
    (toLowercase (String.ofList (tagRun isWord x)) = toLowercase (String.ofList tag) →
      tagRun isWord x = tag ∧ (isWord (tag.getLastD '#') = false → afterRun isWord x = [])) ∧
    ∀ c d, tagRun isWord x = tag++c::d → isWord c = isWord (tag.getLastD '#')

variable {toLowercase isWord}

theorem matchesBehind_iff_spelled (hl : Lowercasing toLowercase)
    (hre : ∀ c∈re, tagChar isWord c = true) (x : List Char) :
    (MatchesBehind isWord re x ↔ keeps toLowercase re (String.ofList (tagRun isWord x)) = false) ↔
      (toLowercase (String.ofList (tagRun isWord x)) = toLowercase (String.ofList re) →
        tagRun isWord x = re ∧ (isWord (re.getLastD '#') = false → afterRun isWord x = [])) ∧
      ∀ c d, tagRun isWord x = re++c::d → isWord c = isWord (re.getLastD '#') := by
  have hsplit : tagRun isWord x++afterRun isWord x = x := List.takeWhile_append_dropWhile
  have hkeep (t : List Char) : keeps toLowercase re (String.ofList t) = false ↔
      toLowercase (String.ofList t) = toLowercase (String.ofList re) := by simp [keeps]
  have hlonger {d : List Char} (hd : d≠[]) :
      toLowercase (String.ofList (re++d)) ≠ toLowercase (String.ofList re) := by
    simpa using hl.ne_of_infix (u := []) (t := re) (v := d) (by simpa using hd)
  have hrun {v : List Char} (hx : x = re++v) : tagRun isWord x = re++tagRun isWord v := by
    rw [hx]
    exact List.takeWhile_append_of_pos hre
  rw [hkeep,MatchesBehind]
  generalize re.getLastD '#' = last
  constructor
  · refine fun h => ⟨fun hlow => ?_,fun c d hd => ?_⟩
    · obtain ⟨⟨v,hx⟩,hb⟩ := h.mpr hlow
      rw [hrun hx.symm] at hlow
      have hv : tagRun isWord v = [] := by
        by_contra hd
        exact hlonger hd hlow
      have hself : tagRun isWord x = re := by rw [hrun hx.symm,hv,List.append_nil]
      refine ⟨hself,fun hlast => ?_⟩
      have hafter : afterRun isWord x = v := by
        rw [hself] at hsplit
        exact List.append_cancel_left (hsplit.trans hx.symm)
      rw [hafter]
      rw [← hx,List.drop_left] at hb
      cases v with
      | nil => rfl
      | cons c v =>
        have hc : isWord c = true := by simpa [tagBoundary,hlast] using hb
        simp [tagRun,tagChar,hc] at hv
    · by_contra hclass
      have hx : re++(c::d++afterRun isWord x) = x := by rw [← List.append_assoc,← hd,hsplit]
      refine hlonger (List.cons_ne_nil c d) (hd ▸ h.mp ⟨⟨_,hx⟩,?_⟩)
      rw [← hx,List.drop_left]
      simpa [tagBoundary] using Ne.symm hclass
  · rintro ⟨hsame,hlong⟩
    constructor
    · rintro ⟨⟨v,hx⟩,hb⟩
      rw [hrun hx.symm]
      cases hd : tagRun isWord v with
      | nil => rw [List.append_nil]
      | cons c d =>
        have hclass := hlong c d (by rw [hrun hx.symm,hd])
        obtain ⟨y,hy⟩ := List.takeWhile_prefix (l := v) (tagChar isWord)
        rw [show v.takeWhile (tagChar isWord) = c::d from hd] at hy
        rw [← hx,List.drop_left,← hy] at hb
        simp [tagBoundary,hclass] at hb
    · intro hlow
      obtain ⟨hself,hend⟩ := hsame hlow
      rw [hself] at hsplit
      refine ⟨⟨_,hsplit⟩,?_⟩
      rw [← hsplit,List.drop_left]
      cases hy : afterRun isWord x with
      | nil => rfl
      | cons c y =>
        have hc : isWord c = false := by
          have hnone := tagRun_afterRun isWord x
          by_contra hword
          simp [hy,tagRun,tagChar,hword] at hnone
        have hlast : isWord last = true := by
          by_contra hlast
          simp [hend (by simpa using hlast)] at hy
        simp [tagBoundary,hc,hlast]

theorem stripsWhole_iff_spelled (hl : Lowercasing toLowercase)
    (hre : ∀ c∈re, tagChar isWord c = true) (cs : List Char) :
    StripsWhole toLowercase isWord re cs ↔ SpelledAlike toLowercase isWord re cs :=
  forall₂_congr fun x _ => matchesBehind_iff_spelled hl hre x

/-- The law of removing a tag: the other tags and the assignees are read as before, each
occurrence of theirs, and no occurrence of the removed one. -/
structure Removed (toLowercase : String → String) (isWord : Char → Bool) (name tag new : String) :
    Prop where
  tags : ∀ x, x∈(parseTags toLowercase isWord new).tags ↔
    x∈(parseTags toLowercase isWord name).tags ∧ x≠toLowercase tag
  assignees : (parseTags toLowercase isWord new).assignees =
    (parseTags toLowercase isWord name).assignees
  occurrences : captures isWord '#' none new.toList =
    (captures isWord '#' none name.toList).filter fun t => toLowercase t ≠ toLowercase tag

theorem removeTagFromName_eq (hw : WordClass isWord) (name : String) {tag : String} (hne : tag≠"")
    (htag : ∀ c∈tag.toList, tagChar isWord c = true) :
    (removeTagFromName isWord name tag).toList = strip isWord tag.toList name.toList := by
  have hbare : bareTag tag = tag := by
    cases hcs : tag.toList with
    | nil => exact absurd (String.toList_inj.mp hcs) hne
    | cons c cs =>
      have hc : c≠ '#' := by
        rintro rfl
        simpa [hw.sharp] using htag '#' (by simp [hcs])
      rw [bareTag,hcs,List.dropWhile_cons_of_neg (by simpa using hc),← hcs,String.ofList_toList]
  simp [removeTagFromName,compileTagStripRegex,stripTagWithRegex,hbare,hne]

/-- The law holds where the tag is spelled alike. A tag that ends in a word character is
removed as the law says nowhere else. -/
theorem removed_iff (hw : WordClass isWord) (hl : Lowercasing toLowercase) {tag : String}
    (hne : tag≠"") (htag : ∀ c∈tag.toList, tagChar isWord c = true) (name : String) :
    (SpelledAlike toLowercase isWord tag.toList name.toList →
      Removed toLowercase isWord name tag (removeTagFromName isWord name tag)) ∧
    (isWord (tag.toList.getLastD '#') = true →
      Removed toLowercase isWord name tag (removeTagFromName isWord name tag) →
        SpelledAlike toLowercase isWord tag.toList name.toList) := by
  have htext := removeTagFromName_eq hw name hne htag
  have hkeeps : keeps toLowercase tag.toList = fun t => decide (toLowercase t ≠ toLowercase tag) := by
    funext t
    rw [keeps,String.ofList_toList]
  rw [← stripsWhole_iff_spelled hl htag]
  constructor
  · intro h
    obtain ⟨hleft,hat,-⟩ := strip_whole hw htag hl name.toList h
    have hocc : captures isWord '#' none (removeTagFromName isWord name tag).toList =
        (captures isWord '#' none name.toList).filter fun t => toLowercase t ≠ toLowercase tag := by
      rw [htext,← hkeeps]
      exact hleft
    refine ⟨fun x => ?_,?_,hocc⟩
    · rw [mem_tags,mem_tags,hocc]
      simp only [List.mem_filter,decide_eq_true_eq]
      constructor
      · rintro ⟨⟨t,⟨ht,hne⟩,rfl⟩,hx⟩
        exact ⟨⟨⟨t,ht,rfl⟩,hx⟩,hne⟩
      · rintro ⟨⟨⟨t,ht,rfl⟩,hx⟩,hne⟩
        exact ⟨⟨t,⟨ht,hne⟩,rfl⟩,hx⟩
    · simp only [parseTags,htext,hat]
  · intro hlast h
    have hne' : tag.toList≠[] := by simpa using hne
    rw [List.getLastD_eq_getLast?,List.getLast?_eq_some_getLast hne'] at hlast
    refine whole_of_left_eq hw htag hl hne' hlast name.toList ?_
    have hocc := h.occurrences
    rw [htext,← hkeeps] at hocc
    exact hocc

end spelling

/-- A longer tag is cut, what follows it is joined to the word before it, and an occurrence in
another letter case stays. -/
theorem longer_tag_cut :
    removeTagFromName asciiWord "Plan #lead-time #Lead" "lead" = "Plan-time #Lead" ∧
    ¬Removed asciiLowercase asciiWord "Plan #lead-time #Lead" "lead" "Plan-time #Lead" := by
  refine ⟨by decide,fun h => ?_⟩
  have hmem : "lead-time"∈(parseTags asciiLowercase asciiWord "Plan-time #Lead").tags :=
    (h.tags "lead-time").mpr ⟨by decide,by decide⟩
  exact absurd hmem (by decide)

theorem lead_removed : Removed asciiLowercase asciiWord "Plan #lead #leadership @bob" "lead"
    "Plan #leadership @bob" := by
  have htag : ∀ c∈"lead".toList, tagChar asciiWord c = true := List.all_eq_true.mp (by decide)
  have hspelled : SpelledAlike asciiLowercase asciiWord "lead".toList
      "Plan #lead #leadership @bob".toList :=
    (stripsWhole_iff_spelled asciiLowercase_lowercasing htag _).mp (by decide)
  exact (removed_iff asciiWord_wordClass asciiLowercase_lowercasing (by decide) htag _).1 hspelled

end WorkflowyMcp.TagParser
