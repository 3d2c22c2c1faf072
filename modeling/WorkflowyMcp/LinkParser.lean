import Mathlib.Data.List.Infix
import WorkflowyMcp.Text

/-! The hash that a link names: the places where it is looked for, and the share links and
the other inputs where that is the hash that the link is about. -/
namespace WorkflowyMcp.LinkParser

section parser
variable (toLowercase : String → String)

/-- The characters that end a candidate. -/
def ends (c : Char) : Bool := c = '?' || c = '&' || c = '/' || c = '#'

def isAsciiHexdigit (c : Char) : Bool :=
  (48≤c.toNat && c.toNat≤57) || (65≤c.toNat && c.toNat≤70) || (97≤c.toNat && c.toNat≤102)

def normaliseHexCandidate (raw : List Char) : Option String :=
  let cleaned := String.ofList (raw.filter (· ≠ '-'))
  if cleaned.utf8ByteSize ∉ [8,12,32] then none
  else if !cleaned.toList.all isAsciiHexdigit then none
  else some (toLowercase cleaned)

/-- The key that ends here. -/
def keyAt (before : List Char) : String :=
  String.ofList (before.rtakeWhile fun c => c≠ '?' && c≠ '&')

/- The search for a `=` behind the key; `before` is the text before it. -/
def paramFrom (key : String) : List Char → List Char → Option (List Char)
  | _,[] => none
  | before,c::cs =>
    if c = '=' ∧ toLowercase (keyAt before) = toLowercase key
    then some (cs.takeWhile fun c => c≠ '&' && c≠ '#')
    else paramFrom key (before++[c]) cs

def extractQueryParamValue (input : List Char) (key : String) : Option (List Char) :=
  paramFrom toLowercase key [] input

/-- What follows the first occurrence of a text. -/
def afterFirst (pat : List Char) : List Char → Option (List Char)
  | [] => if pat = [] then some [] else none
  | c::cs => if pat <+: c::cs then some ((c::cs).drop pat.length) else afterFirst pat cs

def splitOnce (sep : Char) (cs : List Char) : Option (List Char × List Char) :=
  if sep∈cs then some (cs.takeWhile (· ≠ sep),(cs.dropWhile (· ≠ sep)).tail) else none

def lastSegment (cs : List Char) : List Char := cs.rtakeWhile (· ≠ '/')

/- Where no `#` stands before the query, the default of the second split is the text
   with its query. -/
def pathOnly (trimmed : List Char) : List Char :=
  let path := ((splitOnce '?' trimmed).map Prod.fst).getD trimmed
  ((splitOnce '#' path).map Prod.fst).getD trimmed

def fragmentCandidate (trimmed : List Char) : Option (List Char) :=
  (afterFirst "/#/".toList trimmed).map fun after => after.takeWhile (!ends ·)

def sharedCandidate (trimmed : List Char) : Option (List Char) :=
  if "/s/".toList <:+: trimmed then some (lastSegment (pathOnly trimmed)) else none

def bareCandidate (trimmed : List Char) : List Char :=
  ((lastSegment trimmed).dropWhile (· = '#')).takeWhile (!ends ·)

/-- The places, in the order in which they are tried. -/
def firstHash (trimmed : List Char) : Option String :=
  ((extractQueryParamValue toLowercase trimmed "focusedItem").bind
    (normaliseHexCandidate toLowercase)).or <|
  ((fragmentCandidate trimmed).bind (normaliseHexCandidate toLowercase)).or <|
  ((sharedCandidate trimmed).bind (normaliseHexCandidate toLowercase)).or <|
  normaliseHexCandidate toLowercase (bareCandidate trimmed)

def extractWorkflowyShortHash (input : String) : Option String :=
  let trimmed := (trim input).toList
  if trimmed = [] then none else firstHash toLowercase trimmed

end parser

section reading
variable {toLowercase : String → String}

/-- Digits and hyphens. -/
def HexText (p : List Char) : Prop := ∀ c∈p, isAsciiHexdigit c = true ∨ c = '-'

instance (p : List Char) : Decidable (HexText p) :=
  decidable_of_iff (p.all fun c => isAsciiHexdigit c || c = '-') (by simp [HexText])

theorem HexText.not_mem {p : List Char} (h : HexText p) {c : Char}
    (hc : isAsciiHexdigit c = false ∧ c≠ '-') : c∉p := by
  intro hmem
  rcases h c hmem with hhex | he
  · simp [hc.1] at hhex
  · exact hc.2 he

theorem HexText.takeWhile_ends {p : List Char} (h : HexText p) : p.takeWhile (!ends ·) = p := by
  rw [List.takeWhile_eq_self_iff]
  intro c hc
  by_contra hends
  simp only [ends,Bool.not_eq_true',Bool.not_eq_false,Bool.or_eq_true,decide_eq_true_eq] at hends
  obtain ((rfl | rfl) | rfl) | rfl := hends <;> exact h.not_mem (by decide) hc

theorem ascii_of_hex {c : Char} (h : isAsciiHexdigit c = true) : c.toNat < 128 := by
  simp only [isAsciiHexdigit,Bool.or_eq_true,Bool.and_eq_true,decide_eq_true_eq] at h
  omega

theorem asciiLowercase_length (s : String) : (asciiLowercase s).length = s.length := by
  simp [asciiLowercase,← String.length_toList]

/-- What a candidate is that passes. -/
theorem normalise_eq_some {p : List Char} {r : String}
    (h : normaliseHexCandidate toLowercase p = some r) : HexText p ∧
      (String.ofList (p.filter (· ≠ '-'))).utf8ByteSize∈[8,12,32] ∧
      r = toLowercase (String.ofList (p.filter (· ≠ '-'))) := by
  simp only [normaliseHexCandidate,Option.ite_none_left_eq_some,Decidable.not_not] at h
  obtain ⟨hlen,hhex,hr⟩ := h
  refine ⟨fun c hc => ?_,hlen,(Option.some.inj hr).symm⟩
  by_cases hdash : c = '-'
  · exact Or.inr hdash
  · left
    simp only [Bool.not_eq_true',Bool.not_eq_false,List.all_eq_true,String.toList_ofList] at hhex
    exact hhex c (List.mem_filter.mpr ⟨hc,by simpa using hdash⟩)

theorem normalise_length (hl : Lowercasing toLowercase) {p : List Char} {r : String}
    (h : normaliseHexCandidate toLowercase p = some r) : r.length∈[8,12,32] := by
  obtain ⟨hp,hlen,rfl⟩ := normalise_eq_some h
  have hascii : Ascii (String.ofList (p.filter (· ≠ '-'))) := by
    intro c hc
    rw [String.toList_ofList,List.mem_filter] at hc
    exact ascii_of_hex ((hp c hc.1).resolve_right (by simpa using hc.2))
  rw [hl.ascii _ hascii,asciiLowercase_length,← String.length_toList,← hascii.utf8ByteSize]
  exact hlen

theorem afterFirst_eq_some {pat cs rest : List Char} (h : afterFirst pat cs = some rest) :
    ∃ u, cs = u++pat++rest := by
  induction cs with
  | nil =>
    obtain ⟨rfl,rfl⟩ : pat=[] ∧ [] = rest := by simpa [afterFirst] using h
    exact ⟨[],rfl⟩
  | cons c cs ih =>
    simp only [afterFirst] at h
    split at h
    · rename_i hpre
      obtain ⟨v,hv⟩ := hpre
      obtain rfl := Option.some.inj h
      exact ⟨[],by simp [← hv]⟩
    · obtain ⟨u,hu⟩ := ih h
      exact ⟨c::u,by simp [hu]⟩

theorem afterFirst_eq_none {pat cs : List Char} {c : Char} (hc : c∈pat) (h : c∉cs) :
    afterFirst pat cs = none := by
  cases hf : afterFirst pat cs with
  | none => rfl
  | some rest =>
    obtain ⟨u,rfl⟩ := afterFirst_eq_some hf
    exact absurd (List.mem_append_left rest (List.mem_append_right u hc)) h

theorem splitOnce_of_not_mem {sep : Char} {cs : List Char} (h : sep∉cs) :
    splitOnce sep cs = none := if_neg h

theorem splitOnce_fst {sep : Char} {cs : List Char} (h : sep∈cs) :
    (splitOnce sep cs).map Prod.fst = some (cs.takeWhile (· ≠ sep)) := by simp [splitOnce,h]

theorem pathOnly_eq (t : List Char) : pathOnly t =
    ((splitOnce '#' (t.takeWhile (· ≠ '?'))).map Prod.fst).getD t := by
  have hpath : ((splitOnce '?' t).map Prod.fst).getD t = t.takeWhile (· ≠ '?') := by
    by_cases hq : '?'∈t
    · rw [splitOnce_fst hq,Option.getD_some]
    · rw [splitOnce_of_not_mem hq,Option.map_none,Option.getD_none,eq_comm,
        List.takeWhile_eq_self_iff]
      intro c hc
      simpa using fun he : c = '?' => hq (he ▸ hc)
  rw [pathOnly,hpath]

/-- A `#` before the query makes the path what it should be. -/
theorem pathOnly_of_mem {t : List Char} (h : '#'∈t.takeWhile (· ≠ '?')) :
    pathOnly t = (t.takeWhile (· ≠ '?')).takeWhile (· ≠ '#') := by
  rw [pathOnly_eq,splitOnce_fst h,Option.getD_some]

/-- Elsewhere the query is still on it. -/
theorem pathOnly_of_not_mem {t : List Char} (h : '#'∉t.takeWhile (· ≠ '?')) : pathOnly t = t := by
  rw [pathOnly_eq,splitOnce_of_not_mem h]
  rfl

/-- What stands behind the last `/`, up to the next delimiter. -/
def lastPart (t : List Char) : List Char := (lastSegment t).takeWhile (!ends ·)

theorem bare_eq_lastPart {t : List Char} (h : (lastSegment t).head? ≠ some '#') :
    bareCandidate t = lastPart t := by
  have hstart : (lastSegment t).dropWhile (· = '#') = lastSegment t := by
    cases hs : lastSegment t with
    | nil => rfl
    | cons c cs =>
      have hc : c≠ '#' := by simpa [hs] using h
      rw [List.dropWhile_cons_of_neg (by simpa using hc)]
  rw [bareCandidate,hstart,lastPart]

theorem lastPart_of_sharp {t : List Char} (h : (lastSegment t).head? = some '#') :
    lastPart t = [] := by
  obtain ⟨cs,hcs⟩ := List.head?_eq_some_iff.mp h
  rw [lastPart,hcs,List.takeWhile_cons_of_neg (by decide)]

theorem fragment_none {t : List Char} :
    (fragmentCandidate t).bind (normaliseHexCandidate toLowercase) = none ↔
      ∀ after∈afterFirst "/#/".toList t,
        normaliseHexCandidate toLowercase (after.takeWhile (!ends ·)) = none := by
  rw [fragmentCandidate,Option.bind_map,Option.bind_eq_none_iff]
  rfl

/-- Where both look at the end of the text, the bare form finds what the share link does. -/
theorem shared_or_bare {t : List Char} (h : '#'∉t.takeWhile (· ≠ '?')) :
    ((sharedCandidate t).bind (normaliseHexCandidate toLowercase)).or
      (normaliseHexCandidate toLowercase (bareCandidate t)) =
        normaliseHexCandidate toLowercase (bareCandidate t) := by
  by_cases hs : "/s/".toList <:+: t
  · rw [sharedCandidate,if_pos hs,pathOnly_of_not_mem h,Option.bind_some]
    cases hr : normaliseHexCandidate toLowercase (lastSegment t) with
    | none => rfl
    | some r =>
      have hhex := (normalise_eq_some hr).1
      have hsharp : (lastSegment t).head? ≠ some '#' := fun he =>
        hhex.not_mem (by decide) (List.mem_of_head? he)
      rw [bare_eq_lastPart hsharp,lastPart,hhex.takeWhile_ends,hr]
      rfl
  · rw [sharedCandidate,if_neg hs]
    rfl

theorem paramFrom_eq_some {key : String} {before cs p : List Char}
    (h : paramFrom toLowercase key before cs = some p) : ∃ u v, cs = u++ '='::(p++v) ∧
      toLowercase (keyAt (before++u)) = toLowercase key ∧ ∀ c∈v.head?, c = '&' ∨ c = '#' := by
  induction cs generalizing before with
  | nil => simp [paramFrom] at h
  | cons c cs ih =>
    simp only [paramFrom] at h
    split at h
    · rename_i hkey
      obtain ⟨rfl,hkey⟩ := hkey
      obtain rfl := Option.some.inj h
      refine ⟨[],cs.dropWhile fun c => c≠ '&' && c≠ '#',by simp,by simpa using hkey,?_⟩
      intro c hc
      have hstop := head_dropWhile (fun c => c≠ '&' && c≠ '#') cs c hc
      by_contra hne
      simp [not_or.mp hne] at hstop
    · obtain ⟨u,v,rfl,hkey,hv⟩ := ih h
      exact ⟨c::u,v,rfl,by simpa using hkey,hv⟩

end reading

section places
variable (toLowercase : String → String)

/-- The end of the text stands in a query: behind a `?`, with no `#` between. -/
def InQuery (u : List Char) : Prop := '?'∈u.rtakeWhile (· ≠ '#')

instance (u : List Char) : Decidable (InQuery u) :=
  inferInstanceAs (Decidable ('?'∈u.rtakeWhile (· ≠ '#')))

/-- A segment of the path or of the fragment. -/
def Segment (t p : List Char) : Prop := ∃ u v, t = u++p++v ∧
  (∀ c∈u.getLast?, c = '/' ∨ c = '#') ∧ (∀ c∈v.head?, ends c = true) ∧ ¬InQuery u

/-- The value of a query key. -/
def Value (t : List Char) (key : String) (p : List Char) : Prop := ∃ u v, t = u++ '='::(p++v) ∧
  keyAt u = key ∧ ∀ c∈v.head?, c = '&' ∨ c = '#'

/-- A hash that the text names: a whole segment or the value of the focused item, and another
value only where no segment is a hash. -/
def Named (t : List Char) (r : String) : Prop := ∃ p, normaliseHexCandidate toLowercase p = some r ∧
  (Segment t p ∨ (∃ key, Value t key p ∧ toLowercase key = toLowercase "focusedItem") ∨
    (∃ key, Value t key p) ∧ ∀ q, Segment t q → normaliseHexCandidate toLowercase q = none)

/-- All that is read before the end of the text is no hash, and its last `/` stands in a
query. -/
def ReadsQuery (t : List Char) : Prop :=
  (∀ p∈extractQueryParamValue toLowercase t "focusedItem",
    normaliseHexCandidate toLowercase p = none) ∧
  (∀ after∈afterFirst "/#/".toList t,
    normaliseHexCandidate toLowercase (after.takeWhile (!ends ·)) = none) ∧
  ("/s/".toList <:+: t → '#'∈t.takeWhile (· ≠ '?') →
    normaliseHexCandidate toLowercase (lastSegment (t.takeWhile (· ≠ '#'))) = none) ∧
  InQuery (t.rdropWhile (· ≠ '/'))

variable {toLowercase}

theorem not_inQuery_of_sharp (u : List Char) {w : List Char} (h : '?'∉w) :
    ¬InQuery (u++ '#'::w) := by
  intro hq
  have hw : '#'::w <:+ u++ '#'::w := List.suffix_append u _
  rcases List.suffix_or_suffix_of_suffix (List.rtakeWhile_suffix (· ≠ '#') _) hw with hs | hs
  · rcases List.mem_cons.mp (hs.subset hq) with he | hmem
    · exact absurd he (by decide)
    · exact h hmem
  · have hsharp := List.mem_rtakeWhile_imp (hs.subset List.mem_cons_self)
    simp at hsharp

theorem not_inQuery_of_not_mem {u : List Char} (h : '?'∉u) : ¬InQuery u := fun hq =>
  h ((List.rtakeWhile_suffix (· ≠ '#') u).subset hq)

theorem head_dropWhile_ends (cs : List Char) :
    ∀ c∈(cs.dropWhile (!ends ·)).head?, ends c = true :=
  fun c hc => by simpa using head_dropWhile (!ends ·) cs c hc

theorem segment_fragment {t p : List Char} (h : fragmentCandidate t = some p) : Segment t p := by
  obtain ⟨after,hafter,rfl⟩ := Option.map_eq_some_iff.mp h
  obtain ⟨u,rfl⟩ := afterFirst_eq_some hafter
  refine ⟨u++"/#/".toList,after.dropWhile (!ends ·),by simp,by simp,head_dropWhile_ends after,?_⟩
  have hsharp := not_inQuery_of_sharp (u++['/']) (w := ['/']) (by simp)
  simpa using hsharp

/-- The end of a text behind its last `/`. -/
theorem lastSegment_split (t : List Char) : ∃ u, t = u++lastSegment t ∧
    u = t.rdropWhile (· ≠ '/') ∧ ∀ c∈u.getLast?, c = '/' := by
  refine ⟨_,List.rdropWhile_append_rtakeWhile.symm,rfl,fun c hc => ?_⟩
  simpa using getLast_rdropWhile (· ≠ '/') t c hc

theorem takeWhile_takeWhile_sharp {t : List Char} (h : '#'∈t.takeWhile (· ≠ '?')) :
    (t.takeWhile (· ≠ '?')).takeWhile (· ≠ '#') = t.takeWhile (· ≠ '#') := by
  conv_rhs => rw [← List.takeWhile_append_dropWhile (p := (· ≠ '?')) (l := t),List.takeWhile_append]
  rw [if_neg]
  intro hlen
  have hall := (List.takeWhile_prefix (· ≠ '#')).eq_of_length hlen
  have hsharp := List.takeWhile_eq_self_iff.mp hall '#' h
  simp at hsharp

/-- The end of the path of a share link with a fragment. -/
theorem segment_shared {t : List Char} (h : '#'∈t.takeWhile (· ≠ '?')) :
    Segment t (lastSegment (t.takeWhile (· ≠ '#'))) := by
  obtain ⟨u,hu,-,hlast⟩ := lastSegment_split (t.takeWhile (· ≠ '#'))
  have hsplit : t.takeWhile (· ≠ '#')++t.dropWhile (· ≠ '#') = t := List.takeWhile_append_dropWhile
  refine ⟨u,t.dropWhile (· ≠ '#'),?_,fun c hc => Or.inl (hlast c hc),fun c hc => ?_,?_⟩
  · rw [← hu,hsplit]
  · have he : c = '#' := by simpa using head_dropWhile (· ≠ '#') t c hc
    simp [ends,he]
  · refine not_inQuery_of_not_mem fun hmem => ?_
    have hq : '?'∈t.takeWhile (· ≠ '#') := hu ▸ List.mem_append_left _ hmem
    rw [← takeWhile_takeWhile_sharp h] at hq
    have hno := List.mem_takeWhile_imp ((List.takeWhile_prefix _).subset hq)
    simp at hno

/-- The end of a text whose last `/` stands in no query, or that a `#` follows. -/
theorem segment_bare {t : List Char}
    (h : ¬InQuery (t.rdropWhile (· ≠ '/')) ∨ (lastSegment t).head? = some '#') :
    Segment t (bareCandidate t) := by
  obtain ⟨u,hu,hdrop,hlast⟩ := lastSegment_split t
  rw [← hdrop] at h
  have hsharps := List.takeWhile_append_dropWhile (p := (· = '#')) (l := lastSegment t)
  have hrest := List.takeWhile_append_dropWhile (p := (!ends ·))
    (l := (lastSegment t).dropWhile (· = '#'))
  have hsplit : t = u++(lastSegment t).takeWhile (· = '#')++bareCandidate t++
      ((lastSegment t).dropWhile (· = '#')).dropWhile (!ends ·) := by
    rw [bareCandidate,List.append_assoc,hrest,List.append_assoc,hsharps]
    exact hu
  refine ⟨_,_,hsplit,?_,head_dropWhile_ends _,?_⟩
  all_goals
    have hall : ∀ c∈(lastSegment t).takeWhile (· = '#'), c = '#' := fun c hc => by
      simpa using List.mem_takeWhile_imp hc
    rcases List.eq_nil_or_concat' ((lastSegment t).takeWhile (· = '#')) with hnil | ⟨w,c,hw⟩
  · rw [hnil,List.append_nil]
    exact fun c hc => Or.inl (hlast c hc)
  · rw [hw] at hall ⊢
    simp [hall c (by simp)]
  · rw [hnil,List.append_nil]
    obtain h | h := h
    · exact h
    · obtain ⟨cs,hcs⟩ := List.head?_eq_some_iff.mp h
      simp [hcs] at hnil
  · rw [hw] at hall ⊢
    rw [hall c (by simp),← List.append_assoc]
    exact not_inQuery_of_sharp (u++w) (by simp)

/-- A hash is found where the text names it, or behind a `/` of a query. -/
theorem named_or_readsQuery {t : List Char} {r : String} (h : firstHash toLowercase t = some r) :
    Named toLowercase t r ∨ ReadsQuery toLowercase t := by
  rw [firstHash,Option.or_eq_some_iff] at h
  obtain h | ⟨hfocus,h⟩ := h
  · obtain ⟨p,hp,hr⟩ := Option.bind_eq_some_iff.mp h
    obtain ⟨u,v,rfl,hkey,hv⟩ := paramFrom_eq_some hp
    exact Or.inl ⟨p,hr,Or.inr (Or.inl ⟨_,⟨u,v,rfl,rfl,hv⟩,hkey⟩)⟩
  rw [Option.or_eq_some_iff] at h
  obtain h | ⟨hfragment,h⟩ := h
  · obtain ⟨p,hp,hr⟩ := Option.bind_eq_some_iff.mp h
    exact Or.inl ⟨p,hr,Or.inl (segment_fragment hp)⟩
  by_cases hbare : normaliseHexCandidate toLowercase (bareCandidate t) = some r ∧
      ¬InQuery (t.rdropWhile (· ≠ '/'))
  · exact Or.inl ⟨_,hbare.1,Or.inl (segment_bare (Or.inl hbare.2))⟩
  by_cases hsharp : '#'∈t.takeWhile (· ≠ '?')
  · rw [Option.or_eq_some_iff] at h
    obtain h | ⟨hshared,h⟩ := h
    · obtain ⟨p,hp,hr⟩ := Option.bind_eq_some_iff.mp h
      obtain rfl := Option.some.inj (Option.ite_none_right_eq_some.mp hp).2
      rw [pathOnly_of_mem hsharp,takeWhile_takeWhile_sharp hsharp] at hr
      exact Or.inl ⟨_,hr,Or.inl (segment_shared hsharp)⟩
    · refine Or.inr ⟨Option.bind_eq_none_iff.mp hfocus,fragment_none.mp hfragment,
        fun hs _ => ?_,by_contra fun hq => hbare ⟨h,hq⟩⟩
      rw [sharedCandidate,if_pos hs,pathOnly_of_mem hsharp,takeWhile_takeWhile_sharp hsharp]
        at hshared
      exact hshared
  · rw [shared_or_bare hsharp] at h
    exact Or.inr ⟨Option.bind_eq_none_iff.mp hfocus,fragment_none.mp hfragment,
      fun _ hs => absurd hs hsharp,by_contra fun hq => hbare ⟨h,hq⟩⟩

/-- What is found behind a `/` of a query. -/
theorem ReadsQuery.firstHash_eq {t : List Char} (h : ReadsQuery toLowercase t) :
    firstHash toLowercase t = normaliseHexCandidate toLowercase (bareCandidate t) := by
  obtain ⟨hfocus,hfragment,hshared,-⟩ := h
  rw [firstHash,Option.bind_eq_none_iff.mpr hfocus,fragment_none.mpr hfragment,
    Option.none_or,Option.none_or]
  by_cases hsharp : '#'∈t.takeWhile (· ≠ '?')
  · by_cases hs : "/s/".toList <:+: t
    · rw [sharedCandidate,if_pos hs,pathOnly_of_mem hsharp,takeWhile_takeWhile_sharp hsharp,
        Option.bind_some,hshared hs hsharp,Option.none_or]
    · rw [sharedCandidate,if_neg hs,Option.bind_none,Option.none_or]
  · exact shared_or_bare hsharp

theorem firstHash_length (hl : Lowercasing toLowercase) {t : List Char} {r : String}
    (h : firstHash toLowercase t = some r) : r.length∈[8,12,32] := by
  simp only [firstHash,Option.or_eq_some_iff] at h
  obtain h | ⟨-,h | ⟨-,h | ⟨-,h⟩⟩⟩ := h
  · obtain ⟨p,-,hr⟩ := Option.bind_eq_some_iff.mp h
    exact normalise_length hl hr
  · obtain ⟨p,-,hr⟩ := Option.bind_eq_some_iff.mp h
    exact normalise_length hl hr
  · obtain ⟨p,-,hr⟩ := Option.bind_eq_some_iff.mp h
    exact normalise_length hl hr
  · exact normalise_length hl h

/-- The law for an input: what is returned is a hash that the input names. -/
def NamesHash (toLowercase : String → String) (input : String) : Prop :=
  ∀ r, extractWorkflowyShortHash toLowercase input = some r →
    r.length∈[8,12,32] ∧ Named toLowercase (trim input).toList r

theorem namesHash_iff (hl : Lowercasing toLowercase) (input : String) :
    NamesHash toLowercase input ↔ (ReadsQuery toLowercase (trim input).toList → ∀ r,
      normaliseHexCandidate toLowercase (lastPart (trim input).toList) = some r →
        Named toLowercase (trim input).toList r) := by
  generalize ht : (trim input).toList = t
  have hextract (r : String) : extractWorkflowyShortHash toLowercase input = some r →
      firstHash toLowercase t = some r := by
    intro h
    rw [extractWorkflowyShortHash,ht] at h
    exact (Option.ite_none_left_eq_some.mp h).2
  constructor
  · intro h hread r hr
    have hne : t≠[] := by
      rintro rfl
      exact absurd hread.2.2.2 (by decide)
    have hsharp : (lastSegment t).head? ≠ some '#' := by
      intro he
      have hlen := (normalise_eq_some (lastPart_of_sharp he ▸ hr)).2.1
      simp at hlen
    have hfound : extractWorkflowyShortHash toLowercase input = some r := by
      rw [extractWorkflowyShortHash,ht,if_neg hne,hread.firstHash_eq,bare_eq_lastPart hsharp,hr]
    exact ht ▸ (h r hfound).2
  · intro h r hr
    have hfirst := hextract r hr
    refine ⟨firstHash_length hl hfirst,?_⟩
    rw [ht]
    obtain hnamed | hread := named_or_readsQuery hfirst
    · exact hnamed
    rw [hread.firstHash_eq] at hfirst
    by_cases hsharp : (lastSegment t).head? = some '#'
    · exact ⟨_,hfirst,Or.inl (segment_bare (Or.inr hsharp))⟩
    · exact h hread r (bare_eq_lastPart hsharp ▸ hfirst)

end places

section links
variable (toLowercase : String → String)

/-- A share link: the host, a slug, the hash and a query without the key of a focused item. -/
structure ShareLink where
  host : List Char
  slug : List Char
  hash : List Char
  query : List Char
  host_plain : '?'∉host ∧ '#'∉host
  slug_plain : '/'∉slug ∧ '?'∉slug ∧ '#'∉slug
  hash_hex : HexText hash ∧ (hash.filter (· ≠ '-')).length∈[8,12,32]
  query_form : query = [] ∨ query.head? = some '?' ∧ '#'∉query
  unfocused : ∀ param∈(query.drop 1).splitOn '&',
    toLowercase (String.ofList (param.takeWhile (· ≠ '='))) ≠ toLowercase "focusedItem"

variable {toLowercase}

namespace ShareLink
variable (link : ShareLink toLowercase)

def text : String :=
  String.ofList (link.host++"/s/".toList++link.slug++['/']++link.hash++link.query)

/-- The hash as it should be returned, in lowercase and without hyphens. -/
def shared : String := toLowercase (String.ofList (link.hash.filter (· ≠ '-')))

/-- No other hash is read as the focused item, and a `/` in the query leads to the same hash
unless that is read first. -/
def Undisturbed : Prop :=
  let t := (trim link.text).toList
  (∀ p∈extractQueryParamValue toLowercase t "focusedItem",
    normaliseHexCandidate toLowercase p = none ∨
      normaliseHexCandidate toLowercase p = some link.shared) ∧
  ('/'∈link.query →
    normaliseHexCandidate toLowercase (lastPart t) = some link.shared ∨
      ∃ p∈extractQueryParamValue toLowercase t "focusedItem",
        normaliseHexCandidate toLowercase p = some link.shared)

theorem normalise_hash : normaliseHexCandidate toLowercase link.hash = some link.shared := by
  obtain ⟨hhex,hlen⟩ := link.hash_hex
  have hall : ∀ c∈link.hash.filter (· ≠ '-'), isAsciiHexdigit c = true := by
    intro c hc
    obtain ⟨hmem,hdash⟩ := List.mem_filter.mp hc
    exact (hhex c hmem).resolve_right (by simpa using hdash)
  have hascii : Ascii (String.ofList (link.hash.filter (· ≠ '-'))) := fun c hc =>
    ascii_of_hex (hall c (by simpa using hc))
  have hsize := hascii.utf8ByteSize
  rw [String.toList_ofList] at hsize
  have hgood : (String.ofList (link.hash.filter (· ≠ '-'))).toList.all isAsciiHexdigit = true := by
    rw [String.toList_ofList]
    exact List.all_eq_true.mpr hall
  simp only [normaliseHexCandidate,hgood,hsize]
  rw [if_neg (not_not_intro hlen)]
  rfl

/-- The text that is read: the link without the white space around it. -/
theorem trim_text : (trim link.text).toList = link.host.dropWhile isWhiteSpace++
    ("/s/".toList++link.slug++['/']++link.hash)++link.query.rdropWhile isWhiteSpace := by
  obtain ⟨hhex,hlen⟩ := link.hash_hex
  have hne : link.hash≠[] := by
    intro h
    simp [h] at hlen
  have hlast : ∀ c∈link.hash, isWhiteSpace c = false := by
    intro c hc
    by_contra hspace
    rcases hhex c hc with hd | rfl
    · have hrange : (48≤c.toNat ∧ c.toNat≤57 ∨ 65≤c.toNat ∧ c.toNat≤70) ∨
          97≤c.toNat ∧ c.toNat≤102 := by simpa [isAsciiHexdigit] using hd
      simp only [isWhiteSpace,Bool.not_eq_false,Bool.or_eq_true,Bool.and_eq_true,
        decide_eq_true_eq,beq_iff_eq] at hspace
      omega
    · exact hspace (by decide)
  rw [← toList_trim_append _ _ (by simp) (by simp; decide) ?_,text]
  · simp
  · intro c hc
    rw [List.getLast?_append_of_ne_nil _ hne] at hc
    exact hlast c (List.mem_of_getLast? hc)

theorem sharp_not_mem : '#'∉(trim link.text).toList := by
  rw [trim_text]
  obtain ⟨-,-,hslug⟩ := link.slug_plain
  have hhost : '#'∉link.host.dropWhile isWhiteSpace := fun h =>
    link.host_plain.2 ((List.dropWhile_suffix _).subset h)
  have hhash : '#'∉link.hash := link.hash_hex.1.not_mem (by decide)
  have hquery : '#'∉link.query.rdropWhile isWhiteSpace := by
    intro h
    have hmem := (List.rdropWhile_prefix isWhiteSpace link.query).subset h
    rcases link.query_form with hnil | ⟨-,hq⟩
    · simp [hnil] at hmem
    · exact hq hmem
  simp [hhost,hslug,hhash,hquery]

/-- Without a `/` in the query the hash stands at the end of the text. -/
theorem lastPart_eq_hash (h : '/'∉link.query) : lastPart (trim link.text).toList = link.hash := by
  have hhex := link.hash_hex.1
  have hpre := List.rdropWhile_prefix isWhiteSpace link.query
  have hlast : lastSegment (trim link.text).toList =
      link.hash++link.query.rdropWhile isWhiteSpace := by
    have hslash : ∀ c∈(link.hash++link.query.rdropWhile isWhiteSpace).reverse,
        decide (c≠ '/') = true := by
      intro c hc
      rw [List.mem_reverse,List.mem_append] at hc
      rw [decide_eq_true_eq]
      rintro rfl
      rcases hc with hc | hc
      · exact hhex.not_mem (by decide) hc
      · exact h (hpre.subset hc)
    rw [trim_text,lastSegment,List.rtakeWhile]
    have hsplit : (link.host.dropWhile isWhiteSpace++
        ("/s/".toList++link.slug++['/']++link.hash)++link.query.rdropWhile isWhiteSpace).reverse =
          (link.hash++link.query.rdropWhile isWhiteSpace).reverse++ '/'::
            (link.host.dropWhile isWhiteSpace++("/s/".toList++link.slug)).reverse := by simp
    rw [hsplit,List.takeWhile_append_of_pos hslash]
    simp
  have hends : ∀ c∈link.hash, (!ends c) = true := fun c hc =>
    List.takeWhile_eq_self_iff.mp hhex.takeWhile_ends c hc
  rw [lastPart,hlast,List.takeWhile_append_of_pos hends]
  cases hq : link.query.rdropWhile isWhiteSpace with
  | nil => simp
  | cons c q =>
    have hc : c = '?' := by
      obtain ⟨w,hw⟩ := hpre
      rw [hq] at hw
      rcases link.query_form with hnil | ⟨hhead,-⟩
      · simp [hnil] at hw
      · simpa [← hw] using hhead
    simp [hc,ends]

theorem extracted_iff : extractWorkflowyShortHash toLowercase link.text = some link.shared ↔
    link.Undisturbed := by
  have hsharp := link.sharp_not_mem
  have hlast (h : '/'∉link.query) : normaliseHexCandidate toLowercase
      (lastPart (trim link.text).toList) = some link.shared := by
    rw [link.lastPart_eq_hash h,link.normalise_hash]
  have hne : (trim link.text).toList≠[] := by
    rw [trim_text]
    simp
  rw [extractWorkflowyShortHash,if_neg hne,Undisturbed]
  generalize (trim link.text).toList = t at hsharp hlast ⊢
  have hfragment : fragmentCandidate t = none := by
    rw [fragmentCandidate,afterFirst_eq_none (c := '#') (by decide) hsharp,Option.map_none]
  have hpath : '#'∉t.takeWhile (· ≠ '?') := fun h => hsharp ((List.takeWhile_prefix _).subset h)
  have hbare : bareCandidate t = lastPart t := bare_eq_lastPart fun he =>
    hsharp ((List.rtakeWhile_suffix _ t).subset (List.mem_of_head? he))
  rw [firstHash,hfragment,Option.bind_none,Option.none_or,shared_or_bare hpath,hbare]
  generalize normaliseHexCandidate toLowercase (lastPart t) = last at hlast ⊢
  have hrest : last = some link.shared ↔ ('/'∈link.query → last = some link.shared) :=
    ⟨fun h _ => h,fun h => (em _).elim h hlast⟩
  cases hfocus : extractQueryParamValue toLowercase t "focusedItem" with
  | none => simpa using hrest
  | some p =>
    cases hp : normaliseHexCandidate toLowercase p with
    | none => simpa [hp] using hrest
    | some r => simpa [hp] using fun (he : r = link.shared) _ => Or.inr he

end ShareLink

/-- A share link leads to its hash where nothing else is read before it, and for every input
the hash that is found has one of the three lengths and is named by the input, unless it was
read behind a `/` of a query. -/
theorem found_iff (hl : Lowercasing toLowercase) :
    (∀ link : ShareLink toLowercase,
      extractWorkflowyShortHash toLowercase link.text = some link.shared ↔ link.Undisturbed) ∧
    ∀ input, NamesHash toLowercase input ↔
      (ReadsQuery toLowercase (trim input).toList → ∀ r,
        normaliseHexCandidate toLowercase (lastPart (trim input).toList) = some r →
          Named toLowercase (trim input).toList r) :=
  ⟨ShareLink.extracted_iff,namesHash_iff hl⟩

/-- A share link with a path in its query. -/
def linkWithPath : ShareLink asciiLowercase where
  host := "https://workflowy.com".toList
  slug := "plan".toList
  hash := "c4ae1944b67e".toList
  query := "?next=a/deadbeef1234".toList
  host_plain := by decide
  slug_plain := by decide
  hash_hex := by decide
  query_form := Or.inr (by decide)
  unfocused := by decide

/-- The part of the query is returned, and not the hash of the link. -/
theorem path_in_query_found :
    linkWithPath.text = "https://workflowy.com/s/plan/c4ae1944b67e?next=a/deadbeef1234" ∧
    linkWithPath.shared = "c4ae1944b67e" ∧
    extractWorkflowyShortHash asciiLowercase linkWithPath.text = some "deadbeef1234" := by
  decide +kernel

/-- A share link with an unrelated hash in its query. -/
def linkWithToken : ShareLink asciiLowercase where
  host := "https://workflowy.com".toList
  slug := "plan".toList
  hash := "C4AE1944-b67e".toList
  query := "?token=deadbeef1234".toList
  host_plain := by decide
  slug_plain := by decide
  hash_hex := by decide
  query_form := Or.inr (by decide)
  unfocused := by decide

theorem hash_of_linkWithToken :
    extractWorkflowyShortHash asciiLowercase linkWithToken.text = some "c4ae1944b67e" ∧
    NamesHash asciiLowercase "https://workflowy.com/#/c4ae1944b67e?token=deadbeef1234" := by
  obtain ⟨hlinks,hinputs⟩ := found_iff asciiLowercase_lowercasing
  refine ⟨?_,(hinputs _).mpr fun hread => absurd hread.2.2.2 (by decide +kernel)⟩
  have hshared : linkWithToken.shared = "c4ae1944b67e" := by decide
  rw [← hshared]
  refine (hlinks linkWithToken).mpr ⟨?_,fun hslash => absurd hslash (by decide)⟩
  have hfocus : extractQueryParamValue asciiLowercase (trim linkWithToken.text).toList
    "focusedItem" = none := by decide +kernel
  simp [hfocus]

end links

end WorkflowyMcp.LinkParser
