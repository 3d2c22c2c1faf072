import Mathlib.Data.List.TakeWhile
import WorkflowyMcp.Audit
import WorkflowyMcp.ClientEffects

/-! What the audit finds about a mirror that was just created: the markers that are written, and
what is read back of them. -/
namespace WorkflowyMcp

/-- Where all characters are hex digits, each is one byte long. -/
def validateNodeId (id : String) : Except WorkflowyError Unit :=
  let stripped := id.toList.filter (· ≠ '-')
  if stripped.length ≠ 32 || !stripped.all isAsciiHexdigit then
    .error (.InvalidInput ("Invalid node ID '" ++ id ++
      "': must be a valid UUID (e.g. 550e8400-e29b-41d4-a716-446655440000)"))
  else .ok ()

/-- An upstream that takes an id in any of its written forms. -/
def Service.serveForms (svc : Service) (resolve : String → String) :
    Proc.Server ApiCall ApiReply Upstream
  | .getNode id => svc.serve (.getNode (resolve id))
  | .getChildren id => svc.serve (.getChildren (resolve id))
  | .getTopLevel => svc.serve .getTopLevel
  | .createNode name description parentId priority layout =>
    svc.serve (.createNode name description (parentId.map resolve) priority layout)
  | .postNode id name note completed => svc.serve (.postNode (resolve id) name note completed)
  | .deleteNode id => svc.serve (.deleteNode (resolve id))
  | .moveNode id newParentId priority =>
    svc.serve (.moveNode (resolve id) (resolve newParentId) priority)

namespace Audit

section marker
variable {toLowercase : String → String} {isWord : Char → Bool} {pre cs : List Char}

abbrev wordChar (isWord : Char → Bool) (c : Char) : Bool := isWord c || c = '-'

/-- The marker's name stands at the head of the text, in any case. -/
def Opens (pre cs : List Char) : Prop := (cs.take pre.length).map Char.toLower = pre.map Char.toLower

instance (pre cs : List Char) : Decidable (Opens pre cs) := inferInstanceAs (Decidable (_ = _))

/-- The value that stands at the head of the text, behind blanks. -/
def value (isWord : Char → Bool) (cs : List Char) : List Char :=
  (cs.dropWhile isWhiteSpace).takeWhile (wordChar isWord)

theorem markerAt_isSome :
    (markerAt isWord pre cs).isSome ↔
      Opens pre cs ∧ 3 ≤ (value isWord (cs.drop pre.length)).length := by
  have hlen : 3 ≤ ((value isWord (cs.drop pre.length)).take 40).length ↔
      3 ≤ (value isWord (cs.drop pre.length)).length := by
    rw [List.length_take]
    omega
  unfold markerAt
  split
  · rename_i ho
    dsimp only
    split
    · rename_i h3
      exact iff_of_true rfl ⟨ho,hlen.mp h3⟩
    · rename_i h3
      exact iff_of_false (by simp) fun h => h3 (hlen.mpr h.2)
  · rename_i ho
    exact iff_of_false (by simp) fun h => ho h.1

/-- Some place of the text is a marker with its value. -/
def Holds (isWord : Char → Bool) (pre cs : List Char) : Prop :=
  ∃ t, t <:+ cs ∧ (markerAt isWord pre t).isSome

theorem extractMarker_isSome {text p : String} :
    (extractMarker toLowercase isWord text p).isSome ↔ Holds isWord p.toList text.toList := by
  simp [extractMarker,Holds,List.findSome?_isSome_iff,List.mem_tails]

theorem holds_cons {c : Char} :
    Holds isWord pre (c::cs) ↔ (markerAt isWord pre (c::cs)).isSome ∨ Holds isWord pre cs := by
  constructor
  · rintro ⟨t,ht,hm⟩
    rcases List.suffix_cons_iff.mp ht with rfl | ht
    · exact .inl hm
    · exact .inr ⟨t,ht,hm⟩
  · rintro (hm | ⟨t,ht,hm⟩)
    · exact ⟨_,List.suffix_refl _,hm⟩
    · exact ⟨t,ht.trans (List.suffix_cons c cs),hm⟩

/-- The text ends in a marker's name without a value. -/
def Dangles (pre cs : List Char) : Prop :=
  ∃ t, t <:+ cs ∧ Opens pre t ∧ (t.drop pre.length).all isWhiteSpace

theorem dangles_cons {c : Char} :
    Dangles pre (c::cs) ↔
      (Opens pre (c::cs) ∧ ((c::cs).drop pre.length).all isWhiteSpace) ∨ Dangles pre cs := by
  constructor
  · rintro ⟨t,ht,hm⟩
    rcases List.suffix_cons_iff.mp ht with rfl | ht
    · exact .inl hm
    · exact .inr ⟨t,ht,hm⟩
  · rintro (hm | ⟨t,ht,hm⟩)
    · exact ⟨_,List.suffix_refl _,hm⟩
    · exact ⟨t,ht.trans (List.suffix_cons c cs),hm⟩

theorem opens_line_end (hpre : '\n'∉pre.map Char.toLower) (d l : List Char) :
    Opens pre (d++ '\n'::l) ↔ Opens pre d := by
  unfold Opens
  by_cases hlen : pre.length ≤ d.length
  · rw [List.take_append_of_le_length hlen]
  · rw [not_le] at hlen
    refine iff_of_false (fun h => hpre ?_) fun h => ?_
    · rw [← h,List.take_append]
      obtain ⟨k,hk⟩ : ∃ k, pre.length-d.length = k+1 := ⟨pre.length-d.length-1,by omega⟩
      rw [hk,List.take_succ_cons]
      exact List.mem_map.mpr ⟨'\n',by simp,rfl⟩
    · have hl := congrArg List.length h
      simp only [List.length_map,List.length_take] at hl
      omega

/-- A line end stops a value. -/
theorem value_line_end (hws : ∀ c, isWhiteSpace c → isWord c = false) (d l : List Char) :
    value isWord (d++ '\n'::l) =
      if d.all isWhiteSpace then value isWord l else value isWord d := by
  have hstop : wordChar isWord '\n' = false := by simp [wordChar,hws '\n' (by decide)]
  unfold value
  split
  · rename_i hall
    rw [List.dropWhile_append_of_pos (List.all_eq_true.mp hall),
      List.dropWhile_cons_of_pos (by decide)]
  · rename_i hall
    have hne : (d.dropWhile isWhiteSpace).isEmpty = false := by
      rw [← Bool.not_eq_true,List.isEmpty_iff,List.dropWhile_eq_nil_iff]
      exact fun h => hall (List.all_eq_true.mpr h)
    rw [List.dropWhile_append,hne,if_neg (by simp),List.takeWhile_append,
      List.takeWhile_cons_of_neg (by simp [hstop]),List.append_nil,ite_eq_right_iff]
    intro hlen
    exact (List.takeWhile_eq_self_iff.mpr fun c hc => by
      have heq := (List.takeWhile_prefix _).eq_of_length hlen
      rw [← heq] at hc
      exact List.mem_takeWhile_imp hc).symm

abbrev canonicalOf : List Char := "canonical_of:".toList

/-- Behind a text, the marker line holds a marker if it does so by itself, or if the text ends in
a marker's name: then the line is its value. -/
theorem holds_append_line (hws : ∀ c, isWhiteSpace c → isWord c = false)
    (hword : ∀ c, c.isAlphanum ∨ c = '_' → isWord c) (d p : List Char) :
    Holds isWord canonicalOf (d++ '\n'::("canonical_of: ".toList++p)) ↔
      Holds isWord canonicalOf d ∨ Dangles canonicalOf d ∨
        Holds isWord canonicalOf ("canonical_of: ".toList++p) := by
  have hpre : '\n'∉canonicalOf.map Char.toLower := by decide
  have hvalue : 3 ≤ (value isWord ("canonical_of: ".toList++p)).length := by
    simp [value,isWhiteSpace,wordChar,hword]
  induction d with
  | nil =>
    rw [List.nil_append,holds_cons]
    have hnil : ¬Holds isWord canonicalOf [] := by
      rintro ⟨t,ht,hm⟩
      obtain rfl := List.suffix_nil.mp ht
      exact absurd (markerAt_isSome.mp hm).1 (by decide)
    have hnot : ¬Dangles canonicalOf [] := by
      rintro ⟨t,ht,ho,-⟩
      obtain rfl := List.suffix_nil.mp ht
      exact absurd ho (by decide)
    have hend : ¬(markerAt isWord canonicalOf ('\n'::("canonical_of: ".toList++p))).isSome := fun hm =>
      absurd ((opens_line_end hpre [] _).mp (markerAt_isSome.mp hm).1) (by decide)
    simp only [hnil,hnot,hend,Bool.false_eq_true,false_or]
  | cons c d ih =>
    have hhead : (markerAt isWord canonicalOf (c::(d++ '\n'::("canonical_of: ".toList++p)))).isSome ↔
        (markerAt isWord canonicalOf (c::d)).isSome ∨
          (Opens canonicalOf (c::d) ∧ ((c::d).drop canonicalOf.length).all isWhiteSpace) := by
      rw [markerAt_isSome,markerAt_isSome,← List.cons_append,opens_line_end hpre]
      by_cases ho : Opens canonicalOf (c::d)
      · have hlen : canonicalOf.length ≤ (c::d).length := by
          have hl := congrArg List.length ho
          simp only [List.length_map,List.length_take] at hl
          omega
        rw [List.drop_append_of_le_length hlen,value_line_end hws]
        by_cases hall : ((c::d).drop canonicalOf.length).all isWhiteSpace
        · simp only [hall,if_true,ho,hvalue,and_self,or_true]
        · simp only [hall,Bool.false_eq_true,if_false,ho,true_and,and_false,or_false]
      · simp only [ho,false_and,or_self]
    rw [List.cons_append,holds_cons,holds_cons,dangles_cons]
    simp only [hhead,ih,or_assoc,or_left_comm]

/-- The marker line holds its pillar, or a marker that is part of the pillar. -/
theorem holds_line (p : List Char) :
    Holds isWord canonicalOf ("canonical_of: ".toList++p) ↔
      3 ≤ (value isWord p).length ∨ Holds isWord canonicalOf p := by
  have hline : "canonical_of: ".toList++p =
      ['c','a','n','o','n','i','c','a','l','_','o','f',':',' ']++p := rfl
  have hname : canonicalOf = ['c','a','n','o','n','i','c','a','l','_','o','f',':'] := rfl
  have hvalue : value isWord (' '::p) = value isWord p := by simp [value,isWhiteSpace]
  rw [hline]
  simp only [List.cons_append,List.nil_append,holds_cons,markerAt_isSome]
  simp [Opens,hname,hvalue]

theorem isAlphanum_iff (c : Char) : c.isAlphanum ↔
    ((65 ≤ c.val.toNat ∧ c.val.toNat ≤ 90) ∨ 97 ≤ c.val.toNat ∧ c.val.toNat ≤ 122) ∨
      48 ≤ c.val.toNat ∧ c.val.toNat ≤ 57 := by
  have hclass : c.isAlphanum = ((decide (c.val ≥ 'A'.val ∧ c.val ≤ 'Z'.val) ||
      c.val ≥ 'a'.val && c.val ≤ 'z'.val) || c.val ≥ '0'.val && c.val ≤ '9'.val) := rfl
  rw [hclass]
  simp [UInt32.le_iff_toNat_le]

theorem hexdigit_facts {c : Char} (h : isAsciiHexdigit c) : c.isAlphanum ∧ isWhiteSpace c = false := by
  rw [isAlphanum_iff]
  unfold isAsciiHexdigit at h
  simp only [Char.isDigit,isWhiteSpace,Bool.or_eq_true,Bool.and_eq_true,decide_eq_true_eq,
    Char.le_def,UInt32.le_iff_toNat_le] at h ⊢
  simp at h ⊢
  omega

theorem validateNodeId_ok {id : String} (h : validateNodeId id = .ok ()) :
    32 ≤ id.toList.length ∧ ∀ c∈id.toList, c = '-' ∨ isAsciiHexdigit c := by
  unfold validateNodeId at h
  simp only at h
  split at h
  · cases h
  · rename_i hv
    simp only [ne_eq,Bool.or_eq_true,decide_eq_true_eq,Bool.not_eq_true',not_or,not_not,
      Bool.not_eq_false] at hv
    obtain ⟨hlen,hall⟩ := hv
    refine ⟨hlen ▸ List.length_filter_le ..,fun c hc => ?_⟩
    by_cases hd : c = '-'
    · exact .inl hd
    · exact .inr (List.all_eq_true.mp hall c (List.mem_filter.mpr ⟨hc,by simpa using hd⟩))

/-- What the audit reads of a marker: its first forty characters. -/
def readId (id : String) : String := String.ofList (id.toList.take 40)

theorem extractMarker_mirrorNote (hword : ∀ c, c.isAlphanum ∨ c = '_' → isWord c) {id : String}
    (h : validateNodeId id = .ok ()) :
    extractMarker toLowercase isWord ("mirror_of: " ++ id) "mirror_of:" =
      some (toLowercase (readId id)) := by
  obtain ⟨hlen,hchars⟩ := validateNodeId_ok h
  have hall : ∀ c∈id.toList, wordChar isWord c := fun c hc => by
    rcases hchars c hc with rfl | hx
    · simp [wordChar]
    · simp [wordChar,hword c (.inl (hexdigit_facts hx).1)]
  have hblank : id.toList.dropWhile isWhiteSpace = id.toList := by
    match hl : id.toList with
    | [] => rfl
    | c::cs =>
      rcases hchars c (by simp [hl]) with rfl | hx
      · rfl
      · rw [List.dropWhile_cons_of_neg (by simp [(hexdigit_facts hx).2])]
  have hmark : markerAt isWord "mirror_of:".toList ("mirror_of: ".toList++id.toList) =
      some (id.toList.take 40) := by
    have hword40 : 3 ≤ (id.toList.take 40).length := by
      rw [List.length_take]
      omega
    have hvalue : (((' '::id.toList).dropWhile isWhiteSpace).takeWhile fun c =>
        isWord c || decide (c = '-')) = id.toList := by
      rw [List.dropWhile_cons_of_pos (by decide),hblank]
      exact List.takeWhile_eq_self_iff.mpr hall
    unfold markerAt
    rw [if_pos (by rfl)]
    show (if 3 ≤ ((((' '::id.toList).dropWhile isWhiteSpace).takeWhile fun c =>
      isWord c || decide (c = '-')).take 40).length then _ else none) = _
    rw [hvalue,if_pos hword40]
    exact congrArg some (congrArg (List.take 40) hvalue)
  have htails : ("mirror_of: ".toList++id.toList).tails =
      ("mirror_of: ".toList++id.toList)::("irror_of: ".toList++id.toList).tails := rfl
  rw [extractMarker,String.toList_append,htails,List.findSome?_cons,hmark]
  rfl

end marker

section create
variable {toLowercase : String → String} {isWord : Char → Bool} {resolve : String → String}
  {svc : Service} {u : Upstream} {canonicalId : String} {pillar : Option String}

/-- The description of a canonical that gains the marker line. -/
def markedDesc (desc p : String) : String :=
  if desc = "" then "canonical_of: " ++ p else desc ++ "\n" ++ ("canonical_of: " ++ p)

/-- The canonical gains the marker line, or nothing changes. -/
theorem annotate_facts (svc : Service) (desc : String) (marked : Bool) (pillar : Option String) {before : Facts}
    (hf : u.facts (resolve canonicalId) = some before) :
    let done := (annotateCanonical canonicalId desc marked pillar).run (svc.serveForms resolve) u
    (done.1 = false ∧ done.2.facts = u.facts) ∨
      (done.1 = true ∧ marked = false ∧ ∃ p, pillar = some p ∧
        done.2.facts = Function.update u.facts (resolve canonicalId)
          (some { before with description := some (markedDesc desc p) })) := by
  intro done
  cases hp : pillar with
  | none => exact .inl (by simp [done,hp,annotateCanonical])
  | some p =>
    cases hm : marked with
    | true => exact .inl (by simp [done,hp,hm,annotateCanonical])
    | false =>
      have hdone : done = (((svc.serve (.postNode (resolve canonicalId) none
          (some (markedDesc desc p)) none) u).1.isOk),
          (svc.serve (.postNode (resolve canonicalId) none (some (markedDesc desc p)) none) u).2) := by
        simp only [done,hp,hm]
        rfl
      rw [hdone]
      cases hs : (svc.serve (.postNode (resolve canonicalId) none (some (markedDesc desc p)) none)
          u).1 with
      | error e => exact .inl ⟨rfl,Service.facts_of_nodes (svc.serve_error hs)⟩
      | ok r =>
        obtain ⟨f,hf',hfacts⟩ := svc.serve_post_ok hs
        obtain rfl := Option.some.inj (hf.symm.trans hf')
        exact .inr ⟨rfl,rfl,p,rfl,hfacts⟩

/-- What the creation of a mirror by convention leaves upstream. -/
structure Mirrored (toLowercase : String → String) (isWord : Char → Bool)
    (resolve : String → String) (canonicalId : String) (pillar : Option String) (before : Facts)
    (u' : Upstream) (r : CreateMirrorResult) : Prop where
  mirror : ∃ parentId, u'.facts r.mirrorId =
    some ⟨before.name,some ("mirror_of: " ++ canonicalId),false,parentId⟩
  other : r.mirrorId≠resolve canonicalId
  status : r.auditStatus = "OK" ↔ r.annotatedCanonical ∨
    (extractMarker toLowercase isWord (before.description.getD "") "canonical_of:").isSome
  canonical : (r.annotatedCanonical = false ∧ u'.facts (resolve canonicalId) = some before) ∨
    ((extractMarker toLowercase isWord (before.description.getD "") "canonical_of:").isSome = false ∧
      ∃ p, normalisePillar pillar = some p ∧ u'.facts (resolve canonicalId) =
        some { before with description := some (markedDesc (before.description.getD "") p) })

theorem status_ok (marked annotated : Bool) :
    (if marked || annotated then "OK" else "ORPHAN_canonical_lacks_marker") = "OK" ↔
      annotated ∨ marked := by
  cases marked <;> cases annotated <;> decide

theorem mirrored_of_ok {targetParentId : Option String} {priority : Option Int}
    {r : CreateMirrorResult} {fp : MutationFootprint} {u' : Upstream}
    (hr : (createMirrorViaConvention toLowercase isWord canonicalId targetParentId priority
      pillar).run (svc.serveForms resolve) u = (.ok (r,fp),u')) :
    ∃ before, u.facts (resolve canonicalId) = some before ∧
      Mirrored toLowercase isWord resolve canonicalId pillar before u' r := by
  revert hr
  simp only [createMirrorViaConvention]
  cases refuseSelfMirror canonicalId targetParentId with
  | error e =>
    intro hr
    cases congrArg Prod.fst hr
  | ok pass =>
    simp only [Client.getNode,Client.createNode,Client.request,Proc.bind_eq,Proc.call_bind,
      Proc.ret_bind,Proc.pure_eq,Proc.run_call,Service.serveForms]
    cases hget : (svc.serve (.getNode (resolve canonicalId)) u).1 with
    | error e =>
      intro hr
      cases congrArg Prod.fst hr
    | ok canonical =>
      obtain ⟨hbefore,hsame⟩ := svc.serve_getNode_ok hget
      simp only [Proc.run_call,Service.serveForms]
      rw [← hsame] at hbefore
      generalize (svc.serve (.getNode (resolve canonicalId)) u).2 = u1 at hbefore hsame ⊢
      cases hs : (svc.serve (.createNode canonical.name (some ("mirror_of: " ++ canonicalId))
          (targetParentId.map resolve) priority none) u1).1 with
      | error e =>
        intro hr
        cases congrArg Prod.fst hr
      | ok reply =>
        obtain ⟨c,rfl,hfresh,-,hfacts⟩ := svc.serve_create_ok hs
        have hne : resolve canonicalId≠c := fun he => by simp [← he,hbefore] at hfresh
        generalize (svc.serve (.createNode canonical.name (some ("mirror_of: " ++ canonicalId))
          (targetParentId.map resolve) priority none) u1).2 = u2 at hfacts ⊢
        have hbefore2 : u2.facts (resolve canonicalId) = some canonical.facts := by
          rw [hfacts,Function.update_of_ne hne,hbefore]
        simp only [Client.createdNode,Proc.run_bind,Proc.run_ret]
        have hann := annotate_facts svc (canonical.description.getD "") (extractMarker toLowercase
          isWord (canonical.description.getD "") "canonical_of:").isSome (normalisePillar pillar) hbefore2
        simp only at hann
        generalize (annotateCanonical canonicalId (canonical.description.getD "") _ _).run
          (svc.serveForms resolve) u2 = done at hann ⊢
        intro hr
        obtain ⟨hres,rfl⟩ := Prod.mk.inj hr
        obtain ⟨rfl,-⟩ := Prod.mk.inj (Except.ok.inj hres)
        refine ⟨canonical.facts,hsame ▸ hbefore,?_⟩
        rcases hann with ⟨hno,hkept⟩ | ⟨hyes,hmark,p,hp,hset⟩
        · refine ⟨⟨targetParentId.map resolve,?_⟩,hne.symm,status_ok _ _,.inl ⟨hno,?_⟩⟩
          · rw [hkept,hfacts,Function.update_self]
            rfl
          · rw [hkept,hbefore2]
        · refine ⟨⟨targetParentId.map resolve,?_⟩,hne.symm,status_ok _ _,.inr ⟨hmark,p,hp,?_⟩⟩
          · rw [hset,Function.update_of_ne hne.symm,hfacts,Function.update_self]
            rfl
          · rw [hset,Function.update_self]
            rfl

/-- What the class of word characters has, and what it has not. -/
structure WordClass (isWord : Char → Bool) : Prop where
  blank : ∀ c, isWhiteSpace c → isWord c = false
  ascii : ∀ c, c.isAlphanum ∨ c = '_' → isWord c

/-- The markers that are written are found and understood. -/
structure RoundTrips (toLowercase : String → String) (isWord : Char → Bool)
    (id canonicalId : String) (before : Facts) (pillar : Option String) : Prop where
  id : idMatch toLowercase id (readId canonicalId)
  marker : (extractMarker toLowercase isWord (before.description.getD "") "canonical_of:").isSome ∨
    Dangles canonicalOf (before.description.getD "").toList ∨
    ∃ p, normalisePillar pillar = some p ∧
      (3 ≤ (value isWord p.toList).length ∨ Holds isWord canonicalOf p.toList)

theorem Mirrored.marked_iff (hw : WordClass isWord) {before : Facts} {u' : Upstream}
    {r : CreateMirrorResult}
    (h : Mirrored toLowercase isWord resolve canonicalId pillar before u' r)
    (hok : r.auditStatus = "OK") {c : WorkflowyNode}
    (hc : u'.facts (resolve canonicalId) = some c.facts) :
    marked toLowercase isWord c ↔
      (extractMarker toLowercase isWord (before.description.getD "") "canonical_of:").isSome ∨
      Dangles canonicalOf (before.description.getD "").toList ∨
      ∃ p, normalisePillar pillar = some p ∧
        (3 ≤ (value isWord p.toList).length ∨ Holds isWord canonicalOf p.toList) := by
  unfold marked
  rcases h.canonical with ⟨hno,hkept⟩ | ⟨hmark,p,hp,hset⟩
  · have hdesc : c.description = before.description :=
      congrArg Facts.description (Option.some.inj (hc.symm.trans hkept))
    rcases h.status.mp hok with hann | hmark
    · simp [hno] at hann
    · rw [hdesc]
      exact iff_of_true hmark (.inl hmark)
  · have hdesc : c.description = some (markedDesc (before.description.getD "") p) :=
      congrArg Facts.description (Option.some.inj (hc.symm.trans hset))
    have hunmarked : ¬Holds isWord canonicalOf (before.description.getD "").toList := fun hh => by
      have hsome : (extractMarker toLowercase isWord (before.description.getD "")
        "canonical_of:").isSome := extractMarker_isSome.mpr hh
      simp [hmark] at hsome
    have hpillar : (∃ q, normalisePillar pillar = some q ∧
        (3 ≤ (value isWord q.toList).length ∨ Holds isWord canonicalOf q.toList)) ↔
        (3 ≤ (value isWord p.toList).length ∨ Holds isWord canonicalOf p.toList) := by
      simp [hp]
    rw [hdesc,Option.getD_some,extractMarker_isSome,hmark,hpillar,← holds_line]
    unfold markedDesc
    split
    · rename_i hempty
      have hnot : ¬Dangles canonicalOf (before.description.getD "").toList := by
        rw [hempty]
        rintro ⟨t,ht,ho,-⟩
        obtain rfl := List.suffix_nil.mp ht
        exact absurd ho (by decide)
      simp only [hnot,Bool.false_eq_true,false_or,String.toList_append]
    · have hlist : (before.description.getD "" ++ "\n" ++ ("canonical_of: " ++ p)).toList =
          (before.description.getD "").toList ++ '\n'::("canonical_of: ".toList ++ p.toList) := by
        simp
      rw [hlist]
      refine (holds_append_line hw.blank hw.ascii _ _).trans ?_
      simp only [hunmarked,Bool.false_eq_true,false_or]

theorem idMatch_comm (a b : String) : idMatch toLowercase a b = idMatch toLowercase b a := by
  simp only [idMatch,Bool.or_assoc,Bool.or_comm (abbreviates (toLowercase a) (toLowercase b)),
    eq_comm (a := toLowercase a)]

theorem idMatch_lowercase (hlower : ∀ s, toLowercase (toLowercase s) = toLowercase s)
    (a b : String) : idMatch toLowercase a (toLowercase b) = idMatch toLowercase a b := by
  simp only [idMatch,hlower]

theorem drifted_self (name : String) : drifted toLowercase isWord name name = false := by
  simp [drifted,contains]

/-- A node set with a canonical and its mirror as the upstream has them, and no other node that
the mirror's marker matches. -/
structure Audited (toLowercase : String → String) (canonicalId : String) (u' : Upstream)
    (nodes : List WorkflowyNode) (c m : WorkflowyNode) : Prop where
  nodup : (nodes.map WorkflowyNode.id).Nodup
  canonical : c∈nodes
  mirror : m∈nodes
  canonical_facts : u'.facts c.id = some c.facts
  mirror_facts : u'.facts m.id = some m.facts
  sole : ∀ n∈nodes, idMatch toLowercase n.id (readId canonicalId) → n = c

/-- The audit has nothing to report about a mirror and its canonical. -/
def Clean (findings : List MirrorFinding) (mirrorId canonicalId : String) : Prop :=
  ∀ f∈findings, (f.nodeId = mirrorId → f.status∉["BROKEN","DRIFTED","ORPHAN"]) ∧
    (f.nodeId = canonicalId → f.status≠"LONELY")

instance (findings : List MirrorFinding) (mirrorId canonicalId : String) :
    Decidable (Clean findings mirrorId canonicalId) :=
  inferInstanceAs (Decidable (∀ f∈findings, (_ → _) ∧ (_ → _)))

section
variable {nodes : List WorkflowyNode} {c m : WorkflowyNode} {u' : Upstream}
  (it : Iteration toLowercase isWord nodes [])
  (ha : Audited toLowercase canonicalId u' nodes c m)
  (htarget : mirrorTarget toLowercase isWord m = some (toLowercase (readId canonicalId)))

include htarget in
theorem nodeFindings_target : nodeFindings toLowercase isWord it m =
    mirrorFindings toLowercase isWord it m (toLowercase (readId canonicalId)) := by
  simp only [nodeFindings,htarget]

variable (hlower : ∀ s, toLowercase (toLowercase s) = toLowercase s)
include ha hlower

theorem Audited.eq_of_match {n : WorkflowyNode} (hn : n∈it.byId)
    (hi : idMatch toLowercase n.id (toLowercase (readId canonicalId))) : n = c := by
  rw [idMatch_lowercase hlower] at hi
  exact ha.sole n ((mem_byId_iff it ha.nodup).mp hn) hi

include htarget

theorem Audited.told_of_clean (hclean : Clean (auditMirrors toLowercase isWord nodes it) m.id c.id) :
    idMatch toLowercase c.id (readId canonicalId) ∧ marked toLowercase isWord c := by
  have hnode := nodeFindings_target it htarget
  have hno : ∀ f∈mirrorFindings toLowercase isWord it m (toLowercase (readId canonicalId)),
      f.status∉["BROKEN","DRIFTED","ORPHAN"] := fun f hf => by
    have hkey := List.mem_map_of_mem (f := key) (hnode ▸ hf)
    obtain ⟨-,hfm⟩ := mem_nodeFindings it hkey
    have hin : f∈auditMirrors toLowercase isWord nodes it :=
      List.mem_append_left _ (List.mem_flatMap.mpr ⟨m,ha.mirror,hnode ▸ hf⟩)
    exact (hclean f hin).1 hfm
  rcases mirrorFindings_node it m (toLowercase (readId canonicalId)) with
    ⟨x,hx,hi,heq⟩ | ⟨-,⟨e,he,-⟩ | ⟨-,heq⟩⟩
  · obtain rfl := ha.eq_of_match it hlower hx hi
    refine ⟨by rwa [idMatch_lowercase hlower] at hi,?_⟩
    by_contra hun
    refine hno (mkFinding "ORPHAN" m ("canonical " ++ x.id ++ " has no canonical_of: marker")) ?_
      (by simp [mkFinding])
    rw [heq]
    exact List.mem_append_right _ (by simp [Canonical.ofNode,hun])
  · have hnil := it.externals_perm.mem_iff.mp he
    cases hnil
  · refine absurd ?_ (hno _ (heq ▸ List.mem_singleton_self _))
    simp [mkFinding]

theorem Audited.unbroken (hname : m.name = c.name)
    (hi : idMatch toLowercase c.id (toLowercase (readId canonicalId)))
    (hmark : marked toLowercase isWord c) {f : MirrorFinding}
    (hf : f∈auditMirrors toLowercase isWord nodes it) (hfm : f.nodeId = m.id) :
    f.status∉["BROKEN","DRIFTED","ORPHAN"] := by
  intro hs
  have hs' : f.status≠"LONELY" := fun he => by simp [he] at hs
  have hkey := List.mem_map_of_mem (f := key) hf
  have hin := (mem_audit_node it ha.nodup ha.mirror hs' hfm).mp hkey
  rw [nodeFindings_target it htarget] at hin
  rcases mirrorFindings_node it m (toLowercase (readId canonicalId)) with
    ⟨x,hx,hxi,heq⟩ | ⟨hnone,-⟩
  · obtain rfl := ha.eq_of_match it hlower hx hxi
    rw [heq] at hin
    simp [canonicalFindings,Canonical.ofNode,hname,drifted_self,hmark] at hin
  · exact hnone c ((mem_byId_iff it ha.nodup).mpr ha.canonical) hi

theorem Audited.not_lonely (hi : idMatch toLowercase c.id (toLowercase (readId canonicalId)))
    {f : MirrorFinding} (hf : f∈auditMirrors toLowercase isWord nodes it) (hfc : f.nodeId = c.id) :
    f.status≠"LONELY" := by
  intro hs
  have hkey := List.mem_map_of_mem (f := key) hf
  obtain ⟨cid,-,hl⟩ := (mem_audit_lonely it hs).mp hkey
  obtain ⟨hlone,n,hn,hk⟩ := mem_lonelyFindings.mp hl
  obtain ⟨hnmem,hncid⟩ := find?_lowercase hn
  have hnid : n.id = c.id := by
    have hfn : f.nodeId = n.id := congrArg (fun k => k.2.1) hk
    rw [← hfn,hfc]
  refine hlone m ha.mirror _ htarget ?_
  rw [← hncid,hnid,idMatch_lowercase hlower,idMatch_comm]
  exact hi

/-- A mirror passes the audit where its marker names the canonical and the canonical is marked. -/
theorem Audited.clean_iff (hname : m.name = c.name) :
    Clean (auditMirrors toLowercase isWord nodes it) m.id c.id ↔
      idMatch toLowercase c.id (readId canonicalId) ∧ marked toLowercase isWord c := by
  constructor
  · exact ha.told_of_clean it htarget hlower
  · intro ⟨hi,hmark⟩ f hf
    rw [← idMatch_lowercase hlower] at hi
    exact ⟨ha.unbroken it htarget hlower hname hi hmark hf,ha.not_lonely it htarget hlower hi hf⟩

end

theorem Mirrored.name_eq {before : Facts} {u' : Upstream} {r : CreateMirrorResult}
    (h : Mirrored toLowercase isWord resolve canonicalId pillar before u' r) {c : WorkflowyNode}
    (hc : u'.facts (resolve canonicalId) = some c.facts) : c.name = before.name := by
  rcases h.canonical with ⟨-,hkept⟩ | ⟨-,p,-,hset⟩
  · exact congrArg Facts.name (Option.some.inj (hc.symm.trans hkept))
  · exact congrArg Facts.name (Option.some.inj (hc.symm.trans hset))

/-- A mirror whose creation reported `OK` passes the audit, if and only if its markers survive
being written and read. -/
theorem clean_iff_roundTrips (toLowercase : String → String) (isWord : Char → Bool)
    (resolve : String → String) (svc : Service) (u u' : Upstream) (canonicalId : String)
    (targetParentId : Option String) (priority : Option Int) (pillar : Option String)
    (r : CreateMirrorResult) (fp : MutationFootprint) (before : Facts)
    (nodes : List WorkflowyNode) (c m : WorkflowyNode) (it : Iteration toLowercase isWord nodes [])
    (hw : WordClass isWord) (hlower : ∀ s, toLowercase (toLowercase s) = toLowercase s)
    (hid : validateNodeId canonicalId = .ok ())
    (hr : (createMirrorViaConvention toLowercase isWord canonicalId targetParentId priority
      pillar).run (svc.serveForms resolve) u = (.ok (r,fp),u'))
    (hok : r.auditStatus = "OK") (hbefore : u.facts (resolve canonicalId) = some before)
    (ha : Audited toLowercase canonicalId u' nodes c m) (hc : c.id = resolve canonicalId)
    (hm : m.id = r.mirrorId) :
    Clean (auditMirrors toLowercase isWord nodes it) m.id c.id ↔
      RoundTrips toLowercase isWord c.id canonicalId before pillar := by
  obtain ⟨before',hbefore',hmirrored⟩ := mirrored_of_ok hr
  obtain rfl := Option.some.inj (hbefore.symm.trans hbefore')
  have hcanonical : u'.facts (resolve canonicalId) = some c.facts := hc ▸ ha.canonical_facts
  have hmarked := hmirrored.marked_iff hw hok hcanonical
  obtain ⟨parentId,hmirror⟩ := hmirrored.mirror
  have hfacts := Option.some.inj (ha.mirror_facts.symm.trans (hm ▸ hmirror))
  have hdesc : m.description = some ("mirror_of: " ++ canonicalId) :=
    congrArg Facts.description hfacts
  have hname : m.name = c.name := by
    have hmname : m.name = before.name := congrArg Facts.name hfacts
    rw [hmname,hmirrored.name_eq hcanonical]
  have htarget : mirrorTarget toLowercase isWord m = some (toLowercase (readId canonicalId)) := by
    rw [mirrorTarget,hdesc]
    exact extractMarker_mirrorNote hw.ascii hid
  refine (ha.clean_iff it htarget hlower hname).trans ?_
  rw [hmarked]
  exact ⟨fun ⟨hi,hmark⟩ => ⟨hi,hmark⟩,fun h => ⟨h.id,h.marker⟩⟩

theorem asciiWord_class : WordClass asciiWord where
  blank c hc := by
    simp only [isWhiteSpace,Bool.or_eq_true,Bool.and_eq_true,decide_eq_true_eq,beq_iff_eq] at hc
    have hne : c ≠ '_' := fun he => by
      subst he
      simp at hc
    have hval : c.val.toNat = c.toNat := rfl
    have hclass : ¬c.isAlphanum := by
      rw [isAlphanum_iff]
      omega
    simp [asciiWord,hclass,hne]
  ascii c hc := by simpa [asciiWord] using hc

def hyphenated : String := "550e8400-e29b-41d4-a716-446655440000"
def unhyphenated : String := "550e8400e29b41d4a716446655440000"

/-- The mirror of a canonical without a marker, with a pillar. -/
def mirrorRun (canonicalId pillar : String) :
    Except WorkflowyError (CreateMirrorResult × MutationFootprint) × Upstream :=
  (createMirrorViaConvention asciiLowercase asciiWord canonicalId none none (some pillar)).run
    (Service.reliable.serveForms fun id => if id = unhyphenated then hyphenated else id)
    { nodes := [{ id := hyphenated, name := "Habits" }] }

theorem clean_mirrorRun :
    Clean (auditMirrors asciiLowercase asciiWord (mirrorRun hyphenated "lead").2.nodes
      (.listed asciiLowercase asciiWord _ [])) (String.ofList (List.replicate 37 'n')) hyphenated := by
  have hlead : normalisePillar (some "lead") = some "lead" := by decide +kernel
  exact (clean_iff_roundTrips asciiLowercase asciiWord
    (fun id => if id = unhyphenated then hyphenated else id) .reliable
    { nodes := [{ id := hyphenated, name := "Habits" }] } (mirrorRun hyphenated "lead").2 hyphenated
    none none (some "lead") ⟨String.ofList (List.replicate 37 'n'),hyphenated,none,"Habits","OK",true⟩
    _ ⟨"Habits",none,false,none⟩ (mirrorRun hyphenated "lead").2.nodes
    { id := hyphenated, name := "Habits", description := some "canonical_of: lead" }
    { id := String.ofList (List.replicate 37 'n'), name := "Habits",
      description := some ("mirror_of: " ++ hyphenated) }
    (.listed asciiLowercase asciiWord _ []) asciiWord_class asciiLowercase_idem (by decide +kernel)
    (by rfl) rfl rfl
    ⟨by decide +kernel,by decide +kernel,by decide +kernel,by decide +kernel,by decide +kernel,
      by decide +kernel⟩ (by decide +kernel) rfl).mpr
    ⟨by decide +kernel,.inr (.inr ⟨"lead",hlead,.inl (by decide +kernel)⟩)⟩

/-- With a pillar of two characters the canonical is not recognised, and with an id without
hyphens it is not found. -/
theorem ok_but_not_clean :
    (∃ r, (mirrorRun hyphenated "ab").1 = .ok r ∧ r.1.auditStatus = "OK" ∧
      ¬Clean (auditMirrors asciiLowercase asciiWord (mirrorRun hyphenated "ab").2.nodes
        (.listed asciiLowercase asciiWord _ [])) r.1.mirrorId hyphenated) ∧
    ∃ r, (mirrorRun unhyphenated "lead").1 = .ok r ∧ r.1.auditStatus = "OK" ∧
      ¬Clean (auditMirrors asciiLowercase asciiWord (mirrorRun unhyphenated "lead").2.nodes
        (.listed asciiLowercase asciiWord _ [])) r.1.mirrorId hyphenated :=
  ⟨⟨_,rfl,by decide +kernel,by decide +kernel⟩,_,rfl,by decide +kernel,by decide +kernel⟩

end create
end Audit
end WorkflowyMcp
