import Mathlib.Data.String.Basic
import Mathlib.Order.Bounds.Defs
import WorkflowyMcp.Lib.Worklist
import WorkflowyMcp.Text

/-! Entries as the index file stores them, and the ids that must not be persisted:
every node matching an excluded-subtree token, and every descendant of one. -/
namespace WorkflowyMcp

structure PersistedEntry where
  id : String
  name : String
  parentId : Option String
  description : Option String
  lastModified : Option Int
deriving DecidableEq, Repr

def SHORT_HASH_LEN_URL : Nat := 12

def eqIgnoreAsciiCase (s t : String) : Bool :=
  s.toList.map Char.toLower = t.toList.map Char.toLower

/- Ids are ASCII, as the source assumes, so its byte slice of the last twelve is the
   last twelve characters. -/
def matchesToken (tokens : List String) (id : String) : Bool :=
  tokens.any fun t =>
    eqIgnoreAsciiCase id t ||
      (t.utf8ByteSize = SHORT_HASH_LEN_URL && id.toList.length ≥ SHORT_HASH_LEN_URL &&
        eqIgnoreAsciiCase (String.ofList (id.toList.drop (id.toList.length-SHORT_HASH_LEN_URL))) t)

/-- The links from a parent to the nodes naming it, in file order. -/
def childLinks (nodes : List PersistedEntry) : List (String × String) :=
  nodes.filterMap fun n => n.parentId.map fun p => (p,n.id)

def exclusionSeeds (nodes : List PersistedEntry) (tokens : List String) : List String :=
  nodes.flatMap fun n =>
    (if n.parentId.any (matchesToken tokens) then [n.id] else []) ++
      if matchesToken tokens n.id then [n.id] else []

def excludedIds (nodes : List PersistedEntry) (tokens : List String) : Finset String :=
  if tokens=[] then ∅
  else
    let links := childLinks nodes
    let seeds := exclusionSeeds nodes tokens
    Worklist.close links (seeds.length+links.length) seeds.reverse ∅

/-- The least set that holds a listed id when it matches a token, when its parent
does, and when its parent is in the set. -/
inductive Excluded (nodes : List PersistedEntry) (tokens : List String) : String → Prop
  | self {n} : n∈nodes → matchesToken tokens n.id = true → Excluded nodes tokens n.id
  | root {n p} : n∈nodes → n.parentId = some p → matchesToken tokens p = true →
      Excluded nodes tokens n.id
  | child {n p} : n∈nodes → n.parentId = some p → Excluded nodes tokens p →
      Excluded nodes tokens n.id

theorem mem_childLinks {nodes : List PersistedEntry} {p x : String} :
    (p,x)∈childLinks nodes ↔ ∃ n∈nodes, n.parentId = some p ∧ n.id = x := by
  simp [childLinks]

theorem mem_exclusionSeeds {nodes : List PersistedEntry} {tokens : List String} {x : String} :
    x∈exclusionSeeds nodes tokens ↔ ∃ n∈nodes, n.id = x ∧
      (matchesToken tokens x = true ∨
        ∃ p, n.parentId = some p ∧ matchesToken tokens p = true) := by
  simp only [exclusionSeeds,List.mem_flatMap,List.mem_append,List.mem_ite_nil_right,
    List.mem_singleton,Option.any_eq_true]
  constructor
  · rintro ⟨n,hn,⟨⟨p,hp,hm⟩,rfl⟩ | ⟨hm,rfl⟩⟩
    · exact ⟨n,hn,rfl,.inr ⟨p,hp,hm⟩⟩
    · exact ⟨n,hn,rfl,.inl hm⟩
  · rintro ⟨n,hn,rfl,hm | ⟨p,hp,hm⟩⟩
    · exact ⟨n,hn,.inr ⟨hm,rfl⟩⟩
    · exact ⟨n,hn,.inl ⟨⟨p,hp,hm⟩,rfl⟩⟩

theorem excluded_iff_reached {nodes : List PersistedEntry} {tokens : List String} {x : String} :
    Excluded nodes tokens x ↔
      Worklist.Reached (childLinks nodes) (exclusionSeeds nodes tokens) x := by
  constructor
  · intro h
    induction h with
    | self hn hm => exact ⟨_,mem_exclusionSeeds.mpr ⟨_,hn,rfl,.inl hm⟩,.refl⟩
    | root hn hp hm => exact ⟨_,mem_exclusionSeeds.mpr ⟨_,hn,rfl,.inr ⟨_,hp,hm⟩⟩,.refl⟩
    | child hn hp _ ih =>
      obtain ⟨s,hs,hr⟩ := ih
      exact ⟨s,hs,hr.tail (mem_childLinks.mpr ⟨_,hn,hp,rfl⟩)⟩
  · rintro ⟨s,hs,hr⟩
    induction hr with
    | refl =>
      obtain ⟨n,hn,rfl,hm | ⟨p,hp,hm⟩⟩ := mem_exclusionSeeds.mp hs
      · exact .self hn hm
      · exact .root hn hp hm
    | tail _ hedge ih =>
      obtain ⟨n,hn,hp,rfl⟩ := mem_childLinks.mp hedge
      exact .child hn hp ih

theorem not_excluded_nil {nodes : List PersistedEntry} {x : String} : ¬Excluded nodes [] x := by
  intro h
  induction h with
  | self _ hm => exact absurd hm (by simp [matchesToken])
  | root _ _ hm => exact absurd hm (by simp [matchesToken])
  | child _ _ _ ih => exact ih

/-- More nodes exclude more. -/
theorem Excluded.mono {nodes nodes' : List PersistedEntry} {tokens : List String} {x : String}
    (hsub : nodes ⊆ nodes') (h : Excluded nodes tokens x) : Excluded nodes' tokens x := by
  induction h with
  | self hn hm => exact .self (hsub hn) hm
  | root hn hp hm => exact .root (hsub hn) hp hm
  | child hn hp _ ih => exact .child (hsub hn) hp ih

/-- The work stack computes exactly that least set, whatever order it pops in. -/
theorem mem_excludedIds {nodes : List PersistedEntry} {tokens : List String} {x : String} :
    x∈excludedIds nodes tokens ↔ Excluded nodes tokens x := by
  by_cases ht : tokens=[]
  · subst ht
    simpa [excludedIds] using not_excluded_nil
  · rw [excludedIds,if_neg ht,Worklist.mem_close (by simp),excluded_iff_reached]
    simp [Worklist.Reached]

/-- What a token is meant to match: an id, or the last twelve characters of one. -/
def Matches (tokens : List String) (id : String) : Prop :=
  ∃ t∈tokens, eqIgnoreAsciiCase id t ∨
    t.toList.length = SHORT_HASH_LEN_URL ∧
      eqIgnoreAsciiCase (String.ofList (id.toList.rtake SHORT_HASH_LEN_URL)) t

theorem eqIgnoreAsciiCase_length {s t : String} (h : eqIgnoreAsciiCase s t = true) :
    s.toList.length = t.toList.length := by
  simpa [eqIgnoreAsciiCase] using congrArg List.length (of_decide_eq_true h)

theorem Ascii.of_eqIgnoreAsciiCase {s t : String} (hs : Ascii s)
    (h : eqIgnoreAsciiCase s t = true) : Ascii t := by
  intro c hc
  have hlower : c.toLower∈s.toList.map Char.toLower := by
    rw [of_decide_eq_true h]
    exact List.mem_map_of_mem hc
  obtain ⟨d,hd,he⟩ := List.mem_map.mp hlower
  have hd' := hs d hd
  have hn := congrArg Char.toNat he
  rw [toNat_toLower,toNat_toLower] at hn
  split at hn <;> split at hn <;> omega

theorem Ascii.rtake {s : String} (hs : Ascii s) (k : Nat) :
    Ascii (String.ofList (s.toList.rtake k)) := by
  intro c hc
  exact hs c (List.mem_of_mem_drop (by simpa [List.rtake] using hc))

/-- On ASCII ids bytes and characters are counted alike. -/
theorem matchesToken_iff {tokens : List String} {id : String} (hid : Ascii id) :
    matchesToken tokens id = true ↔ Matches tokens id := by
  simp only [matchesToken,Matches,List.any_eq_true,Bool.or_eq_true,Bool.and_eq_true,
    decide_eq_true_eq]
  refine exists_congr fun t => and_congr_right fun _ => or_congr_right ?_
  constructor
  · rintro ⟨⟨hsize,-⟩,he⟩
    have hbytes := ((hid.rtake _).of_eqIgnoreAsciiCase he).utf8ByteSize
    exact ⟨hbytes.symm.trans hsize,he⟩
  · rintro ⟨hlen,he⟩
    have hid' := eqIgnoreAsciiCase_length he
    have hbytes := ((hid.rtake _).of_eqIgnoreAsciiCase he).utf8ByteSize
    simp only [String.toList_ofList,List.rtake,List.length_drop] at hid'
    exact ⟨⟨by omega,by omega⟩,he⟩

/-- The ids that must not be persisted are in `S`. -/
def Closed (nodes : List PersistedEntry) (tokens : List String) (S : Set String) : Prop :=
  ∀ n∈nodes, (Matches tokens n.id ∨ ∃ p, n.parentId = some p ∧ (Matches tokens p ∨ p∈S)) → n.id∈S

/-- The work loop empties its stack and leaves the least closed set. -/
theorem exclusion_least (nodes : List PersistedEntry) (tokens : List String)
    (hascii : ∀ n∈nodes, Ascii n.id ∧ ∀ p∈n.parentId, Ascii p) :
    (tokens≠[] → ∃ k, (Worklist.pop (childLinks nodes))^[k]
      ((exclusionSeeds nodes tokens).reverse,∅) = ([],excludedIds nodes tokens)) ∧
    IsLeast {S | Closed nodes tokens S} (excludedIds nodes tokens : Set String) := by
  refine ⟨fun ht => ⟨(exclusionSeeds nodes tokens).length+(childLinks nodes).length,?_⟩,?_,?_⟩
  · rw [excludedIds,if_neg ht]
    exact Worklist.iterate_pop_eq_close (by simp)
  · rintro n hn (hm | ⟨p,hp,hm | hm⟩)
    · exact mem_excludedIds.mpr (.self hn ((matchesToken_iff (hascii n hn).1).mpr hm))
    · exact mem_excludedIds.mpr (.root hn hp ((matchesToken_iff ((hascii n hn).2 p hp)).mpr hm))
    · exact mem_excludedIds.mpr (.child hn hp (mem_excludedIds.mp hm))
  · intro S hS x hx
    induction mem_excludedIds.mp hx with
    | self hn hm => exact hS _ hn (.inl ((matchesToken_iff (hascii _ hn).1).mp hm))
    | root hn hp hm =>
      exact hS _ hn (.inr ⟨_,hp,.inl ((matchesToken_iff ((hascii _ hn).2 _ hp)).mp hm)⟩)
    | child hn hp hpar ih => exact hS _ hn (.inr ⟨_,hp,.inr (ih (mem_excludedIds.mpr hpar))⟩)

/-- A subtree that the examples of the later modules exclude. -/
def privateRoot : String := "22222222-2222-4222-8222-222222222222"

example : matchesToken ["222222222222"] privateRoot = true := by decide

/-- The excluded root is absent, an id is repeated, and both loops run into themselves. -/
def tangled : List PersistedEntry :=
  [⟨"a","A",some privateRoot,none,none⟩,⟨"b","B",some "a",none,none⟩,⟨"a","A",some "b",none,none⟩,
    ⟨"c","C",some "d",none,none⟩,⟨"d","D",some "c",none,none⟩]

theorem tangled_least :
    IsLeast {S | Closed tangled ["222222222222"] S} (({"a","b"} : Finset String) : Set String) := by
  have hids : excludedIds tangled ["222222222222"] = {"a","b"} := by decide
  rw [← hids]
  exact (exclusion_least tangled ["222222222222"] (by decide)).2

end WorkflowyMcp
