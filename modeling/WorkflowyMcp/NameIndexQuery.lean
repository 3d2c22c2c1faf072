import WorkflowyMcp.NameIndexView

/-! Queries of the name index: by name, by a predicate on the entries, and by ancestor. -/
namespace WorkflowyMcp

/- A mode that is none of the three compares whole names. -/
def nameMatches (matchMode name search : String) : Bool :=
  if matchMode = "contains" then decide (search.toList <:+: name.toList)
  else if matchMode = "starts_with" then decide (search.toList <+: name.toList)
  else decide (name = search)

def matchModes : List String := ["exact","starts_with","contains"]

namespace NameIndex
variable {toLowercase : String → String} {idx : NameIndex}

def isPopulated (idx : NameIndex) : Bool := !idx.byId.keys.isEmpty

/-- No entry is found under a mode that is not known. -/
def lookup (toLowercase : String → String) (idx : NameIndex) (query matchMode : String) :
    List NameIndexEntry :=
  let q := toLowercase query
  if matchMode = "exact" then (idx.byName.lookup q).getD []
  else if matchMode = "starts_with" ∨ matchMode = "contains" then
    (idx.byName.retain fun key _ => nameMatches matchMode key q).values.flatten
  else []

/- Climb from `current` until the ancestor stands as a parent, past `hops-1` others at most. -/
def reachesParent (idx : NameIndex) (ancestorId : String) : Nat → Option NameIndexEntry → Bool
  | hops+1,some e =>
    match e.parentId with
    | some pid => pid = ancestorId || idx.reachesParent ancestorId hops (idx.lookupEntryById pid)
    | none => false
  | _,_ => false

def isDescendantOf (idx : NameIndex) (nodeId ancestorId : String) : Bool :=
  idx.reachesParent ancestorId 33 (idx.lookupEntryById nodeId)

theorem mem_bucket (h : idx.Wf toLowercase) {key : String} {e : NameIndexEntry} :
    (∃ es, idx.byName.lookup key = some es ∧ e∈es) ↔
      e∈idx.entries ∧ toLowercase e.name = key := by
  constructor
  · rintro ⟨es,hk,he⟩
    exact ⟨mem_entries.mpr ⟨key,es,hk,he⟩,(h.filed key es hk e he).2⟩
  · rintro ⟨he,rfl⟩
    obtain ⟨key,es,hk,he⟩ := mem_entries.mp he
    exact ⟨es,(h.filed key es hk e he).2 ▸ hk,he⟩

/-- A lookup finds the entries whose lowercased name meets the lowercased query. -/
theorem mem_lookup (h : idx.Wf toLowercase) {query matchMode : String} {e : NameIndexEntry} :
    e∈idx.lookup toLowercase query matchMode ↔ matchMode∈matchModes ∧ e∈idx.entries ∧
      nameMatches matchMode (toLowercase e.name) (toLowercase query) := by
  unfold lookup
  split
  · rename_i hexact
    subst hexact
    have hbucket : (∃ es, idx.byName.lookup (toLowercase query) = some es ∧ e∈es) ↔ _ :=
      mem_bucket h
    cases hk : idx.byName.lookup (toLowercase query) <;>
      simpa [hk,matchModes,nameMatches] using hbucket
  · rename_i hexact
    split
    · rename_i hmode
      have hknown : matchMode∈matchModes := by
        rcases hmode with rfl | rfl <;> simp [matchModes]
      simp only [List.mem_flatten,KeyMap.mem_values,KeyMap.lookup_retain,
        Option.filter_eq_some_iff,hknown,true_and]
      constructor
      · rintro ⟨es,⟨key,hk,hmatch⟩,he⟩
        obtain ⟨hmem,rfl⟩ := (mem_bucket h).mp ⟨es,hk,he⟩
        exact ⟨hmem,hmatch⟩
      · rintro ⟨he,hmatch⟩
        obtain ⟨es,hk,he⟩ := (mem_bucket h).mpr ⟨he,rfl⟩
        exact ⟨es,⟨_,hk,hmatch⟩,he⟩
    · rename_i hmode
      have hknown : matchMode∉matchModes := by
        simp only [matchModes,List.mem_cons,List.not_mem_nil,or_false]
        exact not_or.mpr ⟨hexact,hmode⟩
      simp [hknown]

theorem isPopulated_of_lookup (h : idx.Wf toLowercase) {id : String} {e : NameIndexEntry}
    (hl : idx.lookupEntryById id = some e) : idx.isPopulated := by
  have hmem : id∈idx.byId.keys := by
    rw [← AList.mem_keys,← AList.lookup_isSome,byId_of_lookup h hl]
    rfl
  simpa [isPopulated] using List.ne_nil_of_mem hmem

/-- The recorded parents lead from `id` to the ancestor, past `k` others. -/
def Under (idx : NameIndex) (ancestorId : String) : Nat → String → Prop
  | 0,id => ∃ e, idx.lookupEntryById id = some e ∧ e.parentId = some ancestorId
  | k+1,id => ∃ e pid, idx.lookupEntryById id = some e ∧ e.parentId = some pid ∧
      pid≠ancestorId ∧ idx.Under ancestorId k pid

theorem reachesParent_iff {ancestorId : String} {hops : Nat} {id : String} :
    idx.reachesParent ancestorId hops (idx.lookupEntryById id) ↔
      ∃ k < hops, idx.Under ancestorId k id := by
  induction hops generalizing id with
  | zero => simp [reachesParent]
  | succ hops ih =>
    have hshift : (∃ k < hops+1, idx.Under ancestorId k id) ↔
        idx.Under ancestorId 0 id ∨ ∃ k < hops, idx.Under ancestorId (k+1) id := by
      constructor
      · rintro ⟨k,hk,hu⟩
        cases k with
        | zero => exact .inl hu
        | succ k => exact .inr ⟨k,by omega,hu⟩
      · rintro (hu | ⟨k,hk,hu⟩)
        · exact ⟨0,by omega,hu⟩
        · exact ⟨k+1,by omega,hu⟩
    rw [hshift]
    cases hl : idx.lookupEntryById id with
    | none => simp [reachesParent,Under,hl]
    | some e =>
      cases hp : e.parentId with
      | none => simp [reachesParent,Under,hl,hp]
      | some pid =>
        by_cases hanc : pid = ancestorId
        · simp [reachesParent,Under,hl,hp,hanc]
        · simp [reachesParent,Under,hl,hp,hanc,ih]

/-- Beyond 33 levels the climb gives up. -/
theorem isDescendantOf_iff {nodeId ancestorId : String} :
    idx.isDescendantOf nodeId ancestorId ↔ ∃ k < 33, idx.Under ancestorId k nodeId :=
  reachesParent_iff

end NameIndex
end WorkflowyMcp
