import WorkflowyMcp.Lib.Runs
import WorkflowyMcp.NodeCache

/-! Children listings over the life of a cache: what is served, how listings enter and
leave, and when dropping a node drops every listing that shows it. -/
namespace WorkflowyMcp

def CACHE_TTL_SECS : Nat := 30
def MAX_CACHED_LISTINGS : Nat := 4096

namespace NodeCache

/-- Whole seconds since a timestamp in nanoseconds; none when the clock is behind it. -/
def elapsedSecs (now timestamp : Nat) : Option Nat :=
  if timestamp ≤ now then some ((now-timestamp)/1000000000) else none

def childrenListing (c : NodeCache) (now : Nat) (parentKey : String) :
    Option (List WorkflowyNode) :=
  match c.listings.lookup parentKey with
  | none => none
  | some entry =>
    match elapsedSecs now entry.timestamp with
    | some secs => if secs > CACHE_TTL_SECS then none else some entry.children
    | none => some entry.children

/-- On overflow expired listings are purged first; a map that is still full is emptied. -/
def makeRoom (c : NodeCache) (now : Nat) : NodeCache :=
  if MAX_CACHED_LISTINGS ≤ c.listings.keys.length then
    let kept := c.listings.retain fun _ e =>
      match elapsedSecs now e.timestamp with
      | some secs => secs ≤ CACHE_TTL_SECS
      | none => false
    if MAX_CACHED_LISTINGS ≤ kept.keys.length then { c with listings := ∅, memberOf := ∅ }
    else { c with listings := kept }
  else c

def insertChildrenListing (c : NodeCache) (now : Nat) (parentKey : String)
    (children : List WorkflowyNode) : NodeCache :=
  let c := c.makeRoom now
  { c with
    listings := c.listings.insert parentKey ⟨children,now⟩
    memberOf := children.foldl (fun m child => m.insert child.id parentKey) c.memberOf }

/- The stack of `invalidate_subtree`. An index with a cycle is walked forever; a walk
   that needs more than `fuel` pops has not returned. -/
def dropSubtree (c : NodeCache) : Nat → List String → Option NodeCache
  | _,[] => some c
  | 0,_::_ => none
  | fuel+1,nodeId::stack =>
    dropSubtree { c with cache := c.cache.erase nodeId, listings := c.listings.erase nodeId } fuel
      (((c.childrenIndex.lookup nodeId).getD []).reverse++stack)

def invalidateSubtree (c : NodeCache) (fuel : Nat) (rootId : String) : Option NodeCache :=
  if 0 < c.batchDepth then some c
  else (c.dropSubtree fuel [rootId]).map fun c => c.invalidateListingContaining rootId

def clear (c : NodeCache) : NodeCache :=
  { c with cache := ∅, childrenIndex := ∅, listings := ∅, memberOf := ∅ }

inductive CacheOp where
  | insertChildrenListing (now : Nat) (parentKey : String) (children : List WorkflowyNode)
  | invalidateListing (parentKey : String)
  | invalidateNode (id : String)
  | invalidateSubtree (fuel : Nat) (rootId : String)
  | clear

def CacheOp.apply (c : NodeCache) : CacheOp → NodeCache
  | .insertChildrenListing now parentKey children => c.insertChildrenListing now parentKey children
  | .invalidateListing parentKey => c.invalidateListing parentKey
  | .invalidateNode id => c.invalidateNode id
  | .invalidateSubtree fuel rootId => (c.invalidateSubtree fuel rootId).getD c
  | .clear => c.clear

variable {c c' : NodeCache}

/-- The listings of one cache are among those of another, whose reverse map it has. -/
structure Within (c' c : NodeCache) : Prop where
  listings : ∀ k e, c'.listings.lookup k = some e → c.listings.lookup k = some e
  memberOf : (∃ k e, c'.listings.lookup k = some e) → c'.memberOf = c.memberOf

theorem Within.refl (c : NodeCache) : c.Within c := ⟨fun _ _ h => h,fun _ => rfl⟩

theorem Within.trans {c'' : NodeCache} (h' : c''.Within c') (h : c'.Within c) : c''.Within c := by
  refine ⟨fun k e hk => h.listings k e (h'.listings k e hk),?_⟩
  rintro ⟨k,e,hk⟩
  exact (h'.memberOf ⟨k,e,hk⟩).trans (h.memberOf ⟨k,e,h'.listings k e hk⟩)

theorem within_erase (c : NodeCache) (cache : KeyMap String CacheEntry) (key : String) :
    Within { c with cache := cache, listings := c.listings.erase key } c := by
  refine ⟨fun k e hk => ?_,fun _ => rfl⟩
  by_cases h : k=key
  · simp [h] at hk
  · simpa [h] using hk

theorem within_invalidateListing (key : String) : (c.invalidateListing key).Within c :=
  within_erase c c.cache key

theorem within_invalidateListingContaining (id : String) :
    (c.invalidateListingContaining id).Within c := by
  unfold invalidateListingContaining
  split
  · exact within_erase c c.cache _
  · exact .refl c

theorem within_invalidateNode (id : String) : (c.invalidateNode id).Within c :=
  (within_invalidateListingContaining id).trans (within_erase c _ id)

theorem within_dropSubtree {fuel : Nat} {stack : List String}
    (h : c.dropSubtree fuel stack = some c') : c'.Within c := by
  induction fuel generalizing c stack with
  | zero =>
    cases stack with
    | nil => exact Option.some.inj h ▸ .refl c
    | cons x stack => simp [dropSubtree] at h
  | succ fuel ih =>
    cases stack with
    | nil => exact Option.some.inj h ▸ .refl c
    | cons x stack => exact (ih h).trans (within_erase c _ x)

theorem within_invalidateSubtree {fuel : Nat} {rootId : String}
    (h : c.invalidateSubtree fuel rootId = some c') : c'.Within c := by
  unfold invalidateSubtree at h
  split at h
  · exact Option.some.inj h ▸ .refl c
  · obtain ⟨d,hd,rfl⟩ := Option.map_eq_some_iff.mp h
    exact (within_invalidateListingContaining rootId).trans (within_dropSubtree hd)

theorem within_makeRoom (now : Nat) : (c.makeRoom now).Within c := by
  unfold makeRoom
  split
  · simp only
    split
    · exact ⟨fun k e hk => by simp at hk,fun ⟨k,e,hk⟩ => by simp at hk⟩
    · refine ⟨fun k e hk => ?_,fun _ => rfl⟩
      simp only [KeyMap.lookup_retain,Option.filter_eq_some_iff] at hk
      exact hk.1
  · exact .refl c

theorem within_clear : c.clear.Within c :=
  ⟨fun k e hk => by simp [clear] at hk,fun ⟨k,e,hk⟩ => by simp [clear] at hk⟩

theorem within_apply {op : CacheOp} (hop : ∀ now key ns, op ≠ .insertChildrenListing now key ns) :
    (op.apply c).Within c := by
  cases op with
  | insertChildrenListing now key ns => exact absurd rfl (hop now key ns)
  | invalidateListing key => exact within_invalidateListing key
  | invalidateNode id => exact within_invalidateNode id
  | clear => exact within_clear
  | invalidateSubtree fuel rootId =>
    cases h : c.invalidateSubtree fuel rootId with
    | none => simpa [CacheOp.apply,h] using Within.refl c
    | some d => simpa [CacheOp.apply,h] using within_invalidateSubtree h

theorem lookup_memberOf_insert (now : Nat) (parentKey : String) (children : List WorkflowyNode)
    (x : String) :
    (c.insertChildrenListing now parentKey children).memberOf.lookup x =
      if ∃ n∈children, n.id=x then some parentKey else (c.makeRoom now).memberOf.lookup x := by
  unfold insertChildrenListing
  simp only
  generalize (c.makeRoom now).memberOf = m
  induction children generalizing m with
  | nil => simp
  | cons n ns ih =>
    rw [List.foldl_cons,ih]
    by_cases hns : ∃ m∈ns, m.id=x
    · rw [if_pos hns,if_pos (by simp [hns])]
    · rw [if_neg hns,KeyMap.lookup_insert_ite]
      by_cases hn : x=n.id
      · rw [if_pos hn,if_pos ⟨n,List.mem_cons_self,hn.symm⟩]
      · rw [if_neg hn,if_neg]
        rintro ⟨m,hm,rfl⟩
        rcases List.mem_cons.mp hm with rfl | hm
        · exact hn rfl
        · exact hns ⟨m,hm,rfl⟩

theorem lookup_insertChildrenListing (now : Nat) (parentKey : String)
    (children : List WorkflowyNode) (k : String) :
    (c.insertChildrenListing now parentKey children).listings.lookup k =
      if k=parentKey then some ⟨children,now⟩ else (c.makeRoom now).listings.lookup k := by
  simp [insertChildrenListing]

/-- Dropping any node drops every listing that shows it. -/
def Droppable (c : NodeCache) : Prop :=
  ∀ id k e, (c.invalidateNode id).listings.lookup k = some e → ¬Shows e id

/-- A listing is inserted while no other listing, its child's own apart, shows one of its
children: what the single slot of the reverse map can keep track of. -/
def OneParent (c : NodeCache) : CacheOp → Prop
  | .insertChildrenListing now parentKey children =>
    ∀ k e, (c.makeRoom now).listings.lookup k = some e → k≠parentKey →
      ∀ n∈children, Shows e n.id → k=n.id
  | _ => True

/-- `member_of` names the listing that shows a child, or the listing is the child's own. -/
def Linked (c : NodeCache) : Prop :=
  ∀ k e, c.listings.lookup k = some e → ∀ n∈e.children, c.memberOf.lookup n.id = some k ∨ k=n.id

theorem droppable_iff : Droppable c ↔ Linked c := by
  simp only [Droppable,lookup_invalidateNode]
  constructor
  · intro h k e hk n hn
    by_contra hno
    obtain ⟨hm,hkey⟩ := not_or.mp hno
    exact h n.id k e ((if_neg (by simp [hm,hkey])).trans hk) ⟨n,hn,rfl⟩
  · rintro h id k e hk ⟨n,hn,rfl⟩
    split at hk
    · simp at hk
    · rename_i hno
      exact hno ((h k e hk n hn).symm)

theorem Linked.within (h : Linked c) (hw : c'.Within c) : Linked c' := by
  intro k e hk n hn
  rw [hw.memberOf ⟨k,e,hk⟩]
  exact h k e (hw.listings k e hk) n hn

theorem Linked.apply (h : Linked c) {op : CacheOp} (hop : OneParent c op) :
    Linked (op.apply c) := by
  cases op with
  | insertChildrenListing now parentKey children =>
    intro k e hk n hn
    rw [CacheOp.apply,lookup_insertChildrenListing] at hk
    rw [CacheOp.apply,lookup_memberOf_insert]
    by_cases hkey : k=parentKey
    · rw [if_pos hkey,Option.some.injEq] at hk
      subst hk
      exact .inl (by rw [if_pos ⟨n,hn,rfl⟩,hkey])
    · rw [if_neg hkey] at hk
      by_cases hm : ∃ m∈children, m.id=n.id
      · obtain ⟨m,hm,hid⟩ := hm
        exact .inr ((hop k e hk hkey m hm ⟨n,hn,hid.symm⟩).trans hid)
      · rw [if_neg hm]
        exact h.within (within_makeRoom now) k e hk n hn
  | invalidateListing | invalidateNode | invalidateSubtree | clear =>
    exact h.within (within_apply fun _ _ _ => nofun)

theorem not_linked_of_breach {op : CacheOp} (hop : ¬OneParent c op) : ¬Linked (op.apply c) := by
  cases op with
  | insertChildrenListing now parentKey children =>
    simp only [OneParent,not_forall] at hop
    obtain ⟨k,e,hk,hkey,m,hm,⟨n,hn,hid⟩,hne⟩ := hop
    intro h
    have hlinked := h k e
      (by rw [CacheOp.apply,lookup_insertChildrenListing,if_neg hkey]; exact hk) n hn
    rw [CacheOp.apply,lookup_memberOf_insert,if_pos ⟨m,hm,hid.symm⟩,Option.some.injEq] at hlinked
    exact hlinked.elim (fun h => hkey h.symm) fun h => hne (h.trans hid)
  | invalidateListing | invalidateNode | invalidateSubtree | clear => exact absurd trivial hop

/-- From an empty cache on, every node can be dropped at any time exactly if no listing is
ever inserted while another one shows one of its children. -/
theorem invalidate_drops_iff (cache : KeyMap String CacheEntry)
    (childrenIndex : KeyMap String (List String)) (batchDepth : Nat) (ops : List CacheOp) :
    Runs.Always CacheOp.apply Droppable { cache, childrenIndex, batchDepth } ops ↔
      Runs.Meets CacheOp.apply OneParent { cache, childrenIndex, batchDepth } ops := by
  refine Runs.always_iff_meets (I := Linked) (fun c op hop h => h.apply hop)
    (fun c h => droppable_iff.mpr h) (fun c op _ hop h => ?_) fun k e hk => ?_
  · exact not_linked_of_breach hop (droppable_iff.mp h)
  · simp at hk

/-- A node listed under `p` and then, after a move elsewhere, under `q`: dropping it keeps
the listing of `p`. -/
theorem relisted_child_stays :
    ¬Runs.Always CacheOp.apply Droppable {}
      [.insertChildrenListing 0 "p" [{ id := "x", parentId := some "p" }],
       .insertChildrenListing 0 "q" [{ id := "x", parentId := some "q" }]] := by
  intro h
  have hend := h _ List.prefix_rfl
  exact hend "x" "p" ⟨[{ id := "x", parentId := some "p" }],0⟩ (by decide)
    ⟨_,List.mem_singleton.mpr rfl,rfl⟩

end NodeCache
end WorkflowyMcp
