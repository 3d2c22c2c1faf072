import WorkflowyMcp.Lib.KeyMap
import WorkflowyMcp.ApiCall

/-! The node cache: children listings keyed by parent (`""` is the workspace root),
the reverse map from a child to the listing showing it, and the invalidation the
write funnel runs before a request is sent. -/
namespace WorkflowyMcp

structure ListingEntry where
  children : List WorkflowyNode
  timestamp : Nat
deriving DecidableEq

structure CacheEntry where
  node : WorkflowyNode
  timestamp : Nat

structure NodeCache where
  cache : KeyMap String CacheEntry := ∅
  childrenIndex : KeyMap String (List String) := ∅
  batchDepth : Nat := 0
  listings : KeyMap String ListingEntry := ∅
  memberOf : KeyMap String String := ∅

def stripPrefix (pre s : String) : Option String :=
  if pre.toList <+: s.toList then some (String.ofList (s.toList.drop pre.toList.length)) else none

theorem stripPrefix_append (pre s : String) : stripPrefix pre (pre++s) = some s := by
  simp [stripPrefix]

namespace NodeCache

def invalidateListing (c : NodeCache) (parentKey : String) : NodeCache :=
  { c with listings := c.listings.erase parentKey }

def invalidateListingContaining (c : NodeCache) (id : String) : NodeCache :=
  match c.memberOf.lookup id with
  | some key => { c with listings := c.listings.erase key }
  | none => c

def invalidateNode (c : NodeCache) (id : String) : NodeCache :=
  invalidateListingContaining
    { c with cache := c.cache.erase id, listings := c.listings.erase id } id

def invalidateListingsForWrite (c : NodeCache) (endpoint : String) (body : Option Json) :
    NodeCache :=
  let c :=
    match stripPrefix "/nodes/" endpoint with
    | some id => c.invalidateNode id
    | none => c
  match ApiCall.bodyParent body with
  | some pid => c.invalidateListing pid
  | none => if endpoint="/nodes" then c.invalidateListing "" else c

@[simp] theorem lookup_invalidateListing (c : NodeCache) (key k : String) :
    (c.invalidateListing key).listings.lookup k =
      if k=key then none else c.listings.lookup k := by
  simp [invalidateListing]

@[simp] theorem lookup_invalidateNode (c : NodeCache) (id k : String) :
    (c.invalidateNode id).listings.lookup k =
      if k=id ∨ c.memberOf.lookup id = some k then none else c.listings.lookup k := by
  cases hm : c.memberOf.lookup id with
  | none => simp [invalidateNode,invalidateListingContaining,hm]
  | some key =>
    by_cases hk : k=key
    · simp [invalidateNode,invalidateListingContaining,hm,hk]
    · simp [invalidateNode,invalidateListingContaining,hm,hk,Ne.symm hk]

/-- What the funnel takes for a node id: the endpoint after `/nodes/`. For a move
that is the id followed by `/move`. -/
def funnelId : ApiCall → Option String
  | .postNode nodeId .. | .deleteNode nodeId => some nodeId
  | .moveNode nodeId .. => some (nodeId ++ "/move")
  | _ => none

theorem stripPrefix_endpoint {q : ApiCall} (hq : q.method≠"GET") :
    stripPrefix "/nodes/" q.endpoint = funnelId q := by
  cases q with
  | createNode => exact (by decide : stripPrefix "/nodes/" "/nodes" = none)
  | postNode | deleteNode | moveNode => exact stripPrefix_append _ _
  | getNode | getChildren | getTopLevel => exact absurd rfl hq

/-- A write drops the listings of its funnel id and of its destination, no other. -/
theorem lookup_invalidateListingsForWrite (c : NodeCache) {q : ApiCall} (hq : q.method≠"GET")
    (k : String) :
    (c.invalidateListingsForWrite q.endpoint q.body).listings.lookup k =
      if q.destination = some k ∨
          (∃ id, funnelId q = some id ∧ (k=id ∨ c.memberOf.lookup id = some k))
      then none else c.listings.lookup k := by
  have hpath (s : String) : "/nodes/"++s≠"/nodes" := by
    intro h
    simpa using congrArg (fun t => t.toList.length) h
  unfold invalidateListingsForWrite
  rw [stripPrefix_endpoint hq,ApiCall.bodyParent_body]
  cases q with
  | createNode name description parentId priority layout =>
    cases parentId with
    | none =>
      rw [if_congr (show _ ↔ k="" by simp [funnelId,ApiCall.destination,eq_comm]) rfl rfl]
      exact lookup_invalidateListing c "" k
    | some pid =>
      rw [if_congr (show _ ↔ k=pid by simp [funnelId,ApiCall.destination,eq_comm]) rfl rfl]
      exact lookup_invalidateListing c pid k
  | postNode nodeId | deleteNode nodeId =>
    rw [if_congr (show _ ↔ k=nodeId ∨ c.memberOf.lookup nodeId = some k by
      simp [funnelId,ApiCall.destination]) rfl rfl]
    exact (congrArg _ (congrArg _ (if_neg (hpath nodeId)))).trans
      (lookup_invalidateNode c nodeId k)
  | moveNode nodeId newParentId =>
    by_cases hd : k=newParentId
    · simp [funnelId,ApiCall.destination,hd]
    · simp [funnelId,ApiCall.destination,hd,Ne.symm hd]
  | getNode | getChildren | getTopLevel => exact absurd rfl hq

/-- `member_of` names, for every child of every cached listing, that listing. -/
def MemberOfFaithful (c : NodeCache) : Prop :=
  ∀ k e, c.listings.lookup k = some e → ∀ n∈e.children, c.memberOf.lookup n.id = some k

def Shows (e : ListingEntry) (id : String) : Prop := ∃ n∈e.children, n.id=id

/-- No listing is left that shows the written node, is keyed by it, or is keyed by
the parent the write adds a child to. -/
def Invalidated (c : NodeCache) (q : ApiCall) : Prop :=
  ∀ k e, c.listings.lookup k = some e →
    (∀ id, q.mutated = some id → ¬Shows e id ∧ k≠id) ∧ q.destination≠some k

/-- A move leaves nothing stale behind when every listing that shows the moved node
or is keyed by it is the destination's, or is dropped on account of the string
`<id>/move` that the funnel reads off the endpoint. -/
def MoveCovered (c : NodeCache) (nodeId newParentId : String) : Prop :=
  ∀ k e, c.listings.lookup k = some e → Shows e nodeId ∨ k=nodeId →
    k=newParentId ∨ k=nodeId++"/move" ∨ c.memberOf.lookup (nodeId++"/move") = some k

/-- The funnel invalidates what a write affects, except for a move, where it does so
exactly when `MoveCovered` holds of the cache before the call. -/
theorem write_invalidates_iff (c : NodeCache) (hc : c.MemberOfFaithful) (q : ApiCall)
    (hq : q.method≠"GET") :
    Invalidated (c.invalidateListingsForWrite q.endpoint q.body) q ↔
      ∀ nodeId newParentId priority, q = .moveNode nodeId newParentId priority →
        c.MoveCovered nodeId newParentId := by
  simp only [Invalidated,lookup_invalidateListingsForWrite c hq]
  constructor
  · rintro h nodeId newParentId priority rfl k e hk hshow
    by_contra hne
    simp only [not_or] at hne
    have hkept := h k e (by
      rw [if_neg]
      · exact hk
      · simp only [ApiCall.destination,funnelId,Option.some.injEq,exists_eq_left',not_or]
        exact ⟨Ne.symm hne.1,hne.2.1,hne.2.2⟩)
    obtain ⟨hno,hkey⟩ := hkept.1 nodeId rfl
    exact hshow.elim hno hkey
  · intro h k e hk
    split at hk
    · simp at hk
    · rename_i hdrop
      simp only [not_or] at hdrop
      refine ⟨fun id hid => ?_,hdrop.1⟩
      cases q with
      | postNode nodeId | deleteNode nodeId =>
        obtain rfl : nodeId=id := by simpa [ApiCall.mutated] using hid
        have hfun : ¬(k=nodeId ∨ c.memberOf.lookup nodeId = some k) := fun hor =>
          hdrop.2 ⟨nodeId,rfl,hor⟩
        refine ⟨?_,fun hkey => hfun (.inl hkey)⟩
        rintro ⟨n,hn,rfl⟩
        exact hfun (.inr (hc k e hk n hn))
      | moveNode nodeId newParentId priority =>
        obtain rfl : nodeId=id := by simpa [ApiCall.mutated] using hid
        have hcov := h nodeId newParentId priority rfl k e hk
        have hno : ¬(Shows e nodeId ∨ k=nodeId) := by
          intro hshow
          rcases hcov hshow with rfl | hfun
          · exact hdrop.1 rfl
          · exact hdrop.2 ⟨_,rfl,hfun⟩
        exact not_or.mp hno
      | createNode | getNode | getChildren | getTopLevel => simp [ApiCall.mutated] at hid

/-- A cache that shows `x` under its old parent `p`. -/
def movedNodeCache : NodeCache :=
  { listings := AList.singleton "p" ⟨[{ id := "x" }],0⟩, memberOf := AList.singleton "x" "p" }

theorem movedNodeCache_faithful : movedNodeCache.MemberOfFaithful := by
  intro k e hk n hn
  have hk' : k="p" ∧ e=⟨[{ id := "x" }],0⟩ := by
    have hmem := AList.mem_lookup_iff.mp hk
    simpa [movedNodeCache] using hmem
  obtain ⟨rfl,rfl⟩ := hk'
  obtain rfl := List.mem_singleton.mp hn
  decide

/-- Moving `x` from `p` to `q` keeps the old parent's listing, which still shows `x`. -/
theorem move_keeps_old_parent_listing :
    movedNodeCache.MemberOfFaithful ∧
      ¬Invalidated (movedNodeCache.invalidateListingsForWrite
        (ApiCall.moveNode "x" "q" none).endpoint (ApiCall.moveNode "x" "q" none).body)
        (.moveNode "x" "q" none) := by
  refine ⟨movedNodeCache_faithful,fun h => ?_⟩
  exact ((h "p" ⟨[{ id := "x" }],0⟩ (by decide)).1 "x" rfl).1 ⟨_,List.mem_singleton.mpr rfl,rfl⟩

/-- A delete on the same cache leaves no listing with `x`. -/
theorem write_invalidates_delete :
    Invalidated (movedNodeCache.invalidateListingsForWrite
      (ApiCall.deleteNode "x").endpoint (ApiCall.deleteNode "x").body) (.deleteNode "x") :=
  (write_invalidates_iff movedNodeCache movedNodeCache_faithful (.deleteNode "x")
    (by decide)).mpr (by simp)

end NodeCache
end WorkflowyMcp
