import WorkflowyMcp.ListingCache
import WorkflowyMcp.Upstream
import WorkflowyMcp.SubtreeWalk

/-! Reads and writes over one cache: a read looks up, asks and fills, a write invalidates,
is applied and returns, and the steps of different tasks interleave freely. -/
namespace WorkflowyMcp

/-- The children the upstream lists under `k`; none when there is no such node. -/
def listingOf (nodes : List WorkflowyNode) (k : String) : Option (List WorkflowyNode) :=
  if (findNode nodes k).isSome then some (nodes.filter fun n => n.parentId = some k) else none

/-- What `get_children` makes of the reply. -/
def displayChildren (nodeId : String) (children : List WorkflowyNode) : List WorkflowyNode :=
  SubtreeWalk.sortChildrenByPriority (children.map (SubtreeWalk.fillParent nodeId))

section listing
variable {nodes : List WorkflowyNode} {k x : String} {ns : List WorkflowyNode}

theorem mem_of_listingOf (h : listingOf nodes k = some ns) {n : WorkflowyNode} :
    n∈ns ↔ n∈nodes ∧ n.parentId = some k := by
  unfold listingOf at h
  split at h
  · rw [← Option.some.inj h]
    simp
  · simp at h

/-- Filling in the parent changes nothing in a listing that already names it. -/
theorem mem_displayChildren (h : listingOf nodes k = some ns) {n : WorkflowyNode} :
    n∈displayChildren k ns ↔ n∈nodes ∧ n.parentId = some k := by
  rw [displayChildren,SubtreeWalk.sortChildrenByPriority,(sortByKey_perm _).mem_iff,List.mem_map,
    ← mem_of_listingOf h]
  have hfill : ∀ m∈ns, SubtreeWalk.fillParent k m = m := by
    intro m hm
    simp [SubtreeWalk.fillParent,((mem_of_listingOf h).mp hm).2]
  constructor
  · rintro ⟨m,hm,rfl⟩
    rwa [hfill m hm]
  · exact fun hn => ⟨n,hn,hfill n hn⟩

theorem listingOf_updateNode {f : WorkflowyNode → WorkflowyNode}
    (hno : ∀ n∈nodes, n.id = x → n.parentId≠some k ∧ (f n).parentId≠some k) :
    listingOf (updateNode nodes x f) k = listingOf nodes k := by
  have hfilter : (updateNode nodes x f).filter (fun n => n.parentId = some k) =
      nodes.filter fun n => n.parentId = some k := by
    induction nodes with
    | nil => rfl
    | cons n nodes ih =>
      have ih' := ih fun m hm => hno m (List.mem_cons_of_mem n hm)
      simp only [updateNode,List.map_cons,List.filter_cons] at ih' ⊢
      by_cases hn : n.id = x
      · obtain ⟨hold,hnew⟩ := hno n List.mem_cons_self hn
        simpa [hn,hold,hnew] using ih'
      · simp [hn,ih']
  have hfind : (findNode (updateNode nodes x f) k).isSome = (findNode nodes k).isSome := by
    rw [findNode_updateNode]
    split
    · simp [*]
    · rfl
  simp only [listingOf,hfilter,hfind]

theorem listingOf_append {c : WorkflowyNode} (hfresh : ∀ n∈nodes, n.id≠c.id)
    (hk : (findNode nodes k).isSome) (hp : c.parentId≠some k) :
    listingOf (nodes++[c]) k = listingOf nodes k := by
  have hkc : k≠c.id := by
    obtain ⟨n,hn⟩ := Option.isSome_iff_exists.mp hk
    have hid : n.id = k := by simpa [findNode] using List.find?_some hn
    exact hid ▸ hfresh n (findNode_mem hn)
  simp [listingOf,findNode_append_of_fresh hfresh,hkc,hp,List.filter_append]

theorem listingOf_filter {p : String → Bool} (hk : p k)
    (hp : ∀ n∈nodes, n.parentId = some k → p n.id) :
    listingOf (nodes.filter fun n => p n.id) k = listingOf nodes k := by
  have hfilter : (nodes.filter fun n => p n.id).filter (fun n => n.parentId = some k) =
      nodes.filter fun n => n.parentId = some k := by
    rw [List.filter_filter]
    refine List.filter_congr fun n hn => ?_
    by_cases h : n.parentId = some k
    · simp [h,hp n hn h]
    · simp [h]
  simp only [listingOf,hfilter,findNode_filter_id,hk,if_true]

theorem findNode_of_mem (hnd : (nodes.map WorkflowyNode.id).Nodup) {n : WorkflowyNode}
    (hn : n∈nodes) : findNode nodes n.id = some n := by
  induction nodes with
  | nil => simp at hn
  | cons m nodes ih =>
    obtain ⟨hm,hnd⟩ := List.nodup_cons.mp hnd
    rcases List.mem_cons.mp hn with rfl | hn
    · simp [findNode]
    · have hne : m.id≠n.id := fun h => hm (h ▸ List.mem_map_of_mem hn)
      simpa [findNode,hne] using ih hnd hn

theorem inSubtree_succ {root : String} {fuel : Nat} (h : inSubtree nodes root fuel x = true) :
    inSubtree nodes root (fuel+1) x = true := by
  induction fuel generalizing x with
  | zero =>
    have hx : x = root := by simpa [inSubtree] using h
    simp [inSubtree,hx]
  | succ fuel ih =>
    rw [inSubtree] at h ⊢
    simp only [Bool.or_eq_true] at h ⊢
    rcases h with h | h
    · exact .inl h
    · cases hp : (findNode nodes x).bind WorkflowyNode.parentId with
      | none => simp [hp] at h
      | some p =>
        simp only [hp] at h ⊢
        exact .inr (ih h)

/-- What lies under `root` is `root`, or its parent lies under `root`. -/
theorem inSubtree_parent {root : String} {n : WorkflowyNode} {fuel : Nat}
    (hn : findNode nodes x = some n) (hp : n.parentId = some k)
    (h : inSubtree nodes root fuel x = true) : x = root ∨ inSubtree nodes root fuel k = true := by
  cases fuel with
  | zero => exact .inl (by simpa [inSubtree] using h)
  | succ fuel =>
    simp only [inSubtree,hn,Option.bind_some,hp,Bool.or_eq_true,beq_iff_eq] at h
    exact h.imp id inSubtree_succ

end listing

namespace CacheRace

/-- A write the upstream has applied: when, and the store before and after. -/
structure Effect where
  instant : Nat
  before : List WorkflowyNode
  after : List WorkflowyNode

structure Reader where
  nodeId : String
  reply : Option (Nat × List WorkflowyNode) := none

structure Writer where
  call : ApiCall
  effect : Option Effect := none

/- `taken` (the instant each cached listing was served at) and the two logs of writes
   are not part of the program: no step reads them. -/
structure State where
  upstream : Upstream
  cache : NodeCache := {}
  now : Nat := 0
  readers : KeyMap Nat Reader := ∅
  writers : KeyMap Nat Writer := ∅
  taken : KeyMap String Nat := ∅
  applied : List Effect := []
  returned : List Effect := []

inductive Event where
  | lookup (task : Nat) (nodeId : String)
  | serveGet (task : Nat)
  | insertListing (task : Nat)
  | send (task : Nat) (q : ApiCall)
  | applyWrite (task : Nat)
  | respond (task : Nat)
  | tick (d : Nat)

/-- One step of one task. A task that is not at that point of its call does nothing. -/
def step (svc : Service) (s : State) : Event → State
  | .lookup task nodeId =>
    match s.cache.childrenListing s.now nodeId with
    | some _ => s
    | none => { s with readers := s.readers.insert task { nodeId } }
  | .serveGet task =>
    match s.readers.lookup task with
    | none => s
    | some r =>
      let (reply,upstream) := svc.serve (.getChildren r.nodeId) s.upstream
      match reply with
      | .ok children => { s with
          upstream
          readers := s.readers.insert task ⟨r.nodeId,some (s.upstream.clock,children)⟩ }
      | .error _ => { s with upstream, readers := s.readers.erase task }
  | .insertListing task =>
    match s.readers.lookup task with
    | some ⟨nodeId,some (instant,children)⟩ => { s with
        cache := s.cache.insertChildrenListing s.now nodeId (displayChildren nodeId children)
        readers := s.readers.erase task
        taken := s.taken.insert nodeId instant }
    | _ => s
  | .send task q =>
    if q.method = "GET" then s
    else { s with
      cache := s.cache.invalidateListingsForWrite q.endpoint q.body
      writers := s.writers.insert task { call := q } }
  | .applyWrite task =>
    match s.writers.lookup task with
    | some ⟨q,none⟩ =>
      let upstream := (svc.serve q s.upstream).2
      let effect := Effect.mk s.upstream.clock s.upstream.nodes upstream.nodes
      { s with
        upstream
        writers := s.writers.insert task ⟨q,some effect⟩
        applied := s.applied++[effect] }
    | _ => s
  | .respond task =>
    match s.writers.lookup task with
    | some ⟨_,some effect⟩ =>
      { s with writers := s.writers.erase task, returned := s.returned++[effect] }
    | _ => s
  | .tick d => { s with now := s.now+d }

def Effect.Changes (e : Effect) (k : String) : Prop := listingOf e.before k ≠ listingOf e.after k

instance (e : Effect) (k : String) : Decidable (e.Changes k) := inferInstanceAs (Decidable (_≠_))

/-- A listing served from the cache was taken after every returned write that changed it. -/
def HitsFresh (s : State) : Prop :=
  ∀ k ns, s.cache.childrenListing s.now k = some ns →
    ∃ i, s.taken.lookup k = some i ∧ ∀ e∈s.returned, e.Changes k → e.instant < i

/-- No write applied since `i` changed the listing of `k`. -/
def Untouched (log : List Effect) (i : Nat) (k : String) : Prop :=
  ∀ e∈log, i ≤ e.instant → ¬e.Changes k

/-- What a write changes of the listing of `k`, as far as its request and the listing tell. -/
def Touches (k : String) (e : ListingEntry) : ApiCall → Prop
  | .createNode _ _ parentId _ _ => k = parentId.getD ""
  | .moveNode _ newParentId _ => k = newParentId
  | .postNode nodeId .. => NodeCache.Shows e nodeId
  | .deleteNode nodeId => NodeCache.Shows e nodeId ∨ k = nodeId
  | .getNode _ | .getChildren _ | .getTopLevel => False

/-- The listings a write changes and its invalidation does not reach: for a move those of
other parents that show the node, for a delete those of the nodes deleted along. -/
def Overlooks (nodes : List WorkflowyNode) (k : String) (e : ListingEntry) : ApiCall → Prop
  | .moveNode nodeId newParentId _ => k≠newParentId ∧ NodeCache.Shows e nodeId
  | .deleteNode nodeId => k≠nodeId ∧ inSubtree nodes nodeId nodes.length k
  | _ => False

/-- A listing is filled in while no write has changed it since it was asked for and none
that is under way will; a write is applied while nothing it overlooks is cached. -/
def Orderly (s : State) : Event → Prop
  | .insertListing task => ∀ k i ns, s.readers.lookup task = some ⟨k,some (i,ns)⟩ →
      Untouched s.applied i k ∧
        ∀ t q, s.writers.lookup t = some ⟨q,none⟩ → ¬Touches k ⟨displayChildren k ns,s.now⟩ q
  | .applyWrite task => ∀ q, s.writers.lookup task = some ⟨q,none⟩ →
      ∀ k e, s.cache.listings.lookup k = some e → ¬Overlooks s.upstream.nodes k e q
  | _ => True

section write
variable {svc : Service} {u : Upstream} {k : String} {q : ApiCall}

/-- The store after a call that succeeded, up to the fields no listing depends on. -/
def Written (u : Upstream) (nodes : List WorkflowyNode) : ApiCall → Prop
  | .createNode _ _ parentId _ _ => ∃ c : WorkflowyNode, c.parentId = parentId ∧
      (∀ n∈u.nodes, n.id≠c.id) ∧ nodes = u.nodes++[c]
  | .postNode x .. => ∃ f : WorkflowyNode → WorkflowyNode,
      (∀ n, (f n).parentId = n.parentId) ∧ nodes = updateNode u.nodes x f
  | .moveNode x p _ => ∃ f : WorkflowyNode → WorkflowyNode,
      (∀ n, (f n).parentId = some p) ∧ nodes = updateNode u.nodes x f
  | .deleteNode x => nodes = u.nodes.filter fun n => !inSubtree u.nodes x u.nodes.length n.id
  | .getNode _ | .getChildren _ | .getTopLevel => nodes = u.nodes

theorem written_of_ok {r : ApiResult q} (h : (svc.serve q u).1 = .ok r) :
    Written u (svc.serve q u).2.nodes q := by
  obtain ⟨-,ha⟩ := svc.serve_ok h
  generalize (svc.serve q u).2.nodes = nodes at ha ⊢
  cases q with
  | getTopLevel => exact (Prod.mk.inj (Except.ok.inj ha)).2.symm
  | getNode x | getChildren x =>
    simp only [Service.apply] at ha
    split at ha
    · exact (Prod.mk.inj (Except.ok.inj ha)).2.symm
    · cases ha
  | createNode name description parentId priority layout =>
    simp only [Service.apply] at ha
    split at ha
    · cases ha
    · exact ⟨_,rfl,fun n hn => (svc.fresh u.clock u.nodes n hn).1,
        (Prod.mk.inj (Except.ok.inj ha)).2.symm⟩
  | postNode x name note completed =>
    simp only [Service.apply] at ha
    split at ha
    · cases ha
    · refine ⟨_,?_,(Prod.mk.inj (Except.ok.inj ha)).2.symm⟩
      exact fun n => rfl
  | deleteNode x =>
    simp only [Service.apply] at ha
    split at ha
    · cases ha
    · exact (Prod.mk.inj (Except.ok.inj ha)).2.symm
  | moveNode x p priority =>
    simp only [Service.apply] at ha
    split at ha
    · split at ha
      · cases ha
      · refine ⟨_,?_,(Prod.mk.inj (Except.ok.inj ha)).2.symm⟩
        exact fun n => rfl
    all_goals cases ha

theorem ids_updateNode (nodes : List WorkflowyNode) (x : String)
    (f : WorkflowyNode → WorkflowyNode) :
    (updateNode nodes x f).map WorkflowyNode.id = nodes.map WorkflowyNode.id := by
  rw [updateNode,List.map_map]
  refine List.map_congr_left fun n _ => ?_
  by_cases hn : n.id = x <;> simp [hn]

theorem Written.nodup {nodes : List WorkflowyNode} (h : Written u nodes q)
    (hnd : (u.nodes.map WorkflowyNode.id).Nodup) : (nodes.map WorkflowyNode.id).Nodup := by
  cases q with
  | getNode x | getChildren x | getTopLevel => exact h ▸ hnd
  | deleteNode x => exact h ▸ hnd.sublist (List.filter_sublist.map _)
  | postNode x name note completed | moveNode x p priority =>
    obtain ⟨f,-,rfl⟩ := h
    rwa [ids_updateNode]
  | createNode name description parentId priority layout =>
    obtain ⟨c,-,hfresh,rfl⟩ := h
    rw [List.map_append,List.nodup_append]
    refine ⟨hnd,by simp,fun a ha b hb => ?_⟩
    obtain ⟨n,hn,rfl⟩ := List.mem_map.mp ha
    obtain rfl := List.mem_singleton.mp hb
    exact hfresh n hn

/-- A write changes no listing but those it touches and those it overlooks. -/
theorem Written.keeps_listing {nodes ns : List WorkflowyNode} (h : Written u nodes q)
    (hnd : (u.nodes.map WorkflowyNode.id).Nodup) (hk : listingOf u.nodes k = some ns)
    {e : ListingEntry} (he : e.children = displayChildren k ns) (ht : ¬Touches k e q)
    (ho : ¬Overlooks u.nodes k e q) : listingOf nodes k = listingOf u.nodes k := by
  have hisSome : (findNode u.nodes k).isSome := by
    by_contra hno
    simp [listingOf,hno] at hk
  have hshows {x : String} (hx : ¬NodeCache.Shows e x) :
      ∀ n∈u.nodes, n.id = x → n.parentId≠some k := by
    intro n hn hid hp
    exact hx ⟨n,he ▸ (mem_displayChildren hk).mpr ⟨hn,hp⟩,hid⟩
  cases q with
  | getNode x | getChildren x | getTopLevel => rw [h]
  | createNode name description parentId priority layout =>
    obtain ⟨c,rfl,hfresh,rfl⟩ := h
    refine listingOf_append hfresh hisSome fun hp => ht ?_
    simp [Touches,hp]
  | postNode x name note completed =>
    obtain ⟨f,hf,rfl⟩ := h
    refine listingOf_updateNode fun n hn hid => ?_
    rw [hf]
    exact ⟨hshows ht n hn hid,hshows ht n hn hid⟩
  | moveNode x p priority =>
    obtain ⟨f,hf,rfl⟩ := h
    have hkp : k≠p := ht
    have hx : ¬NodeCache.Shows e x := fun hx => ho ⟨hkp,hx⟩
    refine listingOf_updateNode fun n hn hid => ⟨hshows hx n hn hid,?_⟩
    rw [hf]
    exact fun hp => hkp (Option.some.inj hp).symm
  | deleteNode x =>
    obtain ⟨hx,hkx⟩ := not_or.mp ht
    have hout : inSubtree u.nodes x u.nodes.length k = false := by
      simpa [Overlooks,hkx] using ho
    rw [h,listingOf_filter (p := fun id => !inSubtree u.nodes x u.nodes.length id)
      (by simp [hout])]
    intro n hn hp
    rw [Bool.not_eq_true',← Bool.not_eq_true]
    intro hin
    rcases inSubtree_parent (findNode_of_mem hnd hn) hp hin with hid | hin
    · exact hshows hx n hn hid hp
    · simp [hout] at hin

theorem listingOf_serve {ns : List WorkflowyNode} (hnd : (u.nodes.map WorkflowyNode.id).Nodup)
    (hk : listingOf u.nodes k = some ns) {e : ListingEntry}
    (he : e.children = displayChildren k ns) (ht : ¬Touches k e q)
    (ho : ¬Overlooks u.nodes k e q) :
    listingOf (svc.serve q u).2.nodes k = listingOf u.nodes k := by
  cases h : (svc.serve q u).1 with
  | error err => rw [svc.serve_error h]
  | ok r => exact (written_of_ok h).keeps_listing hnd hk he ht ho

theorem nodup_serve (hnd : (u.nodes.map WorkflowyNode.id).Nodup) :
    ((svc.serve q u).2.nodes.map WorkflowyNode.id).Nodup := by
  cases h : (svc.serve q u).1 with
  | error err => exact (svc.serve_error h).symm ▸ hnd
  | ok r => exact (written_of_ok h).nodup hnd

theorem serve_getChildren_nodes (x : String) :
    (svc.serve (.getChildren x) u).2.nodes = u.nodes := by
  cases h : (svc.serve (.getChildren x) u).1 with
  | error err => exact svc.serve_error h
  | ok r => exact written_of_ok h

theorem listingOf_of_served {x : String} {ns : List WorkflowyNode}
    (h : (svc.serve (.getChildren x) u).1 = .ok ns) : listingOf u.nodes x = some ns := by
  obtain ⟨-,ha⟩ := svc.serve_ok h
  simp only [Service.apply] at ha
  split at ha
  · rename_i hf
    simpa [listingOf,hf] using (Prod.mk.inj (Except.ok.inj ha)).1
  · cases ha

end write

/-- Cached listings are what the store lists now, were served after every write that changed
them, and are touched by no write under way. -/
structure Coherent (s : State) : Prop where
  distinct : (s.upstream.nodes.map WorkflowyNode.id).Nodup
  linked : s.cache.MemberOfFaithful
  current : ∀ k e, s.cache.listings.lookup k = some e →
    ∃ ns, listingOf s.upstream.nodes k = some ns ∧ e.children = displayChildren k ns
  dated : ∀ k e, s.cache.listings.lookup k = some e →
    ∃ i, s.taken.lookup k = some i ∧ Untouched s.applied i k
  spared : ∀ t q, s.writers.lookup t = some ⟨q,none⟩ →
    ∀ k e, s.cache.listings.lookup k = some e → ¬Touches k e q
  asked : ∀ t k i ns, s.readers.lookup t = some ⟨k,some (i,ns)⟩ →
    i < s.upstream.clock ∧ (Untouched s.applied i k → listingOf s.upstream.nodes k = some ns)
  underWay : ∀ t q e, s.writers.lookup t = some ⟨q,some e⟩ → e∈s.applied
  logged : ∀ e∈s.returned, e∈s.applied

variable {svc : Service} {s : State}

theorem Coherent.hitsFresh (h : Coherent s) : HitsFresh s := by
  intro k ns hk
  obtain ⟨e,he⟩ : ∃ e, s.cache.listings.lookup k = some e := by
    cases he : s.cache.listings.lookup k with
    | none => simp [NodeCache.childrenListing,he] at hk
    | some e => exact ⟨e,rfl⟩
  obtain ⟨i,hi,hun⟩ := h.dated k e he
  refine ⟨i,hi,fun e he hch => ?_⟩
  by_contra hlt
  exact hun e (h.logged e he) (not_lt.mp hlt) hch

theorem within_invalidateListingsForWrite (c : NodeCache) (endpoint : String)
    (body : Option Json) : (c.invalidateListingsForWrite endpoint body).Within c := by
  unfold NodeCache.invalidateListingsForWrite
  cases stripPrefix "/nodes/" endpoint with
  | none =>
    simp only
    split
    · exact NodeCache.within_invalidateListing _
    · split
      · exact NodeCache.within_invalidateListing _
      · exact .refl c
  | some id =>
    have hnode := NodeCache.within_invalidateNode (c := c) id
    simp only
    split
    · exact (NodeCache.within_invalidateListing _).trans hnode
    · split
      · exact (NodeCache.within_invalidateListing _).trans hnode
      · exact hnode

theorem memberOfFaithful_within {c c' : NodeCache} (h : c.MemberOfFaithful) (hw : c'.Within c) :
    c'.MemberOfFaithful := by
  intro k e hk n hn
  rw [hw.memberOf ⟨k,e,hk⟩]
  exact h k e (hw.listings k e hk) n hn

/-- The funnel drops every listing a write touches. -/
theorem not_touches_of_invalidated {c : NodeCache} (hc : c.MemberOfFaithful) {q : ApiCall}
    (hq : q.method≠"GET") {k : String} {e : ListingEntry}
    (hk : (c.invalidateListingsForWrite q.endpoint q.body).listings.lookup k = some e) :
    ¬Touches k e q := by
  rw [NodeCache.lookup_invalidateListingsForWrite c hq] at hk
  split at hk
  · simp at hk
  rename_i hkept
  obtain ⟨hdest,hid⟩ := not_or.mp hkept
  have hshow {x : String} (hx : NodeCache.funnelId q = some x) :
      ¬NodeCache.Shows e x ∧ k≠x := by
    refine ⟨?_,fun hkx => hid ⟨x,hx,.inl hkx⟩⟩
    rintro ⟨n,hn,rfl⟩
    exact hid ⟨n.id,hx,.inr (hc k e hk n hn)⟩
  cases q with
  | getNode x | getChildren x | getTopLevel => exact absurd rfl hq
  | createNode name description parentId priority layout =>
    exact fun ht => hdest (congrArg some (Eq.symm ht))
  | moveNode x p priority => exact fun ht => hdest (congrArg some (Eq.symm ht))
  | postNode x name note completed => exact (hshow rfl).1
  | deleteNode x => exact not_or.mpr (hshow rfl)

theorem untouched_concat {log : List Effect} {e : Effect} {i : Nat} {k : String}
    (h : Untouched log i k) (he : ¬e.Changes k) : Untouched (log++[e]) i k := by
  intro e' he'
  rcases List.mem_append.mp he' with he' | he'
  · exact h e' he'
  · exact List.mem_singleton.mp he' ▸ fun _ => he

theorem Coherent.serveGet (h : Coherent s) (task : Nat) :
    Coherent (step svc s (.serveGet task)) := by
  cases hr : s.readers.lookup task with
  | none => simpa [step,hr] using h
  | some r =>
    have hnodes : (svc.serve (.getChildren r.nodeId) s.upstream).2.nodes = s.upstream.nodes :=
      serve_getChildren_nodes r.nodeId
    have hclock := svc.serve_clock (u := s.upstream) (.getChildren r.nodeId)
    have hold : ∀ t k i ns, s.readers.lookup t = some ⟨k,some (i,ns)⟩ →
        i < s.upstream.clock+1 ∧
          (Untouched s.applied i k → listingOf s.upstream.nodes k = some ns) := by
      intro t k i ns ht
      exact ⟨Nat.lt_succ_of_lt (h.asked t k i ns ht).1,(h.asked t k i ns ht).2⟩
    cases hreply : (svc.serve (.getChildren r.nodeId) s.upstream).1 with
    | error err =>
      simp only [step,hr,hreply]
      refine ⟨hnodes.symm ▸ h.distinct,h.linked,hnodes.symm ▸ h.current,h.dated,h.spared,?_,
        h.underWay,h.logged⟩
      intro t k i ns ht
      simp only [KeyMap.lookup_erase_ite] at ht
      split at ht
      · simp at ht
      · simpa [hclock,hnodes] using hold t k i ns ht
    | ok children =>
      simp only [step,hr,hreply]
      refine ⟨hnodes.symm ▸ h.distinct,h.linked,hnodes.symm ▸ h.current,h.dated,h.spared,?_,
        h.underWay,h.logged⟩
      intro t k i ns ht
      simp only [KeyMap.lookup_insert_ite] at ht
      split at ht
      · simp only [Option.some.injEq,Reader.mk.injEq,Prod.mk.injEq] at ht
        obtain ⟨rfl,rfl,rfl⟩ := ht
        simp only [hclock,hnodes]
        exact ⟨Nat.lt_succ_self _,fun _ => listingOf_of_served hreply⟩
      · simpa [hclock,hnodes] using hold t k i ns ht

theorem Coherent.insertListing (h : Coherent s) {task : Nat}
    (ho : Orderly s (.insertListing task)) : Coherent (step svc s (.insertListing task)) := by
  rcases hr : s.readers.lookup task with _ | ⟨k,_ | ⟨i,ns⟩⟩
  · simpa [step,hr] using h
  · simpa [step,hr] using h
  obtain ⟨hun,hspared⟩ := ho k i ns hr
  have hnow := (h.asked task k i ns hr).2 hun
  have hroom := NodeCache.within_makeRoom (c := s.cache) s.now
  have hlookup : ∀ k' e', (s.cache.insertChildrenListing s.now k
      (displayChildren k ns)).listings.lookup k' = some e' →
      k' = k ∧ e' = ⟨displayChildren k ns,s.now⟩ ∨
        k'≠k ∧ (s.cache.makeRoom s.now).listings.lookup k' = some e' := by
    intro k' e' hk'
    rw [NodeCache.lookup_insertChildrenListing] at hk'
    split at hk'
    · exact .inl ⟨by assumption,(Option.some.inj hk').symm⟩
    · exact .inr ⟨by assumption,hk'⟩
  simp only [step,hr]
  refine ⟨h.distinct,?_,?_,?_,?_,?_,h.underWay,h.logged⟩
  · intro k' e' hk' n hn
    rw [NodeCache.lookup_memberOf_insert]
    rcases hlookup k' e' hk' with ⟨rfl,rfl⟩ | ⟨hne,hk'⟩
    · exact if_pos ⟨n,hn,rfl⟩
    · obtain ⟨ns',hns',he'⟩ := h.current k' e' (hroom.listings k' e' hk')
      rw [if_neg]
      · exact memberOfFaithful_within h.linked hroom k' e' hk' n hn
      -- a node has one parent, so the new listing shares no node with the others
      rintro ⟨m,hm,hid⟩
      obtain ⟨hm,hmk⟩ := (mem_displayChildren hnow).mp hm
      obtain ⟨hn,hnk⟩ := (mem_displayChildren hns').mp (he' ▸ hn)
      have hmn := findNode_of_mem h.distinct hm
      rw [hid,findNode_of_mem h.distinct hn,Option.some.injEq] at hmn
      exact hne (Option.some.inj (hnk.symm.trans (hmn ▸ hmk)))
  · intro k' e' hk'
    rcases hlookup k' e' hk' with ⟨rfl,rfl⟩ | ⟨-,hk'⟩
    · exact ⟨ns,hnow,rfl⟩
    · exact h.current k' e' (hroom.listings k' e' hk')
  · intro k' e' hk'
    simp only [KeyMap.lookup_insert_ite]
    rcases hlookup k' e' hk' with ⟨rfl,rfl⟩ | ⟨hne,hk'⟩
    · exact ⟨i,if_pos rfl,hun⟩
    · simpa [hne] using h.dated k' e' (hroom.listings k' e' hk')
  · intro t q hq k' e' hk'
    rcases hlookup k' e' hk' with ⟨rfl,rfl⟩ | ⟨-,hk'⟩
    · exact hspared t q hq
    · exact h.spared t q hq k' e' (hroom.listings k' e' hk')
  · intro t k' i' ns' ht
    simp only [KeyMap.lookup_erase_ite] at ht
    split at ht
    · simp at ht
    · exact h.asked t k' i' ns' ht

theorem Coherent.send (h : Coherent s) (task : Nat) (q : ApiCall) :
    Coherent (step svc s (.send task q)) := by
  by_cases hq : q.method = "GET"
  · simpa [step,hq] using h
  have hw := within_invalidateListingsForWrite s.cache q.endpoint q.body
  simp only [step,if_neg hq]
  refine ⟨h.distinct,memberOfFaithful_within h.linked hw,
    fun k e hk => h.current k e (hw.listings k e hk),
    fun k e hk => h.dated k e (hw.listings k e hk),?_,h.asked,?_,h.logged⟩
  · intro t q' hq' k e hk
    simp only [KeyMap.lookup_insert_ite] at hq'
    split at hq'
    · simp only [Option.some.injEq,Writer.mk.injEq,and_true] at hq'
      exact hq' ▸ not_touches_of_invalidated h.linked hq hk
    · exact h.spared t q' hq' k e (hw.listings k e hk)
  · intro t q' e ht
    simp only [KeyMap.lookup_insert_ite] at ht
    split at ht
    · simp at ht
    · exact h.underWay t q' e ht

theorem Coherent.applyWrite (h : Coherent s) {task : Nat} (ho : Orderly s (.applyWrite task)) :
    Coherent (step svc s (.applyWrite task)) := by
  rcases hw : s.writers.lookup task with _ | ⟨q,_ | effect⟩
  · simpa [step,hw] using h
  · have hkeeps : ∀ k e, s.cache.listings.lookup k = some e →
        listingOf (svc.serve q s.upstream).2.nodes k = listingOf s.upstream.nodes k := by
      intro k e hk
      obtain ⟨ns,hns,he⟩ := h.current k e hk
      exact listingOf_serve h.distinct hns he (h.spared task q hw k e hk) (ho q hw k e hk)
    simp only [step,hw]
    refine ⟨nodup_serve h.distinct,h.linked,?_,?_,?_,?_,?_,?_⟩
    · intro k e hk
      simpa only [hkeeps k e hk] using h.current k e hk
    · intro k e hk
      obtain ⟨i,hi,hun⟩ := h.dated k e hk
      exact ⟨i,hi,untouched_concat hun fun hch => hch (hkeeps k e hk).symm⟩
    · intro t q' hq'
      simp only [KeyMap.lookup_insert_ite] at hq'
      split at hq'
      · simp at hq'
      · exact h.spared t q' hq'
    · intro t k i ns ht
      obtain ⟨hlt,hsame⟩ := h.asked t k i ns ht
      refine ⟨by simp only [svc.serve_clock]; omega,fun hun => ?_⟩
      have hkept := hun _ (List.mem_append_right _ List.mem_cons_self) hlt.le
      rw [Effect.Changes,not_not] at hkept
      exact hkept.symm.trans (hsame fun e he => hun e (List.mem_append_left _ he))
    · intro t q' e ht
      simp only [KeyMap.lookup_insert_ite] at ht
      split at ht
      · simp only [Option.some.injEq,Writer.mk.injEq] at ht
        exact ht.2 ▸ List.mem_append_right _ List.mem_cons_self
      · exact List.mem_append_left _ (h.underWay t q' e ht)
    · exact fun e he => List.mem_append_left _ (h.logged e he)
  · simpa [step,hw] using h

theorem Coherent.respond (h : Coherent s) (task : Nat) :
    Coherent (step svc s (.respond task)) := by
  rcases hw : s.writers.lookup task with _ | ⟨q,_ | effect⟩
  · simpa [step,hw] using h
  · simpa [step,hw] using h
  have hold : ∀ t w, (s.writers.erase task).lookup t = some w →
      s.writers.lookup t = some w := by
    intro t w ht
    rw [KeyMap.lookup_erase_ite] at ht
    split at ht
    · simp at ht
    · exact ht
  simp only [step,hw]
  refine ⟨h.distinct,h.linked,h.current,h.dated,fun t q' ht => h.spared t q' (hold t _ ht),
    h.asked,fun t q' e ht => h.underWay t q' e (hold t _ ht),fun e he => ?_⟩
  rcases List.mem_append.mp he with he | he
  · exact h.logged e he
  · exact List.mem_singleton.mp he ▸ h.underWay task q effect hw

theorem Coherent.lookup (h : Coherent s) (task : Nat) (nodeId : String) :
    Coherent (step svc s (.lookup task nodeId)) := by
  cases hhit : s.cache.childrenListing s.now nodeId with
  | some ns => simpa [step,hhit] using h
  | none =>
    simp only [step,hhit]
    refine ⟨h.distinct,h.linked,h.current,h.dated,h.spared,?_,h.underWay,h.logged⟩
    intro t k i ns ht
    simp only [KeyMap.lookup_insert_ite] at ht
    split at ht
    · simp at ht
    · exact h.asked t k i ns ht

theorem Coherent.step {e : Event} (h : Coherent s) (ho : Orderly s e) :
    Coherent (step svc s e) := by
  cases e with
  | lookup task nodeId => exact h.lookup task nodeId
  | serveGet task => exact h.serveGet task
  | insertListing task => exact h.insertListing ho
  | send task q => exact h.send task q
  | applyWrite task => exact h.applyWrite ho
  | respond task => exact h.respond task
  | tick d =>
    exact ⟨h.distinct,h.linked,h.current,h.dated,h.spared,h.asked,h.underWay,h.logged⟩

/-- In a run whose fills and writes are orderly no hit predates a write that changed it. -/
theorem orderly_hits_fresh (svc : Service) (nodes : List WorkflowyNode)
    (hnd : (nodes.map WorkflowyNode.id).Nodup) (clock : Nat) (es : List Event)
    (h : Runs.Meets (CacheRace.step svc) Orderly { upstream := ⟨nodes,clock⟩ } es) :
    Runs.Always (CacheRace.step svc) HitsFresh { upstream := ⟨nodes,clock⟩ } es := by
  refine h.always (I := Coherent) (fun s e ho hs => hs.step ho) (fun s hs => hs.hitsFresh) ?_
  refine ⟨hnd,?_,?_,?_,?_,?_,?_,?_⟩
  all_goals simp [NodeCache.MemberOfFaithful]

def familyNodes : List WorkflowyNode := [{ id := "p" },{ id := "x", parentId := some "p" }]

/-- A listing filled in before a create under its parent is sent. -/
def orderlyRun : List Event :=
  [.lookup 0 "p",.serveGet 0,.insertListing 0,.send 1 (.createNode "y" none (some "p") none none),
   .applyWrite 1,.respond 1]

/-- A read of `p` that is under way while `x` is renamed, and fills the cache afterwards. -/
def overtakenRun : List Event :=
  [.lookup 0 "p",.serveGet 0,.send 1 (.postNode "x" (some "new") none none),.applyWrite 1,
   .respond 1,.insertListing 0]

theorem orderly_hits_fresh_create :
    Runs.Always (CacheRace.step Service.reliable) HitsFresh
      { upstream := ⟨familyNodes,0⟩ } orderlyRun := by
  refine orderly_hits_fresh _ _ (by decide) _ _ ⟨trivial,trivial,?_,trivial,?_,trivial,trivial⟩
  · rintro k i ns -
    refine ⟨fun e he => ?_,fun t q hq => ?_⟩
    · cases he
    · cases hq
  · rintro q hq k e -
    cases hq
    exact id

theorem overtaken_hit_stale :
    ¬Runs.Always (CacheRace.step Service.reliable) HitsFresh
      { upstream := ⟨familyNodes,0⟩ } overtakenRun := by
  intro h
  obtain ⟨i,hi,hfresh⟩ := h _ List.prefix_rfl "p" [{ id := "x", parentId := some "p" }] (by decide)
  obtain rfl : 0 = i := Option.some.inj hi
  have hlater := hfresh _ List.mem_cons_self (by decide)
  exact absurd hlater (by decide)

end CacheRace
end WorkflowyMcp
