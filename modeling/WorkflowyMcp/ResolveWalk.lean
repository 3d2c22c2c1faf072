import Mathlib.Data.Finset.Insert
import WorkflowyMcp.DeepCopy
import WorkflowyMcp.ShortHashHistory

/-! Short hashes that the index does not hold are looked for by walking. Concurrent calls share one
walk for each scope: the others wait for it and poll the index. When a miss may be reported as
final. -/
namespace WorkflowyMcp.ResolveWalk
open SubtreeWalk NameIndex

def RESOLVE_WALK_NODE_CAP : Nat := 100000

def isShortHash (s : String) : Bool :=
  let stripped := stripHyphens s
  let len := (String.ofList stripped).utf8ByteSize
  (len == SHORT_HASH_LEN_URL || len == SHORT_HASH_LEN_PREFIX) && stripped.all isAsciiHexdigit

structure ResolveWalkSummary where
  nodesWalked : Nat := 0
  truncated : Bool
  truncationReason : Option TruncationReason := none
  elapsedMs : Nat := 0
  attachedAsSecondary : Bool := false
deriving DecidableEq, Repr

/- The hash of a link has been extracted, its parent resolved. -/
inductive Call where
  | nodeRef (raw : String)
  | link (hash : String) (parent : Option String)
deriving DecidableEq, Repr

def Call.hash : Call → String
  | .nodeRef raw => raw
  | .link hash _ => hash

def Call.scope : Call → Option String
  | .nodeRef _ => none
  | .link _ parent => parent

def Call.isNodeRef : Call → Bool
  | .nodeRef _ => true
  | .link _ _ => false

/- Where a call stands between two instants at which others may act. -/
inductive Phase where
  | start
  | refreshing
  | claiming
  | walking
  | walked (fetch : SubtreeFetch)
  | releasing (result : Except WorkflowyError ResolveWalkSummary)
  | polling
  | checking
  | returned (summary : ResolveWalkSummary)
  | found (id : String)
  | missed (summary : ResolveWalkSummary)
  | done

/-- The call is the primary of its scope. -/
def Phase.holds : Phase → Bool
  | .walking | .walked _ | .releasing _ => true
  | _ => false

/-- The call waits for the walk of another. -/
def Phase.waits : Phase → Bool
  | .polling | .checking => true
  | _ => false

/-- The caller is told that the walk completed and the hash matches no node. -/
def Phase.isFinalMiss : Phase → Bool
  | .missed summary => !summary.truncated
  | _ => false

structure State where
  idx : NameIndex
  inflight : Finset (Option String) := ∅
  phase : Nat → Phase := fun _ => .start
  /- What the walks that were ingested had reached; no call reads it. -/
  walks : List (Option String × SubtreeFetch) := []

def State.move (s : State) (t : Nat) (p : Phase) : State :=
  { s with phase := Function.update s.phase t p }

inductive Event (tree : Tree) where
  | look (t : Nat)
  | refresh (t : Nat) (disk : Disk) (io : DiskIo)
  | claim (t : Nat)
  | walk (t : Nat) (w : WalkEnv) (serves : w.Serves tree)
  | ingest (t elapsedMs : Nat)
  | release (t : Nat)
  | poll (t elapsedMs : Nat)
  | check (t elapsedMs : Nat) (late : Bool)
  | answer (t : Nat)
  | readBack (t : Nat) (node : WorkflowyNode)
  | drop (t : Nat)

/-- A walk that failed counts as a miss that covered nothing. -/
def summaryOf : Except WorkflowyError ResolveWalkSummary → ResolveWalkSummary
  | .ok summary => summary
  | .error _ => { truncated := true }

def walkSummary (fetch : SubtreeFetch) (elapsedMs : Nat) : ResolveWalkSummary where
  nodesWalked := fetch.nodes.length
  truncated := fetch.truncated
  truncationReason := fetch.truncationReason
  elapsedMs := elapsedMs

section
variable (toLowercase : String → String) {tree : Tree} (calls : Nat → Call)

/- `calls` are the calls in the air, by number. A call that is not at the instant an event names
   stays where it is. A primary keeps its scope in flight until `release`, on every way out;
   only the handler of a link reads the node back and ingests it. -/
def step (s : State) : Event tree → State
  | .look t =>
    match s.phase t with
    | .start =>
      if !isShortHash (calls t).hash then s.move t (.found (calls t).hash)
      else match s.idx.resolveShortHash (calls t).hash with
        | some full => s.move t (.found full)
        | none => s.move t (if (calls t).isNodeRef then .refreshing else .claiming)
    | _ => s
  | .refresh t disk io =>
    match s.phase t with
    | .refreshing =>
      let (refreshed,idx) := s.idx.refreshFromDiskIfChanged toLowercase disk io
      let s := { s with idx := idx }
      match refreshed,idx.resolveShortHash (calls t).hash with
      | .ok true,some full => s.move t (.found full)
      | _,_ => s.move t .claiming
    | _ => s
  | .claim t =>
    match s.phase t with
    | .claiming =>
      if (calls t).scope∈s.inflight then s.move t .polling
      else { s with inflight := insert (calls t).scope s.inflight }.move t .walking
    | _ => s
  | .walk t w _ =>
    match s.phase t with
    | .walking =>
      match getSubtreeWithControls w (calls t).scope DeepCopy.MAX_TREE_DEPTH
        RESOLVE_WALK_NODE_CAP with
      | .ok fetch => s.move t (.walked fetch)
      | .error e => s.move t (.releasing (.error e))
    | _ => s
  | .ingest t elapsedMs =>
    match s.phase t with
    | .walked fetch =>
      { s with
        idx := s.idx.ingest toLowercase fetch.nodes
        walks := s.walks++[((calls t).scope,fetch)] }.move t
          (.releasing (.ok (walkSummary fetch elapsedMs)))
    | _ => s
  | .release t =>
    match s.phase t with
    | .releasing result =>
      { s with inflight := s.inflight.erase (calls t).scope }.move t (.returned (summaryOf result))
    | _ => s
  | .poll t elapsedMs =>
    match s.phase t with
    | .polling =>
      if (s.idx.resolveShortHash (calls t).hash).isSome then
        s.move t (.returned
          { truncated := false, elapsedMs := elapsedMs, attachedAsSecondary := true })
      else s.move t .checking
    | _ => s
  | .check t elapsedMs late =>
    match s.phase t with
    | .checking =>
      if (calls t).scope∉s.inflight then
        s.move t (.returned
          { truncated := false, elapsedMs := elapsedMs, attachedAsSecondary := true })
      else if late then
        s.move t (.returned
          { truncated := true, truncationReason := some .Timeout, elapsedMs := elapsedMs
            attachedAsSecondary := true })
      else s.move t .polling
    | _ => s
  | .answer t =>
    match s.phase t with
    | .returned summary =>
      match s.idx.resolveShortHash (calls t).hash with
      | some full => s.move t (.found full)
      | none => s.move t (.missed summary)
    | _ => s
  | .readBack t node =>
    match s.phase t,(calls t).isNodeRef with
    | .found _,false => { s with idx := s.idx.ingest toLowercase [node] }.move t .done
    | _,_ => s
  | .drop t =>
    match s.phase t with
    | .found _ | .missed _ | .done => s
    | p =>
      if p.holds then { s with inflight := s.inflight.erase (calls t).scope }.move t .done
      else s.move t .done

end

section answers
variable {toLowercase : String → String} {idx : NameIndex} {raw : String}

/-- No two indexed ids share the hash. -/
def Unshared (raw : String) (idx : NameIndex) : Prop :=
  ∀ u v, idx.Indexed u → idx.Indexed v → Abbreviates raw u → Abbreviates raw v → u = v

/-- Nor have two since the index was last cleared. -/
def NeverShared (toLowercase : String → String) (raw : String) (ops : List IndexOp) : Prop :=
  ∀ key, (Spells raw SHORT_HASH_LEN_URL key → Apart toLowercase shortHashOf key ops) ∧
    (Spells raw SHORT_HASH_LEN_PREFIX key → Apart toLowercase prefixHashOf key ops)

/-- The index finds whatever indexed id has the hash. -/
def Answers (raw : String) (idx : NameIndex) : Prop :=
  ∀ key, (Spells raw SHORT_HASH_LEN_URL key → Filed key idx) ∧
    (Spells raw SHORT_HASH_LEN_PREFIX key → Single key idx)

theorem NeverShared.answers {ops : List IndexOp} (h : NeverShared toLowercase raw ops) :
    Answers raw (Runs.run (perform toLowercase) {} ops) :=
  fun key => ⟨fun hs => .of_apart ((h key).1 hs),fun hs => .of_apart ((h key).2 hs)⟩

theorem Answers.resolves (h : Answers raw idx) (hh : idx.Hashed) {u : String} (hu : idx.Indexed u)
    (hab : Abbreviates raw u) : (idx.resolveShortHash raw).isSome := by
  obtain ⟨key,⟨hs,hkey⟩ | ⟨hs,hkey⟩⟩ := hab
  · have hheld := ((h key).1 hs).2 u hu hkey
    rw [(resolve_eq_some hh).mpr ⟨key,.inl ⟨hs,hheld⟩⟩]
    rfl
  · obtain ⟨⟨uuid,count⟩,he⟩ := Option.isSome_iff_exists.mp (hh.listed key u hu hkey)
    obtain rfl : count = 1 := ((h key).2 hs).2 _ he
    rw [(resolve_eq_some hh).mpr ⟨key,.inr ⟨hs,he⟩⟩]
    rfl

/-- The index after it has ingested some nodes, in or out of a merge with the file. -/
def Grown (toLowercase : String → String) (idx idx' : NameIndex) : Prop :=
  ∃ nodes mtime, idx' = { idx.ingest toLowercase nodes with lastDiskRefreshMtime := mtime }

theorem Grown.refl : Grown toLowercase idx idx := ⟨[],idx.lastDiskRefreshMtime,rfl⟩

theorem grown_ingest (nodes : List WorkflowyNode) :
    Grown toLowercase idx (idx.ingest toLowercase nodes) := ⟨nodes,_,rfl⟩

theorem grown_refresh (disk : Disk) (io : DiskIo) :
    Grown toLowercase idx (idx.refreshFromDiskIfChanged toLowercase disk io).2 := by
  unfold refreshFromDiskIfChanged
  split
  · exact .refl
  · exact .refl
  · split
    · exact .refl
    · split
      · exact .refl
      · rename_i merged hm
        exact ⟨_,some disk.mtime,by rw [mergeFromDisk_ok hm]⟩

theorem Grown.indexed {idx' : NameIndex} (h : Grown toLowercase idx idx') {id : String}
    (hid : idx.Indexed id) : idx'.Indexed id := by
  obtain ⟨nodes,mtime,rfl⟩ := h
  exact indexed_ingest nodes hid

theorem Grown.hashed {idx' : NameIndex} (h : Grown toLowercase idx idx') (hh : idx.Hashed) :
    idx'.Hashed := by
  obtain ⟨nodes,mtime,rfl⟩ := h
  exact (hh.ingest nodes).of_maps rfl rfl rfl

/-- What the index answers it goes on answering, as long as no other id comes to share the hash. -/
theorem Grown.answers {idx' : NameIndex} (h : Grown toLowercase idx idx')
    (ha : Unshared raw idx → Answers raw idx) (hu : Unshared raw idx') : Answers raw idx' := by
  have hold := ha fun u v hu' hv' => hu u v (h.indexed hu') (h.indexed hv')
  obtain ⟨nodes,mtime,rfl⟩ := h
  refine fun key => ⟨fun hs => ?_,fun hs => ?_⟩
  · have hfree : ¬Crowded shortHashOf key (idx.ingest toLowercase nodes) := by
      rintro ⟨u,v,hne,hiu,hiv,hku,hkv⟩
      exact hne (hu u v hiu hiv ⟨key,.inl ⟨hs,hku⟩⟩ ⟨key,.inl ⟨hs,hkv⟩⟩)
    obtain ⟨hh,hfiled⟩ := ingest_uncrowded ((hold key).1 hs) (fun _ _ h hc => h.ingestNode hc) hfree
    exact ⟨hh.of_maps rfl rfl rfl,hfiled⟩
  · have hfree : ¬Crowded prefixHashOf key (idx.ingest toLowercase nodes) := by
      rintro ⟨u,v,hne,hiu,hiv,hku,hkv⟩
      exact hne (hu u v hiu hiv ⟨key,.inr ⟨hs,hku⟩⟩ ⟨key,.inr ⟨hs,hkv⟩⟩)
    obtain ⟨hh,hone⟩ := ingest_uncrowded ((hold key).2 hs) (fun _ _ h hc => h.ingestNode hc) hfree
    exact ⟨hh.of_maps rfl rfl rfl,hone⟩

end answers

section protocol
variable {toLowercase : String → String} {tree : Tree} {calls : Nat → Call} {ops : List IndexOp}
  {s : State}

/-- A walk of the workspace has ended without truncation. -/
def Complete (s : State) : Prop := ∃ walk∈s.walks, walk.1 = none ∧ walk.2.truncated = false

instance (s : State) : Decidable (Complete s) :=
  inferInstanceAs (Decidable (∃ walk∈s.walks, _))

/-- Some walk has visited every node of the tree. -/
def Visited (tree : Tree) (s : State) : Prop :=
  ∃ walk∈s.walks, ∀ n∈tree.nodes, n∈walk.2.nodes

/-- Whoever is told that the hash matches no node is told so after a walk that visited every node,
and none has the hash. -/
def Justified (tree : Tree) (calls : Nat → Call) (s : State) : Prop :=
  ∀ t, (s.phase t).isFinalMiss → (calls t).isNodeRef →
    Visited tree s ∧ ∀ n∈tree.nodes, ¬Abbreviates (calls t).hash n.id

/- No walk that a call waits for ends short, unless one has ended without truncation before; and
   no final miss is told of a hash that two indexed ids share or have shared. -/
def Sound (toLowercase : String → String) (tree : Tree) (calls : Nat → Call) (ops : List IndexOp)
    (s : State) : Event tree → Prop
  | .release t | .drop t => (s.phase t).holds → (calls t).scope = none →
      Complete s ∨ ∀ t', (calls t').isNodeRef → (s.phase t').waits = false
  | .answer t => ∀ summary, s.phase t = .returned summary → (calls t).isNodeRef →
      summary.truncated = false → s.idx.resolveShortHash (calls t).hash = none →
      NeverShared toLowercase (calls t).hash ops ∧ Unshared (calls t).hash s.idx
  | _ => True

/-- What a call may be told later is already settled by where it stands. -/
def Fits (tree : Tree) (s : State) (c : Call) : Phase → Prop
  | .walked fetch => c.scope = none → fetch.truncated = false → ∀ n∈tree.nodes, n∈fetch.nodes
  | .releasing (.ok summary) => c.isNodeRef → summary.truncated = false → Complete s
  | .polling | .checking => c.isNodeRef → none∈s.inflight ∨ Complete s
  | .returned summary => c.isNodeRef → summary.truncated = false →
      Complete s ∨ ∃ u, s.idx.Indexed u ∧ Abbreviates c.hash u
  | .missed summary => c.isNodeRef → summary.truncated = false →
      Visited tree s ∧ ∀ n∈tree.nodes, ¬Abbreviates c.hash n.id
  | _ => True

structure Inv (toLowercase : String → String) (tree : Tree) (calls : Nat → Call)
    (ops : List IndexOp) (s : State) : Prop where
  hashed : s.idx.Hashed
  answers : ∀ t, NeverShared toLowercase (calls t).hash ops → Unshared (calls t).hash s.idx →
    Answers (calls t).hash s.idx
  indexed : ∀ walk∈s.walks, ∀ n∈walk.2.nodes, s.idx.Indexed n.id
  covers : ∀ walk∈s.walks, walk.1 = none → walk.2.truncated = false →
    ∀ n∈tree.nodes, n∈walk.2.nodes
  fits : ∀ t, Fits tree s (calls t) (s.phase t)

theorem Inv.standing (h : Inv toLowercase tree calls ops s) {t : Nat} {p : Phase}
    (ht : s.phase t = p) : Fits tree s (calls t) p :=
  ht ▸ h.fits t

theorem Inv.justified (h : Inv toLowercase tree calls ops s) : Justified tree calls s := by
  intro t hfinal href
  unfold Phase.isFinalMiss at hfinal
  split at hfinal
  · rename_i summary ht
    exact h.standing ht href (by simpa using hfinal)
  · cases hfinal

theorem scope_of_isNodeRef {c : Call} (h : c.isNodeRef) : c.scope = none := by
  cases c with
  | nodeRef raw => rfl
  | link hash parent => cases h

theorem Complete.mono {s' : State} (h : Complete s) (hw : ∀ walk∈s.walks, walk∈s'.walks) :
    Complete s' := by
  obtain ⟨walk,hwalk,hc⟩ := h
  exact ⟨walk,hw walk hwalk,hc⟩

/-- What is settled stays so while the index grows and walks are added; a call that waits needs its
scope in flight. -/
theorem Fits.mono {s' : State} {c : Call} {p : Phase} (h : Fits tree s c p)
    (hg : ∀ id, s.idx.Indexed id → s'.idx.Indexed id) (hw : ∀ walk∈s.walks, walk∈s'.walks)
    (hin : p.waits → c.isNodeRef → none∈s.inflight → none∈s'.inflight ∨ Complete s') :
    Fits tree s' c p := by
  have hwait (hp : p.waits) (hwas : c.isNodeRef → none∈s.inflight ∨ Complete s)
      (hc : c.isNodeRef) : none∈s'.inflight ∨ Complete s' := by
    rcases hwas hc with hflight | hcomp
    · exact hin hp hc hflight
    · exact .inr (hcomp.mono hw)
  cases p with
  | walked fetch => exact h
  | releasing result =>
    cases result with
    | ok summary => exact fun hc ht => (h hc ht).mono hw
    | error e => trivial
  | polling => exact hwait rfl h
  | checking => exact hwait rfl h
  | returned summary =>
    intro hc ht
    rcases h hc ht with hcomp | ⟨u,hu,hab⟩
    · exact .inl (hcomp.mono hw)
    · exact .inr ⟨u,hg u hu,hab⟩
  | missed summary =>
    intro hc ht
    obtain ⟨⟨walk,hwalk,hall⟩,hnone⟩ := h hc ht
    exact ⟨⟨walk,hw walk hwalk,hall⟩,hnone⟩
  | start | refreshing | claiming | walking | found | done => trivial

/-- One call moves on. -/
theorem Inv.move (h : Inv toLowercase tree calls ops s) {t : Nat} {p : Phase}
    (hp : Fits tree s (calls t) p) : Inv toLowercase tree calls ops (s.move t p) where
  hashed := h.hashed
  answers := h.answers
  indexed := h.indexed
  covers := h.covers
  fits t' := by
    by_cases ht : t' = t
    · subst ht
      have hphase : (s.move t' p).phase t' = p := Function.update_self ..
      rw [hphase]
      exact hp.mono (fun _ hid => hid) (fun _ hw => hw) fun _ _ hin => .inl hin
    · have hphase : (s.move t p).phase t' = s.phase t' := Function.update_of_ne ht ..
      rw [hphase]
      exact (h.fits t').mono (fun _ hid => hid) (fun _ hw => hw) fun _ _ hin => .inl hin

/-- The index grows, or scopes come into flight or leave it. -/
theorem Inv.grow (h : Inv toLowercase tree calls ops s) {idx : NameIndex}
    {inflight : Finset (Option String)} (hg : Grown toLowercase s.idx idx)
    (hin : ∀ t, (s.phase t).waits → (calls t).isNodeRef → none∈s.inflight →
      none∈inflight ∨ Complete s) :
    Inv toLowercase tree calls ops { s with idx := idx, inflight := inflight } where
  hashed := hg.hashed h.hashed
  answers t hn := hg.answers (h.answers t hn)
  indexed walk hw n hn := hg.indexed (h.indexed walk hw n hn)
  covers := h.covers
  fits t := (h.fits t).mono (fun _ hid => hg.indexed hid) (fun _ hw => hw) (hin t)

/-- A walk is ingested, and all it reached is indexed from then on. -/
theorem Inv.ingest (h : Inv toLowercase tree calls ops s) {t : Nat} {fetch : SubtreeFetch}
    (ht : s.phase t = .walked fetch) :
    Inv toLowercase tree calls ops { s with
      idx := s.idx.ingest toLowercase fetch.nodes
      walks := s.walks++[((calls t).scope,fetch)] } where
  hashed := h.hashed.ingest fetch.nodes
  answers t hn := (grown_ingest fetch.nodes).answers (h.answers t hn)
  indexed walk hw n hn := by
    rcases List.mem_append.mp hw with hw | hw
    · exact indexed_ingest fetch.nodes (h.indexed walk hw n hn)
    · obtain rfl := List.mem_singleton.mp hw
      exact indexed_of_ingested hn
  covers walk hw := by
    rcases List.mem_append.mp hw with hw | hw
    · exact h.covers walk hw
    · obtain rfl := List.mem_singleton.mp hw
      exact h.standing ht
  fits t' := (h.fits t').mono (fun _ hid => indexed_ingest fetch.nodes hid)
    (fun _ hw => List.mem_append_left _ hw) fun _ _ hin => .inl hin

/-- A call that leaves the walk of its scope leaves nobody waiting in vain. -/
theorem Inv.erase (h : Inv toLowercase tree calls ops s) {t : Nat}
    (hs : (calls t).scope = none → Complete s ∨
      ∀ t', (calls t').isNodeRef → (s.phase t').waits = false) :
    Inv toLowercase tree calls ops { s with inflight := s.inflight.erase (calls t).scope } := by
  have hidx : Grown toLowercase s.idx s.idx := .refl
  refine h.grow hidx fun t' hwaits href hin => ?_
  by_cases hscope : (calls t).scope = none
  · rcases hs hscope with hcomp | hnone
    · exact .inr hcomp
    · simp [hnone t' href] at hwaits
  · exact .inl (Finset.mem_erase.mpr ⟨Ne.symm hscope,hin⟩)

theorem step_inv (hdepth : ∀ n∈tree.nodes, ∃ k ≤ DeepCopy.MAX_TREE_DEPTH, tree.AtDepth none k n)
    (h : Inv toLowercase tree calls ops s) {e : Event tree}
    (hs : Sound toLowercase tree calls ops s e) :
    Inv toLowercase tree calls ops (step toLowercase calls s e) := by
  cases e with
  | look t =>
    simp only [step]
    split
    · split
      · exact h.move trivial
      · split
        · exact h.move trivial
        · split <;> exact h.move trivial
    · exact h
  | refresh t disk io =>
    simp only [step]
    split
    · have hgrown := h.grow (grown_refresh disk io) fun _ _ _ hin => .inl hin
      split <;> exact hgrown.move trivial
    · exact h
  | claim t =>
    simp only [step]
    split
    · split
      · rename_i hin
        exact h.move fun href => .inl (scope_of_isNodeRef href ▸ hin)
      · exact (h.grow .refl fun _ _ _ hin => .inl (Finset.mem_insert_of_mem hin)).move trivial
    · exact h
  | walk t w serves =>
    simp only [step]
    split
    · split
      · rename_i fetch hf
        refine h.move fun hscope ht n hn => ?_
        rw [hscope] at hf
        obtain ⟨k,hk,hd⟩ := hdepth n hn
        rw [fetch_docOrder serves hf ht]
        exact Tree.mem_docOrder.mpr (.inr ⟨k,hk,hd⟩)
      · exact h.move trivial
    · exact h
  | ingest t elapsedMs =>
    simp only [step]
    split
    · rename_i fetch ht
      refine (h.ingest ht).move fun href htrunc => ?_
      exact ⟨_,List.mem_append_right _ (List.mem_singleton.mpr rfl),scope_of_isNodeRef href,htrunc⟩
    · exact h
  | release t =>
    simp only [step]
    split
    · rename_i result ht
      have hfits := h.standing ht
      refine (h.erase (hs (by rw [ht]; rfl))).move fun href htrunc => ?_
      cases result with
      | ok summary => exact .inl (hfits href htrunc)
      | error e => cases htrunc
    · exact h
  | poll t elapsedMs =>
    simp only [step]
    split
    · rename_i ht
      split
      · rename_i hhit
        obtain ⟨full,hfull⟩ := Option.isSome_iff_exists.mp hhit
        exact h.move fun _ _ => .inr
          ⟨full,indexed_of_resolve h.hashed hfull,abbreviates_of_resolve h.hashed hfull⟩
      · have hfits : (calls t).isNodeRef → none∈s.inflight ∨ Complete s := h.standing ht
        exact h.move hfits
    · exact h
  | check t elapsedMs late =>
    simp only [step]
    split
    · rename_i ht
      have hfits := h.standing ht
      split
      · rename_i hout
        refine h.move fun href _ => .inl ((hfits href).resolve_left ?_)
        exact scope_of_isNodeRef href ▸ hout
      · split
        · exact h.move fun _ htrunc => by cases htrunc
        · exact h.move hfits
    · exact h
  | answer t =>
    simp only [step]
    split
    · rename_i summary ht
      split
      · exact h.move trivial
      · rename_i hmiss
        refine h.move fun href htrunc => ?_
        obtain ⟨hnever,hunshared⟩ := hs summary ht href htrunc hmiss
        have hno (u : String) (hu : s.idx.Indexed u) : ¬Abbreviates (calls t).hash u := by
          intro hab
          have hsome := (h.answers t hnever hunshared).resolves h.hashed hu hab
          simp [hmiss] at hsome
        rcases h.standing ht href htrunc with ⟨walk,hw,hroot,hwhole⟩ | ⟨u,hu,hab⟩
        · have hall := h.covers walk hw hroot hwhole
          exact ⟨⟨walk,hw,hall⟩,fun n hn => hno n.id (h.indexed walk hw n (hall n hn))⟩
        · exact absurd hab (hno u hu)
    · exact h
  | readBack t node =>
    simp only [step]
    split
    · exact (h.grow (grown_ingest [node]) fun _ _ _ hin => .inl hin).move trivial
    · exact h
  | drop t =>
    simp only [step]
    split
    · exact h
    · exact h
    · exact h
    · split
      · rename_i hholds
        exact (h.erase (hs hholds)).move trivial
      · exact h.move trivial

end protocol

/-- Calls that have not started, on an index that has seen some calls since it was new. -/
def start (toLowercase : String → String) (ops : List IndexOp) : State :=
  { idx := Runs.run (perform toLowercase) {} ops }

/-- On a tree no deeper than a walk goes, in every run in which no call waits for a walk that ends
short and no hash is shared, a miss that is told as final follows a walk that visited every node,
and no node has the hash. -/
theorem final_miss_justified (toLowercase : String → String) {tree : Tree}
    (hdepth : ∀ n∈tree.nodes, ∃ k ≤ DeepCopy.MAX_TREE_DEPTH, tree.AtDepth none k n)
    (calls : Nat → Call) (ops : List IndexOp) {es : List (Event tree)}
    (h : Runs.Meets (step toLowercase calls) (Sound toLowercase tree calls ops)
      (start toLowercase ops) es) :
    Runs.Always (step toLowercase calls) (Justified tree calls) (start toLowercase ops) es := by
  refine h.always (fun _ _ hs hi => step_inv hdepth hi hs) (fun _ hi => hi.justified) ?_
  exact {
    hashed := hashed_run ops
    answers := fun t hn _ => hn.answers
    indexed := fun _ hw => by cases hw
    covers := fun _ hw => by cases hw
    fits := fun _ => trivial }

/-- The workspace holds one node, called `a`, at the top. -/
def oneTree : Tree where
  nodes := twins.take 1
  nodup := by decide
  rank _ := 0
  acyclic := by simp [twins]

def twinTree : Tree where
  nodes := twins
  nodup := by decide
  rank _ := 0
  acyclic := by simp [twins]

/-- The node `a` below eleven others. -/
def deepTree : Tree where
  nodes := DeepCopy.chain 10++[{ id := "550e8400-e29b-41d4-a716-446655440000", name := "a"
                                 parentId := some (String.ofList (List.replicate 11 'c')) }]
  nodup := by decide +kernel
  rank := String.length
  acyclic n hn p hp := by
    rcases List.mem_append.mp hn with hn | hn
    · exact (DeepCopy.chainTree 10).acyclic n hn p hp
    · obtain rfl := List.mem_singleton.mp hn
      obtain rfl := Option.some.inj hp
      decide

/- A walk that meets no trouble, and one whose time is over before it starts. -/
def smooth (tree : Tree) (t : Nat) : Event tree :=
  .walk t (DeepCopy.smoothWalk tree) (DeepCopy.smoothWalk_serves tree)

def timedOut (tree : Tree) (t : Nat) : Event tree :=
  have h := DeepCopy.smoothWalk_serves tree
  .walk t { DeepCopy.smoothWalk tree with status := fun _ => some .Timeout }
    ⟨h.node,h.topLevel,h.listing⟩

/- Two calls for the root, the second of which waits for the walk of the first. -/
def attached {tree : Tree} (walk : Event tree) : List (Event tree) :=
  [.look 0,.look 1,.refresh 0 {} {},.refresh 1 {} {},.claim 0,.claim 1,walk,.ingest 0 40,
    .release 0,.poll 1 100,.check 1 100 false,.answer 1,.answer 0]

theorem neverShared_nil (toLowercase : String → String) (raw : String) :
    NeverShared toLowercase raw [] :=
  fun _ => ⟨fun _ => apart_nil,fun _ => apart_nil⟩

theorem unshared_of_keys {raw : String} {idx : NameIndex} {id : String} (h : idx.byId.keys = [id]) :
    Unshared raw idx := by
  intro u v hu hv _ _
  rw [indexed_iff_mem,h,List.mem_singleton] at hu hv
  rw [hu,hv]

/-- Both calls are told that `deadbeef` matches no node, after a walk that saw all there is. -/
theorem absent_hash_told :
    let calls := fun _ => Call.nodeRef "deadbeef"
    let es := attached (smooth oneTree 0)
    let told := Runs.run (step asciiLowercase calls) (start asciiLowercase []) es
    (told.phase 0).isFinalMiss ∧ (told.phase 1).isFinalMiss ∧ Justified oneTree calls told := by
  intro calls es told
  have hkeys (s : State) (hs : s.idx.byId.keys = ["550e8400-e29b-41d4-a716-446655440000"]) :
      NeverShared asciiLowercase "deadbeef" [] ∧ Unshared "deadbeef" s.idx :=
    ⟨neverShared_nil _ _,unshared_of_keys hs⟩
  refine ⟨by decide +kernel,by decide +kernel,
    final_miss_justified asciiLowercase (fun n hn => ⟨0,by decide,hn,?_⟩) calls [] ?_ es
      (List.prefix_refl es)⟩
  · exact (show ∀ n∈oneTree.nodes, n.parentId = none by decide) n hn
  · refine ⟨trivial,trivial,trivial,trivial,trivial,trivial,trivial,trivial,fun _ _ => .inl ?_,
      trivial,trivial,fun _ _ _ _ _ => hkeys _ ?_,fun _ _ _ _ _ => hkeys _ ?_,trivial⟩
    all_goals decide +kernel

/-- Three ways to be told wrongly that a hash matches no node: the walk that was waited for ended
short, the node lies deeper than a walk goes, or two nodes share the hash. -/
theorem final_miss_wrong :
    let calls := fun _ => Call.nodeRef "550e8400"
    let told := fun (tree : Tree) (es : List (Event tree)) =>
      Runs.run (step asciiLowercase calls) (start asciiLowercase []) es
    ¬Justified oneTree calls (told oneTree (attached (timedOut oneTree 0))) ∧
    ¬Justified deepTree calls (told deepTree (attached (smooth deepTree 0))) ∧
    ¬Justified twinTree calls (told twinTree (attached (smooth twinTree 0))) := by
  have hspells : Spells "550e8400" SHORT_HASH_LEN_PREFIX "550e8400" :=
    ⟨by decide,by decide,by decide⟩
  have hab : Abbreviates "550e8400" "550e8400-e29b-41d4-a716-446655440000" :=
    ⟨"550e8400",.inr ⟨hspells,by decide +kernel⟩⟩
  refine ⟨fun h => ?_,fun h => ?_,fun h => ?_⟩
  · exact (h 1 (by decide +kernel) rfl).2 _ (List.mem_cons_self ..) hab
  · exact (h 0 (by decide +kernel) rfl).2 _ (List.mem_append_right _ (List.mem_cons_self ..)) hab
  · exact (h 0 (by decide +kernel) rfl).2 _ (List.mem_cons_self ..) hab

end WorkflowyMcp.ResolveWalk
