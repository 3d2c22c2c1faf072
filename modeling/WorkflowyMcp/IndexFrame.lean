import WorkflowyMcp.BookedCreates
import WorkflowyMcp.IndexResolve
import WorkflowyMcp.ServerCreates

/-! What the handlers that create or move nodes do to the entries of other nodes, over every
state of the name index. -/
namespace WorkflowyMcp.IndexFrame
open NameIndex

variable {toLowercase : String → String} {idx idx' : NameIndex}

/- Nothing is changed but the excepted nodes: the entry of every other id stays, none of them is
   buried, the parents are found by the short hashes they were found by, and a path that does
   not lead through an excepted node stays. -/
structure Framed (except parents : List String) (idx idx' : NameIndex) : Prop where
  entry : ∀ id, id∉except → idx'.lookupEntryById id = idx.lookupEntryById id
  grave : ∀ id, id∉except → id∈idx'.tombstones → id∈idx.tombstones
  hash : ∀ p∈parents, p∉except → ∀ short, idx.resolveShortHash short = some p →
    idx'.resolveShortHash short = some p
  path : ∀ id, id∉except → (∀ e∈idx.pathEntries 33 (idx.lookupEntryById id), ∀ p,
    e.parentId = some p → p∉except) → idx'.pathOf id = idx.pathOf id

/-- A new node takes no short hash by which the index finds one of the parents, unless the
index lists that node already, with the same name and description. -/
def Yields (toLowercase : String → String) (idx : NameIndex) (parents : List String)
    (node : WorkflowyNode) : Prop :=
  ∀ p∈parents, ∀ short, idx.resolveShortHash short = some p → Abbreviates short node.id →
    idx.sameContent toLowercase node = true

theorem tombstones_invalidateAll (ids : List String) {x : String}
    (hx : x∈(ids.foldl NameIndex.invalidateNode idx).tombstones) :
    x∈idx.tombstones ∨ x∈ids ∧ idx.Indexed x := by
  induction ids generalizing idx with
  | nil => exact .inl hx
  | cons id ids ih =>
    have hindexed : (idx.invalidateNode id).Indexed x → idx.Indexed x := by
      intro h
      unfold invalidateNode at h
      split at h <;> exact (indexed_removeLocked.mp h).1
    rcases ih hx with h | ⟨hmem,h⟩
    · unfold invalidateNode at h
      split at h
      · rename_i hid
        rcases Finset.mem_insert.mp h with rfl | h
        · exact .inr ⟨by simp,hid⟩
        · exact .inl h
      · exact .inl h
    · exact .inr ⟨List.mem_cons_of_mem id hmem,hindexed h⟩

/-- Ids are dropped, then nodes are ingested: the frame holds exactly when no other node was
dropped and none of the nodes took a parent's hash. -/
theorem framed_iff (hw : idx.Wf toLowercase) (hh : idx.Hashed) (except parents named : List String)
    {nodes : List WorkflowyNode} (hmade : ∀ n∈nodes, n.id∈except) (hapart : ∀ n∈nodes, n.id∉named)
    (hparents : ∀ n∈nodes, ∀ p∈parents, p∉except) :
    Framed except parents idx
        ((named.foldl NameIndex.invalidateNode idx).ingest toLowercase nodes) ↔
      (∀ x∈named, x∉except → ¬idx.Indexed x) ∧ ∀ n∈nodes, Yields toLowercase idx parents n := by
  have hw' := hw.invalidateAll named
  have hh' := hh.invalidateAll named
  have hfree {x : String} (hx : x∉except) : ∀ n∈nodes, n.id≠x := fun n hn he =>
    hx (he ▸ hmade n hn)
  have hlookup {x : String} (hx : x∉except) :
      ((named.foldl NameIndex.invalidateNode idx).ingest toLowercase nodes).lookupEntryById x =
        if x∈named then none else idx.lookupEntryById x := by
    rw [lookup_ingest hw',observeAll_of_absent (hfree hx),lookup_invalidateAll hw]
  have hsame (n : WorkflowyNode) (hn : n∈nodes) :
      (named.foldl NameIndex.invalidateNode idx).sameContent toLowercase n =
        idx.sameContent toLowercase n :=
    sameContent_congr hw hw' (by rw [lookup_invalidateAll hw,if_neg (hapart n hn)])
  constructor
  · intro h
    refine ⟨fun x hx hout hindexed => ?_,fun n hn p hp short hshort habbr => ?_⟩
    · have hentry := h.entry x hout
      rw [hlookup hout,if_pos hx] at hentry
      exact (indexed_iff hw).mp hindexed hentry.symm
    · have hout := hparents n hn p hp
      have hkept := h.hash p hp hout short hshort
      rw [resolve_ingest hw' hh' fun m hm => (hfree hout m hm).symm] at hkept
      exact hsame n hn ▸ hkept.2 n hn habbr
  · rintro ⟨hnamed,hyields⟩
    have hentry {x : String} (hx : x∉except) :
        ((named.foldl NameIndex.invalidateNode idx).ingest toLowercase nodes).lookupEntryById x =
          idx.lookupEntryById x := by
      rw [hlookup hx]
      split
      · rename_i hmem
        have hnone := mt (indexed_iff hw).mpr (hnamed x hmem hx)
        exact (not_not.mp hnone).symm
      · rfl
    refine ⟨fun x hx => hentry hx,fun x hx hgrave => ?_,fun p hp hout short hshort => ?_,
      fun x hx hpath => ?_⟩
    · rw [tombstones_ingest] at hgrave
      exact (tombstones_invalidateAll named hgrave).resolve_right fun h => hnamed x h.1 hx h.2
    · rw [resolve_ingest hw' hh' fun m hm => (hfree hout m hm).symm,resolve_invalidateAll hh]
      refine ⟨⟨hshort,fun hmem => hnamed p hmem hout (indexed_of_resolve hh hshort)⟩,?_⟩
      exact fun n hn habbr => hsame n hn ▸ hyields n hn p hp short hshort habbr
    · unfold pathOf
      rw [hentry hx,pathEntries_congr fun e he p hp => hentry (hpath e he p hp)]

theorem Framed.refl (except parents : List String) (idx : NameIndex) :
    Framed except parents idx idx :=
  ⟨fun _ _ => rfl,fun _ _ h => h,fun _ _ _ _ h => h,fun _ _ _ => rfl⟩

theorem Yields.of_unindexed (hh : idx.Hashed) {parents : List String}
    (h : ∀ p∈parents, ¬idx.Indexed p) (node : WorkflowyNode) :
      Yields toLowercase idx parents node :=
  fun p hp _ hshort => absurd (indexed_of_resolve hh hshort) (h p hp)

section tools
variable {s : Server} {svc : Service} {u : Upstream}

theorem createNode_framed (hw : s.nameIndex.Wf toLowercase) (hh : s.nameIndex.Hashed)
    (params : CreateNodeParams) (check : String → Option IdempotencyHit)
    (degradedWarning : Option String) :
    let r := (Server.createNode toLowercase s params check degradedWarning).run svc.serve u
    ∀ reply, r.1.1 = .ok reply →
      (Framed (newcomers u r.2) params.parentId.toList s.nameIndex r.1.2.nameIndex ↔
        (params.idempotencyKey.bind check).isSome ∨
          ∀ p, params.parentId = some p → ¬s.nameIndex.Indexed p) := by
  simp only [Server.createNode]
  split
  · rename_i key hit hkey hhit
    intro reply _
    simp [hhit,Framed.refl]
  · rename_i hno
    have hmiss : (params.idempotencyKey.bind check).isSome = false := by
      cases hkey : params.idempotencyKey with
      | none => rfl
      | some key =>
        cases hhit : check key with
        | none => simp [hhit]
        | some hit => exact (hno key hit hkey (by simp [hkey,hhit])).elim
    split
    · intro reply hr
      cases hr
    · simp only [Client.request,Proc.bind_eq,Proc.call_bind,Proc.ret_bind,Proc.run_call,hmiss,
        Bool.false_eq_true,false_or]
      cases hs : (svc.serve (.createNode params.name params.description params.parentId
          params.priority params.layout) u).1 with
      | error e =>
        intro reply hr
        cases hr
      | ok r =>
        obtain ⟨id,rfl,hparent,hb⟩ := books_serve (fun _ => True) hs
        intro reply _
        have hid := hb.newcomers (List.mem_singleton_self _)
        have hold {p : String} (hp : params.parentId = some p) :
            p∉newcomers u (svc.serve (.createNode params.name params.description params.parentId
              params.priority params.layout) u).2 := fun h => (mem_newcomers.mp h).2 (hparent p hp)
        have hiff := framed_iff hw hh (newcomers u _) params.parentId.toList params.parentId.toList
          (List.forall_mem_singleton.mpr hid)
          (List.forall_mem_singleton.mpr (by simpa using fun hp => hold hp hid))
          (List.forall_mem_singleton.mpr (by simpa using fun p hp => hold hp))
        rw [← Server.nameIndex_invalidateForMutation] at hiff
        refine hiff.trans ⟨fun h p hp => h.1 p (by simpa using hp) (hold hp),fun h => ⟨?_,?_⟩⟩
        · exact fun x hx _ => h x (by simpa using hx)
        · exact fun n _ => Yields.of_unindexed hh (fun p hp => h p (by simpa using hp)) n

/-- The old parent counts where the read before the move finds it. -/
theorem moveNode_framed (hw : s.nameIndex.Wf toLowercase) (hh : s.nameIndex.Hashed)
    (nodeId newParentId : String) (priority : Option Int) :
    let r := (Server.moveNode s nodeId newParentId priority).run svc.serve u
    Framed [nodeId] (newParentId::((findNode u.nodes nodeId).bind WorkflowyNode.parentId).toList)
        s.nameIndex r.1.2.nameIndex ↔
      ∀ p, (p = newParentId ∨ ∃ n, (svc.serve (.getNode nodeId) u).1 = .ok n ∧
        n.parentId = some p) →
        p≠nodeId → ¬s.nameIndex.Indexed p := by
  have hindex : ((Server.moveNode s nodeId newParentId priority).run svc.serve u).1.2.nameIndex =
      ([nodeId,newParentId]++(((svc.serve (.getNode nodeId) u).1.toOption.bind
        WorkflowyNode.parentId).filter fun pid => pid≠newParentId).toList).foldl
          NameIndex.invalidateNode s.nameIndex := by
    simp only [Server.moveNode,Client.getNode,Client.request,Proc.bind_eq,Proc.call_bind,Proc.ret_bind,
      Proc.run_call,Proc.run_bind]
    rw [← Server.nameIndex_invalidateForMutation]
    generalize ((Client.moveNode nodeId newParentId priority).run svc.serve _).1 = reply
    cases reply <;> rfl
  have hiff := framed_iff hw hh [nodeId]
    (newParentId::((findNode u.nodes nodeId).bind WorkflowyNode.parentId).toList)
    ([nodeId,newParentId]++(((svc.serve (.getNode nodeId) u).1.toOption.bind
      WorkflowyNode.parentId).filter fun pid => pid≠newParentId).toList)
    (List.forall_mem_nil _) (List.forall_mem_nil _) (List.forall_mem_nil _)
  have hread (p : String) : (∃ n, (svc.serve (.getNode nodeId) u).1 = .ok n ∧ n.parentId = some p) ↔
      (svc.serve (.getNode nodeId) u).1.toOption.bind WorkflowyNode.parentId = some p := by
    cases (svc.serve (.getNode nodeId) u).1 with
    | error e => simp [Except.toOption]
    | ok n => simp [Except.toOption]
  simp only [hindex,hread]
  refine hiff.trans ?_
  generalize (svc.serve (.getNode nodeId) u).1.toOption.bind WorkflowyNode.parentId = old
  constructor
  · rintro ⟨h,-⟩ p hp hne
    refine h p ?_ (by simpa using hne)
    by_cases hnew : p = newParentId
    · simp [hnew]
    · simp [hp.resolve_left hnew,hnew]
  · refine fun h => ⟨fun x hx hne => ?_,by simp⟩
    have hne : x≠nodeId := by simpa using hne
    have hx : x = newParentId ∨ old = some x ∧ x≠newParentId := by simpa [hne] using hx
    exact h x (hx.imp_right And.left) hne

/-- The footprint of a workflow that books what it is told of, behind a run that made no node
with the id of a parent. -/
theorem applyFootprint_framed (hw : s.nameIndex.Wf toLowercase) (hh : s.nameIndex.Hashed)
    {parents : List String} {v : Upstream} {answers : Prop} {fp : MutationFootprint}
    (hb : Books (Yields toLowercase s.nameIndex parents) u v answers fp.createdNodes)
    (hnamed : ∀ x∈fp.invalidatedNameIndex, u.Has x) (hparents : ∀ p∈parents, p∉newcomers u v) :
    Framed (newcomers u v) parents s.nameIndex (s.applyFootprint toLowercase fp).nameIndex ↔
      (∀ x∈fp.invalidatedNameIndex, ¬s.nameIndex.Indexed x) ∧ answers := by
  have hold {x : String} (hx : x∈fp.invalidatedNameIndex) : x∉newcomers u v := fun h =>
    (mem_newcomers.mp h).2 (hnamed x hx)
  rw [Server.nameIndex_applyFootprint,framed_iff hw hh _ _ _ (fun n hn => hb.newcomers hn)
    (fun n hn hx => hold hx (hb.newcomers hn)) (fun _ _ p hp => hparents p hp),hb.answers]
  exact and_congr_left' (forall₂_congr fun x hx => imp_iff_right (hold hx))

theorem createMirror_framed (hw : s.nameIndex.Wf toLowercase) (hh : s.nameIndex.Hashed)
    (isWord : Char → Bool) (canonicalId : String) (targetParentId : Option String)
    (priority : Option Int) (pillar : Option String) (dryRun : Option Bool) :
    let p := Server.createMirror toLowercase isWord s canonicalId targetParentId priority pillar dryRun
    let r := p.run svc.serve u
    ∀ reply, r.1.1 = .ok reply →
      (∀ result, reply = CreateMirrorReply.ok result → result.annotatedCanonical = false) →
      (Framed (newcomers u r.2) targetParentId.toList s.nameIndex r.1.2.nameIndex ↔
        (dryRun.getD false = true ∨ ¬s.nameIndex.Indexed canonicalId) ∧
          p.Answers (Told (Yields toLowercase s.nameIndex targetParentId.toList)) svc.serve u) := by
  simp only [Server.createMirror]
  cases dryRun.getD false with
  | true =>
    simp only [if_true,true_or,true_and,createMirrorDryRun]
    intro reply hr _
    cases hself : refuseSelfMirror canonicalId targetParentId with
    | error e =>
      simp [Proc.Answers,Framed.refl]
    | ok pass =>
      simp only [Client.getNode,Client.request,Proc.bind_eq,Proc.call_bind,Proc.ret_bind,
        Proc.run_call,Proc.Answers,Told.getNode,true_and]
      cases (svc.serve (.getNode canonicalId) u).1 with
      | error e => simp [Proc.Answers,Framed.refl]
      | ok canonical => simp [Proc.Answers,Framed.refl]
  | false =>
    simp only [Bool.false_eq_true,if_false,false_or,Proc.bind_eq,Proc.run_bind,Proc.answers_bind]
    intro reply hr hplain
    cases hc : ((createMirrorViaConvention toLowercase isWord canonicalId targetParentId priority
        pillar).run svc.serve u).1 with
    | error e =>
      rw [hc] at hr
      cases hr
    | ok out =>
      obtain ⟨result,fp⟩ := out
      rw [hc] at hr
      obtain rfl := Except.ok.inj hr
      obtain ⟨hnamed,hcanonical,htarget,hb⟩ := books_createMirror
        (Yields toLowercase s.nameIndex targetParentId.toList) svc hc (hplain result rfl)
      have hiff := applyFootprint_framed hw hh hb (by simpa [hnamed] using hcanonical)
        fun p hp h => (mem_newcomers.mp h).2 (htarget p (by simpa using hp))
      simpa [hnamed,Proc.Answers] using hiff

theorem insertContent_framed (hw : s.nameIndex.Wf toLowercase) (hh : s.nameIndex.Hashed)
    (conn : Connection) (maxAttempts : Nat) (parentId : Option String)
    (parsed : List InsertContent.ParsedLine) :
    let p := Server.insertContent toLowercase s maxAttempts parentId parsed
    let r := p.run (svc.answer conn) u
    ∀ reply, r.1.1 = .ok reply →
      (Framed (newcomers u r.2) parentId.toList s.nameIndex r.1.2.nameIndex ↔
        p.Answers (Heard (Yields toLowercase s.nameIndex parentId.toList))
          (svc.answer conn) u) := by
  simp only [Server.insertContent]
  split
  · intro reply _
    exact iff_of_true (Framed.refl _ _ _) trivial
  · rename_i hne
    by_cases hcap : parsed.length ≤ InsertContent.MAX_INSERT_CONTENT_LINES
    · obtain ⟨ns,hnamed,hmade,hb⟩ : InsertContent.Booking
          (Yields toLowercase s.nameIndex parentId.toList) svc conn { parentStack := [parentId] } _ u :=
        InsertContent.booking_insertLines maxAttempts parsed 0 { parentStack := [parentId] } u
      have hapart := InsertContent.apart_insertLines (w := svc.world conn) maxAttempts parsed 0
        { parentStack := [parentId] } u parentId (.inl rfl)
      rw [InsertContent.insertContent_eq (by simpa using hne) hcap]
      simp only [Proc.bind_eq,Proc.bind_assoc,Proc.ret_bind,Proc.run_bind,Proc.answers_bind]
      intro reply _
      generalize (InsertContent.insertLines maxAttempts parsed 0 { parentStack := [parentId] }) = batch
        at hnamed hmade hb hapart ⊢
      have hparents : ∀ p∈parentId.toList, p∉newcomers u (batch.run (svc.answer conn) u).2 := by
        intro p hp hnew
        obtain ⟨hnow,hbefore⟩ := mem_newcomers.mp hnew
        obtain ⟨n,hn,rfl⟩ := List.mem_map.mp (Upstream.has_iff.mp hnow)
        rcases hapart n hn with hn | hn
        · exact hbefore (Upstream.has_iff.mpr (List.mem_map_of_mem hn))
        · exact hn (by simpa using hp)
      rw [List.nil_append] at hmade
      rw [← hmade] at hb
      have hiff := applyFootprint_framed hw hh hb (by simp [hnamed]) hparents
      refine Iff.trans ?_ (hiff.trans ?_)
      · cases parentId <;> exact .rfl
      · simp [hnamed,Proc.Answers]
    · rcases InsertContent.insertContent_other maxAttempts parentId (fun h => hcap h.2) with
        ⟨-,hempty⟩ | heq
      · simp [hempty] at hne
      · rw [heq]
        intro reply hr
        cases hr

theorem duplicateNode_framed (hw : s.nameIndex.Wf toLowercase) (hh : s.nameIndex.Hashed)
    (w : SubtreeWalk.WalkEnv) (fuel : Nat) (nodeId targetParentId : String)
    (includeChildren : Option Bool) (namePrefix : Option String) (ctx : DeepCopy.WorkflowContext) :
    let p := Server.duplicateNode toLowercase s w fuel nodeId targetParentId includeChildren namePrefix ctx
    let r := p.run svc.serve u
    ∀ outcome s', r.1 = some (.ok outcome,s') →
      (Framed (newcomers u r.2) [targetParentId] s.nameIndex s'.nameIndex ↔
        p.Answers (Told (Yields toLowercase s.nameIndex [targetParentId])) svc.serve u) := by
  simp only [Server.duplicateNode,DeepCopy.duplicateSubtree,Proc.bind_eq,Proc.pure_eq,Proc.bind_assoc,
    Proc.ret_bind,Proc.run_bind,Proc.answers_bind]
  intro outcome s' hr
  cases hc : ((DeepCopy.deepCopySubtree (DeepCopy.prefixed nodeId namePrefix) w fuel nodeId
      targetParentId (if includeChildren.getD true then DeepCopy.MAX_TREE_DEPTH else 0) "duplicate"
      "Node" ctx).run svc.serve u).1 with
  | none =>
    rw [hc] at hr
    cases hr
  | some reply =>
    rw [hc] at hr
    cases reply with
    | error e => cases hr
    | ok out =>
      obtain ⟨newRootId,nodesCreated,fp⟩ := out
      obtain ⟨hnamed,htarget,hb⟩ := DeepCopy.books_deepCopySubtree
        (Yields toLowercase s.nameIndex [targetParentId]) hc
      have hiff := applyFootprint_framed hw hh hb (by simp [hnamed])
        fun p hp h => (mem_newcomers.mp h).2 (by simpa [List.mem_singleton.mp hp] using htarget)
      obtain ⟨-,rfl⟩ := Prod.mk.inj (Option.some.inj hr)
      simpa [hnamed,Proc.Answers,Except.map] using hiff

end tools

/-- Which calls leave the entries of other nodes alone, over every state of the index: a
`create_node` or `move_node` whose parents are not indexed, a mirror of an unindexed node, and
each of the three workflows as long as no created node takes a short hash of a parent. -/
theorem tools_framed_iff (toLowercase : String → String) (isWord : Char → Bool) (cache : NodeCache)
    (calls : List IndexOp) (svc : Service) (u : Upstream) :
    let s := Server.after toLowercase cache calls
    (∀ params check degradedWarning,
      let r := (Server.createNode toLowercase s params check degradedWarning).run svc.serve u
      ∀ reply, r.1.1 = .ok reply →
        (Framed (newcomers u r.2) params.parentId.toList s.nameIndex r.1.2.nameIndex ↔
          (params.idempotencyKey.bind check).isSome ∨
            ∀ p, params.parentId = some p → ¬s.nameIndex.Indexed p)) ∧
    (∀ nodeId newParentId priority,
      let r := (Server.moveNode s nodeId newParentId priority).run svc.serve u
      ∀ text, r.1.1 = .ok text →
        (Framed [nodeId] (newParentId::((findNode u.nodes nodeId).bind WorkflowyNode.parentId).toList)
            s.nameIndex r.1.2.nameIndex ↔
          ∀ p, (p = newParentId ∨
              ∃ n, (svc.serve (.getNode nodeId) u).1 = .ok n ∧ n.parentId = some p) →
            p≠nodeId → ¬s.nameIndex.Indexed p)) ∧
    (∀ canonicalId targetParentId priority pillar dryRun,
      let p := Server.createMirror toLowercase isWord s canonicalId targetParentId priority pillar dryRun
      let r := p.run svc.serve u
      ∀ reply, r.1.1 = .ok reply →
        (∀ result, reply = CreateMirrorReply.ok result → result.annotatedCanonical = false) →
        (Framed (newcomers u r.2) targetParentId.toList s.nameIndex r.1.2.nameIndex ↔
          (dryRun.getD false = true ∨ ¬s.nameIndex.Indexed canonicalId) ∧
            p.Answers (Told (Yields toLowercase s.nameIndex targetParentId.toList)) svc.serve u)) ∧
    (∀ conn maxAttempts parentId parsed,
      let p := Server.insertContent toLowercase s maxAttempts parentId parsed
      let r := p.run (svc.answer conn) u
      ∀ reply, r.1.1 = .ok reply →
        (Framed (newcomers u r.2) parentId.toList s.nameIndex r.1.2.nameIndex ↔
          p.Answers (Heard (Yields toLowercase s.nameIndex parentId.toList)) (svc.answer conn) u)) ∧
    ∀ w fuel nodeId targetParentId includeChildren namePrefix ctx,
      let p := Server.duplicateNode toLowercase s w fuel nodeId targetParentId includeChildren namePrefix ctx
      let r := p.run svc.serve u
      ∀ outcome s', r.1 = some (.ok outcome,s') →
        (Framed (newcomers u r.2) [targetParentId] s.nameIndex s'.nameIndex ↔
          p.Answers (Told (Yields toLowercase s.nameIndex [targetParentId])) svc.serve u) := by
  have hw : (Server.after toLowercase cache calls).nameIndex.Wf toLowercase := wf_run calls
  have hh : (Server.after toLowercase cache calls).nameIndex.Hashed := hashed_run calls
  exact ⟨createNode_framed hw hh,fun nodeId newParentId priority _ _ =>
    moveNode_framed hw hh nodeId newParentId priority,createMirror_framed hw hh isWord,
    insertContent_framed hw hh,duplicateNode_framed hw hh⟩

theorem of_isOk {ε α : Type} {x : Except ε α} {P : Prop} (h : ∀ a, x = .ok a → P) (hok : x.isOk) :
    P := by
  cases x with
  | ok a => exact h a rfl
  | error e => cases hok

/- Two pages, one with a node below it. -/
def pages : Upstream where
  nodes := [{ id := "p", name := "Page" },{ id := "q", name := "Other" },
    { id := "c", name := "Child", parentId := some "p" }]

def thirdOnly : List IndexOp := [.ingest [{ id := "r", name := "Third" }]]

/-- The pages are not indexed: none of the calls touches the entry of another page. -/
theorem unindexed_parents :
    let s := Server.after asciiLowercase {} thirdOnly
    let r := (Server.createNode asciiLowercase s { name := "New", parentId := some "p" } (fun _ => none)
      none).run Service.reliable.serve pages
    let m := (Server.moveNode s "c" "q" none).run Service.reliable.serve pages
    let k := (Server.createMirror asciiLowercase Char.isAlphanum s "c" (some "q") none none none).run
      Service.reliable.serve pages
    let i := (Server.insertContent asciiLowercase s RETRY_MAX_ATTEMPTS (some "p") [⟨"a",0⟩,⟨"b",1⟩]).run
      (Service.reliable.answer {}) pages
    Framed (newcomers pages r.2) ["p"] s.nameIndex r.1.2.nameIndex ∧
      Framed ["c"] ["q","p"] s.nameIndex m.1.2.nameIndex ∧
      Framed (newcomers pages k.2) ["q"] s.nameIndex k.1.2.nameIndex ∧
      Framed (newcomers pages i.2) ["p"] s.nameIndex i.1.2.nameIndex := by
  obtain ⟨hcreate,hmove,hmirror,hinsert,-⟩ := tools_framed_iff asciiLowercase Char.isAlphanum {}
    thirdOnly Service.reliable pages
  have hpages : ∀ x∈["p","q","c"], ¬(Server.after asciiLowercase {} thirdOnly).nameIndex.Indexed x := by
    decide +kernel
  have hyields {p : String} (hp : p∈["p","q","c"]) (n : WorkflowyNode) :
      Yields asciiLowercase (Server.after asciiLowercase {} thirdOnly).nameIndex [p] n :=
    .of_unindexed (hashed_run _)
      (fun x hx => List.mem_singleton.mp hx ▸ hpages p hp) n
  refine ⟨(of_isOk (hcreate { name := "New", parentId := some "p" } (fun _ => none) none)
      (by decide +kernel)).mpr (.inr fun p hp => hpages p (by simp [Option.some.inj hp.symm])),
    (of_isOk (hmove "c" "q" none) (by decide +kernel)).mpr ?_,
    (hmirror "c" (some "q") none none none (.ok ⟨"nnnnn","c",some "q","Child",
      "ORPHAN_canonical_lacks_marker",false⟩) (by decide +kernel) ?_).mpr
        ⟨.inr (hpages "c" (by simp)),.of_forall (Told.of_forall (hyields (by simp))) _ _ _⟩,
    (of_isOk (hinsert {} RETRY_MAX_ATTEMPTS (some "p") [⟨"a",0⟩,⟨"b",1⟩])
      (by decide +kernel)).mpr (.of_forall (Heard.of_forall (hyields (by simp))) _ _ _)⟩
  · rintro p (rfl | ⟨n,hn,hp⟩) -
    · exact hpages "q" (by simp)
    · obtain rfl : _ = n := Except.ok.inj hn
      obtain rfl : "p" = p := Option.some.inj hp
      exact hpages "p" (by simp)
  · rintro result ⟨rfl⟩
    rfl

/-- With the pages indexed, a create and a move bury the parents, and a mirror its canonical. -/
theorem parents_lost :
    let s := Server.after asciiLowercase {} [.ingest pages.nodes]
    let r := (Server.createNode asciiLowercase s { name := "New", parentId := some "p" } (fun _ => none)
      none).run Service.reliable.serve pages
    let m := (Server.moveNode s "c" "q" none).run Service.reliable.serve pages
    let k := (Server.createMirror asciiLowercase Char.isAlphanum s "c" (some "q") none none none).run
      Service.reliable.serve pages
    (r.1.1.isOk ∧ "p"∉newcomers pages r.2 ∧ s.nameIndex.lookupEntryById "p" ≠ none ∧
      r.1.2.nameIndex.lookupEntryById "p" = none ∧ "p"∈r.1.2.nameIndex.tombstones) ∧
    (m.1.1.isOk ∧ (∀ x∈["p","q"], s.nameIndex.lookupEntryById x ≠ none ∧
      m.1.2.nameIndex.lookupEntryById x = none ∧ x∈m.1.2.nameIndex.tombstones)) ∧
    (k.1.1.isOk ∧ "c"∉newcomers pages k.2 ∧ s.nameIndex.lookupEntryById "c" ≠ none ∧
      k.1.2.nameIndex.lookupEntryById "c" = none ∧ "c"∈k.1.2.nameIndex.tombstones) := by
  decide +kernel

end WorkflowyMcp.IndexFrame
