import WorkflowyMcp.ServerCreates
import WorkflowyMcp.StoreLedger

/-! The nodes a workflow books as created are those the upstream told it of: what holds of
every answered create holds of every booked node, and the other way round. -/
namespace WorkflowyMcp

/-- What an answer tells of a created node satisfies `ok`. -/
def Told (ok : WorkflowyNode → Prop) : (q : ApiCall) → ApiReply q → Prop
  | .createNode name description parentId _ _,.ok (some id) =>
    ok { id, name, description, parentId }
  | _,_ => True

def Heard (ok : WorkflowyNode → Prop) : (a : Ask) → Answer a → Prop
  | .send q,r => Told ok q r
  | _,_ => True

theorem Told.error {ok : WorkflowyNode → Prop} (q : ApiCall) (e : WorkflowyError) :
    Told ok q (.error e) := by
  cases q <;> trivial

/- From `u` to `v` the store gained the nodes listed, and possibly others; `answers` says that
   all that was told of new nodes satisfies `ok`. -/
structure Books (ok : WorkflowyNode → Prop) (u v : Upstream) (answers : Prop)
    (nodes : List WorkflowyNode) : Prop where
  gained : ∀ n∈nodes, ¬u.Has n.id ∧ v.Has n.id
  keeps : ∀ id, u.Has id → v.Has id
  answers : answers ↔ ∀ n∈nodes, ok n

theorem Told.of_forall {ok : WorkflowyNode → Prop} (h : ∀ n, ok n) (q : ApiCall) (r : ApiReply q) :
    Told ok q r := by
  unfold Told
  split
  · exact h _
  · trivial

theorem Heard.of_forall {ok : WorkflowyNode → Prop} (h : ∀ n, ok n) (a : Ask) (r : Answer a) :
    Heard ok a r := by
  cases a with
  | send q => exact Told.of_forall h q r
  | isCancelled | isPastDeadline | retryAfterRemainingMs | acquire | backoff => trivial

theorem Told.getNode (ok : WorkflowyNode → Prop) (id : String) (r : ApiReply (.getNode id)) :
    Told ok (.getNode id) r := trivial

theorem told_created {ok : WorkflowyNode → Prop} (name : String)
    (description parentId : Option String)
    (priority : Option Int) (layout : Option String) (id : String) :
    Told ok (.createNode name description parentId priority layout) (.ok (some id)) ↔
      ok { id, name, description, parentId } := .rfl

namespace Books
variable {ok : WorkflowyNode → Prop} {u v w : Upstream} {a b : Prop} {ns ms : List WorkflowyNode}

theorem nothing (u : Upstream) : Books ok u u True [] := ⟨by simp,fun _ h => h,by simp⟩

theorem trans (h : Books ok u v a ns) (h' : Books ok v w b ms) : Books ok u w (a ∧ b) (ns++ms) where
  gained n hn := by
    rcases List.mem_append.mp hn with hn | hn
    · exact ⟨(h.gained n hn).1,h'.keeps n.id (h.gained n hn).2⟩
    · exact ⟨fun hu => (h'.gained n hn).1 (h.keeps n.id hu),(h'.gained n hn).2⟩
  keeps id hid := h'.keeps id (h.keeps id hid)
  answers := by rw [h.answers,h'.answers,List.forall_mem_append]

/-- What goes before and neither makes nor takes a node, and is told of none. -/
theorem after (h : Books ok v w b ns) (hsame : ∀ id, v.Has id ↔ u.Has id) (ha : a) :
    Books ok u w (a ∧ b) ns where
  gained n hn := ⟨mt (hsame n.id).mpr (h.gained n hn).1,(h.gained n hn).2⟩
  keeps id hid := h.keeps id ((hsame id).mpr hid)
  answers := (and_iff_right ha).trans h.answers

theorem newcomers (h : Books ok u v a ns) {n : WorkflowyNode} (hn : n∈ns) : n.id∈newcomers u v :=
  mem_newcomers.mpr (h.gained n hn).symm

end Books

section create
variable (ok : WorkflowyNode → Prop) {svc : Service} {u : Upstream}

/-- A create that is answered with an id. -/
theorem books_serve {name : String} {description parentId : Option String} {priority : Option Int}
    {layout r : Option String}
    (hr : (svc.serve (.createNode name description parentId priority layout) u).1 = .ok r) :
    let q := ApiCall.createNode name description parentId priority layout
    ∃ id, r = some id ∧ (∀ p, parentId = some p → u.Has p) ∧
      Books ok u (svc.serve q u).2 (Told ok q (svc.serve q u).1) [{ id, name, description, parentId }] := by
  intro q
  obtain ⟨id,rfl,hnew,hhas⟩ := svc.has_serve_create hr
  refine ⟨id,rfl,fun p hp => ?_,?_,fun x hx => (hhas x).mpr (.inl hx),?_⟩
  · obtain ⟨-,ha⟩ := svc.serve_ok hr
    by_contra hno
    simp only [Upstream.Has,Bool.not_eq_true] at hno
    simp [Service.apply,hp,hno] at ha
  · simpa using ⟨hnew,(hhas id).mpr (.inr rfl)⟩
  · rw [hr]
    exact (List.forall_mem_singleton (p := ok)).symm

end create

section mirror
variable (ok : WorkflowyNode → Prop) (svc : Service) {toLowercase : String → String}
  {isWord : Char → Bool}

theorem books_annotate (canonicalId canonicalDesc : String) (marked : Bool) (pillar : Option String)
    (u : Upstream) :
    let p := annotateCanonical canonicalId canonicalDesc marked pillar
    Books ok u (p.run svc.serve u).2 (p.Answers (Told ok) svc.serve u) [] := by
  intro p
  cases pillar with
  | none => exact .nothing u
  | some pillar =>
    cases marked with
    | true => exact .nothing u
    | false =>
      refine ⟨by simp,fun id hid => ?_,iff_of_true ⟨trivial,trivial⟩ (by simp)⟩
      exact (svc.has_serve_mild (q := .postNode canonicalId none (some _) none) trivial id).mpr hid

/-- A mirror that left its canonical unmarked names the canonical and books the mirror. -/
theorem books_createMirror {canonicalId : String} {targetParentId : Option String}
    {priority : Option Int} {pillar : Option String} {u : Upstream} {result : CreateMirrorResult}
    {fp : MutationFootprint} (hr : ((createMirrorViaConvention toLowercase isWord canonicalId
      targetParentId priority pillar).run svc.serve u).1 = .ok (result,fp))
    (hplain : result.annotatedCanonical = false) :
    let p := createMirrorViaConvention toLowercase isWord canonicalId targetParentId priority pillar
    fp.invalidatedNameIndex = [canonicalId] ∧ u.Has canonicalId ∧
      (∀ p, targetParentId = some p → u.Has p) ∧
      Books ok u (p.run svc.serve u).2 (p.Answers (Told ok) svc.serve u) fp.createdNodes := by
  intro p
  revert hr
  simp only [p,createMirrorViaConvention]
  cases refuseSelfMirror canonicalId targetParentId with
  | error e =>
    intro hr
    cases hr
  | ok pass =>
    simp only [Client.getNode,Client.createNode,Client.request,Proc.bind_eq,Proc.call_bind,
      Proc.ret_bind,Proc.pure_eq,Proc.run_call,Proc.Answers]
    cases hget : (svc.serve (.getNode canonicalId) u).1 with
    | error e =>
      intro hr
      cases hr
    | ok canonical =>
      have hcanonical : u.Has canonicalId := by
        rw [Service.has_facts,(svc.serve_getNode_ok hget).1]
        rfl
      have hmild := svc.has_serve_mild (u := u) (q := .getNode canonicalId) trivial
      simp only [Proc.run_call,Proc.Answers]
      generalize (svc.serve (.getNode canonicalId) u).2 = u1 at hmild ⊢
      cases hs : (svc.serve (.createNode canonical.name (some ("mirror_of: " ++ canonicalId))
          targetParentId priority none) u1).1 with
      | error e =>
        intro hr
        cases hr
      | ok reply =>
        obtain ⟨id,rfl,hparent,hb⟩ := books_serve ok hs
        rw [hs] at hb
        simp only [Client.createdNode,Proc.run_bind,Proc.answers_bind,Proc.run_ret,Proc.Answers,
          and_true]
        have hann := books_annotate ok svc canonicalId
          (canonical.description.getD "") (extractMarker toLowercase isWord
            (canonical.description.getD "") "canonical_of:").isSome (normalisePillar pillar)
          (svc.serve (.createNode canonical.name (some ("mirror_of: " ++ canonicalId))
            targetParentId priority none) u1).2
        generalize annotateCanonical canonicalId (canonical.description.getD "") _ _ = ann at hann ⊢
        intro hr
        obtain ⟨rfl,rfl⟩ := Prod.mk.inj (Except.ok.inj hr)
        simp only at hplain
        rw [if_neg (by simp [hplain])]
        refine ⟨by cases targetParentId <;> rfl,hcanonical,fun p hp => (hmild p).mp (hparent p hp),?_⟩
        have hall := (hb.trans hann).after hmild (Told.getNode ok canonicalId (.ok canonical))
        cases targetParentId <;> exact hall

end mirror

namespace DeepCopy
variable (ok : WorkflowyNode → Prop) {svc : Service} {u : Upstream}
  {transform : WorkflowyNode → String × Option String} {parent : String}

theorem books_copyNode {node : WorkflowyNode} {st : CopyState} {r : String × CopyState}
    (hr : ((copyNode transform parent node st).run svc.serve u).1 = .ok r) :
    ∃ n, r.2.footprint.invalidatedNameIndex = st.footprint.invalidatedNameIndex ∧
      r.2.footprint.createdNodes = st.footprint.createdNodes++[n] ∧ u.Has parent ∧
      Books ok u ((copyNode transform parent node st).run svc.serve u).2
        ((copyNode transform parent node st).Answers (Told ok) svc.serve u) [n] := by
  simp only [copyNode,Client.createNode,Client.request,Proc.bind_eq,Proc.call_bind,Proc.ret_bind,
    Proc.pure_eq,Proc.run_call,Proc.Answers] at hr ⊢
  cases hs : (svc.serve (.createNode (transform node).1 (transform node).2 (some parent) none none)
      u).1 with
  | error e =>
    rw [hs] at hr
    cases hr
  | ok reply =>
    obtain ⟨id,rfl,hparent,hb⟩ := books_serve ok hs
    rw [hs] at hr hb
    obtain rfl := Except.ok.inj hr
    exact ⟨_,rfl,rfl,hparent parent rfl,by simpa [Client.createdNode,Proc.Answers] using hb⟩

theorem books_copyQueue {ctx : WorkflowContext} {all queue : List WorkflowyNode}
    {newRootId : String} {fuel : Nat} {st st' : CopyState}
    (hr : ((copyQueue transform ctx all newRootId fuel queue st).run svc.serve u).1 =
      some (.ok st')) :
    ∃ ns, st'.footprint.invalidatedNameIndex = st.footprint.invalidatedNameIndex ∧
      st'.footprint.createdNodes = st.footprint.createdNodes++ns ∧
      Books ok u ((copyQueue transform ctx all newRootId fuel queue st).run svc.serve u).2
        ((copyQueue transform ctx all newRootId fuel queue st).Answers (Told ok) svc.serve u) ns := by
  induction fuel generalizing queue st u with
  | zero =>
    cases queue with
    | nil =>
      obtain rfl : st = st' := by simpa [copyQueue] using hr
      exact ⟨[],rfl,by simp,by simpa [copyQueue,Proc.Answers] using Books.nothing u⟩
    | cons node queue => cases hr
  | succ fuel ih =>
    cases queue with
    | nil =>
      obtain rfl : st = st' := by simpa [copyQueue] using hr
      exact ⟨[],rfl,by simp,by simpa [copyQueue,Proc.Answers] using Books.nothing u⟩
    | cons node queue =>
      simp only [copyQueue] at hr ⊢
      split at hr
      · cases hr
      · split at hr
        · cases hr
        · rename_i hwanted hintime
          simp only [hwanted,hintime,Bool.false_eq_true,if_false,Proc.bind_eq,Proc.run_bind,
            Proc.answers_bind] at hr ⊢
          cases hc : ((copyNode transform (st.newParent newRootId node) node st).run svc.serve u).1 with
          | error e =>
            rw [hc] at hr
            cases hr
          | ok r =>
            obtain ⟨n,hnamed,hmade,-,hb⟩ := books_copyNode ok hc
            rw [hc] at hr
            obtain ⟨ns,hnamed',hmade',hb'⟩ := ih hr
            exact ⟨n::ns,hnamed'.trans hnamed,by simp [hmade',hmade],hb.trans hb'⟩

/-- What a copy returns as created are the nodes it was told of. -/
theorem books_deepCopySubtree {w : SubtreeWalk.WalkEnv} {fuel walkDepth nodesCreated : Nat}
    {sourceId targetParentId truncationRefusalLabel notFoundLabel newRootId : String}
    {ctx : WorkflowContext} {fp : MutationFootprint}
    (hr : ((deepCopySubtree transform w fuel sourceId targetParentId walkDepth
      truncationRefusalLabel notFoundLabel ctx).run svc.serve u).1 =
        some (.ok (newRootId,nodesCreated,fp))) :
    let p := deepCopySubtree transform w fuel sourceId targetParentId walkDepth
      truncationRefusalLabel notFoundLabel ctx
    fp.invalidatedNameIndex = [] ∧ u.Has targetParentId ∧
      Books ok u (p.run svc.serve u).2 (p.Answers (Told ok) svc.serve u) fp.createdNodes := by
  intro p
  revert hr
  simp only [p,deepCopySubtree]
  split
  · intro hr
    cases hr
  · rename_i fetch hfetch
    split
    · intro hr
      cases hr
    · split
      · intro hr
        cases hr
      · rename_i root hroot
        simp only [Proc.bind_eq,Proc.run_bind,Proc.answers_bind]
        intro hr
        cases hc : ((copyNode transform targetParentId root
            { footprint := MutationFootprint.invalidateCacheOnly {} targetParentId }).run
            svc.serve u).1 with
        | error e =>
          rw [hc] at hr
          cases hr
        | ok r =>
          obtain ⟨n,hnamed,hmade,htarget,hb⟩ := books_copyNode ok hc
          rw [hc] at hr
          simp only [Proc.run_bind,Proc.answers_bind,Proc.pure_eq,Proc.run_ret,Proc.Answers,
            and_true] at hr ⊢
          obtain ⟨reply,hq,hmap⟩ := Option.map_eq_some_iff.mp hr
          cases reply with
          | error e => cases hmap
          | ok st =>
            obtain ⟨ns,hnamed',hmade',hb'⟩ := books_copyQueue ok hq
            obtain ⟨-,-,rfl⟩ := by simpa [Except.map] using hmap
            refine ⟨hnamed'.trans hnamed,htarget,?_⟩
            rw [hmade',hmade]
            exact hb.trans hb'

end DeepCopy

section net
variable {ok : WorkflowyNode → Prop} {σ : Type} {srv : Proc.Server Ask Answer σ} {q : ApiCall}
  {p : Net (ApiReply q)} {s : σ}

/-- All that a call over attempts is told of a new node is in the reply it passes on. -/
def Passes (ok : WorkflowyNode → Prop) (srv : Proc.Server Ask Answer σ) (q : ApiCall)
    (p : Net (ApiReply q)) (s : σ) : Prop :=
  p.Answers (Heard ok) srv s ↔ Told ok q (p.run srv s).1

theorem Heard.quiet {a : Ask} (ha : ∀ q, a≠.send q) (r : Answer a) : Heard ok a r := by
  cases a with
  | send q => exact absurd rfl (ha q)
  | isCancelled | isPastDeadline | retryAfterRemainingMs | acquire | backoff => trivial

theorem Passes.aborted (e : WorkflowyError) (s : σ) : Passes ok srv q (.ret (.error e)) s :=
  iff_of_true trivial (Told.error q e)

theorem Passes.quiet {a : Ask} (ha : ∀ q, a≠.send q) {k : Answer a → Net (ApiReply q)}
    (h : ∀ r s', Passes ok srv q (k r) s') : Passes ok srv q (.call () a k) s := by
  rw [Passes,Proc.Answers,Proc.run_call]
  exact (and_iff_right (Heard.quiet ha _)).trans (h _ _)

theorem Passes.bind (h : Passes ok srv q p s) {f : ApiReply q → Net (ApiReply q)}
    (hok : ∀ r, f (.ok r) = .ret (.ok r)) (herror : ∀ e s', Passes ok srv q (f (.error e)) s') :
    Passes ok srv q (p.bind f) s := by
  rw [Passes,Proc.answers_bind,Proc.run_bind]
  rw [Passes] at h
  cases hr : (p.run srv s).1 with
  | ok r =>
    rw [hr] at h
    simpa [hok,Proc.Answers] using h
  | error e =>
    rw [hr] at h
    exact (and_iff_right (h.mpr (Told.error q e))).trans (herror e _)

theorem passes_sendAttempt (s : σ) : Passes ok srv q (Client.sendAttempt q) s := by
  exact Client.sendAttempt_keeps .aborted (fun _ ha _ _ h => .quiet ha h)
    (fun _ => iff_of_eq (and_true _)) s

theorem passes_requestLoop (attempt left : Nat) (s : σ) :
    Passes ok srv q (Client.requestLoop q attempt left) s := by
  induction left generalizing attempt s with
  | zero =>
    exact (passes_sendAttempt s).bind (fun _ => rfl) fun e s => .aborted (Client.giveUp attempt e) s
  | succ left ih =>
    refine (passes_sendAttempt s).bind (fun _ => rfl) fun e s => ?_
    simp only
    split
    · refine .quiet (by simp) fun abort s => ?_
      cases abort with
      | error abort => exact .aborted abort s
      | ok u => exact ih (attempt+1) s
    · exact .aborted _ s

theorem passes_requestCancellable (maxAttempts : Nat) (s : σ) :
    Passes ok srv q (Client.requestCancellable maxAttempts q) s := by
  refine .quiet (by simp) fun remaining s => ?_
  cases remaining with
  | some remainingMs => exact .aborted _ s
  | none => exact passes_requestLoop 1 (maxAttempts-1) s

variable (ok srv) in
/-- A create call is told of no node unless it returns it. -/
theorem answers_createNodeCancellable (maxAttempts : Nat) (name : String)
    (description parentId : Option String) (priority : Option Int)
    (layout : Option String) (s : σ) :
    let p := Client.createNodeCancellable maxAttempts name description parentId priority layout
    p.Answers (Heard ok) srv s ↔
      ∀ c, (p.run srv s).1 = .ok c → ok { id := c.id, name, description, parentId } := by
  have h : Passes ok srv (.createNode name description parentId priority layout) _ s :=
    passes_requestCancellable maxAttempts s
  simp only [Client.createNodeCancellable,Proc.bind_eq,Proc.answers_bind,Proc.run_bind,Proc.pure_eq,
    Proc.run_ret,Proc.Answers,and_true]
  refine h.trans ?_
  generalize ((Client.requestCancellable maxAttempts
    (.createNode name description parentId priority layout)).run srv s).1 = reply
  rcases reply with e | _ | id
  · simp [Told,Client.createdNode]
  · simp [Told,Client.createdNode]
  · refine (told_created name description parentId priority layout id).trans ?_
    simp [Client.createdNode]

end net

namespace InsertContent
variable {ok : WorkflowyNode → Prop} {svc : Service} {conn : Connection} {u : Upstream}
  {p : Progress} {line : ParsedLine}

/-- What a part of the batch books are the nodes it is told of. -/
def Booking (ok : WorkflowyNode → Prop) (svc : Service) (conn : Connection) (p : Progress)
    (prog : Net (Progress × Option Bailout)) (u : Upstream) : Prop :=
  ∃ ns, (prog.run (svc.answer conn) u).1.1.footprint.invalidatedNameIndex =
      p.footprint.invalidatedNameIndex ∧
    (prog.run (svc.answer conn) u).1.1.footprint.createdNodes = p.footprint.createdNodes++ns ∧
    Books ok u (prog.run (svc.answer conn) u).2 (prog.Answers (Heard ok) (svc.answer conn) u) ns

theorem Booking.stop (p : Progress) (b : Option Bailout) (u : Upstream) :
    Booking ok svc conn p (.ret (p,b)) u := ⟨[],rfl,by simp,Books.nothing u⟩

theorem Booking.quiet {a : Ask} (ha : ∀ q, a≠.send q)
    {k : Answer a → Net (Progress × Option Bailout)}
    (h : ∀ r u', Booking ok svc conn p (k r) u') : Booking ok svc conn p (.call () a k) u := by
  obtain ⟨ns,hnamed,hmade,hb⟩ := h (svc.answer conn a u).1 (svc.answer conn a u).2
  have hsame (id : String) : (svc.answer conn a u).2.Has id ↔ u.Has id :=
    Service.has_of_nodes ((svc.world conn).quiet a u ha)
  exact ⟨ns,hnamed,hmade,hb.after hsame (Heard.quiet ha _)⟩

theorem booking_afterError {next : String → Net (Progress × Option Bailout)} (e : WorkflowyError)
    (u : Upstream) : Booking ok svc conn p (afterCreate p line next (.error e)) u := by
  unfold afterCreate
  split
  · rename_i heq
    cases heq
  · exact .stop p _ u
  · exact .stop p _ u
  · refine .quiet (by simp) fun cancelled u => ?_
    cases cancelled with
    | true => exact .stop p _ u
    | false =>
      refine .quiet (by simp) fun late u => ?_
      cases late with
      | true => exact .stop p _ u
      | false => exact .stop p _ u

theorem booking_create (maxAttempts idx : Nat) {next : String → Net (Progress × Option Bailout)}
    (hnext : ∀ id u, Booking ok svc conn (p.record line id) (next id) u) (u : Upstream) :
    Booking ok svc conn p ((Client.createNodeCancellable maxAttempts line.text none (p.lineParent line)
      (some (idx : Int)) none).bind (afterCreate p line next)) u := by
  obtain ⟨g,h⟩ := World.created_createNodeCancellable (w := svc.world conn) line.text none
    (p.lineParent line) (some (idx : Int)) none maxAttempts u
  have hanswers := answers_createNodeCancellable ok (svc.answer conn) maxAttempts line.text none
    (p.lineParent line) (some (idx : Int)) none u
  generalize Client.createNodeCancellable maxAttempts line.text none (p.lineParent line)
    (some (idx : Int)) none = create at h hanswers ⊢
  have hnodes : (create.run (svc.answer conn) u).2.nodes = u.nodes++World.copies _ g :=
    h.gains.nodes
  have hkeeps (id : String) (hid : u.Has id) : (create.run (svc.answer conn) u).2.Has id := by
    rw [Upstream.has_iff] at hid ⊢
    rw [hnodes,List.map_append]
    exact List.mem_append_left _ hid
  simp only [Booking,Proc.run_bind,Proc.answers_bind]
  cases hreply : (create.run (svc.answer conn) u).1 with
  | error e =>
    obtain ⟨ns,hnamed,hmade,hb⟩ : Booking ok svc conn p (afterCreate p line next (.error e))
        (create.run (svc.answer conn) u).2 := booking_afterError e _
    refine ⟨ns,hnamed,hmade,fun n hn => ?_,fun id hid => hb.keeps id (hkeeps id hid),?_⟩
    · exact ⟨fun hu => (hb.gained n hn).1 (hkeeps n.id hu),(hb.gained n hn).2⟩
    · have hquiet := hanswers.mpr fun c hc => by simp [hreply] at hc
      exact (and_iff_right hquiet).trans hb.answers
  | ok c =>
    obtain ⟨hlast,-⟩ := h.ok c hreply
    have hmem := List.mem_of_getLast? hlast
    obtain ⟨ns,hnamed,hmade,hb⟩ := hnext c.id (create.run (svc.answer conn) u).2
    have hcreate : Books ok u (create.run (svc.answer conn) u).2
        (create.Answers (Heard ok) (svc.answer conn) u)
        [{ id := c.id, name := line.text, parentId := p.lineParent line }] := by
      refine ⟨fun n hn => ?_,hkeeps,?_⟩
      · obtain rfl := List.mem_singleton.mp hn
        rw [Upstream.has_iff,Upstream.has_iff,hnodes,List.map_append]
        refine ⟨fun hu => ?_,List.mem_append_right _ (by simpa using hmem)⟩
        obtain ⟨m,hm,hid⟩ := List.mem_map.mp hu
        exact ((h.gains.fresh c.id hmem).1 m hm).1 hid
      · simpa [hreply] using hanswers
    refine ⟨_,hnamed,hmade.trans ?_,hcreate.trans hb⟩
    simp [Progress.record,MutationFootprint.recordCreated]

theorem booking_insertLines (maxAttempts : Nat) (lines : List ParsedLine) (idx : Nat) (p : Progress)
    (u : Upstream) : Booking ok svc conn p (insertLines maxAttempts lines idx p) u := by
  induction lines generalizing idx p u with
  | nil => exact .stop p none u
  | cons line lines ih =>
    refine .quiet (a := .isCancelled .beforeLine) (by simp) fun cancelled u => ?_
    cases cancelled with
    | true => exact .stop p _ u
    | false =>
      refine .quiet (a := .isPastDeadline .beforeLine) (by simp) fun late u => ?_
      cases late with
      | true => exact .stop p _ u
      | false =>
        exact booking_create maxAttempts idx (fun id u => ih (idx+1) (p.record line id) u) u

/-- No node that is made, booked or not, has the id of an open parent. -/
theorem apart_insertLines {σ : Type} {w : World σ} (maxAttempts : Nat) (lines : List ParsedLine)
    (idx : Nat) (p : Progress) (s : σ) (x : Option String)
    (hx : p.parentStack = [x] ∨ ∃ n∈w.nodes s, n.parentId = x) :
    ∀ n∈w.nodes ((insertLines maxAttempts lines idx p).run w.serve s).2, n∈w.nodes s ∨
      x≠some n.id := by
  induction lines generalizing idx p s with
  | nil => exact fun n hn => .inl hn
  | cons line lines ih =>
    have hgained {s' : σ} {g : List String} (hg : w.Gains (World.template line.text none
        (p.lineParent line) (some (idx : Int))) s s' g) : ∀ n∈w.nodes s', n∈w.nodes s ∨
          x≠some n.id := by
      intro n hn
      rw [hg.nodes] at hn
      refine (List.mem_append.mp hn).imp_right fun hn => ?_
      obtain ⟨id,hid,rfl⟩ := List.mem_map.mp hn
      rcases hx with hx | ⟨m,hm,rfl⟩
      · have hp : p.lineParent line = x := by simp [Progress.lineParent,Progress.indentOf,hx]
        exact hp ▸ (hg.fresh id hid).2
      · exact ((hg.fresh id hid).1 m hm).2
    rcases insertLines_cons (w := w) maxAttempts line lines idx p s with ⟨b,g,h⟩ | ⟨id,g,s',h⟩
    · exact hgained h.gains
    · have hused : ∃ n∈w.nodes s', n.parentId = x := by
        rw [h.gains.nodes]
        rcases hx with hx | ⟨n,hn,rfl⟩
        · have hid := List.mem_of_getLast? h.last
          refine ⟨_,List.mem_append_right _ (List.mem_map.mpr ⟨id,hid,rfl⟩),?_⟩
          simp [Progress.lineParent,Progress.indentOf,hx]
        · exact ⟨n,List.mem_append_left _ hn,rfl⟩
      rw [h.run]
      intro n hn
      rcases ih (idx+1) (p.record line id) s' (.inr hused) n hn with hn | hn
      · exact hgained h.gains n hn
      · exact .inr hn

end InsertContent

end WorkflowyMcp
