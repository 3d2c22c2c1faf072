import WorkflowyMcp.Lib.HeadMoves
import WorkflowyMcp.ClientEffects
import WorkflowyMcp.DeepCopy

/-! `reorder_nodes_via_priority`: the list is walked from its end and each node is moved to
the head of the parent's children. -/
namespace WorkflowyMcp.Reorder
open DeepCopy (WorkflowContext)

def MAX_REORDER_NODES : Nat := 200

inductive ReorderPartialReason where
  | Cancelled
  | Timeout
deriving DecidableEq, Repr

inductive ReorderEntry where
  | Ok (nodeId : String)
  | Error (nodeId error : String)
  | Skipped (nodeId : String)
deriving DecidableEq, Repr

def ReorderEntry.nodeId : ReorderEntry → String
  | .Ok nodeId | .Error nodeId _ | .Skipped nodeId => nodeId

inductive ReorderOutcome where
  | Complete (parentId : String) (attempted succeeded failed : Nat) (results : List ReorderEntry)
  | Partial (parentId : String) (reason : ReorderPartialReason)
      (attempted succeeded failed skipped : Nat) (results : List ReorderEntry)
deriving DecidableEq, Repr

namespace ReorderOutcome

def succeeded : ReorderOutcome → Nat
  | .Complete _ _ succeeded _ _ | .Partial _ _ _ succeeded _ _ _ => succeeded

def failed : ReorderOutcome → Nat
  | .Complete _ _ _ failed _ | .Partial _ _ _ _ failed _ _ => failed

/-- A complete outcome has no field for it: nothing was skipped. -/
def skipped : ReorderOutcome → Nat
  | .Complete .. => 0
  | .Partial _ _ _ _ _ skipped _ => skipped

def results : ReorderOutcome → List ReorderEntry
  | .Complete _ _ _ _ results | .Partial _ _ _ _ _ _ results => results

end ReorderOutcome

section validation

def emptyIds : WorkflowyError := .InvalidInput "node_ids must not be empty"

def tooManyIds (length : Nat) : WorkflowyError :=
  .InvalidInput ("node_ids length " ++ toString length ++ " exceeds the " ++
    toString MAX_REORDER_NODES ++ "-id cap. Split into batches of ≤" ++
    toString MAX_REORDER_NODES ++ " ids and call reorder_nodes once per batch (each batch " ++
    "lands at the head of the parent's children at call time, so the LAST batch ends up " ++
    "first; order your batches accordingly).")

def duplicateId (id : String) : WorkflowyError :=
  .InvalidInput ("node_ids contains duplicate `" ++ id ++ "` — order is undefined for " ++
    "duplicates and re-moving the same node within one call is a no-op. Pass each id at most once.")

def ownChild (id : String) : WorkflowyError :=
  .InvalidInput ("node_ids contains parent_id `" ++ id ++ "` — a node cannot be its own child.")

def checkIds (parentId : String) (seen : List String) : List String → Except WorkflowyError Unit
  | [] => .ok ()
  | id::ids =>
    if id ∈ seen then .error (duplicateId id)
    else if id = parentId then .error (ownChild id)
    else checkIds parentId (id::seen) ids

end validation

/-- The loop's locals. -/
structure ReorderState where
  results : List (Option ReorderEntry)
  succeeded : Nat := 0
  failed : Nat := 0
  bailed : Option ReorderPartialReason := none

namespace ReorderState

def bookOk (st : ReorderState) (idx : Nat) (id : String) : ReorderState :=
  { st with results := st.results.set idx (some (.Ok id)), succeeded := st.succeeded+1 }

def bookError (st : ReorderState) (idx : Nat) (id : String) (e : WorkflowyError) : ReorderState :=
  { st with results := st.results.set idx (some (.Error id e.display)), failed := st.failed+1 }

/-- The ids the loop never reached are filled in as skipped. -/
def finish (st : ReorderState) (parentId : String) (nodeIds : List String) : ReorderOutcome :=
  let results := (nodeIds.zip st.results).map fun (id,r) => r.getD (.Skipped id)
  let skipped := st.results.countP Option.isNone
  let attempted := st.succeeded+st.failed
  match st.bailed with
  | none => .Complete parentId attempted st.succeeded st.failed results
  | some reason => .Partial parentId reason attempted st.succeeded st.failed skipped results

end ReorderState

section workflow
variable (ctx : WorkflowContext) (parentId : String)

/- The checks between two moves see the number of moves attempted before. -/
def reorderLoop : List (String × Nat) → ReorderState → Api ReorderState
  | [],st => return st
  | (id,idx)::rest,st =>
    if ctx.isCancelled (st.succeeded+st.failed) then
      return { st with bailed := some .Cancelled }
    else if ctx.isPastDeadline (st.succeeded+st.failed) then
      return { st with bailed := some .Timeout }
    else do
      match ← Client.moveNode id parentId (some 0) with
      | .ok () => reorderLoop rest (st.bookOk idx id)
      | .error e => reorderLoop rest (st.bookError idx id e)

def footprint (nodeIds : List String) : MutationFootprint :=
  nodeIds.foldl .invalidateNode (.invalidateCacheOnly {} parentId)

def reorderNodesViaPriority (nodeIds : List String) :
    Api (Except WorkflowyError (ReorderOutcome × MutationFootprint)) :=
  if nodeIds = [] then return .error emptyIds
  else if MAX_REORDER_NODES<nodeIds.length then return .error (tooManyIds nodeIds.length)
  else match checkIds parentId [] nodeIds with
    | .error e => return .error e
    | .ok () => do
      let st ← reorderLoop ctx parentId nodeIds.zipIdx.reverse
        { results := nodeIds.map fun _ => none }
      return .ok (st.finish parentId nodeIds,footprint parentId nodeIds)

end workflow

theorem checkIds_ok {parentId : String} {seen ids : List String} (hn : ids.Nodup)
    (hp : parentId ∉ ids) (hs : ∀ id ∈ ids, id ∉ seen) : checkIds parentId seen ids = .ok () := by
  induction ids generalizing seen with
  | nil => rfl
  | cons id ids ih =>
    have hid : id ∉ seen := hs id (by simp)
    have hne : id ≠ parentId := fun h => hp (by simp [h])
    have hrest : ∀ i ∈ ids, i ∉ id::seen := by
      intro i hi
      have hii : i ≠ id := fun h => (List.nodup_cons.mp hn).1 (h ▸ hi)
      simpa [hii] using hs i (by simp [hi])
    simp only [checkIds,hid,hne,if_false]
    exact ih (List.nodup_cons.mp hn).2 (fun h => hp (by simp [h])) hrest

namespace ReorderEntry

def isError : ReorderEntry → Bool
  | .Error .. => true
  | _ => false

def isSkipped : ReorderEntry → Bool
  | .Skipped _ => true
  | _ => false

def movedId : ReorderEntry → Option String
  | .Ok nodeId => some nodeId
  | _ => none

end ReorderEntry

/-- The ids reported as moved, in the order of the report. -/
def movedIds (entries : List ReorderEntry) : List String := entries.filterMap (·.movedId)

theorem movedIds_sublist (entries : List ReorderEntry) :
    (movedIds entries).Sublist (entries.map (·.nodeId)) := by
  induction entries with
  | nil => exact .slnil
  | cons e entries ih =>
    cases e with
    | Ok id => exact ih.cons_cons id
    | Error id text => exact ih.cons id
    | Skipped id => exact ih.cons id

/-- Every entry is of one of the three kinds. -/
theorem counts (entries : List ReorderEntry) :
    (movedIds entries).length+entries.countP (·.isError)+entries.countP (·.isSkipped) =
      entries.length := by
  induction entries with
  | nil => rfl
  | cons e entries ih =>
    cases e <;>
      simp only [movedIds,List.filterMap_cons,ReorderEntry.movedId,List.countP_cons,
        ReorderEntry.isError,ReorderEntry.isSkipped,List.length_cons] at ih ⊢ <;>
      simp <;> omega

/-- The report of a call: the ids the loop never reached, then those it tried. -/
def report (before : List String) (entries : List ReorderEntry) : List ReorderEntry :=
  before.map .Skipped ++ entries

section report
variable (before : List String) (entries : List ReorderEntry)

theorem report_ids :
    (report before entries).map (·.nodeId) = before ++ entries.map (·.nodeId) := by
  simp [report,Function.comp_def,ReorderEntry.nodeId]

theorem report_moved : movedIds (report before entries) = movedIds entries := by
  simp [report,movedIds,List.filterMap_append,List.filterMap_map,ReorderEntry.movedId]

theorem report_errors :
    (report before entries).countP (·.isError) = entries.countP (·.isError) := by
  simp [report,List.countP_append,List.countP_map,Function.comp_def,ReorderEntry.isError]

theorem report_skipped :
    (report before entries).countP (·.isSkipped) =
      before.length+entries.countP (·.isSkipped) := by
  simp [report,List.countP_append,List.countP_map,Function.comp_def,ReorderEntry.isSkipped]

end report

/-- A service whose nodes hang in ordered lists, where a move to position 0 takes the node
out of its list and puts it at the head of the new parent's, or fails with no effect. -/
structure OrderedLists (σ : Type) where
  serve : Proc.Server ApiCall ApiReply σ
  children : σ → String → List String
  move_ok : ∀ {id p s}, (serve (.moveNode id p (some 0)) s).1 = .ok () →
    children (serve (.moveNode id p (some 0)) s).2 = placed (children s) p [id]
  move_error : ∀ {id p s e}, (serve (.moveNode id p (some 0)) s).1 = .error e →
    children (serve (.moveNode id p (some 0)) s).2 = children s
  listing : ∀ p s, children (serve (.getChildren p) s).2 = children s

/- What the loop has done when the ids `after` are behind it and `before` are still to come:
   an entry for each of `after`, and the moved ones at the head of the parent's list. -/
structure Reached (lists : String → List String) (parentId : String)
    (before after : List String) (entries : List ReorderEntry) (st : ReorderState)
    (now : String → List String) : Prop where
  results : st.results = before.map (fun _ => none) ++ entries.map some
  ids : entries.map (·.nodeId) = after
  succeeded : st.succeeded = (movedIds entries).length
  failed : st.failed = entries.countP (·.isError)
  unskipped : entries.countP (·.isSkipped) = 0
  moved : now = placed lists parentId (movedIds entries)

namespace Reached
variable {lists now : String → List String} {parentId id : String} {before after : List String}
  {entries : List ReorderEntry} {st : ReorderState}

theorem slot (h : Reached lists parentId (before++[id]) after entries st now)
    (r : ReorderEntry) : st.results.set before.length (some r) =
      before.map (fun _ => none) ++ (r::entries).map some := by
  rw [h.results]
  simp

theorem bookOk (h : Reached lists parentId (before++[id]) after entries st now)
    (hid : id ∉ after) :
    Reached lists parentId before (id::after) (.Ok id::entries) (st.bookOk before.length id)
      (placed now parentId [id]) where
  results := h.slot _
  ids := by rw [List.map_cons,h.ids]; rfl
  succeeded := by rw [ReorderState.bookOk,h.succeeded]; rfl
  failed := h.failed
  unskipped := h.unskipped
  moved := by
    have hm : id ∉ movedIds entries := fun hi => hid (h.ids ▸ (movedIds_sublist entries).subset hi)
    rw [h.moved,HeadMoves.placed_cons lists parentId hm]
    rfl

theorem bookError (h : Reached lists parentId (before++[id]) after entries st now)
    (e : WorkflowyError) :
    Reached lists parentId before (id::after) (.Error id e.display::entries)
      (st.bookError before.length id e) now where
  results := h.slot _
  ids := by rw [List.map_cons,h.ids]; rfl
  succeeded := h.succeeded
  failed := by simp [ReorderState.bookError,h.failed,ReorderEntry.isError]
  unskipped := h.unskipped
  moved := h.moved

theorem finish_report (h : Reached lists parentId before after entries st now) :
    (((before++after).zip st.results).map fun (id,r) => r.getD (.Skipped id)) =
      report before entries := by
  have hbefore : ∀ ids : List String, ((ids.zip (ids.map fun _ => (none : Option ReorderEntry))).map
      fun (id,r) => r.getD (.Skipped id)) = ids.map .Skipped := by
    intro ids
    induction ids with
    | nil => rfl
    | cons id ids ih => simpa using ih
  have hafter : ∀ es : List ReorderEntry, (((es.map (·.nodeId)).zip (es.map some)).map
      fun (id,r) => r.getD (.Skipped id)) = es := by
    intro es
    induction es with
    | nil => rfl
    | cons e es ih => simpa using ih
  rw [h.results,← h.ids,List.zip_append (by simp),List.map_append,hbefore,hafter,report]

end Reached

/-- What a call that was not refused leaves and reports. -/
structure Settled (lists now : String → List String) (parentId : String) (nodeIds : List String)
    (outcome : ReorderOutcome) : Prop where
  aligned : outcome.results.map (·.nodeId) = nodeIds
  counted : outcome.succeeded+outcome.failed+outcome.skipped = nodeIds.length
  succeeded : outcome.succeeded = (movedIds outcome.results).length
  failed : outcome.failed = outcome.results.countP (·.isError)
  skipped : outcome.skipped = outcome.results.countP (·.isSkipped)
  ordered : (movedIds outcome.results).Sublist nodeIds
  head : now parentId =
    movedIds outcome.results ++ (lists parentId).filter (· ∉ movedIds outcome.results)
  others : ∀ q, q ≠ parentId → now q = (lists q).filter (· ∉ movedIds outcome.results)

namespace ReorderState
variable (st : ReorderState) (parentId : String) (nodeIds : List String)

@[simp] theorem finish_succeeded : (st.finish parentId nodeIds).succeeded = st.succeeded := by
  cases hb : st.bailed <;> simp [finish,hb,ReorderOutcome.succeeded]

@[simp] theorem finish_failed : (st.finish parentId nodeIds).failed = st.failed := by
  cases hb : st.bailed <;> simp [finish,hb,ReorderOutcome.failed]

theorem finish_results : (st.finish parentId nodeIds).results =
    (nodeIds.zip st.results).map fun (id,r) => r.getD (.Skipped id) := by
  cases hb : st.bailed <;> simp [finish,hb,ReorderOutcome.results]

theorem finish_skipped (h : st.bailed = none → st.results.countP Option.isNone = 0) :
    (st.finish parentId nodeIds).skipped = st.results.countP Option.isNone := by
  cases hb : st.bailed with
  | none => simp [finish,hb,ReorderOutcome.skipped,h hb]
  | some r => simp [finish,hb,ReorderOutcome.skipped]

theorem finish_skipped_of_going (h : st.bailed = none) :
    (st.finish parentId nodeIds).skipped = 0 := by
  simp [finish,h,ReorderOutcome.skipped]

end ReorderState

theorem Reached.settled {lists now : String → List String} {parentId : String}
    {before after : List String} {entries : List ReorderEntry} {st : ReorderState}
    (h : Reached lists parentId before after entries st now) (hb : st.bailed = none → before = []) :
    Settled lists now parentId (before++after) (st.finish parentId (before++after)) := by
  have hresults : (st.finish parentId (before++after)).results = report before entries := by
    rw [ReorderState.finish_results,h.finish_report]
  have haligned : (report before entries).map (·.nodeId) = before++after := by
    rw [report_ids,h.ids]
  have hnone : st.results.countP Option.isNone = before.length := by
    simp [h.results,List.countP_append,List.countP_map,List.countP_replicate]
  have hskipped : (st.finish parentId (before++after)).skipped = before.length := by
    rw [ReorderState.finish_skipped _ _ _ fun hn => by simp [hnone,hb hn],hnone]
  have hreport : (report before entries).countP (·.isSkipped) = before.length := by
    rw [report_skipped,h.unskipped,Nat.add_zero]
  have hlen : (report before entries).length = (before++after).length := by
    rw [← haligned,List.length_map]
  have hall := counts (report before entries)
  rw [report_moved,report_errors,hreport,hlen] at hall
  constructor
  · rw [hresults,haligned]
  · rw [ReorderState.finish_succeeded,ReorderState.finish_failed,hskipped,h.succeeded,h.failed,hall]
  · rw [ReorderState.finish_succeeded,hresults,report_moved,h.succeeded]
  · rw [ReorderState.finish_failed,hresults,report_errors,h.failed]
  · rw [hskipped,hresults,hreport]
  · have hsub := movedIds_sublist (report before entries)
    rwa [haligned,← hresults] at hsub
  · rw [hresults,report_moved,h.moved,HeadMoves.placed_self]
  · intro q hq
    rw [hresults,report_moved,h.moved,HeadMoves.placed_of_ne _ _ hq]

section run
variable {σ : Type} (up : OrderedLists σ) (ctx : WorkflowContext) (parentId : String)

theorem run_moveNode (id : String) :
    Client.AllOrNothing up.serve up.children (Client.moveNode id parentId (some 0))
      (fun k _ k' => k' = placed k parentId [id]) := by
  have hmove : Client.AllOrNothing up.serve up.children
      (Client.request (.moveNode id parentId (some 0)))
      (fun k _ k' => k' = placed k parentId [id]) :=
    fun _ => ⟨fun _ => up.move_ok,fun _ => up.move_error⟩
  exact Client.allOrNothing_moveLoop hmove (up.listing parentId) _

/-- The whole loop, from any point at which it has not stopped. -/
theorem run_reorderLoop {lists : String → List String} (before : List String) :
    ∀ {after : List String} {entries : List ReorderEntry} {st : ReorderState} {s : σ},
      (before++after).Nodup → st.bailed = none →
      Reached lists parentId before after entries st (up.children s) →
      ∃ left done entries', before++after = left++done ∧
        Reached lists parentId left done entries'
          ((reorderLoop ctx parentId before.zipIdx.reverse st).run up.serve s).1
          (up.children ((reorderLoop ctx parentId before.zipIdx.reverse st).run up.serve s).2) ∧
        (((reorderLoop ctx parentId before.zipIdx.reverse st).run up.serve s).1.bailed = none →
          left = []) := by
  -- the loop takes the ids from the end, so does the induction
  induction before using List.reverseRecOn with
  | nil => exact fun {after entries _ _} _ _ h => ⟨[],after,entries,rfl,h,fun _ => rfl⟩
  | append_singleton before id ih =>
    intro after entries st s hn hb h
    have hloop : (before++[id]).zipIdx.reverse = (id,before.length)::before.zipIdx.reverse := by
      simp [List.zipIdx_append]
    rw [hloop,reorderLoop]
    by_cases hc : ctx.isCancelled (st.succeeded+st.failed)
    · simp only [hc,if_true,Proc.pure_eq,Proc.run_ret]
      exact ⟨before++[id],after,entries,rfl,⟨h.results,h.ids,h.succeeded,h.failed,h.unskipped,h.moved⟩,
        fun hb => by cases hb⟩
    by_cases hd : ctx.isPastDeadline (st.succeeded+st.failed)
    · simp only [hc,hd,Bool.false_eq_true,if_true,if_false,Proc.pure_eq,Proc.run_ret]
      exact ⟨before++[id],after,entries,rfl,⟨h.results,h.ids,h.succeeded,h.failed,h.unskipped,h.moved⟩,
        fun hb => by cases hb⟩
    simp only [hc,hd,Bool.false_eq_true,if_false,Proc.bind_eq,Proc.run_bind]
    have hm := run_moveNode up parentId id s
    have hn' : (before++id::after).Nodup := by simpa using hn
    have hid : id ∉ after := (List.nodup_cons.mp (List.nodup_append.mp hn').2.1).1
    have hassoc : before++[id]++after = before++id::after := by simp
    rw [hassoc]
    cases hr : ((Client.moveNode id parentId (some 0)).run up.serve s).1 with
    | ok r =>
      have hnow : up.children ((Client.moveNode id parentId (some 0)).run up.serve s).2 =
          placed (up.children s) parentId [id] := hm.1 r hr
      have hstep := h.bookOk hid
      rw [← hnow] at hstep
      exact ih hn' hb hstep
    | error e =>
      have hstep := h.bookError e
      rw [← hm.2 e hr] at hstep
      exact ih hn' hb hstep

/-- A list that passes the checks: not empty, not above the cap. -/
def Sized (nodeIds : List String) : Prop := nodeIds ≠ [] ∧ nodeIds.length ≤ MAX_REORDER_NODES

instance (nodeIds : List String) : Decidable (Sized nodeIds) :=
  inferInstanceAs (Decidable (_ ∧ _))

theorem reorder_of_sized {nodeIds : List String} (hs : Sized nodeIds) (hn : nodeIds.Nodup)
    (hp : parentId ∉ nodeIds) :
    reorderNodesViaPriority ctx parentId nodeIds =
      (reorderLoop ctx parentId nodeIds.zipIdx.reverse { results := nodeIds.map fun _ => none }).bind
        fun st => .ret (.ok (st.finish parentId nodeIds,footprint parentId nodeIds)) := by
  have hcap : ¬MAX_REORDER_NODES<nodeIds.length := Nat.not_lt.mpr hs.2
  simp [reorderNodesViaPriority,hs.1,hcap,checkIds_ok hn hp]

theorem reorder_of_not_sized {nodeIds : List String} (hs : ¬Sized nodeIds) :
    ∃ reason, reorderNodesViaPriority ctx parentId nodeIds = .ret (.error (.InvalidInput reason)) := by
  by_cases he : nodeIds = []
  · exact ⟨_,by rw [reorderNodesViaPriority,if_pos he]; rfl⟩
  · have hcap : MAX_REORDER_NODES<nodeIds.length := Nat.lt_of_not_le fun h => hs ⟨he,h⟩
    exact ⟨_,by rw [reorderNodesViaPriority,if_neg he,if_pos hcap]; rfl⟩

theorem run_reorder {nodeIds : List String} (hs : Sized nodeIds) (hn : nodeIds.Nodup)
    (hp : parentId ∉ nodeIds) (s : σ) :
    ∃ outcome, ((reorderNodesViaPriority ctx parentId nodeIds).run up.serve s).1 =
        .ok (outcome,footprint parentId nodeIds) ∧
      Settled (up.children s)
        (up.children ((reorderNodesViaPriority ctx parentId nodeIds).run up.serve s).2)
        parentId nodeIds outcome := by
  have hstart : Reached (up.children s) parentId nodeIds [] []
      { results := nodeIds.map fun _ => none } (up.children s) := by
    constructor <;> simp [movedIds]
  obtain ⟨left,done,entries,hsplit,hr,hb⟩ :=
    run_reorderLoop up ctx parentId nodeIds (by simpa using hn) rfl hstart
  rw [List.append_nil] at hsplit
  rw [reorder_of_sized ctx parentId hs hn hp,Proc.run_bind]
  refine ⟨_,rfl,?_⟩
  have hsettled := hr.settled hb
  rwa [← hsplit] at hsettled

section smooth

theorem moveNode_of_answers {id : String} {s : σ}
    (h : (Client.moveNode id parentId (some 0)).Answers (fun _ r => ∃ a, r = .ok a) up.serve s) :
    ((Client.moveNode id parentId (some 0)).run up.serve s).1 = .ok () := by
  have hfirst : (up.serve (.moveNode id parentId (some 0)) s).1 = .ok () := h.1.choose_spec
  have hattempt : (Client.moveAttempt id parentId (some 0)).run up.serve s =
      (.ok (),(up.serve (.moveNode id parentId (some 0)) s).2) := by
    simp [Client.moveAttempt,Client.request,hfirst]
  simp [Client.moveNode,Client.maxPropRetries,Client.moveLoop,Proc.run_bind,hattempt]

/-- Nothing stops the call and no request of it fails. -/
structure Smooth (nodeIds : List String) (s : σ) : Prop where
  going : ∀ n, ctx.isCancelled n = false ∧ ctx.isPastDeadline n = false
  answered : (reorderNodesViaPriority ctx parentId nodeIds).Answers (fun _ r => ∃ a, r = .ok a)
    up.serve s

theorem smooth_reorderLoop (hgo : ∀ n, ctx.isCancelled n = false ∧ ctx.isPastDeadline n = false)
    (ids : List (String × Nat)) : ∀ (st : ReorderState) (s : σ),
      (reorderLoop ctx parentId ids st).Answers (fun _ r => ∃ a, r = .ok a) up.serve s →
      ((reorderLoop ctx parentId ids st).run up.serve s).1.bailed = st.bailed ∧
        ((reorderLoop ctx parentId ids st).run up.serve s).1.failed = st.failed := by
  induction ids with
  | nil => exact fun st s _ => ⟨rfl,rfl⟩
  | cons id ids ih =>
    intro st s h
    simp only [reorderLoop,(hgo _).1,(hgo _).2,Bool.false_eq_true,if_false,Proc.bind_eq,
      Proc.answers_bind,Proc.run_bind] at h ⊢
    have hm := moveNode_of_answers up parentId h.1
    simp only [hm] at h ⊢
    exact ih (st.bookOk id.2 id.1) _ h.2

theorem Smooth.outcome {nodeIds : List String} {s : σ} (h : Smooth up ctx parentId nodeIds s)
    (hs : Sized nodeIds) (hn : nodeIds.Nodup) (hp : parentId ∉ nodeIds) :
    ∃ outcome footprint, ((reorderNodesViaPriority ctx parentId nodeIds).run up.serve s).1 =
      .ok (outcome,footprint) ∧ outcome.failed = 0 ∧ outcome.skipped = 0 := by
  have ha := h.answered
  rw [reorder_of_sized ctx parentId hs hn hp] at ha ⊢
  rw [Proc.run_bind]
  obtain ⟨hb,hf⟩ := smooth_reorderLoop up ctx parentId h.going _ _ _
    ((Proc.answers_bind up.serve _ _ s).mp ha).1
  refine ⟨_,_,rfl,?_,?_⟩
  · rw [ReorderState.finish_failed,hf]
  · rw [ReorderState.finish_skipped_of_going _ _ _ hb]

end smooth

theorem Settled.placed {lists now : String → List String} {nodeIds : List String}
    {outcome : ReorderOutcome} (h : Settled lists now parentId nodeIds outcome) :
    now = placed lists parentId (movedIds outcome.results) := by
  funext q
  by_cases hq : q = parentId
  · rw [hq,h.head,HeadMoves.placed_self]
  · rw [h.others q hq,HeadMoves.placed_of_ne _ _ hq]

/-- A call that reports neither failures nor skips has moved every id. -/
theorem Settled.all_moved {lists now : String → List String} {nodeIds : List String}
    {outcome : ReorderOutcome} (h : Settled lists now parentId nodeIds outcome)
    (hf : outcome.failed = 0) (hk : outcome.skipped = 0) : movedIds outcome.results = nodeIds := by
  have hlen := h.counted
  rw [h.succeeded,hf,hk] at hlen
  exact h.ordered.eq_of_length (by omega)

/-- A list that passes the checks is put in order as far as its moves succeed, and a second
call without failures completes the order; any other list is refused before a request. -/
theorem reorder_settles {nodeIds : List String} (hn : nodeIds.Nodup) (hp : parentId ∉ nodeIds)
    (s : σ) :
    if Sized nodeIds then
      ∃ outcome, ((reorderNodesViaPriority ctx parentId nodeIds).run up.serve s).1 =
          .ok (outcome,footprint parentId nodeIds) ∧
        Settled (up.children s)
          (up.children ((reorderNodesViaPriority ctx parentId nodeIds).run up.serve s).2)
          parentId nodeIds outcome ∧
        ∀ (again : WorkflowContext) (s' : σ), up.children s' =
            up.children ((reorderNodesViaPriority ctx parentId nodeIds).run up.serve s).2 →
          (Smooth up again parentId nodeIds s' → ∃ outcome' footprint',
            ((reorderNodesViaPriority again parentId nodeIds).run up.serve s').1 =
              .ok (outcome',footprint') ∧ outcome'.failed = 0 ∧ outcome'.skipped = 0) ∧
          ∀ outcome' footprint',
            ((reorderNodesViaPriority again parentId nodeIds).run up.serve s').1 =
              .ok (outcome',footprint') → outcome'.failed = 0 → outcome'.skipped = 0 →
            up.children ((reorderNodesViaPriority again parentId nodeIds).run up.serve s').2
              parentId = nodeIds ++ (up.children s parentId).filter (· ∉ nodeIds)
    else (∃ reason, reorderNodesViaPriority ctx parentId nodeIds =
      .ret (.error (.InvalidInput reason))) := by
  by_cases hs : Sized nodeIds
  · rw [if_pos hs]
    obtain ⟨outcome,hrun,hset⟩ := run_reorder up ctx parentId hs hn hp s
    refine ⟨outcome,hrun,hset,fun again s' hs' => ⟨fun h => h.outcome up again parentId hs hn hp,?_⟩⟩
    intro outcome' footprint' hrun' hf hk
    obtain ⟨o,ho,hagain⟩ := run_reorder up again parentId hs hn hp s'
    obtain rfl : o = outcome' := congrArg Prod.fst (Except.ok.inj (ho.symm.trans hrun'))
    have hall := hagain.all_moved parentId hf hk
    rw [hagain.placed,hall,hs',hset.placed,HeadMoves.placed_of_subset _ _ hset.ordered.subset,
      HeadMoves.placed_self]
  · rw [if_neg hs]
    exact reorder_of_not_sized ctx parentId hs

end run

/-- Ordered lists that refuse the moves of some nodes and know no other request. -/
def board (refuses : String → Option WorkflowyError) : OrderedLists (String → List String) where
  serve q lists := match q with
    | .moveNode id p _ => match refuses id with
      | some e => (.error e,lists)
      | none => (.ok (),placed lists p [id])
    | .getChildren p => (.ok ((lists p).map fun id => { id, parentId := some p }),lists)
    | .getNode _ | .getTopLevel | .createNode .. | .postNode .. | .deleteNode _ =>
      (.error .Timeout,lists)
  children lists := lists
  move_ok {id p s} h := by
    cases hr : refuses id with
    | none => simp [hr]
    | some e => simp [hr] at h
  move_error {id p s e} h := by
    cases hr : refuses id with
    | none => simp [hr] at h
    | some e => simp [hr]
  listing _ _ := rfl

/-- Two lists; the node `b` cannot be moved. -/
def twoLists : String → List String := fun p =>
  if p = "p" then ["x","a","b"] else if p = "q" then ["c","y"] else []

def stuckB (id : String) : Option WorkflowyError := if id = "b" then some .Timeout else none

theorem stuckB_ordered : ∃ outcome,
    ((reorderNodesViaPriority {} "p" ["a","b","c"]).run (board stuckB).serve twoLists).1 =
      .ok (outcome,footprint "p" ["a","b","c"]) ∧
    outcome.results = [.Ok "a",.Error "b" "Timeout",.Ok "c"] ∧
    ((reorderNodesViaPriority {} "p" ["a","b","c"]).run (board stuckB).serve twoLists).2 "p" =
      ["a","c"] ++ (twoLists "p").filter (· ∉ ["a","c"]) := by
  have h := reorder_settles (board stuckB) {} "p" (by decide : ["a","b","c"].Nodup) (by decide)
    twoLists
  rw [if_pos (by decide)] at h
  obtain ⟨outcome,hrun,hset,-⟩ := h
  have hresults : outcome.results = [.Ok "a",.Error "b" "Timeout",.Ok "c"] := by
    have hout : outcome = _ := (congrArg Prod.fst (Except.ok.inj hrun)).symm
    rw [hout]
    rfl
  refine ⟨outcome,hrun,hresults,?_⟩
  have hhead := hset.head
  rwa [hresults] at hhead

/-- One id more than the cap allows. -/
def longList : List String :=
  (List.range (MAX_REORDER_NODES+1)).map fun n => String.ofList (List.replicate n 'a')

theorem longList_refused : longList.Nodup ∧ "p" ∉ longList ∧
    ∀ outcome fp, ((reorderNodesViaPriority {} "p" longList).run (board fun _ => none).serve
      twoLists).1 ≠ .ok (outcome,fp) := by
  have hnodup : longList.Nodup := by
    refine List.Nodup.map (fun m n h => ?_) List.nodup_range
    have hl := congrArg String.length h
    simpa using hl
  have hp : "p" ∉ longList := by
    intro h
    obtain ⟨n,-,hn⟩ := List.mem_map.mp h
    have ha : List.replicate n 'a' = ['p'] := by
      have ht := congrArg String.toList hn
      simpa using ht
    have hmem : 'p' ∈ List.replicate n 'a' := by simp [ha]
    simp at hmem
  have hs : ¬Sized longList := by
    intro h
    have hcap := h.2
    simp [longList] at hcap
  refine ⟨hnodup,hp,fun outcome fp => ?_⟩
  obtain ⟨reason,h⟩ := reorder_of_not_sized {} "p" hs
  rw [h]
  simp

end WorkflowyMcp.Reorder
