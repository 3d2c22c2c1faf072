import Mathlib.Algebra.Ring.Int.Defs
import Mathlib.Algebra.Ring.Nat
import WorkflowyMcp.Types
import WorkflowyMcp.Lib.StableSort

/-! The subtree walk: levels fetched through an unordered stream, put back in
document order, with a node cap, cancellation, a deadline and retried branches. -/
namespace WorkflowyMcp.SubtreeWalk

/- Everything the walk observes, at the instant it looks: replies to reads, the order
   in which the fetches of a stream complete, the walk's own stop status, the open
   rate-limit window and whether a wait fits the deadline. `anyOf` is the element a
   hash set yields first. The time an instant stands for does not matter. -/
structure WalkEnv where
  node : Nat → String → Except WorkflowyError WorkflowyNode
  topLevel : Nat → Except WorkflowyError (List WorkflowyNode)
  listing : Nat → String → Except WorkflowyError (List WorkflowyNode)
  arrive : Nat → List String → List String
  arrive_perm : ∀ t ids, (arrive t ids).Perm ids
  status : Nat → Option TruncationReason
  retryAfterRemainingMs : Nat → Option Nat
  fitsBudget : Nat → Nat → Bool
  anyOf : Nat → List String → Option String
  patient : Bool

def i64Min : Int := -(2^63)
def usizeMax : Nat := 2^64-1
def u64Max : Nat := 2^64-1
def retryWindowWaitSlackMs : Nat := 500

def sortChildrenByPriority (children : List WorkflowyNode) : List WorkflowyNode :=
  sortByKey (fun n => n.priority.getD i64Min) children

/-- The API leaves `parent_id` null in a listing; the client fills it in. -/
def fillParent (id : String) (child : WorkflowyNode) : WorkflowyNode :=
  if child.parentId.isNone then { child with parentId := some id } else child

def getChildren (w : WalkEnv) (t : Nat) (id : String) :
    Except WorkflowyError (List WorkflowyNode) :=
  (w.listing t id).map fun children => sortChildrenByPriority (children.map (fillParent id))

def getTopLevelNodes (w : WalkEnv) (t : Nat) : Except WorkflowyError (List WorkflowyNode) :=
  (w.topLevel t).map sortChildrenByPriority

/-- The position of `p` among the parents; a later duplicate wins. -/
def rankIn (p : String) : List WorkflowyNode → Nat → Option Nat
  | [],_ => none
  | n::ns,i => rankIn p ns (i+1) <|> if n.id = p then some i else none

def orderLevelByParent (level parents : List WorkflowyNode) : List WorkflowyNode :=
  if level.isEmpty || decide (parents.length < 2) then level
  else sortByKey (fun n => (n.parentId.bind fun p => rankIn p parents 0).getD usizeMax) level

structure TruncationOutcome where
  reason : Option TruncationReason := none
  truncatedAtNodeId : Option String := none
  skippedBranches : List String := []
deriving DecidableEq, Repr

namespace TruncationOutcome

def complete : TruncationOutcome := {}

def stopped (reason : TruncationReason) (anchor : Option String) : TruncationOutcome :=
  { reason := some reason, truncatedAtNodeId := anchor }

def withSkipped (o : TruncationOutcome) (skipped : List String) : TruncationOutcome :=
  if skipped.isEmpty then o
  else if o.reason.isNone then
    { reason := some .SkippedBranches, truncatedAtNodeId := skipped.head?,
      skippedBranches := skipped }
  else { o with skippedBranches := skipped }

/-- A stop keeps its reason, whatever else was skipped. -/
@[simp] theorem reason_stopped (reason : TruncationReason) (anchor : Option String)
    (skipped : List String) :
    ((stopped reason anchor).withSkipped skipped).reason = some reason := by
  unfold withSkipped
  split
  · rfl
  · rfl

end TruncationOutcome

inductive Fetched where
  | ok | abort | failed
deriving DecidableEq, Repr

/- One child fetch whose reply the walk has looked at. The log of them is not part of
   the program: the walk never reads it. -/
structure FetchEvent where
  id : String
  result : Fetched
deriving DecidableEq, Repr

def fetched : Except WorkflowyError (List WorkflowyNode) → Fetched
  | .ok _ => .ok
  | .error e => if e.isAbort then .abort else .failed

structure Drain where
  next : List WorkflowyNode := []
  stop : Option TruncationReason := none
  skipped : List String := []
  pending : List String
  lastUnfinished : Option String := none
  clock : Nat
  log : List FetchEvent

def Drain.receive (w : WalkEnv) (d : Drain) (id : String) : Drain :=
  let reply := getChildren w d.clock id
  let d := { d with
    pending := d.pending.filter (·≠id)
    clock := d.clock+1
    log := d.log++[FetchEvent.mk id (fetched reply)] }
  match reply with
  | .ok children => { d with next := d.next++children }
  | .error e =>
    if e.isAbort then { d with stop := some (abortReason e), lastUnfinished := some id }
    else { d with skipped := d.skipped++[id] }

/-- Take the completed fetches in turn, until an abort, the cap or the status stops it. -/
def drain (w : WalkEnv) (nodeLimit outLen : Nat) : List String → Drain → Drain
  | [],d => d
  | id::ids,d =>
    let d := d.receive w id
    if d.stop.isSome then d
    else if nodeLimit ≤ outLen+d.next.length then { d with stop := some .NodeLimit }
    else match w.status d.clock with
      | some status => { d with stop := some status, clock := d.clock+1 }
      | none => drain w nodeLimit outLen ids { d with clock := d.clock+1 }

/-- A drain ends with the reply that was received, or goes on behind it. -/
theorem drain_cons (w : WalkEnv) (nodeLimit outLen : Nat) (id : String) (ids : List String)
    (d : Drain) :
    (∃ stop clock, drain w nodeLimit outLen (id::ids) d =
      { d.receive w id with stop := stop, clock := clock }) ∨
    ∃ clock, drain w nodeLimit outLen (id::ids) d =
      drain w nodeLimit outLen ids { d.receive w id with clock := clock } := by
  rw [drain]
  simp only
  split
  · exact .inl ⟨_,_,rfl⟩
  · split
    · exact .inl ⟨_,_,rfl⟩
    · split
      · exact .inl ⟨_,_,rfl⟩
      · exact .inr ⟨_,rfl⟩

structure Recovery where
  recovered : List WorkflowyNode
  failed : List String
  clock : Nat
  log : List FetchEvent

def fetchAll (w : WalkEnv) : List String → Recovery → Recovery
  | [],r => r
  | id::ids,r =>
    let reply := getChildren w r.clock id
    let r := { r with clock := r.clock+1, log := r.log++[FetchEvent.mk id (fetched reply)] }
    match reply with
    | .ok children => fetchAll w ids { r with recovered := r.recovered++children }
    | .error _ => fetchAll w ids { r with failed := r.failed++[id] }

/-- One retry wave, after waiting out an open rate-limit window. -/
def retrySkippedBranches (w : WalkEnv) (ids : List String) (clock : Nat) (log : List FetchEvent) :
    Recovery :=
  let fetch := fetchAll w (w.arrive (clock+4) ids) ⟨[],[],clock+5,log⟩
  if (w.status clock).isSome then ⟨[],ids,clock+1,log⟩
  else match w.retryAfterRemainingMs (clock+1) with
    | none => fetch
    | some remainingMs =>
      if !w.fitsBudget (clock+2) (min (remainingMs+retryWindowWaitSlackMs) u64Max) then
        ⟨[],ids,clock+3,log⟩
      else if (w.status (clock+3)).isSome then ⟨[],ids,clock+4,log⟩
      else fetch

/-- A wave fetches all branches that are asked for, or the walk is stopped and none is. -/
theorem retrySkippedBranches_cases (w : WalkEnv) (ids : List String) (clock : Nat)
    (log : List FetchEvent) :
    (∃ stopped, retrySkippedBranches w ids clock log = ⟨[],ids,stopped,log⟩) ∨
      retrySkippedBranches w ids clock log =
        fetchAll w (w.arrive (clock+4) ids) ⟨[],[],clock+5,log⟩ := by
  unfold retrySkippedBranches
  simp only
  split
  · exact .inl ⟨_,rfl⟩
  · split
    · exact .inr rfl
    · split
      · exact .inl ⟨_,rfl⟩
      · split
        · exact .inl ⟨_,rfl⟩
        · exact .inr rfl

/- The patient loop: waves until nothing is left, the walk is stopped, or a wave
   recovers nothing. A wave that goes on has shortened the list, so its length bounds
   the waves. -/
def recoverWaves (w : WalkEnv) : Nat → Recovery → Recovery
  | 0,r => r
  | fuel+1,r =>
    if r.failed.isEmpty then r
    else if (w.status r.clock).isSome then { r with clock := r.clock+1 }
    else
      let wave := retrySkippedBranches w r.failed (r.clock+1) r.log
      let r' := { wave with recovered := r.recovered++wave.recovered }
      if r.failed.length ≤ r'.failed.length then r' else recoverWaves w fuel r'

def recoverSkippedBranches (w : WalkEnv) (ids : List String) (clock : Nat)
    (log : List FetchEvent) : Recovery :=
  let r := retrySkippedBranches w ids clock log
  if w.patient then recoverWaves w r.failed.length r else r

structure WalkState where
  out : List WorkflowyNode
  level : List WorkflowyNode
  skipped : List String := []
  clock : Nat
  log : List FetchEvent := []

structure Walked where
  outcome : TruncationOutcome
  out : List WorkflowyNode
  clock : Nat
  log : List FetchEvent := []

/-- Accumulate a level up to the cap; the first node that does not fit is returned. -/
def pushLevel (nodeLimit : Nat) :
    List WorkflowyNode → List WorkflowyNode → List WorkflowyNode × Option WorkflowyNode
  | out,[] => (out,none)
  | out,n::ns => if nodeLimit ≤ out.length then (out,some n) else pushLevel nodeLimit (out++[n]) ns

theorem pushLevel_fits {nodeLimit : Nat} {out level : List WorkflowyNode}
    (h : out.length+level.length ≤ nodeLimit) : pushLevel nodeLimit out level =
      (out++level,none) := by
  induction level generalizing out with
  | nil => simp [pushLevel]
  | cons n ns ih =>
    simp only [List.length_cons] at h
    rw [pushLevel,if_neg (by omega),ih (by simp; omega)]
    simp

/-- A level over the cap is cut at the cap, or before its first node when that is passed. -/
theorem pushLevel_cut {nodeLimit : Nat} {out level : List WorkflowyNode} (hne : level≠[])
    (h : nodeLimit < out.length+level.length) :
    pushLevel nodeLimit out level =
      (out++level.take (nodeLimit-out.length),level[nodeLimit-out.length]?) := by
  induction level generalizing out with
  | nil => exact absurd rfl hne
  | cons n ns ih =>
    by_cases hle : nodeLimit ≤ out.length
    · rw [pushLevel,if_pos hle,Nat.sub_eq_zero_of_le hle]
      simp
    · simp only [List.length_cons] at h
      have hns : ns≠[] := by
        rintro rfl
        simp at h
        omega
      have hk : nodeLimit-out.length = nodeLimit-(out.length+1)+1 := by omega
      rw [pushLevel,if_neg hle,ih hns (by simp; omega),hk]
      simp

/-- Ask for the children of the whole level and take them as they arrive. -/
def fetchLevel (w : WalkEnv) (nodeLimit outLen : Nat) (s : WalkState) : Drain :=
  let ids := s.level.map WorkflowyNode.id
  drain w nodeLimit outLen (w.arrive (s.clock+1) ids)
    { pending := ids, clock := s.clock+2, log := s.log }

def recoverLevel (w : WalkEnv) (d : Drain) : Recovery :=
  if d.skipped.isEmpty then ⟨[],[],d.clock,d.log⟩
  else recoverSkippedBranches w d.skipped d.clock d.log

/-- One turn of the level loop: the state for the next level, or where the walk stopped. -/
def levelPass (w : WalkEnv) (nodeLimit : Nat) (s : WalkState) : WalkState ⊕ Walked :=
  match pushLevel nodeLimit s.out s.level with
  | (out,some n) => .inr ⟨.stopped .NodeLimit n.parentId,out,s.clock,s.log⟩
  | (out,none) =>
    match w.status s.clock with
    | some status =>
      .inr ⟨.stopped status (s.level.head?.bind WorkflowyNode.parentId),out,s.clock+1,s.log⟩
    | none =>
      let d := fetchLevel w nodeLimit out.length s
      match d.stop with
      | some reason =>
        let next := orderLevelByParent d.next s.level
        let truncatedAt := d.lastUnfinished <|> w.anyOf d.clock d.pending <|>
          s.level.head?.map WorkflowyNode.id
        .inr ⟨(TruncationOutcome.stopped reason truncatedAt).withSkipped (s.skipped++d.skipped),
          out++next.take (nodeLimit-out.length),d.clock+1,d.log⟩
      | none =>
        let r := recoverLevel w d
        .inl { out, level := orderLevelByParent (d.next++r.recovered) s.level,
               skipped := s.skipped++r.failed, clock := r.clock, log := r.log }

section pass
variable {w : WalkEnv} {nodeLimit : Nat} {s : WalkState}

theorem levelPass_over (hne : s.level≠[]) (h : nodeLimit < s.out.length+s.level.length) :
    ∃ anchor, levelPass w nodeLimit s = .inr ⟨.stopped .NodeLimit anchor,
      s.out++s.level.take (nodeLimit-s.out.length),s.clock,s.log⟩ := by
  have hget : nodeLimit-s.out.length < s.level.length := by
    have := List.length_pos_iff.mpr hne
    omega
  simp only [levelPass,pushLevel_cut hne h,List.getElem?_eq_getElem hget]
  exact ⟨_,rfl⟩

theorem levelPass_status {status : TruncationReason} (h : s.out.length+s.level.length ≤ nodeLimit)
    (hs : w.status s.clock = some status) : levelPass w nodeLimit s =
      .inr ⟨.stopped status (s.level.head?.bind WorkflowyNode.parentId),s.out++s.level,s.clock+1,
        s.log⟩ := by
  simp only [levelPass,pushLevel_fits h,hs]

theorem levelPass_stop {reason : TruncationReason} (h : s.out.length+s.level.length ≤ nodeLimit)
    (hs : w.status s.clock = none)
    (hstop : (fetchLevel w nodeLimit (s.out++s.level).length s).stop = some reason) :
    ∃ anchor, levelPass w nodeLimit s =
      let d := fetchLevel w nodeLimit (s.out++s.level).length s
      .inr ⟨(TruncationOutcome.stopped reason anchor).withSkipped (s.skipped++d.skipped),
        s.out++s.level++(orderLevelByParent d.next s.level).take (nodeLimit-(s.out++s.level).length),
        d.clock+1,d.log⟩ := by
  simp only [levelPass,pushLevel_fits h,hs,hstop]
  exact ⟨_,rfl⟩

theorem levelPass_on (h : s.out.length+s.level.length ≤ nodeLimit) (hs : w.status s.clock = none)
    (hstop : (fetchLevel w nodeLimit (s.out++s.level).length s).stop = none) :
    levelPass w nodeLimit s =
      let d := fetchLevel w nodeLimit (s.out++s.level).length s
      let r := recoverLevel w d
      .inl { out := s.out++s.level, level := orderLevelByParent (d.next++r.recovered) s.level,
             skipped := s.skipped++r.failed, clock := r.clock, log := r.log } := by
  simp only [levelPass,pushLevel_fits h,hs,hstop]

/-- What a pass that goes on has met. -/
theorem levelPass_inl {s' : WalkState} (hne : s.level≠[]) (h : levelPass w nodeLimit s = .inl s') :
    let d := fetchLevel w nodeLimit (s.out++s.level).length s
    let r := recoverLevel w d
    s.out.length+s.level.length ≤ nodeLimit ∧ w.status s.clock = none ∧ d.stop = none ∧
      s' = { out := s.out++s.level, level := orderLevelByParent (d.next++r.recovered) s.level,
             skipped := s.skipped++r.failed, clock := r.clock, log := r.log } := by
  by_cases hfit : nodeLimit < s.out.length+s.level.length
  · obtain ⟨anchor,hp⟩ := levelPass_over (w := w) hne hfit
    rw [hp] at h
    cases h
  have hfit := Nat.le_of_not_lt hfit
  cases hs : w.status s.clock with
  | some status =>
    rw [levelPass_status hfit hs] at h
    cases h
  | none =>
    cases hstop : (fetchLevel w nodeLimit (s.out++s.level).length s).stop with
    | some reason =>
      obtain ⟨anchor,hp⟩ := levelPass_stop hfit hs hstop
      rw [hp] at h
      cases h
    | none =>
      rw [levelPass_on hfit hs hstop] at h
      cases h
      exact ⟨hfit,rfl,hstop,rfl⟩

end pass

/-- After the loop: the last level, whose children are not fetched. -/
def finishWalk (nodeLimit : Nat) (s : WalkState) : Walked :=
  let remaining := nodeLimit-s.out.length
  if remaining < s.level.length then
    ⟨(TruncationOutcome.stopped .NodeLimit
        (s.level[remaining]?.bind WorkflowyNode.parentId)).withSkipped s.skipped,
      s.out++s.level.take remaining,s.clock,s.log⟩
  else ⟨TruncationOutcome.complete.withSkipped s.skipped,s.out++s.level,s.clock,s.log⟩

/-- The level loop, with `left` levels still below the depth bound. -/
def fetchDescendants (w : WalkEnv) (nodeLimit : Nat) : Nat → WalkState → Walked
  | 0,s => finishWalk nodeLimit s
  | left+1,s =>
    if s.level.isEmpty then finishWalk nodeLimit s
    else match levelPass w nodeLimit s with
      | .inl s' => fetchDescendants w nodeLimit left s'
      | .inr walked => walked

/-- The reads before the loop: the root and its children, or the top level. -/
def walkStart (w : WalkEnv) (rootId : Option String) (nodeLimit : Nat) :
    Except WorkflowyError (WalkState ⊕ Walked) :=
  match w.status 0 with
  | some status => .ok (.inr ⟨.stopped status rootId,[],1,[]⟩)
  | none =>
    match rootId with
    | some id =>
      match w.node 1 id with
      | .error e =>
        if e.isAbort then .ok (.inr ⟨.stopped (abortReason e) (some id),[],2,[]⟩) else .error e
      | .ok root =>
        if nodeLimit ≤ 1 then .ok (.inr ⟨.stopped .NodeLimit (some id),[root],2,[]⟩)
        else match w.status 2 with
          | some status => .ok (.inr ⟨.stopped status (some id),[root],3,[]⟩)
          | none =>
            match getChildren w 3 id with
            | .ok children => .ok (.inl { out := [root], level := children, clock := 4 })
            | .error e =>
              if e.isAbort then .ok (.inr ⟨.stopped (abortReason e) (some id),[root],4,[]⟩)
              else .error e
    | none =>
      match getTopLevelNodes w 1 with
      | .ok top => .ok (.inl { out := [], level := top, clock := 2 })
      | .error e =>
        if e.isAbort then .ok (.inr ⟨.stopped (abortReason e) none,[],2,[]⟩) else .error e

structure SubtreeFetch where
  nodes : List WorkflowyNode
  truncated : Bool
  limit : Nat
  truncationReason : Option TruncationReason
  truncatedAtNodeId : Option String
  skippedBranches : List String

def Walked.fetch (nodeLimit : Nat) (r : Walked) : SubtreeFetch where
  nodes := r.out
  truncated := r.outcome.reason.isSome || !r.outcome.skippedBranches.isEmpty
  limit := nodeLimit
  truncationReason := r.outcome.reason
  truncatedAtNodeId := r.outcome.truncatedAtNodeId
  skippedBranches := r.outcome.skippedBranches

def walk (w : WalkEnv) (rootId : Option String) (maxDepth nodeLimit : Nat) :
    Except WorkflowyError Walked :=
  (walkStart w rootId nodeLimit).map fun
    | .inl s => fetchDescendants w nodeLimit maxDepth s
    | .inr walked => walked

def getSubtreeWithControls (w : WalkEnv) (rootId : Option String) (maxDepth nodeLimit : Nat) :
    Except WorkflowyError SubtreeFetch :=
  (walk w rootId maxDepth nodeLimit).map (Walked.fetch nodeLimit)

end WorkflowyMcp.SubtreeWalk
