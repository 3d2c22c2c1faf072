import WorkflowyMcp.Transaction
import WorkflowyMcp.Upstream

/-! `run_handler` around the `transaction` tool: a cancel or the budget may win the
select at any await point and drop the future with its locals. -/
namespace WorkflowyMcp

namespace Handler
variable {Fr α σ : Type}

inductive Arm where
  | pollCancel | deadline

def Arm.error : Arm → WorkflowyError
  | .pollCancel => .Cancelled
  | .deadline => .Timeout

/- The cancel poll or the budget timer wins after some answers; the request then in
   flight has landed or not. -/
structure Interrupt where
  after : Nat
  landed : Bool
  arm : Arm

/- What the caller gets, the locals that were dropped with the future, the number of requests the
   store has served, and the store. -/
structure Ended (Fr α σ : Type) where
  reply : Except WorkflowyError α
  lost : Option Fr
  served : Nat
  store : σ

def runHandler (srv : Proc.Server ApiCall ApiReply σ) (interrupt : Option Interrupt)
    (fut : Proc ApiCall ApiReply Fr (Except WorkflowyError α)) (s : σ) : Ended Fr α σ :=
  match interrupt with
  | none => ⟨(fut.run srv s).1,none,fut.calls srv s,(fut.run srv s).2⟩
  | some i =>
    match fut.runFor srv i.landed i.after s with
    | .finished a left s' => ⟨a,none,i.after-left,s'⟩
    | .dropped fr s' => ⟨.error i.arm.error,some fr,i.after+i.landed.toNat,s'⟩

variable {srv : Proc.Server ApiCall ApiReply σ}
  {fut : Proc ApiCall ApiReply Fr (Except WorkflowyError α)} {s : σ}

theorem runHandler_finished {i : Interrupt} (h : fut.calls srv s ≤ i.after) :
    runHandler srv (some i) fut s =
      ⟨(fut.run srv s).1,none,fut.calls srv s,(fut.run srv s).2⟩ := by
  simp only [runHandler,Proc.runFor_of_calls_le srv i.landed fut i.after s h,Nat.sub_sub_self h]

theorem runHandler_dropped {i : Interrupt} (h : i.after < fut.calls srv s) :
    ∃ fr s', fut.frameAt srv i.after s = some fr ∧
      runHandler srv (some i) fut s =
        ⟨.error i.arm.error,some fr,i.after+i.landed.toNat,s'⟩ := by
  obtain ⟨fr,s',hfr,hrun⟩ := Proc.runFor_of_lt_calls srv i.landed fut i.after s h
  exact ⟨fr,s',hfr,by simp only [runHandler,hrun]⟩

end Handler

namespace Transaction
open Handler

section
variable (resolveRef : String → Api (Except WorkflowyError String))

def resolveOpt : Option String → Api (Except WorkflowyError (Option String))
  | none => return .ok none
  | some raw => return (← resolveRef raw).map some

def resolveOp (op : TxnOp) : Api (Except WorkflowyError TxnOp) := do
  match ← resolveOpt resolveRef op.nodeId with
  | .error e => return .error e
  | .ok nodeId =>
    match ← resolveOpt resolveRef op.parentId with
    | .error e => return .error e
    | .ok parentId =>
      match ← resolveOpt resolveRef op.newParentId with
      | .error e => return .error e
      | .ok newParentId => return .ok { op with nodeId, parentId, newParentId }

/-- Resolve every reference of every operation before the first one is applied. -/
def resolveOps : List TxnOp → Api (Except WorkflowyError (List TxnOp))
  | [] => return .ok []
  | op::ops => do
    match ← resolveOp resolveRef op with
    | .error e => return .error e
    | .ok op' => return (← resolveOps ops).map (op'::·)

/- A rolled-back outcome is flagged as an error. The footprint is applied to the
   cache and the index on the way out. -/
structure ToolReply where
  outcome : TransactionOutcome
  isError : Bool
  footprint : MutationFootprint

def toolReply : TransactionOutcome × MutationFootprint → ToolReply
  | (outcome@(.RolledBack ..),footprint) => ⟨outcome,true,footprint⟩
  | (outcome@(.Applied _),footprint) => ⟨outcome,false,footprint⟩

variable (renderDisplay : String → String)

def transaction (ops : List TxnOp) : Txn (Except WorkflowyError ToolReply) := do
  match ← (resolveOps resolveRef ops).own fun () => ⟨[],[]⟩ with
  | .error e => return .error e
  | .ok resolved => return (← runTransaction renderDisplay resolved).map toolReply

/- The first operation alone, and whether it succeeds: its calls are those before the instant
   at which it is applied. -/
def firstStep (ops : List TxnOp) : Api Bool := do
  match ← resolveOps resolveRef ops with
  | .ok (op::_) => return (← applyTxnStep renderDisplay op).isOk
  | _ => return false

end

section
variable {σ : Type} (srv : Proc.Server ApiCall ApiReply σ) (renderDisplay : String → String)
  (resolveRef : String → Api (Except WorkflowyError String))

/-- The inverses of the operations that complete before the first failure. -/
def appliedInverses : List TxnOp → σ → List TxnInverse
  | [],_ => []
  | op::ops,s =>
    match (applyTxnStep renderDisplay op).run srv s with
    | (.ok (_,inverse,_),s') => inverse.toList++appliedInverses ops s'
    | (.error _,_) => []

def toolInverses (ops : List TxnOp) (s : σ) : List TxnInverse :=
  match (resolveOps resolveRef ops).run srv s with
  | (.ok resolved,s') => appliedInverses srv renderDisplay resolved s'
  | (.error _,_) => []

/-- Whether each operation in turn succeeds. -/
def allApply : List TxnOp → σ → Bool
  | [],_ => true
  | op::ops,s =>
    match (applyTxnStep renderDisplay op).run srv s with
    | (.ok _,s') => allApply ops s'
    | (.error _,_) => false

def toolAllApply (ops : List TxnOp) (s : σ) : Bool :=
  match (resolveOps resolveRef ops).run srv s with
  | (.ok resolved,s') => allApply srv renderDisplay resolved s'
  | (.error _,_) => false

/-- How many operations are applied by the first `n` requests that the store serves, whether their
replies are read or not. -/
def appliedBy : List TxnOp → Nat → σ → Nat
  | [],_,_ => 0
  | op::ops,n,s =>
    let step := applyTxnStep renderDisplay op
    if step.calls srv s ≤ n ∧ (step.run srv s).1.isOk then
      appliedBy ops (n-step.calls srv s) (step.run srv s).2+1
    else 0

def toolAppliedBy (ops : List TxnOp) (n : Nat) (s : σ) : Nat :=
  let resolution := resolveOps resolveRef ops
  match (resolution.run srv s).1 with
  | .ok resolved =>
    if resolution.calls srv s ≤ n then
      appliedBy srv renderDisplay resolved (n-resolution.calls srv s) (resolution.run srv s).2
    else 0
  | .error _ => 0

/-- The answer of a call that runs every inverse of what was applied. -/
def RunsInverses (ops : List TxnOp) (s : σ) (reply : Except WorkflowyError ToolReply) : Prop :=
  match reply.map ToolReply.outcome with
  | .ok (.Applied _) => False
  | .ok (.RolledBack _ _ _ log) =>
      log.length = (toolInverses srv renderDisplay resolveRef ops s).length
  | .error _ => toolInverses srv renderDisplay resolveRef ops s = []

/- Everything was applied and reported so, or every inverse of what was applied has been run, or the
   future was dropped when the requests that were served, that in flight included, had applied no
   operation or were all those of a call that runs every inverse. -/
def Settled (ops : List TxnOp) (s : σ) (e : Ended TxnFrame ToolReply σ) : Prop :=
  match e.lost with
  | some _ =>
      let tool := transaction resolveRef renderDisplay ops
      toolAppliedBy srv renderDisplay resolveRef ops e.served s = 0 ∨
        tool.calls srv s ≤ e.served ∧
          RunsInverses srv renderDisplay resolveRef ops s (tool.run srv s).1
  | none =>
      (∃ results, e.reply.map ToolReply.outcome = .ok (.Applied results) ∧
        results.length = ops.length) ∨ RunsInverses srv renderDisplay resolveRef ops s e.reply

end

section frames

def TxnFrame.Holds (results : List Json) (fr : TxnFrame) : Prop := fr.appliedResults = results

/-- A rollback keeps the results. -/
theorem rollback_frames (results : List Json) (queue : List TxnInverse) (log : List Json)
    (fp : MutationFootprint) :
    (rollback results queue log fp).Frames (TxnFrame.Holds results) := by
  induction queue generalizing log fp with
  | nil => trivial
  | cons inv queue ih =>
    have hfr : TxnFrame.Holds results ⟨inv::queue,results⟩ := rfl
    refine (Proc.frames_own (fun _ => hfr) _).bind fun r => ?_
    cases r with
    | ok r => exact ih _ _
    | error e => exact ih _ _

end frames

section loops
variable {σ : Type} {srv : Proc.Server ApiCall ApiReply σ} {renderDisplay : String → String}

theorem rollback_log_length (results : List Json) (queue : List TxnInverse) (log : List Json)
    (fp : MutationFootprint) (s : σ) :
    ((rollback results queue log fp).run srv s).1.1.length = log.length+queue.length := by
  induction queue generalizing log fp s with
  | nil => rfl
  | cons inv queue ih =>
    simp only [rollback,Proc.bind_eq,Proc.run_bind,Proc.run_own]
    cases ((runTxnInverse inv).run srv s).1 with
    | ok r =>
      rw [ih]
      simp
      omega
    | error e =>
      rw [ih]
      simp
      omega

/-- A loop that returns has applied everything, or an operation failed and every inverse is run. -/
theorem txnLoop_outcome (srv : Proc.Server ApiCall ApiReply σ)
    (renderDisplay : String → String) (idx : Nat) (ops : List TxnOp) (applied : List TxnInverse)
    (results : List Json) (fp : MutationFootprint) (s : σ) :
    match ((txnLoop renderDisplay idx ops applied results fp).run srv s).1.1 with
    | .Applied results' => allApply srv renderDisplay ops s = true ∧
        results'.length = results.length+ops.length
    | .RolledBack _ _ _ log => allApply srv renderDisplay ops s = false ∧
        log.length = applied.length+(appliedInverses srv renderDisplay ops s).length := by
  induction ops generalizing idx applied results fp s with
  | nil => exact ⟨rfl,rfl⟩
  | cons op ops ih =>
    simp only [txnLoop,appliedInverses,allApply,Proc.bind_eq,Proc.run_bind,Proc.run_own]
    cases hr : (applyTxnStep renderDisplay op).run srv s with
    | mk r s' =>
      cases r with
      | error e => simp [Proc.run_bind,rollback_log_length]
      | ok r =>
        obtain ⟨summary,inverse,fp'⟩ := r
        have hrest := ih (idx+1) (inverse.toList++applied)
          (results++[.obj [("index",.num idx),("ok",.bool true),("summary",summary)]])
          (fp.extend fp') s'
        split at hrest <;> rename_i ho <;> simp only [ho]
        · refine ⟨hrest.1,?_⟩
          have hlen := hrest.2
          simp at hlen
          simp
          omega
        · refine ⟨hrest.1,?_⟩
          have hlen := hrest.2
          simp at hlen
          simp
          omega

variable {resolveRef : String → Api (Except WorkflowyError String)}

theorem resolveOps_length {ops resolved : List TxnOp} {s : σ}
    (h : ((resolveOps resolveRef ops).run srv s).1 = .ok resolved) :
    resolved.length = ops.length := by
  induction ops generalizing resolved s with
  | nil =>
    simp only [resolveOps,Proc.pure_eq,Proc.run_ret,Except.ok.injEq] at h
    rw [← h]
  | cons op ops ih =>
    simp only [resolveOps,Proc.bind_eq,Proc.run_bind] at h
    cases hr : ((resolveOp resolveRef op).run srv s).1 with
    | error e => simp [hr] at h
    | ok op' =>
      simp only [hr,Proc.run_bind,Proc.pure_eq,Proc.run_ret] at h
      cases hs : ((resolveOps resolveRef ops).run srv ((resolveOp resolveRef op).run srv s).2).1 with
      | error e => simp [hs,Except.map] at h
      | ok rest =>
        simp only [hs,Except.map,Except.ok.injEq] at h
        rw [← h,List.length_cons,List.length_cons,ih hs]

variable (srv renderDisplay resolveRef) in
/-- A transaction that returns reports everything applied, or an operation failed and every inverse
is run, or there was nothing to apply. -/
theorem transaction_outcome (ops : List TxnOp) (s : σ) :
    let reply := ((transaction resolveRef renderDisplay ops).run srv s).1
    (toolAllApply srv renderDisplay resolveRef ops s = true ∧ ∃ results,
      reply.map ToolReply.outcome = .ok (.Applied results) ∧ results.length = ops.length) ∨
    (toolAllApply srv renderDisplay resolveRef ops s = false ∨ ops = []) ∧
      RunsInverses srv renderDisplay resolveRef ops s reply := by
  simp only [RunsInverses,toolInverses,toolAllApply,transaction,Proc.bind_eq,Proc.run_bind,
    Proc.run_own]
  cases hr : (resolveOps resolveRef ops).run srv s with
  | mk r s' =>
    cases r with
    | error e => exact .inr ⟨.inl rfl,rfl⟩
    | ok resolved =>
      have hlen := resolveOps_length (congrArg Prod.fst hr)
      have hout := txnLoop_outcome srv renderDisplay 0 resolved [] [] {} s'
      simp only [Proc.run_bind,Proc.pure_eq,Proc.run_ret,runTransaction]
      cases resolved with
      | nil => exact .inr ⟨.inr (List.eq_nil_of_length_eq_zero hlen.symm),rfl⟩
      | cons op rest =>
        simp only [List.isEmpty_cons,Bool.false_eq_true,if_false,Proc.bind_eq,Proc.run_bind,
          Proc.run_ret]
        cases ho : ((txnLoop renderDisplay 0 (op::rest) [] [] {}).run srv s').1 with
        | mk outcome fp =>
          rw [ho] at hout
          cases outcome with
          | Applied results =>
            refine .inl ⟨hout.1,results,rfl,?_⟩
            simpa [hlen] using hout.2
          | RolledBack i e done log =>
            refine .inr ⟨.inl hout.1,?_⟩
            simpa [Except.map,toolReply] using hout.2

theorem transaction_settled_of_finished (ops : List TxnOp) (s : σ) :
    Settled srv renderDisplay resolveRef ops s
      ⟨((transaction resolveRef renderDisplay ops).run srv s).1,none,
        (transaction resolveRef renderDisplay ops).calls srv s,
        ((transaction resolveRef renderDisplay ops).run srv s).2⟩ :=
  (transaction_outcome srv renderDisplay resolveRef ops s).imp And.right And.right

/-- What is lost with the loop: the results of the operations whose requests were answered. -/
theorem txnLoop_lost {idx : Nat} {ops : List TxnOp} {applied : List TxnInverse}
    {results : List Json} {fp : MutationFootprint} {s : σ} {n : Nat} {fr : TxnFrame}
    (h : (txnLoop renderDisplay idx ops applied results fp).frameAt srv n s = some fr) :
    fr.appliedResults.length = results.length+appliedBy srv renderDisplay ops n s := by
  induction ops generalizing idx applied results fp n s with
  | nil => simp [txnLoop,Proc.frameAt] at h
  | cons op ops ih =>
    simp only [txnLoop,Proc.bind_eq,Proc.frameAt_bind,Proc.frameAt_own,Proc.calls_own,
      Proc.run_own] at h
    by_cases hn : n < (applyTxnStep renderDisplay op).calls srv s
    · simp only [hn,if_true,Option.map_eq_some_iff] at h
      obtain ⟨-,-,rfl⟩ := h
      simp [appliedBy,Nat.not_le.mpr hn]
    · simp only [hn,if_false] at h
      have hle := Nat.le_of_not_lt hn
      cases hr : ((applyTxnStep renderDisplay op).run srv s).1 with
      | error e =>
        simp only [hr,Proc.pure_eq,Proc.frameAt_bind_ret] at h
        have hkept : fr.appliedResults = results :=
          (rollback_frames results applied [] fp).of_frameAt h
        simp [hkept,appliedBy,hr,Except.isOk,Except.toBool]
      | ok r =>
        simp only [hr] at h
        rw [ih h]
        simp [appliedBy,hle,hr,Except.isOk,Except.toBool]
        omega

/-- The future dropped after `n` answers loses the results of the operations they applied. -/
theorem transaction_lost {ops : List TxnOp} {s : σ} {n : Nat} {fr : TxnFrame}
    (h : (transaction resolveRef renderDisplay ops).frameAt srv n s = some fr) :
    fr.appliedResults.length = toolAppliedBy srv renderDisplay resolveRef ops n s := by
  simp only [transaction,Proc.bind_eq,Proc.frameAt_bind,Proc.frameAt_own,Proc.calls_own,
    Proc.run_own] at h
  by_cases hn : n < (resolveOps resolveRef ops).calls srv s
  · simp only [hn,if_true,Option.map_eq_some_iff] at h
    obtain ⟨-,-,rfl⟩ := h
    cases hr : ((resolveOps resolveRef ops).run srv s).1 <;>
      simp [toolAppliedBy,hr,Nat.not_le.mpr hn]
  · simp only [hn,if_false] at h
    cases hr : ((resolveOps resolveRef ops).run srv s).1 with
    | error e => simp [hr,Proc.frameAt] at h
    | ok resolved =>
      cases resolved with
      | nil => simp [hr,runTransaction,Proc.frameAt] at h
      | cons op rest =>
        simp only [hr,runTransaction,List.isEmpty_cons,Bool.false_eq_true,if_false,Proc.bind_eq,
          Proc.pure_eq,Proc.frameAt_bind_ret] at h
        simpa [toolAppliedBy,hr,Nat.le_of_not_lt hn] using txnLoop_lost h

/-- No operation is applied by requests that end before the first one's last, nor by any if the
first one fails. -/
theorem toolAppliedBy_eq_zero {ops : List TxnOp} {s : σ} {n : Nat} :
    toolAppliedBy srv renderDisplay resolveRef ops n s = 0 ↔
      n < (firstStep resolveRef renderDisplay ops).calls srv s ∨
        ((firstStep resolveRef renderDisplay ops).run srv s).1 = false := by
  simp only [toolAppliedBy,firstStep,Proc.bind_eq,Proc.calls_bind,Proc.run_bind]
  cases hr : ((resolveOps resolveRef ops).run srv s).1 with
  | error e => simp
  | ok resolved =>
    cases resolved with
    | nil => simp [appliedBy]
    | cons op rest =>
      by_cases hn : (resolveOps resolveRef ops).calls srv s ≤ n
      · simp only [hn,if_true,appliedBy,Proc.calls_bind,Proc.run_bind,Proc.pure_eq,Proc.run_ret,
          Proc.calls]
        split
        · rename_i happlied
          simp only [Nat.succ_ne_zero,happlied.2,false_iff,not_or]
          exact ⟨by omega,by simp⟩
        · rename_i hnot
          simp only [not_and_or,Nat.not_le,Bool.not_eq_true] at hnot
          simp only [true_iff]
          exact hnot.imp_left fun hlt => by omega
      · simp only [hn,if_false,true_iff,Proc.calls_bind]
        exact .inl (by omega)

/-- Where the first operation succeeds, every inverse is run exactly if another one fails. -/
theorem runsInverses_iff {ops : List TxnOp} {s : σ}
    (hfirst : ((firstStep resolveRef renderDisplay ops).run srv s).1≠false) :
    RunsInverses srv renderDisplay resolveRef ops s
      ((transaction resolveRef renderDisplay ops).run srv s).1 ↔
        toolAllApply srv renderDisplay resolveRef ops s = false := by
  rcases transaction_outcome srv renderDisplay resolveRef ops s with
    ⟨hall,results,hreply,-⟩ | ⟨hfailed,hinverses⟩
  · simp only [RunsInverses,hreply,hall,Bool.true_eq_false]
  · have hne : ops≠[] := by
      rintro rfl
      exact hfirst rfl
    exact iff_of_true hinverses (hfailed.resolve_right hne)

end loops

/-- The tool call is settled exactly if the future is not dropped before the last request was
answered, or is dropped before the first operation's last request has reached the store, or the
first operation fails, or another one fails and the last request of the rollback was served. -/
theorem transaction_settled_iff {σ : Type} (srv : Proc.Server ApiCall ApiReply σ)
    (renderDisplay : String → String)
    (resolveRef : String → Api (Except WorkflowyError String)) (ops : List TxnOp)
    (interrupt : Option Interrupt) (s : σ) :
    Settled srv renderDisplay resolveRef ops s
      (runHandler srv interrupt (transaction resolveRef renderDisplay ops) s) ↔
    ∀ i, interrupt = some i → (transaction resolveRef renderDisplay ops).calls srv s ≤ i.after ∨
      i.after+i.landed.toNat < (firstStep resolveRef renderDisplay ops).calls srv s ∨
      ((firstStep resolveRef renderDisplay ops).run srv s).1 = false ∨
      (transaction resolveRef renderDisplay ops).calls srv s ≤ i.after+i.landed.toNat ∧
        toolAllApply srv renderDisplay resolveRef ops s = false := by
  cases interrupt with
  | none => simpa [runHandler] using transaction_settled_of_finished ops s
  | some i =>
    by_cases hle : (transaction resolveRef renderDisplay ops).calls srv s ≤ i.after
    · rw [runHandler_finished hle]
      simpa [hle] using transaction_settled_of_finished ops s
    · obtain ⟨fr,s',hfr,hrun⟩ := runHandler_dropped (Nat.lt_of_not_le hle)
      rw [hrun]
      simp only [Settled,toolAppliedBy_eq_zero,Option.some.injEq,forall_eq',hle,false_or,or_assoc]
      by_cases hfirst : ((firstStep resolveRef renderDisplay ops).run srv s).1 = false
      · simp [hfirst]
      · rw [runsInverses_iff hfirst]

/- The budget runs out between two completions: the first stays, the caller sees a
   timeout, and its inverse is gone. -/
theorem budget_between_steps :
    let u : Upstream := { nodes := [{ id := "x", name := "X" },{ id := "y", name := "Y" }] }
    let ops : List TxnOp :=
      [{ op := "complete", nodeId := some "x" },{ op := "complete", nodeId := some "y" }]
    let resolve : String → Api (Except WorkflowyError String) := fun raw => .ret (.ok raw)
    let e := runHandler Service.reliable.serve (some ⟨2,false,.deadline⟩)
      (transaction resolve id ops) u
    (∀ op∈ops, op.op ≠ "delete") ∧
    (e.store.facts "x" = some ⟨"X",none,true,none⟩ ∧ e.store.facts "y" = u.facts "y") ∧
    ¬Settled Service.reliable.serve id resolve ops u e := by
  refine ⟨by decide,⟨rfl,rfl⟩,fun h => ?_⟩
  rcases h with hnone | ⟨hserved,-⟩
  · exact Nat.one_ne_zero hnone
  · exact absurd hserved (by decide)

end Transaction
end WorkflowyMcp
