import WorkflowyMcp.TransactionUndo

/-! `run_transaction` over an atomic store: what a step, an inverse and the loops do
to the view, and which rolled-back transactions leave the store as it was. -/
namespace WorkflowyMcp.Transaction
open Client

/-- A pre-read that is answered with the node. -/
def ReadOk (q : ApiCall) (r : ApiReply q) : Prop := ∀ x, q = .getNode x → r.isOk

theorem TxnOpKind.parse_eq_some {s : String} {k : TxnOpKind} :
    TxnOpKind.parse s = some k ↔ s = k.asStr := by
  constructor
  · intro h
    unfold TxnOpKind.parse at h
    split at h <;> cases h <;> rfl
  · rintro rfl
    cases k <;> rfl

/- The state in which an edit of both fields writes the name of a node that exists.
   The pre-read comes first, so the name is the second request. -/
def HalfEdit (svc : Service) (u : Upstream) (op : TxnOp) (x n : String) : Prop :=
  IsEdit x op ∧ op.name = some n ∧ op.description.isSome ∧ (u.facts x).isSome ∧
    svc.refuses (u.clock+1) (.postNode x (some n) none none) = none

section steps
variable {renderDisplay : String → String} {svc : Service} {u : Upstream} {op : TxnOp}

theorem run_getNode_clock (svc : Service) (u : Upstream) (x : String) :
    ((getNode x).run svc.serve u).2.clock = u.clock+1 :=
  svc.serve_clock _

theorem run_getNode_facts (svc : Service) (u : Upstream) (x : String) :
    ((getNode x).run svc.serve u).2.facts = u.facts := by
  cases h : ((getNode x).run svc.serve u).1 with
  | ok n => exact ((atomic_getNode x u).1 n h).2
  | error e => exact (atomic_getNode x u).2 e h

/-- An answered pre-read. -/
theorem getNode_answered {x : String} (h : (getNode x).Answers ReadOk svc.serve u) :
    ∃ n, ((getNode x).run svc.serve u).1 = .ok n ∧ u.facts x = some n.facts := by
  have hok := h.1 x rfl
  cases hr : ((getNode x).run svc.serve u).1 with
  | ok n => exact ⟨n,rfl,((atomic_getNode x u).1 n hr).1⟩
  | error e =>
    change (((getNode x).run svc.serve u).1).isOk = true at hok
    simp [hr,Except.isOk,Except.toBool] at hok

theorem applyCreate_ok (hop : op.op = "create") {r : TxnStepResult}
    (h : ((applyCreate renderDisplay op).run svc.serve u).1 = .ok r) :
    ∃ inv, r.2.1 = some inv ∧
      Applied u.facts op inv ((applyCreate renderDisplay op).run svc.serve u).2.facts := by
  cases hn : op.name with
  | none => simp [applyCreate,hn,invalidInput] at h
  | some name =>
    simp only [applyCreate,hn,Proc.bind_eq,Proc.run_bind] at h ⊢
    have hc := (atomic_createNode name op.description op.parentId op.priority : Atomic svc _ _) u
    cases hr : ((createNode name op.description op.parentId op.priority).run svc.serve u).1 with
    | error e => simp [hr] at h
    | ok created =>
      obtain ⟨h1,h2,h3⟩ := hc.1 created hr
      simp only [hr,Proc.pure_eq,Proc.run_ret,Except.ok.injEq] at h ⊢
      subst h
      exact ⟨_,rfl,by rw [h3]; exact .create hop h1 h2⟩

theorem applyCreate_error {e : WorkflowyError}
    (h : ((applyCreate renderDisplay op).run svc.serve u).1 = .error e) :
    ((applyCreate renderDisplay op).run svc.serve u).2.facts = u.facts := by
  cases hn : op.name with
  | none => simp [applyCreate,hn,invalidInput]
  | some name =>
    simp only [applyCreate,hn,Proc.bind_eq,Proc.run_bind] at h ⊢
    have hc := (atomic_createNode name op.description op.parentId op.priority : Atomic svc _ _) u
    cases hr : ((createNode name op.description op.parentId op.priority).run svc.serve u).1 with
    | error e => simpa [hr] using hc.2 e hr
    | ok created => simp [hr] at h

section preRead
/-- The shape of an operation that reads its node before it writes. -/
def preRead (x : String) (w : Api (Except WorkflowyError Unit))
    (res : Except WorkflowyError WorkflowyNode → TxnStepResult) :
    Api (Except WorkflowyError TxnStepResult) := do
  let prev ← getNode x
  match ← w with
  | .error e => return .error e
  | .ok () => return .ok (res prev)

variable {x : String} {w : Api (Except WorkflowyError Unit)} {g : Facts → Facts}
  {res : Except WorkflowyError WorkflowyNode → TxnStepResult}

/-- After an answered pre-read a write that succeeds is the whole effect. -/
theorem preRead_ok (hw : ∀ s : Upstream, (w.run svc.serve s).1 = .ok () →
      Rewrites x g s.facts (w.run svc.serve s).2.facts)
    (hreads : (preRead x w res).Answers ReadOk svc.serve u) {r : TxnStepResult}
    (h : ((preRead x w res).run svc.serve u).1 = .ok r) :
    ∃ n : WorkflowyNode, u.facts x = some n.facts ∧ r = res (.ok n) ∧
      ((preRead x w res).run svc.serve u).2.facts =
        Function.update u.facts x (some (g n.facts)) := by
  simp only [preRead,Proc.bind_eq,Proc.run_bind,Proc.answers_bind] at h hreads ⊢
  obtain ⟨n,hn,hx⟩ := getNode_answered hreads.1
  have hu := run_getNode_facts svc u x
  rw [hn] at h ⊢
  generalize ((getNode x).run svc.serve u).2 = s at h hu ⊢
  cases hr : (w.run svc.serve s).1 with
  | error e => simp [hr] at h
  | ok v =>
    obtain ⟨f,hfx,hv⟩ := hw s hr
    simp only [hr,Proc.pure_eq,Proc.run_ret,Except.ok.injEq] at h ⊢
    rw [hu,hx,Option.some.injEq] at hfx
    exact ⟨n,hx,h.symm,by rw [hv,hu,hfx]⟩

/-- What a failed one leaves is what its failed write leaves. -/
theorem preRead_error {e : WorkflowyError}
    (h : ((preRead x w res).run svc.serve u).1 = .error e) :
    ∃ s : Upstream, s.facts = u.facts ∧ s.clock = u.clock+1 ∧ (w.run svc.serve s).1 = .error e ∧
      ((preRead x w res).run svc.serve u).2 = (w.run svc.serve s).2 := by
  refine ⟨((getNode x).run svc.serve u).2,run_getNode_facts svc u x,run_getNode_clock svc u x,?_⟩
  simp only [preRead,Proc.bind_eq,Proc.run_bind] at h ⊢
  cases hr : (w.run svc.serve ((getNode x).run svc.serve u).2).1 with
  | error e' => simpa [hr] using h
  | ok v => simp [hr] at h

end preRead

theorem applyEdit_ok (hop : op.op = "edit") (hreads : (applyEdit op).Answers ReadOk svc.serve u)
    {r : TxnStepResult} (h : ((applyEdit op).run svc.serve u).1 = .ok r) :
    ∃ inv, r.2.1 = some inv ∧
      Applied u.facts op inv ((applyEdit op).run svc.serve u).2.facts := by
  cases hid : op.nodeId with
  | none => simp [applyEdit,hid,invalidInput] at h
  | some x =>
    by_cases hf : op.name.isNone && op.description.isNone
    · simp [applyEdit,hid,hf,invalidInput] at h
    · simp only [applyEdit,hid,hf,Bool.false_eq_true,if_false] at h hreads ⊢
      obtain ⟨n,hx,rfl,hv⟩ := preRead_ok (fun s => editNode_ok) hreads h
      exact ⟨_,rfl,hv ▸ .edit hop hid hx⟩

theorem applyEdit_error (hop : op.op = "edit") {e : WorkflowyError}
    (h : ((applyEdit op).run svc.serve u).1 = .error e) :
    (∀ x n, HalfEdit svc u op x n → Rewrites x (·.write (some n) none none) u.facts
      ((applyEdit op).run svc.serve u).2.facts) ∧
    ((∀ x n, ¬HalfEdit svc u op x n) →
      ((applyEdit op).run svc.serve u).2.facts = u.facts) := by
  cases hid : op.nodeId with
  | none =>
    refine ⟨fun x n hh => ?_,fun _ => by simp [applyEdit,hid,invalidInput]⟩
    simp [HalfEdit,IsEdit,hid] at hh
  | some x =>
    by_cases hf : op.name.isNone && op.description.isNone
    · refine ⟨fun y n hh => ?_,fun _ => by simp [applyEdit,hid,hf,invalidInput]⟩
      simp [hh.2.1] at hf
    · simp only [applyEdit,hid,hf,Bool.false_eq_true,if_false] at h ⊢
      obtain ⟨s,hfacts,hclock,he,hs⟩ := preRead_error h
      obtain ⟨hland,hno⟩ := editNode_error he
      rw [hfacts] at hland hno
      refine ⟨fun y n hh => ?_,fun hnone => (congrArg Upstream.facts hs).trans (hno ?_)⟩
      · obtain ⟨⟨-,hy⟩,hn,hd,hp,href⟩ := hh
        obtain rfl : x = y := by simpa [hid] using hy
        exact congrArg Upstream.facts hs ▸ hland n hn hd ⟨by rwa [hfacts],by rwa [hclock]⟩
      · intro n hn hd hl
        exact hnone x n ⟨⟨hop,hid⟩,hn,hd,hfacts ▸ hl.1,hclock ▸ hl.2⟩

theorem applyMove_ok (hop : op.op = "move") (hreads : (applyMove op).Answers ReadOk svc.serve u)
    {r : TxnStepResult} (h : ((applyMove op).run svc.serve u).1 = .ok r) :
    ∃ inv, r.2.1 = some inv ∧
      Applied u.facts op inv ((applyMove op).run svc.serve u).2.facts := by
  cases hid : op.nodeId with
  | none => simp [applyMove,hid,invalidInput] at h
  | some x =>
    cases hp : op.newParentId with
    | none => simp [applyMove,hid,hp,invalidInput] at h
    | some p =>
      simp only [applyMove,hid,hp] at h hreads ⊢
      obtain ⟨n,hx,rfl,hv⟩ := preRead_ok (fun s => (atomic_moveNode x p op.priority s).1 ()) hreads h
      exact ⟨_,rfl,hv ▸ .move hop hid hx⟩

theorem applyMove_error {e : WorkflowyError} (h : ((applyMove op).run svc.serve u).1 = .error e) :
    ((applyMove op).run svc.serve u).2.facts = u.facts := by
  cases hid : op.nodeId with
  | none => simp [applyMove,hid,invalidInput]
  | some x =>
    cases hp : op.newParentId with
    | none => simp [applyMove,hid,hp,invalidInput]
    | some p =>
      simp only [applyMove,hid,hp] at h ⊢
      obtain ⟨s,hfacts,-,he,hs⟩ := preRead_error h
      have hfail := (atomic_moveNode x p op.priority s).2 e he
      exact (congrArg Upstream.facts hs).trans (hfail.trans hfacts)

theorem applyCompletion_ok {kind : TxnOpKind} (hop : op.op = "complete" ∨ op.op = "uncomplete")
    (hreads : (applyCompletion kind op).Answers ReadOk svc.serve u) {r : TxnStepResult}
    (h : ((applyCompletion kind op).run svc.serve u).1 = .ok r) :
    ∃ inv, r.2.1 = some inv ∧
      Applied u.facts op inv ((applyCompletion kind op).run svc.serve u).2.facts := by
  cases hid : op.nodeId with
  | none => simp [applyCompletion,hid,invalidInput] at h
  | some x =>
    simp only [applyCompletion,hid] at h hreads ⊢
    obtain ⟨n,hx,rfl,hv⟩ := preRead_ok (fun s => (atomic_setCompletion x _ s).1 ()) hreads h
    exact ⟨_,rfl,hv ▸ .completion hop hid hx⟩

theorem applyCompletion_error {kind : TxnOpKind} {e : WorkflowyError}
    (h : ((applyCompletion kind op).run svc.serve u).1 = .error e) :
    ((applyCompletion kind op).run svc.serve u).2.facts = u.facts := by
  cases hid : op.nodeId with
  | none => simp [applyCompletion,hid,invalidInput]
  | some x =>
    simp only [applyCompletion,hid] at h ⊢
    obtain ⟨s,hfacts,-,he,hs⟩ := preRead_error h
    have hfail := (atomic_setCompletion x _ s).2 e he
    exact (congrArg Upstream.facts hs).trans (hfail.trans hfacts)

/-- A step that succeeds after an answered pre-read comes with the inverse that undoes it. -/
theorem applyTxnStep_ok (hdel : op.op ≠ "delete")
    (hreads : (applyTxnStep renderDisplay op).Answers ReadOk svc.serve u) {r : TxnStepResult}
    (h : ((applyTxnStep renderDisplay op).run svc.serve u).1 = .ok r) :
    ∃ inv, r.2.1 = some inv ∧
      Applied u.facts op inv ((applyTxnStep renderDisplay op).run svc.serve u).2.facts := by
  unfold applyTxnStep at h hreads ⊢
  cases hk : TxnOpKind.parse op.op with
  | none => simp [hk,invalidInput] at h
  | some kind =>
    have hop := TxnOpKind.parse_eq_some.mp hk
    simp only [hk] at h hreads ⊢
    cases kind with
    | Create => exact applyCreate_ok hop h
    | Edit => exact applyEdit_ok hop hreads h
    | Delete => exact absurd hop hdel
    | Move => exact applyMove_ok hop hreads h
    | Complete => exact applyCompletion_ok (.inl hop) hreads h
    | Uncomplete => exact applyCompletion_ok (.inr hop) hreads h

/-- A step that fails changes nothing, unless it is a half-applied edit. -/
theorem applyTxnStep_error (hdel : op.op ≠ "delete") {e : WorkflowyError}
    (h : ((applyTxnStep renderDisplay op).run svc.serve u).1 = .error e) :
    (∀ x n, HalfEdit svc u op x n → Rewrites x (·.write (some n) none none) u.facts
      ((applyTxnStep renderDisplay op).run svc.serve u).2.facts) ∧
    ((∀ x n, ¬HalfEdit svc u op x n) →
      ((applyTxnStep renderDisplay op).run svc.serve u).2.facts = u.facts) := by
  unfold applyTxnStep at h ⊢
  cases hk : TxnOpKind.parse op.op with
  | none =>
    refine ⟨fun x n hh => ?_,fun _ => by simp [invalidInput]⟩
    simp [TxnOpKind.parse,hh.1.1] at hk
  | some kind =>
    have hop := TxnOpKind.parse_eq_some.mp hk
    have hother (hne : kind ≠ .Edit) : ∀ x n, ¬HalfEdit svc u op x n := fun x n hh => by
      have hedit : kind.asStr = "edit" := hop.symm.trans hh.1.1
      cases kind <;> simp [TxnOpKind.asStr] at hedit hne
    have hunchanged {v : View} (hne : kind ≠ .Edit) (hv : v = u.facts) :
        (∀ x n, HalfEdit svc u op x n → Rewrites x (·.write (some n) none none) u.facts v) ∧
          ((∀ x n, ¬HalfEdit svc u op x n) → v = u.facts) :=
      ⟨fun x n hh => absurd hh (hother hne x n),fun _ => hv⟩
    simp only [hk] at h ⊢
    cases kind with
    | Create => exact hunchanged (by simp) (applyCreate_error h)
    | Edit => exact applyEdit_error hop h
    | Delete => exact absurd hop hdel
    | Move => exact hunchanged (by simp) (applyMove_error h)
    | Complete => exact hunchanged (by simp) (applyCompletion_error h)
    | Uncomplete => exact hunchanged (by simp) (applyCompletion_error h)

theorem runTxnInverse_ok {inv : TxnInverse} {r : Json × MutationFootprint}
    (h : ((runTxnInverse inv).run svc.serve u).1 = .ok r) :
    Undone u.facts inv ((runTxnInverse inv).run svc.serve u).2.facts := by
  cases inv with
  | DeleteCreated x p =>
    simp only [runTxnInverse,Proc.bind_eq,Proc.run_bind] at h ⊢
    cases hr : ((deleteNode x).run svc.serve u).1 with
    | error e => simp [hr] at h
    | ok r' => exact .deleteCreated ((atomic_deleteNode x u).1 r' hr)
  | RestoreEdit x n d =>
    simp only [runTxnInverse,Proc.bind_eq,Proc.run_bind] at h ⊢
    cases hr : ((editNode x n d).run svc.serve u).1 with
    | error e => simp [hr] at h
    | ok r' => exact .restoreEdit (editNode_ok hr)
  | UnMove x p pr =>
    cases p with
    | none => exact .skipMove
    | some p =>
      simp only [runTxnInverse,Proc.bind_eq,Proc.run_bind] at h ⊢
      cases hr : ((moveNode x p pr).run svc.serve u).1 with
      | error e => simp [hr] at h
      | ok r' => exact .unMove ((atomic_moveNode x p pr u).1 r' hr)
  | RestoreCompletion x b =>
    simp only [runTxnInverse,Proc.bind_eq,Proc.run_bind] at h ⊢
    cases hr : ((setCompletion x b).run svc.serve u).1 with
    | error e => simp [hr] at h
    | ok r' => exact .restoreCompletion ((atomic_setCompletion x b u).1 r' hr)

end steps

section loops
variable {renderDisplay : String → String} {svc : Service}

/-- An entry of the rollback log that reports success. -/
def Succeeded (entry : Json) : Prop := entry.get "ok" = some (.bool true)

theorem rollback_log_extends {results : List Json} {queue : List TxnInverse} {log : List Json}
    {fp : MutationFootprint} {u : Upstream} :
    log <+: ((rollback results queue log fp).run svc.serve u).1.1 := by
  induction queue generalizing log fp u with
  | nil => exact List.prefix_rfl
  | cons inv queue ih =>
    simp only [rollback,Proc.bind_eq,Proc.run_bind,Proc.run_own]
    cases ((runTxnInverse inv).run svc.serve u).1 with
    | ok r => exact (List.prefix_append _ _).trans ih
    | error e => exact (List.prefix_append _ _).trans ih

/-- A rollback that logs only successes undoes the whole queue. -/
theorem rollback_undo {results : List Json} {queue : List TxnInverse} {log : List Json}
    {fp : MutationFootprint} {u : Upstream}
    (h : ∀ e∈((rollback results queue log fp).run svc.serve u).1.1, Succeeded e) :
    Undo queue u.facts ((rollback results queue log fp).run svc.serve u).2.facts := by
  induction queue generalizing log fp u with
  | nil => rfl
  | cons inv queue ih =>
    simp only [rollback,Proc.bind_eq,Proc.run_bind,Proc.run_own] at h ⊢
    cases hr : ((runTxnInverse inv).run svc.serve u).1 with
    | ok r =>
      simp only [hr] at h ⊢
      exact ⟨_,runTxnInverse_ok hr,ih h⟩
    | error e =>
      simp only [hr] at h
      have hmem := h _ (rollback_log_extends.subset (List.mem_append_right _ (List.mem_singleton_self _)))
      simp [Succeeded,Json.get] at hmem

/-- The store before the operation at index `i` is tried. -/
def stateBefore (renderDisplay : String → String) (svc : Service) (ops : List TxnOp) (i : Nat)
    (u : Upstream) : Upstream :=
  (ops.take i).foldl (fun s op => ((applyTxnStep renderDisplay op).run svc.serve s).2) u

/- A rolled-back loop: the operations before the failing one were applied, that one
   failed, and then the inverses were replayed. -/
def RolledBackAt (renderDisplay : String → String) (svc : Service) (v0 : View)
    (before ops : List TxnOp) (i : Nat) (u : Upstream) (v' : View) : Prop :=
  let s := stateBefore renderDisplay svc ops i u
  ∃ op invs e, ops[i]? = some op ∧ Forward v0 (before++ops.take i) invs s.facts ∧
    ((applyTxnStep renderDisplay op).run svc.serve s).1 = .error e ∧
    Undo invs ((applyTxnStep renderDisplay op).run svc.serve s).2.facts v'

theorem txnLoop_rolledBack {ops before : List TxnOp} {idx i : Nat} {applied : List TxnInverse}
    {results done log : List Json} {fp fp' : MutationFootprint} {error : String} {v0 : View}
    {u : Upstream} (hdel : ∀ op∈ops, op.op ≠ "delete") (hf : Forward v0 before applied u.facts)
    (hreads : (txnLoop renderDisplay idx ops applied results fp).Answers ReadOk svc.serve u)
    (h : ((txnLoop renderDisplay idx ops applied results fp).run svc.serve u).1 =
      (.RolledBack i error done log,fp'))
    (hlog : ∀ e∈log, Succeeded e) :
    ∃ j, i = idx+j ∧ RolledBackAt renderDisplay svc v0 before ops j u
      ((txnLoop renderDisplay idx ops applied results fp).run svc.serve u).2.facts := by
  induction ops generalizing idx before applied results fp u with
  | nil => simp [txnLoop] at h
  | cons op ops ih =>
    simp only [txnLoop,Proc.bind_eq,Proc.run_bind,Proc.run_own,Proc.answers_bind,
      Proc.answers_own] at h hreads ⊢
    cases hr : ((applyTxnStep renderDisplay op).run svc.serve u).1 with
    | error e =>
      simp only [hr,Proc.run_bind,Proc.pure_eq,Proc.run_ret,Prod.mk.injEq,
        TransactionOutcome.RolledBack.injEq] at h ⊢
      obtain ⟨⟨hi,-,-,rfl⟩,-⟩ := h
      exact ⟨0,hi.symm,op,applied,e,rfl,by simpa [stateBefore] using hf,hr,rollback_undo hlog⟩
    | ok r =>
      obtain ⟨inv,hinv,happ⟩ := applyTxnStep_ok (hdel op (by simp)) hreads.1 hr
      simp only [hr,hinv] at h hreads ⊢
      obtain ⟨j,hj,hrest⟩ := ih (fun op hop => hdel op (by simp [hop])) (hf.snoc happ)
        hreads.2 h
      obtain ⟨op',invs,e,hop,hfw,he,hu⟩ := hrest
      refine ⟨j+1,by omega,op',invs,e,by simpa using hop,?_,he,hu⟩
      simpa [stateBefore] using hfw

/-- The nodes of `u` are back with their facts and there are no others. -/
def Restored (u u' : Upstream) : Prop :=
  (∀ x f, u.facts x = some f → u'.facts x = some f) ∧ ∀ x, u.facts x = none → u'.facts x = none

theorem restored_iff {u u' : Upstream} : Restored u u' ↔ u'.facts = u.facts := by
  constructor
  · rintro ⟨hold,hnew⟩
    funext x
    cases hx : u.facts x with
    | none => exact hnew x hx
    | some f => exact hold x f hx
  · intro h
    exact ⟨fun x f hx => h ▸ hx,fun x hx => h ▸ hx⟩

/- Which transactions that fail at index `i` can be undone. Before the failure nothing
   was moved away from the root and no description was added where there was none;
   and if the failing operation is an edit whose name was written before its
   description was refused, that name is the old one or is written back. -/
structure Undoable (renderDisplay : String → String) (svc : Service) (ops : List TxnOp) (i : Nat)
    (u : Upstream) : Prop where
  reversible : Reversible u.facts (ops.take i)
  half : ∀ op x n, ops[i]? = some op →
    HalfEdit svc (stateBefore renderDisplay svc ops i u) op x n →
    ∀ f, u.facts x = some f → n = f.name ∨ ∃ op∈ops.take i, IsEdit x op

/-- A rolled-back transaction, its reads answered and its inverses all successful,
restores the store exactly if it is undoable. -/
theorem rolledBack_restores_iff (ops : List TxnOp) (u : Upstream) {i : Nat} {error : String}
    {done log : List Json} {fp : MutationFootprint} (hdel : ∀ op∈ops, op.op ≠ "delete")
    (hreads : (runTransaction renderDisplay ops).Answers ReadOk svc.serve u)
    (h : ((runTransaction renderDisplay ops).run svc.serve u).1 =
      .ok (.RolledBack i error done log,fp))
    (hlog : ∀ e∈log, Succeeded e) :
    Restored u ((runTransaction renderDisplay ops).run svc.serve u).2 ↔
      Undoable renderDisplay svc ops i u := by
  unfold runTransaction at h hreads ⊢
  by_cases hne : ops.isEmpty
  · simp [hne] at h
  simp only [hne,Bool.false_eq_true,if_false,Proc.bind_eq,Proc.run_bind,Proc.answers_bind,
    Proc.pure_eq,Proc.run_ret,Except.ok.injEq] at h hreads ⊢
  obtain ⟨j,hij,op,invs,e,hop,hfw,he,hu⟩ := txnLoop_rolledBack hdel .nil hreads.1 h hlog
  obtain rfl : i = j := by omega
  have hd : op.op ≠ "delete" := hdel op (List.mem_of_getElem? hop)
  obtain ⟨hhalf,hno⟩ := applyTxnStep_error hd he
  rw [restored_iff]
  by_cases hh : ∃ x n, HalfEdit svc (stateBefore renderDisplay svc ops i u) op x n
  · obtain ⟨x,n,hx⟩ := hh
    refine (hfw.undo_half_iff (hhalf x n hx) hu).trans ⟨fun ⟨hrev,hn⟩ => ⟨hrev,?_⟩,fun hU => ?_⟩
    · rintro op' x' n' hop' hx'
      obtain rfl : op = op' := by simpa [hop] using hop'
      obtain rfl : x = x' := by simpa [hx.1.2] using hx'.1.2
      obtain rfl : n = n' := by simpa [hx.2.1] using hx'.2.1
      exact hn
    · exact ⟨hU.reversible,hU.half op x n hop hx⟩
  · push Not at hh
    rw [hno hh] at hu
    refine (hfw.undo_iff hu).trans ⟨fun hrev => ⟨hrev,?_⟩,Undoable.reversible⟩
    rintro op' x n hop' hx
    obtain rfl : op = op' := by simpa [hop] using hop'
    exact absurd hx (hh x n)

end loops

/-- An edit is written back when an unknown operation follows it. -/
theorem rolledBack_restores_edit :
    Restored { nodes := [{ id := "x", name := "old" }] }
      ((runTransaction id [{ op := "edit", nodeId := some "x", name := some "new" },
        { op := "bogus" }]).run Service.reliable.serve
          { nodes := [{ id := "x", name := "old" }] }).2 := by
  refine (rolledBack_restores_iff _ _ (by decide) ?_ rfl ?_).mpr ⟨⟨?_,?_⟩,?_⟩
  · exact ⟨fun _ _ => rfl,fun _ h => (by cases h),fun _ h => (by cases h),trivial⟩
  · simp [Succeeded,Json.get]
  · simp
  · simp
  · intro op x n hop hh
    have hbogus : op.op = "bogus" := by
      obtain rfl : ({ op := "bogus" } : TxnOp) = op := by simpa using hop
      rfl
    exact absurd hh.1.1 (by simp [hbogus])

/- A node moved away from the root stays where it was moved to: the inverse is skipped
   for want of a previous parent, and logged as a success. -/
theorem root_move_stays :
    let u : Upstream := { nodes := [{ id := "p", name := "P" },{ id := "x", name := "X" }] }
    let ops : List TxnOp :=
      [{ op := "move", nodeId := some "x", newParentId := some "p" },{ op := "bogus" }]
    let p := runTransaction id ops
    (∀ op∈ops, op.op ≠ "delete") ∧ p.Answers ReadOk Service.reliable.serve u ∧
    (∃ i error done log fp, (p.run Service.reliable.serve u).1 =
      .ok (.RolledBack i error done log,fp) ∧ ∀ e∈log, Succeeded e) ∧
    ¬Restored u (p.run Service.reliable.serve u).2 := by
  refine ⟨by decide,⟨fun _ _ => rfl,fun _ h => (by cases h),trivial⟩,
    ⟨_,_,_,_,_,rfl,?_⟩,fun h => ?_⟩
  · simp [Succeeded,Json.get]
  · have hx := h.1 "x" _ rfl
    cases hx

end WorkflowyMcp.Transaction
