import WorkflowyMcp.IndexFootprint
import WorkflowyMcp.StoreLedger
import WorkflowyMcp.TransactionRollback

/-! Entries left behind by deletions. What went is set against what the footprint so far names
and creates: a run either clears every id that went, or dooms one for good. -/
namespace WorkflowyMcp.IndexGhosts
open Transaction

/-- No id that the run took away is left in the index. -/
def NoGhosts (gone : List String) (idx : NameIndex) : Prop :=
  ∀ x∈gone, idx.lookupEntryById x = none

instance (gone : List String) (idx : NameIndex) : Decidable (NoGhosts gone idx) :=
  inferInstanceAs (Decidable (∀ x∈gone, idx.lookupEntryById x = none))

section account
variable {indexed : String → Prop} {s s' s'' : Upstream × Ledger}
  {fp fp' : MutationFootprint} {e e' : Prop} {x : String}

def Clean (indexed : String → Prop) (s : Upstream × Ledger) (fp : MutationFootprint) : Prop :=
  ∀ x∈s.2.gone, x∉fp.made ∧ (indexed x → x∈fp.invalidatedNameIndex)

/- The id `y` went, and as it is not there nothing later can name it. -/
structure Doomed (indexed : String → Prop) (s : Upstream × Ledger) (fp : MutationFootprint)
    (y : String) : Prop where
  gone : y∈s.2.gone
  stays : y∈fp.made ∨ indexed y ∧ y∉fp.invalidatedNameIndex ∧ ¬s.1.Has y

theorem Doomed.not_clean {y : String} (h : Doomed indexed s fp y) : ¬Clean indexed s fp :=
    fun hc => by
  obtain ⟨hmade,hnamed⟩ := hc y h.gone
  rcases h.stays with hy | ⟨hi,hy,-⟩
  · exact hmade hy
  · exact hy (hnamed hi)

/- A part of a run: it keeps the account clean if `e` holds and dooms an id if not. -/
structure Advances (indexed : String → Prop) (s : Upstream × Ledger) (fp : MutationFootprint)
    (s' : Upstream × Ledger) (fp' : MutationFootprint) (e : Prop) : Prop where
  clean : e → Clean indexed s fp → Clean indexed s' fp'
  doomed : ∀ y, Doomed indexed s fp y → Doomed indexed s' fp' y
  caught : ¬e → ∃ y, Doomed indexed s' fp' y

theorem Advances.refl (he : e) : Advances indexed s fp s fp e :=
  ⟨fun _ h => h,fun _ h => h,fun h => absurd he h⟩

theorem Advances.trans {fp'' : MutationFootprint} (h : Advances indexed s fp s' fp' e)
    (h' : Advances indexed s' fp' s'' fp'' e') : Advances indexed s fp s'' fp'' (e ∧ e') where
  clean he hc := h'.clean he.2 (h.clean he.1 hc)
  doomed y hy := h'.doomed y (h.doomed y hy)
  caught hne := by
    by_cases he : e
    · exact h'.caught fun he' => hne ⟨he,he'⟩
    · obtain ⟨y,hy⟩ := h.caught he
      exact ⟨y,h'.doomed y hy⟩

theorem Advances.congr (h : Advances indexed s fp s' fp' e) (hiff : e ↔ e') :
    Advances indexed s fp s' fp' e' := by
  rwa [← propext hiff]

/-- From an empty account the end is clean exactly when `e` holds. -/
theorem Advances.exact {u : Upstream} (h : Advances indexed (u,{}) {} s' fp' e) :
    Clean indexed s' fp' ↔ e := by
  constructor
  · intro hc
    by_contra hne
    obtain ⟨y,hy⟩ := h.caught hne
    exact hy.not_clean hc
  · exact fun he => h.clean he fun x hx => absurd hx (List.not_mem_nil)

/-- Nothing came or went, and what is named is there. -/
theorem Advances.same (h : Same s s') (hmade : fp'.made = [])
    (hnamed : ∀ z∈fp'.invalidatedNameIndex, s.1.Has z) (he : e) :
    Advances indexed s fp s' (fp.extend fp') e where
  clean _ hc x hx := by
    rw [h.gone] at hx
    obtain ⟨h1,h2⟩ := hc x hx
    simp only [MutationFootprint.made_extend,MutationFootprint.named_extend,hmade,List.append_nil]
    exact ⟨h1,fun hi => List.mem_append_left _ (h2 hi)⟩
  doomed y hy := by
    refine ⟨h.gone ▸ hy.gone,?_⟩
    simp only [MutationFootprint.made_extend,MutationFootprint.named_extend,hmade,List.append_nil]
    refine hy.stays.imp_right fun ⟨hi,hn,hno⟩ => ⟨hi,?_,(h.has y).not.mpr hno⟩
    exact fun hmem => (List.mem_append.mp hmem).elim hn fun hz => hno (hnamed y hz)
  caught hne := absurd he hne

theorem Advances.failed (h : Same s s') (he : e) : Advances indexed s fp s' fp e where
  clean _ hc x hx := hc x (h.gone ▸ hx)
  doomed y hy := ⟨h.gone ▸ hy.gone,hy.stays.imp_right fun ⟨hi,hn,hno⟩ => ⟨hi,hn,(h.has y).not.mpr hno⟩⟩
  caught hne := absurd he hne

theorem Advances.created {c : String} (h : Created c s s' e) (hmade : fp'.made = [c])
    (hnamed : fp'.invalidatedNameIndex = []) : Advances indexed s fp s' (fp.extend fp') e where
  clean he hc x hx := by
    rw [h.gone] at hx
    obtain ⟨h1,h2⟩ := hc x hx
    have hxc : x≠c := fun hxc => h.spares.mp he (hxc ▸ hx)
    simpa [hmade,hnamed,hxc,h1] using h2
  doomed y hy := by
    refine ⟨h.gone ▸ hy.gone,?_⟩
    by_cases hyc : y = c
    · exact .inl (by simp [hmade,hyc])
    · refine hy.stays.imp (fun hm => by simp [hm]) fun ⟨hi,hn,hno⟩ => ⟨hi,by simpa [hnamed] using hn,?_⟩
      simpa [h.has,hyc] using hno
  caught hne := by
    have hc : c∈s.2.gone := by
      by_contra hc
      exact hne (h.spares.mpr hc)
    exact ⟨c,h.gone ▸ hc,.inl (by simp [hmade])⟩

/- The ledger and the footprint tell the same. -/
structure Agree (s : Upstream × Ledger) (fp : MutationFootprint) : Prop where
  named : ∀ y, y∈fp.invalidatedNameIndex ↔ y∈s.2.touched
  made : ∀ y, y∈fp.made ↔ y∈s.2.made

/-- What is doomed stays so over a delete, whoever is named. -/
theorem Doomed.removed {y : String} (hy : Doomed indexed s fp y) (h : Removed indexed x s s' e)
    (hmade : fp'.made = fp.made) (hnamed : fp'.invalidatedNameIndex = fp.invalidatedNameIndex++[x]) :
    Doomed indexed s' fp' y := by
  refine ⟨(h.gone y).mpr (.inr hy.gone),?_⟩
  rw [hmade,hnamed]
  refine hy.stays.imp_right fun ⟨hi,hn,hno⟩ => ⟨hi,?_,fun hs => hno (h.old y hs)⟩
  have hyx : y≠x := fun hyx => hno (hyx ▸ h.here)
  simpa [hyx] using hn

theorem Advances.removed (h : Removed indexed x s s' e) (ha : Agree s fp)
    (hmade : fp'.made = fp.made) (hnamed : fp'.invalidatedNameIndex = fp.invalidatedNameIndex++[x]) :
    Advances indexed s fp s' fp' e where
  clean he hc y hy := by
    rw [hmade,hnamed,List.mem_append,List.mem_singleton]
    rcases (h.gone y).mp hy with ⟨hs,hs'⟩ | hy
    · obtain ⟨h1,h2⟩ := h.spares.mp he y hs hs'
      rw [ha.made,ha.named,or_comm]
      exact ⟨h1,h2⟩
    · obtain ⟨h1,h2⟩ := hc y hy
      exact ⟨h1,fun hi => .inl (h2 hi)⟩
  doomed y hy := hy.removed h hmade hnamed
  caught hne := by
    rw [h.spares] at hne
    push Not at hne
    obtain ⟨y,hs,hs',hy⟩ := hne
    refine ⟨y,(h.gone y).mpr (.inl ⟨hs,hs'⟩),?_⟩
    rw [hmade,hnamed]
    by_cases hm : y∈s.2.made
    · exact .inl ((ha.made y).mpr hm)
    · obtain ⟨hi,hyx,hyt⟩ := hy hm
      refine .inr ⟨hi,?_,hs'⟩
      simpa [ha.named,hyx] using hyt

theorem Agree.removed (h : Removed indexed x s s' e) (ha : Agree s fp)
    (hmade : fp'.made = fp.made) (hnamed : fp'.invalidatedNameIndex = fp.invalidatedNameIndex++[x]) :
    Agree s' fp' :=
  ⟨fun y => by simp [hnamed,h.touched,ha.named,or_comm],fun y => by rw [hmade,h.made,ha.made]⟩

/-- To undo a create is to doom its node. -/
theorem Advances.uncreated (h : Removed indexed x s s' e) (hm : x∈s.2.made) (hx : x∈fp.made)
    (hmade : fp'.made = fp.made) (hnamed : fp'.invalidatedNameIndex = fp.invalidatedNameIndex++[x]) :
    Advances indexed s fp s' fp' e where
  clean he := absurd hm (h.spares.mp he x h.here h.target).1
  doomed y hy := hy.removed h hmade hnamed
  caught _ := ⟨x,(h.gone x).mpr (.inl ⟨h.here,h.target⟩),.inl (by rwa [hmade])⟩

/- What a step of a transaction that went through did: wrote to a node, created one, or took
   one away with what lies below it. -/
inductive Done (indexed : String → Prop) (s s' : Upstream × Ledger) (e : Prop)
    (inverse : Option TxnInverse) (fp : MutationFootprint) : Prop
  | wrote (x : String) (same : Same s s') (here : s.1.Has x)
      (touched : ∀ y, y∈s'.2.touched ↔ y∈s.2.touched ∨ y = x) (he : e)
      (named : fp.invalidatedNameIndex = [x]) (made : fp.made = [])
      (undo : ∀ c p, inverse ≠ some (.DeleteCreated c p))
  | created (c : String) (p : Option String) (h : Created c s s' e)
      (named : fp.invalidatedNameIndex = []) (made : fp.made = [c])
      (undo : inverse = some (.DeleteCreated c p))
  | removed (x : String) (h : Removed indexed x s s' e) (named : fp.invalidatedNameIndex = [x])
      (made : fp.made = []) (undo : inverse = none)

variable {inverse : Option TxnInverse}

theorem Done.advances (h : Done indexed s s' e inverse fp') (ha : Agree s fp) :
    Advances indexed s fp s' (fp.extend fp') e := by
  cases h with
  | wrote x same here touched he named made undo =>
    exact Advances.same same made (by simpa [named] using here) he
  | created c p h named made undo => exact Advances.created h made named
  | removed x h named made undo => exact Advances.removed h ha (by simp [made]) (by simp [named])

theorem Done.agree (h : Done indexed s s' e inverse fp') (ha : Agree s fp) :
    Agree s' (fp.extend fp') := by
  cases h with
  | wrote x same here touched he named made undo =>
    exact ⟨fun y => by simp [named,touched,ha.named],fun y => by simp [made,same.made,ha.made]⟩
  | created c p h named made undo =>
    exact ⟨fun y => by simp [named,h.touched,ha.named],
      fun y => by simp [made,h.made,ha.made,or_comm]⟩
  | removed x h named made undo => exact Agree.removed h ha (by simp [made]) (by simp [named])

theorem Still.done (h : Still s s') (hd : Done indexed s' s'' e inverse fp) :
    Done indexed s s'' e inverse fp := by
  cases hd with
  | wrote x same here touched he named made undo =>
    exact .wrote x (h.toSame.trans same) ((h.has x).mp here)
      (fun y => by rw [touched,h.touched]) he named made undo
  | created c p hc named made undo => exact .created c p (h.created hc) named made undo
  | removed x hr named made undo => exact .removed x (h.removed hr) named made undo

theorem Done.iff (h : Done indexed s s' e inverse fp) (he : e ↔ e') :
    Done indexed s s' e' inverse fp := by
  rwa [← propext he]

/-- The node an inverse will delete was created by the step. -/
theorem Done.undo_made (h : Done indexed s s' e inverse fp') {c : String} {p : Option String}
    (hi : inverse = some (.DeleteCreated c p)) : c∈fp'.made := by
  cases h with
  | wrote x same here touched he named made undo => exact absurd hi (undo c p)
  | created c' p' h named made undo =>
    rw [undo] at hi
    cases hi
    simp [made]
  | removed x h named made undo =>
    rw [undo] at hi
    cases hi

end account

section steps
variable {svc : Service} {indexed : String → Prop} {renderDisplay : String → String} {op : TxnOp}
  {x : String}

/- Every run of `p` is accounted for: it fails and moves no node, or does one thing. -/
structure Accounted (svc : Service) (indexed : String → Prop)
    (p : Api (Except WorkflowyError TxnStepResult)) : Prop where
  failed : ∀ s err, (p.run svc.audited s).1 = .error err →
    Same s (p.run svc.audited s).2 ∧ p.Each (Spares svc indexed) svc.audited s
  done : ∀ s r, (p.run svc.audited s).1 = .ok r →
    Done indexed s (p.run svc.audited s).2 (p.Each (Spares svc indexed) svc.audited s) r.2.1 r.2.2

theorem accounted_invalidInput (reason : String) : Accounted svc indexed (invalidInput reason) where
  failed s _ _ := ⟨Same.refl s,trivial⟩
  done _ _ h := by cases h

theorem accounted_preRead {w : Api (Except WorkflowyError Unit)}
    {res : Except WorkflowyError WorkflowyNode → TxnStepResult} (hw : Writes x w)
    (hnamed : ∀ prev, (res prev).2.2.invalidatedNameIndex = [x])
    (hmade : ∀ prev, (res prev).2.2.made = [])
    (hundo : ∀ prev c p, (res prev).2.1 ≠ some (.DeleteCreated c p)) :
    Accounted svc indexed (preRead x w res) := by
  have hp : Writes x (preRead x w res) := Writes.after (Client.about_getNode x) fun prev =>
    hw.bind (fun _ => trivial) fun e => Writes.error e
  refine ⟨fun s err h => ?_,fun s r h => ?_⟩
  · obtain ⟨hsame,heach,-⟩ := hp.run indexed s
    exact ⟨hsame,heach⟩
  · obtain ⟨hsame,heach,hok⟩ := hp.run indexed s
    obtain ⟨hhere,htouched⟩ := hok (by rw [h]; rfl)
    have hr : ∃ prev, r = res prev := by
      simp only [preRead,Proc.bind_eq,Proc.run_bind] at h
      split at h
      · cases h
      · exact ⟨_,(Except.ok.inj h).symm⟩
    obtain ⟨prev,rfl⟩ := hr
    exact .wrote x hsame hhere htouched heach (hnamed prev) (hmade prev) (hundo prev)

/- A client call `p` and what follows it, `k`: an error goes through, a result is dressed up. -/
section tail
variable {α β : Type} {p : Api (Except WorkflowyError α)}
  {k : Except WorkflowyError α → Api (Except WorkflowyError β)} {f : α → β}
  (herror : ∀ e, k (.error e) = .ret (.error e)) (hok : ∀ a, k (.ok a) = .ret (.ok (f a)))
include herror hok

theorem run_tail (s : Upstream × Ledger) :
    (p.bind k).run svc.audited s = ((p.run svc.audited s).1.map f,(p.run svc.audited s).2) := by
  rw [Proc.run_bind]
  cases (p.run svc.audited s).1 with
  | error e => rw [herror]; rfl
  | ok a => rw [hok]; rfl

theorem each_tail (s : Upstream × Ledger) :
    (p.bind k).Each (Spares svc indexed) svc.audited s ↔
      p.Each (Spares svc indexed) svc.audited s := by
  rw [Proc.each_bind]
  refine and_iff_left ?_
  cases (p.run svc.audited s).1 with
  | error e => rw [herror]; trivial
  | ok a => rw [hok]; trivial

end tail

theorem map_eq_ok {α β : Type} {r : Except WorkflowyError α} {f : α → β} {b : β}
    (h : r.map f = .ok b) : ∃ a, r = .ok a ∧ f a = b := by
  cases r with
  | error e => cases h
  | ok a => exact ⟨a,rfl,Except.ok.inj h⟩

theorem map_eq_error {α β : Type} {r : Except WorkflowyError α} {f : α → β} {e : WorkflowyError}
    (h : r.map f = .error e) : r = .error e := by
  cases r with
  | error e' => cases h; rfl
  | ok a => cases h

theorem accounted_createTail {name : String} {description parentId : Option String}
    {priority : Option Int} {k : Except WorkflowyError CreatedNode → Api (Except WorkflowyError TxnStepResult)}
    {f : CreatedNode → TxnStepResult}
    (herror : ∀ e, k (.error e) = .ret (.error e)) (hok : ∀ a, k (.ok a) = .ret (.ok (f a)))
    (hnamed : ∀ created, (f created).2.2.invalidatedNameIndex = [])
    (hmade : ∀ created, (f created).2.2.made = [created.id])
    (hundo : ∀ created, (f created).2.1 = some (.DeleteCreated created.id parentId)) :
    Accounted svc indexed ((Client.createNode name description parentId priority).bind k) := by
  refine ⟨fun s err h => ?_,fun s r h => ?_⟩ <;> rw [run_tail herror hok] at h ⊢
  · obtain ⟨hfail,-⟩ := Client.ledger_createNode svc indexed s name description parentId priority
    obtain ⟨hstill,heach⟩ := hfail err (map_eq_error h)
    exact ⟨hstill.toSame,(each_tail herror hok s).mpr heach⟩
  · obtain ⟨-,hdone⟩ := Client.ledger_createNode svc indexed s name description parentId priority
    obtain ⟨created,hr,rfl⟩ := map_eq_ok h
    exact .created created.id parentId ((hdone created hr).iff (each_tail herror hok s).symm)
      (hnamed created) (hmade created) (hundo created)

theorem accounted_create : Accounted svc indexed (applyCreate renderDisplay op) := by
  cases hn : op.name with
  | none =>
    simp only [applyCreate,hn]
    exact accounted_invalidInput _
  | some name =>
    simp only [applyCreate,hn]
    apply accounted_createTail
    · exact fun e => rfl
    · exact fun created => rfl
    · intro created
      cases op.parentId <;> rfl
    · intro created
      cases op.parentId <;> rfl
    · exact fun created => rfl

theorem accounted_deleteTail {k : Except WorkflowyError Unit → Api (Except WorkflowyError TxnStepResult)}
    {f : Unit → TxnStepResult}
    (herror : ∀ e, k (.error e) = .ret (.error e)) (hok : ∀ a, k (.ok a) = .ret (.ok (f a)))
    (hnamed : (f ()).2.2.invalidatedNameIndex = [x]) (hmade : (f ()).2.2.made = [])
    (hundo : (f ()).2.1 = none) : Accounted svc indexed ((Client.deleteNode x).bind k) := by
  refine ⟨fun s err h => ?_,fun s r h => ?_⟩ <;> rw [run_tail herror hok] at h ⊢
  · obtain ⟨hfail,-⟩ := Client.ledger_deleteNode svc indexed s x
    obtain ⟨hstill,heach⟩ := hfail err (map_eq_error h)
    exact ⟨hstill.toSame,(each_tail herror hok s).mpr heach⟩
  · obtain ⟨-,hdone⟩ := Client.ledger_deleteNode svc indexed s x
    obtain ⟨⟨⟩,hr,rfl⟩ := map_eq_ok h
    exact .removed x ((hdone hr).iff (each_tail herror hok s).symm) hnamed hmade hundo

/-- Reading first changes nothing of the account. -/
theorem Accounted.after {α : Type} {p : Api (Except WorkflowyError α)}
    {g : Except WorkflowyError α → Api (Except WorkflowyError TxnStepResult)} (hp : p.Issues Reads)
    (herror : ∀ e, g (.error e) = .ret (.error e)) (hok : ∀ a, Accounted svc indexed (g (.ok a))) :
    Accounted svc indexed (p.bind g) := by
  refine ⟨fun s err h => ?_,fun s r h => ?_⟩ <;> rw [Proc.run_bind] at h ⊢
  · obtain ⟨hstill,heach⟩ := still_reads svc indexed hp s
    rw [Proc.each_bind]
    cases hr : (p.run svc.audited s).1 with
    | error e =>
      rw [herror]
      exact ⟨hstill.toSame,heach,trivial⟩
    | ok a =>
      rw [hr] at h
      obtain ⟨hsame,hrest⟩ := (hok a).failed _ err h
      exact ⟨hstill.toSame.trans hsame,heach,hrest⟩
  · obtain ⟨hstill,heach⟩ := still_reads svc indexed hp s
    cases hr : (p.run svc.audited s).1 with
    | error e =>
      rw [hr,herror] at h
      cases h
    | ok a =>
      rw [hr] at h
      refine (Still.done hstill ((hok a).done _ r h)).iff ?_
      rw [Proc.each_bind,hr]
      exact (and_iff_right heach).symm

theorem reads_deleteGuard (nodeId : String) (expected : Option String) :
    (deleteGuard renderDisplay nodeId expected).Issues Reads := by
  cases expected with
  | none => trivial
  | some expected =>
    simp only [deleteGuard,Proc.bind_eq]
    refine (Client.reads_getNode nodeId).bind fun r => ?_
    cases r with
    | error e => trivial
    | ok current =>
      dsimp only
      generalize destructiveEchoMatches renderDisplay current.name expected = b
      cases b <;> trivial

theorem accounted_delete : Accounted svc indexed (applyDelete renderDisplay op) := by
  cases hid : op.nodeId with
  | none =>
    simp only [applyDelete,hid]
    exact accounted_invalidInput _
  | some x =>
    simp only [applyDelete,hid]
    refine Accounted.after (reads_deleteGuard x op.expectName) (fun e => rfl) fun u => ?_
    apply accounted_deleteTail
    · exact fun e => rfl
    · exact fun u => rfl
    · rfl
    · rfl
    · rfl

theorem accounted_edit : Accounted svc indexed (applyEdit op) := by
  cases hid : op.nodeId with
  | none =>
    simp only [applyEdit,hid]
    exact accounted_invalidInput _
  | some x =>
    by_cases hf : op.name.isNone && op.description.isNone
    · simp only [applyEdit,hid,hf,if_true]
      exact accounted_invalidInput _
    · simp only [applyEdit,hid,hf,Bool.false_eq_true,if_false]
      refine accounted_preRead (Client.writes_editNode op.name op.description) (fun _ => rfl)
        (fun _ => rfl) fun prev c p => ?_
      cases prev <;> simp [Except.toOption]

theorem accounted_move : Accounted svc indexed (applyMove op) := by
  cases hid : op.nodeId with
  | none =>
    simp only [applyMove,hid]
    exact accounted_invalidInput _
  | some x =>
    cases hp : op.newParentId with
    | none =>
      simp only [applyMove,hid,hp]
      exact accounted_invalidInput _
    | some p =>
      simp only [applyMove,hid,hp]
      refine accounted_preRead (Client.writes_moveNode p op.priority) (fun prev => ?_)
        (fun prev => ?_) fun prev c p => by simp
      · cases prev.toOption.bind WorkflowyNode.parentId <;> rfl
      · cases prev.toOption.bind WorkflowyNode.parentId <;> rfl

theorem accounted_completion (kind : TxnOpKind) :
    Accounted svc indexed (applyCompletion kind op) := by
  cases hid : op.nodeId with
  | none =>
    simp only [applyCompletion,hid]
    exact accounted_invalidInput _
  | some x =>
    simp only [applyCompletion,hid]
    refine accounted_preRead (Client.writes_setCompletion _) (fun _ => rfl) (fun _ => rfl)
      fun prev c p => ?_
    cases prev <;> simp [Except.toOption]

/-- What any step can do. -/
theorem accounted_step (svc : Service) (indexed : String → Prop) (renderDisplay : String → String)
    (op : TxnOp) : Accounted svc indexed (applyTxnStep renderDisplay op) := by
  unfold applyTxnStep
  split
  · exact accounted_invalidInput _
  · exact accounted_create
  · exact accounted_edit
  · exact accounted_delete
  · exact accounted_move
  · exact accounted_completion _
  · exact accounted_completion _

/- An inverse that went through: it took back a create, or moved no node. -/
inductive Undid (indexed : String → Prop) (s s' : Upstream × Ledger) (e : Prop) (inv : TxnInverse)
    (fp : MutationFootprint) : Prop
  | uncreated (c : String) (p : Option String) (hinv : inv = .DeleteCreated c p)
      (h : Removed indexed c s s' e) (named : fp.invalidatedNameIndex = [c]) (made : fp.made = [])
  | wrote (same : Same s s') (he : e) (named : ∀ z∈fp.invalidatedNameIndex, s.1.Has z)
      (made : fp.made = [])

section inverse
variable {inv : TxnInverse}

structure Undoes (svc : Service) (indexed : String → Prop) (inv : TxnInverse)
    (p : Api (Except WorkflowyError (Json × MutationFootprint))) : Prop where
  failed : ∀ s err, (p.run svc.audited s).1 = .error err →
    Same s (p.run svc.audited s).2 ∧ p.Each (Spares svc indexed) svc.audited s
  done : ∀ s r, (p.run svc.audited s).1 = .ok r →
    Undid indexed s (p.run svc.audited s).2 (p.Each (Spares svc indexed) svc.audited s) inv r.2

theorem undoes_write {w : Api (Except WorkflowyError Unit)}
    {k : Except WorkflowyError Unit → Api (Except WorkflowyError (Json × MutationFootprint))}
    {f : Unit → Json × MutationFootprint} (hw : Writes x w)
    (herror : ∀ e, k (.error e) = .ret (.error e)) (hok : ∀ a, k (.ok a) = .ret (.ok (f a)))
    (hnamed : ∀ z∈(f ()).2.invalidatedNameIndex, z = x) (hmade : (f ()).2.made = []) :
    Undoes svc indexed inv (w.bind k) := by
  refine ⟨fun s err h => ?_,fun s r h => ?_⟩ <;> rw [run_tail herror hok] at h ⊢
  · obtain ⟨hsame,heach,-⟩ := hw.run indexed s
    exact ⟨hsame,(each_tail herror hok s).mpr heach⟩
  · obtain ⟨hsame,heach,hhere⟩ := hw.run indexed s
    obtain ⟨⟨⟩,hr,rfl⟩ := map_eq_ok h
    refine .wrote hsame ((each_tail herror hok s).mpr heach) (fun z hz => ?_) hmade
    rw [hnamed z hz]
    exact (hhere (by rw [hr]; rfl)).1

theorem undoes_delete {c : String} {p : Option String}
    {k : Except WorkflowyError Unit → Api (Except WorkflowyError (Json × MutationFootprint))}
    {f : Unit → Json × MutationFootprint}
    (herror : ∀ e, k (.error e) = .ret (.error e)) (hok : ∀ a, k (.ok a) = .ret (.ok (f a)))
    (hnamed : (f ()).2.invalidatedNameIndex = [c]) (hmade : (f ()).2.made = []) :
    Undoes svc indexed (.DeleteCreated c p) ((Client.deleteNode c).bind k) := by
  refine ⟨fun s err h => ?_,fun s r h => ?_⟩ <;> rw [run_tail herror hok] at h ⊢
  · obtain ⟨hfail,-⟩ := Client.ledger_deleteNode svc indexed s c
    obtain ⟨hstill,heach⟩ := hfail err (map_eq_error h)
    exact ⟨hstill.toSame,(each_tail herror hok s).mpr heach⟩
  · obtain ⟨-,hdone⟩ := Client.ledger_deleteNode svc indexed s c
    obtain ⟨⟨⟩,hr,rfl⟩ := map_eq_ok h
    exact .uncreated c p rfl ((hdone hr).iff (each_tail herror hok s).symm) hnamed hmade

theorem undoes_inverse (svc : Service) (indexed : String → Prop) (inv : TxnInverse) :
    Undoes svc indexed inv (runTxnInverse inv) := by
  cases inv with
  | DeleteCreated c p =>
    simp only [runTxnInverse,Proc.bind_eq]
    apply undoes_delete
    · exact fun e => rfl
    · exact fun u => rfl
    · cases p <;> rfl
    · cases p <;> rfl
  | RestoreEdit x n d =>
    simp only [runTxnInverse,Proc.bind_eq]
    apply undoes_write (Client.writes_editNode n d)
    · exact fun e => rfl
    · exact fun u => rfl
    · simp [MutationFootprint.invalidateNode]
    · rfl
  | UnMove x p priority =>
    cases p with
    | none =>
      refine ⟨fun s err h => ⟨Same.refl s,trivial⟩,fun s r h => ?_⟩
      cases h
      exact .wrote (Same.refl s) trivial (by simp) rfl
    | some p =>
      simp only [runTxnInverse,Proc.bind_eq]
      apply undoes_write (Client.writes_moveNode p priority)
      · exact fun e => rfl
      · exact fun u => rfl
      · simp [MutationFootprint.invalidateCacheOnly]
      · rfl
  | RestoreCompletion x b =>
    simp only [runTxnInverse,Proc.bind_eq]
    apply undoes_write (Client.writes_setCompletion b)
    · exact fun e => rfl
    · exact fun u => rfl
    · simp [MutationFootprint.invalidateNode]
    · rfl

variable {s s' : Upstream × Ledger} {fp fp' : MutationFootprint} {e : Prop}

theorem Undid.advances (h : Undid indexed s s' e inv fp')
    (hmade : ∀ c p, inv = .DeleteCreated c p → c∈fp.made ∧ c∈s.2.made) :
    Advances indexed s fp s' (fp.extend fp') e := by
  cases h with
  | uncreated c p hinv h named made =>
    obtain ⟨hfp,hs⟩ := hmade c p hinv
    exact Advances.uncreated h hs hfp (by simp [made]) (by simp [named])
  | wrote same he named made => exact Advances.same same made named he

theorem Undid.made_eq (h : Undid indexed s s' e inv fp') : s'.2.made = s.2.made := by
  cases h with
  | uncreated c p hinv h named made => exact h.made
  | wrote same he named made => exact same.made

end inverse

/-- Over a rollback: every delete in it takes back a node that was created. -/
theorem rollback_advances (svc : Service) (indexed : String → Prop) (results : List Json)
    {queue : List TxnInverse} (log : List Json)
    {fp : MutationFootprint} {s : Upstream × Ledger}
    (hq : ∀ c p, .DeleteCreated c p∈queue → c∈fp.made ∧ c∈s.2.made) :
    let p := rollback results queue log fp
    Advances indexed s fp (p.run svc.audited s).2 (p.run svc.audited s).1.2
      (p.Each (Spares svc indexed) svc.audited s) := by
  induction queue generalizing log fp s with
  | nil => exact Advances.refl trivial
  | cons inv queue ih =>
    obtain ⟨hfailed,hdone⟩ := undoes_inverse svc indexed inv
    simp only [rollback,Proc.bind_eq,Proc.run_bind,Proc.each_bind,Proc.run_own,Proc.each_own]
    cases hr : ((runTxnInverse inv).run svc.audited s).1 with
    | error err =>
      obtain ⟨hsame,heach⟩ := hfailed s err hr
      refine (Advances.failed hsame heach).trans (ih _ fun c p hc => ?_)
      rw [hsame.made]
      exact hq c p (List.mem_cons_of_mem _ hc)
    | ok r =>
      have hundid := hdone s r hr
      have hadv := hundid.advances fun c p hinv => hq c p (by simp [hinv])
      refine hadv.trans (ih _ fun c p hc => ?_)
      rw [hundid.made_eq,MutationFootprint.made_extend,List.mem_append]
      exact (hq c p (List.mem_cons_of_mem _ hc)).imp_left .inl

/-- Over the loop, each operation with the footprint of those before it. -/
theorem txnLoop_advances (svc : Service) (indexed : String → Prop)
    (renderDisplay : String → String) (idx : Nat) (ops : List TxnOp) {applied : List TxnInverse}
    (results : List Json) {fp : MutationFootprint} {s : Upstream × Ledger} (ha : Agree s fp)
    (hq : ∀ c p, .DeleteCreated c p∈applied → c∈fp.made) :
    let p := txnLoop renderDisplay idx ops applied results fp
    Advances indexed s fp (p.run svc.audited s).2 (p.run svc.audited s).1.2
      (p.Each (Spares svc indexed) svc.audited s) := by
  induction ops generalizing idx applied results fp s with
  | nil => exact Advances.refl trivial
  | cons op ops ih =>
    obtain ⟨hfailed,hdone⟩ := accounted_step svc indexed renderDisplay op
    simp only [txnLoop,Proc.bind_eq,Proc.run_bind,Proc.each_bind,Proc.run_own,Proc.each_own]
    cases hr : ((applyTxnStep renderDisplay op).run svc.audited s).1 with
    | error err =>
      obtain ⟨hsame,heach⟩ := hfailed s err hr
      simp only [Proc.run_bind,Proc.each_bind]
      refine (Advances.failed hsame heach).trans
        ((rollback_advances svc indexed results [] ?_).congr ?_)
      · intro c p hc
        rw [hsame.made,← ha.made]
        exact ⟨hq c p hc,hq c p hc⟩
      · exact (and_iff_left trivial).symm
    | ok r =>
      obtain ⟨summary,inverse,fp'⟩ := r
      have hd := hdone s _ hr
      refine (hd.advances ha).trans (ih _ _ (hd.agree ha) fun c p hc => ?_)
      rw [MutationFootprint.made_extend,List.mem_append]
      rcases List.mem_append.mp hc with hc | hc
      · exact .inr (hd.undo_made (Option.mem_toList.mp hc))
      · exact .inl (hq c p hc)

theorem bulkLoop_advances (svc : Service) (indexed : String → Prop)
    (addTagToName : String → String → Option String) (removeTagFromName : String → String → String)
    (operationTag : String) (nodes : List WorkflowyNode)
    (affectedIds : List String) {fp : MutationFootprint} {s : Upstream × Ledger} (ha : Agree s fp) :
    let p := bulkLoop addTagToName removeTagFromName .Delete operationTag nodes affectedIds fp
    Advances indexed s fp (p.run svc.audited s).2 (p.run svc.audited s).1.2
      (p.Each (Spares svc indexed) svc.audited s) := by
  induction nodes generalizing affectedIds fp s with
  | nil => exact Advances.refl trivial
  | cons node nodes ih =>
    obtain ⟨hfail,hdone⟩ := Client.ledger_deleteNode svc indexed s node.id
    simp only [bulkLoop,bulkStep,Proc.bind_eq,Proc.run_bind,Proc.each_bind,Proc.pure_eq,Proc.run_ret]
    cases hr : ((Client.deleteNode node.id).run svc.audited s).1 with
    | error err =>
      obtain ⟨hstill,heach⟩ := hfail err hr
      have hagree : Agree ((Client.deleteNode node.id).run svc.audited s).2 fp :=
        ⟨fun y => by rw [hstill.touched,ha.named],fun y => by rw [hstill.made,ha.made]⟩
      simp only [Except.isOk,Except.toBool,Bool.false_eq_true,if_false]
      exact ((Advances.failed hstill.toSame heach).trans (ih affectedIds hagree)).congr
        (by simp [Proc.Each])
    | ok u =>
      have hremoved := hdone hr
      have hstep (fp' : MutationFootprint) (hmade : fp'.made = fp.made)
          (hnamed : fp'.invalidatedNameIndex = fp.invalidatedNameIndex++[node.id]) :=
        (Advances.removed hremoved ha hmade hnamed).trans
          (ih (affectedIds++[node.id]) (Agree.removed hremoved ha hmade hnamed))
      simp only [Except.isOk,Except.toBool,if_true]
      cases node.parentId with
      | none => exact (hstep (fp.invalidateNode node.id) rfl rfl).congr (by simp [Proc.Each])
      | some pid =>
        exact (hstep ((fp.invalidateNode node.id).invalidateCacheOnly pid) rfl rfl).congr
          (by simp [Proc.Each])

section delete
variable {s : Upstream × Ledger}

theorem reads_withPropagationRetry {α : Type} {p : Api (Except WorkflowyError α)}
    (hp : p.Issues Reads) (left : Nat) : (Client.withPropagationRetry p left).Issues Reads := by
  induction left with
  | zero => exact hp
  | succ left ih =>
    simp only [Client.withPropagationRetry,Proc.bind_eq]
    apply hp.bind
    intro r
    cases r with
    | ok a => trivial
    | error e =>
      dsimp only
      split
      · exact ih
      · trivial

theorem reads_expectNameGuard (renderDisplay : String → String) (nodeId : String)
    (expectName : Option String) :
    (expectNameGuard renderDisplay nodeId expectName).Issues Reads := by
  cases expectName with
  | none => trivial
  | some expected =>
    simp only [expectNameGuard,Proc.bind_eq]
    apply Proc.Issues.bind (reads_withPropagationRetry (Client.reads_getNode nodeId) _)
    intro r
    cases r with
    | error e => trivial
    | ok current =>
      dsimp only
      generalize destructiveEchoMatches renderDisplay current.name expected = b
      cases b <;> trivial

/-- A delete that goes through after retries goes through on the store as it was. -/
theorem delete_retried (left : Nat)
    (h : ((Client.withPropagationRetry (Client.deleteNode x) left).run svc.audited s).1 = .ok ()) :
    ∃ s', Still s s' ∧ s'.1.nodes = s.1.nodes ∧ (svc.serve (.deleteNode x) s'.1).1 = .ok () ∧
      ((Client.withPropagationRetry (Client.deleteNode x) left).run svc.audited s).2 =
        (svc.audited (.deleteNode x) s').2 := by
  induction left generalizing s with
  | zero => exact ⟨s,Still.refl s,rfl,h,rfl⟩
  | succ left ih =>
    simp only [Client.withPropagationRetry,Proc.bind_eq,Proc.run_bind] at h ⊢
    cases hr : ((Client.deleteNode x).run svc.audited s).1 with
    | ok u => exact ⟨s,Still.refl s,rfl,hr,rfl⟩
    | error e =>
      simp only [hr] at h ⊢
      by_cases h4 : is404Like e
      · simp only [h4,if_true] at h ⊢
        obtain ⟨hstill,-⟩ := still_of_error (fun _ => True) hr
        obtain ⟨s',hs',hnodes,hok,hrun⟩ := ih h
        exact ⟨s',hstill.trans hs',hnodes.trans (svc.serve_error hr),hok,hrun⟩
      · simp [h4] at h

end delete
end steps

section tools
variable {svc : Service} {toLowercase renderDisplay : String → String} {s : Server} {u : Upstream}

theorem noGhosts_iff_clean (h : s.nameIndex.Wf toLowercase) (st : Upstream × Ledger)
    (fp : MutationFootprint) :
    NoGhosts st.2.gone (s.applyFootprint toLowercase fp).nameIndex ↔
      Clean s.nameIndex.Indexed st fp :=
  forall₂_congr fun x _ => Server.lookup_applyFootprint h fp x

theorem deleteNode_noGhosts (h : s.nameIndex.Wf toLowercase) (nodeId : String)
    (expectName : Option String) {text : String}
    (hok : ((Server.deleteNode renderDisplay s nodeId expectName).run svc.audited (u,{})).1.1 = .ok text) :
    let r := (Server.deleteNode renderDisplay s nodeId expectName).run svc.audited (u,{})
    NoGhosts r.2.2.gone r.1.2.nameIndex ↔
      ∀ y, u.Has y → inSubtree u.nodes nodeId u.nodes.length y → y≠nodeId →
        ¬s.nameIndex.Indexed y := by
  have hguard := reads_expectNameGuard renderDisplay nodeId expectName
  obtain ⟨hstill,-⟩ := still_reads svc (fun _ => True) hguard (u,{})
  have hnodes := nodes_reads svc hguard (u,{})
  simp only [Server.deleteNode,Proc.bind_eq,Proc.run_bind] at hok ⊢
  cases hg : ((expectNameGuard renderDisplay nodeId expectName).run svc.audited (u,{})).1 with
  | error e => simp [hg] at hok
  | ok _ =>
    simp only [hg,Proc.run_bind] at hok ⊢
    generalize ((expectNameGuard renderDisplay nodeId expectName).run svc.audited (u,{})).2 = st
      at hstill hnodes hok ⊢
    cases hr : ((Client.deleteNodeWithPropagationRetry nodeId).run svc.audited st).1 with
    | error e => simp [hr] at hok
    | ok _ =>
      obtain ⟨st',hstill',hnodes',hdel,hrun⟩ := delete_retried _ hr
      have hrun : ((Client.deleteNodeWithPropagationRetry nodeId).run svc.audited st).2 =
          (svc.audited (.deleteNode nodeId) st').2 := hrun
      have hremoved := (hstill.trans hstill').removed (audited_delete (fun _ => True) hdel)
      have hgone (y : String) : y∈(svc.audited (.deleteNode nodeId) st').2.2.gone ↔
          u.Has y ∧ inSubtree u.nodes nodeId u.nodes.length y = true := by
        have hhas := svc.has_serve_delete hdel y
        rw [hnodes'.trans hnodes,Service.has_of_nodes (hnodes'.trans hnodes)] at hhas
        rw [hremoved.gone,or_iff_left (List.not_mem_nil)]
        refine and_congr_right fun hy => ?_
        show ¬(svc.serve (.deleteNode nodeId) st'.1).2.Has y ↔ _
        rw [hhas,not_and,Bool.not_eq_false]
        exact forall_prop_of_true hy
      simp only [hrun,Proc.pure_eq,Proc.run_ret,Server.nameIndex_invalidateForMutation,NoGhosts,
        hgone,List.foldl_cons,List.foldl_nil,NameIndex.lookup_invalidateNode h,
        NameIndex.indexed_iff h,not_not,and_imp]
      refine forall_congr' fun y => forall₂_congr fun _ _ => ?_
      by_cases hy : y = nodeId
      · simp [hy]
      · simp [hy]

theorem bulkUpdate_noGhosts (h : s.nameIndex.Wf toLowercase)
    (addTagToName : String → String → Option String) (removeTagFromName : String → String → String)
    (rootId : Option String) (nodes : List WorkflowyNode) (operationTag : Option String) :
    let p := Server.bulkUpdate addTagToName removeTagFromName toLowercase s rootId .Delete nodes operationTag
    NoGhosts (p.run svc.audited (u,{})).2.2.gone (p.run svc.audited (u,{})).1.2.nameIndex ↔
      p.Each (Spares svc s.nameIndex.Indexed) svc.audited (u,{}) := by
  have hstart : Agree (u,{}) {} := ⟨fun y => by simp,fun y => by simp⟩
  have hadv := bulkLoop_advances svc s.nameIndex.Indexed addTagToName removeTagFromName
    (operationTag.getD "") nodes [] hstart
  simp only [Server.bulkUpdate,applyBulkOp,BulkOp.requiresTag,Bool.false_and,Bool.false_eq_true,if_false,
    Proc.bind_eq,Proc.pure_eq,Proc.run_bind,Proc.run_ret,Proc.each_bind,Proc.Each,and_true]
  rw [noGhosts_iff_clean h]
  exact hadv.exact

theorem transaction_noGhosts (h : s.nameIndex.Wf toLowercase) (ops : List TxnOp)
    {outcome : TransactionOutcome}
    (hok : ((Server.transaction toLowercase renderDisplay s ops).run svc.audited (u,{})).1.1 = .ok outcome) :
    let p := Server.transaction toLowercase renderDisplay s ops
    NoGhosts (p.run svc.audited (u,{})).2.2.gone (p.run svc.audited (u,{})).1.2.nameIndex ↔
      p.Each (Spares svc s.nameIndex.Indexed) svc.audited (u,{}) := by
  have hstart : Agree (u,{}) {} := ⟨fun y => by simp,fun y => by simp⟩
  have hnone : ∀ c p, TxnInverse.DeleteCreated c p∈[] → c∈({} : MutationFootprint).made := by simp
  have hadv := txnLoop_advances svc s.nameIndex.Indexed renderDisplay 0 ops [] hstart hnone
  simp only [Server.transaction,runTransaction,Proc.bind_eq,Proc.run_bind,Proc.each_bind] at hok ⊢
  cases hops : ops.isEmpty with
  | true => simp [hops] at hok
  | false =>
    simp only [Bool.false_eq_true,if_false,Proc.pure_eq,Proc.run_bind,Proc.run_ret,Proc.each_bind,
      Proc.Each,and_true]
    rw [noGhosts_iff_clean h]
    exact hadv.exact

end tools

/-- Which runs leave no entry behind, over every state of the index: a `delete_node` whose target
has no indexed node below it; a bulk delete or a transaction each of whose deletions spares what
the run created and every indexed node that no write before it named. -/
theorem no_ghosts_iff (toLowercase renderDisplay : String → String)
    (addTagToName : String → String → Option String) (removeTagFromName : String → String → String)
    (cache : NodeCache) (calls : List NameIndex.IndexOp) (svc : Service) (u : Upstream) :
    let s := Server.after toLowercase cache calls
    (∀ nodeId expectName,
      let r := (Server.deleteNode renderDisplay s nodeId expectName).run svc.audited (u,{})
      ∀ text, r.1.1 = .ok text →
        (NoGhosts r.2.2.gone r.1.2.nameIndex ↔ ∀ y, u.Has y →
          inSubtree u.nodes nodeId u.nodes.length y → y≠nodeId → ¬s.nameIndex.Indexed y)) ∧
    (∀ rootId nodes operationTag,
      let p := Server.bulkUpdate addTagToName removeTagFromName toLowercase s rootId .Delete nodes
        operationTag
      NoGhosts (p.run svc.audited (u,{})).2.2.gone (p.run svc.audited (u,{})).1.2.nameIndex ↔
        p.Each (Spares svc s.nameIndex.Indexed) svc.audited (u,{})) ∧
    ∀ ops,
      let p := Server.transaction toLowercase renderDisplay s ops
      let r := p.run svc.audited (u,{})
      ∀ outcome, r.1.1 = .ok outcome →
        (NoGhosts r.2.2.gone r.1.2.nameIndex ↔
          p.Each (Spares svc s.nameIndex.Indexed) svc.audited (u,{})) := by
  have h := Server.wf_after toLowercase cache calls
  exact ⟨fun nodeId expectName text hok => deleteNode_noGhosts h nodeId expectName hok,
    bulkUpdate_noGhosts h addTagToName removeTagFromName,
    fun ops outcome hok => transaction_noGhosts h ops hok⟩

/- A page with one node below it. -/
def page : List WorkflowyNode :=
  [{ id := "p", name := "Page" },{ id := "c", name := "Child", parentId := some "p" }]

/-- The node below is deleted, by the tool or by a transaction that has renamed it before. -/
theorem leaf_deleted :
    let u : Upstream := { nodes := page }
    let s := Server.after asciiLowercase {} [.ingest page]
    let r := (Server.deleteNode id s "c" none).run Service.reliable.audited (u,{})
    let ops : List TxnOp := [{ op := "edit", nodeId := some "c", name := some "New" },
      { op := "delete", nodeId := some "c" }]
    let t := (Server.transaction asciiLowercase id s ops).run Service.reliable.audited (u,{})
    NoGhosts r.2.2.gone r.1.2.nameIndex ∧ NoGhosts t.2.2.gone t.1.2.nameIndex := by
  intro u s r ops t
  have h := no_ghosts_iff asciiLowercase id (fun _ _ => none) (fun name _ => name) {} [.ingest page]
    Service.reliable u
  refine ⟨(h.1 "c" none _ rfl).mpr fun y hy hbelow hne => ?_,(h.2.2 _ _ rfl).mpr (by decide)⟩
  rw [Upstream.has_iff] at hy
  obtain rfl | rfl : y = "p" ∨ y = "c" := by simpa [u,page] using hy
  · exact absurd hbelow (by decide)
  · exact absurd rfl hne

/- Every entry is that of a node in the store. -/
def Consistent (idx : NameIndex) (u : Upstream) : Prop :=
  ∀ id e, idx.lookupEntryById id = some e → ∃ n∈u.nodes, e = NameIndexEntry.ofNode n

theorem observeAll_ofNode {toLowercase : String → String} {id : String} {o : Option NameIndexEntry}
    {nodes : List WorkflowyNode} {e : NameIndexEntry}
    (h : NameIndex.observeAll toLowercase id o nodes = some e) :
    o = some e ∨ ∃ n∈nodes, e = NameIndexEntry.ofNode n := by
  induction nodes generalizing o with
  | nil => exact .inl h
  | cons node nodes ih =>
    rw [NameIndex.observeAll] at h
    rcases ih h with ho | ⟨n,hn,he⟩
    · split at ho
      · obtain rfl := Option.some.inj ho
        unfold NameIndex.observe
        split
        · split
          · exact .inl rfl
          · exact .inr ⟨node,by simp,rfl⟩
        · exact .inr ⟨node,by simp,rfl⟩
      · exact .inl ho
    · exact .inr ⟨n,by simp [hn],he⟩

theorem consistent_ingest (toLowercase : String → String) (u : Upstream) :
    Consistent (NameIndex.ingest toLowercase {} u.nodes) u := by
  intro id e he
  rw [NameIndex.lookup_ingest NameIndex.Wf.empty] at he
  exact (observeAll_ofNode he).resolve_left fun h => by cases h

/-- Ghosts of all three: the child of a deleted page, by the tool and by a bulk delete that matches
both nodes, and a node created by a transaction that was rolled back. -/
theorem ghosts_left :
    let u : Upstream := { nodes := page }
    let s := Server.after asciiLowercase {} [.ingest page]
    let r := (Server.deleteNode id s "p" none).run Service.reliable.audited (u,{})
    let b := (Server.bulkUpdate (fun _ _ => none) (fun name _ => name) asciiLowercase s none .Delete page
      none).run Service.reliable.audited (u,{})
    let ops : List TxnOp := [{ op := "create", name := some "New", parentId := some "p" },
      { op := "archive" }]
    let t := (Server.transaction asciiLowercase id s ops).run Service.reliable.audited (u,{})
    Consistent s.nameIndex u ∧
      (r.1.1.isOk ∧ ¬NoGhosts r.2.2.gone r.1.2.nameIndex) ∧
      (b.1.1.isOk ∧ ¬NoGhosts b.2.2.gone b.1.2.nameIndex) ∧
      t.1.1.isOk ∧ ¬NoGhosts t.2.2.gone t.1.2.nameIndex := by
  intro u s r b ops t
  refine ⟨consistent_ingest asciiLowercase u,⟨rfl,?_⟩,⟨rfl,?_⟩,rfl,?_⟩
  · decide
  · decide
  · decide

end WorkflowyMcp.IndexGhosts
