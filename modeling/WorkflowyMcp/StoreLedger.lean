import WorkflowyMcp.Upstream

/-! An account of what a run does to the ids of the store: those its writes changed, those
it created and those it removed. The account is kept beside the service and changes nothing. -/
namespace WorkflowyMcp

def Upstream.Has (u : Upstream) (id : String) : Prop := (findNode u.nodes id).isSome

instance (u : Upstream) (id : String) : Decidable (u.Has id) :=
  inferInstanceAs (Decidable ((findNode u.nodes id).isSome = true))

theorem Upstream.has_iff {u : Upstream} {id : String} :
    u.Has id ↔ id∈u.nodes.map WorkflowyNode.id := by
  simp [Upstream.Has,findNode,List.find?_isSome]

/-- The ids in `v` that `u` does not have. -/
def newcomers (u v : Upstream) : List String :=
  (v.nodes.map WorkflowyNode.id).filter fun id => decide ¬u.Has id

theorem mem_newcomers {u v : Upstream} {id : String} : id∈newcomers u v ↔ v.Has id ∧ ¬u.Has id := by
  simp [newcomers,List.mem_filter,Upstream.has_iff]

theorem newcomers_eq_nil {u v : Upstream} (h : ∀ id, v.Has id → u.Has id) : newcomers u v = [] :=
  List.eq_nil_iff_forall_not_mem.mpr fun id hid => (mem_newcomers.mp hid).2
    (h id (mem_newcomers.mp hid).1)

structure Ledger where
  touched : List String := []
  made : List String := []
  gone : List String := []

def Ledger.note (q : ApiCall) (u : Upstream) (r : ApiReply q) (u' : Upstream) (l : Ledger) :
    Ledger where
  touched := (if r.isOk then q.mutated.toList else [])++l.touched
  made := newcomers u u'++l.made
  gone := newcomers u' u++l.gone

/-- The service with its ledger. -/
def Service.audited (svc : Service) : Proc.Server ApiCall ApiReply (Upstream × Ledger) :=
  Proc.watched Ledger.note svc.serve

/- What an index that hears only of the nodes a run names and makes can stand. No node the run
   made is taken away, and no indexed one besides the request's own, unless an earlier write
   named it; and no id that went comes back. -/
structure Spares (svc : Service) (indexed : String → Prop) (q : ApiCall)
    (s : Upstream × Ledger) : Prop where
  taken : ∀ y∈newcomers (svc.serve q s.1).2 s.1,
    y∉s.2.made ∧ (indexed y → q.mutated = some y ∨ y∈s.2.touched)
  brought : ∀ c∈newcomers s.1 (svc.serve q s.1).2, c∉s.2.gone

instance (svc : Service) (indexed : String → Prop) [DecidablePred indexed] (q : ApiCall)
    (s : Upstream × Ledger) : Decidable (Spares svc indexed q s) :=
  decidable_of_iff ((∀ y∈newcomers (svc.serve q s.1).2 s.1,
      y∉s.2.made ∧ (indexed y → q.mutated = some y ∨ y∈s.2.touched)) ∧
      ∀ c∈newcomers s.1 (svc.serve q s.1).2, c∉s.2.gone)
    ⟨fun h => ⟨h.1,h.2⟩,fun h => ⟨h.taken,h.brought⟩⟩

namespace Service
variable {svc : Service} {u : Upstream} {x : String}

theorem has_facts {id : String} : u.Has id ↔ (u.facts id).isSome := by
  rw [facts_isSome,Upstream.Has]

theorem has_of_facts {v : Upstream} (h : v.facts = u.facts) (id : String) :
    v.Has id ↔ u.Has id := by
  rw [has_facts,h,has_facts]

theorem has_of_nodes {v : Upstream} (h : v.nodes = u.nodes) {id : String} : v.Has id ↔ u.Has id :=
  has_of_facts (facts_of_nodes h) id

/-- Rewriting the facts of a node that exists adds no node. -/
theorem has_of_update {v : Upstream} {f g : Facts} (hx : u.facts x = some f)
    (h : v.facts = Function.update u.facts x (some g)) (id : String) : v.Has id ↔ u.Has id := by
  rw [has_facts,h,has_facts]
  by_cases hid : id = x
  · subst hid
    simp [hx]
  · simp [hid]

/-- Requests that neither create nor delete. -/
def Mild : ApiCall → Prop
  | .createNode .. | .deleteNode _ => False
  | _ => True

theorem has_serve_mild {q : ApiCall} (hq : Mild q) (id : String) :
    (svc.serve q u).2.Has id ↔ u.Has id := by
  cases hr : (svc.serve q u).1 with
  | error e => exact has_of_facts (facts_of_nodes (svc.serve_error hr)) id
  | ok r =>
    cases q with
    | createNode | deleteNode => cases hq
    | getNode y => exact has_of_facts (svc.serve_getNode_ok hr).2 id
    | getChildren y => exact has_of_facts (svc.serve_getChildren y) id
    | getTopLevel =>
      obtain ⟨-,ha⟩ := svc.serve_ok hr
      exact has_of_facts (facts_of_nodes (congrArg Prod.snd (Except.ok.inj ha)).symm) id
    | postNode y =>
      obtain ⟨f,hf,hv⟩ := svc.serve_post_ok hr
      exact has_of_update hf hv id
    | moveNode y =>
      obtain ⟨f,hf,hv⟩ := svc.serve_move_ok hr
      exact has_of_update hf hv id

/-- A write that succeeds finds its node. -/
theorem has_of_mutated {q : ApiCall} {r : ApiResult q} (hr : (svc.serve q u).1 = .ok r)
    (hx : q.mutated = some x) : u.Has x := by
  rw [has_facts]
  cases q with
  | postNode y =>
    obtain rfl : y = x := Option.some.inj hx
    obtain ⟨f,hf,-⟩ := svc.serve_post_ok hr
    simp [hf]
  | moveNode y =>
    obtain rfl : y = x := Option.some.inj hx
    obtain ⟨f,hf,-⟩ := svc.serve_move_ok hr
    simp [hf]
  | deleteNode y =>
    obtain rfl : y = x := Option.some.inj hx
    exact (svc.serve_delete_ok hr).present
  | getNode | getChildren | getTopLevel | createNode => cases hx

theorem has_serve_create {name : String} {description parentId : Option String}
    {priority : Option Int} {layout r : Option String}
    (hr : (svc.serve (.createNode name description parentId priority layout) u).1 = .ok r) :
    ∃ c, r = some c ∧ ¬u.Has c ∧ ∀ id,
      (svc.serve (.createNode name description parentId priority layout) u).2.Has id ↔
        u.Has id ∨ id = c := by
  obtain ⟨c,rfl,hc,-,hv⟩ := svc.serve_create_ok hr
  refine ⟨c,rfl,by simp [has_facts,hc],fun id => ?_⟩
  rw [has_facts,hv,has_facts]
  by_cases hid : id = c
  · simp [hid]
  · simp [hid]

theorem has_serve_delete (hr : (svc.serve (.deleteNode x) u).1 = .ok ()) (id : String) :
    (svc.serve (.deleteNode x) u).2.Has id ↔
      u.Has id ∧ inSubtree u.nodes x u.nodes.length id = false := by
  obtain ⟨-,ha⟩ := svc.serve_ok hr
  simp only [apply] at ha
  split at ha <;> rename_i hf
  · cases ha
  · simp only [Except.ok.injEq,Prod.mk.injEq,true_and] at ha
    rw [Upstream.Has,← ha,findNode_filter_id fun id => !inSubtree u.nodes x u.nodes.length id,
      Upstream.Has]
    cases inSubtree u.nodes x u.nodes.length id <;> simp

end Service

/- Between two points of a run nothing came and nothing went. -/
structure Same (s s' : Upstream × Ledger) : Prop where
  has : ∀ id, s'.1.Has id ↔ s.1.Has id
  made : s'.2.made = s.2.made
  gone : s'.2.gone = s.2.gone

theorem Same.refl (s : Upstream × Ledger) : Same s s := ⟨fun _ => .rfl,rfl,rfl⟩

theorem Same.trans {s s' s'' : Upstream × Ledger} (h : Same s s') (h' : Same s' s'') : Same s s'' :=
  ⟨fun id => (h'.has id).trans (h.has id),h'.made.trans h.made,h'.gone.trans h.gone⟩

/- The writes of that part booked nothing either. -/
structure Still (s s' : Upstream × Ledger) : Prop extends Same s s' where
  touched : s'.2.touched = s.2.touched

theorem Still.refl (s : Upstream × Ledger) : Still s s := ⟨Same.refl s,rfl⟩

theorem Still.trans {s s' s'' : Upstream × Ledger} (h : Still s s') (h' : Still s' s'') :
    Still s s'' :=
  ⟨h.toSame.trans h'.toSame,h'.touched.trans h.touched⟩

section run
variable {svc : Service} {indexed : String → Prop} {Fr α β : Type} {x : String}

/-- A request that leaves the ids alone is booked as nothing, and spares every index. -/
theorem same_of_has (indexed : String → Prop) {q : ApiCall} {s : Upstream × Ledger}
    (h : ∀ id, (svc.serve q s.1).2.Has id ↔ s.1.Has id) :
    Same s (svc.audited q s).2 ∧ Spares svc indexed q s := by
  have hto := newcomers_eq_nil fun id => (h id).mp
  have hfrom := newcomers_eq_nil fun id => (h id).mpr
  refine ⟨⟨h,?_,?_⟩,?_,?_⟩
  · simp [Service.audited,Proc.watched,Ledger.note,hto]
  · simp [Service.audited,Proc.watched,Ledger.note,hfrom]
  · simp [hfrom]
  · simp [hto]

theorem still_of_error (indexed : String → Prop) {q : ApiCall} {s : Upstream × Ledger}
    {e : WorkflowyError}
    (h : (svc.serve q s.1).1 = .error e) :
    Still s (svc.audited q s).2 ∧ Spares svc indexed q s := by
  obtain ⟨hsame,hspares⟩ := same_of_has indexed
    (Service.has_of_facts (Service.facts_of_nodes (svc.serve_error h)))
  refine ⟨⟨hsame,?_⟩,hspares⟩
  simp [Service.audited,Proc.watched,Ledger.note,h,Except.isOk,Except.toBool]

theorem same_run (indexed : String → Prop) {p : Proc ApiCall ApiReply Fr α}
    (hp : p.Issues Service.Mild)
    (s : Upstream × Ledger) :
    Same s (p.run svc.audited s).2 ∧ p.Each (Spares svc indexed) svc.audited s := by
  induction p generalizing s with
  | ret a => exact ⟨Same.refl s,trivial⟩
  | call fr q k ih =>
    obtain ⟨hq,hk⟩ := hp
    obtain ⟨hsame,hspares⟩ := same_of_has indexed (s := s)
      (svc.has_serve_mild (u := s.1) hq)
    obtain ⟨hrest,heach⟩ := ih _ (hk _) (svc.audited q s).2
    exact ⟨hsame.trans hrest,hspares,heach⟩

def Reads (q : ApiCall) : Prop := Service.Mild q ∧ q.mutated = none

theorem still_reads (svc : Service) (indexed : String → Prop) {p : Proc ApiCall ApiReply Fr α}
    (hp : p.Issues Reads) (s : Upstream × Ledger) :
    Still s (p.run svc.audited s).2 ∧ p.Each (Spares svc indexed) svc.audited s := by
  obtain ⟨hsame,heach⟩ := same_run indexed (hp.mono fun _ h => h.1) s
  refine ⟨⟨hsame,?_⟩,heach⟩
  clear hsame heach
  induction p generalizing s with
  | ret a => rfl
  | call fr q k ih =>
    refine (ih _ (hp.2 _) _).trans ?_
    simp [Service.audited,Proc.watched,Ledger.note,hp.1.2]

theorem nodes_serve_reads {q : ApiCall} (hq : Reads q) (u : Upstream) :
    (svc.serve q u).2.nodes = u.nodes := by
  cases hr : (svc.serve q u).1 with
  | error e => exact svc.serve_error hr
  | ok r =>
    obtain ⟨-,ha⟩ := svc.serve_ok hr
    cases q with
    | createNode | deleteNode => cases hq.1
    | postNode | moveNode => cases hq.2
    | getTopLevel => exact (congrArg Prod.snd (Except.ok.inj ha)).symm
    | getNode x | getChildren x =>
      simp only [Service.apply] at ha
      split at ha
      · exact (congrArg Prod.snd (Except.ok.inj ha)).symm
      · cases ha

/-- The ledger is kept beside the service: replies and store are those of the plain run. -/
theorem run_audited (svc : Service) (p : Proc ApiCall ApiReply Fr α) (s : Upstream × Ledger) :
    (p.run svc.audited s).1 = (p.run svc.serve s.1).1 ∧
      (p.run svc.audited s).2.1 = (p.run svc.serve s.1).2 :=
  Proc.run_watched Ledger.note svc.serve p s

theorem nodes_reads (svc : Service) {p : Proc ApiCall ApiReply Fr α} (hp : p.Issues Reads)
    (s : Upstream × Ledger) :
    (p.run svc.audited s).2.1.nodes = s.1.nodes := by
  rw [(run_audited svc p s).2]
  generalize s.1 = u
  induction p generalizing u with
  | ret a => rfl
  | call fr q k ih => exact (ih _ (hp.2 _) _).trans (nodes_serve_reads hp.1 u)

theorem touched_mono (p : Proc ApiCall ApiReply Fr α) {s : Upstream × Ledger} {y : String}
    (hy : y∈s.2.touched) : y∈(p.run svc.audited s).2.2.touched := by
  induction p generalizing s with
  | ret a => exact hy
  | call fr q k ih => exact ih _ (List.mem_append_right _ hy)

/-- Requests that write to `x`, if to anything. -/
def About (x : String) (q : ApiCall) : Prop :=
  Service.Mild q ∧ (q.mutated = none ∨ q.mutated = some x)

theorem touched_about {p : Proc ApiCall ApiReply Fr α} (hp : p.Issues (About x))
    {s : Upstream × Ledger} {y : String} (hy : y∈(p.run svc.audited s).2.2.touched) :
    y∈s.2.touched ∨ y = x := by
  induction p generalizing s with
  | ret a => exact .inl hy
  | call fr q k ih =>
    obtain ⟨⟨-,hq⟩,hk⟩ := hp
    rcases ih _ (hk _) hy with hy | rfl
    · rcases List.mem_append.mp hy with hy | hy
      · split at hy
        · rcases hq with hq | hq
          · simp [hq] at hy
          · exact .inr (by simpa [hq,eq_comm] using hy)
        · cases hy
      · exact .inl hy
    · exact .inr rfl

/- A program that changes nothing but the node `x`, and does so when it returns a value. -/
structure Writes (x : String) (p : Proc ApiCall ApiReply Fr (Except WorkflowyError α)) : Prop where
  about : p.Issues (About x)
  earns : p.Earns (fun q r => q.mutated = some x ∧ r.isOk) fun r => r.isOk

theorem Writes.error (e : WorkflowyError) :
    Writes x (.ret (.error e) : Proc ApiCall ApiReply Fr (Except WorkflowyError α)) :=
  ⟨trivial,fun h => by cases h⟩

theorem Writes.bind {p : Proc ApiCall ApiReply Fr (Except WorkflowyError α)}
    {f : Except WorkflowyError α → Proc ApiCall ApiReply Fr (Except WorkflowyError β)}
    (hp : Writes x p) (hok : ∀ a, (f (.ok a)).Issues (About x))
    (herror : ∀ e, Writes x (f (.error e))) :
    Writes x (p.bind f) where
  about := hp.about.bind fun r => by
    cases r with
    | ok a => exact hok a
    | error e => exact (herror e).about
  earns := hp.earns.bind fun r => by
    cases r with
    | ok a => exact .inl rfl
    | error e => exact .inr (herror e).earns

theorem Writes.after {p : Proc ApiCall ApiReply Fr α}
    {f : α → Proc ApiCall ApiReply Fr (Except WorkflowyError β)} (hp : p.Issues (About x))
    (hf : ∀ a, Writes x (f a)) : Writes x (p.bind f) where
  about := hp.bind fun a => (hf a).about
  earns := by
    induction p with
    | ret a => exact (hf a).earns
    | call fr q k ih => exact fun r => .inr (ih r (hp.2 r))

theorem has_of_earns {p : Proc ApiCall ApiReply Fr (Except WorkflowyError α)} (hp : Writes x p)
    {s : Upstream × Ledger} (hr : (p.run svc.audited s).1.isOk) :
    s.1.Has x ∧ x∈(p.run svc.audited s).2.2.touched := by
  obtain ⟨habout,hearns⟩ := hp
  induction p generalizing s with
  | ret a => exact absurd hr hearns
  | call fr q k ih =>
    rcases hearns (svc.serve q s.1).1 with ⟨hx,hok⟩ | hrest
    · have hnote : x∈(svc.audited q s).2.2.touched := by
        refine List.mem_append_left _ ?_
        rw [if_pos hok,hx]
        simp
      refine ⟨?_,touched_mono (k (svc.serve q s.1).1) hnote⟩
      cases h : (svc.serve q s.1).1 with
      | ok r => exact svc.has_of_mutated h hx
      | error e => simp [h,Except.isOk,Except.toBool] at hok
    · obtain ⟨hhas,htouched⟩ := ih _ hr (habout.2 _) hrest
      exact ⟨(svc.has_serve_mild habout.1.1 x).mp hhas,htouched⟩

/-- Such a program books its own node, which is there before and after. -/
theorem Writes.run (indexed : String → Prop) {p : Proc ApiCall ApiReply Fr (Except WorkflowyError α)} (hp : Writes x p)
    (s : Upstream × Ledger) :
    Same s (p.run svc.audited s).2 ∧ p.Each (Spares svc indexed) svc.audited s ∧
      ((p.run svc.audited s).1.isOk → s.1.Has x ∧
        ∀ y, y∈(p.run svc.audited s).2.2.touched ↔ y∈s.2.touched ∨ y = x) := by
  obtain ⟨hsame,heach⟩ := same_run indexed (hp.about.mono fun _ h => h.1) s
  refine ⟨hsame,heach,fun hr => ?_⟩
  obtain ⟨hhas,htouched⟩ := has_of_earns hp hr
  refine ⟨hhas,fun y => ⟨touched_about hp.about,?_⟩⟩
  rintro (hy | rfl)
  · exact touched_mono p hy
  · exact htouched

/- A delete that went through. -/
structure Removed (indexed : String → Prop) (x : String) (s s' : Upstream × Ledger)
    (spares : Prop) : Prop where
  here : s.1.Has x
  target : ¬s'.1.Has x
  old : ∀ id, s'.1.Has id → s.1.Has id
  gone : ∀ y, y∈s'.2.gone ↔ (s.1.Has y ∧ ¬s'.1.Has y) ∨ y∈s.2.gone
  made : s'.2.made = s.2.made
  touched : s'.2.touched = x::s.2.touched
  spares : spares ↔ ∀ y, s.1.Has y → ¬s'.1.Has y →
    y∉s.2.made ∧ (indexed y → y = x ∨ y∈s.2.touched)

theorem Removed.iff {s s' : Upstream × Ledger} {e e' : Prop} (h : Removed indexed x s s' e)
    (he : e ↔ e') : Removed indexed x s s' e' := by
  rwa [← propext he]

theorem Still.removed {s s' s'' : Upstream × Ledger} {e : Prop} (h : Still s s')
    (hr : Removed indexed x s' s'' e) : Removed indexed x s s'' e where
  here := (h.has x).mp hr.here
  target := hr.target
  old id hid := (h.has id).mp (hr.old id hid)
  gone y := by rw [hr.gone,h.has,h.gone]
  made := hr.made.trans h.made
  touched := by rw [hr.touched,h.touched]
  spares := by
    rw [hr.spares,h.made,h.touched]
    exact forall_congr' fun y => by rw [h.has]

theorem audited_delete (indexed : String → Prop) {s : Upstream × Ledger}
    (hr : (svc.serve (.deleteNode x) s.1).1 = .ok ()) :
    Removed indexed x s (svc.audited (.deleteNode x) s).2
      (Spares svc indexed (.deleteNode x) s) := by
  have hhas := svc.has_serve_delete hr
  have hto : newcomers s.1 (svc.serve (.deleteNode x) s.1).2 = [] :=
    newcomers_eq_nil fun id h => ((hhas id).mp h).1
  refine ⟨svc.has_of_mutated hr rfl,?_,fun id h => ((hhas id).mp h).1,fun y => ?_,?_,?_,?_⟩
  · exact fun h => by simpa [inSubtree_self] using ((hhas x).mp h).2
  · simp only [Service.audited,Proc.watched,Ledger.note,List.mem_append,mem_newcomers]
  · simp [Service.audited,Proc.watched,Ledger.note,hto]
  · simp [Service.audited,Proc.watched,Ledger.note,hr,Except.isOk,Except.toBool,ApiCall.mutated]
  · constructor
    · intro h y hy hy'
      obtain ⟨hmade,hnamed⟩ := h.taken y (mem_newcomers.mpr ⟨hy,hy'⟩)
      exact ⟨hmade,fun hi => (hnamed hi).imp_left fun he => (Option.some.inj he).symm⟩
    · intro h
      refine ⟨fun y hy => ?_,by simp [hto]⟩
      obtain ⟨hy,hy'⟩ := mem_newcomers.mp hy
      obtain ⟨hmade,hnamed⟩ := h y hy hy'
      exact ⟨hmade,fun hi => (hnamed hi).imp_left fun he => congrArg some he.symm⟩

/- A create that went through. -/
structure Created (c : String) (s s' : Upstream × Ledger) (spares : Prop) : Prop where
  has : ∀ id, s'.1.Has id ↔ s.1.Has id ∨ id = c
  made : ∀ id, id∈s'.2.made ↔ id = c ∨ id∈s.2.made
  gone : s'.2.gone = s.2.gone
  touched : s'.2.touched = s.2.touched
  spares : spares ↔ c∉s.2.gone

theorem Created.iff {c : String} {s s' : Upstream × Ledger} {e e' : Prop} (h : Created c s s' e)
    (he : e ↔ e') : Created c s s' e' := by
  rwa [← propext he]

theorem Still.created {c : String} {s s' s'' : Upstream × Ledger} {e : Prop} (h : Still s s')
    (hc : Created c s' s'' e) : Created c s s'' e where
  has id := by rw [hc.has,h.has]
  made id := by rw [hc.made,h.made]
  gone := hc.gone.trans h.gone
  touched := hc.touched.trans h.touched
  spares := by rw [hc.spares,h.gone]

theorem audited_create (indexed : String → Prop) {s : Upstream × Ledger} {name : String}
    {description parentId : Option String} {priority : Option Int} {layout r : Option String}
    (hr : (svc.serve (.createNode name description parentId priority layout) s.1).1 = .ok r) :
    ∃ c, r = some c ∧
      Created c s (svc.audited (.createNode name description parentId priority layout) s).2
        (Spares svc indexed (.createNode name description parentId priority layout) s) := by
  obtain ⟨c,hrc,hnew,hhas⟩ := svc.has_serve_create hr
  have hto (id : String) : id∈newcomers s.1
      (svc.serve (.createNode name description parentId priority layout) s.1).2 ↔ id = c := by
    rw [mem_newcomers,hhas]
    constructor
    · exact fun h => h.1.resolve_left h.2
    · rintro rfl
      exact ⟨.inr rfl,hnew⟩
  have hfrom := newcomers_eq_nil fun id h => (hhas id).mpr (.inl h)
  refine ⟨c,hrc,hhas,fun id => ?_,?_,?_,?_⟩
  · simp only [Service.audited,Proc.watched,Ledger.note,List.mem_append,hto]
  · simp [Service.audited,Proc.watched,Ledger.note,hfrom]
  · simp [Service.audited,Proc.watched,Ledger.note,ApiCall.mutated]
  · exact ⟨fun h => h.brought c ((hto c).mpr rfl),
      fun h => ⟨by simp [hfrom],fun y hy => (hto y).mp hy ▸ h⟩⟩

end run

namespace Client
variable {x : String}

theorem writes_request {q : ApiCall} (hq : Service.Mild q) (hx : q.mutated = some x) :
    Writes x (request q) where
  about := ⟨⟨hq,.inr hx⟩,fun _ => trivial⟩
  earns r := by
    cases r with
    | ok a => exact .inl ⟨hx,rfl⟩
    | error e => exact .inr fun h => by cases h

theorem writes_post (name note : Option String) (completed : Option Bool) :
    Writes x (request (.postNode x name note completed)) := writes_request trivial rfl

theorem writes_move (p : String) (priority : Option Int) :
    Writes x (request (.moveNode x p priority)) := writes_request trivial rfl

theorem reads_getNode (y : String) : (getNode y).Issues Reads := ⟨⟨trivial,rfl⟩,fun _ => trivial⟩

theorem about_getNode (y : String) : (getNode y).Issues (About x) :=
  (reads_getNode y).mono fun _ h => ⟨h.1,.inl h.2⟩

theorem writes_setCompletion (b : Bool) : Writes x (setCompletion x b) := writes_post _ _ _

theorem writes_editNode (name description : Option String) :
    Writes x (editNode x name description) := by
  unfold editNode
  split
  · refine (writes_post _ _ _).bind (fun a => ?_) fun e => Writes.error e
    exact ⟨⟨trivial,.inr rfl⟩,fun _ => trivial⟩
  · exact writes_post _ _ _

theorem writes_moveAttempt (p : String) (priority : Option Int) :
    Writes x (moveAttempt x p priority) := by
  refine (writes_move p priority).bind (fun a => trivial) fun e => ?_
  by_cases hp : isParentRelatedError e
  · simp only [hp,if_true]
    exact Writes.after ⟨⟨trivial,.inl rfl⟩,fun _ => trivial⟩ fun _ => writes_move p priority
  · simp only [hp]
    exact Writes.error e

theorem writes_moveNode (p : String) (priority : Option Int) :
    Writes x (moveNode x p priority) := by
  unfold moveNode
  induction maxPropRetries-1 with
  | zero => exact writes_moveAttempt p priority
  | succ left ih =>
    refine (writes_moveAttempt p priority).bind (fun a => trivial) fun e => ?_
    by_cases h4 : is404Like e
    · simp only [h4,if_true]
      exact ih
    · simp only [h4]
      exact Writes.error e

section effects
variable (svc : Service) (indexed : String → Prop) (s : Upstream × Ledger)

theorem ledger_createNode (name : String) (description parentId : Option String)
    (priority : Option Int) :
    let p := createNode name description parentId priority
    (∀ e, (p.run svc.audited s).1 = .error e →
      Still s (p.run svc.audited s).2 ∧ p.Each (Spares svc indexed) svc.audited s) ∧
    ∀ created, (p.run svc.audited s).1 = .ok created →
      Created created.id s (p.run svc.audited s).2 (p.Each (Spares svc indexed) svc.audited s) := by
  intro p
  let q := ApiCall.createNode name description parentId priority none
  have hrun : p.run svc.audited s =
      (createdNode name parentId (svc.serve q s.1).1,(svc.audited q s).2) := rfl
  have heach : Spares svc indexed q s ↔ p.Each (Spares svc indexed) svc.audited s :=
    (and_iff_left trivial).symm
  rw [hrun]
  cases hr : (svc.serve q s.1).1 with
  | error err =>
    obtain ⟨hstill,hspares⟩ := still_of_error indexed hr
    constructor
    · exact fun _ _ => ⟨hstill,heach.mp hspares⟩
    · intro _ h
      cases h
  | ok r =>
    obtain ⟨c,rfl,hc⟩ := audited_create indexed hr
    constructor
    · intro _ h
      cases h
    · intro created h
      cases h
      exact hc.iff heach

theorem ledger_deleteNode (x : String) :
    let p := deleteNode x
    (∀ e, (p.run svc.audited s).1 = .error e →
      Still s (p.run svc.audited s).2 ∧ p.Each (Spares svc indexed) svc.audited s) ∧
    ((p.run svc.audited s).1 = .ok () →
      Removed indexed x s (p.run svc.audited s).2 (p.Each (Spares svc indexed) svc.audited s)) := by
  intro p
  have heach : Spares svc indexed (.deleteNode x) s ↔ p.Each (Spares svc indexed) svc.audited s :=
    (and_iff_left trivial).symm
  refine ⟨fun e h => ?_,fun h => (audited_delete indexed h).iff heach⟩
  obtain ⟨hstill,hspares⟩ := still_of_error indexed h
  exact ⟨hstill,heach.mp hspares⟩

end effects

end Client
end WorkflowyMcp
