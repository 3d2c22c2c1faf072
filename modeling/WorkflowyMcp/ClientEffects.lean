import WorkflowyMcp.Upstream

/-! What the client's writes do to the store. Each is all or nothing, except an
edit of both fields, whose name may land alone. -/
namespace WorkflowyMcp.Client
variable {svc : Service} {α : Type}

section view
variable {σ τ : Type} (srv : Proc.Server ApiCall ApiReply σ) (view : σ → τ)

/- A successful run relates what is seen of the server before and after by `post`, a
   failed one leaves it as it was. -/
def AllOrNothing (p : Api (Except WorkflowyError α)) (post : τ → α → τ → Prop) : Prop :=
  ∀ s, (∀ r, (p.run srv s).1 = .ok r → post (view s) r (view (p.run srv s).2)) ∧
    ∀ e, (p.run srv s).1 = .error e → view (p.run srv s).2 = view s

variable {srv view} {x p : String} {priority : Option Int} {post : τ → Unit → τ → Prop}

theorem allOrNothing_moveAttempt
    (hmove : AllOrNothing srv view (request (.moveNode x p priority)) post)
    (hlist : ∀ s, view (srv (.getChildren p) s).2 = view s) :
    AllOrNothing srv view (moveAttempt x p priority) post := by
  intro s
  have hm := hmove s
  simp only [moveAttempt,Proc.bind_eq,Proc.run_bind,request,Proc.run_call,Proc.run_ret] at hm ⊢
  cases h : (srv (.moveNode x p priority) s).1 with
  | ok r => exact ⟨fun _ _ => hm.1 r h,fun _ he => by cases he⟩
  | error e =>
    have hf := hm.2 e h
    by_cases hp : isParentRelatedError e
    · simp only [hp,if_true,Proc.run_bind,getChildren,request,Proc.run_call,Proc.run_ret]
      -- the refresh shows the same view, so the second try starts where the first did
      have hagain := hmove (srv (.getChildren p) (srv (.moveNode x p priority) s).2).2
      rwa [hlist,hf] at hagain
    · simp [hp,hf]

theorem allOrNothing_moveLoop
    (hmove : AllOrNothing srv view (request (.moveNode x p priority)) post)
    (hlist : ∀ s, view (srv (.getChildren p) s).2 = view s) (left : Nat) :
    AllOrNothing srv view (moveLoop x p priority left) post := by
  induction left with
  | zero => exact allOrNothing_moveAttempt hmove hlist
  | succ left ih =>
    intro s
    have ha := allOrNothing_moveAttempt hmove hlist s
    simp only [moveLoop,Proc.bind_eq,Proc.run_bind]
    cases h : ((moveAttempt x p priority).run srv s).1 with
    | ok r => exact ⟨fun _ _ => ha.1 r h,fun _ he => by cases he⟩
    | error e =>
      have hf := ha.2 e h
      by_cases h4 : is404Like e
      · simp only [h4,if_true]
        rw [← hf]
        exact ih _
      · simp [h4,hf]

end view

/-- All or nothing as seen by the facts of the store. -/
def Atomic (svc : Service) (p : Api (Except WorkflowyError α)) (post : View → α → View → Prop) :
    Prop :=
  ∀ u : Upstream, (∀ r, (p.run svc.serve u).1 = .ok r →
      post u.facts r (p.run svc.serve u).2.facts) ∧
    ∀ e, (p.run svc.serve u).1 = .error e → (p.run svc.serve u).2.facts = u.facts

/-- The node `x` exists and its facts are rewritten. -/
def Rewrites (x : String) (g : Facts → Facts) (v v' : View) : Prop :=
  ∃ f, v x = some f ∧ v' = Function.update v x (some (g f))

theorem atomic_request {q : ApiCall} {post : View → ApiResult q → View → Prop}
    (h : ∀ u : Upstream, ∀ r, (svc.serve q u).1 = .ok r → post u.facts r (svc.serve q u).2.facts) :
    Atomic svc (request q) post :=
  fun u => ⟨h u,fun _ he => Service.facts_of_nodes (svc.serve_error he)⟩

theorem atomic_setCompletion (x : String) (b : Bool) :
    Atomic svc (setCompletion x b) (fun v _ v' => Rewrites x (·.write none none (some b)) v v') :=
  atomic_request fun _ _ h => svc.serve_post_ok h

theorem atomic_deleteNode (x : String) :
    Atomic svc (deleteNode x) (fun v _ v' => v.Deleted x v') :=
  atomic_request fun _ _ h => svc.serve_delete_ok h

theorem atomic_getNode (x : String) :
    Atomic svc (getNode x) (fun v n v' => v x = some n.facts ∧ v' = v) :=
  atomic_request fun _ _ h => svc.serve_getNode_ok h

theorem atomic_createNode (name : String) (description parentId : Option String)
    (priority : Option Int) :
    Atomic svc (createNode name description parentId priority) (fun v created v' =>
      v created.id = none ∧ (∀ y f, v y = some f → f.parentId ≠ some created.id) ∧
      v' = Function.update v created.id (some ⟨name,description,false,parentId⟩)) := by
  intro u
  let q := ApiCall.createNode name description parentId priority none
  have hrun : (createNode name description parentId priority).run svc.serve u =
      (createdNode name parentId (svc.serve q u).1,(svc.serve q u).2) := rfl
  rw [hrun]
  cases h : (svc.serve q u).1 with
  | error e => simp [createdNode,Service.facts_of_nodes (svc.serve_error h)]
  | ok r =>
    obtain ⟨c,rfl,hc⟩ := svc.serve_create_ok h
    simpa [createdNode] using hc

theorem atomic_moveNode (x p : String) (priority : Option Int) :
    Atomic svc (moveNode x p priority) (fun v _ v' => Rewrites x (·.moved p) v v') := by
  have hmove : AllOrNothing svc.serve Upstream.facts (request (.moveNode x p priority))
      (fun v _ v' => Rewrites x (·.moved p) v v') :=
    fun u => ⟨fun _ => svc.serve_move_ok,fun _ he => Service.facts_of_nodes (svc.serve_error he)⟩
  exact allOrNothing_moveLoop hmove (fun u => svc.serve_getChildren p) _

/-- The name request of a two-field edit is sent to a node that exists and not refused. -/
def NameLands (svc : Service) (u : Upstream) (x n : String) : Prop :=
  (u.facts x).isSome ∧ svc.refuses u.clock (.postNode x (some n) none none) = none

theorem editNode_ok {x : String} {name description : Option String} {u : Upstream}
    (h : ((editNode x name description).run svc.serve u).1 = .ok ()) :
    Rewrites x (·.write name description none) u.facts
      ((editNode x name description).run svc.serve u).2.facts := by
  by_cases hb : name.isSome ∧ description.isSome
  · obtain ⟨⟨n,rfl⟩,⟨d,rfl⟩⟩ := hb.imp Option.isSome_iff_exists.mp Option.isSome_iff_exists.mp
    simp only [editNode,Option.isSome_some,Bool.and_self,if_true,Proc.bind_eq,
      Proc.run_bind,request,Proc.run_call,Proc.run_ret] at h ⊢
    cases h1 : (svc.serve (.postNode x (some n) none none) u).1 with
    | error e => simp [h1] at h
    | ok r =>
      simp only [h1,Proc.run_call,Proc.run_ret] at h ⊢
      obtain ⟨f,hf,hv⟩ := svc.serve_post_ok h1
      obtain ⟨g,hg,hv'⟩ := svc.serve_post_ok h
      refine ⟨f,hf,?_⟩
      rw [hv,Function.update_self,Option.some.injEq] at hg
      rw [hv',hv,Function.update_idem,← hg]
      rfl
  · have hb' : (name.isSome && description.isSome) = false := by simpa using hb
    simp only [editNode,hb',Bool.false_eq_true,if_false] at h ⊢
    exact svc.serve_post_ok h

/-- A failed edit changes nothing, unless its name landed first. -/
theorem editNode_error {x : String} {name description : Option String} {u : Upstream}
    {e : WorkflowyError} (h : ((editNode x name description).run svc.serve u).1 = .error e) :
    (∀ n, name = some n → description.isSome → NameLands svc u x n →
      Rewrites x (·.write (some n) none none) u.facts
        ((editNode x name description).run svc.serve u).2.facts) ∧
    ((∀ n, name = some n → description.isSome → ¬NameLands svc u x n) →
      ((editNode x name description).run svc.serve u).2.facts = u.facts) := by
  by_cases hb : name.isSome ∧ description.isSome
  · obtain ⟨⟨n,rfl⟩,⟨d,rfl⟩⟩ := hb.imp Option.isSome_iff_exists.mp Option.isSome_iff_exists.mp
    simp only [editNode,Option.isSome_some,Bool.and_self,if_true,Proc.bind_eq,
      Proc.run_bind,request,Proc.run_call,Proc.run_ret] at h ⊢
    cases h1 : (svc.serve (.postNode x (some n) none none) u).1 with
    | error e1 =>
      have hf := Service.facts_of_nodes (svc.serve_error h1)
      refine ⟨fun m hm _ hl => ?_,fun _ => by simpa using hf⟩
      cases hm
      rw [svc.serve_post_of_present hl.2 hl.1] at h1
      cases h1
    | ok r =>
      simp only [h1,Proc.run_call,Proc.run_ret] at h ⊢
      obtain ⟨f,hf,hv⟩ := svc.serve_post_ok h1
      have h2 := Service.facts_of_nodes (svc.serve_error h)
      refine ⟨fun m hm _ _ => ?_,fun hn => ?_⟩
      · cases hm
        exact ⟨f,hf,by rw [h2,hv]⟩
      · exact absurd ⟨by simp [hf],(svc.serve_ok h1).1⟩ (hn n rfl trivial)
  · have hb' : (name.isSome && description.isSome) = false := by simpa using hb
    simp only [editNode,hb',Bool.false_eq_true,if_false] at h ⊢
    refine ⟨fun n hn hd => absurd ⟨by simp [hn],hd⟩ hb,fun _ => ?_⟩
    exact Service.facts_of_nodes (svc.serve_error h)

end WorkflowyMcp.Client
