import WorkflowyMcp.Lib.Proc
import WorkflowyMcp.Lib.Runs

/-! Programs that share one server, each request served at a time of the scheduler's choice.
`landed` lists the tasks in the order in which they returned, which is the order of the
sequential execution a run is compared with. Nothing here names a particular service. -/
namespace WorkflowyMcp
variable {Req : Type} {Rep : Req → Type} {Fr α σ C T : Type}

namespace Proc

def returned : Proc Req Rep Fr α → Bool
  | .ret _ => true
  | .call .. => false

@[simp] theorem returned_ret (a : α) : (.ret a : Proc Req Rep Fr α).returned = true := rfl
@[simp] theorem returned_call (fr : Fr) (q : Req) (k : Rep q → Proc Req Rep Fr α) :
    (Proc.call fr q k).returned = false := rfl

/-- Only the last request of the program may change the state, however it is answered. -/
def LastChanges (srv : C → Server Req Rep σ) : Proc Req Rep Fr α → Prop
  | .ret _ => True
  | .call _ q k =>
    (∀ c s, (k (srv c q s).1).returned = false → (srv c q s).2 = s) ∧
      ∀ r, (k r).LastChanges srv

end Proc

/- The server's state, the tasks with what each has left to do, and those that returned. -/
structure Pool (Req : Type) (Rep : Req → Type) (Fr α σ T : Type) where
  state : σ
  tasks : List (T × Proc Req Rep Fr α)
  landed : List T := []

namespace Pool
variable (srv : C → Proc.Server Req Rep σ) (program : T → Proc Req Rep Fr α)

def start (ts : List T) (s : σ) : Pool Req Rep Fr α σ T where
  state := s
  tasks := ts.map fun t => (t,program t)

/- The chosen task's next request is served; `C` is what the server is free to choose. -/
def step (s : Pool Req Rep Fr α σ T) (e : Nat × C) : Pool Req Rep Fr α σ T :=
  match s.tasks[e.1]? with
  | some (t,.call _ q k) =>
    let p := k (srv e.2 q s.state).1
    { state := (srv e.2 q s.state).2
      tasks := s.tasks.set e.1 (t,p)
      landed := if p.returned then s.landed++[t] else s.landed }
  | _ => s

def Returned (s : Pool Req Rep Fr α σ T) : Prop := ∀ x∈s.tasks, x.2.returned

instance (s : Pool Req Rep Fr α σ T) : Decidable s.Returned :=
  inferInstanceAs (Decidable (∀ x∈s.tasks, x.2.returned))

/-- The tasks that returned, in the order of the list. -/
def done (tasks : List (T × Proc Req Rep Fr α)) : List T :=
  (tasks.filter (·.2.returned)).map Prod.fst

theorem done_append (as bs : List (T × Proc Req Rep Fr α)) : done (as++bs) = done as++done bs := by
  simp [done]

theorem done_cons_of_returned {t : T} {p : Proc Req Rep Fr α} (h : p.returned = true)
    (xs : List (T × Proc Req Rep Fr α)) : done ((t,p)::xs) = t::done xs := by
  simp [done,h]

theorem done_cons_of_pending {t : T} {p : Proc Req Rep Fr α} (h : p.returned = false)
    (xs : List (T × Proc Req Rep Fr α)) : done ((t,p)::xs) = done xs := by
  simp [done,h]

variable {srv} {s : Pool Req Rep Fr α σ T} {e : Nat × C}

/-- A step leaves everything as it is, or serves one request of one task. -/
theorem step_cases (srv : C → Proc.Server Req Rep σ) (s : Pool Req Rep Fr α σ T) (e : Nat × C) :
    (step srv s e = s ∧ ∀ t fr q k, s.tasks[e.1]? ≠ some (t,.call fr q k)) ∨
    ∃ before after t fr q k,
      s.tasks = before++(t,.call fr q k)::after ∧ s.tasks[e.1]? = some (t,.call fr q k) ∧
      step srv s e =
        { state := (srv e.2 q s.state).2
          tasks := before++(t,k (srv e.2 q s.state).1)::after
          landed := if (k (srv e.2 q s.state).1).returned then s.landed++[t] else s.landed } := by
  cases hx : s.tasks[e.1]? with
  | none => exact .inl ⟨by simp [step,hx],by simp⟩
  | some x =>
    obtain ⟨t,p⟩ := x
    cases p with
    | ret a => exact .inl ⟨by simp [step,hx],by simp⟩
    | call fr q k =>
      obtain ⟨hlt,hget⟩ := List.getElem?_eq_some_iff.mp hx
      have hsplit : s.tasks = s.tasks.take e.1 ++ (t,.call fr q k)::s.tasks.drop (e.1+1) := by
        rw [← hget,List.getElem_cons_drop,List.take_append_drop]
      refine .inr ⟨_,_,t,fr,q,k,hsplit,rfl,?_⟩
      simp only [step,hx]
      rw [List.set_eq_take_append_cons_drop,if_pos hlt]

/-- What holds of every task's program goes on to hold. -/
theorem step_tasks {Q : T → Proc Req Rep Fr α → Prop}
    (hstep : ∀ t fr q k r, Q t (.call fr q k) → Q t (k r)) (h : ∀ x∈s.tasks, Q x.1 x.2) :
    ∀ x∈(step srv s e).tasks, Q x.1 x.2 := by
  obtain ⟨he,-⟩ | ⟨before,after,t,fr,q,k,hsplit,-,he⟩ := step_cases srv s e
  · rwa [he]
  · rw [he]
    rw [hsplit] at h
    intro x hx
    obtain hx | rfl | hx : x∈before ∨ x = (t,k (srv e.2 q s.state).1) ∨ x∈after := by
      simpa using hx
    · exact h x (by simp [hx])
    · exact hstep t fr q k _ (h (t,.call fr q k) (by simp))
    · exact h x (by simp [hx])

theorem step_fst : (step srv s e).tasks.map Prod.fst = s.tasks.map Prod.fst := by
  obtain ⟨he,-⟩ | ⟨before,after,t,fr,q,k,hsplit,-,he⟩ := step_cases srv s e
  · rw [he]
  · simp [he,hsplit]

theorem step_landed (h : s.landed.Perm (done s.tasks)) :
    (step srv s e).landed.Perm (done (step srv s e).tasks) := by
  obtain ⟨he,-⟩ | ⟨before,after,t,fr,q,k,hsplit,-,he⟩ := step_cases srv s e
  · rwa [he]
  · rw [hsplit,done_append,done_cons_of_pending (Proc.returned_call fr q k)] at h
    rw [he]
    cases hr : (k (srv e.2 q s.state).1).returned with
    | false => simpa [done_append,done_cons_of_pending hr] using h
    | true =>
      have hend : (s.landed++[t]).Perm (t::(done before++done after)) :=
        (List.perm_append_singleton t s.landed).trans (h.cons t)
      simpa [done_append,done_cons_of_returned hr] using hend.trans List.perm_middle.symm

/-- Once every task has returned, all of them have landed. -/
theorem returned_perm (hcall : ∀ t, (program t).returned = false) {ts : List T} {st : σ}
    {es : List (Nat × C)} (h : Returned (Runs.run (step srv) (start program ts st) es)) :
    (Runs.run (step srv) (start program ts st) es).landed.Perm ts := by
  have hl : (Runs.run (step srv) (start program ts st) es).landed.Perm
      (done (Runs.run (step srv) (start program ts st) es).tasks) :=
    Runs.run_keeps (I := fun s : Pool Req Rep Fr α σ T => s.landed.Perm (done s.tasks))
      (fun _ _ => step_landed)
      (by simp [start,done,hcall]) es
  have hf : (Runs.run (step srv) (start program ts st) es).tasks.map Prod.fst = ts :=
    Runs.run_keeps (I := fun s : Pool Req Rep Fr α σ T => s.tasks.map Prod.fst = ts)
      (fun _ _ hs => step_fst.trans hs)
      (by simp [start,Function.comp_def]) es
  rw [done,List.filter_eq_self.mpr h,hf] at hl
  exact hl

section serial
variable (srv) (effect : T → σ → σ)

def sequential (order : List T) (st : σ) : σ := order.foldl (fun st t => effect t st) st

/-- The request with which a task returns does to the state what the whole task does alone. -/
def Commits (s : Pool Req Rep Fr α σ T) (e : Nat × C) : Prop :=
  match s.tasks[e.1]? with
  | some (t,.call _ q k) =>
    (k (srv e.2 q s.state).1).returned → (srv e.2 q s.state).2 = effect t s.state
  | _ => True

/-- A run is the sequential execution of the tasks it landed, all along, exactly when every
task commits. -/
theorem always_sequential_iff {st : σ} (hs : s.state = sequential effect s.landed st)
    (hq : ∀ x∈s.tasks, x.2.LastChanges srv) (es : List (Nat × C)) :
    Runs.Always (step srv) (fun s => s.state = sequential effect s.landed st) s es ↔
      Runs.Meets (step srv) (Commits srv effect) s es := by
  have hlast : ∀ (s : Pool Req Rep Fr α σ T) (e : Nat × C), (∀ x∈s.tasks, x.2.LastChanges srv) →
      ∀ x∈(step srv s e).tasks, x.2.LastChanges srv :=
    fun s e h => step_tasks (Q := fun _ p => p.LastChanges srv) (fun _ _ _ _ r h => h.2 r) h
  have hnext : ∀ (s : Pool Req Rep Fr α σ T) (e : Nat × C),
      s.state = sequential effect s.landed st → (∀ x∈s.tasks, x.2.LastChanges srv) →
      ((step srv s e).state = sequential effect (step srv s e).landed st ↔
        Commits srv effect s e) := by
    intro s e hs hq
    obtain ⟨he,hidle⟩ | ⟨before,after,t,fr,q,k,hsplit,hget,he⟩ := step_cases srv s e
    · have hc : Commits srv effect s e := by
        unfold Commits
        split
        · rename_i hx
          exact absurd hx (hidle _ _ _ _)
        · trivial
      rw [he]
      exact iff_of_true hs hc
    · have hcall := hq (t,.call fr q k) (by simp [hsplit])
      rw [he]
      simp only [Commits,hget]
      cases hr : (k (srv e.2 q s.state).1).returned with
      | false => simpa [hcall.1 e.2 s.state hr] using hs
      | true =>
        have hone : sequential effect (s.landed++[t]) st = effect t s.state := by
          rw [hs,sequential,sequential,List.foldl_append]
          rfl
        simp [hone]
  refine Runs.always_iff_meets (I := fun s : Pool Req Rep Fr α σ T =>
    s.state = sequential effect s.landed st ∧ ∀ x∈s.tasks, x.2.LastChanges srv)
    ?_ (fun _ h => h.1) ?_ ⟨hs,hq⟩
  · exact fun s e hc h => ⟨(hnext s e h.1 h.2).mpr hc,hlast s e h.2⟩
  · exact fun s e h hc hp => hc ((hnext s e h.1 h.2).mp hp)

end serial

end Pool
end WorkflowyMcp
