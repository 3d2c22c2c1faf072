import Mathlib.Logic.Hydra
import WorkflowyMcp.Lib.Proc
import WorkflowyMcp.Lib.Runs
import WorkflowyMcp.Lib.StableSort

/-! Programs in flight together against one server, at most `width` at a time. A schedule picks who
goes on; whoever returns is collected and makes room for the next. -/
namespace WorkflowyMcp
variable {Req : Type} {Rep : Req → Type} {Fr α σ : Type}

structure Flight (Req : Type) (Rep : Req → Type) (Fr α : Type) where
  waiting : List (Nat × Proc Req Rep Fr α)
  running : List (Nat × Proc Req Rep Fr α) := []
  done : List (Nat × α) := []

namespace Flight

/-- Start as many as there is room for. -/
def fill (width : Nat) (p : Flight Req Rep Fr α) : Flight Req Rep Fr α :=
  { p with
    waiting := p.waiting.drop (width-p.running.length)
    running := p.running++p.waiting.take (width-p.running.length) }

def start (width : Nat) (tasks : List (Proc Req Rep Fr α)) : Flight Req Rep Fr α :=
  fill width { waiting := tasks.mapIdx Prod.mk }

/-- The program at place `pick` of those in flight goes on by one request, or is collected. -/
def step (srv : Proc.Server Req Rep σ) (width : Nat) (s : Flight Req Rep Fr α × σ) (pick : Nat) :
    Flight Req Rep Fr α × σ :=
  match s.1.running[pick]? with
  | none => s
  | some (i,.ret a) =>
    (fill width { s.1 with running := s.1.running.eraseIdx pick, done := s.1.done++[(i,a)] },s.2)
  | some (i,.call _ q k) =>
    ({ s.1 with running := s.1.running.set pick (i,k (srv q s.2).1) },(srv q s.2).2)

/-- What was collected, in the order of the tasks. -/
def results (p : Flight Req Rep Fr α) : List α := (sortByKey Prod.fst p.done).map Prod.snd

def Finished (p : Flight Req Rep Fr α) : Prop := p.waiting = [] ∧ p.running = []

section step
variable {srv : Proc.Server Req Rep σ} {width : Nat} {p : Flight Req Rep Fr α} {s : σ}

theorem step_cases (srv : Proc.Server Req Rep σ) (width : Nat) (p : Flight Req Rep Fr α) (s : σ)
    (pick : Nat) :
    p.running.length ≤ pick ∧ step srv width (p,s) pick = (p,s) ∨
    (∃ pre post i a, p.running = pre++(i,.ret a)::post ∧ step srv width (p,s) pick =
      (fill width { p with running := pre++post, done := p.done++[(i,a)] },s)) ∨
    ∃ pre post i fr q k, p.running = pre++(i,.call fr q k)::post ∧ step srv width (p,s) pick =
      ({ p with running := pre++(i,k (srv q s).1)::post },(srv q s).2) := by
  by_cases hpick : pick < p.running.length
  · have hsplit : p.running =
        p.running.take pick++p.running[pick]::p.running.drop (pick+1) := by simp
    have hget : p.running[pick]? = some p.running[pick] := List.getElem?_eq_getElem hpick
    generalize p.running[pick] = entry at hsplit hget
    obtain ⟨i,prog⟩ := entry
    cases prog with
    | ret a =>
      refine .inr (.inl ⟨_,_,i,a,hsplit,?_⟩)
      simp only [step,hget,List.eraseIdx_eq_take_drop_succ]
    | call fr q k =>
      refine .inr (.inr ⟨_,_,i,fr,q,k,hsplit,?_⟩)
      simp only [step,hget,List.set_eq_take_append_cons_drop,if_pos hpick]
  · refine .inl ⟨by omega,?_⟩
    simp only [step,List.getElem?_eq_none (Nat.le_of_not_lt hpick)]

/-- Whose turn is to come, who is in flight and who is done. -/
def indices (p : Flight Req Rep Fr α) : List Nat :=
  p.waiting.map Prod.fst++p.running.map Prod.fst++p.done.map Prod.fst

theorem indices_fill (width : Nat) (p : Flight Req Rep Fr α) :
    (fill width p).indices.Perm p.indices := by
  have hsplit := congrArg (List.map Prod.fst)
    (List.take_append_drop (width-p.running.length) p.waiting)
  rw [List.map_append] at hsplit
  simp only [indices,fill,List.map_append]
  refine List.Perm.append_right _ ?_
  rw [← hsplit,← List.append_assoc]
  refine (List.perm_append_comm).trans ?_
  rw [← List.append_assoc]

theorem indices_step (srv : Proc.Server Req Rep σ) (width : Nat) (p : Flight Req Rep Fr α) (s : σ)
    (pick : Nat) : (step srv width (p,s) pick).1.indices.Perm p.indices := by
  rcases step_cases srv width p s pick with ⟨-,hstep⟩ | ⟨pre,post,i,a,hrun,hstep⟩ |
    ⟨pre,post,i,fr,q,k,hrun,hstep⟩
  · rw [hstep]
  · rw [hstep]
    refine (indices_fill width _).trans ?_
    simp only [indices,hrun,List.map_append,List.map_cons,List.append_assoc,List.cons_append]
    refine List.Perm.append_left _ (List.Perm.append_left _ ?_)
    have hswap : (p.done.map Prod.fst++[i]).Perm ([i]++p.done.map Prod.fst) :=
      List.perm_append_comm
    exact (hswap.append_left _).trans List.perm_middle
  · rw [hstep]
    simp [indices,hrun]

/-- Every task is in one place. -/
theorem indices_run (srv : Proc.Server Req Rep σ) (width : Nat) (tasks : List (Proc Req Rep Fr α))
    (s : σ) (picks : List Nat) :
    (Runs.run (step srv width) (start width tasks,s) picks).1.indices.Perm
      (List.range tasks.length) := by
  refine Runs.run_keeps (I := fun s : Flight Req Rep Fr α × σ => s.1.indices.Perm _)
    (fun s pick h => (indices_step srv width s.1 s.2 pick).trans h) ?_ picks
  refine (indices_fill width _).trans ?_
  have hfst : (tasks.mapIdx Prod.mk).map Prod.fst = List.range tasks.length := by
    exact List.ext_getElem (by simp) fun i hi hi' => by simp
  simp [indices,hfst]

/-- No more than `width` are in flight. -/
theorem running_run (srv : Proc.Server Req Rep σ) (width : Nat) (tasks : List (Proc Req Rep Fr α))
    (s : σ) (picks : List Nat) :
    (Runs.run (step srv width) (start width tasks,s) picks).1.running.length ≤ width := by
  have hfill {p : Flight Req Rep Fr α} (h : p.running.length ≤ width) :
      (fill width p).running.length ≤ width := by
    simp only [fill,List.length_append,List.length_take]
    omega
  refine Runs.run_keeps (I := fun s : Flight Req Rep Fr α × σ => s.1.running.length ≤ width)
    (fun ⟨p,s⟩ pick h => ?_) (hfill (Nat.zero_le _)) picks
  rcases step_cases srv width p s pick with ⟨-,hstep⟩ | ⟨pre,post,i,a,hrun,hstep⟩ |
    ⟨pre,post,i,fr,q,k,hrun,hstep⟩
  · rw [hstep]
    exact h
  · rw [hstep]
    refine hfill ?_
    simp only [hrun,List.length_append,List.length_cons] at h ⊢
    omega
  · rw [hstep]
    simpa [hrun] using h

/-- Programs wait only while there is no room. -/
theorem waiting_run (srv : Proc.Server Req Rep σ) (width : Nat) (tasks : List (Proc Req Rep Fr α))
    (s : σ) (picks : List Nat)
    (h : (Runs.run (step srv width) (start width tasks,s) picks).1.waiting≠[]) :
    width ≤ (Runs.run (step srv width) (start width tasks,s) picks).1.running.length := by
  have hfill (p : Flight Req Rep Fr α) (h : (fill width p).waiting≠[]) :
      width ≤ (fill width p).running.length := by
    simp only [fill,ne_eq,List.drop_eq_nil_iff,Nat.not_le] at h
    simp only [fill,List.length_append,List.length_take]
    omega
  refine Runs.run_keeps (I := fun s : Flight Req Rep Fr α × σ => s.1.waiting≠[] →
    width ≤ s.1.running.length) (fun ⟨p,s⟩ pick h => ?_) (hfill _) picks h
  rcases step_cases srv width p s pick with ⟨-,hstep⟩ | ⟨pre,post,i,a,hrun,hstep⟩ |
    ⟨pre,post,i,fr,q,k,hrun,hstep⟩
  · rwa [hstep]
  · rw [hstep]
    exact hfill _
  · rw [hstep]
    simpa [hrun] using h

end step

section results
variable {p : Flight Req Rep Fr α} {n : Nat}

/-- When all are done there is one result for each task, at its place. -/
theorem getElem?_results (hindices : p.indices.Perm (List.range n)) (h : p.Finished) :
    p.results.length = n ∧ ∀ i a, p.results[i]? = some a ↔ (i,a)∈p.done := by
  have hkeys : (p.done.map Prod.fst).Perm (List.range n) := by
    simpa [indices,h.1,h.2] using hindices
  have hperm : (sortByKey Prod.fst p.done).Perm p.done := sortByKey_perm p.done
  have hsorted : (sortByKey Prod.fst p.done).map Prod.fst = List.range n := by
    refine ((hperm.map Prod.fst).trans hkeys).eq_of_pairwise (fun a b _ _ => le_antisymm) ?_
      List.pairwise_le_range
    exact List.pairwise_map.mpr (sortByKey_sorted p.done)
  have hlen : (sortByKey Prod.fst p.done).length = n := by
    simpa using congrArg List.length hsorted
  refine ⟨by simpa [results] using hlen,fun i a => ?_⟩
  rw [← hperm.mem_iff,results,List.getElem?_map]
  have hfst (j : Nat) (hj : j < (sortByKey Prod.fst p.done).length) :
      (sortByKey Prod.fst p.done)[j].1 = j := by
    have hat := List.getElem_of_eq hsorted (by simpa using hj)
    simpa using hat
  constructor
  · intro hget
    obtain ⟨entry,hentry,rfl⟩ := Option.map_eq_some_iff.mp hget
    obtain ⟨hi,rfl⟩ := List.getElem?_eq_some_iff.mp hentry
    have hmem := List.getElem_mem hi
    rwa [← Prod.mk.eta (p := (sortByKey Prod.fst p.done)[i]),hfst i hi] at hmem
  · intro hmem
    obtain ⟨j,hj,hat⟩ := List.mem_iff_getElem.mp hmem
    have hji := hfst j hj
    rw [hat] at hji
    obtain rfl : i = j := hji
    rw [List.getElem?_eq_getElem hj,hat]
    rfl

end results

/-- What a ghost state `g` says of the server, of the programs to come or in flight, and of what was
collected. -/
structure Kept {γ : Type} (I : γ → σ → Prop) (J : γ → Nat → Proc Req Rep Fr α → Prop)
    (K : γ → Nat → α → Prop) (g : γ) (s : Flight Req Rep Fr α × σ) : Prop where
  state : I g s.2
  live : ∀ t∈s.1.waiting++s.1.running, J g t.1 t.2
  collected : ∀ r∈s.1.done, K g r.1 r.2

section kept
variable {srv : Proc.Server Req Rep σ} {γ : Type} {I : γ → σ → Prop}
  {J : γ → Nat → Proc Req Rep Fr α → Prop} {K : γ → Nat → α → Prop}

theorem Kept.fill {g : γ} {p : Flight Req Rep Fr α} {s : σ} (h : Kept I J K g (p,s)) (width : Nat) :
    Kept I J K g (p.fill width,s) := by
  refine ⟨h.state,fun t ht => h.live t ?_,h.collected⟩
  simp only [Flight.fill,List.mem_append] at ht ⊢
  rcases ht with ht | ht | ht
  · exact .inl (List.mem_of_mem_drop ht)
  · exact .inr ht
  · exact .inl (List.mem_of_mem_take ht)

/-- What a program guarantees with each reply it gets, and what it says of the others stays true,
holds in every interleaving. -/
theorem kept_run
    (hcall : ∀ g s i fr q k, I g s → J g i (.call fr q k) → ∃ g', I g' (srv q s).2 ∧
      J g' i (k (srv q s).1) ∧ ∀ j, j≠i → (∀ p, J g j p → J g' j p) ∧ ∀ a, K g j a → K g' j a)
    (hret : ∀ g i a, J g i (.ret a) → K g i a) {g : γ} {s : σ} (hs : I g s) (width : Nat)
    {tasks : List (Proc Req Rep Fr α)} (htasks : ∀ i p, tasks[i]? = some p → J g i p)
    (picks : List Nat) :
    ∃ g, Kept I J K g (Runs.run (step srv width) (start width tasks,s) picks) := by
  have hnodup (picks : List Nat) :
      (Runs.run (step srv width) (start width tasks,s) picks).1.indices.Nodup :=
    (indices_run srv width tasks s picks).nodup_iff.mpr List.nodup_range
  induction picks using List.reverseRecOn with
  | nil =>
    refine ⟨g,Kept.fill ⟨hs,fun t ht => ?_,by simp⟩ width⟩
    simp only [List.append_nil,List.mem_mapIdx] at ht
    obtain ⟨i,hi,rfl⟩ := ht
    exact htasks i _ (List.getElem?_eq_getElem hi)
  | append_singleton picks pick ih =>
    obtain ⟨g,hkept⟩ := ih
    have hnodup := hnodup picks
    rw [Runs.run_concat]
    generalize Runs.run (step srv width) (start width tasks,s) picks = s at hkept hnodup
    obtain ⟨p,s⟩ := s
    rcases step_cases srv width p s pick with ⟨-,hstep⟩ | ⟨pre,post,i,a,hrun,hstep⟩ |
      ⟨pre,post,i,fr,q,k,hrun,hstep⟩
    · rw [hstep]
      exact ⟨g,hkept⟩
    · rw [hstep]
      have hrest : Kept I J K g
          ({ p with running := pre++post, done := p.done++[(i,a)] },s) := by
        refine ⟨hkept.state,fun t ht => hkept.live t ?_,fun r hr => ?_⟩
        · simp only [hrun,List.mem_append,List.mem_cons] at ht ⊢
          tauto
        · rcases List.mem_append.mp hr with hr | hr
          · exact hkept.collected r hr
          · obtain rfl := List.mem_singleton.mp hr
            exact hret g i a (hkept.live (i,.ret a) (by simp [hrun]))
      exact ⟨g,hrest.fill width⟩
    · obtain ⟨g',hstate,hown,hothers⟩ := hcall g s i fr q k hkept.state
        (hkept.live (i,.call fr q k) (by simp [hrun]))
      have hapart : ∀ j, j∈p.waiting.map Prod.fst ∨ j∈pre.map Prod.fst ∨ j∈post.map Prod.fst ∨
          j∈p.done.map Prod.fst → j≠i := by
        rintro j hj rfl
        simp only [indices,hrun,List.map_append,List.map_cons,List.append_assoc] at hnodup
        rw [← List.append_assoc,List.cons_append,List.nodup_middle,List.nodup_cons] at hnodup
        simp only [List.mem_append] at hnodup
        tauto
      rw [hstep]
      refine ⟨g',hstate,fun t ht => ?_,fun r hr => ?_⟩
      · have hsame (t : Nat×Proc Req Rep Fr α) (hne : t.1≠i) (ht : t∈p.waiting++p.running) :
            J g' t.1 t.2 := (hothers t.1 hne).1 t.2 (hkept.live t ht)
        simp only [List.mem_append,List.mem_cons] at ht
        rcases ht with ht | ht | rfl | ht
        · exact hsame t (hapart _ (.inl (List.mem_map_of_mem ht))) (by simp [ht])
        · exact hsame t (hapart _ (.inr (.inl (List.mem_map_of_mem ht)))) (by simp [hrun,ht])
        · exact hown
        · exact hsame t (hapart _ (.inr (.inr (.inl (List.mem_map_of_mem ht))))) (by simp [hrun,ht])
      · exact (hothers r.1 (hapart _ (.inr (.inr (.inr (List.mem_map_of_mem hr)))))).2 r.2
          (hkept.collected r hr)

end kept

section finishes

/-- The program goes on by one reply. -/
def Resumes (p' p : Proc Req Rep Fr α) : Prop := ∃ fr q k r, p = .call fr q k ∧ p' = k r

theorem resumes_wf : WellFounded (Resumes : Proc Req Rep Fr α → Proc Req Rep Fr α → Prop) := by
  refine ⟨fun p => ?_⟩
  induction p with
  | ret a => exact ⟨_,fun p' ⟨fr,q,k,r,hp,_⟩ => by cases hp⟩
  | call fr q k ih =>
    refine ⟨_,fun p' ⟨fr',q',k',r,hp,hp'⟩ => ?_⟩
    cases hp
    exact hp' ▸ ih r

/-- The programs to come and in flight. -/
def live (p : Flight Req Rep Fr α) : Multiset (Proc Req Rep Fr α) :=
  (p.waiting++p.running).map Prod.snd

variable {srv : Proc.Server Req Rep σ} {width : Nat} {p : Flight Req Rep Fr α} {s : σ}

theorem live_fill (width : Nat) (p : Flight Req Rep Fr α) : (fill width p).live = p.live := by
  have hsplit := List.take_append_drop (width-p.running.length) p.waiting
  simp only [live,fill,Multiset.coe_eq_coe]
  refine List.Perm.map _ ?_
  conv_rhs => rw [← hsplit]
  rw [← List.append_assoc]
  refine List.perm_append_comm.trans ?_
  rw [← List.append_assoc]

theorem live_step {pick : Nat} (hpick : pick < p.running.length) :
    Relation.CutExpand Resumes (step srv width (p,s) pick).1.live p.live := by
  rcases step_cases srv width p s pick with ⟨hle,-⟩ | ⟨pre,post,i,a,hrun,hstep⟩ |
    ⟨pre,post,i,fr,q,k,hrun,hstep⟩
  · omega
  · refine ⟨0,.ret a,by simp,?_⟩
    rw [hstep,live_fill,live,live,hrun,add_zero,← Multiset.coe_singleton,Multiset.coe_add,
      Multiset.coe_eq_coe]
    simp only [List.map_append,List.map_cons,List.append_assoc]
    exact ((List.perm_append_singleton _ _).append_left _).append_left _
  · refine ⟨{k (srv q s).1},.call fr q k,fun p' hp' => ?_,?_⟩
    · exact ⟨fr,q,k,_,rfl,Multiset.mem_singleton.mp hp'⟩
    · rw [hstep,live,live,hrun,← Multiset.coe_singleton,← Multiset.coe_singleton,Multiset.coe_add,
        Multiset.coe_add,Multiset.coe_eq_coe]
      simp only [List.map_append,List.map_cons,List.append_assoc,List.cons_append]
      refine (List.Perm.append_left _ ?_).append_left _
      exact ((List.perm_append_singleton _ _).cons _).trans
        ((List.Perm.swap _ _ _).trans ((List.perm_append_singleton _ _).symm.cons _))

/-- Where whoever is picked is in flight, all are done in the end. -/
theorem finishes (hwidth : 0 < width) (srv : Proc.Server Req Rep σ) (tasks : List (Proc Req Rep Fr α))
    (s : σ) (picks : Nat → Nat)
    (hpicks : ∀ n, let p := (Runs.run (step srv width) (start width tasks,s)
      ((List.range n).map picks)).1
      p.running≠[] → picks n < p.running.length) :
    ∃ n, (Runs.run (step srv width) (start width tasks,s) ((List.range n).map picks)).1.Finished := by
  by_contra hnever
  have hresumes : WellFounded (Resumes : Proc Req Rep Fr α → Proc Req Rep Fr α → Prop) := resumes_wf
  have hwf := hresumes.cutExpand
  have : IsWellFounded (Multiset (Proc Req Rep Fr α)) (Relation.CutExpand Resumes) := ⟨hwf⟩
  obtain ⟨n,hn⟩ := WellFounded.not_rel_apply_succ (r := Relation.CutExpand Resumes) fun n =>
    (Runs.run (step srv width) (start width tasks,s) ((List.range n).map picks)).1.live
  refine hn ?_
  rw [List.range_succ,List.map_append,List.map_singleton,Runs.run_concat]
  refine live_step (hpicks n fun hnone => hnever ⟨n,?_,hnone⟩)
  by_contra hwaiting
  have hfull := waiting_run srv width tasks s _ hwaiting
  rw [hnone] at hfull
  exact absurd hfull (Nat.not_le.mpr hwidth)

end finishes

end Flight
end WorkflowyMcp
