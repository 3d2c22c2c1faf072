import Mathlib.Data.List.Infix

/-! Runs of a labelled transition system: the invariant rule, the rule for runs
whose steps all meet a condition, and the rule that makes such a condition exact. -/
namespace WorkflowyMcp.Runs
variable {S E : Type} (step : S → E → S)

def run (s : S) (es : List E) : S := es.foldl step s

@[simp] theorem run_nil (s : S) : run step s [] = s := rfl
@[simp] theorem run_cons (s : S) (e : E) (es : List E) :
    run step s (e::es) = run step (step s e) es := rfl

theorem run_append (s : S) (es fs : List E) :
    run step s (es++fs) = run step (run step s es) fs := by
  simp [run,List.foldl_append]

theorem run_concat (s : S) (es : List E) (e : E) :
    run step s (es++[e]) = step (run step s es) e := by
  simp [run_append]

/-- Every step of the run meets `C`, judged on the state it is taken in. -/
def Meets (C : S → E → Prop) : S → List E → Prop
  | _, [] => True
  | s, e::es => C s e ∧ Meets C (step s e) es

instance Meets.decidable (C : S → E → Prop) [∀ s e, Decidable (C s e)] : (s : S) → (es : List E) →
    Decidable (Meets step C s es)
  | _, [] => .isTrue trivial
  | s, e::es => @instDecidableAnd _ _ inferInstance (Meets.decidable C (step s e) es)

/-- `P` holds in every state the run passes through, the first one included. -/
def Always (P : S → Prop) (s : S) (es : List E) : Prop :=
  ∀ pre, pre <+: es → P (run step s pre)

variable {step} {C D : S → E → Prop} {I P : S → Prop}

theorem Meets.invariant (hstep : ∀ s e, C s e → I s → I (step s e)) {s : S} {es : List E}
    (h : Meets step C s es) (hs : I s) : I (run step s es) := by
  induction es generalizing s with
  | nil => exact hs
  | cons e es ih => exact ih h.2 (hstep s e h.1 hs)

/-- What every step keeps, every run keeps. -/
theorem run_keeps (hstep : ∀ s e, I s → I (step s e)) {s : S} (hs : I s) (es : List E) :
    I (run step s es) := by
  induction es generalizing s with
  | nil => exact hs
  | cons e es ih => exact ih (hstep s e hs)

/-- Where a condition keeps an invariant that gives another one, the runs that meet it meet that. -/
theorem Meets.imp (hstep : ∀ s e, C s e → I s → I (step s e)) (hCD : ∀ s e, C s e → I s → D s e)
    {s : S} {es : List E} (h : Meets step C s es) (hs : I s) : Meets step D s es := by
  induction es generalizing s with
  | nil => trivial
  | cons e es ih => exact ⟨hCD s e h.1 hs,ih h.2 (hstep s e h.1 hs)⟩

/-- Where an invariant makes two conditions agree, so do the runs that meet them. -/
theorem meets_congr (hstep : ∀ s e, I s → I (step s e)) (hCD : ∀ s e, I s → (C s e ↔ D s e))
    {s : S} (hs : I s) (es : List E) : Meets step C s es ↔ Meets step D s es := by
  induction es generalizing s with
  | nil => exact Iff.rfl
  | cons e es ih => exact and_congr (hCD s e hs) (ih (hstep s e hs))

theorem meets_append {s : S} {es fs : List E} :
    Meets step C s (es++fs) ↔ Meets step C s es ∧ Meets step C (run step s es) fs := by
  induction es generalizing s with
  | nil => simp [Meets]
  | cons e es ih => simp [Meets,ih,and_assoc]

theorem Meets.of_prefix {s : S} {es pre : List E} (h : Meets step C s es)
    (hp : pre <+: es) : Meets step C s pre := by
  obtain ⟨rest,rfl⟩ := hp
  exact (meets_append.mp h).1

theorem Meets.always (hstep : ∀ s e, C s e → I s → I (step s e)) (hIP : ∀ s, I s → P s)
    {s : S} {es : List E} (h : Meets step C s es) (hs : I s) : Always step P s es :=
  fun _ hp => hIP _ ((h.of_prefix hp).invariant hstep hs)

theorem always_cons {s : S} {e : E} {es : List E} :
    Always step P s (e::es) ↔ P s ∧ Always step P (step s e) es := by
  constructor
  · intro h
    refine ⟨h [] (List.nil_prefix),fun pre hp => ?_⟩
    exact h (e::pre) ((List.prefix_cons_inj e).mpr hp)
  · rintro ⟨hs,h⟩ pre hp
    cases pre with
    | nil => exact hs
    | cons a pre =>
      obtain ⟨rfl,hp'⟩ := List.cons_prefix_cons.mp hp
      exact h pre hp'

/-- What the steps of the run put out, in order. -/
def outputs {O : Type} (step : S → E → S) (out : S → E → Option O) : S → List E → List O
  | _, [] => []
  | s, e::es => (out s e).toList++outputs step out (step s e) es

/-- A part of the state that each step updates by what it puts out. -/
theorem part_run {O R : Type} {out : S → E → Option O} (part : S → R) {f : R → O → R}
    (hstep : ∀ s e, part (step s e) = run f (part s) (out s e).toList) (s : S) (es : List E) :
    part (run step s es) = run f (part s) (outputs step out s es) := by
  induction es generalizing s with
  | nil => rfl
  | cons e es ih => rw [run_cons,ih,outputs,run_append,hstep]

theorem outputs_append {O : Type} (out : S → E → Option O) (s : S) (es fs : List E) :
    outputs step out s (es++fs) = outputs step out s es++outputs step out (run step s es) fs := by
  induction es generalizing s with
  | nil => rfl
  | cons e es ih => simp [outputs,ih]

/-- Where the outputs split at one of them, the run splits at the step that put it out. -/
theorem outputs_split {O : Type} {out : S → E → Option O} {s : S} {es : List E} {as bs : List O}
    {o : O} (h : outputs step out s es = as++o::bs) :
    ∃ pre e post, es = pre++e::post ∧ out (run step s pre) e = some o ∧
      outputs step out s pre = as ∧ outputs step out (run step s (pre++[e])) post = bs := by
  induction es generalizing s as with
  | nil => simp [outputs] at h
  | cons e es ih =>
    cases ho : out s e with
    | none =>
      simp only [outputs,ho,Option.toList_none,List.nil_append] at h
      obtain ⟨pre,e',post,rfl,hout,has,hbs⟩ := ih h
      exact ⟨e::pre,e',post,rfl,hout,by simp [outputs,ho,has],hbs⟩
    | some o' =>
      simp only [outputs,ho,Option.toList_some,List.singleton_append] at h
      cases as with
      | nil =>
        obtain ⟨rfl,rfl⟩ := List.cons.inj h
        exact ⟨[],e,es,rfl,ho,rfl,rfl⟩
      | cons a as =>
        obtain ⟨rfl,hrest⟩ := List.cons.inj h
        obtain ⟨pre,e',post,rfl,hout,has,hbs⟩ := ih hrest
        exact ⟨e::pre,e',post,rfl,hout,by simp [outputs,ho,has],hbs⟩

/-- A condition that keeps an invariant and whose first breach breaks `P` is exact. -/
theorem always_iff_meets (hstep : ∀ s e, C s e → I s → I (step s e)) (hIP : ∀ s, I s → P s)
    (hbreach : ∀ s e, I s → ¬C s e → ¬P (step s e)) {s : S} {es : List E} (hs : I s) :
    Always step P s es ↔ Meets step C s es := by
  refine ⟨fun h => ?_,fun h => h.always hstep hIP hs⟩
  induction es generalizing s with
  | nil => trivial
  | cons e es ih =>
    have hc : C s e := by
      by_contra hne
      exact hbreach s e hs hne ((always_cons.mp h).2 [] (List.nil_prefix))
    exact ⟨hc,ih (hstep s e hc hs) (always_cons.mp h).2⟩

end WorkflowyMcp.Runs
