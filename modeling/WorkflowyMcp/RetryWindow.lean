import WorkflowyMcp.Lib.Runs

/-! The retry window that the last 429 left behind. Instants are wall-clock milliseconds; zero
stands for no 429 and for no hint. -/
namespace WorkflowyMcp

structure RateLimitPosture where
  last429UnixMs : Option Nat := none
  lastRetryAfterMs : Option Nat := none
  retryAfterRemainingMs : Option Nat := none
  inRetryWindow : Bool := false
deriving DecidableEq, Repr

structure RetryWindow where
  last429UnixMs : Nat := 0
  lastRetryAfterMs : Nat := 0
deriving DecidableEq, Repr

namespace RetryWindow

def rateLimitPosture (w : RetryWindow) (now : Nat) : RateLimitPosture :=
  if w.last429UnixMs = 0 then {}
  else
    let retryAfter := if w.lastRetryAfterMs = 0 then none else some w.lastRetryAfterMs
    let elapsed := now-w.last429UnixMs
    let remaining := retryAfter.map (·-elapsed)
    { last429UnixMs := some w.last429UnixMs
      lastRetryAfterMs := retryAfter
      retryAfterRemainingMs := remaining.filter (0 < ·)
      inRetryWindow := match remaining with
        | some r => 0 < r
        | none => false }

/-- Each 429 overwrites both numbers. -/
def stampRateLimited (_ : RetryWindow) (now : Nat) (retryAfterMs : Option Nat) : RetryWindow :=
  ⟨now,retryAfterMs.getD 0⟩

/-- The window is over, or was never open. -/
def Over (w : RetryWindow) (now : Nat) : Prop :=
  w.last429UnixMs = 0 ∨ w.last429UnixMs+w.lastRetryAfterMs ≤ now

instance (w : RetryWindow) (now : Nat) : Decidable (w.Over now) :=
  inferInstanceAs (Decidable (_ ∨ _))

variable {w : RetryWindow} {now : Nat}

theorem inRetryWindow_eq_false (h : w.last429UnixMs ≤ now) :
    (w.rateLimitPosture now).inRetryWindow = false ↔ w.Over now := by
  unfold rateLimitPosture Over
  by_cases hz : w.last429UnixMs = 0
  · simp [hz]
  · by_cases hr : w.lastRetryAfterMs = 0
    · simp [hz,hr,h]
    · simp only [hz,hr,if_false,Option.map_some,decide_eq_false_iff_not,false_or]
      omega

/-- What is left of an open window. -/
theorem remaining_eq_some {r : Nat} (h : w.last429UnixMs ≤ now) :
    (w.rateLimitPosture now).retryAfterRemainingMs = some r ↔
      w.last429UnixMs≠0 ∧ 0<r ∧ now+r = w.last429UnixMs+w.lastRetryAfterMs := by
  unfold rateLimitPosture
  by_cases hz : w.last429UnixMs = 0
  · simp [hz]
  · by_cases hr : w.lastRetryAfterMs = 0
    · simp only [hz,hr,if_true,if_false,Option.map_none,Option.filter_none,reduceCtorEq,
        ne_eq,not_false_eq_true,true_and,false_iff,not_and]
      omega
    · simp only [hz,hr,if_false,Option.map_some,Option.filter_eq_some_iff,Option.some.injEq,
        decide_eq_true_eq,ne_eq,not_false_eq_true,true_and]
      omega

theorem remaining_eq_none (h : w.last429UnixMs ≤ now) :
    (w.rateLimitPosture now).retryAfterRemainingMs = none ↔ w.Over now := by
  rw [Option.eq_none_iff_forall_ne_some]
  unfold Over
  constructor
  · intro hnone
    by_contra hopen
    obtain ⟨hz,hend⟩ := not_or.mp hopen
    refine hnone (w.last429UnixMs+w.lastRetryAfterMs-now) ((remaining_eq_some h).mpr ⟨hz,?_,?_⟩)
    · omega
    · omega
  · intro hover r hr
    have hr := (remaining_eq_some h).mp hr
    omega

/-- One 429: when it was stamped, and its hint. -/
structure Stamp where
  time : Nat
  retryAfterMs : Option Nat
deriving DecidableEq, Repr

def step (w : RetryWindow) (s : Stamp) : RetryWindow := w.stampRateLimited s.time s.retryAfterMs

def Chronological (stamps : List Stamp) : Prop :=
  stamps.Pairwise fun s s' => s.time ≤ s'.time

/-- Every window that was promised and has not run out is reported, with at least what is left
of it. -/
def Honours (w : RetryWindow) (stamps : List Stamp) : Prop :=
  ∀ now, (∀ s∈stamps, s.time ≤ now) → ∀ s∈stamps, ∀ R, s.retryAfterMs = some R →
    now<s.time+R →
    (w.rateLimitPosture now).inRetryWindow = true ∧
      ∃ r, (w.rateLimitPosture now).retryAfterRemainingMs = some r ∧ s.time+R ≤ now+r

/-- A 429 whose hint covers what is left of the window that is open when it is stamped. -/
def Extends (w : RetryWindow) (s : Stamp) : Prop :=
  (w.rateLimitPosture s.time).retryAfterRemainingMs.getD 0 ≤ s.retryAfterMs.getD 0 ∧
    (s.time = 0 → s.retryAfterMs.getD 0 = 0)

instance (w : RetryWindow) (s : Stamp) : Decidable (w.Extends s) :=
  inferInstanceAs (Decidable (_ ∧ _))

theorem step_last (w : RetryWindow) (s : Stamp) : (w.step s).last429UnixMs = s.time := rfl

theorem step_retryAfter (w : RetryWindow) (s : Stamp) :
    (w.step s).lastRetryAfterMs = s.retryAfterMs.getD 0 := rfl

/-- The last number stamped bounds every promised end. -/
def Covers (w : RetryWindow) (stamps : List Stamp) : Prop :=
  ∀ s∈stamps, s.time ≤ w.last429UnixMs ∧
    s.time+s.retryAfterMs.getD 0 ≤ w.last429UnixMs+w.lastRetryAfterMs

theorem Covers.honours {stamps : List Stamp} (h : w.Covers stamps)
    (hz : w.last429UnixMs = 0 → w.lastRetryAfterMs = 0)
    (hl : w = {} ∨ ∃ s∈stamps, s.time = w.last429UnixMs) : w.Honours stamps := by
  intro now hnow s hs R hR hin
  obtain ⟨hlast,hend⟩ := h s hs
  rw [hR,Option.getD_some] at hend
  have hle : w.last429UnixMs ≤ now := by
    rcases hl with rfl | ⟨s',hs',hl⟩
    · exact Nat.zero_le now
    · exact hl ▸ hnow s' hs'
  have hopen : ¬w.Over now := by
    unfold Over
    omega
  refine ⟨?_,w.last429UnixMs+w.lastRetryAfterMs-now,(remaining_eq_some hle).mpr ?_,?_⟩
  · rw [← Bool.not_eq_false,inRetryWindow_eq_false hle]
    exact hopen
  · unfold Over at hopen
    omega
  · omega

/-- The window of a run is that of its last 429. -/
theorem run_eq (stamps : List Stamp) :
    (stamps = [] ∧ Runs.run step {} stamps = {}) ∨
      ∃ s∈stamps, Runs.run step {} stamps = ⟨s.time,s.retryAfterMs.getD 0⟩ := by
  rcases List.eq_nil_or_concat stamps with rfl | ⟨stamps,s,rfl⟩
  · exact .inl ⟨rfl,rfl⟩
  · rw [List.concat_eq_append]
    exact .inr ⟨s,by simp,Runs.run_concat ..⟩

theorem last_le {stamps : List Stamp} {now : Nat} (h : ∀ s∈stamps, s.time ≤ now) :
    (Runs.run step {} stamps).last429UnixMs ≤ now := by
  rcases run_eq stamps with ⟨-,hrun⟩ | ⟨s,hs,hrun⟩
  · rw [hrun]
    exact Nat.zero_le now
  · rw [hrun]
    exact h s hs

theorem chronological_concat {stamps : List Stamp} {s : Stamp} :
    Chronological (stamps++[s]) ↔ Chronological stamps ∧ ∀ s'∈stamps, s'.time ≤ s.time := by
  simp [Chronological,List.pairwise_append]

theorem covers_of_meets {stamps : List Stamp} (hc : Chronological stamps)
    (h : Runs.Meets step Extends {} stamps) :
    (Runs.run step {} stamps).Covers stamps ∧
      ((Runs.run step {} stamps).last429UnixMs = 0 →
        (Runs.run step {} stamps).lastRetryAfterMs = 0) := by
  induction stamps using List.reverseRecOn with
  | nil => exact ⟨by simp [Covers],fun _ => rfl⟩
  | append_singleton stamps s ih =>
    obtain ⟨hc,hle⟩ := chronological_concat.mp hc
    obtain ⟨hstamps,⟨hleft,hzero⟩,-⟩ := Runs.meets_append.mp h
    obtain ⟨hcov,hz⟩ := ih hc hstamps
    have hend : (Runs.run step {} stamps).last429UnixMs+(Runs.run step {} stamps).lastRetryAfterMs ≤
        s.time+s.retryAfterMs.getD 0 := by
      have hlast := last_le hle
      cases hrem : ((Runs.run step {} stamps).rateLimitPosture s.time).retryAfterRemainingMs with
      | none =>
        have hover := (remaining_eq_none hlast).mp hrem
        unfold Over at hover
        omega
      | some r =>
        have hr := (remaining_eq_some hlast).mp hrem
        rw [hrem,Option.getD_some] at hleft
        omega
    rw [Runs.run_concat]
    refine ⟨fun s' hs' => ?_,hzero⟩
    rw [step_last,step_retryAfter]
    rcases List.mem_append.mp hs' with hs' | hs'
    · exact ⟨hle s' hs',(hcov s' hs').2.trans hend⟩
    · obtain rfl := List.mem_singleton.mp hs'
      exact ⟨le_refl _,le_refl _⟩

theorem Honours.extends {stamps : List Stamp} {s : Stamp} (hle : ∀ s'∈stamps, s'.time ≤ s.time)
    (h : (Runs.run step {} (stamps++[s])).Honours (stamps++[s])) :
    (Runs.run step {} stamps).Extends s := by
  have hnow : ∀ s'∈stamps++[s], s'.time ≤ s.time := by simpa [or_imp,forall_and] using hle
  have hrun : Runs.run step {} (stamps++[s]) = ⟨s.time,s.retryAfterMs.getD 0⟩ :=
    Runs.run_concat ..
  constructor
  · by_contra hless
    rw [not_le] at hless
    cases hrem : ((Runs.run step {} stamps).rateLimitPosture s.time).retryAfterRemainingMs with
    | none => simp [hrem] at hless
    | some r =>
      rw [hrem,Option.getD_some] at hless
      obtain ⟨hz,hpos,hend⟩ := (remaining_eq_some (last_le hle)).mp hrem
      rcases run_eq stamps with ⟨-,hempty⟩ | ⟨s',hs',hlast⟩
      · simp [hempty] at hz
      · -- the 429 whose window is open was promised more than is reported now
        rw [hlast] at hend
        cases hhint : s'.retryAfterMs with
        | none =>
          rw [hhint,Option.getD_none] at hend
          have hearlier := hle s' hs'
          simp only at hend
          omega
        | some R =>
          rw [hhint,Option.getD_some] at hend
          simp only at hend
          obtain ⟨-,r',hr',hkept⟩ := h s.time hnow s' (by simp [hs']) R hhint (by omega)
          rw [hrun] at hr'
          have hr' := (remaining_eq_some (le_refl s.time)).mp hr'
          simp only at hr'
          omega
  · intro hz
    cases hhint : s.retryAfterMs with
    | none => rfl
    | some R =>
      by_contra hR
      rw [Option.getD_some] at hR
      obtain ⟨hin,-⟩ := h s.time hnow s (by simp) R hhint (by omega)
      simp [hrun,rateLimitPosture,hz] at hin

/-- Over any 429s: every promised window is honoured throughout, if and only if each 429 is
stamped with a hint that covers what is left of the open window. -/
theorem honoured_iff (stamps : List Stamp) (hc : Chronological stamps) :
    (∀ pre, pre <+: stamps → (Runs.run step {} pre).Honours pre) ↔
      Runs.Meets step Extends {} stamps := by
  induction stamps using List.reverseRecOn with
  | nil =>
    refine iff_of_true (fun pre hpre => ?_) trivial
    rw [List.prefix_nil.mp hpre]
    exact fun now _ s hs => by cases hs
  | append_singleton stamps s ih =>
    obtain ⟨hstamps,hle⟩ := chronological_concat.mp hc
    constructor
    · intro h
      refine Runs.meets_append.mpr ⟨?_,Honours.extends hle (h _ (List.prefix_refl _)),trivial⟩
      exact (ih hstamps).mp fun pre hpre => h pre (hpre.trans (List.prefix_append ..))
    · intro h pre hpre
      rcases List.prefix_concat_iff.mp hpre with rfl | hpre
      · obtain ⟨hcov,hz⟩ := covers_of_meets hc h
        refine hcov.honours hz (.inr ⟨s,by simp,?_⟩)
        rw [Runs.run_concat,step_last]
      · exact (ih hstamps).mpr (Runs.meets_append.mp h).1 pre hpre

theorem honoured_growing :
    (Runs.run step {} [⟨1000,some 2000⟩,⟨2000,some 5000⟩]).Honours
      [⟨1000,some 2000⟩,⟨2000,some 5000⟩] :=
  (honoured_iff [⟨1000,some 2000⟩,⟨2000,some 5000⟩] (by simp [Chronological])).mpr
    ⟨by decide,by decide,trivial⟩ _ (List.prefix_refl _)

/-- A 429 without a hint closes a window of 26 seconds after one. -/
theorem window_closed_early :
    let stamps := [⟨1000,some 26000⟩,⟨2000,none⟩]
    Chronological stamps ∧
      ((Runs.run step {} stamps).rateLimitPosture 2000).inRetryWindow = false ∧
      ¬(Runs.run step {} stamps).Honours stamps := by
  intro stamps
  have hclosed : ((Runs.run step {} stamps).rateLimitPosture 2000).inRetryWindow = false := rfl
  refine ⟨by simp [stamps,Chronological],hclosed,fun h => ?_⟩
  obtain ⟨hin,-⟩ := h 2000 (by simp [stamps]) ⟨1000,some 26000⟩ (by simp [stamps]) 26000 rfl
    (by decide)
  rw [hclosed] at hin
  cases hin

end RetryWindow
end WorkflowyMcp
