import WorkflowyMcp.SubtreeWalk

/-! Branches whose child fetch failed and was not recovered: when the walk reports
all of them, and the two returns that forget them. -/
namespace WorkflowyMcp.SubtreeWalk

/-- The branches whose fetch failed and of which no later fetch succeeded. -/
def unrecovered (log : List FetchEvent) : List String :=
  log.foldl (fun ids e => match e.result with
    | .failed => ids++[e.id]
    | .ok => ids.filter (·≠e.id)
    | .abort => ids) []

@[simp] theorem unrecovered_nil : unrecovered [] = [] := rfl

theorem mem_unrecovered_concat {log : List FetchEvent} {e : FetchEvent} {id : String} :
    id∈unrecovered (log++[e]) ↔ (id∈unrecovered log ∧ e≠⟨id,.ok⟩) ∨ e = ⟨id,.failed⟩ := by
  obtain ⟨x,r⟩ := e
  have hx : x≠id ↔ id≠x := ne_comm
  cases r with
  | ok => simp [unrecovered,List.foldl_append,hx]
  | abort => simp [unrecovered,List.foldl_append]
  | failed =>
    have hx' : x = id ↔ id = x := eq_comm
    simp [unrecovered,List.foldl_append,hx']

variable {w : WalkEnv} {nodeLimit : Nat}

/- What is unrecovered is known to be skipped, or skipped by the level at hand. -/
def Drain.Covers (d : Drain) (base : List String) : Prop :=
  ∀ id∈unrecovered d.log, id∈base ∨ id∈d.skipped

theorem Drain.Covers.receive {d : Drain} {base : List String} (h : d.Covers base) (id : String) :
    (d.receive w id).Covers base := by
  intro x hx
  unfold Drain.receive at hx ⊢
  cases hr : getChildren w d.clock id with
  | ok children =>
    simp only [hr,mem_unrecovered_concat,fetched] at hx ⊢
    rcases hx with ⟨hx,-⟩ | hx
    · exact h x hx
    · simp at hx
  | error e =>
    by_cases ha : e.isAbort
    · simp only [hr,mem_unrecovered_concat,fetched,ha,if_true] at hx ⊢
      rcases hx with ⟨hx,-⟩ | hx
      · exact h x hx
      · simp at hx
    · simp only [hr,fetched,ha,Bool.false_eq_true,if_false,mem_unrecovered_concat] at hx ⊢
      rcases hx with ⟨hx,-⟩ | hx
      · rcases h x hx with hb | hs
        · exact .inl hb
        · exact .inr (by simp [hs])
      · obtain rfl : id = x := by simpa using hx
        exact .inr (by simp)

theorem Drain.Covers.drain {outLen : Nat} {base ids : List String} {d : Drain}
    (h : d.Covers base) : (drain w nodeLimit outLen ids d).Covers base := by
  induction ids generalizing d with
  | nil => exact h
  | cons id ids ih =>
    have hr := h.receive (w := w) id
    obtain ⟨stop,clock,hdrain⟩ | ⟨clock,hdrain⟩ := drain_cons w nodeLimit outLen id ids d
    · rw [hdrain]
      exact hr
    · rw [hdrain]
      exact ih hr

def Recovery.Covers (r : Recovery) (base : List String) : Prop :=
  ∀ id∈unrecovered r.log, id∈base ∨ id∈r.failed

theorem Recovery.covers_fetchAll {ids base : List String} {r : Recovery}
    (h : ∀ id∈unrecovered r.log, id∈base ∨ id∈r.failed ∨ id∈ids) :
    (fetchAll w ids r).Covers base := by
  induction ids generalizing r with
  | nil => exact fun id hid => by simpa [fetchAll] using h id hid
  | cons x ids ih =>
    unfold fetchAll
    cases hr : getChildren w r.clock x with
    | ok children =>
      simp only
      refine ih fun id hid => ?_
      simp only [mem_unrecovered_concat,fetched] at hid
      rcases hid with ⟨hid,hne⟩ | hid
      · have hx : id≠x := fun he => hne (by rw [he])
        simpa [hx] using h id hid
      · simp at hid
    | error e =>
      simp only
      refine ih fun id hid => ?_
      simp only [mem_unrecovered_concat] at hid
      by_cases hx : id = x
      · exact .inr (.inl (by simp [hx]))
      · rcases hid with ⟨hid,-⟩ | hid
        · rcases h id hid with hb | hf | hi
          · exact .inl hb
          · exact .inr (.inl (by simp [hf]))
          · exact .inr (.inr (by simpa [hx] using hi))
        · exact absurd (congrArg FetchEvent.id hid).symm hx

theorem Recovery.covers_retry {ids base : List String} {clock : Nat} {log : List FetchEvent}
    (h : ∀ id∈unrecovered log, id∈base ∨ id∈ids) :
    (retrySkippedBranches w ids clock log).Covers base := by
  have hfetch : (fetchAll w (w.arrive (clock+4) ids) ⟨[],[],clock+5,log⟩).Covers base := by
    refine Recovery.covers_fetchAll fun id hid => ?_
    simpa [(w.arrive_perm (clock+4) ids).mem_iff] using h id hid
  obtain ⟨stopped,hretry⟩ | hretry := retrySkippedBranches_cases w ids clock log
  · rw [hretry]
    exact h
  · rw [hretry]
    exact hfetch

theorem Recovery.Covers.waves {fuel : Nat} {base : List String} {r : Recovery}
    (h : r.Covers base) : (recoverWaves w fuel r).Covers base := by
  induction fuel generalizing r with
  | zero => exact h
  | succ fuel ih =>
    have hwave : (retrySkippedBranches w r.failed (r.clock+1) r.log).Covers base :=
      Recovery.covers_retry h
    unfold recoverWaves
    simp only
    split
    · exact h
    · split
      · exact h
      · split
        · exact hwave
        · exact ih hwave

theorem Recovery.covers_recover {ids base : List String} {clock : Nat} {log : List FetchEvent}
    (h : ∀ id∈unrecovered log, id∈base ∨ id∈ids) :
    (recoverSkippedBranches w ids clock log).Covers base := by
  unfold recoverSkippedBranches
  simp only
  split
  · exact (Recovery.covers_retry h).waves
  · exact Recovery.covers_retry h

theorem Recovery.covers_level {d : Drain} {base : List String} (h : d.Covers base) :
    (recoverLevel w d).Covers base := by
  unfold recoverLevel
  split
  · rename_i he
    intro id hid
    simpa [List.isEmpty_iff.mp he] using h id hid
  · exact Recovery.covers_recover h

/-- The cap cuts the level while it is accumulated, or the walk is stopped right after. -/
def Cut (w : WalkEnv) (nodeLimit : Nat) (s : WalkState) : Prop :=
  nodeLimit < s.out.length+s.level.length ∨ (w.status s.clock).isSome

def WalkState.Covers (s : WalkState) : Prop := ∀ id∈unrecovered s.log, id∈s.skipped

/-- Every branch that failed for good is reported, and the result says it is partial. -/
def Reports (fetch : SubtreeFetch) (log : List FetchEvent) : Prop :=
  ∀ id∈unrecovered log, id∈fetch.skippedBranches ∧ fetch.truncated = true

theorem withSkipped_skipped {o : TruncationOutcome} (ho : o.skippedBranches = [])
    (skipped : List String) : (o.withSkipped skipped).skippedBranches = skipped := by
  unfold TruncationOutcome.withSkipped
  split
  · rename_i h
    rw [ho,List.isEmpty_iff.mp h]
  · split <;> rfl

/-- A result that carries the skipped branches reports them. -/
theorem reports_of_skipped {r : Walked} (h : ∀ id∈unrecovered r.log, id∈r.outcome.skippedBranches) :
    Reports (r.fetch nodeLimit) r.log := by
  intro id hid
  have hmem := h id hid
  refine ⟨hmem,?_⟩
  have hne : r.outcome.skippedBranches.isEmpty = false := by
    cases hs : r.outcome.skippedBranches with
    | nil => simp [hs] at hmem
    | cons => rfl
  simp [Walked.fetch,hne]

/-- A result that forgets them reports them only if there are none. -/
theorem reports_iff_of_forgotten (nodeLimit : Nat) {r : Walked}
    (h : r.outcome.skippedBranches = []) :
    Reports (r.fetch nodeLimit) r.log ↔ unrecovered r.log = [] := by
  constructor
  · intro hr
    refine List.eq_nil_iff_forall_not_mem.mpr fun id hid => ?_
    simpa [Walked.fetch,h] using (hr id hid).1
  · intro hnil id hid
    simp [hnil] at hid

theorem levelPass_cut {s : WalkState} (hne : s.level≠[]) (h : Cut w nodeLimit s) :
    ∃ r, levelPass w nodeLimit s = .inr r ∧ r.outcome.skippedBranches = [] ∧ r.log = s.log := by
  by_cases hlt : nodeLimit < s.out.length+s.level.length
  · obtain ⟨anchor,hover⟩ := levelPass_over (w := w) hne hlt
    exact ⟨_,hover,rfl,rfl⟩
  · obtain ⟨status,hs⟩ := Option.isSome_iff_exists.mp (h.resolve_left hlt)
    exact ⟨_,levelPass_status (Nat.le_of_not_lt hlt) hs,rfl,rfl⟩

/-- A level that is not cut passes what is skipped on, or stops and reports it. -/
theorem levelPass_covers {s : WalkState} (hs : s.Covers) (h : ¬Cut w nodeLimit s) :
    match levelPass w nodeLimit s with
    | .inl s' => s'.Covers
    | .inr r => ∀ id∈unrecovered r.log, id∈r.outcome.skippedBranches := by
  obtain ⟨hfit,hstatus⟩ := not_or.mp h
  have hnone : w.status s.clock = none := by simpa using hstatus
  have hfit := Nat.le_of_not_lt hfit
  have hd : (fetchLevel w nodeLimit (s.out++s.level).length s).Covers s.skipped :=
    Drain.Covers.drain fun id hid => .inl (hs id hid)
  cases hstop : (fetchLevel w nodeLimit (s.out++s.level).length s).stop with
  | some reason =>
    obtain ⟨anchor,hpass⟩ := levelPass_stop hfit hnone hstop
    rw [hpass]
    simp only [withSkipped_skipped (o := TruncationOutcome.stopped _ _) rfl]
    exact fun id hid => List.mem_append.mpr (hd id hid)
  | none =>
    rw [levelPass_on hfit hnone hstop]
    exact fun id hid => List.mem_append.mpr (Recovery.covers_level hd id hid)

theorem finishWalk_reports {s : WalkState} (hs : s.Covers) :
    Reports ((finishWalk nodeLimit s).fetch nodeLimit) (finishWalk nodeLimit s).log := by
  refine reports_of_skipped fun id hid => ?_
  unfold finishWalk at hid ⊢
  simp only at hid ⊢
  split at hid <;> rename_i hlt <;> simp only [hlt,if_true,if_false] <;>
    rw [withSkipped_skipped rfl] <;> exact hs id hid

/- From here on no level is cut while a branch is unrecovered, at any level the walk
   comes to. -/
def NeverCut (w : WalkEnv) (nodeLimit : Nat) : Nat → WalkState → Prop
  | 0,_ => True
  | left+1,s => s.level≠[] → (unrecovered s.log≠[] → ¬Cut w nodeLimit s) ∧
      ∀ s', levelPass w nodeLimit s = .inl s' → NeverCut w nodeLimit left s'

theorem fetchDescendants_reports_iff {left : Nat} {s : WalkState} (hs : s.Covers) :
    Reports ((fetchDescendants w nodeLimit left s).fetch nodeLimit)
      (fetchDescendants w nodeLimit left s).log ↔ NeverCut w nodeLimit left s := by
  induction left generalizing s with
  | zero => exact iff_of_true (finishWalk_reports hs) trivial
  | succ left ih =>
    unfold fetchDescendants NeverCut
    by_cases hlevel : s.level = []
    · simpa [hlevel] using finishWalk_reports hs
    have hempty : s.level.isEmpty = false := by simpa using hlevel
    simp only [hempty,Bool.false_eq_true,if_false,ne_eq,hlevel,not_false_eq_true,true_imp_iff]
    by_cases hcut : Cut w nodeLimit s
    · obtain ⟨r,hr,hskip,hlog⟩ := levelPass_cut hlevel hcut
      have hrep := reports_iff_of_forgotten nodeLimit hskip
      simp only [hr,hrep]
      simp [hlog,hcut]
    · have hcov := levelPass_covers hs hcut
      cases hp : levelPass w nodeLimit s with
      | inl s' =>
        simp only [hp] at hcov
        simp [hcut,ih hcov]
      | inr r =>
        simp only [hp] at hcov
        simpa [hcut] using reports_of_skipped hcov

theorem walkStart_log {rootId : Option String} {start : WalkState ⊕ Walked}
    (h : walkStart w rootId nodeLimit = .ok start) :
    match start with
    | .inl s => s.log = []
    | .inr r => r.log = [] := by
  unfold walkStart at h
  repeat' split at h
  all_goals cases h
  all_goals rfl

/-- The walk reports every branch it lost exactly if no level is cut, by the node cap while
it is accumulated or by a stop right after, once a branch is lost. -/
theorem walk_reports_iff (w : WalkEnv) (rootId : Option String) (maxDepth nodeLimit : Nat) :
    (∀ r, walk w rootId maxDepth nodeLimit = .ok r → Reports (r.fetch nodeLimit) r.log) ↔
      ∀ s, walkStart w rootId nodeLimit = .ok (.inl s) → NeverCut w nodeLimit maxDepth s := by
  unfold walk
  cases hstart : walkStart w rootId nodeLimit with
  | error e => simp [Except.map]
  | ok start =>
    have hlog := walkStart_log hstart
    cases start with
    | inl s =>
      have hs : s.Covers := by simp [WalkState.Covers,hlog]
      simpa [Except.map] using fetchDescendants_reports_iff hs
    | inr r => simp [Except.map,Reports,hlog]

/- Below `r` are `a`, whose listing always fails, and `b` with a child `c`. The walk is
   cancelled when it has taken in the level of `c`. -/
def cancelledWalk : WalkEnv where
  node _ id := .ok { id }
  topLevel _ := .ok []
  listing _ id :=
    if id = "r" then .ok [{ id := "a" },{ id := "b" }]
    else if id = "a" then .error (.ApiError 500 "upstream")
    else if id = "b" then .ok [{ id := "c" }]
    else .ok []
  arrive _ ids := ids
  arrive_perm _ ids := .refl ids
  status t := if 16≤t then some .Cancelled else none
  retryAfterRemainingMs _ := none
  fitsBudget _ _ := true
  anyOf _ ids := ids.head?
  patient := false

/-- The branch `a` was lost, and the cancelled walk does not say so. -/
theorem cancelledWalk_forgets :
    ∃ r, walk cancelledWalk (some "r") 5 100 = .ok r ∧ "a"∈unrecovered r.log ∧
      (r.fetch 100).skippedBranches = [] ∧ ¬Reports (r.fetch 100) r.log := by
  refine ⟨_,rfl,by decide,rfl,fun h => ?_⟩
  exact absurd (h "a" (by decide)).1 (by decide)

end WorkflowyMcp.SubtreeWalk
