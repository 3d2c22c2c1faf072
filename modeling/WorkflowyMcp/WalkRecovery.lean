import Mathlib.Logic.Relation
import WorkflowyMcp.SubtreeWalk

/-! Recovering the branches a level dropped: every branch asked for is accounted for once,
and the patient loop comes to an end for a reason. -/
namespace WorkflowyMcp.SubtreeWalk
variable {w : WalkEnv} {asked still failed ids : List String} {recovered more : List WorkflowyNode}

/- Of the branches asked for, some were answered, each reply taken whole, and the rest
   failed. -/
def Settles (w : WalkEnv) (asked : List String) (recovered : List WorkflowyNode)
    (failed : List String) : Prop :=
  ∃ got : List (String × List WorkflowyNode),
    (∀ b∈got, ∃ t, getChildren w t b.1 = .ok b.2) ∧ recovered = got.flatMap Prod.snd ∧
      (got.map Prod.fst++failed).Perm asked

theorem settles_none (w : WalkEnv) (ids : List String) : Settles w ids [] ids :=
  ⟨[],by simp,rfl,.refl _⟩

/-- What failed is asked for again. -/
theorem Settles.trans (h : Settles w asked recovered failed) (h' : Settles w failed more still) :
    Settles w asked (recovered++more) still := by
  obtain ⟨xs,hxs,rfl,hx⟩ := h
  obtain ⟨ys,hys,rfl,hy⟩ := h'
  refine ⟨xs++ys,fun b hb => ?_,by simp,?_⟩
  · exact (List.mem_append.mp hb).elim (hxs b) (hys b)
  · calc ((xs++ys).map Prod.fst++still).Perm (xs.map Prod.fst++(ys.map Prod.fst++still)) := by simp
      List.Perm _ (xs.map Prod.fst++failed) := hy.append_left _
      List.Perm _ asked := hx

theorem Settles.perm (h : Settles w asked recovered failed) (hp : asked.Perm ids) :
    Settles w ids recovered failed := by
  obtain ⟨got,hgot,hrec,hperm⟩ := h
  exact ⟨got,hgot,hrec,hperm.trans hp⟩

/-- A wave after which as many are missing has recovered none. -/
theorem Settles.barren (h : Settles w asked recovered failed)
    (hlen : asked.length ≤ failed.length) : recovered = [] ∧ failed.Perm asked := by
  obtain ⟨got,-,rfl,hperm⟩ := h
  have hsum := hperm.length_eq
  rw [List.length_append,List.length_map] at hsum
  obtain rfl : got = [] := List.eq_nil_of_length_eq_zero (by omega)
  exact ⟨rfl,hperm⟩

theorem fetchAll_settles (w : WalkEnv) (ids : List String) (r : Recovery) :
    ∃ more still, (fetchAll w ids r).recovered = r.recovered++more ∧
      (fetchAll w ids r).failed = r.failed++still ∧ Settles w ids more still := by
  induction ids generalizing r with
  | nil => exact ⟨[],[],by simp [fetchAll],by simp [fetchAll],settles_none w []⟩
  | cons id ids ih =>
    unfold fetchAll
    cases hr : getChildren w r.clock id with
    | ok children =>
      simp only
      obtain ⟨more,still,hmore,hstill,got,hgot,rfl,hperm⟩ := ih
        { r with clock := r.clock+1, log := r.log++[FetchEvent.mk id (fetched (.ok children))],
                 recovered := r.recovered++children }
      refine ⟨children++got.flatMap Prod.snd,still,by rw [hmore]; simp,hstill,(id,children)::got,
        fun b hb => ?_,rfl,hperm.cons id⟩
      cases List.mem_cons.mp hb with
      | inl hb => exact ⟨r.clock,by rw [hb,hr]⟩
      | inr hb => exact hgot b hb
    | error e =>
      simp only
      obtain ⟨more,still,hmore,hstill,got,hgot,rfl,hperm⟩ := ih
        { r with clock := r.clock+1, log := r.log++[FetchEvent.mk id (fetched (.error e))],
                 failed := r.failed++[id] }
      exact ⟨_,id::still,hmore,by rw [hstill]; simp,got,hgot,rfl,
        List.perm_middle.trans (hperm.cons id)⟩

theorem retrySkippedBranches_settles (w : WalkEnv) (ids : List String) (clock : Nat)
    (log : List FetchEvent) :
    Settles w ids (retrySkippedBranches w ids clock log).recovered
      (retrySkippedBranches w ids clock log).failed := by
  have hfetch : Settles w ids (fetchAll w (w.arrive (clock+4) ids) ⟨[],[],clock+5,log⟩).recovered
      (fetchAll w (w.arrive (clock+4) ids) ⟨[],[],clock+5,log⟩).failed := by
    obtain ⟨more,still,hmore,hstill,h⟩ :=
      fetchAll_settles w (w.arrive (clock+4) ids) ⟨[],[],clock+5,log⟩
    rw [hmore,hstill]
    exact h.perm (w.arrive_perm _ _)
  obtain ⟨stopped,h⟩ | h := retrySkippedBranches_cases w ids clock log
  · rw [h]
    exact settles_none w ids
  · rw [h]
    exact hfetch

/-- One more wave of the patient loop, over what failed so far. -/
def nextWave (w : WalkEnv) (r : Recovery) : Recovery :=
  let wave := retrySkippedBranches w r.failed (r.clock+1) r.log
  { wave with recovered := r.recovered++wave.recovered }

theorem Settles.nextWave {r : Recovery} (h : Settles w ids r.recovered r.failed) :
    Settles w ids (nextWave w r).recovered (nextWave w r).failed :=
  h.trans (retrySkippedBranches_settles w r.failed (r.clock+1) r.log)

/-- The loop goes round: its guard holds and the wave leaves fewer branches. -/
def GoesOn (w : WalkEnv) (r r' : Recovery) : Prop :=
  r.failed≠[] ∧ w.status r.clock = none ∧ r' = nextWave w r ∧ r'.failed.length < r.failed.length

/- Where the loop is left: nothing is missing, the deadline or the cancel guard has fired,
   or a wave has recovered nothing. -/
inductive Leaves (w : WalkEnv) (last : Recovery) : Recovery → Prop
  | covered : last.failed = [] → Leaves w last last
  | stopped : last.failed≠[] → (w.status last.clock).isSome →
      Leaves w last { last with clock := last.clock+1 }
  | barren : last.failed≠[] → w.status last.clock = none →
      (retrySkippedBranches w last.failed (last.clock+1) last.log).recovered = [] →
      (retrySkippedBranches w last.failed (last.clock+1) last.log).failed.Perm last.failed →
      Leaves w last (nextWave w last)

/-- A turn for each missing branch is enough for the loop to be left. -/
theorem recoverWaves_leaves {fuel : Nat} {r : Recovery} (hfuel : r.failed.length ≤ fuel) :
    ∃ last, Relation.ReflTransGen (GoesOn w) r last ∧ Leaves w last (recoverWaves w fuel r) := by
  induction fuel generalizing r with
  | zero =>
    have hnone : r.failed = [] := List.eq_nil_of_length_eq_zero (by omega)
    exact ⟨r,.refl,.covered hnone⟩
  | succ fuel ih =>
    unfold recoverWaves
    simp only
    split
    · rename_i hempty
      exact ⟨r,.refl,.covered (List.isEmpty_iff.mp hempty)⟩
    rename_i hempty
    have hne : r.failed≠[] := fun h => hempty (List.isEmpty_iff.mpr h)
    split
    · rename_i hstatus
      exact ⟨r,.refl,.stopped hne hstatus⟩
    rename_i hstatus
    have hnone : w.status r.clock = none := by simpa using hstatus
    split
    · rename_i hlen
      obtain ⟨hrec,hperm⟩ :=
        (retrySkippedBranches_settles w r.failed (r.clock+1) r.log).barren hlen
      exact ⟨r,.refl,.barren hne hnone hrec hperm⟩
    · rename_i hlen
      have hgo : GoesOn w r (nextWave w r) := ⟨hne,hnone,rfl,Nat.lt_of_not_le hlen⟩
      obtain ⟨last,hruns,hleft⟩ := ih (r := nextWave w r) (by have := hgo.2.2.2; omega)
      exact ⟨last,hruns.head hgo,hleft⟩

theorem Settles.leaves {r last r' : Recovery} (h : Settles w ids r.recovered r.failed)
    (hruns : Relation.ReflTransGen (GoesOn w) r last) (hleft : Leaves w last r') :
    Settles w ids r'.recovered r'.failed := by
  have hlast : Settles w ids last.recovered last.failed := by
    clear hleft
    induction hruns with
    | refl => exact h
    | tail _ hgo ih =>
      obtain ⟨-,-,rfl,-⟩ := hgo
      exact ih.nextWave
  cases hleft with
  | covered _ => exact hlast
  | stopped _ _ => exact hlast
  | barren _ _ _ _ => exact hlast.nextWave

/-- Recovery ends with the first wave, or a patient one where its loop is left. -/
theorem recoverSkippedBranches_cases (w : WalkEnv) (ids : List String) (clock : Nat)
    (log : List FetchEvent) :
    recoverSkippedBranches w ids clock log = retrySkippedBranches w ids clock log ∨
    ∃ last, Relation.ReflTransGen (GoesOn w) (retrySkippedBranches w ids clock log) last ∧
      Leaves w last (recoverSkippedBranches w ids clock log) := by
  unfold recoverSkippedBranches
  simp only
  split
  · exact .inr (recoverWaves_leaves le_rfl)
  · exact .inl rfl

theorem recoverSkippedBranches_settles (w : WalkEnv) (ids : List String) (clock : Nat)
    (log : List FetchEvent) :
    Settles w ids (recoverSkippedBranches w ids clock log).recovered
      (recoverSkippedBranches w ids clock log).failed := by
  have hfirst := retrySkippedBranches_settles w ids clock log
  obtain h | ⟨last,hruns,hleft⟩ := recoverSkippedBranches_cases w ids clock log
  · rw [h]
    exact hfirst
  · exact hfirst.leaves hruns hleft

/-- Recovery ends with every dropped branch in one of its two results, once. A patient one goes
round while waves bring something in, and gives branches up only when the walk is stopped or a
wave has recovered nothing. -/
theorem recovery_accounts (w : WalkEnv) {ids : List String} (hids : ids.Nodup) (clock : Nat)
    (log : List FetchEvent) :
    let first := retrySkippedBranches w ids clock log
    let r := recoverSkippedBranches w ids clock log
    (∃ got : List (String × List WorkflowyNode),
      (∀ b∈got, ∃ t, getChildren w t b.1 = .ok b.2) ∧ r.recovered = got.flatMap Prod.snd ∧
        (got.map Prod.fst++r.failed).Perm ids ∧ (got.map Prod.fst++r.failed).Nodup) ∧
    (w.patient = false → r = first) ∧
    (w.patient = true → ∃ last, Relation.ReflTransGen (GoesOn w) first last ∧ Leaves w last r) := by
  intro first r
  refine ⟨?_,fun hp => ?_,fun hp => ?_⟩
  · obtain ⟨got,hgot,hrec,hperm⟩ := recoverSkippedBranches_settles w ids clock log
    exact ⟨got,hgot,hrec,hperm,hperm.nodup_iff.mpr hids⟩
  · simp [r,recoverSkippedBranches,hp,first]
  · have hr : r = recoverWaves w first.failed.length first := by
      simp [r,recoverSkippedBranches,hp,first]
    rw [hr]
    exact recoverWaves_leaves le_rfl

/-- `b` comes in with the second wave, `a` never does, and the third recovers nothing. -/
def patientWalk : WalkEnv where
  node _ _ := .error .Timeout
  topLevel _ := .ok []
  listing t id :=
    if id = "b" ∧ 6 ≤ t then .ok [{ id := "c" }] else .error (.ApiError 404 "gone")
  arrive _ ids := ids
  arrive_perm _ ids := .refl ids
  status _ := none
  retryAfterRemainingMs _ := none
  fitsBudget _ _ := true
  anyOf _ ids := ids.head?
  patient := true

theorem patientWalk_accounts :
    (recoverSkippedBranches patientWalk ["b","a"] 0 []).failed = ["a"] ∧
    ∃ last, Relation.ReflTransGen (GoesOn patientWalk)
      (retrySkippedBranches patientWalk ["b","a"] 0 []) last ∧
      Leaves patientWalk last (recoverSkippedBranches patientWalk ["b","a"] 0 []) :=
  ⟨by decide,(recovery_accounts patientWalk (by decide) 0 []).2.2 rfl⟩

end WorkflowyMcp.SubtreeWalk
