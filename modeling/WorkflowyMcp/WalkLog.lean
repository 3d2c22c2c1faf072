import WorkflowyMcp.WalkRecovery
import WorkflowyMcp.WalkSkipped

/-! What the log of a walk tells of the branches it counts as skipped: each pass logs fetches of
its own level only, and what it skips stays unrecovered. -/
namespace WorkflowyMcp.SubtreeWalk
variable {w : WalkEnv} {nodeLimit outLen clock fuel : Nat} {ids ids' : List String}
  {log log' log'' : List FetchEvent} {x : String}

/-- Only fetches of these ids were logged in between. -/
def Extends (ids : List String) (log log' : List FetchEvent) : Prop :=
  ∃ events, log' = log++events ∧ ∀ e∈events, e.id∈ids

theorem Extends.refl (ids : List String) (log : List FetchEvent) : Extends ids log log :=
  ⟨[],by simp,by simp⟩

theorem Extends.event {e : FetchEvent} (h : e.id∈ids) : Extends ids log (log++[e]) :=
  ⟨[e],rfl,by simpa using h⟩

theorem Extends.trans (h : Extends ids log log') (h' : Extends ids log' log'') :
    Extends ids log log'' := by
  obtain ⟨es,rfl,hes⟩ := h
  obtain ⟨fs,rfl,hfs⟩ := h'
  refine ⟨es++fs,by simp,fun e he => ?_⟩
  exact (List.mem_append.mp he).elim (hes e) (hfs e)

theorem Extends.mono (h : Extends ids log log') (hsub : ids ⊆ ids') : Extends ids' log log' := by
  obtain ⟨es,rfl,hes⟩ := h
  exact ⟨es,rfl,fun e he => hsub (hes e he)⟩

/-- Fetches of other branches recover nothing. -/
theorem Extends.unrecovered (h : Extends ids log log') (hx : x∈unrecovered log) (hno : x∉ids) :
    x∈unrecovered log' := by
  obtain ⟨es,rfl,hes⟩ := h
  induction es generalizing log with
  | nil => simpa using hx
  | cons e es ih =>
    have hne : e≠⟨x,.ok⟩ := fun he => hno (by simpa [he] using hes e (by simp))
    have hkept : x∈SubtreeWalk.unrecovered (log++[e]) :=
      mem_unrecovered_concat.mpr (.inl ⟨hx,hne⟩)
    simpa using ih hkept fun f hf => hes f (by simp [hf])

def Lost (skipped : List String) (log : List FetchEvent) : Prop :=
  ∀ id∈skipped, id∈unrecovered log

/-- A failed fetch is one more branch lost; a branch is not asked for again at once. -/
theorem Lost.failed {skipped : List String} (h : Lost skipped log) (id : String) :
    Lost (skipped++[id]) (log++[⟨id,.failed⟩]) := by
  intro y hy
  refine mem_unrecovered_concat.mpr ?_
  rcases List.mem_append.mp hy with hy | hy
  · exact .inl ⟨h y hy,by simp⟩
  · obtain rfl : y = id := by simpa using hy
    exact .inr rfl

theorem Lost.other {skipped : List String} (h : Lost skipped log) {e : FetchEvent}
    (hno : e.id∉skipped) : Lost skipped (log++[e]) := by
  intro y hy
  refine mem_unrecovered_concat.mpr (.inl ⟨h y hy,?_⟩)
  rintro rfl
  exact hno hy

theorem receive_log (d : Drain) (id : String) : ∃ e : FetchEvent, e.id = id ∧
    (d.receive w id).log = d.log++[e] := by
  refine ⟨⟨id,fetched (getChildren w d.clock id)⟩,rfl,?_⟩
  unfold Drain.receive
  simp only
  split
  · rfl
  · split <;> rfl

theorem receive_lost {d : Drain} {id : String} (h : Lost d.skipped d.log) (hno : id∉d.skipped) :
    Lost (d.receive w id).skipped (d.receive w id).log := by
  unfold Drain.receive
  cases hr : getChildren w d.clock id with
  | ok children => exact h.other hno
  | error e =>
    by_cases ha : e.isAbort
    · simp only [ha,if_true]
      exact h.other hno
    · simp only [fetched,ha,Bool.false_eq_true,if_false]
      exact h.failed id

theorem receive_skipped {d : Drain} {id : String} (hx : x∈(d.receive w id).skipped) :
    x∈d.skipped ∨ x = id := by
  unfold Drain.receive at hx
  cases hr : getChildren w d.clock id with
  | ok children => exact .inl (by simpa [hr] using hx)
  | error e =>
    by_cases ha : e.isAbort
    · exact .inl (by simpa [hr,ha] using hx)
    · simpa [hr,ha] using hx

theorem receive_nodup {d : Drain} {id : String} (h : d.skipped.Nodup) (hno : id∉d.skipped) :
    (d.receive w id).skipped.Nodup := by
  unfold Drain.receive
  cases hr : getChildren w d.clock id with
  | ok children => exact h
  | error e =>
    by_cases ha : e.isAbort
    · simpa [ha] using h
    · simpa [ha] using h.concat hno

theorem drain_log (w : WalkEnv) (nodeLimit outLen : Nat) (ids : List String) (d : Drain) :
    Extends ids d.log (drain w nodeLimit outLen ids d).log := by
  induction ids generalizing d with
  | nil => exact .refl [] d.log
  | cons id ids ih =>
    obtain ⟨e,he,hlog⟩ := receive_log (w := w) d id
    have hone : Extends (id::ids) d.log (d.receive w id).log := by
      rw [hlog]
      exact .event (by simp [he])
    obtain ⟨stop,clock,hdrain⟩ | ⟨clock,hdrain⟩ := drain_cons w nodeLimit outLen id ids d
    · rw [hdrain]
      exact hone
    · rw [hdrain]
      exact hone.trans ((ih _).mono (List.subset_cons_self id ids))

theorem drain_lost {d : Drain} (hnodup : ids.Nodup) (hnew : ∀ id∈ids, id∉d.skipped)
    (h : Lost d.skipped d.log) :
    Lost (drain w nodeLimit outLen ids d).skipped (drain w nodeLimit outLen ids d).log := by
  induction ids generalizing d with
  | nil => exact h
  | cons id ids ih =>
    obtain ⟨hid,hids⟩ := List.nodup_cons.mp hnodup
    have hone := receive_lost (w := w) h (hnew id (by simp))
    obtain ⟨stop,clock,hdrain⟩ | ⟨clock,hdrain⟩ := drain_cons w nodeLimit outLen id ids d
    · rw [hdrain]
      exact hone
    · rw [hdrain]
      refine ih hids (fun y hy hskip => ?_) hone
      rcases receive_skipped hskip with hskip | rfl
      · exact hnew y (by simp [hy]) hskip
      · exact hid hy

theorem fetchAll_log (w : WalkEnv) (ids : List String) (r : Recovery) :
    Extends ids r.log (fetchAll w ids r).log := by
  induction ids generalizing r with
  | nil => exact .refl [] r.log
  | cons id ids ih =>
    have hone : Extends (id::ids) r.log
        (r.log++[⟨id,fetched (getChildren w r.clock id)⟩]) := .event (by simp)
    unfold fetchAll
    cases hr : getChildren w r.clock id with
    | ok children =>
      rw [hr] at hone
      exact hone.trans ((ih _).mono (List.subset_cons_self id ids))
    | error e =>
      rw [hr] at hone
      exact hone.trans ((ih _).mono (List.subset_cons_self id ids))

/- A retry that is aborted leaves the branch as lost as it was before. -/
theorem fetchAll_lost {r : Recovery} (hnodup : ids.Nodup) (hnew : ∀ id∈ids, id∉r.failed)
    (hold : Lost ids r.log) (h : Lost r.failed r.log) :
    Lost (fetchAll w ids r).failed (fetchAll w ids r).log := by
  induction ids generalizing r with
  | nil => exact h
  | cons id ids ih =>
    obtain ⟨hid,hids⟩ := List.nodup_cons.mp hnodup
    have hrest : Lost ids r.log := fun y hy => hold y (by simp [hy])
    unfold fetchAll
    cases hr : getChildren w r.clock id with
    | ok children =>
      refine ih hids (fun y hy => hnew y (by simp [hy])) (hrest.other hid) (h.other ?_)
      exact hnew id (by simp)
    | error e =>
      refine ih hids (fun y hy hskip => ?_) (hrest.other hid) (fun y hy => ?_)
      · rcases List.mem_append.mp hskip with hskip | hskip
        · exact hnew y (by simp [hy]) hskip
        · obtain rfl : y = id := by simpa using hskip
          exact hid hy
      · have hlost : y∈unrecovered r.log := by
          rcases List.mem_append.mp hy with hy | hy
          · exact h y hy
          · obtain rfl : y = id := by simpa using hy
            exact hold y (by simp)
        refine mem_unrecovered_concat.mpr (.inl ⟨hlost,?_⟩)
        simp only [fetched,ne_eq,FetchEvent.mk.injEq,not_and]
        intro _
        split <;> simp

theorem retry_log (w : WalkEnv) (ids : List String) (clock : Nat) (log : List FetchEvent) :
    Extends ids log (retrySkippedBranches w ids clock log).log := by
  have hfetch : Extends ids log
      (fetchAll w (w.arrive (clock+4) ids) ⟨[],[],clock+5,log⟩).log :=
    (fetchAll_log w _ _).mono (w.arrive_perm _ _).subset
  obtain ⟨stopped,hretry⟩ | hretry := retrySkippedBranches_cases w ids clock log
  · rw [hretry]
    exact .refl ids log
  · rw [hretry]
    exact hfetch

theorem retry_lost (w : WalkEnv) (clock : Nat) (hnodup : ids.Nodup) (h : Lost ids log) :
    Lost (retrySkippedBranches w ids clock log).failed
      (retrySkippedBranches w ids clock log).log := by
  have hperm := w.arrive_perm (clock+4) ids
  have hfetch : Lost (fetchAll w (w.arrive (clock+4) ids) ⟨[],[],clock+5,log⟩).failed
      (fetchAll w (w.arrive (clock+4) ids) ⟨[],[],clock+5,log⟩).log :=
    fetchAll_lost (hperm.nodup_iff.mpr hnodup) (by simp)
      (fun id hid => h id (hperm.subset hid)) (fun id hid => by cases hid)
  obtain ⟨stopped,hretry⟩ | hretry := retrySkippedBranches_cases w ids clock log
  · rw [hretry]
    exact h
  · rw [hretry]
    exact hfetch

/-- What a wave gives up is part of what it was asked for. -/
theorem Settles.failed_subset {asked failed : List String} {recovered : List WorkflowyNode}
    (h : Settles w asked recovered failed) : failed ⊆ asked := by
  obtain ⟨got,-,-,hperm⟩ := h
  exact fun id hid => hperm.subset (List.mem_append_right _ hid)

theorem Settles.failed_nodup {asked failed : List String} {recovered : List WorkflowyNode}
    (h : Settles w asked recovered failed) (hnodup : asked.Nodup) : failed.Nodup := by
  obtain ⟨got,-,-,hperm⟩ := h
  exact (List.nodup_append.mp (hperm.nodup_iff.mpr hnodup)).2.1

theorem waves_log {r last : Recovery} (hruns : Relation.ReflTransGen (GoesOn w) r last) :
    last.failed ⊆ r.failed ∧ Extends r.failed r.log last.log := by
  induction hruns with
  | refl => exact ⟨List.Subset.refl _,.refl _ _⟩
  | @tail r' _ _ hgo ih =>
    obtain ⟨hsub,hext⟩ := ih
    obtain ⟨-,-,rfl,-⟩ := hgo
    have hwave := (retrySkippedBranches_settles w r'.failed (r'.clock+1) r'.log).failed_subset
    exact ⟨List.Subset.trans hwave hsub,hext.trans ((retry_log w _ _ _).mono hsub)⟩

theorem waves_lost {r last : Recovery} (hnodup : r.failed.Nodup) (h : Lost r.failed r.log)
    (hruns : Relation.ReflTransGen (GoesOn w) r last) :
    last.failed.Nodup ∧ Lost last.failed last.log := by
  induction hruns with
  | refl => exact ⟨hnodup,h⟩
  | @tail r' _ _ hgo ih =>
    obtain ⟨hnd,hlost⟩ := ih
    obtain ⟨-,-,rfl,-⟩ := hgo
    exact ⟨(retrySkippedBranches_settles w r'.failed (r'.clock+1) r'.log).failed_nodup hnd,
      retry_lost w _ hnd hlost⟩

theorem recover_log (w : WalkEnv) (ids : List String) (clock : Nat) (log : List FetchEvent) :
    Extends ids log (recoverSkippedBranches w ids clock log).log := by
  have hlog := retry_log w ids clock log
  have hsub := (retrySkippedBranches_settles w ids clock log).failed_subset
  obtain h | ⟨last,hruns,hleft⟩ := recoverSkippedBranches_cases w ids clock log
  · rw [h]
    exact hlog
  · obtain ⟨hsub',hext⟩ := waves_log hruns
    have hlast := hlog.trans (hext.mono hsub)
    generalize recoverSkippedBranches w ids clock log = r at hleft ⊢
    cases hleft with
    | covered _ => exact hlast
    | stopped _ _ => exact hlast
    | barren _ _ _ _ =>
      exact hlast.trans ((retry_log w _ _ _).mono (List.Subset.trans hsub' hsub))

theorem recover_lost (hnodup : ids.Nodup) (h : Lost ids log) :
    Lost (recoverSkippedBranches w ids clock log).failed
      (recoverSkippedBranches w ids clock log).log := by
  have hlost := retry_lost w clock hnodup h
  have hnd := (retrySkippedBranches_settles w ids clock log).failed_nodup hnodup
  obtain h | ⟨last,hruns,hleft⟩ := recoverSkippedBranches_cases w ids clock log
  · rw [h]
    exact hlost
  · obtain ⟨hnd',hlost'⟩ := waves_lost hnd hlost hruns
    generalize recoverSkippedBranches w ids clock log = r at hleft ⊢
    cases hleft with
    | covered _ => exact hlost'
    | stopped _ _ => exact hlost'
    | barren _ _ _ _ => exact retry_lost w _ hnd' hlost'

variable {s s' : WalkState}

theorem drain_skipped {d : Drain} (hx : x∈(drain w nodeLimit outLen ids d).skipped) :
    x∈d.skipped ∨ x∈ids := by
  induction ids generalizing d with
  | nil => exact .inl hx
  | cons id ids ih =>
    have hone : x∈(d.receive w id).skipped → x∈d.skipped ∨ x∈id::ids := fun h =>
      (receive_skipped h).imp_right fun h => by simp [h]
    obtain ⟨stop,clock,hdrain⟩ | ⟨clock,hdrain⟩ := drain_cons w nodeLimit outLen id ids d
    · rw [hdrain] at hx
      exact hone hx
    · rw [hdrain] at hx
      rcases ih hx with h | h
      · exact hone h
      · exact .inr (by simp [h])

/-- The fetches of a level are of its own nodes. -/
theorem fetchLevel_log (w : WalkEnv) (nodeLimit outLen : Nat) (s : WalkState) :
    Extends (s.level.map WorkflowyNode.id) s.log (fetchLevel w nodeLimit outLen s).log :=
  (drain_log w nodeLimit outLen _ _).mono (w.arrive_perm _ _).subset

theorem recoverLevel_log (w : WalkEnv) (nodeLimit outLen : Nat) (s : WalkState) :
    Extends (s.level.map WorkflowyNode.id) s.log
      (recoverLevel w (fetchLevel w nodeLimit outLen s)).log := by
  have hlevel := fetchLevel_log w nodeLimit outLen s
  unfold recoverLevel
  split
  · exact hlevel
  · refine hlevel.trans ((recover_log w _ _ _).mono fun id hid => ?_)
    exact (w.arrive_perm _ _).subset ((drain_skipped hid).resolve_left (by simp))

theorem fetchLevel_lost (hnodup : (s.level.map WorkflowyNode.id).Nodup) :
    Lost (fetchLevel w nodeLimit outLen s).skipped (fetchLevel w nodeLimit outLen s).log :=
  drain_lost ((w.arrive_perm _ _).nodup_iff.mpr hnodup) (by simp) (fun id hid => by cases hid)

theorem drain_skipped_nodup {d : Drain} (hnodup : ids.Nodup) (hnew : ∀ id∈ids, id∉d.skipped)
    (h : d.skipped.Nodup) : (drain w nodeLimit outLen ids d).skipped.Nodup := by
  induction ids generalizing d with
  | nil => exact h
  | cons id ids ih =>
    obtain ⟨hid,hids⟩ := List.nodup_cons.mp hnodup
    have hone := receive_nodup (w := w) h (hnew id (by simp))
    obtain ⟨stop,clock,hdrain⟩ | ⟨clock,hdrain⟩ := drain_cons w nodeLimit outLen id ids d
    · rw [hdrain]
      exact hone
    · rw [hdrain]
      refine ih hids (fun y hy hskip => ?_) hone
      rcases receive_skipped hskip with hskip | rfl
      · exact hnew y (by simp [hy]) hskip
      · exact hid hy

/-- What a level gives up stays lost. -/
theorem recoverLevel_lost (w : WalkEnv) (nodeLimit outLen : Nat)
    (hnodup : (s.level.map WorkflowyNode.id).Nodup) :
    Lost (recoverLevel w (fetchLevel w nodeLimit outLen s)).failed
      (recoverLevel w (fetchLevel w nodeLimit outLen s)).log := by
  have hasked := (w.arrive_perm (s.clock+1) (s.level.map WorkflowyNode.id)).nodup_iff.mpr hnodup
  unfold recoverLevel
  split
  · exact fun id hid => by cases hid
  · exact recover_lost (drain_skipped_nodup hasked (by simp) .nil) (fetchLevel_lost hnodup)

theorem levelPass_log (hne : s.level≠[]) (h : levelPass w nodeLimit s = .inl s') :
    Extends (s.level.map WorkflowyNode.id) s.log s'.log := by
  obtain ⟨-,-,-,rfl⟩ := levelPass_inl hne h
  exact recoverLevel_log w nodeLimit _ s

theorem levelPass_stopped_log (hne : s.level≠[]) {r : Walked}
    (h : levelPass w nodeLimit s = .inr r) :
    Extends (s.level.map WorkflowyNode.id) s.log r.log := by
  by_cases hcut : Cut w nodeLimit s
  · obtain ⟨r',hr,-,hlog⟩ := levelPass_cut hne hcut
    obtain rfl : r' = r := by simpa [hr] using h
    rw [hlog]
    exact .refl _ _
  · obtain ⟨hfit,hstatus⟩ := not_or.mp hcut
    have hfit := Nat.le_of_not_lt hfit
    have hnone : w.status s.clock = none := by simpa using hstatus
    cases hstop : (fetchLevel w nodeLimit (s.out++s.level).length s).stop with
    | none =>
      rw [levelPass_on hfit hnone hstop] at h
      cases h
    | some reason =>
      obtain ⟨anchor,hp⟩ := levelPass_stop hfit hnone hstop
      rw [hp] at h
      cases h
      exact fetchLevel_log w nodeLimit _ s

end WorkflowyMcp.SubtreeWalk
