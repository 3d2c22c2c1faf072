import WorkflowyMcp.Idempotency
import WorkflowyMcp.Types

/-! The queue of background jobs, and the cleanup task that keeps the history of finished jobs
short: what is too much goes oldest first, else what is past its time to live. -/
namespace WorkflowyMcp

inductive JobStatus where
  | Pending
  | Running
  | Completed
  | Failed
  | Cancelled
deriving DecidableEq, Repr

def JobStatus.finished : JobStatus → Bool
  | .Completed | .Failed | .Cancelled => true
  | .Pending | .Running => false

/-- Times are nanoseconds; `F` holds a progress, a float of the source. -/
structure Job (F : Type) where
  id : String
  status : JobStatus
  createdAt : Nat
  completedAt : Option Nat
  error : Option String
  progress : Option F
deriving DecidableEq, Repr

structure JobQueueConfig where
  completedJobTtlSecs : Nat
  maxJobHistory : Nat

structure JobQueue (F : Type) where
  config : JobQueueConfig
  jobs : KeyMap String (Job F)
  /-- The ids sent to the receiver. -/
  tx : List String

inductive JobCall (F : Type) where
  | submit (jobId : String) (now : Nat)
  | updateProgress (jobId : String) (progress : F)
  | complete (jobId : String) (now : Nat)
  | fail (jobId error : String) (now : Nat)
  | cancel (jobId : String) (now : Nat)
  | tick (now : Nat) (iter : IterOrder (String×Job F))

def JobCall.finishes {F : Type} : JobCall F → Bool
  | .complete .. | .fail .. | .cancel .. => true
  | .submit .. | .updateProgress .. | .tick .. => false

namespace JobQueue
variable {F : Type}

def new (config : JobQueueConfig) : JobQueue F := ⟨config,∅,[]⟩

def submitted (jobId : String) (now : Nat) : Job F where
  id := jobId
  status := .Pending
  createdAt := now
  completedAt := none
  error := none
  progress := none

def submit (q : JobQueue F) (jobId : String) (now : Nat) : JobQueue F :=
  { q with jobs := q.jobs.insert jobId (submitted jobId now), tx := q.tx++[jobId] }

/-- Write to a job through the map, where it is there. -/
def alter (q : JobQueue F) (jobId : String) (f : Job F → Job F) : JobQueue F :=
  match q.jobs.lookup jobId with
  | some job => { q with jobs := q.jobs.insert jobId (f job) }
  | none => q

/-- `clamp` cuts a float to between 0 and 1. -/
def updateProgress (clamp : F → F) (q : JobQueue F) (jobId : String) (progress : F) :
    Except WorkflowyError (JobQueue F) :=
  match q.jobs.lookup jobId with
  | some _ => .ok (q.alter jobId fun job => { job with progress := some (clamp progress) })
  | none => .error (.JobFailed jobId "Job not found")

def completed (one : F) (now : Nat) (job : Job F) : Job F :=
  { job with status := .Completed, completedAt := some now, progress := some one }

def complete (one : F) (q : JobQueue F) (jobId : String) (now : Nat) : JobQueue F :=
  q.alter jobId (completed one now)

def failed (error : String) (now : Nat) (job : Job F) : Job F :=
  { job with status := .Failed, completedAt := some now, error := some error }

def fail (q : JobQueue F) (jobId error : String) (now : Nat) : JobQueue F :=
  q.alter jobId (failed error now)

def cancelled (now : Nat) (job : Job F) : Job F :=
  { job with status := .Cancelled, completedAt := some now }

def cancel (q : JobQueue F) (jobId : String) (now : Nat) : JobQueue F :=
  q.alter jobId (cancelled now)

def completedCount (q : JobQueue F) : Nat := (q.jobs.values.filter (·.status.finished)).length

/-- Whole seconds since the job completed are more than its time to live; a completion that the
clock has not reached yet has no age. -/
def expired (config : JobQueueConfig) (now : Nat) (job : Job F) : Bool :=
  job.completedAt.any fun completedAt =>
    completedAt ≤ now && config.completedJobTtlSecs < (now-completedAt)/10^9

def finishTime (job : Job F) : Nat := job.completedAt.getD job.createdAt

def iterated (iter : IterOrder (String×Job F)) (q : JobQueue F) : List (String×Job F) :=
  iter.order (q.jobs.entries.map fun e => (e.1,e.2))

def byFinish (iter : IterOrder (String×Job F)) (q : JobQueue F) : List (String×Job F) :=
  sortByKey (fun e => finishTime e.2) ((q.iterated iter).filter fun e => e.2.status.finished)

def idsToRemove (iter : IterOrder (String×Job F)) (q : JobQueue F) (now : Nat) : List String :=
  if q.config.maxJobHistory < q.completedCount then
    let removeCount := q.completedCount-q.config.maxJobHistory
    ((q.byFinish iter).take removeCount).map (·.1)
  else ((q.iterated iter).filter fun e => expired q.config now e.2).map (·.1)

def cleanup (iter : IterOrder (String×Job F)) (q : JobQueue F) (now : Nat) : JobQueue F :=
  { q with jobs := q.jobs.eraseAll (q.idsToRemove iter now) }

def perform (clamp : F → F) (one : F) (q : JobQueue F) : JobCall F → JobQueue F
  | .submit jobId now => q.submit jobId now
  | .updateProgress jobId progress =>
    match q.updateProgress clamp jobId progress with
    | .ok q' => q'
    | .error _ => q
  | .complete jobId now => q.complete one jobId now
  | .fail jobId error now => q.fail jobId error now
  | .cancel jobId now => q.cancel jobId now
  | .tick now iter => q.cleanup iter now

section alter
variable {q : JobQueue F} {jobId : String} {f : Job F → Job F}

@[simp] theorem alter_config : (q.alter jobId f).config = q.config := by
  unfold alter
  split <;> rfl

theorem lookup_alter (k : String) : (q.alter jobId f).jobs.lookup k =
    if k=jobId then (q.jobs.lookup k).map f else q.jobs.lookup k := by
  unfold alter
  split
  · next job hjob =>
    by_cases hk : k=jobId
    · subst hk
      simp [hjob]
    · simp [hk]
  · next hnone =>
    by_cases hk : k=jobId
    · subst hk
      simp [hnone]
    · simp [hk]

end alter

section cleanup
variable {iter : IterOrder (String×Job F)} {q : JobQueue F} {now : Nat}

theorem mem_iterated {k : String} {job : Job F} :
    (k,job)∈q.iterated iter ↔ q.jobs.lookup k = some job := by
  rw [iterated,(iter.perm _).mem_iff,List.mem_map,← Option.mem_def,AList.mem_lookup_iff]
  constructor
  · rintro ⟨⟨j,v⟩,hmem,he⟩
    obtain ⟨rfl,rfl⟩ := Prod.mk.inj he
    exact hmem
  · exact fun hmem => ⟨⟨k,job⟩,hmem,rfl⟩

theorem keys_iterated : ((q.iterated iter).map (·.1)).Perm q.jobs.keys := by
  have hperm := (iter.perm (q.jobs.entries.map fun e => (e.1,e.2))).map (·.1)
  rw [List.map_map] at hperm
  exact hperm

theorem mem_byFinish {k : String} {job : Job F} :
    (k,job)∈q.byFinish iter ↔ q.jobs.lookup k = some job ∧ job.status.finished := by
  rw [byFinish,(sortByKey_perm _).mem_iff,List.mem_filter,mem_iterated]

theorem nodup_byFinish : ((q.byFinish iter).map (·.1)).Nodup := by
  have hperm : ((q.byFinish iter).map (·.1)).Perm
      (((q.iterated iter).filter fun e => e.2.status.finished).map (·.1)) :=
    (sortByKey_perm _).map _
  refine hperm.nodup_iff.mpr ?_
  exact (List.filter_sublist.map _).nodup (keys_iterated.nodup_iff.mpr q.jobs.keys_nodup)

theorem length_byFinish : (q.byFinish iter).length = q.completedCount := by
  have hperm := (iter.perm (q.jobs.entries.map fun e => (e.1,e.2))).countP_eq
    fun e => e.2.status.finished
  rw [byFinish,(sortByKey_perm _).length_eq,← List.countP_eq_length_filter,iterated,hperm,
    completedCount,← List.countP_eq_length_filter,KeyMap.values,List.countP_map,List.countP_map]
  rfl

/-- How many finished jobs there are, by their ids. -/
theorem completedCount_eq : q.completedCount =
    (q.jobs.retain fun _ job => job.status.finished).keys.length := by
  simp only [completedCount,KeyMap.values,AList.keys,List.keys,KeyMap.retain,List.filter_map,
    List.length_map]
  rfl

theorem lookup_cleanup (k : String) : (q.cleanup iter now).jobs.lookup k =
    if k∈q.idsToRemove iter now then none else q.jobs.lookup k :=
  KeyMap.lookup_eraseAll _ _ k

theorem mem_idsToRemove_old (hle : q.completedCount ≤ q.config.maxJobHistory) {k : String}
    {job : Job F} (hk : q.jobs.lookup k = some job) :
    k∈q.idsToRemove iter now ↔ expired q.config now job = true := by
  rw [idsToRemove,if_neg (by omega),List.mem_map]
  constructor
  · rintro ⟨⟨j,other⟩,hmem,rfl⟩
    obtain ⟨hmem,hexp⟩ := List.mem_filter.mp hmem
    obtain rfl : other = job := Option.some.inj ((mem_iterated.mp hmem).symm.trans hk)
    exact hexp
  · intro hexp
    exact ⟨(k,job),List.mem_filter.mpr ⟨mem_iterated.mpr hk,hexp⟩,rfl⟩

/-- What goes from an overlong history completed no later than what stays of it. -/
theorem finishTime_le (hlt : q.config.maxJobHistory < q.completedCount) {k j : String}
    {job kept : Job F} (hk : q.jobs.lookup k = some job) (hgone : k∈q.idsToRemove iter now)
    (hj : q.jobs.lookup j = some kept) (hstays : j∉q.idsToRemove iter now)
    (hfinished : kept.status.finished = true) :
    job.status.finished = true ∧ finishTime job ≤ finishTime kept := by
  rw [idsToRemove,if_pos hlt] at hgone hstays
  obtain ⟨⟨i,other⟩,htake,rfl⟩ := List.mem_map.mp hgone
  obtain ⟨hother,hdone⟩ := mem_byFinish.mp (List.mem_of_mem_take htake)
  obtain rfl : other = job := Option.some.inj (hother.symm.trans hk)
  refine ⟨hdone,?_⟩
  have hmem : (j,kept)∈q.byFinish iter := mem_byFinish.mpr ⟨hj,hfinished⟩
  have hsorted : (q.byFinish iter).Pairwise fun a b => finishTime a.2 ≤ finishTime b.2 :=
    sortByKey_sorted _
  rw [← List.take_append_drop (q.completedCount-q.config.maxJobHistory) (q.byFinish iter)]
    at hmem hsorted
  have hdrop := (List.mem_append.mp hmem).resolve_left fun htake =>
    hstays (List.mem_map.mpr ⟨_,htake,rfl⟩)
  exact (List.pairwise_append.mp hsorted).2.2 _ htake _ hdrop

/-- An overlong history is cut to its longest length. -/
theorem completedCount_cleanup (hlt : q.config.maxJobHistory < q.completedCount) :
    (q.cleanup iter now).completedCount = q.config.maxJobHistory := by
  have hids : q.idsToRemove iter now =
      ((q.byFinish iter).take (q.completedCount-q.config.maxJobHistory)).map (·.1) := by
    rw [idsToRemove,if_pos hlt]
  have hlen : (q.idsToRemove iter now).length = q.completedCount-q.config.maxJobHistory := by
    rw [hids,List.length_map,List.length_take,length_byFinish]
    omega
  have hsub : (q.idsToRemove iter now).Sublist ((q.byFinish iter).map (·.1)) := by
    rw [hids]
    exact (List.take_sublist _ _).map _
  have hkeys : ((q.cleanup iter now).jobs.retain fun _ job => job.status.finished).keys.Perm
      ((q.jobs.retain fun _ job => job.status.finished).eraseAll
        (q.idsToRemove iter now)).keys := by
    refine (List.perm_ext_iff_of_nodup (AList.keys_nodup _) (AList.keys_nodup _)).mpr fun k => ?_
    rw [AList.mem_keys.symm,AList.mem_keys.symm,← AList.lookup_isSome,← AList.lookup_isSome,
      KeyMap.lookup_retain,lookup_cleanup,KeyMap.lookup_eraseAll,KeyMap.lookup_retain]
    split <;> simp
  have hmem : q.idsToRemove iter now⊆(q.jobs.retain fun _ job => job.status.finished).keys := by
    intro k hk
    obtain ⟨⟨j,job⟩,hjob,rfl⟩ := List.mem_map.mp (hsub.subset hk)
    obtain ⟨hjob,hdone⟩ := mem_byFinish.mp hjob
    refine AList.mem_keys.mp (AList.lookup_isSome.mp ?_)
    simp [hjob,hdone]
  rw [completedCount_eq,hkeys.length_eq,
    KeyMap.length_keys_eraseAll (hsub.nodup nodup_byFinish) hmem,← completedCount_eq,hlen]
  omega

end cleanup

/-- Every job stands under its own id and carries a completion time iff it is finished. -/
structure Stamped (q : JobQueue F) : Prop where
  own : ∀ k job, q.jobs.lookup k = some job → job.id = k
  notRunning : ∀ k job, q.jobs.lookup k = some job → job.status≠.Running
  timed : ∀ k job, q.jobs.lookup k = some job → job.completedAt.isSome = job.status.finished

section run
variable {clamp : F → F} {one : F} {q : JobQueue F}

theorem stamped_new (config : JobQueueConfig) : Stamped (new config : JobQueue F) :=
  ⟨nofun,nofun,nofun⟩

/-- A write that keeps the id and sets status and completion time together, or neither. -/
theorem Stamped.alter (h : Stamped q) {jobId : String} {f : Job F → Job F}
    (hid : ∀ job, (f job).id = job.id)
    (hset : (∀ job, (f job).status = job.status ∧ (f job).completedAt = job.completedAt) ∨
      ∀ job, (f job).status.finished = true ∧ (f job).completedAt.isSome = true) :
    Stamped (q.alter jobId f) := by
  have hcases {k : String} {job : Job F} (hk : (q.alter jobId f).jobs.lookup k = some job) :
      ∃ old, q.jobs.lookup k = some old ∧ (job = old ∨ job = f old) := by
    rw [lookup_alter] at hk
    split at hk
    · obtain ⟨old,hold,rfl⟩ := Option.map_eq_some_iff.mp hk
      exact ⟨old,hold,.inr rfl⟩
    · exact ⟨job,hk,.inl rfl⟩
  refine ⟨fun k job hk => ?_,fun k job hk => ?_,fun k job hk => ?_⟩
  · obtain ⟨old,hold,rfl | rfl⟩ := hcases hk
    · exact h.own k _ hold
    · exact (hid old).trans (h.own k _ hold)
  · obtain ⟨old,hold,rfl | rfl⟩ := hcases hk
    · exact h.notRunning k _ hold
    · rcases hset with hset | hset
      · rw [(hset old).1]
        exact h.notRunning k _ hold
      · intro hrun
        have hdone := (hset old).1
        rw [hrun] at hdone
        cases hdone
  · obtain ⟨old,hold,rfl | rfl⟩ := hcases hk
    · exact h.timed k _ hold
    · rcases hset with hset | hset
      · rw [(hset old).1,(hset old).2]
        exact h.timed k _ hold
      · rw [(hset old).1,(hset old).2]

theorem Stamped.perform (h : Stamped q) (c : JobCall F) : Stamped (q.perform clamp one c) := by
  cases c with
  | submit jobId now =>
    have hcases {k : String} {job : Job F} (hk : (q.submit jobId now).jobs.lookup k = some job) :
        k = jobId ∧ job = submitted jobId now ∨ q.jobs.lookup k = some job := by
      simp only [submit,KeyMap.lookup_insert_ite] at hk
      split at hk
      · next hkj => exact .inl ⟨hkj,(Option.some.inj hk).symm⟩
      · exact .inr hk
    refine ⟨fun k job hk => ?_,fun k job hk => ?_,fun k job hk => ?_⟩
    · rcases hcases hk with ⟨rfl,rfl⟩ | hold
      · rfl
      · exact h.own k job hold
    · rcases hcases hk with ⟨rfl,rfl⟩ | hold
      · simp [submitted]
      · exact h.notRunning k job hold
    · rcases hcases hk with ⟨rfl,rfl⟩ | hold
      · rfl
      · exact h.timed k job hold
  | updateProgress jobId progress =>
    simp only [JobQueue.perform,updateProgress]
    cases q.jobs.lookup jobId with
    | none => exact h
    | some job => exact h.alter (fun _ => rfl) (.inl fun _ => ⟨rfl,rfl⟩)
  | complete jobId now => exact h.alter (fun _ => rfl) (.inr fun _ => ⟨rfl,rfl⟩)
  | fail jobId error now => exact h.alter (fun _ => rfl) (.inr fun _ => ⟨rfl,rfl⟩)
  | cancel jobId now => exact h.alter (fun _ => rfl) (.inr fun _ => ⟨rfl,rfl⟩)
  | tick now iter =>
    have hkept {k : String} {job : Job F} (hk : (q.cleanup iter now).jobs.lookup k = some job) :
        q.jobs.lookup k = some job := by
      rw [lookup_cleanup] at hk
      split at hk
      · cases hk
      · exact hk
    exact ⟨fun k job hk => h.own k job (hkept hk),fun k job hk => h.notRunning k job (hkept hk),
      fun k job hk => h.timed k job (hkept hk)⟩

theorem stamped_run (config : JobQueueConfig) (cs : List (JobCall F)) :
    Stamped (Runs.run (perform clamp one) (new config) cs) :=
  Runs.run_keeps (fun _ c h => h.perform c) (stamped_new config) cs

end run

/-- What a cleanup may do to the queue: nothing but drop finished jobs, those past their time to
live or, from an overlong history, the ones that completed first. -/
structure Cleaned (q q' : JobQueue F) (now : Nat) : Prop where
  kept : ∀ k job, q'.jobs.lookup k = some job → q.jobs.lookup k = some job
  unfinished : ∀ k job, q.jobs.lookup k = some job → job.status.finished = false →
    q'.jobs.lookup k = some job
  bounded : q'.completedCount ≤ q.config.maxJobHistory
  byTime : q.completedCount ≤ q.config.maxJobHistory → ∀ k job, q.jobs.lookup k = some job →
    (q'.jobs.lookup k = none ↔ expired q.config now job = true)
  byAge : q.config.maxJobHistory < q.completedCount →
    q'.completedCount = q.config.maxJobHistory ∧
    ∀ k job j kept, q.jobs.lookup k = some job → q'.jobs.lookup k = none →
      q'.jobs.lookup j = some kept → kept.status.finished = true →
      ∃ t t', job.completedAt = some t ∧ kept.completedAt = some t' ∧ t ≤ t'

section cleaned
variable {iter : IterOrder (String×Job F)} {q : JobQueue F} {now : Nat}

theorem lookup_cleanup_none {k : String} {job : Job F} (hk : q.jobs.lookup k = some job) :
    (q.cleanup iter now).jobs.lookup k = none ↔ k∈q.idsToRemove iter now := by
  rw [lookup_cleanup,hk]
  split <;> simp_all

theorem lookup_cleanup_some {k : String} {job : Job F} :
    (q.cleanup iter now).jobs.lookup k = some job ↔
      q.jobs.lookup k = some job ∧ k∉q.idsToRemove iter now := by
  rw [lookup_cleanup]
  split <;> simp_all

theorem completedCount_cleanup_le :
    (q.cleanup iter now).completedCount ≤ q.config.maxJobHistory := by
  by_cases hlt : q.config.maxJobHistory < q.completedCount
  · exact (completedCount_cleanup hlt).le
  · have hsub : ((q.cleanup iter now).jobs.retain fun _ job => job.status.finished).keys⊆
        (q.jobs.retain fun _ job => job.status.finished).keys := by
      intro k hk
      rw [← AList.mem_keys,← AList.lookup_isSome,KeyMap.lookup_retain] at hk ⊢
      rw [lookup_cleanup] at hk
      split at hk
      · cases hk
      · exact hk
    have hle := (List.subperm_of_subset (AList.keys_nodup _) hsub).length_le
    rw [← completedCount_eq,← completedCount_eq] at hle
    omega

theorem Stamped.cleaned (h : Stamped q) : Cleaned q (q.cleanup iter now) now where
  kept k job hk := (lookup_cleanup_some.mp hk).1
  unfinished k job hk hlive := by
    refine lookup_cleanup_some.mpr ⟨hk,fun hgone => ?_⟩
    by_cases hlt : q.config.maxJobHistory < q.completedCount
    · rw [idsToRemove,if_pos hlt] at hgone
      obtain ⟨⟨j,other⟩,htake,rfl⟩ := List.mem_map.mp hgone
      obtain ⟨hother,hdone⟩ := mem_byFinish.mp (List.mem_of_mem_take htake)
      obtain rfl : other = job := Option.some.inj (hother.symm.trans hk)
      simp [hlive] at hdone
    · -- a job that is not finished has no completion time, so no age
      have hexp := (mem_idsToRemove_old (Nat.not_lt.mp hlt) hk).mp hgone
      have hnone : job.completedAt = none := by
        have htimed := h.timed k job hk
        rw [hlive] at htimed
        simpa using htimed
      simp [expired,hnone] at hexp
  bounded := completedCount_cleanup_le
  byTime hle k job hk := (lookup_cleanup_none hk).trans (mem_idsToRemove_old hle hk)
  byAge hlt := by
    refine ⟨completedCount_cleanup hlt,fun k job j kept hk hnone hj hfinished => ?_⟩
    obtain ⟨hj,hstays⟩ := lookup_cleanup_some.mp hj
    obtain ⟨hdone,hle⟩ := finishTime_le hlt hk ((lookup_cleanup_none hk).mp hnone) hj hstays
      hfinished
    obtain ⟨t,ht⟩ := Option.isSome_iff_exists.mp ((h.timed k job hk).trans hdone)
    obtain ⟨t',ht'⟩ := Option.isSome_iff_exists.mp ((h.timed j kept hj).trans hfinished)
    exact ⟨t,t',ht,ht',by simpa [finishTime,ht,ht'] using hle⟩

end cleaned

variable (clamp : F → F) (one : F)

/-- In every run each tick only cleans. -/
theorem tick_cleans (config : JobQueueConfig) (cs : List (JobCall F)) (now : Nat)
    (iter : IterOrder (String×Job F)) :
    Cleaned (Runs.run (perform clamp one) (new config) cs)
      (Runs.run (perform clamp one) (new config) (cs++[.tick now iter])) now := by
  rw [Runs.run_concat]
  exact (stamped_run config cs).cleaned

/-- What the calls say about job `k` when nothing is ever cleaned up. -/
def history (k : String) (job : Option (Job F)) : JobCall F → Option (Job F)
  | .submit jobId now => if k=jobId then some (submitted jobId now) else job
  | .updateProgress jobId progress =>
    if k=jobId then job.map fun job => { job with progress := some (clamp progress) } else job
  | .complete jobId now => if k=jobId then job.map (completed one now) else job
  | .fail jobId error now => if k=jobId then job.map (failed error now) else job
  | .cancel jobId now => if k=jobId then job.map (cancelled now) else job
  | .tick .. => job

/-- The queue tells the history of `k`, or has forgotten `k` after it was finished. -/
def Tells (k : String) (q : JobQueue F) (job : Option (Job F)) : Prop :=
  q.jobs.lookup k = job ∨
    q.jobs.lookup k = none ∧ ∃ old, job = some old ∧ old.status.finished = true

section history
variable {clamp : F → F} {one : F} {q : JobQueue F} {k : String} {job : Option (Job F)}

theorem Tells.alter (h : Tells k q job) (jobId : String) {f : Job F → Job F}
    (hf : ∀ job, job.status.finished = true → (f job).status.finished = true) :
    Tells k (q.alter jobId f) (if k=jobId then job.map f else job) := by
  rw [Tells,lookup_alter]
  split
  · rcases h with h | ⟨hnone,old,rfl,hold⟩
    · exact .inl (by rw [h])
    · exact .inr ⟨by rw [hnone]; rfl,f old,rfl,hf old hold⟩
  · exact h

theorem Tells.perform (hst : Stamped q) (h : Tells k q job) (c : JobCall F) :
    Tells k (q.perform clamp one c) (history clamp one k job c) := by
  cases c with
  | submit jobId now =>
    simp only [Tells,JobQueue.perform,submit,history,KeyMap.lookup_insert_ite]
    by_cases hk : k=jobId
    · exact .inl (by rw [if_pos hk,if_pos hk])
    · rw [if_neg hk,if_neg hk]
      exact h
  | updateProgress jobId progress =>
    have hprogress : q.perform clamp one (.updateProgress jobId progress) =
        q.alter jobId fun job => { job with progress := some (clamp progress) } := by
      simp only [JobQueue.perform,updateProgress,JobQueue.alter]
      cases q.jobs.lookup jobId <;> rfl
    rw [hprogress]
    exact h.alter jobId fun _ hdone => hdone
  | complete jobId now => exact h.alter jobId fun _ _ => rfl
  | fail jobId error now => exact h.alter jobId fun _ _ => rfl
  | cancel jobId now => exact h.alter jobId fun _ _ => rfl
  | tick now iter =>
    have hclean : Cleaned q (q.cleanup iter now) now := hst.cleaned
    rcases h with h | ⟨hnone,hold⟩
    · cases hcase : (q.cleanup iter now).jobs.lookup k with
      | some job' =>
        refine .inl ?_
        rw [hclean.kept k job' hcase] at h
        exact hcase.trans h
      | none =>
        cases job with
        | none => exact .inl hcase
        | some old =>
          refine .inr ⟨hcase,old,rfl,?_⟩
          cases hdone : old.status.finished with
          | true => rfl
          | false => rw [hclean.unfinished k old h hdone] at hcase; cases hcase
    · refine .inr ⟨?_,hold⟩
      cases hcase : (q.cleanup iter now).jobs.lookup k with
      | none => exact hcase
      | some job' => rw [hclean.kept k job' hcase] at hnone; cases hnone

end history

/-- Cleanup or not, a job is shown as its own calls left it, and is forgotten only when finished. -/
theorem run_tells (config : JobQueueConfig) (cs : List (JobCall F)) (k : String) :
    Tells k (Runs.run (perform clamp one) (new config) cs)
      (Runs.run (history clamp one k) none cs) := by
  induction cs using List.reverseRecOn with
  | nil => exact .inl rfl
  | append_singleton cs c ih =>
    rw [Runs.run_concat,Runs.run_concat]
    exact ih.perform (stamped_run config cs) c

section expiry
variable {clamp : F → F} {one : F} {q : JobQueue F}

theorem completedCount_mono {q' : JobQueue F} (h : ∀ k job, q'.jobs.lookup k = some job →
      job.status.finished = true →
      ∃ old, q.jobs.lookup k = some old ∧ old.status.finished = true) :
    q'.completedCount ≤ q.completedCount := by
  rw [completedCount_eq,completedCount_eq]
  refine (List.subperm_of_subset (AList.keys_nodup _) fun k hk => ?_).length_le
  rw [← AList.mem_keys,← AList.lookup_isSome,KeyMap.lookup_retain] at hk ⊢
  obtain ⟨job,hjob⟩ := Option.isSome_iff_exists.mp hk
  obtain ⟨hjob,hdone⟩ := Option.filter_eq_some_iff.mp hjob
  obtain ⟨old,hold,hdone⟩ := h k job hjob hdone
  simp [hold,hdone]

theorem completedCount_perform {c : JobCall F} (hc : c.finishes = false) :
    (q.perform clamp one c).completedCount ≤ q.completedCount := by
  refine completedCount_mono fun k job hk hdone => ?_
  cases c with
  | submit jobId now =>
    simp only [perform,submit,KeyMap.lookup_insert_ite] at hk
    split at hk
    · obtain rfl := Option.some.inj hk
      cases hdone
    · exact ⟨job,hk,hdone⟩
  | updateProgress jobId progress =>
    simp only [perform,updateProgress] at hk
    cases hjob : q.jobs.lookup jobId with
    | none => exact ⟨job,by simpa [hjob] using hk,hdone⟩
    | some other =>
      simp only [hjob,lookup_alter] at hk
      split at hk
      · obtain ⟨old,hold,rfl⟩ := Option.map_eq_some_iff.mp hk
        exact ⟨old,hold,hdone⟩
      · exact ⟨job,hk,hdone⟩
  | complete | fail | cancel => cases hc
  | tick now iter => exact ⟨job,(lookup_cleanup_some.mp hk).1,hdone⟩

@[simp] theorem perform_config (c : JobCall F) : (q.perform clamp one c).config = q.config := by
  cases c with
  | updateProgress jobId progress =>
    simp only [perform,updateProgress]
    cases q.jobs.lookup jobId <;> simp
  | _ => simp [perform,submit,complete,fail,cancel,cleanup]

theorem config_run (cs : List (JobCall F)) :
    (Runs.run (perform clamp one) q cs).config = q.config :=
  Runs.run_keeps (I := fun q' : JobQueue F => q'.config = q.config)
    (fun _ c h => (perform_config c).trans h) rfl cs

theorem completedCount_run {cs : List (JobCall F)} (hcs : ∀ c∈cs, c.finishes = false) :
    (Runs.run (perform clamp one) q cs).completedCount ≤ q.completedCount := by
  induction cs generalizing q with
  | nil => exact le_refl _
  | cons c cs ih =>
    obtain ⟨hc,hcs⟩ := List.forall_mem_cons.mp hcs
    exact (ih hcs).trans (completedCount_perform hc)

end expiry

/-- A tick that finds the history too long leaves expired jobs in it; the next tick takes them,
when nothing finishes in between. -/
theorem next_tick_expires (config : JobQueueConfig) (cs mid : List (JobCall F))
    (hmid : ∀ c∈mid, c.finishes = false) (t t' : Nat) (iter iter' : IterOrder (String×Job F))
    (k : String) (job : Job F) (hk : (Runs.run (perform clamp one) (new config)
      (cs++[.tick t iter]++mid++[.tick t' iter'])).jobs.lookup k = some job) :
    expired config t' job = false := by
  have hcleaned (cs : List (JobCall F)) (now : Nat) (iter : IterOrder (String×Job F)) :
      Cleaned (Runs.run (perform clamp one) (new config) cs)
        (Runs.run (perform clamp one) (new config) (cs++[.tick now iter])) now := by
    rw [Runs.run_concat]
    exact (stamped_run config cs).cleaned
  have hfirst := (hcleaned cs t iter).bounded
  have hsecond := hcleaned (cs++[.tick t iter]++mid) t' iter'
  rw [config_run] at hfirst
  have hle : (Runs.run (perform clamp one) (new config)
      (cs++[.tick t iter]++mid)).completedCount ≤ config.maxJobHistory := by
    rw [Runs.run_append]
    exact (completedCount_run hmid).trans hfirst
  have hbefore := hsecond.kept k job hk
  have hgone := hsecond.byTime (by rw [config_run]; exact hle) k job hbefore
  rw [config_run,hk] at hgone
  simpa [new] using hgone

def asStored : IterOrder (String×Job Unit) := ⟨id,fun _ => .refl _⟩

/-- Two finished jobs and room for one: the first tick drops the older job, and the second leaves
the other, which is younger than its time to live. -/
theorem next_tick_expires_two :
    ∃ job, (Runs.run (perform id ()) (new ⟨10,1⟩) [.submit "a" 0,.complete "a" 1,
      .submit "b" 2,.complete "b" (20*10^9),.tick (21*10^9) asStored,.submit "c" (22*10^9),
      .tick (25*10^9) asStored]).jobs.lookup "b" = some job ∧
    job.completedAt = some (20*10^9) ∧ expired ⟨10,1⟩ (25*10^9) job = false :=
  ⟨completed () (20*10^9) (submitted "b" 2),by decide +kernel,rfl,
    next_tick_expires id () ⟨10,1⟩ [.submit "a" 0,.complete "a" 1,.submit "b" 2,
      .complete "b" (20*10^9)] [.submit "c" (22*10^9)] (by simp [JobCall.finishes]) (21*10^9)
      (25*10^9) asStored asStored "b" _ (by decide +kernel)⟩

end JobQueue
end WorkflowyMcp
