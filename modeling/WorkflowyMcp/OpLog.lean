import Mathlib.Algebra.Ring.Nat
import WorkflowyMcp.Lib.Runs

/-! The log of tool calls, a ring buffer of the last entries, and the newest failure in it that no
later success of the same tool made good. -/
namespace WorkflowyMcp

inductive OpStatus where
  | Ok
  | Err
deriving DecidableEq, Repr

structure OpLogEntry where
  tool : String
  paramsHash : String := ""
  startedAtUnixMs : Nat := 0
  finishedAtUnixMs : Nat := 0
  durationMs : Nat := 0
  status : OpStatus
  error : Option String := none
deriving DecidableEq, Repr

structure OpLog where
  entries : List OpLogEntry
  capacity : Nat
  seq : Nat
  capacity_pos : 0 < capacity
  bounded : entries.length ≤ capacity

namespace OpLog

def withCapacity (capacity : Nat) : OpLog where
  entries := []
  capacity := max capacity 1
  seq := 0
  capacity_pos := by omega
  bounded := by simp

/-- A full buffer drops its oldest entry. -/
def append (log : OpLog) (entry : OpLogEntry) : OpLog where
  entries :=
    (if log.entries.length = log.capacity then log.entries.drop 1 else log.entries)++[entry]
  capacity := log.capacity
  seq := (log.seq+1)%2^64
  capacity_pos := log.capacity_pos
  bounded := by
    have hlen := log.bounded
    have hpos := log.capacity_pos
    split <;> simp only [List.length_append,List.length_drop,List.length_singleton] <;> omega

/-- Newest first. -/
def recent (log : OpLog) (limit : Nat) (sinceUnixMs : Option Nat) : List OpLogEntry :=
  (log.entries.reverse.filter fun e => sinceUnixMs.all (· ≤ e.finishedAtUnixMs)).take limit

def lastUnrecoveredFailure (log : OpLog) : Option OpLogEntry :=
  let recent := log.recent log.capacity none
  match recent.findIdx? fun e => e.status = .Err with
  | none => none
  | some failIdx =>
    match recent[failIdx]? with
    | none => none
    | some lastFail =>
      let recovered := (recent.take failIdx).any fun e => e.tool = lastFail.tool && e.status = .Ok
      if recovered then none else some lastFail

def degradedWarningIfRecentFailure (log : OpLog) (windowMs nowMs : Nat) : Option String :=
  match log.lastUnrecoveredFailure with
  | none => none
  | some last =>
    let ageMs := nowMs-last.finishedAtUnixMs
    if ageMs > windowMs then none
    else if last.tool = "create_node" then none
    else some ("server in degraded state — \x60" ++ last.tool ++ "\x60 failed " ++ toString ageMs ++
      " ms ago: " ++ last.error.getD "(no detail)" ++
      ". Reads or follow-up mutations on this node may not succeed until the upstream recovers; " ++
      "verify with \x60workflowy_status\x60 before issuing further writes.")

/-- Among the later entries is a success of the tool that failed. -/
def Recovered (e : OpLogEntry) (later : List OpLogEntry) : Prop :=
  ∃ f∈later, f.tool = e.tool ∧ f.status = .Ok

instance (e : OpLogEntry) (later : List OpLogEntry) : Decidable (Recovered e later) :=
  inferInstanceAs (Decidable (∃ f∈later, _))

/-- Every failure among the entries has recovered. -/
def AllRecovered (entries : List OpLogEntry) : Prop :=
  ∀ pre e later, entries = pre++e::later → e.status = .Err → Recovered e later

/-- The newest failure that has not recovered, or that there is none. -/
def Reports (entries : List OpLogEntry) : Option OpLogEntry → Prop
  | none => AllRecovered entries
  | some e => ∃ pre later, entries = pre++e::later ∧ e.status = .Err ∧ ¬Recovered e later ∧
      AllRecovered later

/-- If the newest of all failures has recovered, every failure has. -/
def NewestDecides (entries : List OpLogEntry) : Prop :=
  ∀ pre e later, entries = pre++e::later → e.status = .Err → (∀ f∈later, f.status = .Ok) →
    Recovered e later → AllRecovered entries

variable {entries : List OpLogEntry}

theorem status_ne_err {s : OpStatus} : ¬s = .Err ↔ s = .Ok := by
  cases s <;> simp

theorem allRecovered_of_ok (h : ∀ f∈entries, f.status = .Ok) : AllRecovered entries := by
  rintro pre e later rfl he
  simp [h e (by simp)] at he

/-- Of entries in which something failed, the newest failure. -/
theorem exists_newest (h : ¬∀ f∈entries, f.status = .Ok) :
    ∃ pre e later, entries = pre++e::later ∧ e.status = .Err ∧ ∀ f∈later, f.status = .Ok := by
  induction entries with
  | nil => simp at h
  | cons e rest ih =>
    by_cases hrest : ∀ f∈rest, f.status = .Ok
    · refine ⟨[],e,rest,rfl,?_,hrest⟩
      by_contra he
      exact h (by simpa using ⟨status_ne_err.mp he,hrest⟩)
    · obtain ⟨pre,f,later,rfl,hf,hok⟩ := ih hrest
      exact ⟨e::pre,f,later,rfl,hf,hok⟩

/-- There is one newest failure. -/
theorem newest_unique {pre pre' later later' : List OpLogEntry} {e e' : OpLogEntry}
    (h : pre++e::later = pre'++e'::later') (he : e.status = .Err) (he' : e'.status = .Err)
    (hok : ∀ f∈later, f.status = .Ok) (hok' : ∀ f∈later', f.status = .Ok) :
    e = e' ∧ later = later' := by
  rcases List.append_eq_append_iff.mp h with ⟨w,-,hw⟩ | ⟨w,-,hw⟩
  · cases w with
    | nil => exact List.cons_eq_cons.mp hw
    | cons f w =>
      obtain ⟨-,rfl⟩ := List.cons_eq_cons.mp hw
      simp [hok e' (by simp)] at he'
  · cases w with
    | nil =>
      obtain ⟨rfl,rfl⟩ := List.cons_eq_cons.mp hw
      exact ⟨rfl,rfl⟩
    | cons f w =>
      obtain ⟨-,rfl⟩ := List.cons_eq_cons.mp hw
      simp [hok' e (by simp)] at he

theorem recent_all (log : OpLog) : log.recent log.capacity none = log.entries.reverse := by
  simp [recent,log.bounded]

/-- Nothing failed, or the newest failure decides. -/
theorem lastUnrecoveredFailure_cases (log : OpLog) :
    (∀ f∈log.entries, f.status = .Ok) ∧ log.lastUnrecoveredFailure = none ∨
    ∃ pre e later, log.entries = pre++e::later ∧ e.status = .Err ∧ (∀ f∈later, f.status = .Ok) ∧
      log.lastUnrecoveredFailure = if Recovered e later then none else some e := by
  by_cases hok : ∀ f∈log.entries, f.status = .Ok
  · refine .inl ⟨hok,?_⟩
    have hnone : log.entries.reverse.findIdx? (fun e => e.status = .Err) = none := by
      rw [List.findIdx?_eq_none_iff]
      simpa [status_ne_err] using hok
    rw [lastUnrecoveredFailure,recent_all]
    simp only [hnone]
  · obtain ⟨pre,e,later,hsplit,he,hlater⟩ := exists_newest hok
    refine .inr ⟨pre,e,later,hsplit,he,hlater,?_⟩
    have hrecent : log.entries.reverse = later.reverse++e::pre.reverse := by
      simp [hsplit]
    have hidx : (later.reverse++e::pre.reverse).findIdx? (fun e => e.status = .Err) =
        some later.reverse.length := by
      have hnone : later.reverse.findIdx? (fun e => e.status = .Err) = none := by
        rw [List.findIdx?_eq_none_iff]
        simpa [status_ne_err] using hlater
      simp [List.findIdx?_append,hnone,List.findIdx?_cons,he]
    have hany : (later.reverse.any fun f => f.tool = e.tool && f.status = .Ok) =
        decide (Recovered e later) := by
      rw [Bool.eq_iff_iff,decide_eq_true_iff]
      simp [Recovered]
    rw [lastUnrecoveredFailure,recent_all,hrecent]
    simp only [hidx,List.getElem?_append_right (Nat.le_refl _),
      Nat.sub_self,List.getElem?_cons_zero,List.take_left,hany,decide_eq_true_eq]

/-- What is returned is right where it is a failure. -/
theorem reported_unrecovered {log : OpLog} {e : OpLogEntry}
    (h : log.lastUnrecoveredFailure = some e) : Reports log.entries (some e) := by
  rcases log.lastUnrecoveredFailure_cases with ⟨-,hnone⟩ | ⟨pre,f,later,hsplit,hf,hok,hlast⟩
  · simp [hnone] at h
  · rw [hlast] at h
    split at h
    · cases h
    · rename_i hrec
      obtain rfl := Option.some.inj h
      exact ⟨pre,later,hsplit,hf,hrec,allRecovered_of_ok hok⟩

/-- The warning is given on account of a failure that has not recovered. -/
theorem warned_unrecovered {log : OpLog} {windowMs nowMs : Nat} {text : String}
    (h : log.degradedWarningIfRecentFailure windowMs nowMs = some text) :
    ∃ e, Reports log.entries (some e) ∧ e.tool≠"create_node" ∧
      nowMs ≤ e.finishedAtUnixMs+windowMs := by
  unfold degradedWarningIfRecentFailure at h
  split at h
  · cases h
  · rename_i e he
    dsimp only at h
    split at h
    · cases h
    · split at h
      · cases h
      · rename_i hage htool
        exact ⟨e,reported_unrecovered he,htool,by omega⟩

theorem reports_iff (log : OpLog) :
    Reports log.entries log.lastUnrecoveredFailure ↔ NewestDecides log.entries := by
  rcases log.lastUnrecoveredFailure_cases with ⟨hok,hnone⟩ | ⟨pre,e,later,hsplit,he,hok,hlast⟩
  · rw [hnone]
    exact iff_of_true (allRecovered_of_ok hok) fun _ _ _ _ _ _ _ => allRecovered_of_ok hok
  · by_cases hrec : Recovered e later
    · rw [hlast,if_pos hrec]
      exact ⟨fun h _ _ _ _ _ _ _ => h,fun h => h pre e later hsplit he hok hrec⟩
    · have hreport : Reports log.entries (some e) :=
        ⟨pre,later,hsplit,he,hrec,allRecovered_of_ok hok⟩
      rw [hlast,if_neg hrec]
      refine iff_of_true hreport fun pre' e' later' hsplit' he' hok' hrec' => ?_
      obtain ⟨rfl,rfl⟩ := newest_unique (hsplit.symm.trans hsplit') he he' hok hok'
      exact absurd hrec' hrec

/-- After any calls the buffer holds the last of them. -/
theorem entries_run (capacity : Nat) (es : List OpLogEntry) :
    (Runs.run append (withCapacity capacity) es).capacity = max capacity 1 ∧
      (Runs.run append (withCapacity capacity) es).entries =
        es.drop (es.length-max capacity 1) := by
  induction es using List.reverseRecOn with
  | nil => exact ⟨rfl,by simp [withCapacity]⟩
  | append_singleton es e ih =>
    obtain ⟨hcap,hentries⟩ := ih
    rw [Runs.run_concat]
    refine ⟨hcap,?_⟩
    simp only [append,hcap,hentries,List.length_drop,List.length_append,List.length_singleton]
    split <;> rename_i hfull
    · rw [List.drop_drop,List.drop_append_of_le_length (by omega)]
      congr 2
      omega
    · rw [List.drop_append_of_le_length (by omega)]
      congr 2
      omega

/-- What is returned is the newest failure that has not recovered if and only if such a failure
is the newest of all, or there is none. -/
theorem last_unrecovered_iff (capacity : Nat) (es : List OpLogEntry) :
    let log := Runs.run append (withCapacity capacity) es
    log.entries = es.drop (es.length-max capacity 1) ∧
      (Reports log.entries log.lastUnrecoveredFailure ↔ NewestDecides log.entries) :=
  ⟨(entries_run capacity es).2,reports_iff _⟩

/-- Two tools fail, and the second one recovers. -/
theorem failure_forgotten :
    let log := Runs.run append (withCapacity 1024) [{ tool := "edit_node", status := .Err },
      { tool := "get_node", status := .Err },{ tool := "get_node", status := .Ok }]
    log.lastUnrecoveredFailure = none ∧ ¬Reports log.entries log.lastUnrecoveredFailure := by
  refine ⟨by decide,fun h => ?_⟩
  obtain ⟨f,hf,htool,-⟩ := h [] { tool := "edit_node", status := .Err }
    [{ tool := "get_node", status := .Err },{ tool := "get_node", status := .Ok }] rfl rfl
  simp at hf
  rcases hf with rfl | rfl <;> simp at htool

end OpLog
end WorkflowyMcp
