import WorkflowyMcp.RecentChanges
import WorkflowyMcp.RetryDelay

/-! The windows of the review tools, in days or hours of any size: which of them a computation
takes without an overflow and within the range of dates. -/
namespace WorkflowyMcp

namespace Aggregation
open NodePaths

/-- Each of the nodes has a path. -/
def AllPathed (nodes : List WorkflowyNode) : Prop := ∀ n∈nodes, Pathed nodes n

/-- A date of the calendar that dates are taken from. -/
def IsDate (numDays : Int) : Prop := MIN_DAYS≤numDays ∧ numDays≤MAX_DAYS

instance (numDays : Int) : Decidable (IsDate numDays) := inferInstanceAs (Decidable (_ ∧ _))

theorem isSome_ofNumDays {numDays : Int} :
    (NaiveDate.ofNumDays numDays).isSome ↔ IsDate numDays := by
  unfold NaiveDate.ofNumDays
  split <;> rename_i h
  · exact iff_of_true rfl h
  · exact iff_of_false (by simp) h

/-- The milliseconds of a window and the timestamp before which it starts. -/
def InWindow (nowMs millis : Int) : Prop := InI64 millis ∧ InI64 (nowMs-millis)

instance (nowMs millis : Int) : Decidable (InWindow nowMs millis) :=
  inferInstanceAs (Decidable (_ ∧ _))

section cutoff
variable {p : Profile} {nowMs hoursAgo recentDays : Int}

theorem hoursCutoff_eq (p : Profile) (h : InWindow nowMs (hoursAgo*3600000)) :
    p.hoursCutoff nowMs hoursAgo = some (nowMs-hoursAgo*3600000) := by
  obtain ⟨hmillis,hcutoff⟩ := h
  have heq : hoursAgo*60*60*1000 = hoursAgo*3600000 := by omega
  have hminutes : InI64 (hoursAgo*60) := by unfold InI64 at *; omega
  have hseconds : InI64 (hoursAgo*60*60) := by unfold InI64 at *; omega
  rw [Profile.hoursCutoff,p.i64_eq hminutes,Option.bind_some,p.i64_eq hseconds,Option.bind_some,heq,
    p.i64_eq hmillis,Option.bind_some,p.i64_eq hcutoff]

theorem inWindow_of_hoursCutoff {cutoff : Int}
    (h : Profile.dev.hoursCutoff nowMs hoursAgo = some cutoff) :
    InWindow nowMs (hoursAgo*3600000) := by
  obtain ⟨minutes,hminutes,h⟩ := Option.bind_eq_some_iff.mp h
  obtain ⟨seconds,hseconds,h⟩ := Option.bind_eq_some_iff.mp h
  obtain ⟨millis,hmillis,h⟩ := Option.bind_eq_some_iff.mp h
  obtain ⟨rfl,-⟩ := Profile.i64_dev hminutes
  obtain ⟨rfl,-⟩ := Profile.i64_dev hseconds
  obtain ⟨rfl,hin⟩ := Profile.i64_dev hmillis
  have heq : hoursAgo*60*60*1000 = hoursAgo*3600000 := by omega
  rw [heq] at hin h
  exact ⟨hin,(Profile.i64_dev h).2⟩

theorem daysCutoff_eq (p : Profile) (h : InWindow nowMs (recentDays*86400000)) :
    p.daysCutoff nowMs recentDays = some (nowMs-recentDays*86400000) := by
  rw [Profile.daysCutoff,p.i64_eq h.1,Option.bind_some,p.i64_eq h.2]

theorem inWindow_of_daysCutoff {cutoff : Int}
    (h : Profile.dev.daysCutoff nowMs recentDays = some cutoff) :
    InWindow nowMs (recentDays*86400000) := by
  obtain ⟨millis,hmillis,h⟩ := Option.bind_eq_some_iff.mp h
  obtain ⟨rfl,hin⟩ := Profile.i64_dev hmillis
  exact ⟨hin,(Profile.i64_dev h).2⟩

end cutoff

section windows
variable {toLowercase : String → String} {isWord isDigit : Char → Bool}
variable {today : NaiveDate} {nowMs : Int}

/-- A day near another one is no large number. -/
theorem inI64_of_isDate {days : Int} (h : IsDate (today.numDays+days)) :
    InI64 days ∧ InI64 (days*86400000) := by
  have htoday := today.inRange
  have hspan : (MAX_DAYS-MIN_DAYS)*86400000 < 2^63 := by decide
  unfold IsDate at h
  unfold InI64
  omega

/-- The upcoming items are found with the horizon that was asked for. -/
theorem upcoming_iff (isWord isDigit : Char → Bool) (today : NaiveDate) (days : Int) :
    (asI64 days = days ∧ ∀ nodes includeCompleted, AllPathed nodes →
      (computeUpcoming isWord isDigit nodes today (asI64 days) includeCompleted).isSome) ↔
      IsDate (today.numDays+days) := by
  constructor
  · rintro ⟨hdays,h⟩
    obtain ⟨horizon,hhorizon,-⟩ := isSome_computeUpcoming.mp (h [] false (by simp [AllPathed]))
    rw [hdays] at hhorizon
    exact isSome_ofNumDays.mp (by rw [hhorizon]; rfl)
  · intro h
    have hdays := asI64_eq.mpr (inI64_of_isDate h).1
    refine ⟨hdays,?_⟩
    rw [hdays]
    refine fun nodes includeCompleted hpaths => isSome_computeUpcoming.mpr ?_
    obtain ⟨horizon,hhorizon⟩ := Option.isSome_iff_exists.mp (isSome_ofNumDays.mpr h)
    exact ⟨horizon,hhorizon,fun n hn _ => hpaths n hn⟩

/-- The changes of the last hours are those behind the cutoff that was asked for. -/
theorem recentChanges_iff (nowMs hours : Int) :
    (asI64 hours = hours ∧ ∀ nodes limit, AllPathed nodes → ∀ p,
      computeRecentChanges p nodes nowMs (asI64 hours) limit =
        some (((newestSince (nowMs-hours*3600000) nodes).take limit).map (shown nodes))) ↔
      InWindow nowMs (hours*3600000) := by
  constructor
  · rintro ⟨hhours,h⟩
    obtain ⟨cutoff,hcutoff,-⟩ := isSome_computeRecentChanges.mp
      (Option.isSome_of_eq_some (h [] 0 (by simp [AllPathed]) .dev))
    rw [hhours] at hcutoff
    exact inWindow_of_hoursCutoff hcutoff
  · intro h
    have hhours : asI64 hours = hours := asI64_eq.mpr (by unfold InWindow InI64 at *; omega)
    refine ⟨hhours,?_⟩
    rw [hhours]
    refine fun nodes limit hpaths p => computeRecentChanges_eq_some.mpr
      ⟨_,hoursCutoff_eq p h,fun x hx => hpaths x.1 ?_,rfl⟩
    exact (mem_changedSince.mp hx).1

/-- Within the window all builds compute the same changes. -/
theorem computeRecentChanges_dev {hours : Int} (h : InWindow nowMs (hours*3600000)) (p : Profile)
    (nodes : List WorkflowyNode) (limit : Nat) :
    computeRecentChanges p nodes nowMs hours limit =
      computeRecentChanges .dev nodes nowMs hours limit := by
  rw [computeRecentChanges,computeRecentChanges,hoursCutoff_eq p h,hoursCutoff_eq .dev h]

/-- Days in hours are the same window. -/
theorem hours_of_days {days : Int} (h : InWindow nowMs (days*86400000)) :
    InI64 (days*24) ∧ InWindow nowMs (days*24*3600000) := by
  have heq : days*24*3600000 = days*86400000 := by omega
  refine ⟨?_,heq ▸ h⟩
  obtain ⟨hmillis,-⟩ := h
  unfold InI64 at *
  omega

/-- All builds review with the windows that were asked for. -/
theorem dailyReview_iff (toLowercase : String → String) (isWord isDigit : Char → Bool)
    (today : NaiveDate) (nowMs upcomingDays recentDays : Int) :
    (asI64 upcomingDays = upcomingDays ∧ asI64 recentDays = recentDays ∧
      ∀ nodes limits, AllPathed nodes → ∃ review, ∀ p, computeDailyReview toLowercase isWord isDigit p
        nodes today nowMs (asI64 upcomingDays) (asI64 recentDays) limits = some review) ↔
      IsDate (today.numDays+upcomingDays) ∧ InWindow nowMs (recentDays*86400000) := by
  constructor
  · rintro ⟨hupcoming,hrecent,h⟩
    obtain ⟨review,hreview⟩ := h [] ⟨0,0,0,0⟩ (by simp [AllPathed])
    rw [hupcoming,hrecent] at hreview
    have hreviewable := isSome_computeDailyReview.mp (Option.isSome_of_eq_some (hreview .dev))
    obtain ⟨horizon,hhorizon,-⟩ := hreviewable.dueSoon
    obtain ⟨cutoff,hcutoff⟩ := Option.isSome_iff_exists.mp hreviewable.cutoff
    exact ⟨isSome_ofNumDays.mp (Option.isSome_of_eq_some hhorizon),inWindow_of_daysCutoff hcutoff⟩
  · rintro ⟨hdate,hwindow⟩
    have hupcoming := asI64_eq.mpr (inI64_of_isDate hdate).1
    obtain ⟨hhours,hin⟩ := hours_of_days hwindow
    have hrecent : asI64 recentDays = recentDays :=
      asI64_eq.mpr (by unfold InI64 at *; omega)
    refine ⟨hupcoming,hrecent,?_⟩
    rw [hupcoming,hrecent]
    intro nodes limits hpaths
    obtain ⟨horizon,hhorizon⟩ := Option.isSome_iff_exists.mp (isSome_ofNumDays.mpr hdate)
    have hreviewable : Reviewable toLowercase isWord isDigit .dev nodes today nowMs upcomingDays
        recentDays limits :=
      { overdue := fun n hn _ => hpaths n hn
        dueSoon := ⟨horizon,hhorizon,fun n hn _ => hpaths n hn⟩
        recent := ⟨_,by rw [windowCutoff,Profile.i64_eq .dev hhours,Option.bind_some,
          hoursCutoff_eq .dev hin],fun x hx => hpaths x.1 (mem_changedSince.mp hx).1⟩
        pending := fun n hn => hpaths n (List.mem_of_mem_filter (List.mem_of_mem_take hn))
        cutoff := Option.isSome_of_eq_some (daysCutoff_eq .dev hwindow) }
    obtain ⟨review,hreview⟩ := Option.isSome_iff_exists.mp
      (isSome_computeDailyReview.mpr hreviewable)
    refine ⟨review,fun p => ?_⟩
    rw [← hreview]
    simp only [computeDailyReview,p.i64_eq hhours,Profile.i64_eq .dev hhours,
      daysCutoff_eq p hwindow,daysCutoff_eq .dev hwindow,computeRecentChanges_dev hin p,
      Option.bind_eq_bind,Option.bind_some]

/-- All builds list the recent changes of the days that were asked for. -/
theorem getRecentChanges_iff (today : NaiveDate) (nowMs : Int) (params : GetRecentChangesParams) :
    (params.window = (params.days.getD 7 : Nat) ∧ ∀ nodes, AllPathed nodes → ∃ r, ∀ p,
      getRecentChanges p nodes today nowMs params = some r) ↔
      IsDate (today.numDays-(params.days.getD 7 : Nat)) ∧
        InWindow nowMs ((params.days.getD 7 : Nat)*86400000) := by
  have hwindow : params.window = asI64 (params.days.getD 7 : Nat) := rfl
  generalize ((params.days.getD 7 : Nat) : Int) = days at hwindow ⊢
  constructor
  · rintro ⟨hdays,h⟩
    obtain ⟨r,hr⟩ := h [] (by simp [AllPathed])
    obtain ⟨cutoff,_,hlist,-⟩ := getRecentChanges_eq_some.mp (hr .dev)
    have hdate := hlist.since
    rw [hdays] at hdate
    have hcutoff := hlist.inWindow
    rw [hdays,windowCutoff] at hcutoff
    obtain ⟨hours,hhours,hcutoff⟩ := Option.bind_eq_some_iff.mp hcutoff
    obtain ⟨rfl,-⟩ := Profile.i64_dev hhours
    have heq : days*24*3600000 = days*86400000 := by omega
    exact ⟨isSome_ofNumDays.mp hdate,heq ▸ inWindow_of_hoursCutoff hcutoff⟩
  · rintro ⟨hdate,hin⟩
    obtain ⟨hhours,hin⟩ := hours_of_days hin
    have hdays : params.window = days := by
      rw [hwindow]
      exact asI64_eq.mpr (by unfold InI64 at *; omega)
    refine ⟨hdays,fun nodes hpaths => ?_⟩
    obtain ⟨since,hsince⟩ := Option.isSome_iff_exists.mp (isSome_ofNumDays.mpr hdate)
    have hcutoff (p : Profile) : windowCutoff p nowMs params.window =
        some (nowMs-days*24*3600000) := by
      rw [hdays,windowCutoff,p.i64_eq hhours,Option.bind_some,hoursCutoff_eq p hin]
    rw [← hdays] at hsince
    refine ⟨_,fun p => getRecentChanges_eq_some.mpr ⟨_,since,
      ⟨Option.isSome_of_eq_some hsince,hcutoff p,fun x hx => hpaths x.1 ?_⟩,hsince,rfl⟩⟩
    exact (mem_changedSince.mp hx).1

end windows

/-- Each computation takes what it is asked for, in every build and without a wrapped number, if and
only if the numbers are in the range of their types and the days in that of the calendar. -/
theorem in_range_iff (retryAfterSecs : String → Option Nat) (body : String) (config : RetryConfig)
    (attempt : Nat) (toLowercase : String → String) (isWord isDigit : Char → Bool)
    (today : NaiveDate) (nowMs days hours upcomingDays recentDays : Int)
    (params : GetRecentChangesParams) :
    ((∀ p, RetryDelay.parseRetryAfter p retryAfterSecs body =
        some (Traffic.parseRetryAfter retryAfterSecs body)) ↔
      ∀ secs∈retryAfterSecs body, secs*1000 < 2^64) ∧
    ((∀ p, ∀ random < 2^64, RetryDelay.calculateBackoff p config attempt random =
        some (RetryDelay.jittered (RetryDelay.capped config attempt) random)) ↔
      RetryDelay.Representable config attempt) ∧
    ((asI64 days = days ∧ ∀ nodes includeCompleted, AllPathed nodes →
        (computeUpcoming isWord isDigit nodes today (asI64 days) includeCompleted).isSome) ↔
      IsDate (today.numDays+days)) ∧
    ((asI64 hours = hours ∧ ∀ nodes limit, AllPathed nodes → ∀ p,
        computeRecentChanges p nodes nowMs (asI64 hours) limit =
          some (((newestSince (nowMs-hours*3600000) nodes).take limit).map (shown nodes))) ↔
      InWindow nowMs (hours*3600000)) ∧
    ((asI64 upcomingDays = upcomingDays ∧ asI64 recentDays = recentDays ∧
        ∀ nodes limits, AllPathed nodes → ∃ review, ∀ p, computeDailyReview toLowercase isWord
          isDigit p nodes today nowMs (asI64 upcomingDays) (asI64 recentDays) limits = some review) ↔
      IsDate (today.numDays+upcomingDays) ∧ InWindow nowMs (recentDays*86400000)) ∧
    ((params.window = (params.days.getD 7 : Nat) ∧ ∀ nodes, AllPathed nodes → ∃ r, ∀ p,
        getRecentChanges p nodes today nowMs params = some r) ↔
      IsDate (today.numDays-(params.days.getD 7 : Nat)) ∧
        InWindow nowMs ((params.days.getD 7 : Nat)*86400000)) :=
  ⟨RetryDelay.parseRetryAfter_iff retryAfterSecs body,RetryDelay.backoff_iff config attempt,
    upcoming_iff isWord isDigit today days,recentChanges_iff nowMs hours,
    dailyReview_iff toLowercase isWord isDigit today nowMs upcomingDays recentDays,
    getRecentChanges_iff today nowMs params⟩

/-- A wait of millions of years panics or shrinks to less than a second, a window of as many days
is before the calendar, and the largest number of days looks ahead by one. -/
theorem out_of_range :
    (let secs : String → Option Nat := fun body =>
        if body = "\x7b\"retry_after\":18446744073709552\x7d" then some 18446744073709552 else none;
      let body := "\x7b\"retry_after\":18446744073709552\x7d";
      RetryDelay.parseRetryAfter .dev secs body = none ∧
        RetryDelay.parseRetryAfter .release secs body = some (some 384)) ∧
    (∀ p, getRecentChanges p [] marchDay 1773964800000 { days := some 300000000 } = none) ∧
    computeUpcoming asciiWord Char.isDigit [] marchDay 300000000 false = none ∧
    computeRecentChanges .dev [] 1773964800000 (2^63-1) 50 = none ∧
    (getRecentChanges .release [] marchDay 1773964800000 { days := some (2^64-1) }).map
      RecentChanges.since = some "2026-03-21" ∧
    RetryDelay.calculateBackoff .dev {} 56 0 = none := by
  refine ⟨by decide +kernel,fun p => ?_,by decide +kernel,by decide +kernel,by decide +kernel,
    by decide +kernel⟩
  cases p <;> decide +kernel

end Aggregation
end WorkflowyMcp
