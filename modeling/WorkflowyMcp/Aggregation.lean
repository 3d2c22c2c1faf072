import WorkflowyMcp.DateParser
import WorkflowyMcp.FindByTagAndPath
import WorkflowyMcp.Lib.Partial

/-! What is read off the nodes of a walk: overdue and upcoming items, recent changes, todos, the
summary of a project and the daily review. A result is missing where the computation panics. -/
namespace WorkflowyMcp

/-- How the program was built: an overflow panics, or it wraps. -/
inductive Profile where
  | dev
  | release
deriving DecidableEq, Repr

namespace Profile

/-- The result of an operation on `i64`. -/
def i64 (p : Profile) (x : Int) : Option Int :=
  match p with
  | .dev => if -2^63≤x ∧ x < 2^63 then some x else none
  | .release => some (x.bmod (2^64))

/-- `now_ms - hours_ago * 60 * 60 * 1_000` -/
def hoursCutoff (p : Profile) (nowMs hoursAgo : Int) : Option Int :=
  (p.i64 (hoursAgo*60)).bind fun minutes =>
    (p.i64 (minutes*60)).bind fun seconds =>
      (p.i64 (seconds*1000)).bind fun millis => p.i64 (nowMs-millis)

/-- `now_ms - recent_days * 86_400_000` -/
def daysCutoff (p : Profile) (nowMs recentDays : Int) : Option Int :=
  (p.i64 (recentDays*86400000)).bind fun millis => p.i64 (nowMs-millis)

end Profile

namespace Aggregation
open NodePaths DateParser TagParser

def isTodo (node : WorkflowyNode) : Bool :=
  if node.layoutMode = some "todo" then true
  else
    let name := node.name.toList.dropWhile isWhiteSpace
    decide ("[ ]".toList <+: name) || decide ("[x]".toList <+: name) ||
      decide ("[X]".toList <+: name)

def isCompleted (node : WorkflowyNode) : Bool := node.completedAt.isSome

structure NodeEntry where
  id : String
  name : String
  path : String
deriving DecidableEq, Repr

def nodeEntry (nodes : List WorkflowyNode) (node : WorkflowyNode) : Option NodeEntry :=
  (buildNodePathWithMap node.id nodes).map fun path => { id := node.id, name := node.name, path }

structure OverdueItem extends NodeEntry where
  dueDate : String
  daysOverdue : Int
  completed : Bool
deriving DecidableEq, Repr

structure UpcomingItem extends NodeEntry where
  dueDate : String
  daysUntilDue : Int
  completed : Bool
deriving DecidableEq, Repr

structure ChangeItem extends NodeEntry where
  modifiedAt : Int
  completed : Bool
deriving DecidableEq, Repr

structure TodoItem extends NodeEntry where
  note : Option String
  completed : Bool
  completedAt : Option Int
deriving DecidableEq, Repr

structure ModifiedItem extends NodeEntry where
  modifiedAt : Int
deriving DecidableEq, Repr

section compute
variable (toLowercase : String → String) (isWord isDigit : Char → Bool)

/-- The day on which a node that is not left out was due before today. -/
def overdueSince (today : NaiveDate) (includeCompleted : Bool) (n : WorkflowyNode) :
    Option NaiveDate :=
  if !includeCompleted && isCompleted n then none
  else (parseDueDateFromNode isWord isDigit n).filter (· < today)

def overdueItem (today : NaiveDate) (n : WorkflowyNode) (due : NaiveDate) (e : NodeEntry) :
    OverdueItem :=
  { e with
    dueDate := due.toText
    daysOverdue := today.numDays-due.numDays
    completed := isCompleted n }

def computeOverdue (nodes : List WorkflowyNode) (today : NaiveDate) (includeCompleted : Bool) :
    Option (List OverdueItem) :=
  ((nodes.filterMap fun n =>
      (overdueSince isWord isDigit today includeCompleted n).map fun due => (n,due)).mapM
    fun (n,due) => (nodeEntry nodes n).map (overdueItem today n due)).map
    (sortByKey fun e : OverdueItem => -e.daysOverdue)

/-- The day from today to the horizon on which a node that is not left out is due. -/
def upcomingOn (today horizon : NaiveDate) (includeCompleted : Bool) (n : WorkflowyNode) :
    Option NaiveDate :=
  if !includeCompleted && isCompleted n then none
  else (parseDueDateFromNode isWord isDigit n).filter fun due =>
    !decide (due < today) && !decide (horizon < due)

def upcomingItem (today : NaiveDate) (n : WorkflowyNode) (due : NaiveDate) (e : NodeEntry) :
    UpcomingItem :=
  { e with
    dueDate := due.toText
    daysUntilDue := due.numDays-today.numDays
    completed := isCompleted n }

/-- A horizon that is no date panics. -/
def computeUpcoming (nodes : List WorkflowyNode) (today : NaiveDate) (horizonDays : Int)
    (includeCompleted : Bool) : Option (List UpcomingItem) :=
  (NaiveDate.ofNumDays (today.numDays+horizonDays)).bind fun horizon =>
    ((nodes.filterMap fun n =>
        (upcomingOn isWord isDigit today horizon includeCompleted n).map fun due => (n,due)).mapM
      fun (n,due) => (nodeEntry nodes n).map (upcomingItem today n due)).map
      (sortByKey UpcomingItem.daysUntilDue)

/-- The nodes with a timestamp at or after the cutoff. -/
def changedSince (cutoff : Int) (nodes : List WorkflowyNode) : List (WorkflowyNode × Int) :=
  nodes.filterMap fun n => (n.lastModified.filter fun ts => !decide (ts < cutoff)).map fun ts => (n,ts)

def changeItem (n : WorkflowyNode) (ts : Int) (e : NodeEntry) : ChangeItem :=
  { e with modifiedAt := ts, completed := isCompleted n }

def computeRecentChanges (p : Profile) (nodes : List WorkflowyNode) (nowMs hoursAgo : Int)
    (limit : Nat) : Option (List ChangeItem) :=
  (p.hoursCutoff nowMs hoursAgo).bind fun cutoff =>
    ((changedSince cutoff nodes).mapM fun (n,ts) => (nodeEntry nodes n).map (changeItem n ts)).map
      fun hits => (sortByKey (fun e : ChangeItem => -e.modifiedAt) hits).take limit

def containsLowered (text q : String) : Bool := decide (q.toList <:+: (toLowercase text).toList)

/-- The node is a todo of the status, and the query stands in its name or its description. -/
def todoMatches (status : String) (query : Option String) (n : WorkflowyNode) : Bool :=
  isTodo n && !(status = "pending" && isCompleted n) && !(status = "completed" && !isCompleted n) &&
    (query.map toLowercase).all fun q =>
      containsLowered toLowercase n.name q || n.description.any (containsLowered toLowercase · q)

def todoItem (n : WorkflowyNode) (e : NodeEntry) : TodoItem :=
  { e with note := n.description, completed := isCompleted n, completedAt := n.completedAt }

def filterTodos (nodes : List WorkflowyNode) (status : String) (query : Option String)
    (limit : Nat) : Option (List TodoItem) :=
  ((nodes.filter (todoMatches toLowercase status query)).take limit).mapM fun n =>
    (nodeEntry nodes n).map (todoItem n)

structure ProjectSummaryStats where
  totalNodes : Nat
  todoTotal : Nat
  todoPending : Nat
  todoCompleted : Nat
  completionPercent : Nat
  hasDueDates : Bool
  overdueCount : Nat
deriving DecidableEq, Repr

structure ProjectSummary where
  root : NodeEntry
  stats : ProjectSummaryStats
  recentlyModified : List ModifiedItem
  tags : Option (List (String × Nat))
  assignees : Option (List (String × Nat))
deriving DecidableEq, Repr

/-- The nodes with a timestamp behind the cutoff, newest first. -/
def recentModified (cutoff : Int) (nodes : List WorkflowyNode) : List (WorkflowyNode × Int) :=
  sortByKey (fun x => -x.2)
    (nodes.filterMap fun n => (n.lastModified.filter (cutoff < ·)).map fun ts => (n,ts))

/-- How often each text occurs, by the order of the texts. -/
def counts (xs : List String) : List (String × Nat) :=
  (sortByKey id xs.dedup).map fun x => (x,xs.count x)

/- `percent` is the quotient of two numbers in percent, rounded; it is computed in floating
   point. -/
def computeProjectSummary (percent : Nat → Nat → Nat) (p : Profile) (nodes : List WorkflowyNode)
    (rootId : String) (today : NaiveDate) (nowMs : Int) (includeTags : Bool) (recentDays : Int) :
    Option (Option ProjectSummary) :=
  match nodes.find? fun n => n.id = rootId with
  | none => some none
  | some root => do
    let root ← nodeEntry nodes root
    let cutoff ← p.daysCutoff nowMs recentDays
    let recentlyModified ← ((recentModified cutoff nodes).take 20).mapM fun (n,ts) =>
      (nodeEntry nodes n).map fun e => ({ e with modifiedAt := ts } : ModifiedItem)
    let todoTotal := nodes.countP isTodo
    let todoCompleted := nodes.countP fun n => isTodo n && isCompleted n
    let parsed := nodes.map (parseNodeTags toLowercase isWord)
    return some {
      root
      stats := {
        totalNodes := nodes.length
        todoTotal
        todoPending := todoTotal-todoCompleted
        todoCompleted
        completionPercent := if 0 < todoTotal then percent todoCompleted todoTotal else 0
        hasDueDates := nodes.any fun n => (parseDueDateFromNode isWord isDigit n).isSome
        overdueCount := nodes.countP (isOverdue isWord isDigit · today) }
      recentlyModified
      tags := if includeTags then
        some (counts ((parsed.flatMap ParsedTags.tags).map ("#"++·))) else none
      assignees := if includeTags then
        some (counts ((parsed.flatMap ParsedTags.assignees).map ("@"++·))) else none }

structure DailyReviewSummary where
  totalNodes : Nat
  pendingTodos : Nat
  overdueCount : Nat
  dueToday : Nat
  modifiedToday : Nat
deriving DecidableEq, Repr

structure DailyReview where
  asOf : String
  summary : DailyReviewSummary
  overdue : List OverdueItem
  dueSoon : List UpcomingItem
  recentChanges : List ChangeItem
  topPending : List TodoItem
deriving DecidableEq, Repr

structure ReviewLimits where
  overdue : Nat
  dueSoon : Nat
  recent : Nat
  pending : Nat

def computeDailyReview (p : Profile) (nodes : List WorkflowyNode) (today : NaiveDate)
    (nowMs upcomingDays recentDays : Int) (limits : ReviewLimits) : Option DailyReview := do
  let overdue := (← computeOverdue isWord isDigit nodes today false).take limits.overdue
  let dueSoon := (← computeUpcoming isWord isDigit nodes today upcomingDays false).take limits.dueSoon
  let recentHours ← p.i64 (recentDays*24)
  let recentChanges :=
    (← computeRecentChanges p nodes nowMs recentHours limits.recent).take limits.recent
  let topPending ← filterTodos toLowercase nodes "pending" none limits.pending
  let cutoff ← p.daysCutoff nowMs recentDays
  return {
    asOf := today.toText
    summary := {
      totalNodes := nodes.length
      pendingTodos := nodes.countP fun n => isTodo n && !isCompleted n
      overdueCount := overdue.length
      dueToday := nodes.countP fun n =>
        !isCompleted n && decide (parseDueDateFromNode isWord isDigit n = some today)
      modifiedToday := nodes.countP fun n => n.lastModified.any (cutoff < ·) }
    overdue
    dueSoon
    recentChanges
    topPending }

end compute

section review
variable {toLowercase : String → String} {isWord isDigit : Char → Bool} {p : Profile}
variable {nodes : List WorkflowyNode} {today : NaiveDate} {nowMs upcomingDays recentDays : Int}
variable {limits : ReviewLimits}

/-- No name on the way up is cut inside a character. -/
def Pathed (nodes : List WorkflowyNode) (n : WorkflowyNode) : Prop :=
  (buildNodePathWithMap n.id nodes).isSome

theorem isSome_nodeEntry {β : Type} {n : WorkflowyNode} {item : NodeEntry → β} :
    ((nodeEntry nodes n).map item).isSome ↔ Pathed nodes n := by
  simp [nodeEntry,Pathed]

theorem forall_dated {day : WorkflowyNode → Option NaiveDate} {P : WorkflowyNode → Prop} :
    (∀ x∈nodes.filterMap fun n => (day n).map fun due => (n,due), P x.1) ↔
      ∀ n∈nodes, (day n).isSome → P n := by
  simp only [List.mem_filterMap,Option.map_eq_some_iff]
  constructor
  · intro h n hn hdue
    obtain ⟨due,hdue⟩ := Option.isSome_iff_exists.mp hdue
    exact h (n,due) ⟨n,hn,due,hdue,rfl⟩
  · rintro h _ ⟨n,hn,due,hdue,rfl⟩
    exact h n hn (by simp [hdue])

/-- The cutoff of the recent changes in a window of days. -/
def windowCutoff (p : Profile) (nowMs recentDays : Int) : Option Int :=
  (p.i64 (recentDays*24)).bind (p.hoursCutoff nowMs)

/-- The windows of a review are in range and the nodes that it lists have paths. -/
structure Reviewable (toLowercase : String → String) (isWord isDigit : Char → Bool) (p : Profile)
    (nodes : List WorkflowyNode) (today : NaiveDate) (nowMs upcomingDays recentDays : Int)
    (limits : ReviewLimits) : Prop where
  overdue : ∀ n∈nodes, (overdueSince isWord isDigit today false n).isSome → Pathed nodes n
  dueSoon : ∃ horizon, NaiveDate.ofNumDays (today.numDays+upcomingDays) = some horizon ∧
    ∀ n∈nodes, (upcomingOn isWord isDigit today horizon false n).isSome → Pathed nodes n
  recent : ∃ cutoff, windowCutoff p nowMs recentDays = some cutoff ∧
    ∀ x∈changedSince cutoff nodes, Pathed nodes x.1
  pending : ∀ n∈(nodes.filter (todoMatches toLowercase "pending" none)).take limits.pending,
    Pathed nodes n
  cutoff : (p.daysCutoff nowMs recentDays).isSome

theorem isSome_computeOverdue {includeCompleted : Bool} :
    (computeOverdue isWord isDigit nodes today includeCompleted).isSome ↔
      ∀ n∈nodes, (overdueSince isWord isDigit today includeCompleted n).isSome → Pathed nodes n := by
  rw [computeOverdue,Option.isSome_map,isSome_mapM]
  simp only [isSome_nodeEntry]
  exact forall_dated

theorem isSome_computeUpcoming {horizonDays : Int} {includeCompleted : Bool} :
    (computeUpcoming isWord isDigit nodes today horizonDays includeCompleted).isSome ↔
      ∃ horizon, NaiveDate.ofNumDays (today.numDays+horizonDays) = some horizon ∧
        ∀ n∈nodes, (upcomingOn isWord isDigit today horizon includeCompleted n).isSome →
          Pathed nodes n := by
  rw [computeUpcoming]
  cases NaiveDate.ofNumDays (today.numDays+horizonDays) with
  | none => simp
  | some horizon =>
    rw [Option.bind_some,Option.isSome_map,isSome_mapM]
    simp only [isSome_nodeEntry,Option.some.injEq,exists_eq_left']
    exact forall_dated

theorem isSome_computeRecentChanges {hoursAgo : Int} {limit : Nat} :
    (computeRecentChanges p nodes nowMs hoursAgo limit).isSome ↔
      ∃ cutoff, p.hoursCutoff nowMs hoursAgo = some cutoff ∧
        ∀ x∈changedSince cutoff nodes, Pathed nodes x.1 := by
  rw [computeRecentChanges]
  cases p.hoursCutoff nowMs hoursAgo with
  | none => simp
  | some cutoff =>
    rw [Option.bind_some,Option.isSome_map,isSome_mapM]
    simp only [isSome_nodeEntry,Option.some.injEq,exists_eq_left']

theorem isSome_filterTodos {status : String} {query : Option String} {limit : Nat} :
    (filterTodos toLowercase nodes status query limit).isSome ↔
      ∀ n∈(nodes.filter (todoMatches toLowercase status query)).take limit, Pathed nodes n := by
  rw [filterTodos,isSome_mapM]
  simp only [isSome_nodeEntry]

/-- The parts of a review, each from its own computation. -/
theorem computeDailyReview_eq_some {review : DailyReview} :
    computeDailyReview toLowercase isWord isDigit p nodes today nowMs upcomingDays recentDays limits =
        some review ↔
      ∃ overdue dueSoon hours recentChanges topPending cutoff,
        computeOverdue isWord isDigit nodes today false = some overdue ∧
        computeUpcoming isWord isDigit nodes today upcomingDays false = some dueSoon ∧
        p.i64 (recentDays*24) = some hours ∧
        computeRecentChanges p nodes nowMs hours limits.recent = some recentChanges ∧
        filterTodos toLowercase nodes "pending" none limits.pending = some topPending ∧
        p.daysCutoff nowMs recentDays = some cutoff ∧
        review = {
          asOf := today.toText
          summary := {
            totalNodes := nodes.length
            pendingTodos := nodes.countP fun n => isTodo n && !isCompleted n
            overdueCount := (overdue.take limits.overdue).length
            dueToday := nodes.countP fun n =>
              !isCompleted n && decide (parseDueDateFromNode isWord isDigit n = some today)
            modifiedToday := nodes.countP fun n => n.lastModified.any (cutoff < ·) }
          overdue := overdue.take limits.overdue
          dueSoon := dueSoon.take limits.dueSoon
          recentChanges := recentChanges.take limits.recent
          topPending } := by
  simp only [computeDailyReview,Option.bind_eq_bind,Option.bind_eq_some_iff,Option.pure_def,
    Option.some.injEq,@eq_comm _ _ review]
  constructor
  · rintro ⟨overdue,ho,dueSoon,hd,hours,hh,recent,hr,todos,ht,cutoff,hc,rfl⟩
    exact ⟨overdue,dueSoon,hours,recent,todos,cutoff,ho,hd,hh,hr,ht,hc,rfl⟩
  · rintro ⟨overdue,dueSoon,hours,recent,todos,cutoff,ho,hd,hh,hr,ht,hc,rfl⟩
    exact ⟨overdue,ho,dueSoon,hd,hours,hh,recent,hr,todos,ht,cutoff,hc,rfl⟩

/-- A review is computed where it is reviewable, and nowhere else. -/
theorem isSome_computeDailyReview :
    (computeDailyReview toLowercase isWord isDigit p nodes today nowMs upcomingDays recentDays
        limits).isSome ↔
      Reviewable toLowercase isWord isDigit p nodes today nowMs upcomingDays recentDays limits := by
  rw [Option.isSome_iff_exists]
  simp only [computeDailyReview_eq_some]
  constructor
  · rintro ⟨_,overdue,dueSoon,hours,recent,todos,cutoff,ho,hd,hh,hr,ht,hc,-⟩
    refine ⟨isSome_computeOverdue.mp (by simp [ho]),isSome_computeUpcoming.mp (by simp [hd]),?_,
      isSome_filterTodos.mp (by simp [ht]),by simp [hc]⟩
    obtain ⟨cutoff,hcut,hpaths⟩ := isSome_computeRecentChanges.mp
      (show (computeRecentChanges p nodes nowMs hours limits.recent).isSome by simp [hr])
    exact ⟨cutoff,by rw [windowCutoff,hh,Option.bind_some,hcut],hpaths⟩
  · intro h
    obtain ⟨overdue,ho⟩ := Option.isSome_iff_exists.mp (isSome_computeOverdue.mpr h.overdue)
    obtain ⟨dueSoon,hd⟩ := Option.isSome_iff_exists.mp (isSome_computeUpcoming.mpr h.dueSoon)
    obtain ⟨todos,ht⟩ := Option.isSome_iff_exists.mp (isSome_filterTodos.mpr h.pending)
    obtain ⟨days,hc⟩ := Option.isSome_iff_exists.mp h.cutoff
    obtain ⟨cutoff,hcut,hpaths⟩ := h.recent
    obtain ⟨hours,hh,hcut⟩ := Option.bind_eq_some_iff.mp hcut
    obtain ⟨recent,hr⟩ := Option.isSome_iff_exists.mp
      (show (computeRecentChanges p nodes nowMs hours limits.recent).isSome from
        isSome_computeRecentChanges.mpr ⟨cutoff,hcut,hpaths⟩)
    exact ⟨_,overdue,dueSoon,hours,recent,todos,days,ho,hd,hh,hr,ht,hc,rfl⟩

theorem isOverdue_eq (n : WorkflowyNode) :
    isOverdue isWord isDigit n today = (overdueSince isWord isDigit today false n).isSome := by
  unfold isOverdue overdueSince isCompleted
  by_cases hc : n.completedAt.isSome
  · simp [hc]
  · simp only [hc]
    cases parseDueDateFromNode isWord isDigit n <;> simp [Option.filter]
    split <;> simp_all

/-- The whole list has an item for each overdue node. -/
theorem length_computeOverdue {full : List OverdueItem}
    (h : computeOverdue isWord isDigit nodes today false = some full) :
    full.length = nodes.countP (isOverdue isWord isDigit · today) := by
  obtain ⟨items,hitems,rfl⟩ := Option.map_eq_some_iff.mp h
  rw [(sortByKey_perm items).length_eq,length_of_mapM hitems]
  have hcount : ∀ ns : List WorkflowyNode, (ns.filterMap fun n =>
      (overdueSince isWord isDigit today false n).map fun due => (n,due)).length =
      ns.countP (isOverdue isWord isDigit · today) := by
    intro ns
    induction ns with
    | nil => rfl
    | cons n ns ih =>
      rw [List.countP_cons,isOverdue_eq,List.filterMap_cons]
      cases overdueSince isWord isDigit today false n <;> simp [ih]
  exact hcount nodes

/-- The review counts the overdue nodes of the whole walk, as the project summary does, and lists
the first of them. -/
structure OverdueRight (toLowercase : String → String) (isWord isDigit : Char → Bool)
    (nodes : List WorkflowyNode) (today : NaiveDate) (limits : ReviewLimits) (review : DailyReview) :
    Prop where
  counted : review.summary.overdueCount = nodes.countP (isOverdue isWord isDigit · today)
  listed : ∃ full, computeOverdue isWord isDigit nodes today false = some full ∧
    review.summary.overdueCount = full.length ∧ review.overdue = full.take limits.overdue
  summary : ∀ percent p rootId nowMs includeTags recentDays summary,
    computeProjectSummary toLowercase isWord isDigit percent p nodes rootId today nowMs includeTags
        recentDays = some (some summary) →
      summary.stats.overdueCount = review.summary.overdueCount

theorem overdueCount_summary {percent : Nat → Nat → Nat} {rootId : String} {includeTags : Bool}
    {summary : ProjectSummary}
    (h : computeProjectSummary toLowercase isWord isDigit percent p nodes rootId today nowMs
      includeTags recentDays = some (some summary)) :
    summary.stats.overdueCount = nodes.countP (isOverdue isWord isDigit · today) := by
  unfold computeProjectSummary at h
  split at h
  · simp at h
  · simp only [Option.bind_eq_bind,Option.bind_eq_some_iff,Option.pure_def,Option.some.injEq] at h
    obtain ⟨root,-,cutoff,-,recent,-,rfl⟩ := h
    rfl

/-- The count of a review is right if and only if it was not cut off at the limit of the list. -/
theorem overdue_count_iff (toLowercase : String → String) (isWord isDigit : Char → Bool)
    (p : Profile) (nodes : List WorkflowyNode) (today : NaiveDate)
    (nowMs upcomingDays recentDays : Int) (limits : ReviewLimits) :
    (∃ review, computeDailyReview toLowercase isWord isDigit p nodes today nowMs upcomingDays
        recentDays limits = some review ∧
      OverdueRight toLowercase isWord isDigit nodes today limits review) ↔
    Reviewable toLowercase isWord isDigit p nodes today nowMs upcomingDays recentDays limits ∧
      nodes.countP (isOverdue isWord isDigit · today) ≤ limits.overdue := by
  rw [← isSome_computeDailyReview]
  constructor
  · rintro ⟨review,hreview,hright⟩
    refine ⟨by simp [hreview],?_⟩
    obtain ⟨overdue,_,_,_,_,_,ho,-,-,-,-,-,rfl⟩ := computeDailyReview_eq_some.mp hreview
    rw [← hright.counted]
    exact List.length_take_le _ _
  · rintro ⟨hsome,hle⟩
    obtain ⟨review,hreview⟩ := Option.isSome_iff_exists.mp hsome
    refine ⟨review,hreview,?_⟩
    obtain ⟨overdue,_,_,_,_,_,ho,-,-,-,-,-,rfl⟩ := computeDailyReview_eq_some.mp hreview
    have hlen := length_computeOverdue ho
    have hcount : (overdue.take limits.overdue).length =
        nodes.countP (isOverdue isWord isDigit · today) := by
      rw [List.length_take,hlen,Nat.min_eq_right hle]
    exact ⟨hcount,⟨overdue,ho,hcount.trans hlen.symm,rfl⟩,fun _ _ _ _ _ _ _ h =>
      (overdueCount_summary h).trans hcount.symm⟩

end review

/-- A day of the year 2026. -/
def marchDay : NaiveDate := ⟨Calendar.dayNumber 2026 3 20,by decide⟩

/-- Two nodes are overdue and the list is cut to one of them. -/
def twoOverdue : List WorkflowyNode :=
  [{ id := "a", name := "pay due:2026-03-01" },{ id := "b", name := "call due:2026-03-02" }]

theorem overdue_undercounted :
    let limits : ReviewLimits := { overdue := 1, dueSoon := 20, recent := 20, pending := 20 }
    let review := computeDailyReview asciiLowercase asciiWord Char.isDigit .dev twoOverdue marchDay
      0 7 1 limits
    review.map (·.summary.overdueCount) = some 1 ∧
      (computeOverdue asciiWord Char.isDigit twoOverdue marchDay false).map List.length = some 2 ∧
      ∀ r∈review, ¬OverdueRight asciiLowercase asciiWord Char.isDigit twoOverdue marchDay limits r := by
  intro limits review
  have hone : review.map (·.summary.overdueCount) = some 1 := by decide +kernel
  have htwo : (computeOverdue asciiWord Char.isDigit twoOverdue marchDay false).map List.length =
      some 2 := by decide +kernel
  refine ⟨hone,htwo,fun r hr h => ?_⟩
  obtain ⟨full,hfull,hcount,-⟩ := h.listed
  rw [Option.mem_def.mp hr] at hone
  rw [hfull] at htwo
  have hr : r.summary.overdueCount = 1 := by simpa using hone
  have hfull : full.length = 2 := by simpa using htwo
  omega

end Aggregation
end WorkflowyMcp
