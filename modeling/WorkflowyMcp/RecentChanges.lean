import WorkflowyMcp.Aggregation
import WorkflowyMcp.Lib.Selection
import WorkflowyMcp.NameIndex

/-! The readers of `last_modified`: which nodes they take for modified in a window, and which of
them are left when the completed ones are not wanted. -/
namespace WorkflowyMcp

/-- The cutoff is in seconds, as the timestamps are. -/
def NameIndex.entriesModifiedSince (idx : NameIndex) (sinceSecs : Int) : List NameIndexEntry :=
  idx.entries.filter fun e => e.lastModified.any (sinceSecs ≤ ·)

namespace Aggregation
open NodePaths Html

structure GetRecentChangesParams where
  days : Option Nat := none
  includeCompleted : Option Bool := none
  limit : Option Nat := none

structure RecentChanges where
  since : String
  count : Nat
  changes : List ChangeItem
deriving DecidableEq, Repr

/-- `days as i64` -/
def GetRecentChangesParams.window (params : GetRecentChangesParams) : Int :=
  ((params.days.getD 7 : Nat) : Int).bmod (2^64)

/-- The payload, from the nodes that the walk has fetched. -/
def getRecentChanges (p : Profile) (nodes : List WorkflowyNode) (today : NaiveDate) (nowMs : Int)
    (params : GetRecentChangesParams) : Option RecentChanges := do
  let days := params.window
  let since ← NaiveDate.ofNumDays (today.numDays-days)
  let hours ← p.i64 (days*24)
  let items ← computeRecentChanges p nodes nowMs hours (params.limit.getD 50)
  let changes :=
    if params.includeCompleted.getD true then items else items.filter fun e => !e.completed
  return { since := since.toText, count := changes.length, changes }

structure SinceReply where
  nodeId : String
  name : String
  lastModifiedUnixMs : Int
  thresholdUnixMs : Int
  changedSince : Bool
deriving DecidableEq, Repr

/-- The payload, from the node that was fetched. -/
def since (isWord : Char → Bool) (resolved : String) (node : WorkflowyNode) (timestampUnixMs : Int) :
    SinceReply :=
  let lastModified := node.lastModified.getD 0
  { nodeId := resolved
    name := renderDisplay isWord node.name
    lastModifiedUnixMs := lastModified
    thresholdUnixMs := timestampUnixMs
    changedSince := decide (timestampUnixMs ≤ lastModified) }

variable {p : Profile} {nodes : List WorkflowyNode} {nowMs hoursAgo : Int} {limit : Nat}

/-- The entry of a node with its timestamp. -/
def shown (nodes : List WorkflowyNode) (x : WorkflowyNode × Int) : ChangeItem :=
  changeItem x.1 x.2
    { id := x.1.id, name := x.1.name, path := (buildNodePathWithMap x.1.id nodes).getD "" }

/-- The nodes of the window, newest first. -/
def newestSince (cutoff : Int) (nodes : List WorkflowyNode) : List (WorkflowyNode × Int) :=
  sortByKey (fun x => -x.2) (changedSince cutoff nodes)

theorem mem_changedSince {cutoff : Int} {n : WorkflowyNode} {ts : Int} :
    (n,ts)∈changedSince cutoff nodes ↔ n∈nodes ∧ n.lastModified = some ts ∧ cutoff≤ts := by
  simp only [changedSince,List.mem_filterMap,Option.map_eq_some_iff,Option.filter_eq_some_iff,
    Prod.mk.injEq,Bool.not_eq_true',decide_eq_false_iff_not,Int.not_lt]
  constructor
  · rintro ⟨m,hm,t,⟨ht,hle⟩,rfl,rfl⟩
    exact ⟨hm,ht,hle⟩
  · rintro ⟨hn,ht,hle⟩
    exact ⟨n,hn,ts,⟨ht,hle⟩,rfl,rfl⟩

theorem mem_newestSince {cutoff : Int} {x : WorkflowyNode × Int} :
    x∈newestSince cutoff nodes ↔ x∈changedSince cutoff nodes :=
  (sortByKey_perm _).mem_iff

theorem computeRecentChanges_eq_some {hits : List ChangeItem} :
    computeRecentChanges p nodes nowMs hoursAgo limit = some hits ↔
      ∃ cutoff, p.hoursCutoff nowMs hoursAgo = some cutoff ∧
        (∀ x∈changedSince cutoff nodes, Pathed nodes x.1) ∧
        hits = ((newestSince cutoff nodes).take limit).map (shown nodes) := by
  have hshown (items : List ChangeItem) (cutoff : Int)
      (h : ((changedSince cutoff nodes).mapM fun x =>
        (nodeEntry nodes x.1).map (changeItem x.1 x.2)) = some items) :
      items = (changedSince cutoff nodes).map (shown nodes) := by
    have hmap := map_of_mapM h (k := id) (g := shown nodes) fun x b hb => by
      obtain ⟨e,he,rfl⟩ := Option.map_eq_some_iff.mp hb
      obtain ⟨path,hpath,rfl⟩ := Option.map_eq_some_iff.mp he
      simp [shown,hpath]
    simpa using hmap
  have hsort (cutoff : Int) : (sortByKey (fun e : ChangeItem => -e.modifiedAt)
      ((changedSince cutoff nodes).map (shown nodes))) =
      (newestSince cutoff nodes).map (shown nodes) := sortByKey_map _ _
  constructor
  · intro h
    obtain ⟨cutoff,hcut,hpaths⟩ := isSome_computeRecentChanges.mp
      (show (computeRecentChanges p nodes nowMs hoursAgo limit).isSome by simp [h])
    refine ⟨cutoff,hcut,hpaths,?_⟩
    rw [computeRecentChanges,hcut,Option.bind_some] at h
    obtain ⟨items,hitems,rfl⟩ := Option.map_eq_some_iff.mp h
    rw [hshown items cutoff hitems,hsort,List.map_take]
  · rintro ⟨cutoff,hcut,hpaths,rfl⟩
    have hsome : ((changedSince cutoff nodes).mapM fun x =>
        (nodeEntry nodes x.1).map (changeItem x.1 x.2)).isSome :=
      isSome_mapM.mpr fun x hx => isSome_nodeEntry.mpr (hpaths x hx)
    obtain ⟨items,hitems⟩ := Option.isSome_iff_exists.mp hsome
    rw [computeRecentChanges,hcut,Option.bind_some,hitems,Option.map_some,hshown items cutoff hitems,
      hsort,List.map_take]

theorem changedSince_filter (q : WorkflowyNode → Bool) (cutoff : Int) :
    changedSince cutoff (nodes.filter q) = (changedSince cutoff nodes).filter fun x => q x.1 := by
  rw [changedSince,changedSince,List.filterMap_filter,List.filter_filterMap]
  refine List.filterMap_congr fun n _ => ?_
  cases n.lastModified.filter fun ts => !decide (ts < cutoff) <;> cases hq : q n <;>
    simp [hq,Option.filter]

/-- The incomplete nodes of the window, newest first, and the first of them only. -/
structure IncompleteNewest (nodes : List WorkflowyNode) (cutoff : Int) (limit : Nat)
    (r : RecentChanges) : Prop where
  changes : r.changes.map (fun e => (e.id,e.modifiedAt)) =
    ((newestSince cutoff (nodes.filter (!isCompleted ·))).take limit).map fun x => (x.1.id,x.2)
  incomplete : ∀ e∈r.changes, e.completed = false
  newest : r.changes.Pairwise fun a b => b.modifiedAt≤a.modifiedAt

/-- No completed node is among the newest of the window, or no incomplete node comes behind
these. -/
def Undisplaced (nodes : List WorkflowyNode) (cutoff : Int) (limit : Nat) : Prop :=
  (∀ x∈(newestSince cutoff nodes).take limit, isCompleted x.1 = false) ∨
    ∀ x∈(newestSince cutoff nodes).drop limit, isCompleted x.1 = true

/-- The window is in range and its nodes have paths. -/
structure Listable (p : Profile) (nodes : List WorkflowyNode) (today : NaiveDate) (nowMs : Int)
    (params : GetRecentChangesParams) (cutoff : Int) : Prop where
  since : (NaiveDate.ofNumDays (today.numDays-params.window)).isSome
  inWindow : windowCutoff p nowMs params.window = some cutoff
  paths : ∀ x∈changedSince cutoff nodes, Pathed nodes x.1

theorem getRecentChanges_eq_some {today : NaiveDate} {params : GetRecentChangesParams}
    {r : RecentChanges} :
    getRecentChanges p nodes today nowMs params = some r ↔
      ∃ cutoff sinceDate, Listable p nodes today nowMs params cutoff ∧
        NaiveDate.ofNumDays (today.numDays-params.window) = some sinceDate ∧
        let items := ((newestSince cutoff nodes).take (params.limit.getD 50)).map (shown nodes)
        let changes :=
          if params.includeCompleted.getD true then items else items.filter fun e => !e.completed
        r = { since := sinceDate.toText, count := changes.length, changes } := by
  simp only [getRecentChanges,Option.bind_eq_bind,Option.bind_eq_some_iff,Option.pure_def,
    Option.some.injEq,computeRecentChanges_eq_some]
  constructor
  · rintro ⟨sinceDate,hs,hours,hh,_,⟨cutoff,hcut,hpaths,rfl⟩,rfl⟩
    exact ⟨cutoff,sinceDate,⟨by simp [hs],by rw [windowCutoff,hh,Option.bind_some,hcut],hpaths⟩,
      hs,rfl⟩
  · rintro ⟨cutoff,sinceDate,h,hs,rfl⟩
    obtain ⟨hours,hh,hcut⟩ := Option.bind_eq_some_iff.mp h.inWindow
    exact ⟨sinceDate,hs,hours,hh,_,⟨cutoff,hcut,h.paths,rfl⟩,rfl⟩

theorem newest_pairwise (cutoff : Int) :
    (newestSince cutoff nodes).Pairwise fun a b => b.2≤a.2 :=
  (sortByKey_sorted _).imp fun {a b} (h : -a.2≤-b.2) => by omega

/-- Without the completed nodes the newest ones of the window are listed if and only if the
completed ones took no place. -/
theorem recent_incomplete_iff (p : Profile) (nodes : List WorkflowyNode) (today : NaiveDate)
    (nowMs : Int) (days limit : Option Nat) :
    let params : GetRecentChangesParams := { days, includeCompleted := some false, limit }
    (∃ cutoff r, windowCutoff p nowMs params.window = some cutoff ∧
      getRecentChanges p nodes today nowMs params = some r ∧
      IncompleteNewest nodes cutoff (limit.getD 50) r) ↔
    ∃ cutoff, Listable p nodes today nowMs params cutoff ∧
      Undisplaced nodes cutoff (limit.getD 50) := by
  intro params
  have hspec (cutoff : Int) : newestSince cutoff (nodes.filter (!isCompleted ·)) =
      (newestSince cutoff nodes).filter fun x => !isCompleted x.1 := by
    rw [newestSince,changedSince_filter,sortByKey_filter,newestSince]
  have hitems (l : List (WorkflowyNode × Int)) :
      (l.map (shown nodes)).filter (fun e => !e.completed) =
        (l.filter fun x => !isCompleted x.1).map (shown nodes) := List.filter_map
  have hcut (cutoff : Int) : ((newestSince cutoff nodes).take (limit.getD 50)).filter
      (fun x => !isCompleted x.1) = ((newestSince cutoff nodes).filter
        fun x => !isCompleted x.1).take (limit.getD 50) ↔
      Undisplaced nodes cutoff (limit.getD 50) := by
    rw [take_filter_iff,Undisplaced]
    simp
  constructor
  · rintro ⟨cutoff,r,hc,hr,h⟩
    obtain ⟨cutoff',sinceDate,hl,hs,rfl⟩ := getRecentChanges_eq_some.mp hr
    obtain rfl : cutoff' = cutoff := Option.some.inj (hl.inWindow.symm.trans hc)
    refine ⟨cutoff',hl,(hcut cutoff').mp ?_⟩
    -- both lists start the same one, so they are told apart by their lengths
    have hchanges := congrArg List.length h.changes
    simp only [params,Option.getD_some,Bool.false_eq_true,if_false,hitems,hspec,
      List.length_map] at hchanges
    have hleft := (List.take_prefix (limit.getD 50) (newestSince cutoff' nodes)).filter
      fun x => !isCompleted x.1
    exact (List.prefix_of_prefix_length_le hleft (List.take_prefix _ _) hchanges.le).eq_of_length
      hchanges
  · rintro ⟨cutoff,hl,hun⟩
    obtain ⟨sinceDate,hs⟩ := Option.isSome_iff_exists.mp hl.since
    refine ⟨cutoff,_,hl.inWindow,getRecentChanges_eq_some.mpr ⟨cutoff,sinceDate,hl,hs,rfl⟩,?_⟩
    simp only [params,Option.getD_some,Bool.false_eq_true,if_false,hitems]
    refine ⟨?_,fun e he => ?_,?_⟩
    · rw [(hcut cutoff).mpr hun,← hspec,List.map_map]
      rfl
    · obtain ⟨x,hx,rfl⟩ := List.mem_map.mp he
      have hopen : isCompleted x.1 = false := by simpa using (List.mem_filter.mp hx).2
      exact hopen
    · exact List.pairwise_map.mpr (((newest_pairwise cutoff).take).filter _)

/-- A node that was completed later than the open one was changed; both in epoch seconds. -/
def doneAndOpen : List WorkflowyNode :=
  [{ id := "open", name := "call", lastModified := some 1772300000 },
    { id := "done", name := "pay", lastModified := some 1772305834, completedAt := some 1772305834 }]

theorem open_displaced :
    let r := getRecentChanges .dev doneAndOpen marchDay 1773964800000
      { days := some 36500, includeCompleted := some false, limit := some 1 }
    windowCutoff .dev 1773964800000 36500 = some (-1379635200000) ∧
      r.map RecentChanges.changes = some [] ∧
      ((newestSince (-1379635200000) (doneAndOpen.filter (!isCompleted ·))).take 1).map
        (fun x => x.1.id) = ["open"] ∧
      ∀ r'∈r, ¬IncompleteNewest doneAndOpen (-1379635200000) 1 r' := by
  intro r
  have hempty : r.map RecentChanges.changes = some [] := by decide +kernel
  have hopen : ((newestSince (-1379635200000) (doneAndOpen.filter (!isCompleted ·))).take 1).map
      (fun x => x.1.id) = ["open"] := by decide +kernel
  refine ⟨by decide,hempty,hopen,fun r' hr h => ?_⟩
  rw [Option.mem_def.mp hr] at hempty
  have hlen := congrArg List.length h.changes
  have hlen' := congrArg List.length hopen
  have hnone : r'.changes = [] := by simpa using hempty
  simp only [List.length_map,hnone,List.length_nil] at hlen hlen'
  simp [← hlen] at hlen'

/-- The timestamps of the nodes are epoch seconds. -/
def EpochSeconds (nodes : List WorkflowyNode) : Prop :=
  ∀ n∈nodes, ∀ ts∈n.lastModified, 0≤ts

/-- A timestamp in seconds is at or after a cutoff in milliseconds. -/
def modifiedSince (cutoffMs : Int) (lastModified : Option Int) : Bool :=
  lastModified.any fun ts => cutoffMs≤1000*ts

/-- A cutoff in milliseconds in whole seconds, rounded up. -/
def cutoffSecs (cutoffMs : Int) : Int := -(-cutoffMs/1000)

/-- The index compares seconds with seconds. -/
theorem mem_entriesModifiedSince {idx : NameIndex} {cutoffMs : Int} {e : NameIndexEntry} :
    e∈idx.entriesModifiedSince (cutoffSecs cutoffMs) ↔
      e∈idx.entries ∧ modifiedSince cutoffMs e.lastModified = true := by
  rw [NameIndex.entriesModifiedSince,List.mem_filter,and_congr_right_iff]
  intro _
  cases e.lastModified with
  | none => simp [modifiedSince]
  | some ts =>
    have hsecs : cutoffSecs cutoffMs≤ts ↔ cutoffMs≤1000*ts := by
      rw [cutoffSecs]
      omega
    simpa [modifiedSince] using hsecs

section units
variable {today : NaiveDate} {recentDays : Int}

/-- The recent changes hold the nodes that were modified in the window. -/
def RecentInSeconds (p : Profile) (nodes : List WorkflowyNode) (nowMs hoursAgo : Int) : Prop :=
  ∃ cutoff hits, p.hoursCutoff nowMs hoursAgo = some cutoff ∧
    computeRecentChanges p nodes nowMs hoursAgo nodes.length = some hits ∧
    ∀ n∈nodes, (∃ e∈hits, e.id = n.id) ↔ modifiedSince cutoff n.lastModified = true

/-- So does the list of the project summary before it is cut to twenty. -/
def SummaryInSeconds (p : Profile) (nodes : List WorkflowyNode) (nowMs recentDays : Int) : Prop :=
  ∃ cutoff, p.daysCutoff nowMs recentDays = some cutoff ∧
    ∀ n∈nodes, (∃ x∈recentModified cutoff nodes, x.1 = n) ↔
      modifiedSince cutoff n.lastModified = true

/-- The review counts them. -/
def ReviewInSeconds (toLowercase : String → String) (isWord isDigit : Char → Bool) (p : Profile)
    (nodes : List WorkflowyNode) (today : NaiveDate) (nowMs upcomingDays recentDays : Int)
    (limits : ReviewLimits) : Prop :=
  ∃ cutoff review, p.daysCutoff nowMs recentDays = some cutoff ∧
    computeDailyReview toLowercase isWord isDigit p nodes today nowMs upcomingDays recentDays limits =
      some review ∧
    review.summary.modifiedToday = nodes.countP fun n => modifiedSince cutoff n.lastModified

/-- No timestamp is before the cutoff only because it is in seconds. -/
def NoneMisread (cutoff : Int) (nodes : List WorkflowyNode) : Prop :=
  ∀ n∈nodes, ∀ ts∈n.lastModified, cutoff≤1000*ts → cutoff≤ts

/-- The same for the readers that leave out the cutoff itself. -/
def NoneMisreadStrictly (cutoff : Int) (nodes : List WorkflowyNode) : Prop :=
  ∀ n∈nodes, ∀ ts∈n.lastModified, cutoff≤1000*ts → cutoff < ts

/-- A reader of milliseconds lists no timestamp in seconds too many, so it is right about a node
unless it misreads its timestamp. -/
theorem reads_iff {reads : Int → Prop} {cutoff : Int} {lastModified : Option Int}
    (hpos : ∀ ts∈lastModified, 0≤ts) (hreads : ∀ ts, 0≤ts → reads ts → cutoff≤1000*ts) :
    ((∃ ts∈lastModified, reads ts) ↔ modifiedSince cutoff lastModified = true) ↔
      ∀ ts∈lastModified, cutoff≤1000*ts → reads ts := by
  cases lastModified with
  | none => simp [modifiedSince]
  | some ts =>
    simp only [Option.mem_def,Option.some.injEq,exists_eq_left',modifiedSince,Option.any_some,
      decide_eq_true_eq,forall_eq']
    exact ⟨Iff.mpr,fun h => ⟨hreads ts (hpos ts rfl),h⟩⟩

theorem recentInSeconds_iff (hn : (nodes.map WorkflowyNode.id).Nodup) (ht : EpochSeconds nodes) :
    RecentInSeconds p nodes nowMs hoursAgo ↔ ∃ cutoff, p.hoursCutoff nowMs hoursAgo = some cutoff ∧
      (∀ x∈changedSince cutoff nodes, Pathed nodes x.1) ∧ NoneMisread cutoff nodes := by
  have hlisted (cutoff : Int) {n : WorkflowyNode} (hmem : n∈nodes) :
      (∃ e∈((newestSince cutoff nodes).take nodes.length).map (shown nodes), e.id = n.id) ↔
        ∃ ts∈n.lastModified, cutoff≤ts := by
    have hall : (newestSince cutoff nodes).take nodes.length = newestSince cutoff nodes := by
      refine List.take_of_length_le ?_
      rw [newestSince,(sortByKey_perm _).length_eq]
      exact List.length_filterMap_le _ _
    rw [hall]
    simp only [List.mem_map,mem_newestSince]
    constructor
    · rintro ⟨_,⟨⟨m,ts⟩,hx,rfl⟩,hid⟩
      obtain ⟨hm,hts,hle⟩ := mem_changedSince.mp hx
      obtain rfl : m = n := List.inj_on_of_nodup_map hn hm hmem hid
      exact ⟨ts,hts,hle⟩
    · rintro ⟨ts,hts,hle⟩
      exact ⟨_,⟨(n,ts),mem_changedSince.mpr ⟨hmem,hts,hle⟩,rfl⟩,rfl⟩
  have hread (cutoff : Int) : (∀ n∈nodes, (∃ ts∈n.lastModified, cutoff≤ts) ↔
      modifiedSince cutoff n.lastModified = true) ↔ NoneMisread cutoff nodes := by
    exact forall₂_congr fun n hmem => reads_iff (ht n hmem) fun ts _ _ => by omega
  constructor
  · rintro ⟨cutoff,hits,hc,hhits,h⟩
    obtain ⟨cutoff',hc',hpaths,rfl⟩ := computeRecentChanges_eq_some.mp hhits
    obtain rfl : cutoff' = cutoff := Option.some.inj (hc'.symm.trans hc)
    exact ⟨cutoff',hc,hpaths,(hread cutoff').mp fun n hmem =>
      (hlisted cutoff' hmem).symm.trans (h n hmem)⟩
  · rintro ⟨cutoff,hc,hpaths,h⟩
    exact ⟨cutoff,_,hc,computeRecentChanges_eq_some.mpr ⟨cutoff,hc,hpaths,rfl⟩,fun n hmem =>
      (hlisted cutoff hmem).trans ((hread cutoff).mpr h n hmem)⟩

theorem summaryInSeconds_iff (ht : EpochSeconds nodes) :
    SummaryInSeconds p nodes nowMs recentDays ↔ ∃ cutoff, p.daysCutoff nowMs recentDays = some cutoff ∧
      NoneMisreadStrictly cutoff nodes := by
  refine exists_congr fun cutoff => and_congr_right fun _ => forall₂_congr fun n hmem => ?_
  have hlisted : (∃ x∈recentModified cutoff nodes, x.1 = n) ↔ ∃ ts∈n.lastModified, cutoff < ts := by
    simp only [recentModified,(sortByKey_perm _).mem_iff,List.mem_filterMap,Option.map_eq_some_iff,
      Option.filter_eq_some_iff,decide_eq_true_eq]
    constructor
    · rintro ⟨_,⟨m,-,ts,⟨hts,hlt⟩,rfl⟩,rfl⟩
      exact ⟨ts,hts,hlt⟩
    · rintro ⟨ts,hts,hlt⟩
      exact ⟨(n,ts),⟨n,hmem,ts,⟨hts,hlt⟩,rfl⟩,rfl⟩
  rw [hlisted]
  exact reads_iff (ht n hmem) fun ts _ _ => by omega

theorem reviewInSeconds_iff {toLowercase : String → String} {isWord isDigit : Char → Bool}
    {upcomingDays : Int} {limits : ReviewLimits} (ht : EpochSeconds nodes) :
    ReviewInSeconds toLowercase isWord isDigit p nodes today nowMs upcomingDays recentDays limits ↔
      Reviewable toLowercase isWord isDigit p nodes today nowMs upcomingDays recentDays limits ∧
        ∃ cutoff, p.daysCutoff nowMs recentDays = some cutoff ∧ NoneMisreadStrictly cutoff nodes := by
  have hread (cutoff : Int) : (nodes.countP fun n => n.lastModified.any (cutoff < ·)) =
      (nodes.countP fun n => modifiedSince cutoff n.lastModified) ↔
        NoneMisreadStrictly cutoff nodes := by
    rw [countP_eq_iff]
    · refine forall₂_congr fun n _ => ?_
      cases n.lastModified <;> simp [modifiedSince]
    · intro n hmem
      cases hts : n.lastModified with
      | none => simp
      | some ts =>
        have hpos := ht n hmem ts hts
        simp only [modifiedSince,Option.any_some,decide_eq_true_iff]
        omega
  rw [← isSome_computeDailyReview]
  constructor
  · rintro ⟨cutoff,review,hc,hreview,hcount⟩
    refine ⟨by simp [hreview],cutoff,hc,?_⟩
    obtain ⟨_,_,_,_,_,cutoff',-,-,-,-,-,hc',rfl⟩ := computeDailyReview_eq_some.mp hreview
    obtain rfl : cutoff' = cutoff := Option.some.inj (hc'.symm.trans hc)
    exact (hread cutoff').mp hcount
  · rintro ⟨hsome,cutoff,hc,h⟩
    obtain ⟨review,hreview⟩ := Option.isSome_iff_exists.mp hsome
    refine ⟨cutoff,review,hc,hreview,?_⟩
    obtain ⟨_,_,_,_,_,cutoff',-,-,-,-,-,hc',rfl⟩ := computeDailyReview_eq_some.mp hreview
    obtain rfl : cutoff' = cutoff := Option.some.inj (hc'.symm.trans hc)
    exact (hread cutoff').mpr h

theorem since_iff {isWord : Char → Bool} {resolved : String} {node : WorkflowyNode}
    {timestampUnixMs : Int} (ht : EpochSeconds [node]) :
    ((since isWord resolved node timestampUnixMs).changedSince = true ↔
        modifiedSince timestampUnixMs node.lastModified = true) ↔
      NoneMisread timestampUnixMs [node] ∧ (node.lastModified = none → 0 < timestampUnixMs) := by
  simp only [since,NoneMisread,List.forall_mem_singleton,decide_eq_true_iff]
  cases hts : node.lastModified with
  | none => simp [modifiedSince]
  | some ts =>
    have hpos := ht node (by simp) ts hts
    simp only [Option.getD_some,modifiedSince,Option.any_some,decide_eq_true_iff,Option.mem_def,
      Option.some.injEq,forall_eq',reduceCtorEq,false_imp_iff,and_true]
    omega

/-- What the summary shows of its recent nodes are the first twenty of them. -/
theorem summary_recent {toLowercase : String → String} {isWord isDigit : Char → Bool}
    {percent : Nat → Nat → Nat} {rootId : String} {includeTags : Bool} {summary : ProjectSummary}
    (h : computeProjectSummary toLowercase isWord isDigit percent p nodes rootId today nowMs
      includeTags recentDays = some (some summary)) :
    ∃ cutoff, p.daysCutoff nowMs recentDays = some cutoff ∧
      summary.recentlyModified.map (fun e => (e.id,e.modifiedAt)) =
        ((recentModified cutoff nodes).take 20).map fun x => (x.1.id,x.2) := by
  unfold computeProjectSummary at h
  split at h
  · simp at h
  · simp only [Option.bind_eq_bind,Option.bind_eq_some_iff,Option.pure_def,Option.some.injEq] at h
    obtain ⟨root,-,cutoff,hc,recent,hrecent,rfl⟩ := h
    refine ⟨cutoff,hc,map_of_mapM hrecent fun x e he => ?_⟩
    obtain ⟨_,hentry,rfl⟩ := Option.map_eq_some_iff.mp he
    obtain ⟨path,-,rfl⟩ := Option.map_eq_some_iff.mp hentry
    rfl

end units

/-- With timestamps in seconds each reader of them with a cutoff in milliseconds takes the nodes
of the window if and only if none of them is misread; the index compares in seconds, and always
does. -/
theorem in_seconds_iff (toLowercase : String → String) (isWord isDigit : Char → Bool) (p : Profile)
    (nodes : List WorkflowyNode) (today : NaiveDate) (nowMs hoursAgo upcomingDays recentDays : Int)
    (limits : ReviewLimits) (hn : (nodes.map WorkflowyNode.id).Nodup) (ht : EpochSeconds nodes) :
    (RecentInSeconds p nodes nowMs hoursAgo ↔ ∃ cutoff, p.hoursCutoff nowMs hoursAgo = some cutoff ∧
      (∀ x∈changedSince cutoff nodes, Pathed nodes x.1) ∧ NoneMisread cutoff nodes) ∧
    (SummaryInSeconds p nodes nowMs recentDays ↔ ∃ cutoff,
      p.daysCutoff nowMs recentDays = some cutoff ∧ NoneMisreadStrictly cutoff nodes) ∧
    (∀ percent rootId includeTags summary, computeProjectSummary toLowercase isWord isDigit percent p
        nodes rootId today nowMs includeTags recentDays = some (some summary) →
      ∃ cutoff, p.daysCutoff nowMs recentDays = some cutoff ∧
        summary.recentlyModified.map (fun e => (e.id,e.modifiedAt)) =
          ((recentModified cutoff nodes).take 20).map fun x => (x.1.id,x.2)) ∧
    (ReviewInSeconds toLowercase isWord isDigit p nodes today nowMs upcomingDays recentDays limits ↔
      Reviewable toLowercase isWord isDigit p nodes today nowMs upcomingDays recentDays limits ∧
        ∃ cutoff, p.daysCutoff nowMs recentDays = some cutoff ∧ NoneMisreadStrictly cutoff nodes) ∧
    (∀ (idx : NameIndex) (cutoffMs : Int) (e : NameIndexEntry),
      e∈idx.entriesModifiedSince (cutoffSecs cutoffMs) ↔
        e∈idx.entries ∧ modifiedSince cutoffMs e.lastModified = true) ∧
    ∀ n∈nodes, ∀ timestampUnixMs,
      ((since isWord n.id n timestampUnixMs).changedSince = true ↔
          modifiedSince timestampUnixMs n.lastModified = true) ↔
        NoneMisread timestampUnixMs [n] ∧ (n.lastModified = none → 0 < timestampUnixMs) :=
  ⟨recentInSeconds_iff hn ht,summaryInSeconds_iff ht,fun _ _ _ _ h => summary_recent h,
    reviewInSeconds_iff ht,fun _ _ _ => mem_entriesModifiedSince,fun n hmem _ =>
      since_iff (by simpa [EpochSeconds] using ht n hmem)⟩

def firstOfApril : NaiveDate := ⟨Calendar.dayNumber 2026 4 1,by decide⟩

/-- One node from the March of 2026 and one from the January of 1970. -/
def farApart : List WorkflowyNode :=
  [{ id := "a", name := "call", lastModified := some 1773970200 },
    { id := "b", name := "first", lastModified := some 1000000 }]

/-- The first of the two is in a window of fifty-six years, and the second is not: each reader says
so. -/
theorem farApart_told :
    RecentInSeconds .release farApart 1775001600000 492720 ∧
      SummaryInSeconds .release farApart 1775001600000 20530 ∧
      ReviewInSeconds asciiLowercase asciiWord Char.isDigit .release farApart firstOfApril
        1775001600000 7 20530 { overdue := 10, dueSoon := 20, recent := 20, pending := 20 } := by
  obtain ⟨hrecent,hsummary,-,hreview,-⟩ := in_seconds_iff asciiLowercase asciiWord Char.isDigit
    .release farApart firstOfApril 1775001600000 492720 7 20530
    { overdue := 10, dueSoon := 20, recent := 20, pending := 20 } (by decide)
    (by simp [EpochSeconds,farApart])
  have hread : NoneMisread 1209600000 farApart := by simp [NoneMisread,farApart]
  have hstrict : NoneMisreadStrictly 1209600000 farApart := by simp [NoneMisreadStrictly,farApart]
  have hpathed : ∀ x∈changedSince 1209600000 farApart, Pathed farApart x.1 := by
    unfold Pathed
    decide +kernel
  refine ⟨hrecent.mpr ⟨_,by decide,hpathed,hread⟩,hsummary.mpr ⟨_,by decide,hstrict⟩,
    hreview.mpr ⟨?_,_,by decide,hstrict⟩⟩
  exact isSome_computeDailyReview.mp (by decide +kernel)

/-- A node that was modified at half past one in the night to the twentieth of March 2026. -/
def nightly : List WorkflowyNode :=
  [{ id := "a", name := "call", lastModified := some 1773970200 }]

/-- An hour later each reader in milliseconds misses it, and the index finds it. -/
theorem nightly_missed :
    let n : WorkflowyNode := { id := "a", name := "call", lastModified := some 1773970200 }
    computeRecentChanges .release nightly 1773973800000 24 50 = some [] ∧
      ¬RecentInSeconds .release nightly 1773973800000 24 ∧
      recentModified 1773887400000 nightly = [] ∧
      modifiedSince 1773887400000 n.lastModified = true ∧
      (since asciiWord "a" n 1773887400000).changedSince = false ∧
      (NameIndex.ingest asciiLowercase {} nightly).entriesModifiedSince (cutoffSecs 1773887400000) =
        [.ofNode n] := by
  refine ⟨by decide +kernel,?_,by decide +kernel,by decide,by decide,by decide +kernel⟩
  rintro ⟨cutoff,hits,hc,hhits,h⟩
  have hcut : Profile.hoursCutoff .release 1773973800000 24 = some 1773887400000 := by decide
  have hnone : computeRecentChanges .release nightly 1773973800000 24 nightly.length = some [] := by
    decide +kernel
  obtain rfl := Option.some.inj (hcut.symm.trans hc)
  obtain rfl := Option.some.inj (hnone.symm.trans hhits)
  simp [nightly,modifiedSince] at h

end Aggregation
end WorkflowyMcp
