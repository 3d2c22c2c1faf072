import WorkflowyMcp.ToolCalls

/-! The health of each tool as `workflowy_status` reads it off the log. -/
namespace WorkflowyMcp

structure ToolHealth where
  total : Nat
  ok : Nat
  err : Nat
  status : String
deriving DecidableEq, Repr

/-- The rate of successes against three quarters and one half. -/
def toolHealth (ok err : Nat) : ToolHealth where
  total := ok+err
  ok := ok
  err := err
  status :=
    if 3*(ok+err) ≤ 4*ok then "healthy" else if ok+err ≤ 2*ok then "degraded" else "failing"

def tally (byTool : KeyMap String (Nat×Nat)) (e : OpLogEntry) : KeyMap String (Nat×Nat) :=
  let counts := (byTool.lookup e.tool).getD (0,0)
  byTool.insert e.tool <| match e.status with
    | .Ok => (counts.1+1,counts.2)
    | .Err => (counts.1,counts.2+1)

def perToolHealth (log : OpLog) : KeyMap String ToolHealth :=
  KeyMap.mapValues (fun counts => toolHealth counts.1 counts.2) <|
    (log.recent 200 none).foldl tally ∅

/-- The status of a tool in the `paths` of `workflowy_status`. -/
def pathStatus (log : OpLog) (tool : String) : String :=
  (((perToolHealth log).lookup tool).map (·.status)).getD "untested"

section health
variable (tool : String)

def succeeded (entries : List OpLogEntry) : Nat :=
  entries.countP fun e => e.tool = tool ∧ e.status = .Ok

def errored (entries : List OpLogEntry) : Nat :=
  entries.countP fun e => e.tool = tool ∧ e.status = .Err

variable {tool}

theorem countP_tool (entries : List OpLogEntry) :
    entries.countP (·.tool = tool) = succeeded tool entries+errored tool entries := by
  induction entries with
  | nil => rfl
  | cons e entries ih =>
    simp only [succeeded,errored,List.countP_cons,ih]
    cases hs : e.status <;> by_cases he : e.tool = tool <;> simp [he] <;> omega

theorem getD_tally (byTool : KeyMap String (Nat×Nat)) (entries : List OpLogEntry) :
    ((entries.foldl tally byTool).lookup tool).getD (0,0) =
      (((byTool.lookup tool).getD (0,0)).1+succeeded tool entries,
        ((byTool.lookup tool).getD (0,0)).2+errored tool entries) := by
  induction entries generalizing byTool with
  | nil => rfl
  | cons e entries ih =>
    rw [List.foldl_cons,ih]
    by_cases he : e.tool = tool
    · subst he
      cases hs : e.status <;> simp [tally,hs,succeeded,errored] <;> omega
    · have hne : ¬tool = e.tool := fun h => he h.symm
      simp [tally,he,hne,succeeded,errored]

theorem isSome_tally (byTool : KeyMap String (Nat×Nat)) (entries : List OpLogEntry) :
    ((entries.foldl tally byTool).lookup tool).isSome =
      ((byTool.lookup tool).isSome || entries.any (·.tool = tool)) := by
  induction entries generalizing byTool with
  | nil => simp
  | cons e entries ih =>
    rw [List.foldl_cons,ih]
    by_cases he : e.tool = tool
    · simp [tally,he]
    · have hne : ¬tool = e.tool := fun h => he h.symm
      simp [tally,he,hne]

theorem lookup_perToolHealth (log : OpLog) : (perToolHealth log).lookup tool =
    if (log.recent 200 none).any (·.tool = tool) then
      some (toolHealth (succeeded tool (log.recent 200 none)) (errored tool (log.recent 200 none)))
    else none := by
  have hcounts := @getD_tally tool ∅ (log.recent 200 none)
  have hsome := @isSome_tally tool ∅ (log.recent 200 none)
  rw [perToolHealth,KeyMap.lookup_mapValues]
  cases hlook : ((log.recent 200 none).foldl tally ∅).lookup tool with
  | none =>
    rw [hlook] at hsome
    simp only [Option.isSome_none,AList.lookup_empty,Bool.false_or] at hsome
    simp [← hsome]
  | some counts =>
    rw [hlook] at hsome hcounts
    simp only [Option.isSome_some,AList.lookup_empty,Option.isSome_none,Bool.false_or] at hsome
    simp only [Option.getD_some,AList.lookup_empty,Option.getD_none,Nat.zero_add] at hcounts
    simp [← hsome,hcounts]

/-- The newest entries of the log are the last calls that returned. -/
theorem recent_run {T : Type} [DecidableEq T] (errorText : String → WorkflowyError → String)
    (es : List (CallEvent T)) {limit : Nat} (hlimit : limit ≤ 1024) :
    (Runs.run (CallServer.step errorText) .new es).calls.opLog.recent limit none =
      ((Runs.outputs (CallServer.step errorText) (CallServer.returned errorText) .new
        es).reverse).take limit := by
  have hentries := CallServer.entries_run errorText es
  have hall (entries : List OpLogEntry) :
      (entries.filter fun e => (none : Option Nat).all (· ≤ e.finishedAtUnixMs)) = entries :=
    List.filter_eq_self.mpr fun _ _ => rfl
  rw [OpLog.recent,hall,hentries,← List.take_reverse,List.take_take,Nat.min_eq_left hlimit]

/-- In every interleaving the status of a tool is that of its calls among the last 200 that
returned: none of them, at least three quarters a success, at least half, or less. -/
theorem pathStatus_run {T : Type} [DecidableEq T]
    (errorText : String → WorkflowyError → String) (es : List (CallEvent T)) (tool : String) :
    let last := ((Runs.outputs (CallServer.step errorText) (CallServer.returned errorText) .new
      es).reverse).take 200
    let ok := succeeded tool last
    let total := last.countP (·.tool = tool)
    pathStatus (Runs.run (CallServer.step errorText) .new es).calls.opLog tool =
      if total = 0 then "untested" else if 3*total ≤ 4*ok then "healthy"
      else if total ≤ 2*ok then "degraded" else "failing" := by
  intro last ok total
  have htotal : total = ok+errored tool last := countP_tool last
  have hany : last.any (·.tool = tool) = decide (total≠0) := by
    rw [Bool.eq_iff_iff]
    simp [total,List.countP_eq_zero]
  rw [pathStatus,lookup_perToolHealth,recent_run errorText es (by decide)]
  change ((if last.any (·.tool = tool) then some (toolHealth ok (errored tool last)) else none).map
    (·.status)).getD "untested" = _
  rw [hany]
  by_cases hzero : total = 0
  · simp [hzero]
  · rw [if_neg hzero,if_pos (by simpa using hzero),htotal]
    rfl

end health

end WorkflowyMcp
