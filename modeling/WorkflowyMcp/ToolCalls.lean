import WorkflowyMcp.OpLog
import WorkflowyMcp.Previews

/-! Tool calls side by side on one server: a call is entered in the log when it returns, its walks
are counted while they run, and `cancel_all` reaches the calls and the walks that are running. -/
namespace WorkflowyMcp

namespace OpLog

def MAX_ERROR_LEN : Nat := 512

/-- The largest char boundary at or below a cut. -/
def cutBelow (err : String) : Nat → Nat
  | 0 => 0
  | cut+1 => if NodePaths.IsCharBoundary err (cut+1) then cut+1 else cutBelow err cut

/-- The error text of an entry; `none` where the slice would panic. -/
def truncatedError (err : String) : Option String :=
  if MAX_ERROR_LEN < err.utf8ByteSize then
    (NodePaths.sliceTo err (cutBelow err MAX_ERROR_LEN)).map (·++"…[truncated]")
  else some err

theorem cutBelow_le (err : String) (cut : Nat) : cutBelow err cut ≤ cut := by
  induction cut with
  | zero => exact le_refl _
  | succ cut ih =>
    unfold cutBelow
    split <;> omega

theorem boundary_cutBelow (err : String) (cut : Nat) :
    NodePaths.IsCharBoundary err (cutBelow err cut) := by
  induction cut with
  | zero => exact ⟨[],err.toList,rfl,rfl⟩
  | succ cut ih =>
    unfold cutBelow
    split
    · assumption
    · exact ih

theorem le_cutBelow {err : String} {cut m : Nat} (hm : NodePaths.IsCharBoundary err m)
    (hle : m ≤ cut) : m ≤ cutBelow err cut := by
  induction cut with
  | zero => exact hle
  | succ cut ih =>
    unfold cutBelow
    split
    · exact hle
    · next hno =>
      have hne : m≠cut+1 := by
        rintro rfl
        exact hno hm
      exact ih (by omega)

/-- Below every byte of a text, at most three bytes away, a character starts. -/
theorem exists_boundary {cs : List Char} {n : Nat} (h : n ≤ (String.ofList cs).utf8ByteSize) :
    ∃ m, NodePaths.IsCharBoundary (String.ofList cs) m ∧ m ≤ n ∧ n < m+4 := by
  induction cs generalizing n with
  | nil =>
    have hn : n = 0 := by simpa using h
    exact ⟨0,⟨[],[],rfl,rfl⟩,by omega,by omega⟩
  | cons c cs ih =>
    have hc := c.utf8Size_le_four
    by_cases hn : n < c.utf8Size
    · exact ⟨0,⟨[],c::cs,by simp,rfl⟩,by omega,by omega⟩
    · have hsize : (String.ofList (c::cs)).utf8ByteSize =
          c.utf8Size+(String.ofList cs).utf8ByteSize := by simp [utf8ByteSize_ofList]
      obtain ⟨m,⟨u,v,huv,hu⟩,hle,hlt⟩ := ih (n := n-c.utf8Size) (by omega)
      refine ⟨c.utf8Size+m,⟨c::u,v,?_,?_⟩,by omega,by omega⟩
      · have huv : cs = u++v := by simpa using huv
        simp [huv]
      · rw [← hu]
        simp [utf8ByteSize_ofList]

/-- A recorded error is the whole text, or the longest start of it within 512 bytes that cuts no
character, which lacks at most three of them. -/
theorem truncatedError_cuts (err : String) : ∃ out, truncatedError err = some out ∧
    if err.utf8ByteSize ≤ MAX_ERROR_LEN then out = err
    else ∃ p : String, p.toList <+: err.toList ∧ MAX_ERROR_LEN < p.utf8ByteSize+4 ∧
      p.utf8ByteSize ≤ MAX_ERROR_LEN ∧
      (∀ q : String, q.toList <+: err.toList → q.utf8ByteSize ≤ MAX_ERROR_LEN →
        q.utf8ByteSize ≤ p.utf8ByteSize) ∧ out = p++"…[truncated]" := by
  by_cases hlen : err.utf8ByteSize ≤ MAX_ERROR_LEN
  · exact ⟨err,by rw [truncatedError,if_neg (Nat.not_lt.mpr hlen)],by rw [if_pos hlen]⟩
  · obtain ⟨p,hp⟩ := Option.isSome_iff_exists.mp
      (NodePaths.isSome_sliceTo.mpr (boundary_cutBelow err MAX_ERROR_LEN))
    obtain ⟨hpre,hsize⟩ := NodePaths.sliceTo_eq_some.mp hp
    have hover : MAX_ERROR_LEN ≤ (String.ofList err.toList).utf8ByteSize := by
      rw [String.ofList_toList]
      omega
    obtain ⟨m,hm,hle,hlt⟩ := exists_boundary hover
    rw [String.ofList_toList] at hm
    have hlow := le_cutBelow hm hle
    have hhigh := cutBelow_le err MAX_ERROR_LEN
    refine ⟨p++"…[truncated]",?_,?_⟩
    · rw [truncatedError,if_pos (Nat.not_le.mp hlen),hp,Option.map_some]
    · rw [if_neg hlen]
      refine ⟨p,hpre,by omega,by omega,fun q hq hfits => ?_,rfl⟩
      have hcut : NodePaths.IsCharBoundary err q.utf8ByteSize :=
        NodePaths.isSome_sliceTo.mp (NodePaths.sliceTo_eq_some.mpr ⟨hq,rfl⟩ ▸ rfl)
      exact hsize ▸ le_cutBelow hcut hfits

end OpLog

/-- The counter is an atomic 64-bit integer. -/
structure CancelRegistry where
  generation : Nat

namespace CancelRegistry

def new : CancelRegistry := ⟨0⟩

/-- A guard is the generation it was taken in. -/
def guard (r : CancelRegistry) : Nat := r.generation

def cancelAll (r : CancelRegistry) : CancelRegistry := ⟨(r.generation+1)%2^64⟩

def isCancelled (r : CancelRegistry) (snapshot : Nat) : Bool := r.generation ≠ snapshot

end CancelRegistry

/-- A call between its start and its return. Calls under `record_op!` carry no guard; every walk
carries its own. -/
structure OpenCall (G : Type) where
  tool : String
  paramsHash : String
  started : Nat
  guard : Option G
  walks : List G

/-- How the body of a call ends: well, with a result marked as an error, or with an error. -/
inductive Outcome where
  | ok
  | isError (summary : String)
  | err (text : String)

inductive CallEvent (T : Type) where
  | begin (t : T) (tool paramsHash : String) (handled : Bool) (now : Nat)
  | enterWalk (t : T)
  | leaveWalk (t : T) (i : Nat)
  | poll (t : T) (now : Nat)
  | deadline (t : T) (now : Nat)
  | returns (t : T) (outcome : Outcome) (now : Nat)
  | abandon (t : T)
  | cancelAll

/-- The call that an event is about. -/
def CallEvent.call {T : Type} : CallEvent T → Option T
  | .begin t .. | .enterWalk t | .leaveWalk t .. | .poll t .. | .deadline t .. | .returns t ..
  | .abandon t => some t
  | .cancelAll => none

structure Calls (T G : Type) where
  running : KeyMap T (OpenCall G)
  inFlightWalks : Nat
  opLog : OpLog

namespace Calls
variable {T G : Type} [DecidableEq T]

def new : Calls T G := ⟨∅,0,.withCapacity 1024⟩

/-- `fetch_add` and `fetch_sub` on a 64-bit counter. -/
def fetchAdd (n : Nat) : Nat := (n+1)%2^64

def fetchSub (n : Nat) : Nat := (n+(2^64-1))%2^64

/-- The future of a call goes, and with it the guards of its walks. -/
def release (s : Calls T G) (t : T) (call : OpenCall G) : Calls T G :=
  { s with running := s.running.erase t,
           inFlightWalks := fetchSub^[call.walks.length] s.inFlightWalks }

/-- Times in nanoseconds, entered in milliseconds. -/
def unixMs (t : Nat) : Nat := t/10^6%2^64

def entry (call : OpenCall G) (finished : Nat) (outcome : Outcome) : OpLogEntry where
  tool := call.tool
  paramsHash := call.paramsHash
  startedAtUnixMs := unixMs call.started
  finishedAtUnixMs := unixMs finished
  durationMs := unixMs (finished-call.started)
  status := match outcome with
    | .ok => .Ok
    | .isError _ | .err _ => .Err
  error := match outcome with
    | .ok => none
    | .isError text | .err text => OpLog.truncatedError text

def finish (s : Calls T G) (t : T) (call : OpenCall G) (finished : Nat) (outcome : Outcome) :
    Calls T G :=
  { s.release t call with opLog := s.opLog.append (entry call finished outcome) }

/-- What the calls do between two `cancel_all`: new guards are `fresh`, and `isCancelled` reads
one. `errorText` is the text of the error a tool answers. -/
def act (fresh : G) (isCancelled : G → Bool) (errorText : String → WorkflowyError → String)
    (s : Calls T G) : CallEvent T → Calls T G
  | .begin t tool paramsHash handled now =>
    match s.running.lookup t with
    | some _ => s
    | none =>
      let guard := if handled then some fresh else none
      { s with running := s.running.insert t ⟨tool,paramsHash,now,guard,[]⟩ }
  | .enterWalk t =>
    match s.running.lookup t with
    | none => s
    | some call => { s with
        running := s.running.insert t { call with walks := fresh::call.walks },
        inFlightWalks := fetchAdd s.inFlightWalks }
  | .leaveWalk t i =>
    match s.running.lookup t with
    | none => s
    | some call =>
      if i<call.walks.length then { s with
        running := s.running.insert t { call with walks := call.walks.eraseIdx i },
        inFlightWalks := fetchSub s.inFlightWalks }
      else s
  | .poll t now =>
    match s.running.lookup t with
    | none => s
    | some call =>
      if call.guard.any isCancelled then
        s.finish t call now (.err (errorText call.tool .Cancelled))
      else s
  | .deadline t now =>
    match s.running.lookup t with
    | none => s
    | some call =>
      if call.guard.isSome then s.finish t call now (.err (errorText call.tool .Timeout)) else s
  | .returns t outcome now =>
    match s.running.lookup t with
    | none => s
    | some call => s.finish t call now outcome
  | .abandon t =>
    match s.running.lookup t with
    | none => s
    | some call => s.release t call
  | .cancelAll => s

/-- The entry that an event makes in the log. -/
def returned (isCancelled : G → Bool) (errorText : String → WorkflowyError → String)
    (s : Calls T G) : CallEvent T → Option OpLogEntry
  | .poll t now => (s.running.lookup t).bind fun call =>
    if call.guard.any isCancelled then
      some (entry call now (.err (errorText call.tool .Cancelled)))
    else none
  | .deadline t now => (s.running.lookup t).bind fun call =>
    if call.guard.isSome then some (entry call now (.err (errorText call.tool .Timeout))) else none
  | .returns t outcome now => (s.running.lookup t).map fun call => entry call now outcome
  | .begin .. | .enterWalk .. | .leaveWalk .. | .abandon .. | .cancelAll => none

/-- What a call begins with. -/
structure Begun (T : Type) where
  t : T
  tool : String
  paramsHash : String
  started : Nat

/-- How a call ends: it returns and is entered in the log, or its future is dropped. -/
inductive Ending where
  | returned (entry : OpLogEntry)
  | abandoned

def Ending.entry : Ending → Option OpLogEntry
  | .returned entry => some entry
  | .abandoned => none

/-- The call that an event begins. -/
def begun (s : Calls T G) : CallEvent T → Option (Begun T)
  | .begin t tool paramsHash _ now =>
    if (s.running.lookup t).isSome then none else some ⟨t,tool,paramsHash,now⟩
  | _ => none

/-- The end that an event makes of a call. -/
def ends (isCancelled : G → Bool) (errorText : String → WorkflowyError → String)
    (s : Calls T G) : CallEvent T → Option Ending
  | .abandon t => (s.running.lookup t).map fun _ => .abandoned
  | e => (s.returned isCancelled errorText e).map .returned

end Calls

def classifyDegradedKind (apiReachable : Bool) (probeError : Option String)
    (inFlightWalks : Nat) : Option String :=
  let err := probeError.getD ""
  if apiReachable then none
  else if containsLower err "429" || containsLower err "rate limit" then some "rate_limited"
  else if containsLower err "401" || containsLower err "403" || containsLower err "unauthor" then
    some "auth"
  else if containsLower err "cancelled" then some "cancelled"
  else if containsLower err "timeout" || containsLower err "timed out" then
    if 0 < inFlightWalks then some "local_queue_wedged" else some "upstream_unreachable"
  else some "upstream_error"

/-- The server: guards are generations of its registry. -/
structure CallServer (T : Type) where
  registry : CancelRegistry
  calls : Calls T Nat

namespace CallServer
variable {T : Type} [DecidableEq T]

def new : CallServer T := ⟨.new,.new⟩

def step (errorText : String → WorkflowyError → String) (s : CallServer T) :
    CallEvent T → CallServer T
  | .cancelAll => { s with registry := s.registry.cancelAll }
  | e => { s with calls := s.calls.act s.registry.guard s.registry.isCancelled errorText e }

end CallServer

namespace Calls
variable {T G : Type} [DecidableEq T]

/-- A running call as it began. -/
def asBegun (t : T) (call : OpenCall G) : Begun T := ⟨t,call.tool,call.paramsHash,call.started⟩

/-- All that an event on a call can do, with what it begins and how it ends a call. -/
inductive Acted (fresh : G) (s : Calls T G) :
    Option T → Option (Begun T) → Option Ending → Calls T G → Prop
  | idle (about : Option T) : Acted fresh s about none none s
  | opened (t : T) (call : OpenCall G) (hnew : s.running.lookup t = none)
      (hguard : ∀ g∈call.guard, g = fresh) (hwalks : call.walks = []) :
      Acted fresh s (some t) (some (asBegun t call)) none
        { s with running := s.running.insert t call }
  | entered (t : T) (call : OpenCall G) (hopen : s.running.lookup t = some call) :
      Acted fresh s (some t) none none { s with
        running := s.running.insert t { call with walks := fresh::call.walks },
        inFlightWalks := fetchAdd s.inFlightWalks }
  | left (t : T) (call : OpenCall G) (i : Nat) (hopen : s.running.lookup t = some call)
      (hi : i<call.walks.length) :
      Acted fresh s (some t) none none { s with
        running := s.running.insert t { call with walks := call.walks.eraseIdx i },
        inFlightWalks := fetchSub s.inFlightWalks }
  | finished (t : T) (call : OpenCall G) (now : Nat) (outcome : Outcome)
      (hopen : s.running.lookup t = some call) :
      Acted fresh s (some t) none (some (.returned (entry call now outcome)))
        (s.finish t call now outcome)
  | abandoned (t : T) (call : OpenCall G) (hopen : s.running.lookup t = some call) :
      Acted fresh s (some t) none (some .abandoned) (s.release t call)

section act
variable {fresh : G} {isCancelled : G → Bool} {errorText : String → WorkflowyError → String}
  {s : Calls T G}

theorem acted (e : CallEvent T) : Acted fresh s e.call (s.begun e)
    (s.ends isCancelled errorText e) (s.act fresh isCancelled errorText e) := by
  cases e with
  | begin t tool paramsHash handled now =>
    cases hopen : s.running.lookup t with
    | some call => simpa [act,begun,ends,returned,CallEvent.call,hopen] using Acted.idle (some t)
    | none =>
      have hguard : ∀ g∈(if handled then some fresh else none), g = fresh := by
        cases handled <;> simp [eq_comm]
      simpa [act,begun,ends,returned,CallEvent.call,asBegun,hopen] using
        Acted.opened t ⟨tool,paramsHash,now,if handled then some fresh else none,[]⟩ hopen hguard
          rfl
  | enterWalk t =>
    cases hopen : s.running.lookup t with
    | none => simpa [act,begun,ends,returned,CallEvent.call,hopen] using Acted.idle (some t)
    | some call =>
      simpa [act,begun,ends,returned,CallEvent.call,hopen] using Acted.entered t call hopen
  | leaveWalk t i =>
    cases hopen : s.running.lookup t with
    | none => simpa [act,begun,ends,returned,CallEvent.call,hopen] using Acted.idle (some t)
    | some call =>
      by_cases hi : i<call.walks.length
      · simpa [act,begun,ends,returned,CallEvent.call,hopen,hi] using Acted.left t call i hopen hi
      · simpa [act,begun,ends,returned,CallEvent.call,hopen,hi] using Acted.idle (some t)
  | poll t now =>
    cases hopen : s.running.lookup t with
    | none => simpa [act,begun,ends,returned,CallEvent.call,hopen] using Acted.idle (some t)
    | some call =>
      by_cases hc : call.guard.any isCancelled
      · simpa [act,begun,ends,returned,CallEvent.call,hopen,hc] using
          Acted.finished t call now _ hopen
      · simpa [act,begun,ends,returned,CallEvent.call,hopen,hc] using Acted.idle (some t)
  | deadline t now =>
    cases hopen : s.running.lookup t with
    | none => simpa [act,begun,ends,returned,CallEvent.call,hopen] using Acted.idle (some t)
    | some call =>
      by_cases hg : call.guard.isSome
      · simpa [act,begun,ends,returned,CallEvent.call,hopen,hg] using
          Acted.finished t call now _ hopen
      · simpa [act,begun,ends,returned,CallEvent.call,hopen,hg] using Acted.idle (some t)
  | returns t outcome now =>
    cases hopen : s.running.lookup t with
    | none => simpa [act,begun,ends,returned,CallEvent.call,hopen] using Acted.idle (some t)
    | some call =>
      simpa [act,begun,ends,returned,CallEvent.call,hopen] using
        Acted.finished t call now outcome hopen
  | abandon t =>
    cases hopen : s.running.lookup t with
    | none => simpa [act,begun,ends,returned,CallEvent.call,hopen] using Acted.idle (some t)
    | some call =>
      simpa [act,begun,ends,returned,CallEvent.call,hopen] using Acted.abandoned t call hopen
  | cancelAll => exact .idle none

end act

theorem returned_eq {isCancelled : G → Bool} {errorText : String → WorkflowyError → String}
    (s : Calls T G) (e : CallEvent T) :
    s.returned isCancelled errorText e = (s.ends isCancelled errorText e).bind Ending.entry := by
  have hmap (r : Option OpLogEntry) : r = (r.map Ending.returned).bind Ending.entry := by
    cases r <;> rfl
  cases e with
  | abandon t => simp only [returned,ends]; cases s.running.lookup t <;> rfl
  | begin | enterWalk | leaveWalk | poll | deadline | returns | cancelAll => exact hmap _

/-- An end of a call that began so: the entry names its tool, its parameters and its start. -/
def Ending.Of (b : Begun T) : Ending → Prop
  | .returned entry => entry.tool = b.tool ∧ entry.paramsHash = b.paramsHash ∧
    entry.startedAtUnixMs = unixMs b.started
  | .abandoned => True

def walksHeld (s : Calls T G) : Nat := KeyMap.total (fun call => call.walks.length) s.running

/-- The counter is the number of walks held, as far as 64 bits go. -/
def Counted (s : Calls T G) : Prop := s.inFlightWalks = s.walksHeld%2^64

theorem fetchAdd_mod (w : Nat) : fetchAdd (w%2^64) = (w+1)%2^64 := by
  unfold fetchAdd
  omega

theorem fetchSub_mod {w : Nat} (h : 0 < w) : fetchSub (w%2^64) = (w-1)%2^64 := by
  unfold fetchSub
  omega

theorem fetchSub_iterate {w k : Nat} (hk : k ≤ w) : fetchSub^[k] (w%2^64) = (w-k)%2^64 := by
  induction k with
  | zero => rfl
  | succ k ih =>
    rw [Function.iterate_succ_apply',ih (by omega),fetchSub_mod (by omega),Nat.sub_sub]

section acted
variable {fresh : G} {s s' : Calls T G} {about : Option T} {opens : Option (Begun T)}
  {closes : Option Ending}

theorem Counted.release (hc : s.Counted) {t : T} {call : OpenCall G}
    (hopen : s.running.lookup t = some call) : (s.release t call).Counted := by
  have htotal := KeyMap.total_of_lookup (fun call => call.walks.length) hopen
  simp only [Counted,walksHeld,Calls.release] at hc htotal ⊢
  rw [hc,fetchSub_iterate (by omega)]
  congr 1
  omega

/-- No event miscounts the walks. -/
theorem Acted.counted (h : Acted fresh s about opens closes s') (hc : s.Counted) :
    s'.Counted := by
  cases h with
  | idle => exact hc
  | opened t call hnew hguard hwalks =>
    simp only [Counted,walksHeld,KeyMap.total_insert,KeyMap.erase_of_lookup hnew,hwalks,
      List.length_nil,Nat.zero_add]
    exact hc
  | entered t call hopen =>
    have htotal := KeyMap.total_of_lookup (fun call => call.walks.length) hopen
    simp only [Counted,walksHeld,KeyMap.total_insert,List.length_cons] at hc htotal ⊢
    rw [hc,fetchAdd_mod]
    congr 1
    omega
  | left t call i hopen hi =>
    have htotal := KeyMap.total_of_lookup (fun call => call.walks.length) hopen
    simp only [Counted,walksHeld,KeyMap.total_insert,List.length_eraseIdx_of_lt hi] at hc htotal ⊢
    rw [hc,fetchSub_mod (by omega)]
    congr 1
    omega
  | finished t call now outcome hopen => exact hc.release hopen
  | abandoned t call hopen => exact hc.release hopen

theorem Acted.log (h : Acted fresh s about opens closes s') :
    s'.opLog = Runs.run OpLog.append s.opLog (closes.bind Ending.entry).toList := by
  cases h <;> rfl

end acted

end Calls

namespace CallServer
variable {T : Type} [DecidableEq T] (errorText : String → WorkflowyError → String)

theorem step_calls (s : CallServer T) (e : CallEvent T) : (s.step errorText e).calls =
    s.calls.act s.registry.guard s.registry.isCancelled errorText e := by
  cases e <;> rfl

def returned (s : CallServer T) (e : CallEvent T) : Option OpLogEntry :=
  s.calls.returned s.registry.isCancelled errorText e

def begun (s : CallServer T) (e : CallEvent T) : Option (Calls.Begun T) := s.calls.begun e

def ends (s : CallServer T) (e : CallEvent T) : Option Calls.Ending :=
  s.calls.ends s.registry.isCancelled errorText e

/-- What an event does to the calls. -/
theorem acted (s : CallServer T) (e : CallEvent T) : Calls.Acted s.registry.guard s.calls e.call
    (s.begun e) (s.ends errorText e) (s.step errorText e).calls :=
  step_calls errorText s e ▸ Calls.acted e

/-- How the call under a key ends: the first event on it that ends a call ends this one. -/
def fate (t : T) : CallServer T → List (CallEvent T) → Option Calls.Ending
  | _, [] => none
  | s, e::es =>
    if e.call = some t then (s.ends errorText e).or (fate t (s.step errorText e) es)
    else fate t (s.step errorText e) es

/-- The calls that begin in a run, in order, each with its end if it has one. -/
def callsMade : CallServer T → List (CallEvent T) → List (Calls.Begun T × Option Calls.Ending)
  | _, [] => []
  | s, e::es =>
    (s.begun e).toList.map (fun b => (b,fate errorText b.t (s.step errorText e) es))++
      callsMade (s.step errorText e) es

theorem counted_run (es : List (CallEvent T)) :
    (Runs.run (step errorText) new es).calls.Counted := by
  have hnew : (new : CallServer T).calls.Counted := rfl
  refine Runs.run_keeps (I := fun s : CallServer T => s.calls.Counted) (fun s e hc => ?_) hnew es
  exact (acted errorText s e).counted hc

/-- The log is written by the calls that return and by nothing else. -/
theorem log_run (es : List (CallEvent T)) : (Runs.run (step errorText) new es).calls.opLog =
    Runs.run OpLog.append (.withCapacity 1024)
      (Runs.outputs (step errorText) (returned errorText) new es) := by
  have hstep (s : CallServer T) (e : CallEvent T) : (step errorText s e).calls.opLog =
      Runs.run OpLog.append s.calls.opLog (returned errorText s e).toList := by
    rw [returned,Calls.returned_eq]
    exact (acted errorText s e).log
  exact Runs.part_run (fun s : CallServer T => s.calls.opLog) hstep new es

/-- In every interleaving the counter is the number of walks that running calls hold, and a probe
that timed out is put down to a wedged local queue only while some call holds one. -/
theorem walks_counted (es : List (CallEvent T)) (probeError : Option String) :
    let s := Runs.run (step errorText) new es
    s.calls.inFlightWalks = s.calls.walksHeld%2^64 ∧
      (classifyDegradedKind false probeError s.calls.inFlightWalks = some "local_queue_wedged" →
        ∃ t call, s.calls.running.lookup t = some call ∧ call.walks≠[]) := by
  intro s
  have hcount : s.calls.inFlightWalks = s.calls.walksHeld%2^64 := counted_run errorText es
  refine ⟨hcount,fun hwedged => ?_⟩
  have hpos : 0 < s.calls.inFlightWalks := by
    by_contra hzero
    simp only [classifyDegradedKind,if_neg hzero] at hwedged
    grind
  have hheld : s.calls.walksHeld≠0 := by
    intro hzero
    rw [hcount,hzero] at hpos
    exact absurd hpos (by decide)
  by_contra hnone
  refine hheld (List.sum_eq_zero fun n hn => ?_)
  obtain ⟨call,hcall,rfl⟩ := List.mem_map.mp hn
  obtain ⟨t,ht⟩ := KeyMap.mem_values.mp hcall
  by_contra hwalks
  exact hnone ⟨t,call,ht,fun hnil => hwalks (by rw [hnil]; rfl)⟩

theorem entries_run (es : List (CallEvent T)) :
    let log := Runs.outputs (step errorText) (returned errorText) new es
    (Runs.run (step errorText) new es).calls.opLog.entries = log.drop (log.length-1024) := by
  intro log
  simpa using (log_run errorText es ▸ OpLog.entries_run 1024 log).2

/-- The calls that are running and those that begin later, each with its end if it has one. -/
def told (s : CallServer T) (es : List (CallEvent T)) :
    List (Calls.Begun T × Option Calls.Ending) :=
  (s.calls.running.entries.map fun c => (Calls.asBegun c.1 c.2,fate errorText c.1 s es))++
    callsMade errorText s es

variable {errorText} {s : CallServer T} {e : CallEvent T} {es : List (CallEvent T)}

theorem fate_cons_of_none (h : s.ends errorText e = none) (t : T) :
    fate errorText t s (e::es) = fate errorText t (s.step errorText e) es := by
  simp [fate,h]

theorem fate_cons_of_ne {t : T} (h : e.call≠some t) :
    fate errorText t s (e::es) = fate errorText t (s.step errorText e) es := by
  simp [fate,h]

theorem fate_cons_of_ends {t : T} {x : Calls.Ending} (ht : e.call = some t)
    (h : s.ends errorText e = some x) : fate errorText t s (e::es) = some x := by
  simp [fate,ht,h]

theorem callsMade_of_not_begun (h : s.begun e = none) :
    callsMade errorText s (e::es) = callsMade errorText (s.step errorText e) es := by
  simp [callsMade,h]

/-- An event that begins and ends nothing leaves what is told of every call. -/
theorem told_of_idle (hbegun : s.begun e = none) (hends : s.ends errorText e = none)
    (hrunning : ((s.step errorText e).calls.running.entries.map fun c =>
      Calls.asBegun c.1 c.2).Perm (s.calls.running.entries.map fun c => Calls.asBegun c.1 c.2)) :
    (told errorText s (e::es)).Perm (told errorText (s.step errorText e) es) := by
  have hfate (cs : KeyMap T (OpenCall Nat)) :
      (cs.entries.map fun c => (Calls.asBegun c.1 c.2,fate errorText c.1 s (e::es))) =
        (cs.entries.map fun c => Calls.asBegun c.1 c.2).map fun b =>
          (b,fate errorText b.t (s.step errorText e) es) := by
    rw [List.map_map]
    exact List.map_congr_left fun c _ => congrArg _ (fate_cons_of_none hends c.1)
  rw [told,hfate,callsMade_of_not_begun hbegun]
  refine List.Perm.append_right _ ?_
  simpa [Function.comp_def,Calls.asBegun] using (hrunning.map fun b =>
    (b,fate errorText b.t (s.step errorText e) es)).symm

/-- An event that ends a call takes it from what is told, and leaves the rest. -/
theorem told_of_ends {t : T} {call : OpenCall Nat} {x : Calls.Ending} (habout : e.call = some t)
    (hopen : s.calls.running.lookup t = some call) (hbegun : s.begun e = none)
    (hends : s.ends errorText e = some x)
    (hrunning : (s.step errorText e).calls.running = s.calls.running.erase t) :
    (told errorText s (e::es)).Perm
      ((Calls.asBegun t call,some x)::told errorText (s.step errorText e) es) := by
  have hrest : (s.calls.running.erase t).entries.map (fun c =>
      (Calls.asBegun c.1 c.2,fate errorText c.1 s (e::es))) =
        (s.calls.running.erase t).entries.map fun c =>
          (Calls.asBegun c.1 c.2,fate errorText c.1 (s.step errorText e) es) := by
    refine List.map_congr_left fun c hc => congrArg _ (fate_cons_of_ne ?_)
    intro hcall
    have hheld : (s.calls.running.erase t).lookup c.1 = some c.2 := AList.mem_lookup_iff.mpr hc
    obtain rfl : t = c.1 := Option.some.inj (habout.symm.trans hcall)
    simp at hheld
  rw [told,told,hrunning,callsMade_of_not_begun hbegun,← hrest,← List.cons_append]
  refine List.Perm.append_right _ (((KeyMap.perm_of_lookup hopen).map _).trans ?_)
  rw [List.map_cons,fate_cons_of_ends habout hends]

/-- An event that begins a call moves it to those that are running. -/
theorem told_of_begun {t : T} {call : OpenCall Nat} (hnew : s.calls.running.lookup t = none)
    (hbegun : s.begun e = some (Calls.asBegun t call)) (hends : s.ends errorText e = none)
    (hrunning : (s.step errorText e).calls.running = s.calls.running.insert t call) :
    (told errorText s (e::es)).Perm (told errorText (s.step errorText e) es) := by
  have hfate : (fun c : (_ : T)×OpenCall Nat =>
      (Calls.asBegun c.1 c.2,fate errorText c.1 s (e::es))) = fun c =>
        (Calls.asBegun c.1 c.2,fate errorText c.1 (s.step errorText e) es) :=
    funext fun c => congrArg _ (fate_cons_of_none hends c.1)
  rw [told,told,hfate,hrunning,KeyMap.entries_insert,KeyMap.erase_of_lookup hnew,callsMade,hbegun]
  exact List.perm_middle

variable (errorText)

/-- What an event does to what is told: it takes the call that it ends, if it ends one. -/
theorem told_cons (s : CallServer T) (e : CallEvent T) (es : List (CallEvent T)) :
    ∃ ended : Option (Calls.Begun T × Calls.Ending), ended.map (·.2) = s.ends errorText e ∧
      (∀ c∈ended, c.2.Of c.1) ∧ (told errorText s (e::es)).Perm
        (ended.toList.map (fun c => (c.1,some c.2))++told errorText (s.step errorText e) es) := by
  have hacted := acted errorText s e
  generalize habout : e.call = about at hacted
  generalize hbegun : s.begun e = opens at hacted
  generalize hends : s.ends errorText e = closes at hacted
  generalize hcalls : (step errorText s e).calls = calls at hacted
  cases hacted with
  | idle =>
    refine ⟨none,rfl,by simp,told_of_idle hbegun hends ?_⟩
    rw [hcalls]
  | opened t call hnew hguard hwalks =>
    exact ⟨none,rfl,by simp,told_of_begun hnew hbegun hends (congrArg Calls.running hcalls)⟩
  | entered t call hopen | left t call i hopen hi =>
    refine ⟨none,rfl,by simp,told_of_idle hbegun hends ?_⟩
    rw [hcalls]
    exact ((KeyMap.perm_of_lookup hopen).map fun c => Calls.asBegun c.1 c.2).symm
  | finished t call now outcome hopen =>
    have hof : (Calls.Ending.returned (Calls.entry call now outcome)).Of (Calls.asBegun t call) :=
      ⟨rfl,rfl,rfl⟩
    exact ⟨some (Calls.asBegun t call,_),rfl,by simpa using hof,
      told_of_ends habout hopen hbegun hends (congrArg Calls.running hcalls)⟩
  | abandoned t call hopen =>
    exact ⟨some (Calls.asBegun t call,_),rfl,by simp [Calls.Ending.Of],
      told_of_ends habout hopen hbegun hends (congrArg Calls.running hcalls)⟩

theorem told_run (s : CallServer T) (es : List (CallEvent T)) :
    ∃ ended : List (Calls.Begun T × Calls.Ending),
      ended.map (·.2) = Runs.outputs (step errorText) (ends errorText) s es ∧
      (∀ c∈ended, c.2.Of c.1) ∧ (told errorText s es).Perm
        (ended.map (fun c => (c.1,some c.2))++
          (Runs.run (step errorText) s es).calls.running.entries.map fun c =>
            (Calls.asBegun c.1 c.2,none)) := by
  induction es generalizing s with
  | nil => exact ⟨[],rfl,by simp,by simp [told,callsMade,fate]⟩
  | cons e es ih =>
    obtain ⟨first,hfirst,hof,hperm⟩ := told_cons errorText s e es
    obtain ⟨rest,hrest,hofs,hperms⟩ := ih (step errorText s e)
    refine ⟨first.toList++rest,?_,?_,?_⟩
    · rw [List.map_append,hrest,Runs.outputs,← hfirst]
      cases first <;> rfl
    · intro c hc
      rcases List.mem_append.mp hc with hc | hc
      · exact hof c (Option.mem_toList.mp hc)
      · exact hofs c hc
    · rw [List.map_append,List.append_assoc]
      exact hperm.trans (hperms.append_left _)

theorem outputs_returned (s : CallServer T) (es : List (CallEvent T)) :
    Runs.outputs (step errorText) (returned errorText) s es =
      (Runs.outputs (step errorText) (ends errorText) s es).filterMap Calls.Ending.entry := by
  induction es generalizing s with
  | nil => rfl
  | cons e es ih =>
    rw [Runs.outputs,Runs.outputs,List.filterMap_append,ih,returned,Calls.returned_eq,ends]
    cases Calls.ends s.registry.isCancelled errorText s.calls e <;> rfl

theorem map_callsMade (s : CallServer T) (es : List (CallEvent T)) :
    (callsMade errorText s es).map (·.1) = Runs.outputs (step errorText) begun s es := by
  induction es generalizing s with
  | nil => rfl
  | cons e es ih =>
    rw [callsMade,Runs.outputs,List.map_append,ih]
    cases s.begun e <;> rfl

/-- Of the calls that begin each one, once, is still running or has ended; the ends stand in
the order of the events that made them, and the entries among them are the log, which keeps the
last. -/
theorem calls_accounted (es : List (CallEvent T)) :
    let s := Runs.run (step errorText) new es
    let calls := callsMade errorText new es
    ∃ ended : List (Calls.Begun T × Calls.Ending),
      calls.map (·.1) = Runs.outputs (step errorText) begun new es ∧
      calls.Perm (ended.map (fun c => (c.1,some c.2))++
        s.calls.running.entries.map fun c => (Calls.asBegun c.1 c.2,none)) ∧
      ended.map (·.2) = Runs.outputs (step errorText) (ends errorText) new es ∧
      (∀ c∈ended, c.2.Of c.1) ∧
      let log := ended.filterMap (·.2.entry)
      s.calls.opLog.entries = log.drop (log.length-1024) := by
  intro s calls
  obtain ⟨ended,hended,hof,hperm⟩ := told_run errorText new es
  refine ⟨ended,map_callsMade errorText new es,hperm,hended,hof,?_⟩
  intro log
  have hlog : log = Runs.outputs (step errorText) (returned errorText) new es := by
    rw [outputs_returned,← hended,List.filterMap_map]
    rfl
  rw [hlog]
  exact entries_run errorText es

end CallServer

end WorkflowyMcp
