import WorkflowyMcp.ErrorClass
import WorkflowyMcp.RetryDelay
import WorkflowyMcp.ToolCalls

/-! The probe of the status tools, called from many sides at once: who may send, what a call tells
of what it heard, and what probing does to the window it asks about. -/
namespace WorkflowyMcp

structure ProbeOutcome where
  apiReachable : Bool
  topLevelCount : Option Nat
  error : Option String
  elapsedMs : Nat
  attempts : Nat
  probeSuppressed : Bool
deriving DecidableEq, Repr

/-- What a probe looks at or asks for. A send is given up at its deadline. -/
inductive ProbeAsk where
  | now
  | lock
  | posture
  | send (deadline : Nat)

abbrev ProbeAnswer : ProbeAsk → Type
  | .now => Nat
  | .lock => Unit
  | .posture => RateLimitPosture
  | .send _ => ApiReply .getTopLevel

abbrev Probing : Type → Type := Proc ProbeAsk ProbeAnswer Unit

namespace UpstreamProbe

def ask (a : ProbeAsk) : Probing (ProbeAnswer a) := .call () a .ret

def suppressedError (posture : RateLimitPosture) : WorkflowyError :=
  rateLimitWindowError (posture.retryAfterRemainingMs.getD 0)
    "cached — probe suppressed inside open retry_after window"

def probeTopLevel (deadline : Nat) : Probing (ApiReply .getTopLevel) := do
  let posture ← ask .posture
  if posture.inRetryWindow then return .error (suppressedError posture)
  else ask (.send deadline)

def isAuthFailure : WorkflowyError → Bool
  | .ApiError status _ => status == 401 || status == 403
  | .RetryExhausted _ reason =>
    containsLower reason "401" || containsLower reason "403" || containsLower reason "unauthor"
  | _ => false

def isRateLimited : WorkflowyError → Bool
  | .ApiError status _ => status == 429
  | .RetryExhausted _ reason => containsLower reason "429" || containsLower reason "rate limit"
  | _ => false

def reached (nodes : List WorkflowyNode) (elapsedMs attempts : Nat) : ProbeOutcome :=
  ⟨true,some nodes.length,none,elapsedMs,attempts,false⟩

def failed (error : String) (elapsedMs attempts : Nat) : ProbeOutcome :=
  ⟨false,none,some error,elapsedMs,attempts,false⟩

def suppressed (reply : ApiReply .getTopLevel) (elapsedMs : Nat) : ProbeOutcome :=
  let err : Option String := match reply with
    | .ok _ => none
    | .error e => some e.display
  ⟨false,none,some (err.getD "rate limit window open"),elapsedMs,1,true⟩

def secondAttempt (started fullDeadline : Nat) (firstErr : WorkflowyError) :
    Probing ProbeOutcome := do
  let second ← probeTopLevel fullDeadline
  let elapsedMs := (← ask .now)-started
  match second with
  | .ok nodes => return reached nodes elapsedMs 2
  | .error e =>
    return failed ("two attempts failed: "++firstErr.display++" | "++e.display) elapsedMs 2

/-- The call behind the lock, which it holds until it returns. -/
def lockedProbe (started halfDeadline fullDeadline : Nat) : Probing ProbeOutcome := do
  if (← ask .posture).inRetryWindow then
    let reply ← probeTopLevel halfDeadline
    return suppressed reply ((← ask .now)-started)
  else
    match ← probeTopLevel halfDeadline with
    | .ok nodes => return reached nodes ((← ask .now)-started) 1
    | .error firstErr =>
      if isAuthFailure firstErr || isRateLimited firstErr then
        return failed firstErr.display ((← ask .now)-started) 1
      else if fullDeadline ≤ (← ask .now) then
        return failed firstErr.display ((← ask .now)-started) 1
      else secondAttempt started fullDeadline firstErr

def probeUpstreamWithRetry (budget : Nat) : Probing ProbeOutcome := do
  let started ← ask .now
  ask .lock
  lockedProbe started (started+budget/2) (started+budget)

end UpstreamProbe

/- The probes of one server, one for each `t`. An abandoned call has no program any more. `sent`
   marks the call that waits for a response; `requests` and `heard` are ghosts: how many requests a
   call has sent, and what its sends came back with. -/
structure UpstreamProbe (T : Type) where
  clock : Nat
  window : RetryWindow
  lock : Option T := none
  prog : T → Option (Probing ProbeOutcome)
  sent : T → Bool := fun _ => false
  requests : T → Nat := fun _ => 0
  heard : T → List (ApiReply .getTopLevel) := fun _ => []

namespace UpstreamProbe

/-- A turn of a call answers what it asks for, where that can be had; `rateLimited` is a 429 of
another request of the same client. -/
inductive Event (T : Type) where
  | tick (ms : Nat)
  | rateLimited (retryAfterMs : Option Nat)
  | turn (t : T)
  | respond (t : T) (r : Response)
  | abandon (t : T)

section step
variable {T : Type} [DecidableEq T] (retryAfterSecs : String → Option Nat)

/-- The lock goes when the call returns. -/
def resume (s : UpstreamProbe T) (t : T) (p : Probing ProbeOutcome) : UpstreamProbe T :=
  { s with
    prog := Function.update s.prog t (some p)
    sent := Function.update s.sent t false
    lock := match p with
      | .ret _ => if s.lock = some t then none else s.lock
      | .call .. => s.lock }

def hear (s : UpstreamProbe T) (t : T) (reply : ApiReply .getTopLevel)
    (k : ApiReply .getTopLevel → Probing ProbeOutcome) : UpstreamProbe T :=
  { s.resume t (k reply) with heard := Function.update s.heard t (s.heard t++[reply]) }

def launch (s : UpstreamProbe T) (t : T) : UpstreamProbe T :=
  { s with sent := Function.update s.sent t true
           requests := Function.update s.requests t (s.requests t+1) }

/- The deadline is looked at before the request goes out, and while it is out. -/
def turn (s : UpstreamProbe T) (t : T) : UpstreamProbe T :=
  match s.prog t with
  | some (.call _ .now k) => s.resume t (k s.clock)
  | some (.call _ .lock k) =>
    if s.lock = none then { s.resume t (k ()) with lock := some t } else s
  | some (.call _ .posture k) => s.resume t (k (s.window.rateLimitPosture s.clock))
  | some (.call _ (.send deadline) k) =>
    if deadline ≤ s.clock then s.hear t (.error .Timeout) k
    else if s.sent t then s
    else s.launch t
  | _ => s

def stamped (s : UpstreamProbe T) (retryAfterMs : Option Nat) : UpstreamProbe T :=
  { s with window := s.window.stampRateLimited s.clock retryAfterMs }

/-- The wait that the body of a 429 asks for, in milliseconds: a release build wraps them. -/
def waitAsked (text : String) : Option Nat :=
  (RetryDelay.parseRetryAfter .release retryAfterSecs text).join

/-- What a response does to the window. -/
def record (s : UpstreamProbe T) : Response → UpstreamProbe T
  | .failure 429 text => s.stamped (waitAsked retryAfterSecs text)
  | _ => s

def respond (s : UpstreamProbe T) (t : T) (r : Response) : UpstreamProbe T :=
  match s.prog t with
  | some (.call _ (.send _) k) =>
    if s.sent t then (s.record retryAfterSecs r).hear t (r.reply .getTopLevel) k else s
  | _ => s

def abandon (s : UpstreamProbe T) (t : T) : UpstreamProbe T :=
  { s with
    prog := Function.update s.prog t none
    sent := Function.update s.sent t false
    lock := if s.lock = some t then none else s.lock }

def step (s : UpstreamProbe T) : Event T → UpstreamProbe T
  | .tick ms => { s with clock := s.clock+ms }
  | .rateLimited retryAfterMs => s.stamped retryAfterMs
  | .turn t => s.turn t
  | .respond t r => s.respond retryAfterSecs t r
  | .abandon t => s.abandon t

def start (budget : T → Nat) (clock : Nat) (window : RetryWindow) : UpstreamProbe T where
  clock
  window
  prog t := some (probeUpstreamWithRetry (budget t))

end step
section told

/-- What the status tools read off the error. -/
def Limited (error : Option String) : Prop :=
  ∀ walks, classifyDegradedKind false error walks = some "rate_limited"

/-- The outcome of a call against what its sends came back with. -/
structure Told (heard : List (ApiReply .getTopLevel)) (o : ProbeOutcome) : Prop where
  length_le : heard.length ≤ o.attempts
  attempts : o.attempts = 1 ∨ o.attempts = 2 ∧ ∃ e, heard.head? = some (.error e) ∧
    isAuthFailure e = false ∧ isRateLimited e = false
  reachable : o.apiReachable = o.topLevelCount.isSome ∧ o.apiReachable = o.error.isNone
  count : ∀ n, o.topLevelCount = some n ↔ o.probeSuppressed = false ∧
    ∃ nodes : List WorkflowyNode, heard.getLast? = some (.ok nodes) ∧ nodes.length = n
  suppressed : o.probeSuppressed = true → o.attempts = 1
  silent : heard = [] → Limited o.error
  limited : ∀ text, heard.getLast? = some (.error (.ApiError 429 text)) → Limited o.error

/-- What a call that has heard this much tells in the end, whatever it hears next. -/
def Reports : List (ApiReply .getTopLevel) → Probing ProbeOutcome → Prop
  | heard,.ret o => Told heard o
  | heard,.call _ (.send _) k => ∀ r, Reports (heard++[r]) (k r)
  | heard,.call _ .now k => ∀ r, Reports heard (k r)
  | heard,.call _ .lock k => Reports heard (k ())
  | heard,.call _ .posture k => ∀ r, Reports heard (k r)

variable {heard : List (ApiReply .getTopLevel)}

theorem limited_of_infix {error : String} (h : "429".toList <:+: error.toList) :
    Limited (some error) := by
  intro walks
  have hlower : "429".toList.map Char.toLower = "429".toList := by decide
  have hmap : "429".toList <:+: error.toList.map Char.toLower := hlower ▸ h.map Char.toLower
  have hlimited : containsLower error "429" = true := ErrorClass.containsLower_iff.mpr hmap
  unfold classifyDegradedKind
  rw [if_neg (by decide),Option.getD_some,if_pos (by rw [hlimited,Bool.true_or])]

theorem display_limited (text : String) :
    "429".toList <:+: (WorkflowyError.ApiError 429 text).display.toList := by
  have htext : (WorkflowyError.ApiError 429 text).display =
    "API error "++toString 429++": "++text := rfl
  have hnumber : toString 429 = "429" := by decide
  rw [htext,hnumber,String.append_assoc,String.toList_append,String.toList_append]
  exact List.infix_append _ _ _

theorem probeTopLevel_bind {α : Type} (deadline : Nat)
    (f : ApiReply .getTopLevel → Probing α) : (probeTopLevel deadline).bind f =
      .call () .posture fun posture =>
        if posture.inRetryWindow then f (.error (suppressedError posture))
        else .call () (.send deadline) f := by
  refine congrArg (Proc.call () ProbeAsk.posture) (funext fun posture => ?_)
  cases h : posture.inRetryWindow <;> simp [h,ask]

theorem reports_probeTopLevel {deadline : Nat} {f : ApiReply .getTopLevel → Probing ProbeOutcome}
    (hrefused : ∀ text, Reports heard (f (.error (.ApiError 429 text))))
    (hheard : ∀ r, Reports (heard++[r]) (f r)) :
    Reports heard ((probeTopLevel deadline).bind f) := by
  rw [probeTopLevel_bind]
  intro posture
  dsimp only
  split
  · exact hrefused _
  · exact hheard

theorem told_reached {nodes : List WorkflowyNode} {attempts : Nat} (elapsedMs : Nat)
    (hlast : heard.getLast? = some (.ok nodes)) (hle : heard.length ≤ attempts)
    (hattempts : attempts = 1 ∨ attempts = 2 ∧ ∃ e, heard.head? = some (.error e) ∧
      isAuthFailure e = false ∧ isRateLimited e = false) :
    Told heard (reached nodes elapsedMs attempts) where
  length_le := hle
  attempts := hattempts
  reachable := ⟨rfl,rfl⟩
  count n := by simp [reached,hlast]
  suppressed h := by cases h
  silent h := by simp [h] at hlast
  limited text h := by simp [hlast] at h

/-- The error that a failed call shows is the last that it heard, or that of an open window. -/
theorem told_failed {error : String} {e : WorkflowyError} {attempts : Nat} (elapsedMs : Nat)
    (hlast : ∀ nodes, heard.getLast?≠some (.ok nodes))
    (he : heard.getLast? = some (.error e) ∨ ∃ text, e = .ApiError 429 text)
    (herror : e.display.toList <:+: error.toList) (hle : heard.length ≤ attempts)
    (hattempts : attempts = 1 ∨ attempts = 2 ∧ ∃ e, heard.head? = some (.error e) ∧
      isAuthFailure e = false ∧ isRateLimited e = false) :
    Told heard (failed error elapsedMs attempts) where
  length_le := hle
  attempts := hattempts
  reachable := ⟨rfl,rfl⟩
  count n := by simp [failed,hlast]
  suppressed h := by cases h
  silent h := by
    obtain he | ⟨text,rfl⟩ := he
    · simp [h] at he
    · exact limited_of_infix ((display_limited text).trans herror)
  limited text h := by
    obtain he | ⟨text',rfl⟩ := he
    · obtain rfl : e = .ApiError 429 text := by simpa [he] using h
      exact limited_of_infix ((display_limited text).trans herror)
    · exact limited_of_infix ((display_limited text').trans herror)

theorem infix_twice (firstErr e : WorkflowyError) : e.display.toList <:+:
    ("two attempts failed: "++firstErr.display++" | "++e.display).toList := by
  rw [String.toList_append]
  exact (List.suffix_append _ _).isInfix

theorem reports_secondAttempt {firstErr : WorkflowyError} (started fullDeadline : Nat)
    (hauth : isAuthFailure firstErr = false) (hlimited : isRateLimited firstErr = false) :
    Reports [.error firstErr] (secondAttempt started fullDeadline firstErr) := by
  have hattempts {heard : List (ApiReply .getTopLevel)}
      (h : heard.head? = some (.error firstErr)) : (2:Nat) = 1 ∨ (2:Nat) = 2 ∧
      ∃ e, heard.head? = some (.error e) ∧ isAuthFailure e = false ∧ isRateLimited e = false :=
    .inr ⟨rfl,firstErr,h,hauth,hlimited⟩
  refine reports_probeTopLevel (fun text now => ?_) fun r now => ?_
  · exact told_failed (now-started) (by simp) (.inr ⟨text,rfl⟩) (infix_twice firstErr _)
      (Nat.le_succ 1) (hattempts rfl)
  · cases r with
    | ok nodes => exact told_reached (now-started) rfl (le_refl 2) (hattempts rfl)
    | error e =>
      exact told_failed (now-started) (by simp) (.inl rfl) (infix_twice firstErr e) (le_refl 2)
        (hattempts rfl)

theorem told_suppressed {reply : ApiReply .getTopLevel} (elapsedMs : Nat)
    (h : heard = [reply] ∨ heard = [] ∧ ∃ text, reply = .error (.ApiError 429 text)) :
    Told heard (suppressed reply elapsedMs) where
  length_le := by
    obtain rfl | ⟨rfl,-⟩ := h
    · exact le_refl 1
    · exact Nat.zero_le 1
  attempts := .inl rfl
  reachable := ⟨rfl,rfl⟩
  count n := by simp [suppressed]
  suppressed _ := rfl
  silent hnil := by
    obtain rfl | ⟨-,text,rfl⟩ := h
    · cases hnil
    · exact limited_of_infix (display_limited text)
  limited text hlast := by
    obtain rfl | ⟨rfl,-⟩ := h
    · obtain rfl : reply = .error (.ApiError 429 text) := by simpa using hlast
      exact limited_of_infix (display_limited text)
    · cases hlast

theorem reports_lockedProbe (started halfDeadline fullDeadline : Nat) :
    Reports [] (lockedProbe started halfDeadline fullDeadline) := by
  intro posture
  dsimp only [Proc.ret_bind]
  split
  · refine reports_probeTopLevel (fun text now => ?_) fun r now => ?_
    · exact told_suppressed (now-started) (.inr ⟨rfl,text,rfl⟩)
    · exact told_suppressed (now-started) (.inl rfl)
  · refine reports_probeTopLevel (fun text now => ?_) fun r => ?_
    · exact told_failed (now-started) (by simp) (.inr ⟨text,rfl⟩) (List.infix_refl _) (by decide)
        (.inl rfl)
    · cases r with
      | ok nodes => exact fun now => told_reached (now-started) rfl (le_refl 1) (.inl rfl)
      | error firstErr =>
        have hfirst (now : Nat) : Told [.error firstErr]
            (failed firstErr.display (now-started) 1) :=
          told_failed (now-started) (by simp) (.inl rfl) (List.infix_refl _) (le_refl 1) (.inl rfl)
        dsimp only
        split
        · exact hfirst
        · rename_i hsticky
          obtain ⟨hauth,hlimited⟩ : isAuthFailure firstErr = false ∧
            isRateLimited firstErr = false := by simpa using hsticky
          intro now
          dsimp only [Proc.ret_bind]
          split
          · exact hfirst
          · exact reports_secondAttempt started fullDeadline hauth hlimited

theorem reports_probe (budget : Nat) : Reports [] (probeUpstreamWithRetry budget) :=
  fun started => reports_lockedProbe started (started+budget/2) (started+budget)

end told

section sent
variable {T : Type} {retryAfterSecs : String → Option Nat} {s : UpstreamProbe T} {t t' : T}

/-- The call has passed its checks and is at a request. -/
def AtSend : Probing ProbeOutcome → Prop
  | .call _ (.send _) _ => True
  | _ => False

/-- A request goes out when the call takes its turn. -/
def launches (s : UpstreamProbe T) (t : T) : Bool :=
  match s.prog t with
  | some (.call _ (.send deadline) _) => s.clock<deadline && !s.sent t
  | _ => false

theorem launches_of {fr : Unit} {deadline : Nat} {k : ApiReply .getTopLevel → Probing ProbeOutcome}
    (hprog : s.prog t = some (.call fr (.send deadline) k)) :
    s.launches t = true ↔ s.clock<deadline ∧ s.sent t = false := by
  simp [launches,hprog]

theorem atSend_of_launches (h : s.launches t = true) :
    ∃ p, s.prog t = some p ∧ AtSend p ∧ s.sent t = false := by
  unfold launches at h
  split at h
  · rename_i fr deadline k hprog
    exact ⟨_,hprog,trivial,by simp at h; exact h.2⟩
  · cases h

theorem record_prog (s : UpstreamProbe T) (r : Response) :
    (s.record retryAfterSecs r).prog = s.prog := by
  unfold record
  split <;> rfl

theorem record_sent (s : UpstreamProbe T) (r : Response) :
    (s.record retryAfterSecs r).sent = s.sent := by
  unfold record
  split <;> rfl

/-- Whose request is out is at it. -/
def Out (s : UpstreamProbe T) : Prop := ∀ t, s.sent t = true → ∃ p, s.prog t = some p ∧ AtSend p

variable [DecidableEq T]

/-- Who is out behind a step of `t` was out before, or is `t` and sends in its turn. -/
def Kept (t : T) (s s' : UpstreamProbe T) : Prop :=
  ∀ t', s'.sent t' = true →
    s'.prog t' = s.prog t' ∧ (s.sent t' = true ∨ t' = t ∧ s.launches t' = true)

omit [DecidableEq T] in
theorem Kept.refl (t : T) (s : UpstreamProbe T) : Kept t s s := fun _ h => ⟨rfl,.inl h⟩

theorem kept_resume (s : UpstreamProbe T) (t : T) (p : Probing ProbeOutcome) :
    Kept t s (s.resume t p) := by
  intro t' h
  by_cases ht : t' = t
  · subst ht
    simp [resume] at h
  · exact ⟨Function.update_of_ne ht ..,.inl (by simpa [resume,ht] using h)⟩

theorem kept_launch (hlaunch : s.launches t = true) : Kept t s (s.launch t) := by
  intro t' h
  by_cases ht : t' = t
  · exact ⟨rfl,.inr ⟨ht,ht ▸ hlaunch⟩⟩
  · exact ⟨rfl,.inl (by simpa [launch,ht] using h)⟩

theorem kept_turn (s : UpstreamProbe T) (t : T) : Kept t s (s.turn t) := by
  unfold turn
  split
  · exact kept_resume s t _
  · rename_i fr k hprog
    split
    · exact kept_resume s t (k ())
    · exact .refl t s
  · exact kept_resume s t _
  · rename_i fr deadline k hprog
    split
    · exact kept_resume s t _
    · rename_i hdue
      split
      · exact .refl t s
      · rename_i hsent
        exact kept_launch
          ((launches_of hprog).mpr ⟨Nat.lt_of_not_le hdue,Bool.eq_false_iff.mpr hsent⟩)
  · exact .refl t s

theorem kept_respond (s : UpstreamProbe T) (t : T) (r : Response) :
    Kept t s (s.respond retryAfterSecs t r) := by
  unfold respond
  split
  · rename_i fr deadline k hprog
    split
    · intro t' h
      by_cases ht : t' = t
      · subst ht
        simp [hear,resume] at h
      · have hsame : ((s.record retryAfterSecs r).hear t (r.reply .getTopLevel) k).prog t' =
            (s.record retryAfterSecs r).prog t' := Function.update_of_ne ht ..
        rw [hsame,record_prog]
        refine ⟨rfl,.inl ?_⟩
        rw [← record_sent s r]
        simpa [hear,resume,ht] using h
    · exact .refl t s
  · exact .refl t s

theorem kept_step (s : UpstreamProbe T) (e : Event T) :
    ∀ t', (s.step retryAfterSecs e).sent t' = true →
      (s.step retryAfterSecs e).prog t' = s.prog t' ∧
        (s.sent t' = true ∨ s.launches t' = true) := by
  intro t' h
  cases e with
  | tick ms => exact ⟨rfl,.inl h⟩
  | rateLimited retryAfterMs => exact ⟨rfl,.inl h⟩
  | turn t => exact (kept_turn s t t' h).imp_right fun h => h.imp_right And.right
  | respond t r => exact (kept_respond s t r t' h).imp_right fun h => h.imp_right And.right
  | abandon t =>
    have ht : t'≠t := by
      rintro rfl
      simp [step,abandon] at h
    exact ⟨Function.update_of_ne ht ..,.inl (by simpa [step,abandon,ht] using h)⟩

theorem Out.step (h : s.Out) (e : Event T) : (s.step retryAfterSecs e).Out := by
  intro t hsent
  obtain ⟨hprog,hsent | hlaunch⟩ := kept_step s e t hsent
  · exact hprog ▸ h t hsent
  · obtain ⟨p,hp,hsend,-⟩ := atSend_of_launches hlaunch
    exact ⟨p,hprog.trans hp,hsend⟩

end sent

section run
variable {T : Type} {retryAfterSecs : String → Option Nat} {s : UpstreamProbe T} {t t' : T}

/-- What a call tells will be true of what it heard, which is one reply for each request that is
not out. -/
structure Books (s : UpstreamProbe T) (t : T) (p : Probing ProbeOutcome) : Prop where
  reports : Reports (s.heard t) p
  requests : s.requests t ≤ (s.heard t).length+(s.sent t).toNat

def Booked (s : UpstreamProbe T) : Prop := ∀ t p, s.prog t = some p → s.Books t p

/-- Nothing is out for a call that is at another question. -/
theorem Booked.requests_le (h : s.Booked) (hout : s.Out) {p : Probing ProbeOutcome}
    (hprog : s.prog t = some p)
    (hp : ¬AtSend p) : s.requests t ≤ (s.heard t).length := by
  have hbooks := h t p hprog
  have hsent : s.sent t = false := Bool.eq_false_iff.mpr fun hsent => by
    obtain ⟨p',hprog',hsend⟩ := hout t hsent
    exact hp (Option.some.inj (hprog.symm.trans hprog') ▸ hsend)
  simpa [hsent] using hbooks.requests

theorem Booked.same {s' : UpstreamProbe T} (h : s.Booked) (hprog : s'.prog = s.prog)
    (hsent : s'.sent = s.sent) (hrequests : s'.requests = s.requests)
    (hheard : s'.heard = s.heard) : s'.Booked := by
  intro t p hp
  have hbooks := h t p (hprog ▸ hp)
  exact ⟨hheard ▸ hbooks.reports,by rw [hrequests,hheard,hsent]; exact hbooks.requests⟩

theorem Booked.record (h : s.Booked) (r : Response) : (s.record retryAfterSecs r).Booked := by
  unfold UpstreamProbe.record
  split
  · exact h.same rfl rfl rfl rfl
  · exact h

theorem booked_start (budget : T → Nat) (clock : Nat) (window : RetryWindow) :
    (start budget clock window).Booked := by
  intro t p hprog
  obtain rfl : probeUpstreamWithRetry (budget t) = p := Option.some.inj hprog
  exact ⟨reports_probe (budget t),Nat.zero_le _⟩

variable [DecidableEq T]

theorem Booked.resume (h : s.Booked) {p : Probing ProbeOutcome}
    (hp : Reports (s.heard t) p) (hrequests : s.requests t ≤ (s.heard t).length) :
    (s.resume t p).Booked := by
  intro t' p' hprog
  by_cases ht : t' = t
  · subst ht
    obtain rfl : p = p' := by simpa [UpstreamProbe.resume] using hprog
    exact ⟨hp,hrequests.trans (Nat.le_add_right ..)⟩
  · have hprog : s.prog t' = some p' := by simpa [UpstreamProbe.resume,ht] using hprog
    have hsent : (s.resume t p).sent t' = s.sent t' := Function.update_of_ne ht ..
    obtain ⟨hreports,hle⟩ := h t' p' hprog
    exact ⟨hreports,by rw [hsent]; exact hle⟩

theorem Booked.hear (h : s.Booked) {fr : Unit} {deadline : Nat}
    {k : ApiReply .getTopLevel → Probing ProbeOutcome}
    (hprog : s.prog t = some (.call fr (.send deadline) k)) (reply : ApiReply .getTopLevel) :
    (s.hear t reply k).Booked := by
  have hbooks := h t _ hprog
  intro t' p' hprog'
  by_cases ht : t' = t
  · subst ht
    obtain rfl : k reply = p' := by simpa [UpstreamProbe.hear,UpstreamProbe.resume] using hprog'
    have hheard : (s.hear t' reply k).heard t' = s.heard t'++[reply] := Function.update_self ..
    have hsent : (s.hear t' reply k).sent t' = false := Function.update_self ..
    refine ⟨hheard ▸ hbooks.reports reply,?_⟩
    have hle : s.requests t' ≤ (s.heard t').length+(s.sent t').toNat := hbooks.requests
    have hone := Bool.toNat_le (s.sent t')
    rw [hheard,hsent,List.length_append]
    exact hle.trans (Nat.add_le_add_left hone _)
  · have hprog' : s.prog t' = some p' := by
      simpa [UpstreamProbe.hear,UpstreamProbe.resume,ht] using hprog'
    have hheard : (s.hear t reply k).heard t' = s.heard t' := Function.update_of_ne ht ..
    have hsent : (s.hear t reply k).sent t' = s.sent t' := Function.update_of_ne ht ..
    obtain ⟨hreports,hle⟩ := h t' p' hprog'
    exact ⟨hheard ▸ hreports,by rw [hheard,hsent]; exact hle⟩

theorem Booked.launch (h : s.Booked) {fr : Unit} {deadline : Nat}
    {k : ApiReply .getTopLevel → Probing ProbeOutcome}
    (hprog : s.prog t = some (.call fr (.send deadline) k)) (hsent : s.sent t = false) :
    (s.launch t).Booked := by
  intro t' p' hprog'
  have hbooks := h t' p' hprog'
  by_cases ht : t' = t
  · subst ht
    have hle : s.requests t' ≤ (s.heard t').length+(s.sent t').toNat := hbooks.requests
    refine ⟨hbooks.reports,?_⟩
    simp only [UpstreamProbe.launch,Function.update_self]
    rw [hsent] at hle
    exact Nat.succ_le_succ hle
  · have hrequests : (s.launch t).requests t' = s.requests t' := Function.update_of_ne ht ..
    have hsent : (s.launch t).sent t' = s.sent t' := Function.update_of_ne ht ..
    exact ⟨hbooks.reports,by rw [hrequests,hsent]; exact hbooks.requests⟩

theorem Booked.turn (h : s.Booked) (hout : s.Out) : (s.turn t).Booked := by
  unfold UpstreamProbe.turn
  split
  · rename_i fr k hprog
    exact h.resume ((h t _ hprog).reports s.clock) (h.requests_le hout hprog not_false)
  · rename_i fr k hprog
    split
    · have hr : (s.resume t (k ())).Booked :=
        h.resume (h t _ hprog).reports (h.requests_le hout hprog not_false)
      exact hr.same rfl rfl rfl rfl
    · exact h
  · rename_i fr k hprog
    exact h.resume ((h t _ hprog).reports _) (h.requests_le hout hprog not_false)
  · rename_i fr deadline k hprog
    split
    · exact h.hear hprog _
    · split
      · exact h
      · rename_i hsent
        exact h.launch hprog (Bool.eq_false_iff.mpr hsent)
  · exact h

theorem Booked.abandon (h : s.Booked) : (s.abandon t).Booked := by
  intro t' p hprog
  have ht : t'≠t := by
    rintro rfl
    simp [UpstreamProbe.abandon] at hprog
  have hsent : (s.abandon t).sent t' = s.sent t' := Function.update_of_ne ht ..
  have hbooks := h t' p (by simpa [UpstreamProbe.abandon,ht] using hprog)
  exact ⟨hbooks.reports,by rw [hsent]; exact hbooks.requests⟩

theorem Booked.step (h : s.Booked) (hout : s.Out) (e : Event T) :
    (s.step retryAfterSecs e).Booked := by
  cases e with
  | tick ms => exact h.same rfl rfl rfl rfl
  | rateLimited retryAfterMs => exact h.same rfl rfl rfl rfl
  | turn t => exact h.turn hout
  | abandon t => exact h.abandon
  | respond t r =>
    change (s.respond retryAfterSecs t r).Booked
    unfold respond
    split
    · rename_i fr deadline k hprog
      split
      · exact (h.record r).hear (by rw [record_prog]; exact hprog) _
      · exact h
    · exact h

end run

section lock

/-- A call behind the lock, which asks for it no more and comes to a request only from a window
that it saw closed. -/
def Holding : Probing ProbeOutcome → Prop
  | .ret _ => True
  | .call _ .now k => ∀ r, ¬AtSend (k r) ∧ Holding (k r)
  | .call _ .lock _ => False
  | .call _ .posture k => ∀ r, (AtSend (k r) → r.inRetryWindow = false) ∧ Holding (k r)
  | .call _ (.send _) k => ∀ r, ¬AtSend (k r) ∧ Holding (k r)

/-- A call before the lock. -/
def Entering : Probing ProbeOutcome → Prop
  | .call _ .now k => ∀ r, Entering (k r)
  | .call _ .lock k => ¬AtSend (k ()) ∧ (∀ o, k ()≠.ret o) ∧ Holding (k ())
  | _ => False

theorem Entering.not_atSend {p : Probing ProbeOutcome} (h : Entering p) : ¬AtSend p := by
  match p,h with
  | .call _ .now _,_ => exact not_false
  | .call _ .lock _,_ => exact not_false

theorem holding_elapsed {f : Nat → ProbeOutcome} :
    Holding (.call () .now fun now => .ret (f now)) :=
  fun _ => ⟨not_false,trivial⟩

theorem holding_probeTopLevel {deadline : Nat} {f : ApiReply .getTopLevel → Probing ProbeOutcome}
    (hf : ∀ r, ¬AtSend (f r) ∧ Holding (f r)) : Holding ((probeTopLevel deadline).bind f) := by
  rw [probeTopLevel_bind]
  intro posture
  dsimp only
  cases h : posture.inRetryWindow with
  | true => exact ⟨fun hsend => absurd hsend (hf _).1,(hf _).2⟩
  | false => exact ⟨fun _ => rfl,hf⟩

theorem not_atSend_probeTopLevel {deadline : Nat}
    {f : ApiReply .getTopLevel → Probing ProbeOutcome} :
    ¬AtSend ((probeTopLevel deadline).bind f) := by
  rw [probeTopLevel_bind]
  exact not_false

theorem holding_secondAttempt (started fullDeadline : Nat) (firstErr : WorkflowyError) :
    ¬AtSend (secondAttempt started fullDeadline firstErr) ∧
      Holding (secondAttempt started fullDeadline firstErr) := by
  refine ⟨not_atSend_probeTopLevel,holding_probeTopLevel fun r => ⟨not_false,fun now => ?_⟩⟩
  cases r with
  | ok nodes => exact ⟨not_false,trivial⟩
  | error e => exact ⟨not_false,trivial⟩

theorem holding_lockedProbe (started halfDeadline fullDeadline : Nat) :
    Holding (lockedProbe started halfDeadline fullDeadline) := by
  intro posture
  dsimp only [Proc.ret_bind]
  split
  · exact ⟨fun h => absurd h not_atSend_probeTopLevel,
      holding_probeTopLevel fun r => ⟨not_false,holding_elapsed⟩⟩
  · refine ⟨fun h => absurd h not_atSend_probeTopLevel,holding_probeTopLevel fun r => ?_⟩
    cases r with
    | ok nodes => exact ⟨not_false,holding_elapsed⟩
    | error firstErr =>
      dsimp only
      split
      · exact ⟨not_false,holding_elapsed⟩
      · refine ⟨not_false,fun now => ?_⟩
        dsimp only [Proc.ret_bind]
        split
        · exact ⟨not_false,holding_elapsed⟩
        · exact holding_secondAttempt started fullDeadline firstErr

theorem entering_probe (budget : Nat) : Entering (probeUpstreamWithRetry budget) :=
  fun started => ⟨not_false,nofun,holding_lockedProbe started (started+budget/2) (started+budget)⟩

/-- Who has the lock is behind it, and who has returned or is gone has it no more. -/
def Placed (holds : Prop) : Option (Probing ProbeOutcome) → Prop
  | none => ¬holds
  | some (.ret _) => ¬holds
  | some (.call fr q k) => holds ∧ Holding (.call fr q k) ∨ ¬holds ∧ Entering (.call fr q k)

variable {T : Type} {retryAfterSecs : String → Option Nat} {s : UpstreamProbe T} {t t' : T}

def Locked (s : UpstreamProbe T) : Prop := ∀ t, Placed (s.lock = some t) (s.prog t)

theorem locked_start (budget : T → Nat) (clock : Nat) (window : RetryWindow) :
    (start budget clock window).Locked :=
  fun t => .inr ⟨nofun,entering_probe (budget t)⟩

/-- A call at a request has the lock. -/
theorem Locked.atSend (h : s.Locked) {p : Probing ProbeOutcome} (hprog : s.prog t = some p)
    (hp : AtSend p) : s.lock = some t ∧ Holding p := by
  have hplaced := h t
  rw [hprog] at hplaced
  match p,hp,hplaced with
  | .call fr (.send deadline) k,_,.inl hheld => exact hheld

/-- What a call does with its program and the lock keeps the others placed, if it takes the lock
from nobody. -/
theorem Locked.move {s' : UpstreamProbe T} (h : s.Locked)
    (hplaced : Placed (s'.lock = some t) (s'.prog t)) (hprog : ∀ t', t'≠t → s'.prog t' = s.prog t')
    (hlock : ∀ t', t'≠t → (s'.lock = some t' ↔ s.lock = some t')) : s'.Locked := by
  intro t'
  by_cases ht : t' = t
  · exact ht ▸ hplaced
  · rw [hprog t' ht,hlock t' ht]
    exact h t'

theorem Locked.same {s' : UpstreamProbe T} (h : s.Locked) (hprog : s'.prog = s.prog)
    (hlock : s'.lock = s.lock) : s'.Locked := by
  intro t
  rw [hprog,hlock]
  exact h t

theorem Locked.record (h : s.Locked) (r : Response) : (s.record retryAfterSecs r).Locked := by
  unfold UpstreamProbe.record
  split
  · exact h.same rfl rfl
  · exact h

/-- A call at a question behind the lock, or before it. -/
theorem Locked.placed (h : s.Locked) {fr : Unit} {q : ProbeAsk}
    {k : ProbeAnswer q → Probing ProbeOutcome} (hprog : s.prog t = some (.call fr q k)) :
    s.lock = some t ∧ Holding (.call fr q k) ∨
      s.lock≠some t ∧ Entering (.call fr q k) := by
  have hplaced := h t
  rwa [hprog] at hplaced

variable [DecidableEq T]

theorem Locked.resume (h : s.Locked) (hlock : s.lock = some t) {p : Probing ProbeOutcome}
    (hp : Holding p) : (s.resume t p).Locked := by
  have hprog (t' : T) (ht : t'≠t) : (s.resume t p).prog t' = s.prog t' :=
    Function.update_of_ne ht ..
  have hself : (s.resume t p).prog t = some p := Function.update_self ..
  cases p with
  | ret o =>
    have hfree : (s.resume t (.ret o)).lock = none := if_pos hlock
    refine h.move (t := t) ?_ hprog fun t' ht => ?_
    · rw [hself,hfree]
      exact nofun
    · rw [hfree,hlock,Option.some.injEq]
      exact ⟨nofun,fun h => absurd h.symm ht⟩
  | call fr q k =>
    refine h.move (t := t) ?_ hprog fun t' ht => Iff.rfl
    rw [hself]
    exact .inl ⟨hlock,hp⟩

theorem Locked.enter (h : s.Locked) (hlock : s.lock≠some t) {p : Probing ProbeOutcome}
    (hp : Entering p) : (s.resume t p).Locked := by
  match p,hp with
  | .call fr q k,hp =>
    refine h.move (t := t) ?_ (fun t' ht => Function.update_of_ne ht ..) fun t' ht => Iff.rfl
    have hself : (s.resume t (.call fr q k)).prog t = some (.call fr q k) := Function.update_self ..
    rw [hself]
    exact .inr ⟨hlock,hp⟩

theorem Locked.take (h : s.Locked) (hfree : s.lock = none) {p : Probing ProbeOutcome}
    (hp : Holding p) (hret : ∀ o, p≠.ret o) :
    ({ s.resume t p with lock := some t } : UpstreamProbe T).Locked := by
  refine h.move (t := t) ?_ (fun t' ht => Function.update_of_ne ht ..) fun t' ht => ?_
  · cases p with
    | ret o => exact absurd rfl (hret o)
    | call fr q k =>
      have hself : (s.resume t (.call fr q k)).prog t = some (.call fr q k) :=
        Function.update_self ..
      change Placed (some t = some t) ((s.resume t (.call fr q k)).prog t)
      rw [hself]
      exact .inl ⟨rfl,hp⟩
  · rw [hfree,Option.some.injEq]
    exact ⟨fun h => absurd h.symm ht,nofun⟩

theorem Locked.hear (h : s.Locked) {fr : Unit} {deadline : Nat}
    {k : ApiReply .getTopLevel → Probing ProbeOutcome}
    (hprog : s.prog t = some (.call fr (.send deadline) k)) (reply : ApiReply .getTopLevel) :
    (s.hear t reply k).Locked := by
  obtain ⟨hlock,hheld⟩ := h.atSend hprog trivial
  exact (h.resume hlock (hheld reply).2).same rfl rfl

theorem Locked.turn (h : s.Locked) : (s.turn t).Locked := by
  unfold UpstreamProbe.turn
  split
  · rename_i fr k hprog
    obtain ⟨hlock,hheld⟩ | ⟨hlock,hentering⟩ := h.placed hprog
    · exact h.resume hlock (hheld s.clock).2
    · exact h.enter hlock (hentering s.clock)
  · rename_i fr k hprog
    split
    · rename_i hfree
      obtain ⟨-,hheld⟩ | ⟨-,-,hret,hheld⟩ := h.placed hprog
      · exact hheld.elim
      · exact h.take hfree hheld hret
    · exact h
  · rename_i fr k hprog
    obtain ⟨hlock,hheld⟩ | ⟨-,hentering⟩ := h.placed hprog
    · exact h.resume hlock (hheld _).2
    · exact hentering.elim
  · rename_i fr deadline k hprog
    split
    · exact h.hear hprog _
    · split
      · exact h
      · exact h.same rfl rfl
  · exact h

theorem Locked.abandon (h : s.Locked) : (s.abandon t).Locked := by
  have hprog : (s.abandon t).prog t = none := Function.update_self ..
  have hlock : (s.abandon t).lock = if s.lock = some t then none else s.lock := rfl
  refine h.move (t := t) ?_ (fun t' ht => Function.update_of_ne ht ..) fun t' ht => ?_
  · rw [hprog,hlock]
    split
    · exact nofun
    · assumption
  · rw [hlock]
    split
    · rename_i hheld
      rw [hheld,Option.some.injEq]
      exact ⟨nofun,fun h => absurd h.symm ht⟩
    · rfl

theorem Locked.step (h : s.Locked) (e : Event T) : (s.step retryAfterSecs e).Locked := by
  cases e with
  | tick ms => exact h.same rfl rfl
  | rateLimited retryAfterMs => exact h.same rfl rfl
  | turn t => exact h.turn
  | abandon t => exact h.abandon
  | respond t r =>
    change (s.respond retryAfterSecs t r).Locked
    unfold respond
    split
    · rename_i fr deadline k hprog
      split
      · exact (h.record r).hear (by rw [record_prog]; exact hprog) _
      · exact h
    · exact h

end lock

section window
variable {T : Type} {retryAfterSecs : String → Option Nat} {s : UpstreamProbe T} {t t' : T}

/-- No probe goes out inside a window that the client reports. -/
def Outside (s : UpstreamProbe T) : Event T → Prop
  | .turn t => s.launches t = true → (s.window.rateLimitPosture s.clock).inRetryWindow = false
  | _ => True

/-- No probe goes out before the instant. -/
def Since (L : Nat) (s : UpstreamProbe T) : Event T → Prop
  | .turn t => s.launches t = true → L ≤ s.clock
  | _ => True

/-- Other requests meet no 429 while a probe is under way. -/
def Undisturbed (s : UpstreamProbe T) : Event T → Prop
  | .rateLimited _ => s.lock = none
  | _ => True

/-- Other requests meet no 429 at all. -/
def Alone (_ : UpstreamProbe T) : Event T → Prop
  | .rateLimited _ => False
  | _ => True

instance (s : UpstreamProbe T) : (e : Event T) → Decidable (s.Undisturbed e)
  | .rateLimited _ => inferInstanceAs (Decidable (s.lock = none))
  | .tick _ | .turn _ | .respond .. | .abandon _ => .isTrue trivial

/-- A call is at a request only with the window over. -/
structure Quiet (s : UpstreamProbe T) : Prop where
  last_le : s.window.last429UnixMs ≤ s.clock
  ended : ∀ t p, s.prog t = some p → AtSend p → s.sent t = false → s.window.Over s.clock

theorem quiet_start {budget : T → Nat} {clock : Nat} {window : RetryWindow}
    (hlast : window.last429UnixMs ≤ clock) : (start budget clock window).Quiet where
  last_le := hlast
  ended t p hprog hp := by
    obtain rfl : probeUpstreamWithRetry (budget t) = p := Option.some.inj hprog
    exact hp.elim

theorem Quiet.tick (h : s.Quiet) (ms : Nat) :
    ({ s with clock := s.clock+ms } : UpstreamProbe T).Quiet where
  last_le := h.last_le.trans (Nat.le_add_right ..)
  ended t p hprog hp hsent := Traffic.over_add (h.ended t p hprog hp hsent) ms

theorem Quiet.outside (h : s.Quiet) (e : Event T) : s.Outside e := by
  cases e with
  | turn t =>
    intro hlaunch
    obtain ⟨p,hprog,hp,hsent⟩ := atSend_of_launches hlaunch
    exact (RetryWindow.inRetryWindow_eq_false h.last_le).mpr (h.ended t p hprog hp hsent)
  | _ => trivial

theorem record_clock (s : UpstreamProbe T) (r : Response) :
    (s.record retryAfterSecs r).clock = s.clock := by
  unfold record
  split <;> rfl

theorem last_record (h : s.window.last429UnixMs ≤ s.clock) (r : Response) :
    (s.record retryAfterSecs r).window.last429UnixMs ≤ s.clock := by
  unfold record
  split
  · exact le_refl s.clock
  · exact h

/-- What the window of a 429 is while nobody sends, or the end of that window. -/
def Resting (window : RetryWindow) (L : Nat) (s : UpstreamProbe T) : Prop :=
  L ≤ s.clock ∨ s.window = window ∧ ∀ t, s.sent t = false

theorem Resting.since {window : RetryWindow} (h : s.Resting window
      (window.last429UnixMs+window.lastRetryAfterMs)) (hopen : window.last429UnixMs≠0)
    (hq : s.Quiet) (e : Event T) :
    s.Since (window.last429UnixMs+window.lastRetryAfterMs) e := by
  cases e with
  | turn t =>
    intro hlaunch
    obtain ⟨p,hprog,hp,hunsent⟩ := atSend_of_launches hlaunch
    obtain hover | ⟨hwindow,-⟩ := h
    · exact hover
    · exact (hwindow ▸ hq.ended t p hprog hp hunsent).resolve_left hopen
  | _ => trivial

theorem Alone.undisturbed {e : Event T} (h : s.Alone e) : s.Undisturbed e := by
  cases e with
  | rateLimited retryAfterMs => exact h.elim
  | _ => trivial

variable [DecidableEq T]

theorem Quiet.resume (h : s.Quiet) {p : Probing ProbeOutcome}
    (hp : AtSend p → s.window.Over s.clock) : (s.resume t p).Quiet where
  last_le := h.last_le
  ended t' p' hprog hp' hsent := by
    by_cases ht : t' = t
    · subst ht
      obtain rfl : p = p' := by simpa [UpstreamProbe.resume] using hprog
      exact hp hp'
    · exact h.ended t' p' (by simpa [UpstreamProbe.resume,ht] using hprog) hp'
        (by simpa [UpstreamProbe.resume,ht] using hsent)

theorem Quiet.launch (h : s.Quiet) : (s.launch t).Quiet where
  last_le := h.last_le
  ended t' p hprog hp hsent := by
    by_cases ht : t' = t
    · subst ht
      simp [UpstreamProbe.launch] at hsent
    · exact h.ended t' p hprog hp (by simpa [UpstreamProbe.launch,ht] using hsent)

theorem Quiet.abandon (h : s.Quiet) : (s.abandon t).Quiet where
  last_le := h.last_le
  ended t' p hprog hp hsent := by
    have ht : t'≠t := by
      rintro rfl
      simp [UpstreamProbe.abandon] at hprog
    exact h.ended t' p (by simpa [UpstreamProbe.abandon,ht] using hprog) hp
      (by simpa [UpstreamProbe.abandon,ht] using hsent)

theorem Quiet.turn (h : s.Quiet) (hl : s.Locked) : (s.turn t).Quiet := by
  unfold UpstreamProbe.turn
  split
  · rename_i fr k hprog
    refine h.resume fun hsend => absurd hsend ?_
    obtain ⟨-,hheld⟩ | ⟨-,hentering⟩ := hl.placed hprog
    · exact (hheld s.clock).1
    · exact (hentering s.clock).not_atSend
  · rename_i fr k hprog
    split
    · obtain ⟨-,hheld⟩ | ⟨-,hsend,-,-⟩ := hl.placed hprog
      · exact hheld.elim
      · have hr : (s.resume t (k ())).Quiet := h.resume fun h => absurd h hsend
        exact ⟨hr.last_le,hr.ended⟩
    · exact h
  · rename_i fr k hprog
    refine h.resume fun hsend => ?_
    obtain ⟨-,hheld⟩ | ⟨-,hentering⟩ := hl.placed hprog
    · exact (RetryWindow.inRetryWindow_eq_false h.last_le).mp ((hheld _).1 hsend)
    · exact hentering.elim
  · rename_i fr deadline k hprog
    obtain ⟨-,hheld⟩ := hl.atSend hprog trivial
    split
    · have hr := h.resume (t := t) fun hsend => absurd hsend (hheld (.error .Timeout)).1
      exact ⟨hr.last_le,hr.ended⟩
    · split
      · exact h
      · exact h.launch
  · exact h

/-- Only the call that is answered can be at a request, and it leaves that. -/
theorem Locked.no_send_of_hear (h : s.Locked) {fr : Unit} {deadline : Nat}
    {k : ApiReply .getTopLevel → Probing ProbeOutcome}
    (hprog : s.prog t = some (.call fr (.send deadline) k)) (reply : ApiReply .getTopLevel)
    {p : Probing ProbeOutcome} (hp : (s.hear t reply k).prog t' = some p) : ¬AtSend p := by
  obtain ⟨hlock,hheld⟩ := h.atSend hprog trivial
  intro hsend
  by_cases ht : t' = t
  · subst ht
    obtain rfl : k reply = p := by simpa [UpstreamProbe.hear,UpstreamProbe.resume] using hp
    exact (hheld reply).1 hsend
  · have hp : s.prog t' = some p := by simpa [UpstreamProbe.hear,UpstreamProbe.resume,ht] using hp
    exact ht (Option.some.inj ((h.atSend hp hsend).1.symm.trans hlock))

theorem Quiet.respond (h : s.Quiet) (hl : s.Locked) (r : Response) :
    (s.respond retryAfterSecs t r).Quiet := by
  unfold UpstreamProbe.respond
  split
  · rename_i fr deadline k hprog
    split
    · have hprog' : (s.record retryAfterSecs r).prog t = some (.call fr (.send deadline) k) := by
        rw [record_prog]
        exact hprog
      refine ⟨?_,fun t' p hp hsend => absurd hsend ((hl.record r).no_send_of_hear hprog' _ hp)⟩
      change (s.record retryAfterSecs r).window.last429UnixMs ≤ (s.record retryAfterSecs r).clock
      rw [record_clock]
      exact last_record h.last_le r
    · exact h
  · exact h

theorem Quiet.step (h : s.Quiet) (hl : s.Locked) {e : Event T} (he : s.Undisturbed e) :
    (s.step retryAfterSecs e).Quiet := by
  cases e with
  | tick ms => exact h.tick ms
  | turn t => exact h.turn hl
  | respond t r => exact h.respond hl r
  | abandon t => exact h.abandon
  | rateLimited retryAfterMs =>
    have hfree : s.lock = none := he
    refine ⟨le_refl s.clock,fun t p hprog hsend _ => ?_⟩
    cases hfree.symm.trans (hl.atSend hprog hsend).1

theorem turn_window (s : UpstreamProbe T) (t : T) :
    (s.turn t).window = s.window ∧ (s.turn t).clock = s.clock := by
  unfold UpstreamProbe.turn
  split
  · exact ⟨rfl,rfl⟩
  · split <;> exact ⟨rfl,rfl⟩
  · exact ⟨rfl,rfl⟩
  · split
    · exact ⟨rfl,rfl⟩
    · split <;> exact ⟨rfl,rfl⟩
  · exact ⟨rfl,rfl⟩

theorem step_clock (s : UpstreamProbe T) (e : Event T) :
    s.clock ≤ (s.step retryAfterSecs e).clock := by
  cases e with
  | tick ms => exact Nat.le_add_right ..
  | rateLimited retryAfterMs => exact le_refl s.clock
  | turn t => exact (turn_window s t).2.ge
  | abandon t => exact le_refl s.clock
  | respond t r =>
    change s.clock ≤ (s.respond retryAfterSecs t r).clock
    unfold respond
    split
    · split
      · exact (record_clock s r).ge
      · exact le_refl s.clock
    · exact le_refl s.clock

/-- While nobody sends and nothing else meets a 429 the window stays; who sends first does so behind
its end. -/
theorem Resting.step {window : RetryWindow} (h : s.Resting window
      (window.last429UnixMs+window.lastRetryAfterMs)) (hopen : window.last429UnixMs≠0)
    (hq : s.Quiet) {e : Event T} (he : s.Alone e) :
    (s.step retryAfterSecs e).Resting window (window.last429UnixMs+window.lastRetryAfterMs) := by
  obtain hover | ⟨hwindow,hsent⟩ := h
  · exact .inl (hover.trans (step_clock s e))
  cases e with
  | rateLimited retryAfterMs => exact he.elim
  | tick ms => exact .inr ⟨hwindow,hsent⟩
  | abandon t =>
    refine .inr ⟨hwindow,fun t' => ?_⟩
    change Function.update s.sent t false t' = false
    rw [Function.update_apply,hsent t',ite_self]
  | respond t r =>
    have hsame : s.respond retryAfterSecs t r = s := by
      unfold respond
      split
      · rw [if_neg (by simp [hsent t])]
      · rfl
    change (s.respond retryAfterSecs t r).Resting window _
    rw [hsame]
    exact .inr ⟨hwindow,hsent⟩
  | turn t =>
    change (s.turn t).Resting window _
    by_cases hlaunch : s.launches t = true
    · obtain ⟨p,hprog,hp,hunsent⟩ := atSend_of_launches hlaunch
      obtain hz | hover := hwindow ▸ hq.ended t p hprog hp hunsent
      · exact absurd hz hopen
      · exact .inl (hover.trans (turn_window s t).2.ge)
    · refine .inr ⟨(turn_window s t).1.trans hwindow,fun t' => Bool.eq_false_iff.mpr fun h => ?_⟩
      obtain ⟨-,hout | ⟨rfl,hnew⟩⟩ := kept_turn s t t' h
      · simp [hsent t'] at hout
      · exact hlaunch hnew

/-- Behind the 429 of a probe nobody is at a request, and the window is the one that it was told. -/
theorem resting_limited (hout : s.Out) (hl : s.Locked) (hsent : s.sent t = true) {text : String}
    {ms : Nat} (hhint : waitAsked retryAfterSecs text = some ms) :
    (s.respond retryAfterSecs t (.failure 429 text)).Quiet ∧
      (s.respond retryAfterSecs t (.failure 429 text)).Resting ⟨s.clock,ms⟩ (s.clock+ms) := by
  obtain ⟨p,hprog,hsend⟩ := hout t hsent
  match p,hsend with
  | .call fr (.send deadline) k,_ =>
    have hlock := (hl.atSend hprog trivial).1
    have hanswer : s.respond retryAfterSecs t (.failure 429 text) =
        (s.stamped (some ms)).hear t (.error (.ApiError 429 text)) k := by
      unfold respond
      rw [hprog]
      dsimp only
      rw [if_pos hsent,← hhint]
      rfl
    rw [hanswer]
    have hl' : (s.stamped (some ms)).Locked := hl.same rfl rfl
    refine ⟨⟨le_refl s.clock,fun t' p hp hsend => absurd hsend (hl'.no_send_of_hear hprog _ hp)⟩,
      .inr ⟨rfl,fun t' => Bool.eq_false_iff.mpr fun h => ?_⟩⟩
    by_cases ht : t' = t
    · subst ht
      simp [hear,UpstreamProbe.resume] at h
    · have h : s.sent t' = true := by simpa [hear,UpstreamProbe.resume,stamped,ht] using h
      obtain ⟨p',hprog',hsend'⟩ := hout t' h
      exact ht (Option.some.inj ((hl.atSend hprog' hsend').1.symm.trans hlock))

end window

section probes
variable {T : Type} [DecidableEq T] (retryAfterSecs : String → Option Nat)

structure Sound (s : UpstreamProbe T) : Prop where
  out : s.Out
  locked : s.Locked
  booked : s.Booked

theorem sound_run (budget : T → Nat) (clock : Nat) (window : RetryWindow) (es : List (Event T)) :
    (Runs.run (step retryAfterSecs) (start budget clock window) es).Sound :=
  Runs.run_keeps (fun _ e h => ⟨h.out.step e,h.locked.step e,h.booked.step h.out e⟩)
    ⟨nofun,locked_start budget clock window,booked_start budget clock window⟩ es

theorem alone_of_forall {s : UpstreamProbe T} {es : List (Event T)}
    (h : ∀ e∈es, ∀ hint, e≠.rateLimited hint) : Runs.Meets (step retryAfterSecs) Alone s es := by
  induction es generalizing s with
  | nil => trivial
  | cons e es ih =>
    refine ⟨?_,ih fun e' he' => h e' (List.mem_cons_of_mem e he')⟩
    cases e with
    | rateLimited hint => exact h _ List.mem_cons_self hint rfl
    | _ => trivial

/-- In every interleaving at most one probe waits for a response, and what a call returns is what
its own sends came back with. -/
theorem probes_told (budget : T → Nat) (clock : Nat) (window : RetryWindow) (es : List (Event T)) :
    (∀ t t', (Runs.run (step retryAfterSecs) (start budget clock window) es).sent t = true →
      (Runs.run (step retryAfterSecs) (start budget clock window) es).sent t' = true → t = t') ∧
    ∀ t o, (Runs.run (step retryAfterSecs) (start budget clock window) es).prog t = some (.ret o) →
      (Runs.run (step retryAfterSecs) (start budget clock window) es).requests t ≤
        ((Runs.run (step retryAfterSecs) (start budget clock window) es).heard t).length ∧
      Told ((Runs.run (step retryAfterSecs) (start budget clock window) es).heard t) o := by
  have h := sound_run retryAfterSecs budget clock window es
  generalize Runs.run (step retryAfterSecs) (start budget clock window) es = s at h
  refine ⟨fun t t' ht ht' => ?_,fun t o hprog => ?_⟩
  · obtain ⟨p,hp,hsend⟩ := h.out t ht
    obtain ⟨p',hp',hsend'⟩ := h.out t' ht'
    have hlock := (h.locked.atSend hp hsend).1
    exact Option.some.inj (hlock.symm.trans (h.locked.atSend hp' hsend').1)
  · exact ⟨h.booked.requests_le h.out hprog not_false,(h.booked t _ hprog).reports⟩

/-- Where no other request meets a 429 while a probe is under way, no probe goes out inside an open
window. -/
theorem probes_outside (budget : T → Nat) {clock : Nat} {window : RetryWindow}
    (hlast : window.last429UnixMs ≤ clock) {es : List (Event T)}
    (h : Runs.Meets (step retryAfterSecs) Undisturbed (start budget clock window) es) :
    Runs.Meets (step retryAfterSecs) Outside (start budget clock window) es :=
  h.imp (I := fun s => s.Locked ∧ s.Quiet) (fun _ e he hs => ⟨hs.1.step e,hs.2.step hs.1 he⟩)
    (fun _ e _ hs => hs.2.outside e) ⟨locked_start budget clock window,quiet_start hlast⟩

theorem waitAsked_eq {secs : Nat} {text : String} (htext : retryAfterSecs text = some secs)
    (hsecs : secs*1000 < 2^64) : waitAsked retryAfterSecs text = some (max secs 1*1000) := by
  have hall : ∀ secs∈retryAfterSecs text, secs*1000 < 2^64 := by
    intro secs' hsecs'
    obtain rfl : secs = secs' := Option.some.inj (htext.symm.trans hsecs')
    exact hsecs
  rw [waitAsked,(RetryDelay.parseRetryAfter_iff retryAfterSecs text).mpr hall .release,
    Option.join_some,Traffic.parseRetryAfter,htext]
  rfl

/-- Once a probe is told to wait, for a time that is a `u64` in milliseconds, however often and from
wherever it is polled behind that, no probe goes out before the time is over. -/
theorem polling_waits (budget : T → Nat) {clock : Nat} (hclock : 0 < clock) (window : RetryWindow)
    {before behind : List (Event T)} {t : T} {text : String} {secs : Nat}
    (hsent : (Runs.run (step retryAfterSecs) (start budget clock window) before).sent t = true)
    (htext : retryAfterSecs text = some secs) (hsecs : secs*1000 < 2^64)
    (hbehind : ∀ e∈behind, ∀ hint, e≠.rateLimited hint) :
    Runs.Meets (step retryAfterSecs)
      (Since ((Runs.run (step retryAfterSecs) (start budget clock window) before).clock+
        max secs 1*1000))
      (Runs.run (step retryAfterSecs) (start budget clock window)
        (before++[.respond t (.failure 429 text)])) behind := by
  have h := sound_run retryAfterSecs budget clock window before
  have hpos : 0<(Runs.run (step retryAfterSecs) (start budget clock window) before).clock := by
    refine Runs.run_keeps (I := fun s : UpstreamProbe T => 0<s.clock) (fun s e hs => ?_) hclock
      before
    exact Nat.lt_of_lt_of_le hs (step_clock s e)
  rw [Runs.run_concat]
  generalize Runs.run (step retryAfterSecs) (start budget clock window) before = s at h hpos hsent
  obtain ⟨hquiet,hresting⟩ := resting_limited h.out h.locked hsent
    (waitAsked_eq retryAfterSecs htext hsecs)
  refine (alone_of_forall retryAfterSecs hbehind).imp
    (I := fun s' => s'.Locked ∧ s'.Quiet ∧ s'.Resting ⟨s.clock,max secs 1*1000⟩
      (s.clock+max secs 1*1000))
    (fun _ e he hs => ?_) (fun _ e _ hs => ?_) ⟨h.locked.step _,hquiet,hresting⟩
  · exact ⟨hs.1.step e,hs.2.1.step hs.1 he.undisturbed,hs.2.2.step hpos.ne' hs.2.1 he⟩
  · exact hs.2.2.since hpos.ne' hs.2.1 e

/-- Two calls: the first is let in, and is told to wait for 26 seconds. -/
def polledOnce : List (Event Bool) :=
  [.turn false,.turn true,.turn false,.turn true,.turn false,.turn false,.turn false]

def polledAgain : List (Event Bool) :=
  [.turn false,.turn true,.tick 1000,.turn true,.turn true,.turn true]

theorem probes_outside_polled : Runs.Meets (step fun _ => some 26) Outside
    (start (fun _ : Bool => 5000) 1000 {})
    (polledOnce++.respond false (.failure 429 "\x7b\"retry_after\":26\x7d")::polledAgain) :=
  probes_outside (fun _ => some 26) _ (by decide) (by decide +kernel)

theorem polling_waits_polled : Runs.Meets (step fun _ => some 26)
    (Since ((Runs.run (step fun _ => some 26) (start (fun _ : Bool => 5000) 1000 {})
      polledOnce).clock+26000))
    (Runs.run (step fun _ => some 26) (start (fun _ : Bool => 5000) 1000 {})
      (polledOnce++[.respond false (.failure 429 "\x7b\"retry_after\":26\x7d")])) polledAgain :=
  polling_waits (fun _ => some 26) _ (by decide) {} (by decide +kernel) rfl (by decide)
    (by simp [polledAgain])

end probes

end UpstreamProbe
end WorkflowyMcp
