import WorkflowyMcp.RateLimiter
import WorkflowyMcp.RequestLoop
import WorkflowyMcp.RetryWindow

/-! Concurrent calls of the request funnel on one client: they share the clock, the token bucket
and the retry window, and take their steps in any order. -/
namespace WorkflowyMcp

/- What one HTTP send comes back with. The body of a success may fail to parse; a transport
   error has its text and whether it is of a retryable kind. -/
inductive Response where
  | success (body : ∀ q, Except (String × Bool) (ApiResult q))
  | failure (status : Nat) (text : String)
  | unreachable (text : String) (transient : Bool)

def Response.reply (q : ApiCall) : Response → ApiReply q
  | .success body => (body q).mapError fun e => .HttpError e.1 e.2
  | .failure status text => .error (.ApiError status text)
  | .unreachable text transient => .error (.HttpError text transient)

def RETRY_BASE_DELAY_MS : Nat := 1000
def RETRY_MAX_DELAY_MS : Nat := 10000

structure RetryConfig where
  maxAttempts : Nat := RETRY_MAX_ATTEMPTS
  baseDelayMs : Nat := RETRY_BASE_DELAY_MS
  maxDelayMs : Nat := RETRY_MAX_DELAY_MS
deriving DecidableEq, Repr

/-- The delay is off by up to a tenth, as the random number has it. -/
def calculateBackoff (config : RetryConfig) (attempt random : Nat) : Nat :=
  let capped := min (config.baseDelayMs*2^(attempt-1)) config.maxDelayMs
  let jitter := capped/10
  capped+random%(2*jitter+1)-jitter

/- The clock is in milliseconds. `sent` marks the calls that wait for a response and `wakes` those
   that sleep between two attempts. Two ghosts: `since` marks the calls behind whose entry check a
   429 was stamped, and `lastBy` is the call whose 429 was stamped last. -/
structure Traffic {T : Type} (calls : T → ApiCall) where
  clock : Nat
  window : RetryWindow
  rateLimiter : TokenBucket
  prog : (t : T) → Net (ApiReply (calls t))
  sent : T → Bool := fun _ => false
  wakes : T → Option Nat := fun _ => none
  since : T → Bool := fun _ => false
  lastBy : Option T := none

namespace Traffic

inductive Event (T : Type) where
  | tick (ms : Nat)
  | posture (t : T)
  | look (t : T) (b : Bool)
  | acquire (t : T)
  | unqueue (t : T)
  | send (t : T)
  | respond (t : T) (r : Response)
  | drop (t : T) (late : Bool)
  | backoff (t : T) (random : Nat)
  | wake (t : T)
  | abort (t : T) (late : Bool)

def Event.sender {T : Type} : Event T → Option T
  | .send t => some t
  | _ => none

def abortError (late : Bool) : WorkflowyError := if late then .Timeout else .Cancelled

section step
variable {T : Type} [DecidableEq T] {calls : T → ApiCall} (config : RetryConfig)
  (retryAfterSecs : String → Option Nat)

/-- In milliseconds, of any size; `RetryDelay` has them as a `u64`. `retryAfterSecs` is the JSON
reading of the body's field. -/
def parseRetryAfter (body : String) : Option Nat :=
  (retryAfterSecs body).map fun secs => max secs 1*1000

/-- The delay before the next attempt. -/
def delayMs (attempt random : Nat) : WorkflowyError → Nat
  | .ApiError 429 message =>
    (parseRetryAfter retryAfterSecs message).getD (calculateBackoff config attempt random)
  | _ => calculateBackoff config attempt random

def resume (s : Traffic calls) (t : T) (p : Net (ApiReply (calls t))) : Traffic calls :=
  { s with prog := Function.update s.prog t p, sent := Function.update s.sent t false,
           wakes := Function.update s.wakes t none }

def stampRateLimited (s : Traffic calls) (t : T) (retryAfterMs : Option Nat) : Traffic calls :=
  { s with
    window := s.window.stampRateLimited s.clock retryAfterMs
    rateLimiter := s.rateLimiter.drain (s.clock/1000)
    since := fun _ => true
    lastBy := some t }

/-- What a response does to the client. -/
def record (s : Traffic calls) (t : T) : Response → Traffic calls
  | .success _ => { s with rateLimiter := s.rateLimiter.reward }
  | .failure 429 text => s.stampRateLimited t (parseRetryAfter retryAfterSecs text)
  | .failure .. | .unreachable .. => s

/- A call takes the step its program is suspended at; an event that is not due changes
   nothing. A guard or a deadline may cut a request short before it is sent or after. -/
def step (s : Traffic calls) : Event T → Traffic calls
  | .tick ms => { s with clock := s.clock+ms }
  | .posture t =>
    match s.prog t with
    | .call _ .retryAfterRemainingMs k =>
      { (s.resume t (k (s.window.rateLimitPosture s.clock).retryAfterRemainingMs)) with
        since := Function.update s.since t false }
    | _ => s
  | .look t b =>
    match s.prog t with
    | .call _ (.isCancelled _) k => s.resume t (k b)
    | .call _ (.isPastDeadline _) k => s.resume t (k b)
    | _ => s
  | .acquire t =>
    match s.prog t with
    | .call _ .acquire k =>
      let r := s.rateLimiter.tryConsumeOrWait (s.clock/1000)
      { (if r.1.isOk then s.resume t (k true) else s) with rateLimiter := r.2 }
    | _ => s
  | .unqueue t =>
    match s.prog t with
    | .call _ .acquire k => s.resume t (k false)
    | _ => s
  | .send t =>
    match s.prog t with
    | .call _ (.send _) _ => { s with sent := Function.update s.sent t true }
    | _ => s
  | .respond t r =>
    match s.prog t with
    | .call _ (.send q) k =>
      if s.sent t then (s.resume t (k (r.reply q))).record retryAfterSecs t r else s
    | _ => s
  | .drop t late =>
    match s.prog t with
    | .call _ (.send _) k => s.resume t (k (.error (abortError late)))
    | _ => s
  | .backoff t random =>
    match s.prog t with
    | .call _ (.backoff attempt e) _ =>
      let time := s.clock+delayMs config retryAfterSecs attempt random e
      if (s.wakes t).isNone then { s with wakes := Function.update s.wakes t (some time) } else s
    | _ => s
  | .wake t =>
    match s.prog t,s.wakes t with
    | .call _ (.backoff ..) k,some time =>
      if time ≤ s.clock then s.resume t (k (.ok ())) else s
    | _,_ => s
  | .abort t late =>
    match s.prog t with
    | .call _ (.backoff ..) k => s.resume t (k (.error (abortError late)))
    | _ => s

/-- The call sends when it is scheduled. -/
def sends (s : Traffic calls) (t : T) : Bool :=
  match s.prog t with
  | .call _ (.send _) _ => !s.sent t
  | _ => false

/-- No send goes out inside the window that the client reports. -/
def Outside (s : Traffic calls) (e : Event T) : Prop :=
  ∀ t∈e.sender, s.sends t → (s.window.rateLimitPosture s.clock).inRetryWindow = false

/-- No call sends inside a window that another call's 429 opened behind its entry check. -/
def Unhindered (s : Traffic calls) (e : Event T) : Prop :=
  ∀ t∈e.sender, s.sends t → s.since t → s.lastBy≠some t → s.window.Over s.clock

instance (s : Traffic calls) (e : Event T) : Decidable (s.Outside e) :=
  inferInstanceAs (Decidable (∀ t∈e.sender, _ → _))

instance (s : Traffic calls) (e : Event T) : Decidable (s.Unhindered e) :=
  inferInstanceAs (Decidable (∀ t∈e.sender, _ → _ → _ → _))

end step

section shape
variable {α : Type}

def Returns : Net α → Prop
  | .ret _ => True
  | .call .. => False

def Rests (e : WorkflowyError) : Net α → Prop
  | .ret _ => True
  | .call _ (.backoff _ e') _ => e' = e
  | .call .. => False

/-- The program has returned, or is at its entry check. -/
def Fenced : Net α → Prop
  | .ret _ => True
  | .call _ .retryAfterRemainingMs _ => True
  | .call .. => False

/- The program returns on an open window, returns or rests on an error, and returns where its
   rest is cut short. -/
def Backs : Net α → Prop
  | .ret _ => True
  | .call _ .retryAfterRemainingMs k => (∀ ms, Returns (k (some ms))) ∧ ∀ r, Backs (k r)
  | .call _ (.send _) k => (∀ e, Rests e (k (.error e))) ∧ ∀ r, Backs (k r)
  | .call _ (.backoff ..) k => (∀ e, Returns (k (.error e))) ∧ ∀ r, Backs (k r)
  | .call _ _ k => ∀ r, Backs (k r)

theorem Returns.fenced {p : Net α} (h : Returns p) : Fenced p := by
  cases p with
  | ret a => trivial
  | call fr a k => cases h

theorem backs_sendAttempt {q : ApiCall} {f : ApiReply q → Net α}
    (hrests : ∀ e, Rests e (f (.error e))) (hf : ∀ r, Backs (f r)) :
    Backs ((Client.sendAttempt q).bind f) := by
  intro cancelled
  cases cancelled with
  | true => exact hf _
  | false =>
    intro late
    cases late with
    | true => exact hf _
    | false =>
      intro acquired
      cases acquired with
      | false => exact hf _
      | true =>
        intro late
        cases late with
        | true => exact hf _
        | false => exact ⟨hrests,hf⟩

theorem backs_requestLoop (q : ApiCall) (attempt left : Nat) :
    Backs (Client.requestLoop q attempt left) := by
  induction left generalizing attempt with
  | zero => exact backs_sendAttempt (fun e => trivial) fun r => by cases r <;> trivial
  | succ left ih =>
    refine backs_sendAttempt (fun e => ?_) fun r => ?_
    · by_cases he : e.isRetryable
      · simp only [he,if_true]
        rfl
      · simp only [he]
        trivial
    · cases r with
      | ok r => trivial
      | error e =>
        by_cases he : e.isRetryable
        · simp only [he,if_true]
          refine ⟨fun abort => trivial,fun r => ?_⟩
          cases r with
          | error abort => trivial
          | ok u => exact ih (attempt+1)
        · simp only [he]
          trivial

theorem backs_requestCancellable (maxAttempts : Nat) (q : ApiCall) :
    Backs (Client.requestCancellable maxAttempts q) := by
  refine ⟨fun ms => trivial,fun r => ?_⟩
  cases r with
  | some ms => trivial
  | none => exact backs_requestLoop q 1 (maxAttempts-1)

end shape

section run
variable {T : Type} [DecidableEq T] {calls : T → ApiCall} {config : RetryConfig}
  {retryAfterSecs : String → Option Nat} {s : Traffic calls} {t : T}

/-- The call has returned, or rests until the open window is over. -/
def Waits (config : RetryConfig) (retryAfterSecs : String → Option Nat) (s : Traffic calls)
    (t : T) : Prop :=
  match s.prog t with
  | .ret _ => True
  | .call _ (.backoff attempt e) _ =>
    match s.wakes t with
    | none => ∀ random, s.window.lastRetryAfterMs ≤ delayMs config retryAfterSecs attempt random e
    | some time => s.window.last429UnixMs+s.window.lastRetryAfterMs ≤ time
  | .call .. => False

/-- What every step keeps. -/
structure Paced (config : RetryConfig) (retryAfterSecs : String → Option Nat)
    (s : Traffic calls) : Prop where
  last_le : s.window.last429UnixMs ≤ s.clock
  backs : ∀ t, Backs (s.prog t)
  checked : ∀ t, s.since t = false → Fenced (s.prog t) ∨ s.window.Over s.clock
  own : ∀ t, s.lastBy = some t → Waits config retryAfterSecs s t ∨ s.window.Over s.clock

theorem over_add {w : RetryWindow} {now : Nat} (h : w.Over now) (ms : Nat) : w.Over (now+ms) :=
  h.imp_right fun hend => hend.trans (Nat.le_add_right now ms)

@[simp] theorem resume_prog_self (p : Net (ApiReply (calls t))) : (s.resume t p).prog t = p :=
  Function.update_self ..

theorem resume_prog_of_ne {t' : T} (ht : t'≠t) (p : Net (ApiReply (calls t))) :
    (s.resume t p).prog t' = s.prog t' :=
  Function.update_of_ne ht ..

theorem resume_wakes_of_ne {t' : T} (ht : t'≠t) (p : Net (ApiReply (calls t))) :
    (s.resume t p).wakes t' = s.wakes t' :=
  Function.update_of_ne ht ..

theorem waits_of_returns {p : Net (ApiReply (calls t))} (h : Returns p) :
    Waits config retryAfterSecs (s.resume t p) t := by
  cases p with
  | ret a => simp [Waits]
  | call fr a k => cases h

theorem waits_resume_of_ne {t' : T} (ht : t'≠t) (p : Net (ApiReply (calls t))) :
    Waits config retryAfterSecs (s.resume t p) t' ↔ Waits config retryAfterSecs s t' := by
  unfold Waits
  rw [resume_prog_of_ne ht,resume_wakes_of_ne ht]
  rfl

/-- A call goes on where the window is over, or where it stays away from it. -/
theorem Paced.resume (h : Paced config retryAfterSecs s) {p : Net (ApiReply (calls t))}
    (hp : Backs p) (hchecked : s.since t = false → Fenced p ∨ s.window.Over s.clock)
    (hown : s.lastBy = some t → Returns p ∨ s.window.Over s.clock) :
    Paced config retryAfterSecs (s.resume t p) where
  last_le := h.last_le
  backs t' := by
    by_cases ht : t' = t
    · subst ht
      exact (resume_prog_self p).symm ▸ hp
    · rw [resume_prog_of_ne ht]
      exact h.backs t'
  checked t' hs := by
    by_cases ht : t' = t
    · subst ht
      exact (hchecked hs).imp_left fun hf => (resume_prog_self p).symm ▸ hf
    · rw [resume_prog_of_ne ht]
      exact h.checked t' hs
  own t' hl := by
    by_cases ht : t' = t
    · subst ht
      exact (hown hl).imp_left waits_of_returns
    · exact (h.own t' hl).imp_left (waits_resume_of_ne ht p).mpr

omit [DecidableEq T] in
/-- A call that is neither fenced nor at rest was stopped by no open window but another's. -/
theorem Paced.over_of_since (h : Paced config retryAfterSecs s) (hf : ¬Fenced (s.prog t))
    (hs : s.since t = false) : s.window.Over s.clock :=
  (h.checked t hs).resolve_left hf

omit [DecidableEq T] in
theorem Paced.over_of_own (h : Paced config retryAfterSecs s)
    (hw : ¬Waits config retryAfterSecs s t) (hl : s.lastBy = some t) : s.window.Over s.clock :=
  (h.own t hl).resolve_left hw

theorem Paced.resume_busy (h : Paced config retryAfterSecs s) {p : Net (ApiReply (calls t))}
    (hp : Backs p) (hf : ¬Fenced (s.prog t)) (hw : ¬Waits config retryAfterSecs s t) :
    Paced config retryAfterSecs (s.resume t p) :=
  h.resume hp (fun hs => .inr (h.over_of_since hf hs)) fun hl => .inr (h.over_of_own hw hl)

omit [DecidableEq T] in
theorem Paced.rateLimiter (h : Paced config retryAfterSecs s) (b : TokenBucket) :
    Paced config retryAfterSecs { s with rateLimiter := b } where
  last_le := h.last_le
  backs := h.backs
  checked := h.checked
  own := h.own

omit [DecidableEq T] in
theorem Paced.tick (h : Paced config retryAfterSecs s) (ms : Nat) :
    Paced config retryAfterSecs { s with clock := s.clock+ms } where
  last_le := h.last_le.trans (Nat.le_add_right ..)
  backs := h.backs
  checked t hs := (h.checked t hs).imp_right fun ho => over_add ho ms
  own t hl := (h.own t hl).imp_right fun ho => over_add ho ms

/-- After its own 429 a call rests for as long as the hint says. -/
theorem waits_of_rests {p : Net (ApiReply (calls t))} {text : String} {hint : Option Nat}
    (hhint : hint = parseRetryAfter retryAfterSecs text) (hp : Rests (.ApiError 429 text) p) :
    Waits config retryAfterSecs ((s.resume t p).stampRateLimited t hint) t := by
  unfold Waits
  have hprog : ((s.resume t p).stampRateLimited t hint).prog t = p := resume_prog_self p
  have hwakes : ((s.resume t p).stampRateLimited t hint).wakes t = none :=
    Function.update_self ..
  rw [hprog,hwakes]
  match p,hp with
  | .ret a,_ => trivial
  | .call fr (.backoff attempt e) k,hp =>
    obtain rfl : e = .ApiError 429 text := hp
    intro random
    show hint.getD 0 ≤ (parseRetryAfter retryAfterSecs text).getD _
    rw [hhint]
    cases parseRetryAfter retryAfterSecs text with
    | none => exact Nat.zero_le _
    | some ms => exact le_refl ms

theorem Paced.limited (h : Paced config retryAfterSecs s) {p : Net (ApiReply (calls t))}
    (hb : Backs p) {text : String} (hp : Rests (.ApiError 429 text) p) :
    Paced config retryAfterSecs
      ((s.resume t p).stampRateLimited t (parseRetryAfter retryAfterSecs text)) where
  last_le := le_refl s.clock
  backs t' := by
    by_cases ht : t' = t
    · subst ht
      exact (resume_prog_self p).symm ▸ hb
    · exact (resume_prog_of_ne ht p).symm ▸ h.backs t'
  checked t' hs := by cases hs
  own t' hl := by
    obtain rfl := Option.some.inj hl
    exact .inl (waits_of_rests rfl hp)

theorem Paced.posture (h : Paced config retryAfterSecs s) :
    Paced config retryAfterSecs (step config retryAfterSecs s (.posture t)) := by
  unfold step
  dsimp only
  split
  · rename_i fr k hprog
    have hb : Backs (.call fr .retryAfterRemainingMs k) := hprog ▸ h.backs t
    have hk : Returns (k (s.window.rateLimitPosture s.clock).retryAfterRemainingMs) ∨
        s.window.Over s.clock := by
      cases hr : (s.window.rateLimitPosture s.clock).retryAfterRemainingMs with
      | none => exact .inr ((RetryWindow.remaining_eq_none h.last_le).mp hr)
      | some ms => exact .inl (hb.1 ms)
    have hr := h.resume (hb.2 _) (fun _ => hk.imp_left Returns.fenced) fun _ => hk
    refine ⟨hr.last_le,hr.backs,fun t' hs => ?_,hr.own⟩
    by_cases ht : t' = t
    · subst ht
      refine hk.imp_left fun hret => ?_
      rw [resume_prog_self]
      exact hret.fenced
    · have hs' : s.since t' = false := (Function.update_of_ne ht false s.since).symm.trans hs
      exact hr.checked t' hs'
  · exact h

theorem Paced.respond (h : Paced config retryAfterSecs s) (r : Response) :
    Paced config retryAfterSecs (step config retryAfterSecs s (.respond t r)) := by
  unfold step
  dsimp only
  split
  · rename_i fr q k hprog
    have hb : Backs (.call fr (.send q) k) := hprog ▸ h.backs t
    have hr := h.resume_busy (t := t) (hb.2 (r.reply q)) (by simp [hprog,Fenced])
      (by simp [Waits,hprog])
    split
    · unfold record
      split
      · exact hr.rateLimiter _
      · exact h.limited (hb.2 _) (hb.1 _)
      · exact hr
      · exact hr
    · exact h
  · exact h

theorem Paced.acquire (h : Paced config retryAfterSecs s) :
    Paced config retryAfterSecs (step config retryAfterSecs s (.acquire t)) := by
  unfold step
  dsimp only
  split
  · rename_i fr k hprog
    have hb : Backs (.call fr .acquire k) := hprog ▸ h.backs t
    refine Paced.rateLimiter ?_ _
    split
    · exact h.resume_busy (hb true) (by simp [hprog,Fenced]) (by simp [Waits,hprog])
    · exact h
  · exact h

theorem Paced.sleeps (h : Paced config retryAfterSecs s) (random : Nat) :
    Paced config retryAfterSecs (step config retryAfterSecs s (.backoff t random)) := by
  unfold step
  dsimp only
  split
  · rename_i fr attempt e k hprog
    split
    · rename_i hnone
      refine ⟨h.last_le,h.backs,h.checked,fun t' hl => (h.own t' hl).imp_left fun hw => ?_⟩
      by_cases ht : t' = t
      · subst ht
        simp only [Waits,hprog,Option.isNone_iff_eq_none.mp hnone] at hw
        simp only [Waits,hprog,Function.update_self]
        exact Nat.add_le_add h.last_le (hw random)
      · simp only [Waits,Function.update_of_ne ht]
        exact hw
    · exact h
  · exact h

theorem Paced.wake (h : Paced config retryAfterSecs s) :
    Paced config retryAfterSecs (step config retryAfterSecs s (.wake t)) := by
  unfold step
  dsimp only
  split
  · rename_i fr attempt e k time hprog hwakes
    have hb : Backs (.call fr (.backoff attempt e) k) := hprog ▸ h.backs t
    split
    · rename_i hdue
      refine h.resume (hb.2 _) (fun hs => .inr ?_) fun hl => .inr ?_
      · exact h.over_of_since (by simp [hprog,Fenced]) hs
      · refine (h.own t hl).elim (fun hw => ?_) id
        simp only [Waits,hprog,hwakes] at hw
        exact .inr (hw.trans hdue)
    · exact h
  · exact h

theorem Paced.step (h : Paced config retryAfterSecs s) (e : Event T) :
    Paced config retryAfterSecs (Traffic.step config retryAfterSecs s e) := by
  cases e with
  | tick ms => exact h.tick ms
  | posture t => exact h.posture
  | respond t r => exact h.respond r
  | acquire t => exact h.acquire
  | backoff t random => exact h.sleeps random
  | wake t => exact h.wake
  | look t b =>
    unfold Traffic.step
    dsimp only
    split
    · rename_i fr site k hprog
      have hb : Backs (.call fr (.isCancelled site) k) := hprog ▸ h.backs t
      exact h.resume_busy (hb b) (by simp [hprog,Fenced]) (by simp [Waits,hprog])
    · rename_i fr site k hprog
      have hb : Backs (.call fr (.isPastDeadline site) k) := hprog ▸ h.backs t
      exact h.resume_busy (hb b) (by simp [hprog,Fenced]) (by simp [Waits,hprog])
    · exact h
  | unqueue t =>
    unfold Traffic.step
    dsimp only
    split
    · rename_i fr k hprog
      have hb : Backs (.call fr .acquire k) := hprog ▸ h.backs t
      exact h.resume_busy (hb false) (by simp [hprog,Fenced]) (by simp [Waits,hprog])
    · exact h
  | send t =>
    unfold Traffic.step
    dsimp only
    split
    · exact ⟨h.last_le,h.backs,h.checked,h.own⟩
    · exact h
  | drop t late =>
    unfold Traffic.step
    dsimp only
    split
    · rename_i fr q k hprog
      have hb : Backs (.call fr (.send q) k) := hprog ▸ h.backs t
      exact h.resume_busy (hb.2 _) (by simp [hprog,Fenced]) (by simp [Waits,hprog])
    · exact h
  | abort t late =>
    unfold Traffic.step
    dsimp only
    split
    · rename_i fr attempt e k hprog
      have hb : Backs (.call fr (.backoff attempt e) k) := hprog ▸ h.backs t
      have hret := hb.1 (abortError late)
      exact h.resume (hb.2 _) (fun _ => .inl hret.fenced) fun _ => .inl hret
    · exact h

/-- In a paced state a send is outside the window exactly where no other call's 429 hinders it. -/
theorem Paced.outside_iff (h : Paced config retryAfterSecs s) (e : Event T) :
    s.Outside e ↔ s.Unhindered e := by
  refine forall_congr' fun t => forall_congr' fun _ => forall_congr' fun hsends => ?_
  rw [RetryWindow.inRetryWindow_eq_false h.last_le]
  refine ⟨fun ho _ _ => ho,fun ho => ?_⟩
  obtain ⟨fr,q,k,hprog⟩ : ∃ fr q k, s.prog t = .call fr (.send q) k := by
    unfold sends at hsends
    split at hsends
    · exact ⟨_,_,_,by assumption⟩
    · cases hsends
  have hf : ¬Fenced (s.prog t) := by simp [hprog,Fenced]
  have hw : ¬Waits config retryAfterSecs s t := by simp [Waits,hprog]
  cases hs : s.since t with
  | false => exact h.over_of_since hf hs
  | true =>
    by_cases hl : s.lastBy = some t
    · exact h.over_of_own hw hl
    · exact ho hs hl

/-- Calls about to begin on a client at some instant. -/
def start (config : RetryConfig) (calls : T → ApiCall) (clock : Nat) (window : RetryWindow)
    (rateLimiter : TokenBucket) : Traffic calls :=
  { clock, window, rateLimiter,
    prog := fun t => Client.requestCancellable config.maxAttempts (calls t) }

omit [DecidableEq T] in
theorem Paced.start (clock : Nat) {window : RetryWindow} (rateLimiter : TokenBucket)
    (hlast : window.last429UnixMs ≤ clock) :
    Paced config retryAfterSecs (start config calls clock window rateLimiter) where
  last_le := hlast
  backs t := backs_requestCancellable config.maxAttempts (calls t)
  checked _ _ := .inl trivial
  own _ hl := by cases hl

/-- In any interleaving: no call sends inside the reported window, if and only if no call sends
inside a window that another call's 429 opened behind its entry check. -/
theorem outside_iff_unhindered (config : RetryConfig) (retryAfterSecs : String → Option Nat)
    (calls : T → ApiCall) (clock : Nat) (window : RetryWindow) (rateLimiter : TokenBucket)
    (hlast : window.last429UnixMs ≤ clock) (es : List (Event T)) :
    Runs.Meets (Traffic.step config retryAfterSecs) Outside
        (Traffic.start config calls clock window rateLimiter) es ↔
      Runs.Meets (Traffic.step config retryAfterSecs) Unhindered
        (Traffic.start config calls clock window rateLimiter) es :=
  Runs.meets_congr (I := Paced config retryAfterSecs) (fun _ e h => h.step e)
    (fun _ e h => h.outside_iff e) (.start clock rateLimiter hlast) es

/-- Two calls on a fresh client, both past their checks when the first is answered. -/
def queuedCalls (r : Response) (restMs : Nat) : List (Event Bool) :=
  [.posture false,.look false false,.look false false,.acquire false,.look false false,
    .posture true,.look true false,.look true false,.acquire true,.look true false,
    .send false,.respond false r,.tick restMs,.send true]

/-- The first call is told to wait for 26 seconds, and the second one sends when they are over. -/
theorem outside_iff_unhindered_rested :
    Runs.Meets (Traffic.step {} fun _ => some 26) Outside
      (Traffic.start {} (fun _ : Bool => .getTopLevel) 1000 {} (.new {} 1))
      (queuedCalls (.failure 429 "\x7b\"retry_after\":26\x7d") 26000) :=
  (outside_iff_unhindered {} (fun _ => some 26) (fun _ => .getTopLevel) 1000 {} (.new {} 1)
    (by decide) _).mpr (by decide +kernel)

/-- The second call was queued when the first was told to wait for 26 seconds, and sends a
second later. -/
theorem sends_inside_window :
    ¬Runs.Meets (Traffic.step {} fun _ => some 26) Outside
      (Traffic.start {} (fun _ : Bool => .getTopLevel) 1000 {} (.new {} 1))
      (queuedCalls (.failure 429 "\x7b\"retry_after\":26\x7d") 1000) := by
  decide +kernel

end run
end Traffic
end WorkflowyMcp
