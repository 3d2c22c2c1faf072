import WorkflowyMcp.Client

/-! One call of the request funnel as a program over single HTTP attempts: the checks
before each attempt, what is retried, and what a create makes of the reply. -/
namespace WorkflowyMcp

/-- Where a cancel guard or a deadline is looked at. -/
inductive Site where
  | attempt | beforeLine | afterError
deriving DecidableEq, Repr

/- What a call observes or asks for. A call without a guard is never cancelled; a backoff
   ends with the abort that cut it short, if one did. -/
inductive Ask where
  | isCancelled (site : Site)
  | isPastDeadline (site : Site)
  | retryAfterRemainingMs
  | acquire
  | send (q : ApiCall)
  | backoff (attempt : Nat) (e : WorkflowyError)

abbrev Answer : Ask → Type
  | .isCancelled _ | .isPastDeadline _ | .acquire => Bool
  | .retryAfterRemainingMs => Option Nat
  | .send q => ApiReply q
  | .backoff .. => Except WorkflowyError Unit

abbrev Net : Type → Type := Proc Ask Answer Unit

def ask (a : Ask) : Net (Answer a) := .call () a .ret

def RETRY_MAX_ATTEMPTS : Nat := 5

def WorkflowyError.isRetryable : WorkflowyError → Bool
  | .ApiError status _ =>
    status == 429 || status == 500 || status == 502 || status == 503 || status == 504
  | .HttpError _ transient => transient
  | _ => false

def rateLimitWindowError (remainingMs : Nat) (context : String) : WorkflowyError :=
  .ApiError 429 ("\x7b\"error\":\"rate limit exceeded (" ++ context ++ ")\",\"retry_after\":" ++
    toString ((remainingMs+999)/1000) ++ "\x7d")

namespace Client

/-- One pass of the loop up to the reply of its attempt. -/
def sendAttempt (q : ApiCall) : Net (ApiReply q) := do
  if ← ask (.isCancelled .attempt) then return .error .Cancelled
  if ← ask (.isPastDeadline .attempt) then return .error .Timeout
  if !(← ask .acquire) then return .error .Cancelled
  if ← ask (.isPastDeadline .attempt) then return .error .Timeout
  ask (.send q)

/-- What is true of an abort and of the attempt, and stays true behind every other question, is true
of the pass. -/
theorem sendAttempt_keeps {σ : Type} {q : ApiCall} {P : Net (ApiReply q) → σ → Prop}
    (aborted : ∀ e s, P (.ret (.error e)) s)
    (quiet : ∀ a : Ask, (∀ q, a≠.send q) → ∀ (k : Answer a → Net (ApiReply q)) (s : σ),
      (∀ r s', P (k r) s') → P (.call () a k) s)
    (send : ∀ s, P (ask (.send q)) s) (s : σ) : P (sendAttempt q) s := by
  refine quiet _ (by simp) _ s fun cancelled s => ?_
  cases cancelled with
  | true => exact aborted _ s
  | false =>
    refine quiet _ (by simp) _ s fun late s => ?_
    cases late with
    | true => exact aborted _ s
    | false =>
      refine quiet _ (by simp) _ s fun acquired s => ?_
      cases acquired with
      | false => exact aborted _ s
      | true =>
        refine quiet _ (by simp) _ s fun late s => ?_
        cases late with
        | true => exact aborted _ s
        | false => exact send s

def giveUp (attempt : Nat) (e : WorkflowyError) : WorkflowyError :=
  if e.isAbort then e else .RetryExhausted attempt e.display

/-- The attempts of one call, `left` of them after the current one. -/
def requestLoop (q : ApiCall) (attempt : Nat) : Nat → Net (ApiReply q)
  | 0 => do
    match ← sendAttempt q with
    | .ok r => return .ok r
    | .error e => return .error (giveUp attempt e)
  | left+1 => do
    match ← sendAttempt q with
    | .ok r => return .ok r
    | .error e =>
      if e.isRetryable then
        match ← ask (.backoff attempt e) with
        | .error abort => return .error abort
        | .ok () => requestLoop q (attempt+1) left
      else return .error (giveUp attempt e)

def requestCancellable (maxAttempts : Nat) (q : ApiCall) : Net (ApiReply q) := do
  match ← ask .retryAfterRemainingMs with
  | some remainingMs =>
    return .error (rateLimitWindowError remainingMs
      "request suppressed inside open retry_after window")
  | none => requestLoop q 1 (maxAttempts-1)

def createNodeCancellable (maxAttempts : Nat) (name : String) (description parentId : Option String)
    (priority : Option Int) (layout : Option String) : Net (Except WorkflowyError CreatedNode) := do
  return createdNode name parentId
    (← requestCancellable maxAttempts (.createNode name description parentId priority layout))

/-- The programs over whole calls, run against the funnel, are the programs over attempts. -/
theorem createNode_interp (maxAttempts : Nat) (name : String)
    (description parentId : Option String) (priority : Option Int) :
    (createNode name description parentId priority).interp (requestCancellable maxAttempts) =
      createNodeCancellable maxAttempts name description parentId priority none := rfl

/-- A whole call is one request to the server that the funnel makes of the attempts. -/
theorem run_createNodeCancellable {σ : Type} (maxAttempts : Nat) (name : String)
    (description parentId : Option String) (priority : Option Int)
    (serve : Proc.Server Ask Answer σ) (s : σ) :
    (createNodeCancellable maxAttempts name description parentId priority none).run serve s =
      (createNode name description parentId priority).run
        (fun q s => (requestCancellable maxAttempts q).run serve s) s := by
  rw [← createNode_interp,Proc.run_interp]

end Client

section creating
variable {name : String} {description parentId : Option String} {priority : Option Int}
  {layout : Option String} {n : Nat}

/-- What is left of a call that may still create `n` nodes: it fails, looks at something, or sends
the create, whose id it returns at once if it gets one. -/
inductive Creating (name : String) (description parentId : Option String) (priority : Option Int)
    (layout : Option String) : Nat → Net (Except WorkflowyError CreatedNode) → Prop
  | failed {n : Nat} (e : WorkflowyError) :
    Creating name description parentId priority layout n (.ret (.error e))
  | quiet {n : Nat} {a : Ask} {k : Answer a → Net (Except WorkflowyError CreatedNode)}
    (ha : ∀ q, a≠.send q) (h : ∀ r, Creating name description parentId priority layout n (k r)) :
    Creating name description parentId priority layout n (.call () a k)
  | send {n : Nat} {k : Except WorkflowyError (Option String) →
      Net (Except WorkflowyError CreatedNode)}
    (heard : ∀ id, k (.ok (some id)) = .ret (.ok ⟨id,name,parentId⟩))
    (unheard : ∀ r, (∀ id, r≠.ok (some id)) →
      Creating name description parentId priority layout n (k r)) :
    Creating name description parentId priority layout (n+1)
      (.call () (.send (.createNode name description parentId priority layout)) k)

theorem Creating.succ {p : Net (Except WorkflowyError CreatedNode)}
    (h : Creating name description parentId priority layout n p) :
    Creating name description parentId priority layout (n+1) p := by
  induction h with
  | failed e => exact .failed e
  | quiet ha _ ih => exact .quiet ha ih
  | send heard _ ih => exact .send heard ih

/-- What is passed on of an attempt, where an id that is heard is returned. -/
theorem creating_sendAttempt {f : Except WorkflowyError (Option String) →
      Net (Except WorkflowyError CreatedNode)}
    (heard : ∀ id, f (.ok (some id)) = .ret (.ok ⟨id,name,parentId⟩))
    (unheard : ∀ r, (∀ id, r≠.ok (some id)) →
      Creating name description parentId priority layout n (f r)) :
    Creating name description parentId priority layout (n+1)
      ((Client.sendAttempt (.createNode name description parentId priority layout)).bind f) := by
  refine Client.sendAttempt_keeps (σ := Unit)
    (q := .createNode name description parentId priority layout)
    (P := fun p _ => Creating name description parentId priority layout (n+1) (p.bind f))
    (fun e _ => ?_) (fun a ha k _ h => ?_) (fun _ => .send heard unheard) ()
  · exact (unheard (.error e) (by simp)).succ
  · exact .quiet ha fun r => h r ()

theorem creating_requestLoop (attempt left : Nat) :
    Creating name description parentId priority layout (left+1) ((Client.requestLoop
      (.createNode name description parentId priority layout) attempt left).bind
        fun r => .ret (Client.createdNode name parentId r)) := by
  have hunheard (r : Except WorkflowyError (Option String)) (hr : ∀ id, r≠.ok (some id)) (n : Nat) :
      Creating name description parentId priority layout n
        (.ret (Client.createdNode name parentId r)) := by
    rcases r with e | _ | id
    · exact .failed e
    · exact .failed _
    · exact absurd rfl (hr id)
  induction left generalizing attempt with
  | zero =>
    rw [Client.requestLoop,Proc.bind_eq,Proc.bind_assoc]
    refine creating_sendAttempt (fun id => rfl) fun r hr => ?_
    cases r with
    | ok r => exact hunheard _ hr 0
    | error e => exact .failed _
  | succ left ih =>
    rw [Client.requestLoop,Proc.bind_eq,Proc.bind_assoc]
    refine creating_sendAttempt (fun id => rfl) fun r hr => ?_
    cases r with
    | ok r => exact hunheard _ hr _
    | error e =>
      by_cases hretry : e.isRetryable
      · simp only [hretry,if_true]
        refine .quiet (a := .backoff attempt e) (by simp) fun abort => ?_
        cases abort with
        | error abort => exact .failed abort
        | ok u => exact ih (attempt+1)
      · simp only [hretry]
        exact .failed _

theorem creating_createNodeCancellable (maxAttempts : Nat) (name : String)
    (description parentId : Option String) (priority : Option Int) (layout : Option String) :
    Creating name description parentId priority layout (max 1 maxAttempts)
      (Client.createNodeCancellable maxAttempts name description parentId priority layout) := by
  refine .quiet (a := .retryAfterRemainingMs) (by simp) fun remaining => ?_
  cases remaining with
  | some remainingMs => exact .failed _
  | none =>
    have hmax : maxAttempts-1+1 = max 1 maxAttempts := by omega
    exact hmax ▸ creating_requestLoop 1 (maxAttempts-1)

end creating

/- An upstream that answers attempts as it likes. A create adds one node under a new id
   or nothing, and nothing else that is asked of it changes the store; its reply may hide
   that it took effect, but an id it returns is that of the node it made. -/
structure World (σ : Type) where
  serve : Proc.Server Ask Answer σ
  nodes : σ → List WorkflowyNode
  quiet : ∀ a s, (∀ q, a≠.send q) → nodes (serve a s).2 = nodes s
  create : ∀ name description parentId priority layout s,
    let q := ApiCall.createNode name description parentId priority layout
    (nodes (serve (.send q) s).2 = nodes s ∧ ∀ c, (serve (.send q) s).1 ≠ .ok (some c)) ∨
    ∃ id, (∀ n∈nodes s, n.id≠id ∧ n.parentId≠some id) ∧ parentId≠some id ∧
      nodes (serve (.send q) s).2 = nodes s++[({ id, name, description, parentId, priority } : WorkflowyNode)] ∧
      ∀ c, (serve (.send q) s).1 = .ok (some c) → c = id

namespace World
variable {σ : Type} (w : World σ)

/-- An attempt took effect. -/
def landed (a : Ask) (s : σ) : Bool := (w.nodes (w.serve a s).2).length ≠ (w.nodes s).length

/-- A create took effect, but the call does not learn the id. -/
def unheard : Ask → σ → Bool
  | .send q,s =>
    match q,(w.serve (.send q) s).1 with
    | .createNode ..,.ok (some _) => false
    | .createNode ..,_ => w.landed (.send q) s
    | _,_ => false
  | _,_ => false

/-- A create took effect, but its answer invites another attempt. -/
def disowned : Ask → σ → Bool
  | .send q,s =>
    match q,(w.serve (.send q) s).1 with
    | .createNode ..,.error e => e.isRetryable && w.landed (.send q) s
    | _,_ => false
  | _,_ => false

def Fresh (nodes : List WorkflowyNode) (id : String) : Prop :=
  ∀ n∈nodes, n.id≠id ∧ n.parentId≠some id

abbrev copies (tmpl : WorkflowyNode) (ids : List String) : List WorkflowyNode :=
  ids.map fun id => { tmpl with id }

/-- From `s` to `s'` the upstream gained copies of `tmpl` under new ids. -/
structure Gains (tmpl : WorkflowyNode) (s s' : σ) (ids : List String) : Prop where
  nodes : w.nodes s' = w.nodes s++copies tmpl ids
  fresh : ∀ id∈ids, Fresh (w.nodes s) id ∧ tmpl.parentId≠some id

variable {w} {tmpl : WorkflowyNode} {s s' s'' : σ} {ids ids' : List String}

theorem Gains.none (h : w.nodes s' = w.nodes s) : w.Gains tmpl s s' [] := ⟨by simp [h],by simp⟩

theorem Gains.trans (h : w.Gains tmpl s s' ids) (h' : w.Gains tmpl s' s'' ids') :
    w.Gains tmpl s s'' (ids++ids') := by
  refine ⟨by simp [h.nodes,h'.nodes],fun id hid => ?_⟩
  rcases List.mem_append.mp hid with hid | hid
  · exact h.fresh id hid
  · refine ⟨fun n hn => (h'.fresh id hid).1 n ?_,(h'.fresh id hid).2⟩
    rw [h.nodes]
    exact List.mem_append_left _ hn

/-- To ask something that is not sent changes nothing of what is gained after. -/
theorem Gains.quiet {a : Ask} (ha : ∀ q, a≠.send q) (h : w.Gains tmpl (w.serve a s).2 s' ids) :
    w.Gains tmpl s s' ids := by
  have hnodes := w.quiet a s ha
  exact ⟨by rw [h.nodes,hnodes],by simpa only [hnodes] using h.fresh⟩

theorem Gains.length (h : w.Gains tmpl s s' ids) :
    (w.nodes s').length = (w.nodes s).length+ids.length := by
  simp [h.nodes]

section create
variable (w) (name : String) (description parentId : Option String) (priority : Option Int)
  (layout : Option String)

/-- The node a create asks for, its id left open. -/
abbrev template : WorkflowyNode := { name, description, parentId, priority }

/-- What an attempt to create left behind, by its reply and by the marks it was given. -/
structure Attempted (tmpl : WorkflowyNode) (s s' : σ)
    (reply : Except WorkflowyError (Option String))
    (disowned unheard : Nat) (ids : List String) : Prop where
  gains : w.Gains tmpl s s' ids
  atMostOne : ids.length ≤ 1
  disowned : ∀ e, reply = .error e → e.isRetryable → disowned = ids.length
  heard : ∀ c, reply = .ok (some c) → ids = [c] ∧ unheard = 0
  unheard : (∀ c, reply ≠ .ok (some c)) → unheard = ids.length

/-- Unless the reply carries an id, a create that took effect goes unheard. -/
theorem unheard_eq_landed (s : σ)
    (h : ∀ c, (w.serve (.send (.createNode name description parentId priority layout)) s).1 ≠
      .ok (some c)) :
    w.unheard (.send (.createNode name description parentId priority layout)) s =
      w.landed (.send (.createNode name description parentId priority layout)) s := by
  cases hr : (w.serve (.send (.createNode name description parentId priority layout)) s).1 with
  | error e => simp [World.unheard,hr]
  | ok r =>
    cases r with
    | none => simp [World.unheard,hr]
    | some c => exact absurd hr (h c)

theorem attempted_send (s : σ) :
    let q := ApiCall.createNode name description parentId priority layout
    ∃ ids, w.Attempted (template name description parentId priority) s (w.serve (.send q) s).2
      (w.serve (.send q) s).1 (w.disowned (.send q) s).toNat (w.unheard (.send q) s).toNat ids := by
  intro q
  rcases w.create name description parentId priority layout s with ⟨hsame,hreply⟩ |
    ⟨id,hfresh,hp,hnodes,hid⟩
  · have hl : w.landed (.send q) s = false := by simp [landed,q,hsame]
    refine ⟨[],.none hsame,by simp,fun e he hr => ?_,fun c hc => absurd hc (hreply c),fun hno => ?_⟩
    · simp [World.disowned,q,he,hl]
    · simp [q,unheard_eq_landed w name description parentId priority layout s hno,← hl]
  · have hl : w.landed (.send q) s = true := by simp [landed,q,hnodes]
    refine ⟨[id],⟨by simpa using hnodes,by simpa using ⟨hfresh,hp⟩⟩,by simp,fun e he hr => ?_,
      fun c hc => ⟨by rw [hid c hc],?_⟩,fun hno => ?_⟩
    · simp [World.disowned,q,he,hl,hr]
    · simp [World.unheard,q,hc]
    · rw [unheard_eq_landed w name description parentId priority layout s hno,hl]
      rfl

/-- One pass of the loop leaves behind what its attempt, if there was one, left behind. -/
def Tries (tmpl : WorkflowyNode) (p : Net (Except WorkflowyError (Option String))) (s : σ) : Prop :=
  ∃ ids, w.Attempted tmpl s (p.run w.serve s).2 (p.run w.serve s).1
    (p.tally w.disowned w.serve s) (p.tally w.unheard w.serve s) ids

variable {w} {tmpl : WorkflowyNode}

theorem Tries.aborted (e : WorkflowyError) (s : σ) : w.Tries tmpl (.ret (.error e)) s :=
  ⟨[],.none rfl,by simp,fun _ _ _ => rfl,by simp,fun _ => rfl⟩

theorem unmarked {a : Ask} (ha : ∀ q, a ≠ .send q) (s : σ) :
    w.disowned a s = false ∧ w.unheard a s = false := by
  cases a with
  | send q => exact absurd rfl (ha q)
  | isCancelled | isPastDeadline | retryAfterRemainingMs | acquire | backoff => exact ⟨rfl,rfl⟩

theorem Tries.quiet {a : Ask} (ha : ∀ q, a ≠ .send q) {s : σ}
    {k : Answer a → Net (Except WorkflowyError (Option String))}
    (h : ∀ r s', w.Tries tmpl (k r) s') : w.Tries tmpl (.call () a k) s := by
  obtain ⟨ids,hids⟩ := h (w.serve a s).1 (w.serve a s).2
  obtain ⟨hd,hu⟩ := unmarked (w := w) ha s
  refine ⟨ids,.quiet ha hids.gains,hids.atMostOne,?_,?_,?_⟩
  · simpa [hd] using hids.disowned
  · simpa [hu] using hids.heard
  · simpa [hu] using hids.unheard

theorem tries_sendAttempt (s : σ) : w.Tries (template name description parentId priority)
    (Client.sendAttempt (.createNode name description parentId priority layout)) s := by
  exact Client.sendAttempt_keeps .aborted (fun _ ha _ _ h => .quiet ha h)
    (attempted_send w name description parentId priority layout) s

/-- What a call that creates left behind: at most `most` nodes, and beyond the first one only
as many as attempts that took effect invited another. -/
structure Called (w : World σ) (tmpl : WorkflowyNode) (most : Nat)
    (p : Net (Except WorkflowyError (Option String))) (s : σ) (ids : List String) : Prop where
  gains : w.Gains tmpl s (p.run w.serve s).2 ids
  atMost : ids.length ≤ most
  disowned : ids.length ≤ p.tally w.disowned w.serve s+1
  heard : ∀ c, (p.run w.serve s).1 = .ok (some c) →
    ids.getLast? = some c ∧ ids.length = p.tally w.unheard w.serve s+1
  unheard : (∀ c, (p.run w.serve s).1 ≠ .ok (some c)) →
    ids.length = p.tally w.unheard w.serve s

variable {most : Nat} {p : Net (Except WorkflowyError (Option String))}
  {f : Except WorkflowyError (Option String) → Net (Except WorkflowyError (Option String))}

/-- The call ends with an attempt, whose reply it passes on or turns into an error. -/
theorem Tries.last {s : σ} (h : w.Tries tmpl p s)
    (reply : Except WorkflowyError (Option String)) (hf : f (p.run w.serve s).1 = .ret reply)
    (hreply : ∀ c, reply = .ok (some c) ↔ (p.run w.serve s).1 = .ok (some c)) :
    ∃ ids, Called w tmpl (most+1) (p.bind f) s ids := by
  obtain ⟨ids,h⟩ := h
  have hle := h.atMostOne
  refine ⟨ids,?_,by omega,by omega,fun c hc => ?_,fun hno => ?_⟩
  · rw [Proc.run_bind,hf]
    exact h.gains
  · rw [Proc.run_bind,hf] at hc
    obtain ⟨rfl,hu⟩ := h.heard c ((hreply c).mp hc)
    simp [Proc.tally_bind,hf,hu]
  · rw [Proc.run_bind,hf] at hno
    rw [Proc.tally_bind,hf,h.unheard fun c hc => hno c ((hreply c).mpr hc)]
    rfl

/-- An attempt is answered with a retryable error and the call goes on. -/
theorem Tries.retry {s : σ} (h : w.Tries tmpl p s) {e : WorkflowyError}
    (he : (p.run w.serve s).1 = .error e) (hr : e.isRetryable)
    (hrest : ∃ ids, Called w tmpl most (f (.error e)) (p.run w.serve s).2 ids) :
    ∃ ids, Called w tmpl (most+1) (p.bind f) s ids := by
  obtain ⟨ids,h⟩ := h
  obtain ⟨ids',h'⟩ := hrest
  have hd := h.disowned e he hr
  have hu := h.unheard fun c hc => by simp [he] at hc
  have hle := h.atMostOne
  refine ⟨ids++ids',?_,?_,?_,fun c hc => ?_,fun hno => ?_⟩
  · rw [Proc.run_bind,he]
    exact h.gains.trans h'.gains
  · simpa using Nat.le_trans (Nat.add_le_add hle h'.atMost) (by omega)
  · have hd' := h'.disowned
    simp only [Proc.tally_bind,he,List.length_append]
    omega
  · rw [Proc.run_bind,he] at hc
    obtain ⟨hlast,hlen⟩ := h'.heard c hc
    simp only [Proc.tally_bind,he,List.length_append]
    exact ⟨by rw [List.getLast?_append,hlast]; rfl,by omega⟩
  · rw [Proc.run_bind,he] at hno
    have hlen := h'.unheard hno
    simp only [Proc.tally_bind,he,List.length_append]
    omega

theorem Called.aborted (e : WorkflowyError) (s : σ) : Called w tmpl most (.ret (.error e)) s [] :=
  ⟨.none rfl,by simp,by simp,by simp,fun _ => rfl⟩

theorem Called.quiet {a : Ask} (ha : ∀ q, a ≠ .send q) {s : σ}
    {k : Answer a → Net (Except WorkflowyError (Option String))}
    (h : ∀ r s', ∃ ids, Called w tmpl most (k r) s' ids) :
    ∃ ids, Called w tmpl most (.call () a k) s ids := by
  obtain ⟨ids,hids⟩ := h (w.serve a s).1 (w.serve a s).2
  obtain ⟨hd,hu⟩ := unmarked (w := w) ha s
  refine ⟨ids,.quiet ha hids.gains,hids.atMost,?_,?_,?_⟩
  · simpa [hd] using hids.disowned
  · simpa [hu] using hids.heard
  · simpa [hu] using hids.unheard

theorem called_requestLoop (attempt left : Nat) (s : σ) :
    ∃ ids, Called w (template name description parentId priority) (left+1)
      (Client.requestLoop (.createNode name description parentId priority layout) attempt left) s
      ids := by
  induction left generalizing attempt s with
  | zero =>
    have htries := tries_sendAttempt (w := w) name description parentId priority layout s
    cases hr : ((Client.sendAttempt
        (.createNode name description parentId priority layout)).run w.serve s).1 with
    | ok r => exact htries.last (.ok r) (by rw [hr]; rfl) (by simp [hr])
    | error e =>
      exact htries.last (.error (Client.giveUp attempt e)) (by rw [hr]; rfl) (by simp [hr])
  | succ left ih =>
    have htries := tries_sendAttempt (w := w) name description parentId priority layout s
    cases hr : ((Client.sendAttempt
        (.createNode name description parentId priority layout)).run w.serve s).1 with
    | ok r => exact htries.last (.ok r) (by rw [hr]; rfl) (by simp [hr])
    | error e =>
      by_cases hretry : e.isRetryable
      · refine htries.retry hr hretry ?_
        simp only [hretry,if_true]
        refine Called.quiet (by simp) fun abort s => ?_
        cases abort with
        | error abort => exact ⟨[],.aborted abort s⟩
        | ok u => exact ih (attempt+1) s
      · exact htries.last (.error (Client.giveUp attempt e))
          (by rw [hr]; simp [hretry]) (by simp [hr])

theorem called_requestCancellable (maxAttempts : Nat) (s : σ) :
    ∃ ids, Called w (template name description parentId priority) (max 1 maxAttempts)
      (Client.requestCancellable maxAttempts
        (.createNode name description parentId priority layout)) s ids := by
  refine Called.quiet (by simp) fun remaining s => ?_
  cases remaining with
  | some remainingMs => exact ⟨[],.aborted _ s⟩
  | none =>
    have hmax : maxAttempts-1+1 = max 1 maxAttempts := by omega
    exact hmax ▸ called_requestLoop name description parentId priority layout 1 (maxAttempts-1) s

/-- What a create call left behind, by what it returns. -/
structure Created (w : World σ) (tmpl : WorkflowyNode) (most : Nat)
    (p : Net (Except WorkflowyError CreatedNode)) (s : σ) (ids : List String) : Prop where
  gains : w.Gains tmpl s (p.run w.serve s).2 ids
  atMost : ids.length ≤ most
  disowned : ids.length ≤ p.tally w.disowned w.serve s+1
  ok : ∀ c, (p.run w.serve s).1 = .ok c →
    ids.getLast? = some c.id ∧ ids.length = p.tally w.unheard w.serve s+1
  error : ∀ e, (p.run w.serve s).1 = .error e → ids.length = p.tally w.unheard w.serve s

theorem created_createNodeCancellable (maxAttempts : Nat) (s : σ) :
    ∃ ids, Created w (template name description parentId priority) (max 1 maxAttempts)
      (Client.createNodeCancellable maxAttempts name description parentId priority layout) s ids := by
  obtain ⟨ids,h⟩ := called_requestCancellable (w := w) name description parentId priority layout
    maxAttempts s
  have hrun : (Client.createNodeCancellable maxAttempts name description parentId priority
      layout).run w.serve s = (Client.createdNode name parentId
        ((Client.requestCancellable maxAttempts
          (.createNode name description parentId priority layout)).run w.serve s).1,
        ((Client.requestCancellable maxAttempts
          (.createNode name description parentId priority layout)).run w.serve s).2) := by
    rw [Client.createNodeCancellable,Proc.bind_eq,Proc.run_bind]
    rfl
  have htally (b : Ask → σ → Bool) : (Client.createNodeCancellable maxAttempts name description
      parentId priority layout).tally b w.serve s = (Client.requestCancellable maxAttempts
        (.createNode name description parentId priority layout)).tally b w.serve s := by
    rw [Client.createNodeCancellable,Proc.bind_eq,Proc.tally_bind]
    rfl
  refine ⟨ids,?_,h.atMost,?_,fun c hc => ?_,fun e he => ?_⟩
  · rw [hrun]
    exact h.gains
  · rw [htally]
    exact h.disowned
  · rw [hrun] at hc
    rw [htally]
    refine h.heard c.id ?_
    generalize ((Client.requestCancellable maxAttempts
      (.createNode name description parentId priority layout)).run w.serve s).1 = reply at hc
    rcases reply with e | _ | id
    · cases hc
    · cases hc
    · cases hc
      rfl
  · rw [hrun] at he
    rw [htally]
    refine h.unheard fun c hc => ?_
    rw [hc] at he
    cases he

end create
end World
end WorkflowyMcp
