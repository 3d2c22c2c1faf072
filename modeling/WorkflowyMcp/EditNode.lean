import WorkflowyMcp.ClientEffects
import WorkflowyMcp.Connection

/-! An edit of both fields through the request funnel. The two requests share the
window, the limiter, the guard and the deadline, and either may fail in any way. -/
namespace WorkflowyMcp

/- An upstream that answers attempts as it likes, but serves an update at once or not at
   all: a success applies it, a failure changes nothing. -/
structure PostWorld (σ : Type) where
  serve : Proc.Server Ask Answer σ
  facts : σ → View
  quiet : ∀ a s, (∀ q, a≠.send q) → facts (serve a s).2 = facts s
  applied : ∀ x name note completed s,
    (serve (.send (.postNode x name note completed)) s).1 = .ok () →
      Client.Rewrites x (·.write name note completed) (facts s)
        (facts (serve (.send (.postNode x name note completed)) s).2)
  failed : ∀ x name note completed s e,
    (serve (.send (.postNode x name note completed)) s).1 = .error e →
      facts (serve (.send (.postNode x name note completed)) s).2 = facts s

namespace Client

def editNodeCancellable (maxAttempts : Nat) (nodeId : String) (name description : Option String) :
    Net (Except WorkflowyError Unit) :=
  (editNode nodeId name description).interp (requestCancellable maxAttempts)

end Client

namespace PostWorld
variable {σ : Type} (w : PostWorld σ)

/-- What `p` does from `s`, by its reply: the update, or nothing. -/
def Posts (x : String) (g : Facts → Facts) (p : Net (Except WorkflowyError Unit)) (s : σ) : Prop :=
  match (p.run w.serve s).1 with
  | .ok () => Client.Rewrites x g (w.facts s) (w.facts (p.run w.serve s).2)
  | .error _ => w.facts (p.run w.serve s).2 = w.facts s

variable {w} {x : String} {g : Facts → Facts} {p : Net (Except WorkflowyError Unit)} {s : σ}

theorem Posts.aborted (e : WorkflowyError) (s : σ) : w.Posts x g (.ret (.error e)) s := rfl

/-- What is asked without sending does not count. -/
theorem Posts.quiet {a : Ask} (ha : ∀ q, a≠.send q)
    {k : Answer a → Net (Except WorkflowyError Unit)} (h : ∀ r s', w.Posts x g (k r) s') (s : σ) :
    w.Posts x g (.call () a k) s := by
  have hk := h (w.serve a s).1 (w.serve a s).2
  simpa only [Posts,Proc.run_call,w.quiet a s ha] using hk

theorem Posts.ok (h : w.Posts x g p s) (hr : (p.run w.serve s).1 = .ok ()) :
    Client.Rewrites x g (w.facts s) (w.facts (p.run w.serve s).2) := by
  simpa only [Posts,hr] using h

theorem Posts.error (h : w.Posts x g p s) {e : WorkflowyError}
    (hr : (p.run w.serve s).1 = .error e) : w.facts (p.run w.serve s).2 = w.facts s := by
  simpa only [Posts,hr] using h

/-- The reply is passed on, at most as another error. -/
theorem Posts.last (h : w.Posts x g p s)
    {f : Except WorkflowyError Unit → Net (Except WorkflowyError Unit)}
    (hok : f (.ok ()) = .ret (.ok ())) (herr : ∀ e, (p.run w.serve s).1 = .error e →
      ∃ e', f (.error e) = .ret (.error e')) : w.Posts x g (p.bind f) s := by
  cases hr : (p.run w.serve s).1 with
  | ok r =>
    have hrun : (p.bind f).run w.serve s = (.ok (),(p.run w.serve s).2) := by
      rw [Proc.run_bind,hr,hok]
      rfl
    simpa only [Posts,hrun] using h.ok hr
  | error e =>
    obtain ⟨e',he'⟩ := herr e hr
    have hrun : (p.bind f).run w.serve s = (.error e',(p.run w.serve s).2) := by
      rw [Proc.run_bind,hr,he']
      rfl
    simpa only [Posts,hrun] using h.error hr

/-- A failed attempt leaves the next one where it was. -/
theorem Posts.retry (h : w.Posts x g p s) {e : WorkflowyError} (hr : (p.run w.serve s).1 = .error e)
    {f : Except WorkflowyError Unit → Net (Except WorkflowyError Unit)}
    (hrest : w.Posts x g (f (.error e)) (p.run w.serve s).2) : w.Posts x g (p.bind f) s := by
  have hrun : (p.bind f).run w.serve s = (f (.error e)).run w.serve (p.run w.serve s).2 := by
    rw [Proc.run_bind,hr]
  simpa only [Posts,hrun,h.error hr] using hrest

section post
variable (x : String) (name note : Option String) (completed : Option Bool)

theorem posts_send (s : σ) : w.Posts x (·.write name note completed)
    (ask (.send (.postNode x name note completed))) s := by
  simp only [Posts,ask,Proc.run_call,Proc.run_ret]
  split <;> rename_i hr
  · exact w.applied x name note completed s hr
  · exact w.failed x name note completed s _ hr

theorem posts_sendAttempt (s : σ) : w.Posts x (·.write name note completed)
    (Client.sendAttempt (.postNode x name note completed)) s := by
  refine .quiet (by simp) (fun cancelled s => ?_) s
  cases cancelled with
  | true => exact .aborted _ s
  | false =>
    refine .quiet (by simp) (fun late s => ?_) s
    cases late with
    | true => exact .aborted _ s
    | false =>
      refine .quiet (by simp) (fun acquired s => ?_) s
      cases acquired with
      | false => exact .aborted _ s
      | true =>
        refine .quiet (by simp) (fun late s => ?_) s
        cases late with
        | true => exact .aborted _ s
        | false => exact posts_send x name note completed s

theorem posts_requestLoop (attempt left : Nat) (s : σ) : w.Posts x (·.write name note completed)
    (Client.requestLoop (.postNode x name note completed) attempt left) s := by
  induction left generalizing attempt s with
  | zero =>
    exact (posts_sendAttempt x name note completed s).last rfl fun e _ => ⟨_,rfl⟩
  | succ left ih =>
    have htry := posts_sendAttempt (w := w) x name note completed s
    cases hr : ((Client.sendAttempt (.postNode x name note completed)).run w.serve s).1 with
    | ok r => exact htry.last rfl fun e he => by simp [hr] at he
    | error e =>
      by_cases hretry : e.isRetryable
      · refine htry.retry hr ?_
        simp only [hretry,if_true]
        refine .quiet (by simp) (fun abort s => ?_) _
        cases abort with
        | error abort => exact .aborted abort s
        | ok u => exact ih (attempt+1) s
      · refine htry.last rfl fun e' he' => ?_
        rw [hr] at he'
        cases he'
        exact ⟨_,by simp only [hretry]; rfl⟩

/-- A call is as atomic as each of its attempts. -/
theorem posts_requestCancellable (maxAttempts : Nat) (s : σ) :
    w.Posts x (·.write name note completed)
      (Client.requestCancellable maxAttempts (.postNode x name note completed)) s := by
  refine .quiet (by simp) (fun remaining s => ?_) s
  cases remaining with
  | some remainingMs => exact .aborted _ s
  | none => exact posts_requestLoop x name note completed 1 (maxAttempts-1) s

end post

/-- The call that writes the name, the first of the two. -/
def named (w : PostWorld σ) (maxAttempts : Nat) (x name : String) (s : σ) :
    Except WorkflowyError Unit × σ :=
  (Client.requestCancellable maxAttempts (.postNode x (some name) none none)).run w.serve s

theorem run_editNode (maxAttempts : Nat) (x name description : String) (s : σ) :
    (Client.editNodeCancellable maxAttempts x (some name) (some description)).run w.serve s =
      match w.named maxAttempts x name s with
      | (.error e,s') => (.error e,s')
      | (.ok (),s') => (Client.requestCancellable maxAttempts
          (.postNode x none (some description) none)).run w.serve s' := by
  rw [Client.editNodeCancellable,Proc.run_interp]
  simp only [Client.editNode,Option.isSome_some,Bool.and_self,if_true,Proc.bind_eq,Proc.run_bind,
    Client.request,Proc.run_call,Proc.run_ret,named]
  rcases (Client.requestCancellable maxAttempts (.postNode x (some name) none none)).run w.serve s
    with ⟨⟨e⟩ | ⟨⟩,s'⟩ <;> rfl

/-- A failed edit of both fields leaves the description, and everything else, as it was. The
name is the new one exactly when the call that writes it was answered with success. -/
theorem failed_edit_fields (w : PostWorld σ) (maxAttempts : Nat) (x name description : String)
    (s : σ) (e : WorkflowyError) (s' : σ)
    (h : (Client.editNodeCancellable maxAttempts x (some name) (some description)).run w.serve s =
      (.error e,s')) :
    ((∃ e', (w.named maxAttempts x name s).1 = .error e') → w.facts s' = w.facts s) ∧
    ((w.named maxAttempts x name s).1 = .ok () → ∃ f, w.facts s x = some f ∧
      w.facts s' = Function.update (w.facts s) x (some { f with name })) := by
  have hname := posts_requestCancellable (w := w) x (some name) none none maxAttempts s
  rw [run_editNode] at h
  constructor
  · rintro ⟨e',he'⟩
    have hsame := hname.error he'
    rw [show w.named maxAttempts x name s = (.error e',(w.named maxAttempts x name s).2) from
      Prod.ext he' rfl] at h
    cases h
    exact hsame
  · intro hok
    obtain ⟨f,hf,hv⟩ := hname.ok hok
    rw [show w.named maxAttempts x name s = (.ok (),(w.named maxAttempts x name s).2) from
      Prod.ext hok rfl] at h
    have hnote := posts_requestCancellable (w := w) x none (some description) none maxAttempts
      (w.named maxAttempts x name s).2
    have hsame := hnote.error (congrArg Prod.fst h)
    rw [congrArg Prod.snd h] at hsame
    exact ⟨f,hf,hsame.trans hv⟩

end PostWorld

/-- The tree store behind a connection that loses no reply. -/
def Service.postWorld (svc : Service) (conn : Connection) (hlost : ∀ t, conn.lost t = none) :
    PostWorld Upstream where
  serve := svc.answer conn
  facts := Upstream.facts
  quiet := by
    intro a u ha
    cases a with
    | send q => exact absurd rfl (ha q)
    | isCancelled | isPastDeadline | retryAfterRemainingMs | acquire | backoff => rfl
  applied := by
    intro x name note completed u h
    simp only [answer,hlost] at h ⊢
    exact svc.serve_post_ok h
  failed := by
    intro x name note completed u e h
    simp only [answer,hlost] at h ⊢
    exact Service.facts_of_nodes (svc.serve_error h)

namespace PostWorld

/-- The deadline runs out when the name is written. -/
def lateWorld : PostWorld Upstream :=
  Service.reliable.postWorld { pastDeadline := fun _ t => 6≤t } fun _ => rfl

def draft : Upstream := { nodes := [{ id := "x", name := "old", description := some "note" }] }

/-- The edit is reported as failed, but the name is the new one. -/
theorem half_edited : ∃ s',
    (Client.editNodeCancellable RETRY_MAX_ATTEMPTS "x" (some "new") (some "text")).run
      lateWorld.serve draft = (.error .Timeout,s') ∧
    (lateWorld.facts draft "x").map Facts.name = some "old" ∧
    (lateWorld.facts s' "x").map Facts.name = some "new" :=
  ⟨_,rfl,rfl,rfl⟩

/-- Here the name lands and the description does not. -/
theorem late_edit_name : ∃ f, lateWorld.facts draft "x" = some f ∧
    lateWorld.facts { draft with nodes := [{ id := "x", name := "new", description := some "note" }] }
      = Function.update (lateWorld.facts draft) "x" (some { f with name := "new" }) :=
  (failed_edit_fields lateWorld RETRY_MAX_ATTEMPTS "x" "new" "text" draft .Timeout
    { nodes := [{ id := "x", name := "new", description := some "note" }], clock := 9 } rfl).2 rfl

end PostWorld
end WorkflowyMcp
