import Mathlib.Tactic.Common

/-! Client programs as request trees. A program returns, or suspends at a request
and continues with the reply. Every suspension carries the frame of local
variables that is lost when the program is dropped there. Nothing here names a
particular service: `Req`, `Rep`, `Fr` and the server state are arbitrary. -/
namespace WorkflowyMcp

inductive Proc (Req : Type) (Rep : Req → Type) (Fr : Type) (α : Type) where
  | ret (a : α)
  | call (fr : Fr) (q : Req) (k : Rep q → Proc Req Rep Fr α)

namespace Proc
variable {Req : Type} {Rep : Req → Type} {Fr Fr' α β γ σ : Type}

def bind : Proc Req Rep Fr α → (α → Proc Req Rep Fr β) → Proc Req Rep Fr β
  | .ret a, f => f a
  | .call fr q k, f => .call fr q fun r => (k r).bind f

instance : Monad (Proc Req Rep Fr) where
  pure := .ret
  bind := bind

/-- Rename the frames: the caller's variables enclose those of the callee. -/
def own (f : Fr → Fr') : Proc Req Rep Fr α → Proc Req Rep Fr' α
  | .ret a => .ret a
  | .call fr q k => .call (f fr) q fun r => (k r).own f

/-- A server answers a request and moves to its next state. -/
abbrev Server (Req : Type) (Rep : Req → Type) (σ : Type) := (q : Req) → σ → Rep q × σ

def run (srv : Server Req Rep σ) : Proc Req Rep Fr α → σ → α × σ
  | .ret a, s => (a,s)
  | .call _ q k, s => (k (srv q s).1).run srv (srv q s).2

/-- Requests issued by the whole run. -/
def calls (srv : Server Req Rep σ) : Proc Req Rep Fr α → σ → Nat
  | .ret _, _ => 0
  | .call _ q k, s => (k (srv q s).1).calls srv (srv q s).2+1

@[simp] theorem pure_eq (a : α) : (pure a : Proc Req Rep Fr α) = .ret a := rfl
@[simp] theorem bind_eq (p : Proc Req Rep Fr α) (f : α → Proc Req Rep Fr β) :
    p >>= f = p.bind f := rfl
@[simp] theorem ret_bind (a : α) (f : α → Proc Req Rep Fr β) :
    (Proc.ret a : Proc Req Rep Fr α).bind f = f a := rfl
@[simp] theorem call_bind (fr : Fr) (q : Req) (k : Rep q → Proc Req Rep Fr α)
    (f : α → Proc Req Rep Fr β) :
    (Proc.call fr q k).bind f = .call fr q fun r => (k r).bind f := rfl
@[simp] theorem run_ret (srv : Server Req Rep σ) (a : α) (s : σ) :
    (Proc.ret a : Proc Req Rep Fr α).run srv s = (a,s) := rfl
@[simp] theorem run_call (srv : Server Req Rep σ) (fr : Fr) (q : Req)
    (k : Rep q → Proc Req Rep Fr α) (s : σ) :
    (Proc.call fr q k).run srv s = (k (srv q s).1).run srv (srv q s).2 := rfl

theorem bind_assoc (p : Proc Req Rep Fr α) (f : α → Proc Req Rep Fr β)
    (g : β → Proc Req Rep Fr γ) : (p.bind f).bind g = p.bind fun a => (f a).bind g := by
  induction p with
  | ret a => rfl
  | call fr q k ih => exact congrArg (Proc.call fr q) (funext ih)

theorem run_bind (srv : Server Req Rep σ) (p : Proc Req Rep Fr α)
    (f : α → Proc Req Rep Fr β) (s : σ) :
    (p.bind f).run srv s = (f (p.run srv s).1).run srv (p.run srv s).2 := by
  induction p generalizing s with
  | ret a => rfl
  | call fr q k ih => simpa using ih (srv q s).1 (srv q s).2

theorem calls_bind (srv : Server Req Rep σ) (p : Proc Req Rep Fr α)
    (f : α → Proc Req Rep Fr β) (s : σ) :
    (p.bind f).calls srv s =
      p.calls srv s+(f (p.run srv s).1).calls srv (p.run srv s).2 := by
  induction p generalizing s with
  | ret a => simp [calls]
  | call fr q k ih =>
    simp only [call_bind,calls,run_call]
    rw [ih (srv q s).1 (srv q s).2]
    omega

@[simp] theorem run_own (srv : Server Req Rep σ) (f : Fr → Fr') (p : Proc Req Rep Fr α)
    (s : σ) : (p.own f).run srv s = p.run srv s := by
  induction p generalizing s with
  | ret a => rfl
  | call fr q k ih => simpa [own] using ih (srv q s).1 (srv q s).2

@[simp] theorem calls_own (srv : Server Req Rep σ) (f : Fr → Fr') (p : Proc Req Rep Fr α)
    (s : σ) : (p.own f).calls srv s = p.calls srv s := by
  induction p generalizing s with
  | ret a => rfl
  | call fr q k ih => simpa [own,calls] using ih (srv q s).1 (srv q s).2

/- A dropped program keeps the frame of the request it was suspended at. The
   request in flight has landed upstream or not; the caller cannot tell. -/
inductive Stop (Fr α σ : Type) where
  | finished (a : α) (left : Nat) (s : σ)
  | dropped (fr : Fr) (s : σ)

/-- Run until `n` requests were answered, then drop the program. -/
def runFor (srv : Server Req Rep σ) (landed : Bool) : Nat → Proc Req Rep Fr α → σ → Stop Fr α σ
  | n, .ret a, s => .finished a n s
  | 0, .call fr q _, s => .dropped fr (if landed then (srv q s).2 else s)
  | n+1, .call _ q k, s => (k (srv q s).1).runFor srv landed n (srv q s).2

/-- The frame of the request the program is suspended at after `n` answers. -/
def frameAt (srv : Server Req Rep σ) : Nat → Proc Req Rep Fr α → σ → Option Fr
  | _, .ret _, _ => none
  | 0, .call fr _ _, _ => some fr
  | n+1, .call _ q k, s => (k (srv q s).1).frameAt srv n (srv q s).2

theorem runFor_of_calls_le (srv : Server Req Rep σ) (landed : Bool) (p : Proc Req Rep Fr α)
    (n : Nat) (s : σ) (h : p.calls srv s ≤ n) :
    p.runFor srv landed n s =
      .finished (p.run srv s).1 (n-p.calls srv s) (p.run srv s).2 := by
  induction p generalizing n s with
  | ret a => simp [runFor,calls]
  | call fr q k ih =>
    cases n with
    | zero => simp [calls] at h
    | succ n =>
      simp only [calls,Nat.add_le_add_iff_right] at h
      simp [runFor,calls,ih _ n _ h]

/-- A program stopped before its last answer is dropped at a frame of its own. -/
theorem runFor_of_lt_calls (srv : Server Req Rep σ) (landed : Bool) (p : Proc Req Rep Fr α)
    (n : Nat) (s : σ) (h : n<p.calls srv s) :
    ∃ fr s', p.frameAt srv n s = some fr ∧ p.runFor srv landed n s = .dropped fr s' := by
  induction p generalizing n s with
  | ret a => simp [calls] at h
  | call fr q k ih =>
    cases n with
    | zero => exact ⟨fr,_,rfl,rfl⟩
    | succ n =>
      simp only [calls,Nat.add_lt_add_iff_right] at h
      simpa [frameAt,runFor] using ih _ n _ h

theorem frameAt_bind (srv : Server Req Rep σ) (p : Proc Req Rep Fr α)
    (f : α → Proc Req Rep Fr β) (n : Nat) (s : σ) :
    (p.bind f).frameAt srv n s =
      if n<p.calls srv s then p.frameAt srv n s
      else (f (p.run srv s).1).frameAt srv (n-p.calls srv s) (p.run srv s).2 := by
  induction p generalizing n s with
  | ret a => simp [calls]
  | call fr q k ih =>
    cases n with
    | zero => simp [frameAt,calls]
    | succ n => simp [frameAt,calls,ih]

theorem frameAt_own (srv : Server Req Rep σ) (f : Fr → Fr') (p : Proc Req Rep Fr α)
    (n : Nat) (s : σ) : (p.own f).frameAt srv n s = (p.frameAt srv n s).map f := by
  induction p generalizing n s with
  | ret a => simp [own,frameAt]
  | call fr q k ih => cases n <;> simp [own,frameAt,ih]

theorem frameAt_bind_ret (srv : Server Req Rep σ) (p : Proc Req Rep Fr α) (f : α → β)
    (n : Nat) (s : σ) : (p.bind fun a => .ret (f a)).frameAt srv n s = p.frameAt srv n s := by
  induction p generalizing n s with
  | ret a => simp [frameAt]
  | call fr q k ih => cases n <;> simp [frameAt,ih]

/-- Every frame the program can be dropped at satisfies `P`. -/
def Frames (P : Fr → Prop) : Proc Req Rep Fr α → Prop
  | .ret _ => True
  | .call fr _ k => P fr ∧ ∀ r, (k r).Frames P

theorem Frames.bind {P : Fr → Prop} {p : Proc Req Rep Fr α} {f : α → Proc Req Rep Fr β}
    (hp : p.Frames P) (hf : ∀ a, (f a).Frames P) : (p.bind f).Frames P := by
  induction p with
  | ret a => exact hf a
  | call fr q k ih => exact ⟨hp.1,fun r => ih r (hp.2 r)⟩

theorem frames_own {P : Fr' → Prop} {f : Fr → Fr'} (hf : ∀ fr, P (f fr))
    (p : Proc Req Rep Fr α) : (p.own f).Frames P := by
  induction p with
  | ret a => trivial
  | call fr q k ih => exact ⟨hf fr,ih⟩

theorem Frames.of_frameAt {P : Fr → Prop} {p : Proc Req Rep Fr α} (hp : p.Frames P)
    {srv : Server Req Rep σ} {n : Nat} {s : σ} {fr : Fr} (h : p.frameAt srv n s = some fr) :
    P fr := by
  induction p generalizing n s with
  | ret a => simp [frameAt] at h
  | call fr' q k ih =>
    cases n with
    | zero =>
      obtain rfl : fr' = fr := by simpa [frameAt] using h
      exact hp.1
    | succ n => exact ih _ (hp.2 _) h

/-- Every reply the run receives satisfies `P`. -/
def Answers (P : (q : Req) → Rep q → Prop) (srv : Server Req Rep σ) :
    Proc Req Rep Fr α → σ → Prop
  | .ret _, _ => True
  | .call _ q k, s => P q (srv q s).1 ∧ (k (srv q s).1).Answers P srv (srv q s).2

theorem answers_bind {P : (q : Req) → Rep q → Prop} (srv : Server Req Rep σ)
    (p : Proc Req Rep Fr α) (f : α → Proc Req Rep Fr β) (s : σ) :
    (p.bind f).Answers P srv s ↔
      p.Answers P srv s ∧ (f (p.run srv s).1).Answers P srv (p.run srv s).2 := by
  induction p generalizing s with
  | ret a => simp [Answers]
  | call fr q k ih => simp [Answers,ih,and_assoc]

theorem answers_own {P : (q : Req) → Rep q → Prop} (srv : Server Req Rep σ) (f : Fr → Fr')
    (p : Proc Req Rep Fr α) (s : σ) : (p.own f).Answers P srv s ↔ p.Answers P srv s := by
  induction p generalizing s with
  | ret a => simp [own,Answers]
  | call fr q k ih => simp [own,Answers,ih]

theorem Answers.of_forall {P : (q : Req) → Rep q → Prop} (h : ∀ q r, P q r)
    (srv : Server Req Rep σ) (p : Proc Req Rep Fr α) (s : σ) : p.Answers P srv s := by
  induction p generalizing s with
  | ret a => trivial
  | call fr q k ih => exact ⟨h _ _,ih _ _⟩

/-- How many requests of the run `b` marks, judged on the state they are served in. -/
def tally (b : Req → σ → Bool) (srv : Server Req Rep σ) : Proc Req Rep Fr α → σ → Nat
  | .ret _, _ => 0
  | .call _ q k, s => (b q s).toNat+(k (srv q s).1).tally b srv (srv q s).2

@[simp] theorem tally_ret (b : Req → σ → Bool) (srv : Server Req Rep σ) (a : α) (s : σ) :
    (Proc.ret a : Proc Req Rep Fr α).tally b srv s = 0 := rfl
@[simp] theorem tally_call (b : Req → σ → Bool) (srv : Server Req Rep σ) (fr : Fr) (q : Req)
    (k : Rep q → Proc Req Rep Fr α) (s : σ) :
    (Proc.call fr q k).tally b srv s =
      (b q s).toNat+(k (srv q s).1).tally b srv (srv q s).2 := rfl

theorem tally_bind (b : Req → σ → Bool) (srv : Server Req Rep σ) (p : Proc Req Rep Fr α)
    (f : α → Proc Req Rep Fr β) (s : σ) :
    (p.bind f).tally b srv s =
      p.tally b srv s+(f (p.run srv s).1).tally b srv (p.run srv s).2 := by
  induction p generalizing s with
  | ret a => simp
  | call fr q k ih =>
    simp only [call_bind,tally_call,run_call]
    rw [ih (srv q s).1 (srv q s).2]
    omega

/-- Every request the program can issue satisfies `P`. -/
def Issues (P : Req → Prop) : Proc Req Rep Fr α → Prop
  | .ret _ => True
  | .call _ q k => P q ∧ ∀ r, (k r).Issues P

theorem Issues.bind {P : Req → Prop} {p : Proc Req Rep Fr α} {f : α → Proc Req Rep Fr β}
    (hp : p.Issues P) (hf : ∀ a, (f a).Issues P) : (p.bind f).Issues P := by
  induction p with
  | ret a => exact hf a
  | call fr q k ih => exact ⟨hp.1,fun r => ih r (hp.2 r)⟩

theorem Issues.mono {P Q : Req → Prop} {p : Proc Req Rep Fr α} (hp : p.Issues P)
    (h : ∀ q, P q → Q q) : p.Issues Q := by
  induction p with
  | ret a => trivial
  | call fr q k ih => exact ⟨h q hp.1,fun r => ih r (hp.2 r)⟩

theorem Issues.tally_eq_zero {P : Req → Prop} {p : Proc Req Rep Fr α} (hp : p.Issues P)
    {b : Req → σ → Bool} (hb : ∀ q s, P q → b q s = false) (srv : Server Req Rep σ) (s : σ) :
    p.tally b srv s = 0 := by
  induction p generalizing s with
  | ret a => rfl
  | call fr q k ih => simp [hb q s hp.1,ih _ (hp.2 _)]

/-- Every request of the run satisfies `P`, judged on the state it is served in. -/
def Each (P : Req → σ → Prop) (srv : Server Req Rep σ) : Proc Req Rep Fr α → σ → Prop
  | .ret _, _ => True
  | .call _ q k, s => P q s ∧ (k (srv q s).1).Each P srv (srv q s).2

instance Each.decidable {P : Req → σ → Prop} [∀ q s, Decidable (P q s)] (srv : Server Req Rep σ) :
    (p : Proc Req Rep Fr α) → (s : σ) → Decidable (p.Each P srv s)
  | .ret _, _ => .isTrue trivial
  | .call _ q k, s =>
    @instDecidableAnd _ _ inferInstance (Each.decidable srv (k (srv q s).1) (srv q s).2)

theorem each_bind {P : Req → σ → Prop} (srv : Server Req Rep σ) (p : Proc Req Rep Fr α)
    (f : α → Proc Req Rep Fr β) (s : σ) :
    (p.bind f).Each P srv s ↔
      p.Each P srv s ∧ (f (p.run srv s).1).Each P srv (p.run srv s).2 := by
  induction p generalizing s with
  | ret a => simp [Each]
  | call fr q k ih => simp [Each,ih,and_assoc]

@[simp] theorem each_own {P : Req → σ → Prop} (srv : Server Req Rep σ) (f : Fr → Fr')
    (p : Proc Req Rep Fr α) (s : σ) : (p.own f).Each P srv s ↔ p.Each P srv s := by
  induction p generalizing s with
  | ret a => simp [own,Each]
  | call fr q k ih => simp [own,Each,ih]

/-- A result that satisfies `Q` is only returned behind a reply that satisfies `P`. -/
def Earns (P : (q : Req) → Rep q → Prop) (Q : α → Prop) : Proc Req Rep Fr α → Prop
  | .ret a => ¬Q a
  | .call _ q k => ∀ r, P q r ∨ (k r).Earns P Q

theorem Earns.bind {P : (q : Req) → Rep q → Prop} {Q : α → Prop} {Q' : β → Prop}
    {p : Proc Req Rep Fr α} {f : α → Proc Req Rep Fr β} (hp : p.Earns P Q)
    (hf : ∀ a, Q a ∨ (f a).Earns P Q') : (p.bind f).Earns P Q' := by
  induction p with
  | ret a => exact (hf a).resolve_left hp
  | call fr q k ih => exact fun r => (hp r).imp_right (ih r)

section watched
variable {τ : Type} (note : (q : Req) → σ → Rep q → σ → τ → τ)

/-- The server with an observer beside it, who sees each request, its reply and the states
before and after. -/
def watched (srv : Server Req Rep σ) : Server Req Rep (σ × τ) := fun q s =>
  ((srv q s.1).1,(srv q s.1).2,note q s.1 (srv q s.1).1 (srv q s.1).2 s.2)

/-- The observer changes nothing. -/
theorem run_watched (srv : Server Req Rep σ) (p : Proc Req Rep Fr α) (s : σ × τ) :
    (p.run (watched note srv) s).1 = (p.run srv s.1).1 ∧
      (p.run (watched note srv) s).2.1 = (p.run srv s.1).2 := by
  induction p generalizing s with
  | ret a => exact ⟨rfl,rfl⟩
  | call fr q k ih => exact ih (srv q s.1).1 _

end watched

section interp
variable {Req' : Type} {Rep' : Req' → Type}

/-- Answer each request by a program over another interface. -/
def interp (h : (q : Req) → Proc Req' Rep' Fr' (Rep q)) :
    Proc Req Rep Fr α → Proc Req' Rep' Fr' α
  | .ret a => .ret a
  | .call _ q k => (h q).bind fun r => (k r).interp h

/-- Interpreting the requests is running against the server they make up. -/
theorem run_interp (h : (q : Req) → Proc Req' Rep' Fr' (Rep q)) (srv : Server Req' Rep' σ)
    (p : Proc Req Rep Fr α) (s : σ) :
    (p.interp h).run srv s = p.run (fun q s => (h q).run srv s) s := by
  induction p generalizing s with
  | ret a => rfl
  | call fr q k ih => simp [interp,run_bind,ih]

end interp

end Proc
end WorkflowyMcp
