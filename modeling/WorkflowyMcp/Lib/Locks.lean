import Mathlib.Data.Finset.Max
import Mathlib.Data.Fintype.Basic
import WorkflowyMcp.Lib.Runs

/-! Threads that take and release readers-writer locks. Where locks are taken in the order of
their ranks nothing deadlocks; one inversion of two neighbouring ranks is admitted, as long as
no two threads cross there. -/
namespace WorkflowyMcp.Locks

inductive Mode where
  | read | write
deriving DecidableEq, Repr

inductive Action (L : Type) where
  | acquire (l : L) (m : Mode)
  | release (l : L)

/-- What is left of a thread's program, and the locks it holds. -/
structure Thread (L : Type) where
  todo : List (Action L)
  held : L → Option Mode := fun _ => none

variable {L T : Type} [DecidableEq L] [DecidableEq T] [Fintype T]

def start (progs : T → List (Action L)) : T → Thread L := fun t => { todo := progs t }

def wants : List (Action L) → Option L
  | .acquire l _::_ => some l
  | _ => none

def excludes : Mode → Mode → Bool
  | .read,.read => false
  | _,_ => true

/-- No other thread holds the lock in a mode that excludes this one. -/
def Free (s : T → Thread L) (t : T) (l : L) (m : Mode) : Prop :=
  ∀ t', t'≠t → ∀ m'∈(s t').held l, excludes m m' = false

instance (s : T → Thread L) (t : T) (l : L) (m : Mode) : Decidable (Free s t l m) :=
  inferInstanceAs (Decidable (∀ t', t'≠t → ∀ m'∈(s t').held l, excludes m m' = false))

/-- The lock that the thread takes when it is scheduled. -/
def takes (s : T → Thread L) (t : T) : Option L :=
  match (s t).todo with
  | .acquire l m::_ => if Free s t l m then some l else none
  | _ => none

/-- A scheduled thread whose lock is not free stays where it is. -/
def step (s : T → Thread L) (t : T) : T → Thread L :=
  match (s t).todo with
  | .acquire l m::todo =>
    if Free s t l m then Function.update s t ⟨todo,Function.update (s t).held l (some m)⟩ else s
  | .release l::todo => Function.update s t ⟨todo,Function.update (s t).held l none⟩
  | [] => s

/- One thread wants a lock that another holds. The mode does not matter: where a writer waits, a
   reader waits for readers too. -/
def Awaits (s : T → Thread L) (t t' : T) : Prop :=
  t'≠t ∧ ∃ l∈wants (s t).todo, ((s t').held l).isSome

def Deadlocked (s : T → Thread L) (D : Finset T) : Prop :=
  D.Nonempty ∧ ∀ t∈D, ∃ t'∈D, Awaits s t t'

instance (s : T → Thread L) (t t' : T) : Decidable (Awaits s t t') :=
  inferInstanceAs (Decidable (_ ∧ ∃ l∈wants (s t).todo, ((s t').held l).isSome))

instance (s : T → Thread L) (D : Finset T) : Decidable (Deadlocked s D) :=
  inferInstanceAs (Decidable (_ ∧ ∀ t∈D, ∃ t'∈D, Awaits s t t'))

/-- The program takes `l` before it lets go of `h`. -/
def nests (h l : L) : List (Action L) → Bool
  | [] => false
  | .acquire l' _::todo => l' = l || nests h l todo
  | .release l'::todo => l' ≠ h && nests h l todo

/-- The thread holds `h` and is about to take `l` as well. -/
def Crosses (s : T → Thread L) (h l : L) (t : T) : Prop :=
  ((s t).held h).isSome ∧ nests h l (s t).todo

instance (s : T → Thread L) (h l : L) (t : T) : Decidable (Crosses s h l t) :=
  inferInstanceAs (Decidable (_ ∧ _))

/-- No thread steps between the two locks where another is between them the other way round. -/
def Apart (low high : L) (s : T → Thread L) (t : T) : Prop :=
  ∀ l∈takes s t, ∀ t', t'≠t →
    (l = low → nests low high (s t).todo.tail → ¬Crosses s high low t') ∧
    (l = high → nests high low (s t).todo.tail → ¬Crosses s low high t')

instance (low high : L) (s : T → Thread L) (t : T) : Decidable (Apart low high s t) :=
  inferInstanceAs (Decidable (∀ l∈takes s t, ∀ t', t'≠t → (_ → _) ∧ (_ → _)))

/-- Each lock is taken above all that are held, but for `low`, which may be taken where only
`high` is held. -/
def Ranked (rank : L → Nat) (low high : L) : (L → Option Mode) → List (Action L) → Prop
  | _, [] => True
  | held, .acquire l m::todo =>
    ((∀ h, (held h).isSome → rank h<rank l) ∨ (l = low ∧ ∀ h, (held h).isSome → h = high)) ∧
      Ranked rank low high (Function.update held l (some m)) todo
  | held, .release l::todo => Ranked rank low high (Function.update held l none) todo

instance Ranked.decidable [Fintype L] (rank : L → Nat) (low high : L) :
    (held : L → Option Mode) → (todo : List (Action L)) → Decidable (Ranked rank low high held todo)
  | _, [] => .isTrue trivial
  | held, .acquire l m::todo =>
    @instDecidableAnd _ _ inferInstance
      (Ranked.decidable rank low high (Function.update held l (some m)) todo)
  | held, .release l::todo => Ranked.decidable rank low high (Function.update held l none) todo

/-- The locks that are held when the program is done. -/
def after : (L → Option Mode) → List (Action L) → L → Option Mode
  | held, [] => held
  | held, .acquire l m::todo => after (Function.update held l (some m)) todo
  | held, .release l::todo => after (Function.update held l none) todo

/-- A step takes a free lock, releases one, or changes nothing. -/
theorem step_cases (s : T → Thread L) (t : T) :
    (∃ l m todo, (s t).todo = .acquire l m::todo ∧ l∈takes s t ∧
      step s t = Function.update s t ⟨todo,Function.update (s t).held l (some m)⟩) ∨
    (∃ l todo, (s t).todo = .release l::todo ∧
      step s t = Function.update s t ⟨todo,Function.update (s t).held l none⟩) ∨ step s t = s := by
  cases htodo : (s t).todo with
  | nil => exact .inr (.inr (by simp [step,htodo]))
  | cons a todo =>
    cases a with
    | release l => exact .inr (.inl ⟨l,todo,rfl,by simp [step,htodo]⟩)
    | acquire l m =>
      by_cases hfree : Free s t l m
      · exact .inl ⟨l,m,todo,rfl,by simp [takes,htodo,hfree],by simp [step,htodo,hfree]⟩
      · exact .inr (.inr (by simp [step,htodo,hfree]))

section ranked
variable {rank : L → Nat} {low high : L}

theorem ranked_append {held : L → Option Mode} {p q : List (Action L)} :
    Ranked rank low high held (p++q) ↔
      Ranked rank low high held p ∧ Ranked rank low high (after held p) q := by
  induction p generalizing held with
  | nil => simp [Ranked,after]
  | cons a p ih => cases a <;> simp [Ranked,after,ih,and_assoc]

/-- Programs that end with no lock held can follow one another. -/
theorem ranked_flatMap {α : Type} {prog : α → List (Action L)} (ops : List α)
    (hr : ∀ op, Ranked rank low high (fun _ => none) (prog op))
    (ha : ∀ op, after (fun _ => none) (prog op) = fun _ => none) :
    Ranked rank low high (fun _ => none) (ops.flatMap prog) := by
  induction ops with
  | nil => trivial
  | cons op ops ih => exact ranked_append.mpr ⟨hr op,(ha op).symm ▸ ih⟩

variable {s : T → Thread L}

/-- What every step keeps that does not make two threads cross. -/
structure Orderly (rank : L → Nat) (low high : L) (s : T → Thread L) : Prop where
  ranked : ∀ t, Ranked rank low high (s t).held (s t).todo
  apart : ∀ t t', t'≠t → Crosses s low high t → ¬Crosses s high low t'

theorem ranked_step (h : ∀ t, Ranked rank low high (s t).held (s t).todo) (t x : T) :
    Ranked rank low high (step s t x).held (step s t x).todo := by
  have ht := h t
  rcases step_cases s t with ⟨l,m,todo,htodo,-,hstep⟩ | ⟨l,todo,htodo,hstep⟩ | hstep
  · rw [htodo] at ht
    rw [hstep]
    by_cases hx : x = t
    · subst hx
      simpa using ht.2
    · simpa [hx] using h x
  · rw [htodo] at ht
    rw [hstep]
    by_cases hx : x = t
    · subst hx
      simpa [Ranked] using ht
    · simpa [hx] using h x
  · rw [hstep]
    exact h x

/-- A thread comes between two locks by taking the first of them. -/
theorem crosses_step {h l : L} {t x : T} (hc : Crosses (step s t) h l x) :
    Crosses s h l x ∨ (x = t ∧ h∈takes s t ∧ nests h l (s t).todo.tail) := by
  obtain ⟨hheld,hnests⟩ := hc
  rcases step_cases s t with ⟨l',m,todo,htodo,htakes,hstep⟩ | ⟨l',todo,htodo,hstep⟩ | hstep
  · by_cases hx : x = t
    · subst hx
      simp only [hstep,Function.update_self] at hheld hnests
      by_cases hl : h = l'
      · subst hl
        exact .inr ⟨rfl,htakes,by simpa [htodo] using hnests⟩
      · rw [Function.update_of_ne hl] at hheld
        exact .inl ⟨hheld,by simp [htodo,nests,hnests]⟩
    · rw [hstep,Function.update_of_ne hx] at hheld hnests
      exact .inl ⟨hheld,hnests⟩
  · by_cases hx : x = t
    · subst hx
      simp only [hstep,Function.update_self] at hheld hnests
      by_cases hl : h = l'
      · subst hl
        simp at hheld
      · rw [Function.update_of_ne hl] at hheld
        exact .inl ⟨hheld,by simp [htodo,nests,hnests,Ne.symm hl]⟩
    · rw [hstep,Function.update_of_ne hx] at hheld hnests
      exact .inl ⟨hheld,hnests⟩
  · exact .inl ⟨hstep ▸ hheld,hstep ▸ hnests⟩

theorem Orderly.step (hs : Orderly rank low high s) {t : T} (ha : Apart low high s t) :
    Orderly rank low high (step s t) where
  ranked x := ranked_step hs.ranked t x
  apart x y hxy hx hy := by
    rcases crosses_step hx with hx' | ⟨rfl,htx,hnx⟩
    · rcases crosses_step hy with hy' | ⟨rfl,hty,hny⟩
      · exact hs.apart x y hxy hx' hy'
      · exact (ha high hty x hxy.symm).2 rfl hny hx'
    · rcases crosses_step hy with hy' | ⟨rfl,-,-⟩
      · exact (ha low htx y hxy).1 rfl hnx hy'
      · exact hxy rfl

omit [DecidableEq T] [Fintype T] in
theorem wants_ranked {t : T} {l : L} (hs : Orderly rank low high s) (hl : l∈wants (s t).todo) :
    (∀ h, ((s t).held h).isSome → rank h<rank l) ∨
      (l = low ∧ ∀ h, ((s t).held h).isSome → h = high) := by
  have hr := hs.ranked t
  unfold wants at hl
  split at hl
  · rename_i htodo
    obtain rfl := Option.some.inj hl
    rw [htodo] at hr
    exact hr.1
  · cases hl

theorem nests_of_wants {h l : L} {todo : List (Action L)} (hl : l∈wants todo) :
    nests h l todo := by
  unfold wants at hl
  split at hl
  · obtain rfl := Option.some.inj hl
    simp [nests]
  · cases hl

omit [DecidableEq T] [Fintype T] in
/-- Among deadlocked threads the one that wants the highest lock waits for a thread at the
inversion, which waits for one that crosses it. -/
theorem Orderly.not_deadlocked (hs : Orderly rank low high s) (hinj : Function.Injective rank)
    (hnext : rank high = rank low+1) (D : Finset T) : ¬Deadlocked s D := by
  rintro ⟨hne,hall⟩
  obtain ⟨t,ht,hmax⟩ := D.exists_max_image (fun t => ((wants (s t).todo).map rank).getD 0) hne
  obtain ⟨t₁,ht₁,-,l,hl,hheld⟩ := hall t ht
  obtain ⟨t₂,ht₂,hne₂,l₁,hl₁,hheld₁⟩ := hall t₁ ht₁
  obtain ⟨-,-,-,l₂,hl₂,-⟩ := hall t₂ ht₂
  have hle₁ : rank l₁ ≤ rank l := by
    simpa [Option.mem_def.mp hl,Option.mem_def.mp hl₁] using hmax t₁ ht₁
  have hle₂ : rank l₂ ≤ rank l := by
    simpa [Option.mem_def.mp hl,Option.mem_def.mp hl₂] using hmax t₂ ht₂
  rcases wants_ranked hs hl₁ with hup | ⟨rfl,honly⟩
  · have hlt := hup l hheld
    omega
  · obtain rfl := honly l hheld
    rcases wants_ranked hs hl₂ with hup | ⟨rfl,honly₂⟩
    · have hlt := hup _ hheld₁
      obtain rfl : l₂ = l := hinj (by omega)
      exact hs.apart t₂ t₁ hne₂.symm ⟨hheld₁,nests_of_wants hl₂⟩ ⟨hheld,nests_of_wants hl₁⟩
    · have hsame := congrArg rank (honly₂ _ hheld₁)
      omega

/-- Runs in which no two threads cross never deadlock. -/
theorem never_deadlocked (hs : Orderly rank low high s) (hinj : Function.Injective rank)
    (hnext : rank high = rank low+1) {ts : List T} (h : Runs.Meets step (Apart low high) s ts) :
    Runs.Always step (fun s => ∀ D, ¬Deadlocked s D) s ts :=
  h.always (fun _ _ ha hs => hs.step ha) (fun _ hs => hs.not_deadlocked hinj hnext) hs

end ranked

omit [DecidableEq T] [Fintype T] in
theorem crosses_start {progs : T → List (Action L)} {h l : L} {t : T} :
    ¬Crosses (start progs) h l t := fun hc => by cases hc.1

end WorkflowyMcp.Locks
