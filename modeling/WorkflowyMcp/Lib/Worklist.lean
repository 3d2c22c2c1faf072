import Mathlib.Data.Finset.Basic
import Mathlib.Logic.Function.Iterate
import Mathlib.Logic.Relation
import Mathlib.Tactic.Common

/-! Closure of a set of seeds under a finite edge list, by a work stack with a
visited set. Cycles and repeated edges are allowed; the fuel bound is proved. -/
namespace WorkflowyMcp.Worklist
variable {α : Type} [DecidableEq α]

def succs (edges : List (α × α)) (x : α) : List α :=
  (edges.filter fun e => e.1 = x).map Prod.snd

/-- Pop the top of the stack; a visited entry is skipped, a new one is recorded
and its successors are pushed on top. -/
def close (edges : List (α × α)) : Nat → List α → Finset α → Finset α
  | 0, _, out => out
  | _+1, [], out => out
  | fuel+1, x::stack, out =>
    if x∈out then close edges fuel stack out
    else close edges fuel ((succs edges x).reverse++stack) (insert x out)

def Edge (edges : List (α × α)) (x y : α) : Prop := (x,y)∈edges

/-- Reached from the seeds along the edges. -/
def Reached (edges : List (α × α)) (seeds : List α) (x : α) : Prop :=
  ∃ s∈seeds, Relation.ReflTransGen (Edge edges) s x

theorem mem_succs {edges : List (α × α)} {x y : α} : y∈succs edges x ↔ Edge edges x y := by
  simp [succs,Edge]

theorem subset_close (edges : List (α × α)) (fuel : Nat) (stack : List α) (out : Finset α) :
    out ⊆ close edges fuel stack out := by
  induction fuel generalizing stack out with
  | zero => exact fun _ h => h
  | succ fuel ih =>
    cases stack with
    | nil => exact fun _ h => h
    | cons x stack =>
      by_cases hx : x∈out
      · simpa [close,hx] using ih stack out
      · simp only [close,if_neg hx]
        exact (Finset.subset_insert x out).trans (ih _ _)

/-- Soundness: whatever is returned was visited before or is reached from the stack. -/
theorem close_sound {edges : List (α × α)} {fuel : Nat} {stack : List α} {out : Finset α} {y : α}
    (h : y∈close edges fuel stack out) : y∈out ∨ Reached edges stack y := by
  induction fuel generalizing stack out with
  | zero => exact .inl h
  | succ fuel ih =>
    cases stack with
    | nil => exact .inl h
    | cons x stack =>
      by_cases hx : x∈out
      · simp only [close,if_pos hx] at h
        rcases ih h with ho | ⟨s,hs,hr⟩
        · exact .inl ho
        · exact .inr ⟨s,List.mem_cons_of_mem x hs,hr⟩
      · simp only [close,if_neg hx] at h
        rcases ih h with ho | ⟨s,hs,hr⟩
        · rcases Finset.mem_insert.mp ho with rfl | ho
          · exact .inr ⟨y,List.mem_cons_self,.refl⟩
          · exact .inl ho
        · rcases List.mem_append.mp hs with hs | hs
          · have hedge := mem_succs.mp (List.mem_reverse.mp hs)
            exact .inr ⟨x,List.mem_cons_self,.head hedge hr⟩
          · exact .inr ⟨s,List.mem_cons_of_mem x hs,hr⟩

/-- Edges whose source is not yet visited: what the loop may still push. -/
def pending (edges : List (α × α)) (out : Finset α) : List (α × α) :=
  edges.filter fun e => e.1∉out

theorem pending_insert (edges : List (α × α)) (out : Finset α) (x : α) (hx : x∉out) :
    (pending edges (insert x out)).length+(succs edges x).length = (pending edges out).length := by
  simp only [pending,succs,List.length_map,← List.countP_eq_length_filter]
  induction edges with
  | nil => rfl
  | cons e es ih =>
    simp only [Finset.mem_insert,not_or,Bool.decide_and,decide_not,List.countP_cons] at ih ⊢
    by_cases he : e.1=x
    · simp only [he,hx,decide_true,decide_false,Bool.not_true,Bool.not_false,
        Bool.false_and,Bool.false_eq_true,if_true,if_false]
      omega
    · simp only [he,decide_false,Bool.not_false,Bool.true_and,Bool.false_eq_true,if_false]
      omega

/-- Completeness: with enough fuel the result is closed and holds the whole stack. -/
theorem close_complete {edges : List (α × α)} {fuel : Nat} {stack : List α} {out : Finset α}
    (hfuel : stack.length+(pending edges out).length ≤ fuel)
    (hout : ∀ y∈out, ∀ z, Edge edges y z → z∈out ∨ z∈stack) :
    (∀ s∈stack, s∈close edges fuel stack out) ∧
      ∀ y∈close edges fuel stack out, ∀ z, Edge edges y z → z∈close edges fuel stack out := by
  induction fuel generalizing stack out with
  | zero =>
    obtain rfl : stack=[] := List.length_eq_zero_iff.mp (by omega)
    exact ⟨by simp,fun y hy z hz => (hout y hy z hz).resolve_right (by simp)⟩
  | succ fuel ih =>
    cases stack with
    | nil => exact ⟨by simp,fun y hy z hz => (hout y hy z hz).resolve_right (by simp)⟩
    | cons x stack =>
      simp only [List.length_cons] at hfuel
      by_cases hx : x∈out
      · simp only [close,if_pos hx]
        have hout' : ∀ y∈out, ∀ z, Edge edges y z → z∈out ∨ z∈stack := fun y hy z hz => by
          rcases hout y hy z hz with ho | hs
          · exact .inl ho
          · rcases List.mem_cons.mp hs with rfl | hs
            · exact .inl hx
            · exact .inr hs
        have hstep := ih (by omega) hout'
        refine ⟨fun s hs => ?_,hstep.2⟩
        rcases List.mem_cons.mp hs with rfl | hs
        · exact subset_close _ _ _ _ hx
        · exact hstep.1 s hs
      · simp only [close,if_neg hx]
        have hpend := pending_insert edges out x hx
        have hout' : ∀ y∈insert x out, ∀ z, Edge edges y z →
            z∈insert x out ∨ z∈(succs edges x).reverse++stack := fun y hy z hz => by
          rcases Finset.mem_insert.mp hy with rfl | hy
          · exact .inr (List.mem_append_left _ (List.mem_reverse.mpr (mem_succs.mpr hz)))
          · rcases hout y hy z hz with ho | hs
            · exact .inl (Finset.mem_insert_of_mem ho)
            · rcases List.mem_cons.mp hs with rfl | hs
              · exact .inl (Finset.mem_insert_self _ _)
              · exact .inr (List.mem_append_right _ hs)
        have hstep := ih (by simp only [List.length_append,List.length_reverse]; omega) hout'
        refine ⟨fun s hs => ?_,hstep.2⟩
        rcases List.mem_cons.mp hs with rfl | hs
        · exact subset_close _ _ _ _ (Finset.mem_insert_self _ _)
        · exact hstep.1 s (List.mem_append_right _ hs)

/-- One pass of the loop. -/
def pop (edges : List (α × α)) : List α × Finset α → List α × Finset α
  | ([],out) => ([],out)
  | (x::stack,out) =>
    if x∈out then (stack,out) else ((succs edges x).reverse++stack,insert x out)

theorem iterate_pop_nil (edges : List (α × α)) (fuel : Nat) (out : Finset α) :
    (pop edges)^[fuel] ([],out) = ([],out) :=
  Function.iterate_fixed rfl fuel

theorem close_eq_iterate (edges : List (α × α)) (fuel : Nat) (stack : List α) (out : Finset α) :
    close edges fuel stack out = ((pop edges)^[fuel] (stack,out)).2 := by
  induction fuel generalizing stack out with
  | zero => rfl
  | succ fuel ih =>
    rw [Function.iterate_succ_apply]
    cases stack with
    | nil => simp [close,pop,iterate_pop_nil]
    | cons x stack => by_cases hx : x∈out <;> simp [close,pop,hx,ih]

/-- Each pass uses up a place on the stack or an edge, so the stack runs empty. -/
theorem iterate_pop_empties (edges : List (α × α)) (fuel : Nat) (stack : List α) (out : Finset α)
    (hfuel : stack.length+(pending edges out).length ≤ fuel) :
    ((pop edges)^[fuel] (stack,out)).1 = [] := by
  induction fuel generalizing stack out with
  | zero =>
    obtain rfl : stack=[] := List.length_eq_zero_iff.mp (by omega)
    rfl
  | succ fuel ih =>
    rw [Function.iterate_succ_apply]
    cases stack with
    | nil => simp [pop,iterate_pop_nil]
    | cons x stack =>
      simp only [List.length_cons] at hfuel
      by_cases hx : x∈out
      · simpa only [pop,if_pos hx] using ih stack out (by omega)
      · have hpend := pending_insert edges out x hx
        simpa only [pop,if_neg hx] using ih _ (insert x out)
          (by simp only [List.length_append,List.length_reverse]; omega)

/-- The loop stops, within a pass for every seed and every edge. -/
theorem iterate_pop_eq_close {edges : List (α × α)} {fuel : Nat} {seeds : List α}
    (hfuel : seeds.length+edges.length ≤ fuel) :
    (pop edges)^[fuel] (seeds,∅) = ([],close edges fuel seeds ∅) := by
  have hlen : (pending edges ∅).length ≤ edges.length := List.length_filter_le _ _
  exact Prod.ext (iterate_pop_empties edges fuel seeds ∅ (by omega))
    (close_eq_iterate edges fuel seeds ∅).symm

/-- With fuel for every seed and every edge, the loop computes exactly the reached set. -/
theorem mem_close {edges : List (α × α)} {fuel : Nat} {seeds : List α}
    (hfuel : seeds.length+edges.length ≤ fuel) (y : α) :
    y∈close edges fuel seeds ∅ ↔ Reached edges seeds y := by
  refine ⟨fun h => (close_sound h).resolve_left (by simp),?_⟩
  rintro ⟨s,hs,hr⟩
  have hlen : (pending edges ∅).length ≤ edges.length := List.length_filter_le _ _
  have hclosed : (∀ s∈seeds, s∈close edges fuel seeds ∅) ∧
      ∀ y∈close edges fuel seeds ∅, ∀ z, Edge edges y z → z∈close edges fuel seeds ∅ :=
    close_complete (by omega) (by simp)
  induction hr with
  | refl => exact hclosed.1 s hs
  | tail _ hedge ih => exact hclosed.2 _ ih _ hedge

end WorkflowyMcp.Worklist
