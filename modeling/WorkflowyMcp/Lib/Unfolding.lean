import Mathlib.Data.List.Perm.Basic
import WorkflowyMcp.Lib.Partial
import WorkflowyMcp.Lib.Worklist

/-! Walks of a finite graph that keep no set of what they visited, by a list of what is left to
visit or by recursion. They end and visit nothing twice exactly when the edges that can be reached
lead to places of their own. -/
namespace WorkflowyMcp.Unfolding
variable {α β κ : Type}

/-- Take the first of what is left and add its children, in the places that `push` gives them. -/
def visits (push : List α → List α → List α) (children : α → List α) :
    Nat → List α → Option (List α)
  | _,[] => some []
  | 0,_::_ => none
  | fuel+1,x::pending => (visits push children fuel (push (children x) pending)).map (x::·)

/-- A recursion over a node and, one level deeper, its children. -/
def fold (children : α → List α) (f : Nat → α → List β → β) : Nat → Nat → α → Option β
  | 0,_,_ => none
  | fuel+1,depth,x => ((children x).mapM (fold children f fuel (depth+1))).map (f depth x)

/-- What such a recursion is called on. -/
def calls (children : α → List α) : Nat → α → Option (List α)
  | 0,_ => none
  | fuel+1,x => ((children x).mapM (calls children fuel)).map fun ls => x::ls.flatten

def onTop (cs pending : List α) : List α := cs++pending
def lastOnTop (cs pending : List α) : List α := cs.reverse++pending
def behind (cs pending : List α) : List α := pending++cs

/-- The children are added somewhere, and nothing is lost. -/
def Pushes (push : List α → List α → List α) : Prop :=
  ∀ cs pending, (push cs pending).Perm (cs++pending)

theorem pushes_onTop : Pushes (onTop (α := α)) := fun _ _ => .refl _

theorem pushes_lastOnTop : Pushes (lastOnTop (α := α)) :=
  fun cs pending => (List.reverse_perm cs).append_right pending

theorem pushes_behind : Pushes (behind (α := α)) := fun _ _ => List.perm_append_comm

section visits
variable {push : List α → List α → List α} {children : α → List α} {fuel : Nat}
  {pending v : List α}

theorem visits_mono (h : visits push children fuel pending = some v) :
    visits push children (fuel+1) pending = some v := by
  induction fuel generalizing pending v with
  | zero =>
    cases pending with
    | nil => simpa [visits] using h
    | cons x pending => simp [visits] at h
  | succ fuel ih =>
    cases pending with
    | nil => simpa [visits] using h
    | cons x pending =>
      simp only [visits,Option.map_eq_some_iff] at h
      obtain ⟨v,hv,rfl⟩ := h
      rw [visits,ih hv]
      rfl

/-- Every visit comes from the start or from one visited before. -/
theorem visits_perm (hpush : Pushes push) (h : visits push children fuel pending = some v) :
    v.Perm (pending++v.flatMap children) := by
  induction fuel generalizing pending v with
  | zero =>
    cases pending with
    | nil => obtain rfl : [] = v := by simpa [visits] using h
             exact .refl _
    | cons x pending => simp [visits] at h
  | succ fuel ih =>
    cases pending with
    | nil => obtain rfl : [] = v := by simpa [visits] using h
             exact .refl _
    | cons x pending =>
      simp only [visits,Option.map_eq_some_iff] at h
      obtain ⟨v,hv,rfl⟩ := h
      refine ((ih hv).trans ((hpush _ _).append_right _)).cons x |>.trans ?_
      rw [List.flatMap_cons,List.cons_append,List.perm_cons,← List.append_assoc]
      exact List.perm_append_comm.append_right _

/-- A walk that has something left wherever it comes does not end. -/
theorem visits_endless (hpush : Pushes push) {P : α → Prop}
    (hP : ∀ x, P x → children x≠[] ∧ ∀ c∈children x, P c) (hne : pending≠[])
    (hpending : ∀ x∈pending, P x) : visits push children fuel pending = none := by
  induction fuel generalizing pending with
  | zero =>
    cases pending with
    | nil => exact absurd rfl hne
    | cons x pending => rfl
  | succ fuel ih =>
    cases pending with
    | nil => exact absurd rfl hne
    | cons x pending =>
      obtain ⟨hx,hpending⟩ := List.forall_mem_cons.mp hpending
      obtain ⟨hsome,hchildren⟩ := hP x hx
      have hperm := hpush (children x) pending
      rw [visits,ih]
      · rfl
      · intro hnil
        rw [hnil] at hperm
        exact hsome (List.append_eq_nil_iff.mp hperm.nil_eq.symm).1
      · intro y hy
        rcases List.mem_append.mp (hperm.mem_iff.mp hy) with hy | hy
        · exact hchildren y hy
        · exact hpending y hy

/-- A walk over keys follows a walk over what has them. -/
theorem visits_map {push' : List κ → List κ → List κ} {children' : κ → List κ} (key : α → κ)
    (hpush : ∀ cs pending, push' (cs.map key) (pending.map key) = (push cs pending).map key)
    (hchildren : ∀ x, children' (key x) = (children x).map key) (fuel : Nat) (pending : List α) :
    visits push' children' fuel (pending.map key) =
      (visits push children fuel pending).map (List.map key) := by
  induction fuel generalizing pending with
  | zero => cases pending <;> rfl
  | succ fuel ih =>
    cases pending with
    | nil => rfl
    | cons x pending =>
      rw [List.map_cons,visits,visits,hchildren,hpush,ih]
      cases visits push children fuel (push (children x) pending) <;> rfl

end visits

section calls
variable {children : α → List α} {fuel : Nat} {x : α} {l : List α}

theorem isSome_fold (f : Nat → α → List β → β) (fuel depth : Nat) (x : α) :
    (fold children f fuel depth x).isSome ↔ (calls children fuel x).isSome := by
  induction fuel generalizing depth x with
  | zero => simp [fold,calls]
  | succ fuel ih =>
    simp only [fold,calls,Option.isSome_map,isSome_mapM]
    exact forall₂_congr fun c _ => ih (depth+1) c

theorem fold_mono {f : Nat → α → List β → β} {depth : Nat} {b : β}
    (h : fold children f fuel depth x = some b) : fold children f (fuel+1) depth x = some b := by
  induction fuel generalizing depth x b with
  | zero => simp [fold] at h
  | succ fuel ih =>
    rw [fold,Option.map_eq_some_iff] at h
    obtain ⟨bs,hbs,rfl⟩ := h
    rw [fold,mapM_mono (fun c _ b hb => ih hb) hbs]
    rfl

theorem fold_le {f : Nat → α → List β → β} {depth n : Nat} {b : β} (hn : fuel ≤ n)
    (h : fold children f fuel depth x = some b) : fold children f n depth x = some b := by
  induction n,hn using Nat.le_induction with
  | base => exact h
  | succ n _ ih => exact fold_mono ih

/-- Two recursions over the same children whose steps keep a relation between the results. -/
theorem fold_rel {γ : Type} {f : Nat → α → List β → β} {g : Nat → α → List γ → γ}
    {P : α → Prop} {R : Nat → α → β → γ → Prop} (hP : ∀ x, P x → ∀ c∈children x, P c)
    (hstep : ∀ depth x bs cs, P x →
      List.Forall₂ (fun b c => ∃ y∈children x, R (depth+1) y b c) bs cs →
      R depth x (f depth x bs) (g depth x cs))
    {fuel depth : Nat} {x : α} {b : β} (hx : P x) (h : fold children f fuel depth x = some b) :
    ∃ c, fold children g fuel depth x = some c ∧ R depth x b c := by
  induction fuel generalizing depth x b with
  | zero => cases h
  | succ fuel ih =>
    rw [fold,Option.map_eq_some_iff] at h
    obtain ⟨bs,hbs,rfl⟩ := h
    obtain ⟨cs,hcs,hrel⟩ := mapM_rel (fun y hy b hb => ih (hP x hx y hy) hb) hbs
    exact ⟨g depth x cs,by rw [fold,hcs]; rfl,hstep depth x bs cs hx hrel⟩

/-- Where every child is of a higher rank than its parent, and no rank above a bound, a recursion
ends. -/
theorem isSome_calls {rank : α → Nat} {bound : Nat} (hrank : ∀ x, ∀ c∈children x, rank x < rank c)
    (hbound : ∀ x, ∀ c∈children x, rank c < bound) (hx : rank x < bound)
    (hfuel : bound ≤ rank x+fuel) : (calls children fuel x).isSome := by
  induction fuel generalizing x with
  | zero => omega
  | succ fuel ih =>
    rw [calls,Option.isSome_map,isSome_mapM]
    intro c hc
    have hlt := hrank x c hc
    exact ih (hbound x c hc) (by omega)

theorem fold_eq_calls (fuel depth : Nat) (x : α) :
    fold children (fun _ x ls => x::ls.flatten) fuel depth x = calls children fuel x := by
  induction fuel generalizing depth x with
  | zero => rfl
  | succ fuel ih =>
    have hcalls : fold children (fun _ x ls => x::ls.flatten) fuel (depth+1) =
        calls children fuel := funext (ih (depth+1))
    rw [fold,calls,hcalls]

theorem calls_mono (h : calls children fuel x = some l) :
    calls children (fuel+1) x = some l := by
  induction fuel generalizing x l with
  | zero => simp [calls] at h
  | succ fuel ih =>
    rw [calls,Option.map_eq_some_iff] at h
    obtain ⟨ls,hls,rfl⟩ := h
    rw [calls,mapM_mono (fun c _ l hl => ih hl) hls]
    rfl

/-- A stack works off its top before what is below it, as a recursion does. -/
theorem calls_of_visits {xs rest v : List α} (h : visits onTop children fuel (xs++rest) = some v) :
    ∃ ls w, xs.mapM (calls children fuel) = some ls ∧ visits onTop children fuel rest = some w ∧
      v = ls.flatten++w := by
  induction fuel generalizing xs rest v with
  | zero =>
    cases xs with
    | nil => exact ⟨[],v,by simp,h,rfl⟩
    | cons x xs => simp [visits] at h
  | succ fuel ih =>
    cases xs with
    | nil => exact ⟨[],v,by simp,h,rfl⟩
    | cons x xs =>
      simp only [List.cons_append,visits,Option.map_eq_some_iff,onTop] at h
      obtain ⟨v,hv,rfl⟩ := h
      rw [← List.append_assoc] at hv
      obtain ⟨ls,w,hls,hw,rfl⟩ := ih hv
      obtain ⟨below,beside,hbelow,hbeside,rfl⟩ := mapM_append_eq_some.mp hls
      refine ⟨(x::below.flatten)::beside,w,?_,visits_mono hw,by simp⟩
      exact mapM_cons_eq_some.mpr ⟨_,beside,by rw [calls,hbelow]; rfl,
        mapM_mono (fun c _ l hl => calls_mono hl) hbeside,rfl⟩

theorem visits_of_calls {xs rest w : List α} {ls : List (List α)} {n : Nat}
    (hls : xs.mapM (calls children n) = some ls) (hw : visits onTop children fuel rest = some w) :
    visits onTop children (ls.flatten.length+fuel) (xs++rest) = some (ls.flatten++w) := by
  induction n generalizing xs rest w ls fuel with
  | zero =>
    cases xs with
    | nil =>
      obtain rfl : [] = ls := by simpa using hls
      simpa using hw
    | cons x xs =>
      obtain ⟨l,-,hl,-,-⟩ := mapM_cons_eq_some.mp hls
      simp [calls] at hl
  | succ n ih =>
    induction xs generalizing ls with
    | nil =>
      obtain rfl : [] = ls := by simpa using hls
      simpa using hw
    | cons x xs ihxs =>
      obtain ⟨l,beside,hl,hbeside,rfl⟩ := mapM_cons_eq_some.mp hls
      rw [calls,Option.map_eq_some_iff] at hl
      obtain ⟨below,hbelow,rfl⟩ := hl
      have hrest := ih hbelow (ihxs hbeside)
      have hfuel : ((x::below.flatten)::beside).flatten.length+fuel =
          (below.flatten.length+(beside.flatten.length+fuel))+1 := by
        simp only [List.flatten_cons,List.length_append,List.length_cons]
        omega
      rw [hfuel,List.cons_append,visits,onTop,hrest]
      simp

theorem exists_calls_iff : (∃ fuel, calls children fuel x = some l) ↔
    ∃ fuel, visits onTop children fuel [x] = some l := by
  constructor
  · rintro ⟨n,hl⟩
    have hls : [x].mapM (calls children n) = some [l] := by simp [List.mapM_cons,hl]
    have hnil : visits onTop children 0 [] = some [] := rfl
    exact ⟨_,by simpa using visits_of_calls hls hnil⟩
  · rintro ⟨fuel,h⟩
    obtain ⟨ls,w,hls,hw,rfl⟩ := calls_of_visits
      (show visits onTop children fuel ([x]++[]) = some l from h)
    obtain ⟨l,s,hl,hs,rfl⟩ := mapM_cons_eq_some.mp hls
    obtain rfl : [] = s := by simpa using hs
    obtain rfl : [] = w := by cases fuel <;> simpa [visits] using hw
    exact ⟨fuel,by simpa using hl⟩

end calls

section edges
open Worklist
variable [DecidableEq κ] {edges : List (κ×κ)} {root : κ}

/-- Of the edges that can be reached no two lead to one place, and none leads to the root. -/
structure Untangled (edges : List (κ×κ)) (root : κ) : Prop where
  single : edges.Pairwise fun e f => Reached edges [root] e.1 → Reached edges [root] f.1 → e.2≠f.2
  orphan : ∀ e∈edges, Reached edges [root] e.1 → e.2≠root

/-- The children of distinct places are the ends of the edges from them. -/
theorem flatMap_succs_perm (edges : List (κ×κ)) {v : List κ} (hv : v.Nodup) :
    (v.flatMap (succs edges)).Perm ((edges.filter fun e => e.1∈v).map Prod.snd) := by
  induction v with
  | nil => simp
  | cons x v ih =>
    obtain ⟨hx,hv⟩ := List.nodup_cons.mp hv
    have hsplit := List.filter_append_perm (fun e : κ×κ => e.1 = x)
      (edges.filter fun e => e.1∈x::v)
    have hhere : (edges.filter fun e => e.1∈x::v).filter (fun e => e.1 = x) =
        edges.filter fun e => e.1 = x := by
      rw [List.filter_filter]
      exact List.filter_congr fun e _ => by by_cases he : e.1 = x <;> simp [he]
    have hthere : (edges.filter fun e => e.1∈x::v).filter (fun e => !decide (e.1 = x)) =
        edges.filter fun e => e.1∈v := by
      rw [List.filter_filter]
      refine List.filter_congr fun e _ => ?_
      by_cases he : e.1 = x
      · simp [he,hx]
      · simp [he]
    rw [hhere,hthere] at hsplit
    have hmap := hsplit.map Prod.snd
    rw [List.map_append] at hmap
    exact ((ih hv).append_left _).trans hmap

theorem Untangled.nodup (h : Untangled edges root) {v : List κ} (hv : v.Nodup)
    (hreached : ∀ x∈v, Reached edges [root] x) : (root::v.flatMap (succs edges)).Nodup := by
  have hperm := flatMap_succs_perm edges hv
  rw [List.nodup_cons,hperm.mem_iff,hperm.nodup_iff,List.Nodup,List.pairwise_map,
    List.pairwise_filter]
  refine ⟨fun hmem => ?_,h.single.imp fun hef he hf => ?_⟩
  · obtain ⟨e,he,hroot⟩ := List.mem_map.mp hmem
    obtain ⟨he,hev⟩ := List.mem_filter.mp he
    exact h.orphan e he (hreached _ (by simpa using hev)) hroot
  · exact hef (hreached _ (by simpa using he)) (hreached _ (by simpa using hf))

theorem untangled_of_nodup {v : List κ} (hv : v.Nodup)
    (hreached : ∀ x, Reached edges [root] x → x∈v)
    (h : (root::v.flatMap (succs edges)).Nodup) : Untangled edges root := by
  have hperm := flatMap_succs_perm edges hv
  rw [List.nodup_cons,hperm.mem_iff,hperm.nodup_iff,List.Nodup,List.pairwise_map,
    List.pairwise_filter] at h
  obtain ⟨hroot,hsingle⟩ := h
  refine ⟨hsingle.imp fun hef he hf => ?_,fun e he hr heq => ?_⟩
  · exact hef (by simpa using hreached _ he) (by simpa using hreached _ hf)
  · exact hroot (List.mem_map.mpr ⟨e,List.mem_filter.mpr ⟨he,by simpa using hreached _ hr⟩,heq⟩)

variable {push : List κ → List κ → List κ}

theorem Untangled.visits (h : Untangled edges root) (hpush : Pushes push) {fuel : Nat}
    {seen pending : List κ} (hperm : (seen++pending).Perm (root::seen.flatMap (succs edges)))
    (hseen : seen.Nodup) (hreached : ∀ x∈seen++pending, Reached edges [root] x)
    (hfuel : edges.length+1 ≤ seen.length+fuel) :
    ∃ v, Unfolding.visits push (succs edges) fuel pending = some v ∧ (seen++v).Nodup := by
  have hnodup : (seen++pending).Nodup := hperm.nodup_iff.mpr
    (h.nodup hseen fun x hx => hreached x (List.mem_append_left _ hx))
  induction fuel generalizing seen pending with
  | zero =>
    cases pending with
    | nil => exact ⟨[],rfl,by simpa using hseen⟩
    | cons x pending =>
      have hlen := hperm.length_eq
      have hends := (flatMap_succs_perm edges hseen).length_eq
      have hfilter := List.length_filter_le (fun e : κ×κ => e.1∈seen) edges
      simp only [List.length_append,List.length_cons,List.length_map] at hlen hends
      omega
  | succ fuel ih =>
    cases pending with
    | nil => exact ⟨[],rfl,by simpa using hseen⟩
    | cons x pending =>
      have hnext : ((seen++[x])++push (succs edges x) pending).Perm
          (root::(seen++[x]).flatMap (succs edges)) := by
        refine ((hpush _ _).append_left _).trans ?_
        have hmove : ((seen++[x])++(succs edges x++pending)).Perm
            ((seen++x::pending)++succs edges x) := by
          have hswap : (succs edges x++pending).Perm (pending++succs edges x) :=
            List.perm_append_comm
          simpa [List.append_assoc] using (hswap.cons x).append_left seen
        refine hmove.trans ((hperm.append_right _).trans ?_)
        simp
      have hreached' : ∀ y∈(seen++[x])++push (succs edges x) pending, Reached edges [root] y := by
        intro y hy
        have hx := hreached x (by simp)
        rcases List.mem_append.mp hy with hy | hy
        · refine hreached y ?_
          simp only [List.mem_append,List.mem_cons,List.not_mem_nil,or_false] at hy ⊢
          tauto
        · rcases List.mem_append.mp ((hpush _ _).mem_iff.mp hy) with hy | hy
          · obtain ⟨s,hs,hreach⟩ := hx
            exact ⟨s,hs,hreach.tail (mem_succs.mp hy)⟩
          · exact hreached y (by simp [hy])
      have hseen' : (seen++[x]).Nodup := hnodup.sublist (by simp)
      obtain ⟨v,hv,hvn⟩ := ih hnext hseen' hreached' (by simp; omega)
        (hnext.nodup_iff.mpr (h.nodup hseen' fun y hy => hreached' y (List.mem_append_left _ hy)))
      exact ⟨x::v,by rw [Unfolding.visits,hv]; rfl,by simpa using hvn⟩

theorem mem_visits {fuel : Nat} {v : List κ} (hpush : Pushes push)
    (h : visits push (succs edges) fuel [root] = some v) {x : κ} (hx : Reached edges [root] x) :
    x∈v := by
  have hperm := visits_perm hpush h
  obtain ⟨s,hs,hreach⟩ := hx
  obtain rfl := List.mem_singleton.mp hs
  induction hreach with
  | refl => exact hperm.mem_iff.mpr (by simp)
  | tail _ hedge ih =>
    refine hperm.mem_iff.mpr (List.mem_append_right _ ?_)
    exact List.mem_flatMap.mpr ⟨_,ih,mem_succs.mpr hedge⟩

/-- A walk ends and visits nothing twice if and only if the graph is untangled. -/
theorem visits_once_iff (hpush : Pushes push) :
    (∃ fuel v, visits push (succs edges) fuel [root] = some v ∧ v.Nodup) ↔
      Untangled edges root := by
  constructor
  · rintro ⟨fuel,v,hv,hnodup⟩
    exact untangled_of_nodup hnodup (fun x hx => mem_visits hpush hv hx)
      ((visits_perm hpush hv).nodup_iff.mp hnodup)
  · intro h
    obtain ⟨v,hv,hnodup⟩ : ∃ v, visits push (succs edges) (edges.length+1) [root] = some v ∧
      ([]++v).Nodup :=
      h.visits hpush (by simp) (by simp) (by simpa using ⟨root,by simp,.refl⟩) (by simp)
    exact ⟨_,v,hv,by simpa using hnodup⟩

end edges

end WorkflowyMcp.Unfolding
