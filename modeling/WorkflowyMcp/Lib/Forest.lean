import Mathlib.Data.List.Nodup
import Mathlib.Data.List.Perm.Basic
import Mathlib.Data.List.Perm.Subperm
import Mathlib.Logic.Relation
import Mathlib.Tactic.Common

/-! A finite tree walked by a queue: every node comes out once, after its parent, and
fuel for each node is enough. -/
namespace WorkflowyMcp.Forest
variable {α : Type}

/-- Pop the front of the queue and append its children. -/
def breadth (children : α → List α) : Nat → List α → Option (List α)
  | _,[] => some []
  | 0,_::_ => none
  | fuel+1,x::queue => (breadth children fuel (queue++children x)).map (x::·)

/-- The queue is popped in order, and the children of what is popped come out in order. -/
theorem breadth_siblings {children : α → List α} {fuel : Nat} {queue l : List α}
    (h : breadth children fuel queue = some l) :
    queue <+: l ∧ ∀ x∈l, (children x).Sublist l := by
  induction fuel generalizing queue l with
  | zero =>
    cases queue with
    | nil =>
      obtain rfl : [] = l := by simpa [breadth] using h
      simp
    | cons x queue => simp [breadth] at h
  | succ fuel ih =>
    cases queue with
    | nil =>
      obtain rfl : [] = l := by simpa [breadth] using h
      simp
    | cons x queue =>
      simp only [breadth,Option.map_eq_some_iff] at h
      obtain ⟨l,hl,rfl⟩ := h
      obtain ⟨hfirst,hrest⟩ := ih hl
      refine ⟨?_,fun y hy => ?_⟩
      · exact List.cons_prefix_cons.mpr ⟨rfl,(List.prefix_append _ _).trans hfirst⟩
      · rcases List.mem_cons.mp hy with rfl | hy
        · exact ((List.sublist_append_right queue _).trans hfirst.sublist).cons y
        · exact (hrest y hy).cons x

/-- Each entry of the list is a child of something before it. -/
def Grown (children : α → List α) : List α → List α → Prop
  | _,[] => True
  | before,x::l => (∃ p∈before, x∈children p) ∧ Grown children (before++[x]) l

/- The nodes of `all` are those below `root`, each in one place. -/
structure IsTree (children : α → List α) (root : α) (all : List α) : Prop where
  nodup : all.Nodup
  mem : root∈all
  closed : ∀ x∈all, ∀ c∈children x, c∈all
  siblings : ∀ x∈all, (children x).Nodup
  parent : ∀ x∈all, ∀ y∈all, ∀ c, c∈children x → c∈children y → x = y
  orphan : ∀ x∈all, root∉children x
  reached : ∀ x∈all, Relation.ReflTransGen (fun p c => c∈children p) root x

/-- The loop invariant: the popped nodes with the queue behind them. -/
structure Visiting (children : α → List α) (root : α) (all popped queue : List α) : Prop where
  nodup : (popped++queue).Nodup
  subset : ∀ x∈popped++queue, x∈all
  mem : root∈popped
  closed : ∀ x∈popped, ∀ c∈children x, c∈popped++queue
  born : ∀ x∈popped++queue, x = root ∨ ∃ p∈popped, x∈children p

variable {children : α → List α} {root x : α} {all popped queue : List α}

theorem Visiting.start (h : IsTree children root all) :
    Visiting children root all [root] (children root) where
  nodup := by simpa using ⟨h.orphan root h.mem,h.siblings root h.mem⟩
  subset := by simpa using ⟨h.mem,h.closed root h.mem⟩
  mem := by simp
  closed := by simp +contextual
  born := by simp +contextual

theorem Visiting.step (h : IsTree children root all)
    (hv : Visiting children root all popped (x::queue)) :
    Visiting children root all (popped++[x]) (queue++children x) := by
  have hx : x∈all := hv.subset x (by simp)
  have hnew : ∀ c∈children x, c∉popped++x::queue := fun c hc hold => by
    rcases hv.born c hold with rfl | ⟨p,hp,hcp⟩
    · exact h.orphan x hx hc
    · obtain rfl := h.parent p (hv.subset p (by simp [hp])) x hx c hcp hc
      exact (List.nodup_append.mp hv.nodup).2.2 p hp p (by simp) rfl
  have hlist : popped++[x]++(queue++children x) = (popped++x::queue)++children x := by simp
  refine ⟨?_,?_,?_,?_,?_⟩
  · rw [hlist,List.nodup_append']
    exact ⟨hv.nodup,h.siblings x hx,fun c hold hc => hnew c hc hold⟩
  · intro y hy
    rw [hlist,List.mem_append] at hy
    exact hy.elim (hv.subset y) (h.closed x hx y)
  · exact List.mem_append_left _ hv.mem
  · intro y hy c hc
    rw [hlist,List.mem_append]
    rcases List.mem_append.mp hy with hy | hy
    · exact .inl (hv.closed y hy c hc)
    · obtain rfl : y = x := by simpa using hy
      exact .inr hc
  · intro y hy
    rw [hlist,List.mem_append] at hy
    rcases hy with hy | hy
    · exact (hv.born y hy).imp id fun ⟨p,hp,hyp⟩ => ⟨p,List.mem_append_left _ hp,hyp⟩
    · exact .inr ⟨x,by simp,hy⟩

/-- An empty queue leaves nothing out. -/
theorem Visiting.done (h : IsTree children root all) (hv : Visiting children root all popped []) :
    popped.Perm all := by
  have hall : ∀ y∈all, y∈popped := fun y hy => by
    have hreach := h.reached y hy
    clear hy
    induction hreach with
    | refl => exact hv.mem
    | tail _ hc ih => simpa using hv.closed _ ih _ hc
  have hnodup : popped.Nodup := by simpa using hv.nodup
  rw [List.perm_ext_iff_of_nodup hnodup h.nodup]
  exact fun y => ⟨fun hy => hv.subset y (by simpa using hy),hall y⟩

theorem Visiting.breadth (h : IsTree children root all) {fuel : Nat}
    (hv : Visiting children root all popped queue) (hfuel : all.length ≤ popped.length+fuel) :
    ∃ l, breadth children fuel queue = some l ∧ (popped++l).Perm all ∧ Grown children popped l := by
  induction fuel generalizing popped queue with
  | zero =>
    have hlen := (hv.nodup.subperm hv.subset).length_le
    obtain rfl : queue = [] := List.eq_nil_of_length_eq_zero (by
      simp only [List.length_append] at hlen
      omega)
    exact ⟨[],rfl,by simpa using hv.done h,trivial⟩
  | succ fuel ih =>
    cases queue with
    | nil => exact ⟨[],rfl,by simpa using hv.done h,trivial⟩
    | cons x queue =>
      have hx : ∃ p∈popped, x∈children p := (hv.born x (by simp)).resolve_left fun he =>
        (List.nodup_append.mp hv.nodup).2.2 root hv.mem x (by simp) he.symm
      obtain ⟨l,hl,hperm,hgrown⟩ := ih (hv.step h) (by
        simp only [List.length_append,List.length_singleton]
        omega)
      exact ⟨x::l,by rw [Forest.breadth,hl]; rfl,by simpa using hperm,hx,hgrown⟩

/-- Below the root the queue brings out every other node, parents first. -/
theorem breadth_tree (h : IsTree children root all) {fuel : Nat} (hfuel : all.length ≤ fuel) :
    ∃ l, breadth children fuel (children root) = some l ∧ (root::l).Perm all ∧
      Grown children [root] l := by
  have hlen : all.length ≤ [root].length+fuel := by omega
  obtain ⟨l,hl,hperm,hgrown⟩ := (Visiting.start h).breadth h hlen
  exact ⟨l,hl,by simpa using hperm,hgrown⟩

end WorkflowyMcp.Forest
