import WorkflowyMcp.Lib.Outline
import WorkflowyMcp.Lib.Unfolding

/-! Trees written as outlines: a node before its notes, these before its children, and every note
deeper than its node. Hung up by indent, every node is below the node it is a child of. -/
namespace WorkflowyMcp.Outline
variable {α : Type}

/-- The items of a node, its notes by their indents alone. -/
def branch (notes : Nat → α → List Nat) (depth : Nat) (x : α)
    (below : List (List (Nat × Option α))) : List (Nat × Option α) :=
  (depth,some x)::((notes depth x).map fun indent => (indent,none))++below.flatten

/-- An item that is a node hangs under a node it is a child of. -/
def Hung (children : α → List α) (item : Nat × Option α) (parent : Option α) : Prop :=
  ∀ y, item.2 = some y → ∃ p, parent = some p ∧ y∈children p

/-- The first `t` open items stay open. -/
def Keeps (t : Nat) (stack stack' : List (Option α)) : Prop :=
  stack'.take t = stack.take t ∧ t ≤ stack'.length

variable {stack stack' : List (Option α)} {t : Nat}

theorem Keeps.trans {stack'' : List (Option α)} (h : Keeps t stack stack')
    (h' : Keeps t stack' stack'') : Keeps t stack stack'' := ⟨h'.1.trans h.1,h'.2⟩

theorem Keeps.getD (h : Keeps t stack stack') {i : Nat} (hi : i<t) :
    stack'.getD i default = stack.getD i default := by
  have htake := congrArg (fun l => l[i]?) h.1
  simp only [List.getElem?_take,if_pos hi] at htake
  rw [List.getD_eq_getElem?_getD,List.getD_eq_getElem?_getD,htake]

theorem keeps_place {indent : Nat} (ht : t ≤ stack.length) (hi : t ≤ indent+1) (y : Option α) :
    Keeps t stack (place stack indent y) := by
  cases t with
  | zero => exact ⟨rfl,Nat.zero_le _⟩
  | succ t =>
    have hlevel : t+1 ≤ level stack indent+1 := by
      simp only [level]
      omega
    have hlen : (stack.take (level stack indent+1)).length = level stack indent+1 := by
      simp only [List.length_take,level]
      omega
    refine ⟨?_,?_⟩
    · rw [place,List.take_append_of_le_length (by omega),List.take_take,Nat.min_eq_left hlevel]
    · simp only [place,List.length_append,hlen]
      omega

theorem keeps_notes {indents : List Nat} (ht : t ≤ stack.length)
    (hi : ∀ indent∈indents, t ≤ indent+1) :
    Keeps t stack (placeAll stack (indents.map fun indent => (indent,none))) := by
  induction indents generalizing stack with
  | nil => exact ⟨rfl,ht⟩
  | cons indent indents ih =>
    obtain ⟨hindent,hi⟩ := List.forall_mem_cons.mp hi
    have hplace := keeps_place ht hindent (none : Option α)
    exact hplace.trans (ih hplace.2 hi)

theorem placeAll_append (stack : List α) (items items' : List (Nat × α)) :
    placeAll stack (items++items') = placeAll (placeAll stack items) items' :=
  List.foldl_append

theorem hung_notes (children : α → List α) (stack : List (Option α)) (indents : List Nat) :
    List.Forall₂ (Hung children) (indents.map fun indent => (indent,none))
      (parents stack (indents.map fun indent => (indent,none))) := by
  induction indents generalizing stack with
  | nil => exact .nil
  | cons indent indents ih => exact .cons nofun (ih _)

/-- What the items of a node at `depth` do below a stack that is open to that depth. -/
structure Branch (children : α → List α) (depth : Nat) (items : List (Nat × Option α)) : Prop where
  hangs : ∀ stack : List (Option α), depth < stack.length → ∃ rest,
    parents stack items = stack.getD depth default::rest ∧
      List.Forall₂ (Hung children) items.tail rest
  keeps : ∀ stack : List (Option α), depth < stack.length →
    Keeps (depth+1) stack (placeAll stack items)

theorem hung_forest {children : α → List α} {depth : Nat} {x : α} {cs : List α}
    {blocks : List (List (Nat × Option α))} (hcs : cs⊆children x)
    (hblocks : List.Forall₂ (fun c items => items.head? = some (depth,some c) ∧
      Branch children depth items) cs blocks)
    {stack : List (Option α)} (hlen : depth < stack.length)
    (htop : stack.getD depth default = some x) :
    List.Forall₂ (Hung children) blocks.flatten (parents stack blocks.flatten) ∧
      Keeps (depth+1) stack (placeAll stack blocks.flatten) := by
  induction hblocks generalizing stack with
  | nil => exact ⟨.nil,rfl,hlen⟩
  | @cons c items cs blocks hitems _ ih =>
    obtain ⟨hhead,hbranch⟩ := hitems
    obtain ⟨hc,hcs⟩ := List.cons_subset.mp hcs
    obtain ⟨rest,hparents,hrest⟩ := hbranch.hangs stack hlen
    have hkeeps := hbranch.keeps stack hlen
    obtain ⟨hforest,hafter⟩ := ih hcs hkeeps.2 ((hkeeps.getD (Nat.lt_succ_self _)).trans htop)
    obtain ⟨tail,rfl⟩ : ∃ tail, items = (depth,some c)::tail := by
      cases items with
      | nil => cases hhead
      | cons item tail =>
        obtain rfl := Option.some.inj hhead
        exact ⟨tail,rfl⟩
    rw [List.flatten_cons,parents_append,placeAll_append]
    refine ⟨List.rel_append ?_ hforest,hkeeps.trans hafter⟩
    rw [hparents,htop]
    refine .cons (fun y hy => ?_) hrest
    obtain rfl := Option.some.inj hy
    exact ⟨x,rfl,hc⟩

/-- The outline of a tree, hung up by indent, is the tree. -/
theorem branch_of_fold {children : α → List α} {notes : Nat → α → List Nat}
    (hnotes : ∀ depth x, ∀ indent∈notes depth x, depth < indent) {fuel depth : Nat} {x : α}
    {items : List (Nat × Option α)}
    (h : Unfolding.fold children (branch notes) fuel depth x = some items) :
    items.head? = some (depth,some x) ∧ Branch children depth items := by
  induction fuel generalizing depth x items with
  | zero => cases h
  | succ fuel ih =>
    obtain ⟨blocks,hblocks,rfl⟩ := Option.map_eq_some_iff.mp h
    have hblocks := (mapM_eq_some_iff.mp hblocks).imp fun c b hb => ih hb
    have hplace {stack : List (Option α)} (hlen : depth < stack.length) :
        Keeps (depth+1) stack (place stack depth (some x)) ∧
          depth+1 < (place stack depth (some x)).length ∧
          (place stack depth (some x)).getD (depth+1) default = some x := by
      have hlevel : level stack depth = depth := by
        simp only [level]
        omega
      have htake : (stack.take (depth+1)).length = depth+1 := by
        rw [List.length_take]
        omega
      refine ⟨keeps_place (by omega) (le_refl _) _,?_,?_⟩
      · simp only [place,hlevel,List.length_append,htake,List.length_singleton]
        omega
      · simp [place,hlevel,htake]
    have hafter {stack : List (Option α)} (hlen : depth+1 < stack.length)
        (htop : stack.getD (depth+1) default = some x) :
        List.Forall₂ (Hung children)
          (((notes depth x).map fun indent => (indent,none))++blocks.flatten)
          (parents stack (((notes depth x).map fun indent => (indent,none))++blocks.flatten)) ∧
        Keeps (depth+2) stack
          (placeAll stack (((notes depth x).map fun indent => (indent,none))++blocks.flatten)) := by
      have hkeeps : Keeps (depth+2) stack
          (placeAll stack ((notes depth x).map fun indent => (indent,none))) :=
        keeps_notes hlen fun indent hi => by have := hnotes depth x indent hi; omega
      obtain ⟨hforest,hrest⟩ := hung_forest (List.Subset.refl _) hblocks hkeeps.2
        ((hkeeps.getD (Nat.lt_succ_self _)).trans htop)
      rw [parents_append,placeAll_append]
      exact ⟨List.rel_append (hung_notes children stack _) hforest,hkeeps.trans hrest⟩
    refine ⟨rfl,fun stack hlen => ?_,fun stack hlen => ?_⟩
    · obtain ⟨-,hopen,htop⟩ := hplace hlen
      have hlevel : level stack depth = depth := by
        simp only [level]
        omega
      exact ⟨_,by rw [branch,List.cons_append,parents,hlevel],(hafter hopen htop).1⟩
    · obtain ⟨hkeeps,hopen,htop⟩ := hplace hlen
      have hrest := (hafter hopen htop).2
      refine hkeeps.trans ⟨?_,by have := hrest.2; exact Nat.le_of_succ_le this⟩
      have htake := congrArg (List.take (depth+1)) hrest.1
      rw [List.take_take,List.take_take,Nat.min_eq_left (Nat.le_succ (depth+1))] at htake
      exact htake

end WorkflowyMcp.Outline
