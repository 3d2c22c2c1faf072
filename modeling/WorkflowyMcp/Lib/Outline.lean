import Mathlib.Data.List.Basic
import Mathlib.Data.List.Nodup

/-! Outlines: items hung under one another by indent, with the stack of open ancestors.
An indent deeper than the stack counts as one level below the item before. -/
namespace WorkflowyMcp.Outline
variable {α β : Type}

def level (stack : List α) (indent : Nat) : Nat := min indent (stack.length-1)

/-- Close what is at or below the level of `x` and open `x`. -/
def place (stack : List α) (indent : Nat) (x : α) : List α := stack.take (level stack indent+1)++[x]

def placeAll (stack : List α) (items : List (Nat × α)) : List α :=
  items.foldl (fun stack item => place stack item.1 item.2) stack

/-- The open ancestor each item is hung under. -/
def parents [Inhabited α] (stack : List α) : List (Nat × α) → List α
  | [] => []
  | (indent,x)::items =>
    stack.getD (level stack indent) default :: parents (place stack indent x) items

/-- The levels of items by their indents alone, below a stack of `depth` items. -/
def levels (depth : Nat) : List Nat → List Nat
  | [] => []
  | indent::indents => min indent depth :: levels (min indent depth+1) indents

/-- How many items are open after the last one. -/
def depthAfter (depth : Nat) (indents : List Nat) : Nat :=
  indents.foldl (fun depth indent => min indent depth+1) depth

theorem place_ne_nil (stack : List α) (indent : Nat) (x : α) : place stack indent x ≠ [] := by
  simp [place]

theorem length_place {stack : List α} (h : stack≠[]) (indent : Nat) (x : α) :
    (place stack indent x).length = level stack indent+2 := by
  have hpos := List.length_pos_of_ne_nil h
  simp only [place,level,List.length_append,List.length_take,List.length_singleton]
  omega

theorem parents_append [Inhabited α] (stack : List α) (items items' : List (Nat × α)) :
    parents stack (items++items') = parents stack items++parents (placeAll stack items) items' := by
  induction items generalizing stack with
  | nil => rfl
  | cons item items ih => simp [parents,ih,placeAll]

@[simp] theorem length_parents [Inhabited α] (stack : List α) (items : List (Nat × α)) :
    (parents stack items).length = items.length := by
  induction items generalizing stack with
  | nil => rfl
  | cons item items ih => simp [parents,ih]

theorem length_placeAll {stack : List α} (h : stack≠[]) (items : List (Nat × α)) :
    (placeAll stack items).length = depthAfter (stack.length-1) (items.map Prod.fst)+1 := by
  induction items generalizing stack with
  | nil =>
    have hpos := List.length_pos_of_ne_nil h
    simp only [placeAll,List.foldl_nil,List.map_nil,depthAfter]
    omega
  | cons item items ih =>
    have hrest := ih (place_ne_nil stack item.1 item.2)
    rw [length_place h] at hrest
    exact hrest

/-- After an item that item is the innermost open one. -/
theorem placeAll_concat (stack : List α) (items : List (Nat × α)) (indent : Nat) (x : α) :
    ∃ outer, placeAll stack (items++[(indent,x)]) = outer++[x] :=
  ⟨_,by simp [placeAll,place]; rfl⟩

section map
variable (f : α → β)

theorem level_map (stack : List α) (indent : Nat) :
    level (stack.map f) indent = level stack indent := by
  simp [level]

theorem place_map (stack : List α) (indent : Nat) (x : α) :
    place (stack.map f) indent (f x) = (place stack indent x).map f := by
  simp [place,level_map,List.map_take]

variable [Inhabited α] [Inhabited β]

theorem getD_level_map {stack : List α} (h : stack≠[]) (indent : Nat) :
    (stack.map f).getD (level stack indent) default =
      f (stack.getD (level stack indent) default) := by
  have hlt : level stack indent < stack.length := by
    have := List.length_pos_of_ne_nil h
    simp only [level]
    omega
  simp [List.getD_eq_getElem?_getD,List.getElem?_eq_getElem hlt]

theorem parents_map {stack : List α} (h : stack≠[]) (items : List (Nat × α)) :
    parents (stack.map f) (items.map fun item => (item.1,f item.2)) =
      (parents stack items).map f := by
  induction items generalizing stack with
  | nil => rfl
  | cons item items ih =>
    simp only [parents,List.map_cons]
    rw [level_map,getD_level_map f h,place_map,ih (place_ne_nil stack item.1 item.2)]

end map

section nearest

/-- The position of the last entry below `t`, counting from `i`. -/
def lastBelow (t : Nat) : List Nat → Nat → Option Nat
  | [],_ => none
  | l::ls,i => lastBelow t ls (i+1) <|> if l<t then some i else none

/-- The nearest entry before `i` that is smaller than the one at `i`. -/
def nearest (ls : List Nat) (i : Nat) : Option Nat := lastBelow (ls.getD i 0) (ls.take i) 0

theorem lastBelow_append (t : Nat) (ls : List Nat) (l i : Nat) :
    lastBelow t (ls++[l]) i = if l<t then some (i+ls.length) else lastBelow t ls i := by
  induction ls generalizing i with
  | nil => simp [lastBelow]
  | cons l' ls ih =>
    rw [List.cons_append,lastBelow,ih (i+1),lastBelow]
    by_cases hl : l<t
    · have hi : i+1+ls.length = i+(l'::ls).length := by simp; omega
      simp [hl,hi]
    · simp only [if_neg hl]

/-- Items numbered from `i`. -/
def numbered (i : Nat) : List Nat → List (Nat × Option Nat)
  | [] => []
  | indent::indents => (indent,some i)::numbered (i+1) indents

/-- The stack while numbered items are placed: at each level the last item above it. -/
def spine (ls : List Nat) (depth : Nat) : List (Option Nat) :=
  (List.range (depth+1)).map fun t => lastBelow t ls 0

theorem level_spine (ls : List Nat) (depth indent : Nat) :
    level (spine ls depth) indent = min indent depth := by
  simp [level,spine]

theorem getD_spine (ls : List Nat) {depth t : Nat} (ht : t ≤ depth) :
    (spine ls depth).getD t default = lastBelow t ls 0 := by
  rw [spine,List.getD_eq_getElem?_getD,List.getElem?_map,
    List.getElem?_range (Nat.lt_succ_of_le ht)]
  rfl

theorem place_spine (ls : List Nat) (depth indent : Nat) :
    place (spine ls depth) indent (some ls.length) =
      spine (ls++[min indent depth]) (min indent depth+1) := by
  have hle : min indent depth+1 ≤ depth+1 := by omega
  rw [place,level_spine,spine,spine,List.range_succ (n := min indent depth+1),List.map_append,
    ← List.map_take,List.take_range,Nat.min_eq_left hle]
  congr 1
  · refine List.map_congr_left fun t ht => ?_
    have ht := List.mem_range.mp ht
    rw [lastBelow_append,if_neg (by omega)]
  · rw [List.map_singleton,lastBelow_append,if_pos (Nat.lt_succ_self _),Nat.zero_add]

theorem parents_spine (ls indents : List Nat) (depth : Nat) :
    parents (spine ls depth) (numbered ls.length indents) =
      (List.range indents.length).map fun i =>
        lastBelow ((levels depth indents).getD i 0) (ls++(levels depth indents).take i) 0 := by
  induction indents generalizing ls depth with
  | nil => rfl
  | cons indent indents ih =>
    have hrest := ih (ls++[min indent depth]) (min indent depth+1)
    rw [List.length_append,List.length_singleton] at hrest
    rw [numbered,parents,place_spine,hrest,List.length_cons,List.range_succ_eq_map,List.map_cons,
      List.map_map,level_spine,getD_spine ls (Nat.min_le_right indent depth)]
    congr 1
    · simp [levels]
    · refine List.map_congr_left fun i _ => ?_
      simp [levels]

/-- Items are hung under the nearest one before them that is at a smaller level. -/
theorem parents_numbered (indents : List Nat) :
    parents [none] (numbered 0 indents) =
      (List.range indents.length).map (nearest (levels 0 indents)) := by
  exact parents_spine [] indents 0

/-- The entry a parent index stands for; no index is the base of the outline. -/
def entry (base : α) (xs : List α) : Option Nat → α
  | none => base
  | some j => xs.getD j base

theorem zip_eq_numbered (base : α) (indents : List Nat) (pre xs : List α)
    (h : xs.length ≤ indents.length) :
    indents.zip xs = ((numbered pre.length indents).take xs.length).map
      fun item => (item.1,entry base (pre++xs) item.2) := by
  induction indents generalizing pre xs with
  | nil => simp [numbered]
  | cons indent indents ih =>
    cases xs with
    | nil => simp
    | cons x xs =>
      have hrest := ih (pre++[x]) xs (by simpa using h)
      rw [List.length_append,List.length_singleton,List.append_assoc] at hrest
      rw [List.zip_cons_cons,hrest]
      simp [numbered,entry]

theorem parents_take [Inhabited α] (stack : List α) (items : List (Nat × α)) (k : Nat) :
    parents stack (items.take k) = (parents stack items).take k := by
  induction items generalizing stack k with
  | nil => simp [parents]
  | cons item items ih =>
    cases k with
    | zero => rfl
    | succ k => simp [parents,ih]

/-- Items are hung under the nearest one before them that is at a smaller level, or under
the base of the outline. -/
theorem parents_zip [Inhabited α] (base : α) (indents : List Nat) (xs : List α)
    (h : xs.length ≤ indents.length) :
    parents [base] (indents.zip xs) =
      (List.range xs.length).map fun i => entry base xs (nearest (levels 0 indents) i) := by
  have hmap := parents_map (entry base xs) (List.cons_ne_nil none [])
    ((numbered 0 indents).take xs.length)
  rw [parents_take,parents_numbered,← List.map_take,List.take_range,Nat.min_eq_left h,
    List.map_map] at hmap
  exact (congrArg _ (zip_eq_numbered base indents [] xs h)).trans hmap

/-- No item is more than one level below the one before it. -/
def Stepped (depth : Nat) : List Nat → Prop
  | [] => True
  | indent::indents => indent ≤ depth ∧ Stepped (indent+1) indents

theorem Stepped.levels {depth : Nat} {indents : List Nat} (h : Stepped depth indents) :
    levels depth indents = indents := by
  induction indents generalizing depth with
  | nil => rfl
  | cons indent indents ih =>
    have hmin : min indent depth = indent := Nat.min_eq_left h.1
    simp only [Outline.levels,hmin,ih h.2]

end nearest

/-- Every item is below the one before it, the first one below `depth` open items. -/
def Chained (depth : Nat) : List Nat → Prop
  | [] => True
  | indent::indents => depth ≤ indent ∧ Chained (depth+1) indents

theorem place_deep {stack : List α} {indent : Nat} (h : stack.length-1 ≤ indent) (x : α) :
    place stack indent x = stack++[x] := by
  have hall : stack.length ≤ level stack indent+1 := by simp only [level]; omega
  rw [place,List.take_of_length_le hall]

theorem getD_inner [Inhabited α] (outer inner : List α) (i : Nat) :
    (outer++inner).getD (outer.length+i) default = inner.getD i default := by
  simp [List.getD_eq_getElem?_getD,List.getElem?_append_right]

theorem getD_inj [Inhabited α] {xs : List α} (hnd : xs.Nodup) {i j : Nat} (hi : i<xs.length)
    (hj : j<xs.length) (h : xs.getD i default = xs.getD j default) : i = j := by
  rw [List.getD_eq_getElem?_getD,List.getD_eq_getElem?_getD,List.getElem?_eq_getElem hi,
    List.getElem?_eq_getElem hj] at h
  exact (hnd.getElem_inj_iff).mp h

/-- Items placed on the inner part of a stack get the parents they get on the whole stack
exactly if each of them is below the one before it. -/
theorem parents_inner_iff [Inhabited α] {outer inner : List α} {items : List (Nat × α)}
    (houter : outer≠[]) (hinner : inner≠[]) (hnd : (outer++inner++items.map Prod.snd).Nodup) :
    parents (outer++inner) items = parents inner items ↔
      Chained ((outer++inner).length-1) (items.map Prod.fst) := by
  induction items generalizing inner with
  | nil => simp [parents,Chained]
  | cons item items ih =>
    have hopos := List.length_pos_of_ne_nil houter
    have hipos := List.length_pos_of_ne_nil hinner
    have hlen : (outer++inner).length = outer.length+inner.length := List.length_append
    by_cases hd : (outer++inner).length-1 ≤ item.1
    · have hlevel : level (outer++inner) item.1 = outer.length+level inner item.1 := by
        simp only [level]
        omega
      have hrest := ih (show inner++[item.2]≠[] by simp) (by simpa using hnd)
      have hdepth : (outer++(inner++[item.2])).length-1 = (outer++inner).length-1+1 := by
        simp only [List.length_append,List.length_singleton]
        omega
      simp only [parents,List.map_cons,Chained,List.cons.injEq,hlevel,getD_inner]
      rw [place_deep hd,place_deep (by omega),List.append_assoc,hrest,hdepth]
      exact ⟨fun h => ⟨hd,h.2⟩,fun h => ⟨trivial,h.2⟩⟩
    · refine iff_of_false (fun h => ?_) fun h => hd h.1
      obtain ⟨hhead,-⟩ := List.cons.inj h
      rw [← getD_inner outer inner] at hhead
      have hnd' : (outer++inner).Nodup := hnd.sublist (List.sublist_append_left _ _)
      simp only [level] at hhead
      have heq := getD_inj hnd' (by omega) (by omega) hhead
      omega

section resume

theorem place_sublist (stack : List α) (indent : Nat) (x : α) :
    (place stack indent x).Sublist (stack++[x]) :=
  (List.take_sublist _ _).append_right [x]

theorem placeAll_sublist (stack : List α) (items : List (Nat × α)) :
    (placeAll stack items).Sublist (stack++items.map Prod.snd) := by
  induction items generalizing stack with
  | nil => simp [placeAll]
  | cons item items ih =>
    have hplace := (place_sublist stack item.1 item.2).append_right (items.map Prod.snd)
    rw [List.append_assoc] at hplace
    exact (ih (place stack item.1 item.2)).trans hplace

@[simp] theorem length_numbered (i : Nat) (indents : List Nat) :
    (numbered i indents).length = indents.length := by
  induction indents generalizing i with
  | nil => rfl
  | cons indent indents ih => simp [numbered,ih]

theorem map_fst_numbered (i : Nat) (indents : List Nat) :
    (numbered i indents).map Prod.fst = indents := by
  induction indents generalizing i with
  | nil => rfl
  | cons indent indents ih => simp [numbered,ih]

theorem mem_snd_numbered {i : Nat} {indents : List Nat} {x : Option Nat}
    (h : x∈(numbered i indents).map Prod.snd) : ∃ j, x = some j ∧ i ≤ j ∧ j < i+indents.length := by
  induction indents generalizing i with
  | nil => simp [numbered] at h
  | cons indent indents ih =>
    rcases List.mem_cons.mp h with rfl | h
    · exact ⟨i,rfl,Nat.le_refl i,by simp⟩
    · obtain ⟨j,rfl,hj,hlt⟩ := ih h
      exact ⟨j,rfl,by omega,by simp only [List.length_cons]; omega⟩

theorem nodup_snd_numbered (i : Nat) (indents : List Nat) :
    ((numbered i indents).map Prod.snd).Nodup := by
  induction indents generalizing i with
  | nil => simp [numbered]
  | cons indent indents ih =>
    refine List.nodup_cons.mpr ⟨fun h => ?_,ih (i+1)⟩
    obtain ⟨j,hj,hle,-⟩ := mem_snd_numbered h
    cases hj
    omega

theorem numbered_append (i : Nat) (indents indents' : List Nat) :
    numbered i (indents++indents') = numbered i indents++numbered (i+indents.length) indents' := by
  induction indents generalizing i with
  | nil => rfl
  | cons indent indents ih =>
    have hi : i+1+indents.length = i+(indents.length+1) := by omega
    simp [numbered,ih,hi]

/-- An item is hung under an earlier one. -/
theorem lastBelow_lt {t i j : Nat} {ls : List Nat} (h : lastBelow t ls i = some j) :
    j < i+ls.length := by
  induction ls generalizing i with
  | nil => simp [lastBelow] at h
  | cons l ls ih =>
    rw [lastBelow] at h
    cases hrest : lastBelow t ls (i+1) with
    | some j' =>
      obtain rfl : j' = j := by simpa [hrest] using h
      have := ih hrest
      simp only [List.length_cons]
      omega
    | none =>
      have hj : l<t ∧ i = j := by simpa [hrest] using h
      simp [← hj.2]

theorem nearest_lt {ls : List Nat} {i j : Nat} (h : nearest ls i = some j) : j < i := by
  have := lastBelow_lt h
  simp only [Nat.zero_add,List.length_take] at this
  omega

theorem mem_parents [Inhabited α] {stack : List α} (h : stack≠[]) {items : List (Nat × α)} {x : α}
    (hx : x∈parents stack items) : x∈stack++items.map Prod.snd := by
  induction items generalizing stack with
  | nil => simp [parents] at hx
  | cons item items ih =>
    rcases List.mem_cons.mp hx with rfl | hx
    · have hlt : level stack item.1 < stack.length := by
        have := List.length_pos_of_ne_nil h
        simp only [level]
        omega
      refine List.mem_append_left _ ?_
      rw [List.getD_eq_getElem?_getD,List.getElem?_eq_getElem hlt]
      exact List.getElem_mem hlt
    · rcases List.mem_append.mp (ih (place_ne_nil stack item.1 item.2) hx) with hx | hx
      · rcases List.mem_append.mp ((place_sublist stack item.1 item.2).subset hx) with hx | hx
        · exact List.mem_append_left _ hx
        · exact List.mem_append_right _ (List.mem_singleton.mp hx ▸ List.mem_cons_self)
      · exact List.mem_append_right _ (List.mem_cons_of_mem _ hx)

theorem Chained.mono {depth depth' : Nat} {indents : List Nat} (h : Chained depth indents)
    (hle : depth' ≤ depth) : Chained depth' indents := by
  induction indents generalizing depth depth' with
  | nil => trivial
  | cons indent indents ih => exact ⟨Nat.le_trans hle h.1,ih h.2 (by omega)⟩

/-- In a chain every item is hung under the one before it. -/
theorem parents_chained {outer : List (Option Nat)} {m : Nat} {indents : List Nat}
    (h : Chained outer.length indents) :
    parents (outer++[some m]) (numbered (m+1) indents) =
      (List.range indents.length).map fun i => some (m+i) := by
  induction indents generalizing outer m with
  | nil => rfl
  | cons indent indents ih =>
    have hdeep : (outer++[some m]).length-1 ≤ indent := by simpa using h.1
    have hlevel : level (outer++[some m]) indent = outer.length := by
      simp only [level,List.length_append,List.length_singleton] at hdeep ⊢
      omega
    have hrest := ih (m := m+1) (show Chained (outer++[some m]).length indents by simpa using h.2)
    rw [numbered,parents,place_deep hdeep,hrest,hlevel,List.length_cons,List.range_succ_eq_map,
      List.map_cons,List.map_map]
    congr 1
    · simp
    · refine List.map_congr_left fun i _ => ?_
      simp only [Function.comp_apply,Option.some.injEq]
      omega

/-- The items after the first `n` get the same parents when they are placed afresh below the
last of these exactly if each of them is below the one before it. -/
theorem parents_resumed_iff {indents : List Nat} (hne : indents≠[]) (indents' : List Nat) :
    parents [none] (numbered 0 (indents++indents')) = parents [none] (numbered 0 indents)++
        parents [some (indents.length-1)] (numbered indents.length indents') ↔
      Chained (depthAfter 0 indents) indents' := by
  obtain ⟨init,x,rfl⟩ : ∃ init x, indents = init++[x] :=
    ⟨_,_,(List.dropLast_append_getLast hne).symm⟩
  have hlast : numbered 0 (init++[x]) = numbered 0 init++[(x,some init.length)] := by
    rw [numbered_append,Nat.zero_add]
    rfl
  obtain ⟨outer,houter⟩ := placeAll_concat [none] (numbered 0 init) x (some init.length)
  rw [← hlast] at houter
  have hlen := length_placeAll (List.cons_ne_nil none []) (numbered 0 (init++[x]))
  rw [map_fst_numbered,houter] at hlen
  have hdepth : outer.length = depthAfter 0 (init++[x]) := by simpa using hlen
  have hnd : (([none] : List (Option Nat))++
      (numbered 0 ((init++[x])++indents')).map Prod.snd).Nodup := by
    refine List.nodup_append.mpr ⟨by simp,nodup_snd_numbered _ _,fun a ha b hb => ?_⟩
    obtain rfl := List.mem_singleton.mp ha
    obtain ⟨j,rfl,-⟩ := mem_snd_numbered hb
    exact nofun
  rw [numbered_append,List.map_append,← List.append_assoc] at hnd
  have hnd' := hnd.sublist ((placeAll_sublist [none] (numbered 0 (init++[x]))).append_right _)
  rw [houter] at hnd'
  have hout : outer≠[] := by
    intro h
    rw [h,depthAfter,List.foldl_append] at hdepth
    simp at hdepth
  rw [numbered_append,parents_append,List.append_cancel_left_eq,houter,Nat.zero_add]
  have hinner := parents_inner_iff hout (List.cons_ne_nil _ _) hnd'
  rw [map_fst_numbered] at hinner
  simpa [hdepth] using hinner

end resume
end WorkflowyMcp.Outline
