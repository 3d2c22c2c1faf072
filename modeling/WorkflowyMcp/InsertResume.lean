import WorkflowyMcp.InsertContent
import WorkflowyMcp.SubtreeWalk

/-! Going on with a batch under the last node it made: the tree this leaves, against the
tree of one call for the whole payload. -/
namespace WorkflowyMcp.InsertContent

/-- The children of `p` in the order they are read back. -/
def childrenOf (nodes : List WorkflowyNode) (p : Option String) : List WorkflowyNode :=
  SubtreeWalk.sortChildrenByPriority (nodes.filter fun n => n.parentId = p)

/-- The id in `ids'` for an id in `ids`; other ids stay as they are. -/
def rename (ids ids' : List String) (x : String) : String := ((ids.zip ids').lookup x).getD x

/-- What a reader sees of a node, its id renamed. -/
def seen (ρ : String → String) (n : WorkflowyNode) : String × String × Option String :=
  (ρ n.id,n.name,n.description)

/-- Below `base` and everywhere else, up to the ids of the nodes made, a node has the same
children in the same order with the same texts in both stores. -/
def SameTree (base : Option String) (ids ids' : List String) (nodes nodes' : List WorkflowyNode) :
    Prop :=
  ∀ x, x = base ∨ (∃ n∈nodes, x = some n.id) →
    (childrenOf nodes' (x.map (rename ids ids'))).map (seen id) =
      (childrenOf nodes x).map (seen (rename ids ids'))

/-- The ids of nodes made below `base` next to `old` ones. -/
structure Apart (old : List WorkflowyNode) (base : Option String) (ids : List String) : Prop where
  fresh : ∀ id∈ids, World.Fresh old id
  distinct : ids.Nodup
  base : ∀ id∈ids, base≠some id

def lineNode (ids : List String) (text : Nat → String) (parent : Nat → Option String)
    (priority : Nat → Nat) (i : Nat) : WorkflowyNode :=
  { id := ids.getD i "", name := text i, parentId := parent i, priority := some (priority i : Int) }

def batch (ids : List String) (text : Nat → String) (parent : Nat → Option String)
    (priority : Nat → Nat) : List WorkflowyNode :=
  (List.range ids.length).map (lineNode ids text parent priority)

section rename
variable {ids ids' : List String} {x : String}

theorem rename_getD (hlen : ids'.length = ids.length) (hnd : ids.Nodup) {i : Nat}
    (hi : i < ids.length) : rename ids ids' (ids.getD i "") = ids'.getD i "" := by
  induction ids generalizing ids' i with
  | nil => simp at hi
  | cons id ids ih =>
    cases ids' with
    | nil => simp at hlen
    | cons id' ids' =>
      obtain ⟨hid,hnd⟩ := List.nodup_cons.mp hnd
      cases i with
      | zero => simp [rename]
      | succ i =>
        have hi : i < ids.length := by simpa using hi
        have hmem : ids.getD i ""∈ids := by simp [hi]
        have hne : (ids.getD i "" == id) = false := by
          rw [beq_eq_false_iff_ne]
          exact fun h => hid (h ▸ hmem)
        have hrest := ih (by simpa using hlen : ids'.length = ids.length) hnd hi
        simp only [rename,List.getD_cons_succ,List.zip_cons_cons,List.lookup_cons,hne] at hrest ⊢
        exact hrest

theorem rename_of_not_mem (hx : x∉ids) : rename ids ids' x = x := by
  induction ids generalizing ids' with
  | nil => rfl
  | cons id ids ih =>
    cases ids' with
    | nil => rfl
    | cons id' ids' =>
      obtain ⟨hne,hx⟩ := not_or.mp (mt List.mem_cons.mpr hx)
      have hne : (x == id) = false := beq_eq_false_iff_ne.mpr hne
      have hrest : rename ids ids' x = x := ih hx
      simp only [rename,List.zip_cons_cons,List.lookup_cons,hne] at hrest ⊢
      exact hrest

end rename

section batches
variable {old : List WorkflowyNode} {base : Option String} {ids ids' : List String}
  {text : Nat → String} {q q' : Nat → Option Nat} {priority : Nat → Nat}

/-- The parent a line index stands for. -/
abbrev parentOf (base : Option String) (ids : List String) (q : Nat → Option Nat) (i : Nat) :
    Option String := Outline.entry base (ids.map some) (q i)

theorem entry_rename (hlen : ids'.length = ids.length) (ha : Apart old base ids) {o : Option Nat}
    (ho : ∀ j, o = some j → j < ids.length) :
    (Outline.entry base (ids.map some) o).map (rename ids ids') =
      Outline.entry base (ids'.map some) o := by
  cases o with
  | none =>
    cases hb : base with
    | none => rfl
    | some b =>
      have hmem : b∉ids := fun h => ha.base b h hb
      simp [Outline.entry,rename_of_not_mem hmem]
  | some j =>
    have hj := ho j rfl
    have hget := rename_getD hlen ha.distinct hj
    simp only [List.getD_eq_getElem?_getD,List.getElem?_eq_getElem hj,
      List.getElem?_eq_getElem (hlen ▸ hj : j < ids'.length)] at hget
    simpa [Outline.entry,hj,hlen] using hget

theorem entry_inj (ha : Apart old base ids) {o o' : Option Nat}
    (ho : ∀ j, o = some j → j < ids.length) (ho' : ∀ j, o' = some j → j < ids.length)
    (h : Outline.entry base (ids.map some) o = Outline.entry base (ids.map some) o') : o = o' := by
  have hget : ∀ j, j < ids.length → ∃ id∈ids, Outline.entry base (ids.map some)
    (some j) = some id :=
    fun j hj => ⟨ids[j],List.getElem_mem hj,by simp [Outline.entry,hj]⟩
  cases o with
  | none =>
    cases o' with
    | none => rfl
    | some j' =>
      obtain ⟨id,hid,he⟩ := hget j' (ho' j' rfl)
      exact absurd (h.trans he) (ha.base id hid)
  | some j =>
    cases o' with
    | none =>
      obtain ⟨id,hid,he⟩ := hget j (ho j rfl)
      exact absurd (h.symm.trans he) (ha.base id hid)
    | some j' =>
      have hj := ho j rfl
      have hj' := ho' j' rfl
      have heq : ids[j] = ids[j'] := by simpa [Outline.entry,hj,hj'] using h
      rw [ha.distinct.getElem_inj_iff.mp heq]

theorem mem_childrenOf {nodes : List WorkflowyNode} {p : Option String} {n : WorkflowyNode} :
    n∈childrenOf nodes p ↔ n∈nodes ∧ n.parentId = p := by
  simp [childrenOf,SubtreeWalk.sortChildrenByPriority,(sortByKey_perm _).mem_iff]

theorem mem_batch {parent : Nat → Option String} {n : WorkflowyNode} :
    n∈batch ids text parent priority ↔
      ∃ i, i < ids.length ∧ lineNode ids text parent priority i = n := by
  simp [batch]

/-- In the same tree every line is hung under the same line. -/
theorem SameTree.parents {priority' : Nat → Nat} (hlen : ids'.length = ids.length)
    (ha : Apart old base ids) (ha' : Apart old base ids')
    (hq : ∀ i j, i < ids.length → q i = some j → j < ids.length)
    (hq' : ∀ i j, i < ids.length → q' i = some j → j < ids.length)
    (h : SameTree base ids ids' (old++batch ids text (parentOf base ids q) priority)
      (old++batch ids' text (parentOf base ids' q') priority')) :
    ∀ i, i < ids.length → q' i = q i := by
  intro i hi
  have hadm : parentOf base ids q i = base ∨
      ∃ n∈old++batch ids text (parentOf base ids q) priority, parentOf base ids q i =
        some n.id := by
    cases hqi : q i with
    | none => exact .inl (by simp [parentOf,hqi,Outline.entry])
    | some j =>
      have hj := hq i j hi hqi
      refine .inr ⟨_,List.mem_append_right _ (mem_batch.mpr ⟨j,hj,rfl⟩),?_⟩
      simp [parentOf,hqi,Outline.entry,hj,lineNode]
  have hx := h _ hadm
  have hline : lineNode ids text (parentOf base ids q) priority i ∈
      childrenOf (old++batch ids text (parentOf base ids q) priority) (parentOf base ids q i) :=
    mem_childrenOf.mpr ⟨List.mem_append_right old (mem_batch.mpr ⟨i,hi,rfl⟩),rfl⟩
  have hmem := List.mem_map_of_mem (f := seen (rename ids ids')) hline
  rw [← hx] at hmem
  obtain ⟨m,hm,hseen⟩ := List.mem_map.mp hmem
  have hid : m.id = ids'.getD i "" :=
    (congrArg Prod.fst hseen).trans (rename_getD hlen ha.distinct hi)
  obtain ⟨hm,hparent⟩ := mem_childrenOf.mp hm
  have hi' : i < ids'.length := hlen ▸ hi
  have hmem' : ids'.getD i ""∈ids' := by simp [hi']
  rw [parentOf,entry_rename hlen ha fun j hj => hq i j hi hj] at hparent
  rcases List.mem_append.mp hm with hm | hm
  · exact absurd hid ((ha'.fresh _ hmem' m hm).1)
  · obtain ⟨j,hj,rfl⟩ := mem_batch.mp hm
    have hji : j = i := by
      have heq : ids'[j] = ids'[i] := by simpa [lineNode,hj,hi'] using hid
      exact ha'.distinct.getElem_inj_iff.mp heq
    subst hji
    exact entry_inj ha' (fun k hk => hlen ▸ hq' j k hi hk) (fun k hk => hlen ▸ hq j k hi hk) hparent

/-- The children of a node that was made are those made below it, as they were made. -/
theorem childrenOf_made {parent : Nat → Option String} (ha : Apart old base ids) {id : String}
    (hid : id∈ids) (hmono : ∀ i j, i<j → j < ids.length → parent i = some id →
      parent j = some id → priority i ≤ priority j) :
    childrenOf (old++batch ids text parent priority) (some id) =
      (batch ids text parent priority).filter fun n => n.parentId = some id := by
  have hold : old.filter (fun n => n.parentId = some id) = [] :=
    List.filter_eq_nil_iff.mpr fun n hn => by simpa using (ha.fresh id hid n hn).2
  rw [childrenOf,List.filter_append,hold,List.nil_append,SubtreeWalk.sortChildrenByPriority,sortByKey]
  refine List.Pairwise.insertionSort_eq ?_
  rw [batch,List.filter_map,List.pairwise_map]
  refine (List.pairwise_lt_range.filter _).imp_of_mem fun {i j} hi hj hlt => ?_
  simp only [List.mem_filter,List.mem_range,Function.comp_apply,decide_eq_true_eq] at hi hj
  have hle := hmono i j hlt hj.1 hi.2 hj.2
  simpa [lineNode] using hle

theorem parentOf_line_iff (ha : Apart old base ids) {i j : Nat}
    (hq : ∀ k, q i = some k → k < ids.length) (hj : j < ids.length) :
    parentOf base ids q i = some (ids.getD j "") ↔ q i = some j := by
  have hentry : Outline.entry base (ids.map some) (some j) = some (ids.getD j "") := by
    simp [Outline.entry,hj]
  rw [← hentry]
  exact ⟨entry_inj ha hq fun k hk => Option.some.inj hk ▸ hj,fun h => by rw [parentOf,h]⟩

theorem parentOf_other_iff {x : Option String} (hx : ∀ id∈ids, x≠some id) {i : Nat}
    (hq : ∀ k, q i = some k → k < ids.length) :
    parentOf base ids q i = x ↔ q i = none ∧ base = x := by
  cases hqi : q i with
  | none => simp [parentOf,hqi,Outline.entry]
  | some j =>
    have hj := hq j hqi
    simpa [parentOf,hqi,Outline.entry,hj] using (hx _ (List.getElem_mem hj)).symm

/-- Two batches made for the same lines, below a place of the one and of the other that have the
same lines. -/
theorem filter_batch {γ : Type} {f f' : WorkflowyNode → γ} {parent parent' : Nat → Option String}
    {priority' : Nat → Nat} {x x' : Option String} (hlen : ids'.length = ids.length)
    (hiff : ∀ i, i < ids.length → (parent' i = x' ↔ parent i = x))
    (hf : ∀ i, i < ids.length → parent i = x → f' (lineNode ids' text parent' priority' i) =
      f (lineNode ids text parent priority i)) :
    ((batch ids' text parent' priority').filter fun n => n.parentId = x').map f' =
      ((batch ids text parent priority).filter fun n => n.parentId = x).map f := by
  have hfilter : (List.range ids.length).filter ((fun n => decide (n.parentId = x')) ∘
      lineNode ids' text parent' priority') = (List.range ids.length).filter
        ((fun n => decide (n.parentId = x)) ∘ lineNode ids text parent priority) := by
    refine List.filter_congr fun i hi => ?_
    simpa [lineNode] using hiff i (List.mem_range.mp hi)
  rw [batch,batch,hlen,List.filter_map,List.filter_map,List.map_map,List.map_map,hfilter]
  refine List.map_congr_left fun i hi => ?_
  obtain ⟨hi,hparent⟩ := List.mem_filter.mp hi
  exact hf i (List.mem_range.mp hi) (by simpa [lineNode] using hparent)

/-- Below a node made for a line. -/
theorem childrenOf_line (hlen : ids'.length = ids.length) (ha : Apart old base ids)
    (ha' : Apart old base ids') (hq : ∀ i j, i < ids.length → q i = some j → j < ids.length)
    (heq : ∀ i, i < ids.length → q' i = q i)
    (hmono : ∀ i j, i<j → j < ids.length → q i = q j → priority i ≤ priority j) {j : Nat}
    (hj : j < ids.length) :
    (childrenOf (old++batch ids' text (parentOf base ids' q') priority)
      (some (ids'.getD j ""))).map (seen id) =
        (childrenOf (old++batch ids text (parentOf base ids q) fun i => i)
          (some (ids.getD j ""))).map (seen (rename ids ids')) := by
  have hj' : j < ids'.length := hlen ▸ hj
  have hline : ∀ i, i < ids.length →
      (parentOf base ids q i = some (ids.getD j "") ↔ q i = some j) :=
    fun i hi => parentOf_line_iff ha (fun k => hq i k hi) hj
  have hline' : ∀ i, i < ids.length →
      (parentOf base ids' q' i = some (ids'.getD j "") ↔ q i = some j) := by
    intro i hi
    rw [parentOf_line_iff ha' (fun k hk => hlen ▸ hq i k hi (heq i hi ▸ hk)) hj',heq i hi]
  have hmono' : ∀ i k, i<k → k < ids'.length →
      parentOf base ids' q' i = some (ids'.getD j "") →
        parentOf base ids' q' k = some (ids'.getD j "") → priority i ≤ priority k := by
    intro i k hlt hk hpi hpk
    rw [hlen] at hk
    exact hmono i k hlt hk (((hline' i (hlt.trans hk)).mp hpi).trans ((hline' k hk).mp hpk).symm)
  rw [childrenOf_made ha (by simp [hj]) fun _ _ hlt _ _ _ => hlt.le,
    childrenOf_made ha' (by simp [hj']) hmono']
  refine filter_batch hlen (fun i hi => (hline' i hi).trans (hline i hi).symm) fun i hi _ => ?_
  simpa [seen,lineNode] using (rename_getD hlen ha.distinct hi).symm

/-- Anywhere else only lines hung under the base are new, and they keep their priority. -/
theorem childrenOf_other (hlen : ids'.length = ids.length) (ha : Apart old base ids)
    (hq : ∀ i j, i < ids.length → q i = some j → j < ids.length)
    (heq : ∀ i, i < ids.length → q' i = q i)
    (hroot : ∀ i, i < ids.length → q i = none → priority i = i) {x : Option String}
    (hx : ∀ id∈ids, x≠some id) (hx' : ∀ id∈ids', x≠some id) :
    (childrenOf (old++batch ids' text (parentOf base ids' q') priority) x).map (seen id) =
      (childrenOf (old++batch ids text (parentOf base ids q) fun i => i) x).map
        (seen (rename ids ids')) := by
  have hline : ∀ i, i < ids.length → (parentOf base ids q i = x ↔ q i = none ∧ base = x) :=
    fun i hi => parentOf_other_iff hx fun k => hq i k hi
  have hline' : ∀ i, i < ids.length → (parentOf base ids' q' i = x ↔ q i = none ∧ base = x) := by
    intro i hi
    rw [parentOf_other_iff hx' fun k hk => hlen ▸ hq i k hi (heq i hi ▸ hk),heq i hi]
  let g : WorkflowyNode → WorkflowyNode := fun n => { n with id := rename ids ids' n.id }
  have hold : (old.filter fun n => n.parentId = x).map g = old.filter fun n => n.parentId = x := by
    refine (List.map_congr_left fun n hn => ?_).trans (List.map_id _)
    have hmem : n.id∉ids := fun h => (ha.fresh _ h n (List.mem_filter.mp hn).1).1 rfl
    simp [g,rename_of_not_mem hmem]
  have hbatch : (batch ids' text (parentOf base ids' q') priority).filter
      (fun n => n.parentId = x) =
        ((batch ids text (parentOf base ids q) fun i => i).filter fun n => n.parentId = x).map g := by
    rw [← List.map_id (List.filter _ (batch ids' text _ priority))]
    refine filter_batch hlen (fun i hi => (hline' i hi).trans (hline i hi).symm) fun i hi hp => ?_
    obtain ⟨hnone,-⟩ := (hline i hi).mp hp
    simp only [id,lineNode,g,rename_getD hlen ha.distinct hi,hroot i hi hnone,parentOf,heq i hi,
      hnone,Outline.entry]
  rw [childrenOf,childrenOf,List.filter_append,List.filter_append,hbatch,← hold,
    ← List.map_append,SubtreeWalk.sortChildrenByPriority,SubtreeWalk.sortChildrenByPriority,
    sortByKey,sortByKey,← List.map_insertionSort (fun a b : WorkflowyNode =>
      a.priority.getD SubtreeWalk.i64Min ≤ b.priority.getD SubtreeWalk.i64Min) _ g _
      fun _ _ _ _ => Iff.rfl,List.map_map]
  rw [hold]
  rfl

theorem sameTree_of_parents (hlen : ids'.length = ids.length) (ha : Apart old base ids)
    (ha' : Apart old base ids') (hq : ∀ i j, i < ids.length → q i = some j → j < ids.length)
    (heq : ∀ i, i < ids.length → q' i = q i)
    (hroot : ∀ i, i < ids.length → q i = none → priority i = i)
    (hmono : ∀ i j, i<j → j < ids.length → q i = q j → priority i ≤ priority j) :
    SameTree base ids ids' (old++batch ids text (parentOf base ids q) fun i => i)
      (old++batch ids' text (parentOf base ids' q') priority) := by
  intro x hx
  by_cases hmade : ∃ j, j < ids.length ∧ x = some (ids.getD j "")
  · obtain ⟨j,hj,rfl⟩ := hmade
    rw [Option.map_some,rename_getD hlen ha.distinct hj]
    exact childrenOf_line hlen ha ha' hq heq hmono hj
  · have hnot : ∀ id∈ids, x≠some id := by
      intro id hid hxid
      obtain ⟨j,hj,rfl⟩ := List.mem_iff_getElem.mp hid
      exact hmade ⟨j,hj,by simpa [hj] using hxid⟩
    have hnot' : ∀ id∈ids', x≠some id := by
      intro id hid hxid
      rcases hx with rfl | ⟨n,hn,rfl⟩
      · exact ha'.base _ hid hxid
      · rcases List.mem_append.mp hn with hn | hn
        · exact (ha'.fresh _ hid n hn).1 (Option.some.inj hxid)
        · obtain ⟨i,hi,rfl⟩ := mem_batch.mp hn
          exact hmade ⟨i,hi,rfl⟩
    have hxmap : x.map (rename ids ids') = x := by
      cases x with
      | none => rfl
      | some y => simp [rename_of_not_mem fun hy => hnot y hy rfl]
    rw [hxmap]
    exact childrenOf_other hlen ha hq heq hroot hnot hnot'

end batches

section resume
variable {σ : Type} {w : World σ} {maxAttempts : Nat} {base last : Option String}
  {lines lines' : List ParsedLine} {s t : σ} {ids ids' : List String}

/-- A call that returns `Complete` and `last`, having made nodes under `ids` and no others. -/
structure Inserts (w : World σ) (maxAttempts : Nat) (base : Option String)
    (lines : List ParsedLine) (s : σ) (last : Option String) (ids : List String)
    (t : σ) : Prop where
  result : ∃ parentId count fp, ((insertContentViaIndented maxAttempts base lines).run w.serve s).1 =
    .ok (.Complete parentId count last,fp) ∧ fp.createdNodes.map WorkflowyNode.id = ids
  store : ((insertContentViaIndented maxAttempts base lines).run w.serve s).2 = t
  heard : (insertContentViaIndented maxAttempts base lines).tally w.unheard w.serve s = 0

theorem Inserts.made (h : Inserts w maxAttempts base lines s last ids t) :
    ids.length = lines.length ∧ last = ids.getLast? ∧ Apart (w.nodes s) base ids ∧
      w.nodes t = w.nodes s++madeNodes base lines ids := by
  obtain ⟨⟨parentId,count,fp,hres,rfl⟩,rfl,hheard⟩ := h
  obtain ⟨ids,hlen,hlast,rfl,-,hexact,hfresh,hnd,hbase⟩ := complete_booked hres
  exact ⟨hlen,hlast,⟨hfresh,hnd,hbase⟩,hexact hheard⟩

/-- The lines each line is hung under in one call, and in two. -/
def wholeParents (lines lines' : List ParsedLine) : List (Option Nat) :=
  Outline.parents [none]
    (Outline.numbered 0 (lines.map ParsedLine.indent++lines'.map ParsedLine.indent))

def splitParents (lines lines' : List ParsedLine) : List (Option Nat) :=
  Outline.parents [none] (Outline.numbered 0 (lines.map ParsedLine.indent))++
    Outline.parents [some (lines.length-1)]
      (Outline.numbered lines.length (lines'.map ParsedLine.indent))

theorem getD_parents_numbered {i : Nat} (hi : i < lines.length) :
    (Outline.parents [none] (Outline.numbered 0 (lines.map ParsedLine.indent))).getD i none =
      parentLine lines i := by
  rw [Outline.parents_numbered]
  simp [hi,parentLine]

theorem length_splitParents (lines lines' : List ParsedLine) :
    (splitParents lines lines').length = lines.length+lines'.length := by
  simp [splitParents]

theorem entry_append {xs ys : List (Option String)} {o : Option Nat}
    (ho : ∀ j, o = some j → j < xs.length) :
    Outline.entry base (xs++ys) o = Outline.entry base xs o := by
  cases o with
  | none => rfl
  | some j =>
    have hj := ho j rfl
    simp [Outline.entry,List.getElem?_append_left hj]

/-- The nodes of a first call and of a second one below the last node of the first. -/
theorem madeNodes_append {id : String} (hlen : ids.length = lines.length)
    (hlen' : ids'.length = lines'.length) (hlast : ids.getLast? = some id) :
    madeNodes base lines ids++madeNodes (some id) lines' ids' =
      batch (ids++ids') (fun i => ((lines++lines').map ParsedLine.text).getD i "")
        (parentOf base (ids++ids') fun i => (splitParents lines lines').getD i none)
        fun i => if i < lines.length then i else i-lines.length := by
  have hpos : 0 < lines.length := hlen ▸ List.length_pos_of_mem (List.mem_of_getLast? hlast)
  rw [batch,List.length_append,List.range_add,List.map_append,List.map_map,madeNodes,madeNodes]
  congr 1
  · refine List.map_congr_left fun i hi => ?_
    have hi := List.mem_range.mp hi
    have hil : i < lines.length := hlen ▸ hi
    have hparent : (splitParents lines lines')[i]?.getD none = parentLine lines i := by
      rw [splitParents,List.getElem?_append_left (by simpa using hil),
        ← List.getD_eq_getElem?_getD,getD_parents_numbered hil]
    have hentry : Outline.entry base (ids.map some++ids'.map some) (parentLine lines i) =
        Outline.entry base (ids.map some) (parentLine lines i) := by
      refine entry_append fun j hj => ?_
      have := Outline.nearest_lt hj
      simp only [List.length_map]
      omega
    simp [lineNode,parentOf,hparent,hentry,List.getElem?_append_left,hi,hil]
  · refine List.map_congr_left fun i hi => ?_
    have hi := List.mem_range.mp hi
    have hil : i < lines'.length := hlen' ▸ hi
    have hbase : Outline.entry base (ids.map some++ids'.map some) (some (lines.length-1)) =
      some id := by
      rw [List.getLast?_eq_getElem?,hlen] at hlast
      have hlt : lines.length-1 < ids.length := by omega
      rw [List.getElem?_eq_getElem hlt,Option.some.injEq] at hlast
      simp [Outline.entry,List.getElem?_append_left,hlt,hlast]
    -- placing the lines of the second call is placing their numbers, read as ids
    have hplaced := Outline.parents_map (Outline.entry base (ids.map some++ids'.map some))
      (List.cons_ne_nil (some (lines.length-1)) [])
      (Outline.numbered lines.length (lines'.map ParsedLine.indent))
    have hzip := Outline.zip_eq_numbered base (lines'.map ParsedLine.indent) (ids.map some)
      (ids'.map some) (by simp [hlen'])
    rw [List.take_of_length_le (by simp [hlen']),List.length_map,hlen] at hzip
    have hplan := Outline.parents_zip (some id) (lines'.map ParsedLine.indent) (ids'.map some)
      (by simp [hlen'])
    rw [List.map_cons,List.map_nil,hbase,← hzip,hplan] at hplaced
    have hparent : Outline.entry base (ids.map some++ids'.map some)
        ((splitParents lines lines')[lines.length+i]?.getD none) =
        Outline.entry (some id) (ids'.map some) (parentLine lines' i) := by
      have hlt : i < (Outline.parents [some (lines.length-1)]
          (Outline.numbered lines.length (lines'.map ParsedLine.indent))).length := by simpa using hil
      have hget := congrArg (fun l => l[i]?) hplaced
      simp only [List.getElem?_map,List.getElem?_eq_getElem hlt,Option.map_some] at hget
      rw [splitParents,List.getElem?_append_right (by simp),Outline.length_parents,
        Outline.length_numbered,List.length_map,Nat.add_sub_cancel_left,
        List.getElem?_eq_getElem hlt,Option.getD_some]
      simpa [hi,parentLine,eq_comm] using hget
    simp [lineNode,parentOf,hparent,hlen,hil,hi]

theorem mem_madeNodes (base : Option String) (lines : List ParsedLine) {i : Nat}
    (hi : i < ids.length) : ∃ n∈madeNodes base lines ids,
    n.id = ids[i] ∧ n.parentId = Outline.entry base (ids.map some) (parentLine lines i) :=
  ⟨_,List.mem_map.mpr ⟨i,List.mem_range.mpr hi,rfl⟩,by simp [hi],rfl⟩

/-- Ids made after a first call that made some are apart from the same old nodes. -/
theorem Apart.append {old nodes : List WorkflowyNode} {base' : Option String}
    (h : Apart old base ids) (hne : ids≠[]) (hnodes : nodes = old++madeNodes base lines ids)
    (h' : Apart nodes base' ids') : Apart old base (ids++ids') := by
  have hold : ∀ n∈old, n∈nodes := fun n hn => hnodes ▸ List.mem_append_left _ hn
  have hnew : ∀ n∈madeNodes base lines ids, n∈nodes :=
    fun n hn => hnodes ▸ List.mem_append_right _ hn
  refine ⟨fun id hid => ?_,?_,fun id hid => ?_⟩
  · rcases List.mem_append.mp hid with hid | hid
    · exact h.fresh id hid
    · exact fun n hn => h'.fresh id hid n (hold n hn)
  · refine List.nodup_append.mpr ⟨h.distinct,h'.distinct,fun a ha b hb hab => ?_⟩
    obtain ⟨i,hi,rfl⟩ := List.mem_iff_getElem.mp ha
    obtain ⟨n,hn,hid,-⟩ := mem_madeNodes base lines hi
    exact (h'.fresh b hb n (hnew n hn)).1 (hid.trans hab)
  · rcases List.mem_append.mp hid with hid | hid
    · exact h.base id hid
    · -- the first node that was made hangs under the base
      obtain ⟨n,hn,-,hp⟩ := mem_madeNodes base lines
        (List.length_pos_of_ne_nil hne)
      have hroot : parentLine lines 0 = none := by
        cases hq : parentLine lines 0 with
        | none => rfl
        | some j => exact absurd (Outline.nearest_lt hq) (Nat.not_lt_zero j)
      rw [hroot] at hp
      exact fun hb => (h'.fresh id hid n (hnew n hn)).2 (hp.trans hb)

theorem wholeParents_getD {i : Nat} (hi : i < lines.length+lines'.length) :
    (wholeParents lines lines').getD i none = parentLine (lines++lines') i := by
  rw [wholeParents,← List.map_append]
  exact getD_parents_numbered (by simpa using hi)

/-- The two calls hang every line under the same line as the one call exactly if each line
of the second one is indented below the line before it. -/
theorem splitParents_iff (hne : lines≠[]) :
    (∀ i, i < lines.length+lines'.length →
      (splitParents lines lines').getD i none = parentLine (lines++lines') i) ↔
    Outline.Chained (Outline.depthAfter 0 (lines.map ParsedLine.indent))
      (lines'.map ParsedLine.indent) := by
  have hiff := Outline.parents_resumed_iff
    (show lines.map ParsedLine.indent≠[] by simpa using hne) (lines'.map ParsedLine.indent)
  rw [List.length_map] at hiff
  rw [← hiff]
  have hwlen : (wholeParents lines lines').length = lines.length+lines'.length := by
    simp [wholeParents]
  constructor
  · intro h
    refine List.ext_getElem? fun i => ?_
    change (wholeParents lines lines')[i]? = (splitParents lines lines')[i]?
    by_cases hi : i < lines.length+lines'.length
    · have heq := (wholeParents_getD hi).trans (h i hi).symm
      rw [List.getD_eq_getElem?_getD,List.getD_eq_getElem?_getD,
        List.getElem?_eq_getElem (hwlen ▸ hi),
        List.getElem?_eq_getElem ((length_splitParents lines lines').symm ▸ hi)] at heq
      rw [List.getElem?_eq_getElem (hwlen ▸ hi),
        List.getElem?_eq_getElem ((length_splitParents lines lines').symm ▸ hi)]
      exact congrArg some heq
    · rw [List.getElem?_eq_none (by omega),
        List.getElem?_eq_none (by rw [length_splitParents]; omega)]
  · intro h i hi
    rw [← wholeParents_getD hi]
    exact congrArg (fun l => l.getD i none) h.symm

theorem splitParents_lt (hne : lines≠[]) {i j : Nat}
    (h : (splitParents lines lines').getD i none = some j) : j < lines.length+lines'.length := by
  have hpos := List.length_pos_of_ne_nil hne
  have hmem : some j∈splitParents lines lines' := by
    rw [List.getD_eq_getElem?_getD] at h
    cases hget : (splitParents lines lines')[i]? with
    | none => simp [hget] at h
    | some o => exact (by simpa [hget] using h : o = some j) ▸ List.mem_of_getElem? hget
  rcases List.mem_append.mp hmem with hmem | hmem
  · rcases List.mem_append.mp (Outline.mem_parents (by simp) hmem) with hmem | hmem
    · simp at hmem
    · obtain ⟨k,hk,-,hlt⟩ := Outline.mem_snd_numbered hmem
      cases hk
      simp only [List.length_map] at hlt
      omega
  · rcases List.mem_append.mp (Outline.mem_parents (by simp) hmem) with hmem | hmem
    · obtain rfl : j = lines.length-1 := by simpa using hmem
      omega
    · obtain ⟨k,hk,-,hlt⟩ := Outline.mem_snd_numbered hmem
      cases hk
      simpa using hlt

/-- In a chain each remaining line hangs under the line before it. -/
theorem splitParents_chained (hne : lines≠[])
    (h : Outline.Chained (Outline.depthAfter 0 (lines.map ParsedLine.indent))
      (lines'.map ParsedLine.indent)) {i : Nat} (hi : lines.length ≤ i)
    (hlt : i < lines.length+lines'.length) :
    (splitParents lines lines').getD i none = some (i-1) := by
  have hpos := List.length_pos_of_ne_nil hne
  have hzero : Outline.Chained ([] : List (Option Nat)).length (lines'.map ParsedLine.indent) :=
    h.mono (Nat.zero_le _)
  have hchain := Outline.parents_chained (m := lines.length-1) hzero
  rw [Nat.sub_add_cancel hpos,List.nil_append] at hchain
  have hi' : i-lines.length < lines'.length := by omega
  rw [splitParents,hchain,List.getD_eq_getElem?_getD,List.getElem?_append_right (by simpa using hi)]
  simp [hi']
  omega

variable {lastFirst lastSecond : Option String} {first second : List String} {t₁ t₂ : σ}

/-- Going on under the last node made, or under the base if there is none, leaves the tree of
the one call exactly if nothing was made before, or each remaining line is indented deeper
than the level of the line before it. -/
theorem resumed_same_tree_iff (w : World σ) (maxAttempts : Nat) (base : Option String)
    (lines lines' : List ParsedLine) (s : σ)
    (hwhole : Inserts w maxAttempts base (lines++lines') s last ids t)
    (hfirst : Inserts w maxAttempts base lines s lastFirst first t₁)
    (hsecond : Inserts w maxAttempts (lastFirst <|> base) lines' t₁ lastSecond second t₂) :
    SameTree base ids (first++second) (w.nodes t) (w.nodes t₂) ↔
      lines = [] ∨ Outline.Chained (Outline.depthAfter 0 (lines.map ParsedLine.indent))
        (lines'.map ParsedLine.indent) := by
  obtain ⟨hlen,-,ha,hnodes⟩ := hwhole.made
  obtain ⟨hlen₁,hlast₁,ha₁,hnodes₁⟩ := hfirst.made
  obtain ⟨hlen₂,-,ha₂,hnodes₂⟩ := hsecond.made
  have hq : ∀ i j, i < ids.length → parentLine (lines++lines') i = some j → j < ids.length :=
    fun i j hi hj => (Outline.nearest_lt hj).trans hi
  rw [List.length_append] at hlen
  by_cases hne : lines = []
  · subst hne
    obtain rfl : first = [] := List.eq_nil_of_length_eq_zero hlen₁
    obtain rfl : lastFirst = none := hlast₁
    have hold : w.nodes t₁ = w.nodes s := by simpa [madeNodes] using hnodes₁
    rw [hold] at ha₂ hnodes₂
    refine iff_of_true ?_ (.inl rfl)
    rw [hnodes,hnodes₂]
    exact sameTree_of_parents (q := parentLine lines') (by simpa [hlen₂] using hlen.symm) ha ha₂ hq
      (fun _ _ => rfl) (fun _ _ _ => rfl) fun _ _ hlt _ _ => hlt.le
  have hfne : first≠[] := fun h => hne (List.eq_nil_of_length_eq_zero (by simpa [h] using hlen₁.symm))
  obtain ⟨id,hid⟩ : ∃ id, first.getLast? = some id := ⟨_,List.getLast?_eq_some_getLast hfne⟩
  rw [hlast₁,hid] at hnodes₂
  have hsplit : w.nodes t₂ = w.nodes s++batch (first++second)
      (fun i => ((lines++lines').map ParsedLine.text).getD i "")
      (parentOf base (first++second) fun i => (splitParents lines lines').getD i none)
      fun i => if i < lines.length then i else i-lines.length := by
    rw [hnodes₂,hnodes₁,List.append_assoc]
    exact congrArg _ (madeNodes_append hlen₁ hlen₂ hid)
  have ha' : Apart (w.nodes s) base (first++second) := ha₁.append hfne hnodes₁ ha₂
  have hlen' : (first++second).length = ids.length := by
    rw [List.length_append,hlen₁,hlen₂,hlen]
  rw [hnodes,hsplit,or_iff_right hne,← splitParents_iff hne]
  constructor
  · intro h i hi
    refine SameTree.parents hlen' ha ha' hq ?_ h i (by omega)
    exact fun i j _ hj => hlen ▸ splitParents_lt hne hj
  · intro h
    have hchain : ∀ i, lines.length ≤ i → i < ids.length →
        parentLine (lines++lines') i = some (i-1) := by
      intro i hi hlt
      rw [← h i (hlen ▸ hlt)]
      exact splitParents_chained hne ((splitParents_iff hne).mp h) hi (hlen ▸ hlt)
    refine sameTree_of_parents (q := parentLine (lines++lines')) hlen' ha ha' hq
      (fun i hi => h i (hlen ▸ hi)) ?_ ?_
    · intro i hi hnone
      refine if_pos ?_
      by_contra hge
      simp [hchain i (Nat.le_of_not_lt hge) hi] at hnone
    · intro i j hlt hj heq
      by_cases hi : i < lines.length
      · by_cases hjl : j < lines.length
        · simpa [hi,hjl] using hlt.le
        · -- the parent of a remaining line comes after every line of the first call but the last
          rw [hchain j (Nat.le_of_not_lt hjl) hj] at heq
          have := Outline.nearest_lt heq
          omega
      · have hjl : ¬j < lines.length := by omega
        simp only [if_neg hi,if_neg hjl]
        omega

end resume

/-- The resume cursor and the new ids of a reply. -/
def lastInserted : Except WorkflowyError (InsertContentOutcome × MutationFootprint) → Option String
  | .ok (.Complete _ _ last,_) | .ok (.Partial _ _ _ _ last _ _,_) => last
  | .error _ => none

def createdIds : Except WorkflowyError (InsertContentOutcome × MutationFootprint) → List String
  | .ok (_,fp) => fp.createdNodes.map WorkflowyNode.id
  | .error _ => []

/-- A parent in one call and its child in the next: the tree of one call. -/
theorem resumed_child_same_tree :
    let w := Service.reliable.world {}
    let whole := (insertContentViaIndented RETRY_MAX_ATTEMPTS none [⟨"a",0⟩,⟨"b",1⟩]).run w.serve ⟨[],0⟩
    let first := (insertContentViaIndented RETRY_MAX_ATTEMPTS none [⟨"a",0⟩]).run w.serve ⟨[],0⟩
    let second := (insertContentViaIndented RETRY_MAX_ATTEMPTS (lastInserted first.1 <|> none)
      [⟨"b",1⟩]).run w.serve first.2
    SameTree none (createdIds whole.1) (createdIds first.1++createdIds second.1)
      (w.nodes whole.2) (w.nodes second.2) := by
  intro w whole first second
  have hwhole : Inserts w RETRY_MAX_ATTEMPTS none [⟨"a",0⟩,⟨"b",1⟩] ⟨[],0⟩ (lastInserted whole.1)
      (createdIds whole.1) whole.2 := by
    refine ⟨⟨none,2,⟨[],[],[{ id := "n", name := "a" },
      { id := "nn", name := "b", parentId := some "n" }]⟩,?_,?_⟩,rfl,?_⟩ <;> decide +kernel
  have hfirst : Inserts w RETRY_MAX_ATTEMPTS none [⟨"a",0⟩] ⟨[],0⟩ (lastInserted first.1)
      (createdIds first.1) first.2 := by
    refine ⟨⟨none,1,⟨[],[],[{ id := "n", name := "a" }]⟩,?_,?_⟩,rfl,?_⟩ <;> decide +kernel
  have hsecond : Inserts w RETRY_MAX_ATTEMPTS (lastInserted first.1 <|> none) [⟨"b",1⟩] first.2
      (lastInserted second.1) (createdIds second.1) second.2 := by
    refine ⟨⟨some "n",1,⟨["n"],[],[{ id := "nn", name := "b", parentId := some "n" }]⟩,?_,?_⟩,rfl,?_⟩
      <;> decide +kernel
  exact (resumed_same_tree_iff w RETRY_MAX_ATTEMPTS none _ _ _ hwhole hfirst hsecond).mpr
    (.inr ⟨by decide,trivial⟩)

/-- Two lines beside each other: the second call hangs the second one under the first. -/
theorem resumed_sibling_nested :
    let w := Service.reliable.world {}
    let whole := (insertContentViaIndented RETRY_MAX_ATTEMPTS none [⟨"a",0⟩,⟨"b",0⟩]).run w.serve ⟨[],0⟩
    let first := (insertContentViaIndented RETRY_MAX_ATTEMPTS none [⟨"a",0⟩]).run w.serve ⟨[],0⟩
    let second := (insertContentViaIndented RETRY_MAX_ATTEMPTS (lastInserted first.1 <|> none)
      [⟨"b",0⟩]).run w.serve first.2
    ¬SameTree none (createdIds whole.1) (createdIds first.1++createdIds second.1)
      (w.nodes whole.2) (w.nodes second.2) := by
  intro w whole first second h
  exact absurd (h none (.inl rfl)) (by decide +kernel)

end WorkflowyMcp.InsertContent
