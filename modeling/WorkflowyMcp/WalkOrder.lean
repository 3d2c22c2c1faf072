import WorkflowyMcp.WalkRecovery

/-! The walk of a tree that does not change: a result that is not truncated is the
depth-bounded subtree in breadth-first document order, whatever order the fetches
completed in and whichever of them had to be retried. -/
namespace WorkflowyMcp.SubtreeWalk

/- A finite tree of nodes with distinct ids. Parents rank below their children, so
   no node is its own ancestor. -/
structure Tree where
  nodes : List WorkflowyNode
  nodup : (nodes.map WorkflowyNode.id).Nodup
  rank : String → Nat
  acyclic : ∀ n∈nodes, ∀ p, n.parentId = some p → rank p < rank n.id

/-- Replies that are not errors serve the tree, every child with its parent. -/
structure WalkEnv.Serves (w : WalkEnv) (tree : Tree) : Prop where
  node : ∀ t id n, w.node t id = .ok n → n∈tree.nodes ∧ n.id = id
  topLevel : ∀ t ns, w.topLevel t = .ok ns → ns = tree.nodes.filter fun n => n.parentId = none
  listing : ∀ t id ns, w.listing t id = .ok ns →
    ns = tree.nodes.filter fun n => n.parentId = some id

namespace Tree
variable (tree : Tree)

/-- The children below `p`, or the top level, in display order. -/
def children (p : Option String) : List WorkflowyNode :=
  sortChildrenByPriority (tree.nodes.filter fun n => n.parentId = p)

def below (level : List WorkflowyNode) : List WorkflowyNode :=
  level.flatMap fun n => tree.children (some n.id)

/-- The levels under `root`, siblings in display order, blocks in the order of their parents. -/
def level (root : Option String) : Nat → List WorkflowyNode
  | 0 => tree.children root
  | k+1 => tree.below (level root k)

/- Breadth-first document order: the root if there is one, its children and up to
   `maxDepth` further levels. -/
def docOrder (root : Option String) (maxDepth : Nat) : List WorkflowyNode :=
  (tree.nodes.filter fun n => some n.id = root)++(List.range (maxDepth+1)).flatMap (tree.level root)

/-- The node `n` is `k` levels below the children of `root`. -/
def AtDepth (root : Option String) : Nat → WorkflowyNode → Prop
  | 0,n => n∈tree.nodes ∧ n.parentId = root
  | k+1,n => n∈tree.nodes ∧ ∃ p, AtDepth root k p ∧ n.parentId = some p.id

def InSubtree (root : Option String) (maxDepth : Nat) (n : WorkflowyNode) : Prop :=
  (n∈tree.nodes ∧ some n.id = root) ∨ ∃ k ≤ maxDepth, tree.AtDepth root k n

variable {tree}

theorem eq_of_id {a b : WorkflowyNode} (ha : a∈tree.nodes) (hb : b∈tree.nodes) (h : a.id = b.id) :
    a = b :=
  List.inj_on_of_nodup_map tree.nodup ha hb h

theorem mem_children {p : Option String} {n : WorkflowyNode} :
    n∈tree.children p ↔ n∈tree.nodes ∧ n.parentId = p := by
  rw [children,sortChildrenByPriority,(sortByKey_perm _).mem_iff,List.mem_filter,
    decide_eq_true_eq]

theorem children_nodup (p : Option String) : (tree.children p).Nodup := by
  rw [children,sortChildrenByPriority,(sortByKey_perm _).nodup_iff]
  exact (tree.nodup.of_map _).filter _

theorem mem_level {root : Option String} {k : Nat} {n : WorkflowyNode} :
    n∈tree.level root k ↔ tree.AtDepth root k n := by
  induction k generalizing n with
  | zero => exact mem_children
  | succ k ih =>
    simp only [level,below,List.mem_flatMap,mem_children,ih,AtDepth]
    constructor
    · rintro ⟨p,hp,hn,hpar⟩
      exact ⟨hn,p,hp,hpar⟩
    · rintro ⟨hn,p,hp,hpar⟩
      exact ⟨p,hp,hn,hpar⟩

theorem AtDepth.mem {root : Option String} {k : Nat} {n : WorkflowyNode}
    (h : tree.AtDepth root k n) : n∈tree.nodes := by
  cases k with
  | zero => exact h.1
  | succ k => exact h.1

theorem AtDepth.rank_lt {r : String} {k : Nat} {n : WorkflowyNode}
    (h : tree.AtDepth (some r) k n) : tree.rank r < tree.rank n.id := by
  induction k generalizing n with
  | zero => exact tree.acyclic n h.1 r h.2
  | succ k ih =>
    obtain ⟨hn,p,hp,hpar⟩ := h
    exact (ih hp).trans (tree.acyclic n hn p.id hpar)

theorem AtDepth.not_first {root : Option String} {k : Nat} {p n : WorkflowyNode}
    (hp : tree.AtDepth root k p) (hpar : n.parentId = some p.id) : n.parentId ≠ root := by
  rintro rfl
  rw [hpar] at hp
  exact lt_irrefl _ hp.rank_lt

/-- A node lies at one depth only. -/
theorem AtDepth.unique {root : Option String} {j k : Nat} {n : WorkflowyNode}
    (hj : tree.AtDepth root j n) (hk : tree.AtDepth root k n) : j = k := by
  induction j generalizing k n with
  | zero =>
    cases k with
    | zero => rfl
    | succ k =>
      obtain ⟨-,p,hp,hpar⟩ := hk
      exact absurd hj.2 (hp.not_first hpar)
  | succ j ih =>
    obtain ⟨-,p,hp,hpar⟩ := hj
    cases k with
    | zero => exact absurd hk.2 (hp.not_first hpar)
    | succ k =>
      obtain ⟨-,q,hq,hqar⟩ := hk
      obtain rfl : p = q := eq_of_id hp.mem hq.mem (by simpa [hpar] using hqar)
      rw [ih hp hq]

theorem below_nodup {ns : List WorkflowyNode} (hmem : ∀ n∈ns, n∈tree.nodes) (h : ns.Nodup) :
    (tree.below ns).Nodup := by
  rw [below,List.nodup_flatMap]
  refine ⟨fun n _ => children_nodup _,h.imp_of_mem fun {a b} ha hb hne => ?_⟩
  intro x hxa hxb
  have hpa := (mem_children.mp hxa).2
  have hpb := (mem_children.mp hxb).2
  exact hne (eq_of_id (hmem a ha) (hmem b hb) (by simpa [hpa] using hpb))

theorem level_nodup (root : Option String) (k : Nat) : (tree.level root k).Nodup := by
  induction k with
  | zero => exact children_nodup root
  | succ k ih => exact below_nodup (fun n hn => (mem_level.mp hn).mem) ih

theorem level_ids_nodup (root : Option String) (k : Nat) :
    ((tree.level root k).map WorkflowyNode.id).Nodup :=
  (level_nodup root k).map_on fun _ ha _ hb h =>
    eq_of_id (mem_level.mp ha).mem (mem_level.mp hb).mem h

theorem mem_docOrder {root : Option String} {maxDepth : Nat} {n : WorkflowyNode} :
    n∈tree.docOrder root maxDepth ↔ tree.InSubtree root maxDepth n := by
  simp only [docOrder,InSubtree,List.mem_append,List.mem_filter,decide_eq_true_eq,List.mem_flatMap,
    List.mem_range,mem_level]
  constructor
  · rintro (h | ⟨k,hk,h⟩)
    · exact .inl h
    · exact .inr ⟨k,by omega,h⟩
  · rintro (h | ⟨k,hk,h⟩)
    · exact .inl h
    · exact .inr ⟨k,by omega,h⟩

theorem docOrder_subset {root : Option String} {maxDepth : Nat} {n : WorkflowyNode}
    (h : n∈tree.docOrder root maxDepth) : n∈tree.nodes := by
  rcases mem_docOrder.mp h with h | ⟨k,-,h⟩
  · exact h.1
  · exact h.mem

/-- Document order names each node once. -/
theorem docOrder_nodup (root : Option String) (maxDepth : Nat) :
    ((tree.docOrder root maxDepth).map WorkflowyNode.id).Nodup := by
  refine List.Nodup.map_on (fun a ha b hb h =>
    eq_of_id (docOrder_subset ha) (docOrder_subset hb) h) ?_
  rw [docOrder,List.nodup_append']
  refine ⟨(tree.nodup.of_map _).filter _,?_,?_⟩
  · rw [List.nodup_flatMap]
    refine ⟨fun k _ => level_nodup root k,List.nodup_range.imp fun {j k} hne x hj hk => ?_⟩
    exact hne ((mem_level.mp hj).unique (mem_level.mp hk))
  · intro n hn hlevels
    have hroot : some n.id = root := by simpa using (List.mem_filter.mp hn).2
    obtain ⟨k,-,hk⟩ := List.mem_flatMap.mp hlevels
    have hd := mem_level.mp hk
    rw [← hroot] at hd
    exact lt_irrefl _ hd.rank_lt

theorem filter_id {r : WorkflowyNode} (hr : r∈tree.nodes) :
    (tree.nodes.filter fun n => some n.id = some r.id) = [r] := by
  have hnodup : (tree.nodes.filter fun n => some n.id = some r.id).Nodup :=
    (tree.nodup.of_map _).filter _
  have hall : ∀ n∈tree.nodes.filter fun n => some n.id = some r.id, n = r := fun n hn => by
    obtain ⟨hn,hid⟩ := List.mem_filter.mp hn
    exact eq_of_id hn hr (by simpa using hid)
  have hmem : r∈tree.nodes.filter fun n => some n.id = some r.id := by simp [hr]
  cases hf : tree.nodes.filter fun n => some n.id = some r.id with
  | nil =>
    rw [hf] at hmem
    cases hmem
  | cons a l =>
    rw [hf] at hnodup hall
    obtain rfl := hall a (by simp)
    have hl : l = [] := List.eq_nil_iff_forall_not_mem.mpr fun b hb =>
      (List.nodup_cons.mp hnodup).1 (hall b (by simp [hb]) ▸ hb)
    rw [hl]

end Tree

section order
variable {level : List WorkflowyNode}

theorem rankIn_of_not_mem {p : String} (h : ∀ n∈level, n.id≠p) (k : Nat) :
    rankIn p level k = none := by
  induction level generalizing k with
  | nil => rfl
  | cons n ns ih => simp [rankIn,ih (fun m hm => h m (by simp [hm])) (k+1),h n (by simp)]

theorem rankIn_getElem (h : (level.map WorkflowyNode.id).Nodup) (i k : Nat)
    (hi : i<level.length) : rankIn level[i].id level k = some (k+i) := by
  induction level generalizing i k with
  | nil => simp at hi
  | cons n ns ih =>
    rw [List.map_cons,List.nodup_cons] at h
    cases i with
    | zero =>
      have hnone : rankIn n.id ns (k+1) = none :=
        rankIn_of_not_mem (fun m hm he => h.1 (List.mem_map.mpr ⟨m,hm,he⟩)) (k+1)
      simp [rankIn,hnone]
    | succ i =>
      have hk : k+1+i = k+(i+1) := by omega
      simp [rankIn,ih h.2 i (k+1) (by simpa using hi),hk]

theorem orderLevelByParent_perm (next level : List WorkflowyNode) :
    (orderLevelByParent next level).Perm next := by
  unfold orderLevelByParent
  split
  · exact .refl next
  · exact sortByKey_perm next

/-- Some of the sibling blocks, in any order of arrival, come out in the order of their parents. -/
theorem orderLevelByParent_sublist {blocks : String → List WorkflowyNode}
    {arrived ids : List String} (hnodup : (level.map WorkflowyNode.id).Nodup)
    (hsub : ids.Sublist (level.map WorkflowyNode.id)) (hperm : arrived.Perm ids)
    (hblocks : ∀ id, ∀ n∈blocks id, n.parentId = some id) :
    orderLevelByParent (arrived.flatMap blocks) level = ids.flatMap blocks := by
  unfold orderLevelByParent
  by_cases hempty : arrived.flatMap blocks = []
  · rw [hempty]
    have := (hperm.flatMap_right blocks).symm
    rw [hempty] at this
    simpa using this.eq_nil.symm
  by_cases hlen : level.length<2
  · simp only [hlen,decide_true,Bool.or_true,if_true]
    have hshort : ids.length ≤ 1 := by
      have := hsub.length_le
      rw [List.length_map] at this
      omega
    cases ids with
    | nil => rw [hperm.eq_nil]
    | cons id rest =>
      obtain rfl : rest = [] := List.eq_nil_of_length_eq_zero (by
        simp only [List.length_cons] at hshort
        omega)
      rw [List.perm_singleton.mp hperm]
  · have hif : ((arrived.flatMap blocks).isEmpty || decide (level.length<2)) = false := by
      simpa [hlen] using hempty
    rw [if_neg (Bool.eq_false_iff.mp hif)]
    refine sortByKey_flatMap (fun id => (rankIn id level 0).getD usizeMax) hperm ?_ ?_
    · refine List.Pairwise.sublist hsub ?_
      rw [List.pairwise_iff_getElem]
      intro i j hi hj hij
      simp only [List.length_map] at hi hj
      simp only [List.getElem_map,rankIn_getElem hnodup i 0 hi,rankIn_getElem hnodup j 0 hj]
      simpa using hij
    · intro id _ n hn
      simp [hblocks id n hn]

end order

section walk
variable {w : WalkEnv} {tree : Tree} {nodeLimit : Nat}

theorem getChildren_serves (hw : w.Serves tree) {t : Nat} {id : String} {ns : List WorkflowyNode}
    (h : getChildren w t id = .ok ns) : ns = tree.children (some id) := by
  unfold getChildren at h
  cases hl : w.listing t id with
  | error e => simp [hl,Except.map] at h
  | ok raw =>
    simp only [hl,Except.map,Except.ok.injEq] at h
    obtain rfl := hw.listing t id raw hl
    rw [← h,Tree.children]
    congr 1
    refine (List.map_congr_left fun n hn => ?_).trans (List.map_id _)
    have hp : n.parentId = some id := by simpa using (List.mem_filter.mp hn).2
    simp [fillParent,hp]

def blocks (tree : Tree) (id : String) : List WorkflowyNode := tree.children (some id)

/- Of the listings asked for, some arrived whole and the rest are still missing. -/
def Collects (tree : Tree) (got : List WorkflowyNode) (missing asked : List String) : Prop :=
  ∃ arrived, got = arrived.flatMap (blocks tree) ∧ (arrived++missing).Perm asked

theorem Collects.trans {got more : List WorkflowyNode} {missing still asked : List String}
    (h : Collects tree got missing asked) (h' : Collects tree more still missing) :
    Collects tree (got++more) still asked := by
  obtain ⟨xs,rfl,hx⟩ := h
  obtain ⟨ys,rfl,hy⟩ := h'
  refine ⟨xs++ys,by simp,?_⟩
  calc (xs++ys++still).Perm (xs++(ys++still)) := by rw [List.append_assoc]
    List.Perm _ (xs++missing) := hy.append_left xs
    List.Perm _ asked := hx

theorem drain_collects (hw : w.Serves tree) {outLen : Nat} {ids : List String} {d : Drain}
    (hstop : (drain w nodeLimit outLen ids d).stop = none) :
    ∃ got missing, (drain w nodeLimit outLen ids d).next = d.next++got ∧
      (drain w nodeLimit outLen ids d).skipped = d.skipped++missing ∧
      Collects tree got missing ids := by
  induction ids generalizing d with
  | nil => exact ⟨[],[],by simp [drain],by simp [drain],[],rfl,.refl _⟩
  | cons id ids ih =>
    unfold drain at hstop ⊢
    simp only at hstop ⊢
    split at hstop
    · rename_i hs
      simp [hstop] at hs
    rename_i hs
    split at hstop
    · simp at hstop
    rename_i hcap
    split at hstop
    · simp at hstop
    rename_i hstatus
    simp only [hs,hcap,Bool.false_eq_true,if_false]
    obtain ⟨got,missing,hnext,hskip,hcol⟩ := ih hstop
    rw [hnext,hskip]
    cases hr : getChildren w d.clock id with
    | ok children =>
      obtain ⟨arrived,rfl,hperm⟩ := hcol
      refine ⟨children++arrived.flatMap (blocks tree),missing,?_,?_,id::arrived,?_,hperm.cons id⟩
      · simp [Drain.receive,hr]
      · simp [Drain.receive,hr]
      · rw [getChildren_serves hw hr]
        rfl
    | error e =>
      have ha : e.isAbort = false := by
        by_contra ha
        rw [Bool.not_eq_false] at ha
        simp [Drain.receive,hr,ha] at hs
      obtain ⟨arrived,rfl,hperm⟩ := hcol
      refine ⟨_,id::missing,?_,?_,arrived,rfl,List.perm_middle.trans (hperm.cons id)⟩
      · simp [Drain.receive,hr,ha]
      · simp [Drain.receive,hr,ha]

theorem Settles.collects (hw : w.Serves tree) {asked failed : List String}
    {recovered : List WorkflowyNode} (h : Settles w asked recovered failed) :
    Collects tree recovered failed asked := by
  obtain ⟨got,hgot,rfl,hperm⟩ := h
  refine ⟨got.map Prod.fst,?_,hperm⟩
  rw [List.flatMap_map]
  refine List.flatMap_congr fun b hb => ?_
  obtain ⟨t,ht⟩ := hgot b hb
  exact getChildren_serves hw ht

/-- A level that stops nowhere brings in every listing, or loses branches. -/
theorem fetchLevel_collects (hw : w.Serves tree) {outLen : Nat} {s : WalkState}
    (hstop : (fetchLevel w nodeLimit outLen s).stop = none) :
    Collects tree
      ((fetchLevel w nodeLimit outLen s).next++
        (recoverLevel w (fetchLevel w nodeLimit outLen s)).recovered)
      (recoverLevel w (fetchLevel w nodeLimit outLen s)).failed
      (s.level.map WorkflowyNode.id) := by
  obtain ⟨got,missing,hnext,hmissing,arrived,harrived,hperm⟩ := drain_collects hw hstop
  have hgot : Collects tree (fetchLevel w nodeLimit outLen s).next
      (fetchLevel w nodeLimit outLen s).skipped (s.level.map WorkflowyNode.id) := by
    refine ⟨arrived,by simpa [fetchLevel,harrived] using hnext,?_⟩
    have hskip : (fetchLevel w nodeLimit outLen s).skipped = missing := by
      simpa [fetchLevel] using hmissing
    rw [hskip]
    exact hperm.trans (w.arrive_perm _ _)
  refine hgot.trans ?_
  unfold recoverLevel
  split
  · rename_i he
    rw [List.isEmpty_iff.mp he]
    exact ⟨[],rfl,.refl _⟩
  · exact (recoverSkippedBranches_settles w _ _ _).collects hw

/-- A level that loses no branch leads to the whole next level, in document order. -/
theorem levelPass_order (hw : w.Serves tree) {s s' : WalkState} (hne : s.level≠[])
    (hnodup : (s.level.map WorkflowyNode.id).Nodup) (h : levelPass w nodeLimit s = .inl s')
    (hskip : s'.skipped = []) : s'.out = s.out++s.level ∧ s'.level = tree.below s.level := by
  obtain ⟨-,-,hstop,rfl⟩ := levelPass_inl hne h
  obtain ⟨-,hfailed⟩ := List.append_eq_nil_iff.mp hskip
  refine ⟨rfl,?_⟩
  obtain ⟨arrived,harrived,hperm⟩ := fetchLevel_collects hw hstop
  simp only [hfailed,List.append_nil] at hperm
  simp only [harrived]
  have hparent : ∀ id, ∀ n∈blocks tree id, n.parentId = some id := fun id n hn =>
    (Tree.mem_children.mp hn).2
  rw [orderLevelByParent_sublist hnodup (.refl _) hperm hparent]
  simp [Tree.below,blocks,List.flatMap_map]

theorem withSkipped_reason {o : TruncationOutcome} {skipped : List String}
    (h : (o.withSkipped skipped).reason = none) : o.reason = none ∧ skipped = [] := by
  unfold TruncationOutcome.withSkipped at h
  split at h
  · rename_i hs
    exact ⟨h,List.isEmpty_iff.mp hs⟩
  · split at h
    · simp at h
    · rename_i hr
      exact absurd h (by simpa using hr)

/-- A pass that ends the walk gives a reason. -/
theorem levelPass_reason {s : WalkState} {r : Walked} (h : levelPass w nodeLimit s = .inr r) :
    r.outcome.reason≠none := by
  unfold levelPass at h
  split at h
  · cases h
    simp [TruncationOutcome.stopped]
  split at h
  · cases h
    simp [TruncationOutcome.stopped]
  simp only at h
  split at h
  · cases h
    intro hr
    simpa [TruncationOutcome.stopped] using (withSkipped_reason hr).1
  · cases h

theorem finishWalk_complete {s : WalkState}
    (hr : (finishWalk nodeLimit s).outcome.reason = none) :
    (finishWalk nodeLimit s).out = s.out++s.level ∧ s.skipped = [] := by
  unfold finishWalk at hr ⊢
  simp only at hr ⊢
  split at hr <;> rename_i hlt
  · simpa [TruncationOutcome.stopped] using (withSkipped_reason hr).1
  · simp only [hlt,if_false]
    exact ⟨trivial,(withSkipped_reason hr).2⟩

/-- A walk that gives no reason has lost no branch on the way. -/
theorem fetchDescendants_complete {left : Nat} {s : WalkState}
    (hr : (fetchDescendants w nodeLimit left s).outcome.reason = none) : s.skipped = [] := by
  induction left generalizing s with
  | zero => exact (finishWalk_complete hr).2
  | succ left ih =>
    unfold fetchDescendants at hr
    split at hr
    · exact (finishWalk_complete hr).2
    rename_i hempty
    have hne : s.level≠[] := fun h => hempty (List.isEmpty_iff.mpr h)
    cases hp : levelPass w nodeLimit s with
    | inr r =>
      simp only [hp] at hr
      exact absurd hr (levelPass_reason hp)
    | inl s' =>
      simp only [hp] at hr
      obtain ⟨-,-,-,rfl⟩ := levelPass_inl hne hp
      exact (List.append_eq_nil_iff.mp (ih hr)).1

theorem Tree.level_of_nil {root : Option String} {k : Nat} (h : tree.level root k = []) (j : Nat) :
    tree.level root (k+j) = [] := by
  induction j with
  | zero => exact h
  | succ j ih => simp [Tree.level,ih,Tree.below]

/-- From the level `k` on the walk collects that level and the `left` below it. -/
theorem fetchDescendants_order (hw : w.Serves tree) {root : Option String} {left k : Nat}
    {s : WalkState} (hlevel : s.level = tree.level root k)
    (hr : (fetchDescendants w nodeLimit left s).outcome.reason = none) :
    (fetchDescendants w nodeLimit left s).out =
      s.out++(List.range (left+1)).flatMap fun j => tree.level root (k+j) := by
  induction left generalizing s k with
  | zero =>
    rw [fetchDescendants,(finishWalk_complete hr).1,hlevel]
    simp
  | succ left ih =>
    unfold fetchDescendants at hr ⊢
    split at hr <;> rename_i hempty
    · have hnil : tree.level root k = [] := hlevel ▸ List.isEmpty_iff.mp hempty
      rw [if_pos hempty,(finishWalk_complete hr).1,hlevel,hnil]
      simp [Tree.level_of_nil hnil]
    · rw [if_neg hempty]
      cases hp : levelPass w nodeLimit s with
      | inr r =>
        simp only [hp] at hr
        exact absurd hr (levelPass_reason hp)
      | inl s' =>
        simp only [hp] at hr ⊢
        have hnodup : (s.level.map WorkflowyNode.id).Nodup := hlevel ▸ Tree.level_ids_nodup root k
        have hne : s.level≠[] := fun h => hempty (List.isEmpty_iff.mpr h)
        obtain ⟨hout,hnext⟩ := levelPass_order hw hne hnodup hp (fetchDescendants_complete hr)
        rw [ih (k := k+1) (by rw [hnext,hlevel]; rfl) hr,hout,hlevel,
          List.range_succ_eq_map (n := left+1)]
        simp [List.flatMap_map,Nat.add_assoc,Nat.add_comm 1]

/-- What the loop starts from: the root, if there is one, and its children. -/
theorem walkStart_serves (hw : w.Serves tree) {rootId : Option String} {s : WalkState}
    (h : walkStart w rootId nodeLimit = .ok (.inl s)) :
    s.out = (tree.nodes.filter fun n => some n.id = rootId) ∧ s.level = tree.level rootId 0 := by
  unfold walkStart at h
  split at h
  · cases h
  cases rootId with
  | none =>
    simp only at h
    cases ht : getTopLevelNodes w 1 with
    | error e =>
      simp only [ht] at h
      split at h <;> cases h
    | ok top =>
      simp only [ht,Except.ok.injEq,Sum.inl.injEq] at h
      subst h
      refine ⟨by simp,?_⟩
      unfold getTopLevelNodes at ht
      cases hl : w.topLevel 1 with
      | error e => simp [hl,Except.map] at ht
      | ok raw =>
        simp only [hl,Except.map,Except.ok.injEq] at ht
        rw [← ht,hw.topLevel 1 raw hl]
        rfl
  | some id =>
    simp only at h
    cases hn : w.node 1 id with
    | error e =>
      simp only [hn] at h
      split at h <;> cases h
    | ok root =>
      simp only [hn] at h
      split at h
      · cases h
      split at h
      · cases h
      cases hc : getChildren w 3 id with
      | error e =>
        simp only [hc] at h
        split at h <;> cases h
      | ok ns =>
        simp only [hc,Except.ok.injEq,Sum.inl.injEq] at h
        subst h
        obtain ⟨hmem,rfl⟩ := hw.node 1 id root hn
        exact ⟨(Tree.filter_id hmem).symm,getChildren_serves hw hc⟩

theorem walkStart_reason {rootId : Option String} {r : Walked}
    (h : walkStart w rootId nodeLimit = .ok (.inr r)) : r.outcome.reason≠none := by
  unfold walkStart at h
  repeat' split at h
  all_goals cases h
  all_goals simp [TruncationOutcome.stopped]

theorem fetch_docOrder (hw : w.Serves tree) {rootId : Option String} {maxDepth : Nat}
    {f : SubtreeFetch} (h : getSubtreeWithControls w rootId maxDepth nodeLimit = .ok f)
    (ht : f.truncated = false) : f.nodes = tree.docOrder rootId maxDepth := by
  unfold getSubtreeWithControls walk at h
  cases hs : walkStart w rootId nodeLimit with
  | error e => simp [hs,Except.map] at h
  | ok start =>
    simp only [hs,Except.map,Except.ok.injEq] at h
    subst h
    simp only [Walked.fetch,Bool.or_eq_false_iff,Option.isSome_eq_false_iff,
      Option.isNone_iff_eq_none] at ht
    cases start with
    | inr r => exact absurd ht.1 (walkStart_reason hs)
    | inl s =>
      obtain ⟨hout,hlevel⟩ := walkStart_serves hw hs
      simp [Walked.fetch,fetchDescendants_order hw hlevel ht.1,hout,Tree.docOrder]

end walk

/-- A subtree fetch that is not truncated is the depth-bounded subtree in breadth-first
document order, each node once. -/
theorem subtree_document_order {w : WalkEnv} {tree : Tree} (hw : w.Serves tree)
    (rootId : Option String) (maxDepth nodeLimit : Nat) {f : SubtreeFetch}
    (h : getSubtreeWithControls w rootId maxDepth nodeLimit = .ok f) (ht : f.truncated = false) :
    f.nodes = tree.docOrder rootId maxDepth ∧ (f.nodes.map WorkflowyNode.id).Nodup ∧
      ∀ n, n∈f.nodes ↔ tree.InSubtree rootId maxDepth n := by
  rw [fetch_docOrder hw h ht]
  exact ⟨rfl,Tree.docOrder_nodup rootId maxDepth,fun n => Tree.mem_docOrder⟩

/- Under `r` come `a` and then `b`, listed the other way round; `c` lies below `b`. -/
def smallTree : Tree where
  nodes := [{ id := "r" },{ id := "b", parentId := some "r", priority := some 2 },
    { id := "a", parentId := some "r", priority := some 1 },{ id := "c", parentId := some "b" },
    { id := "d", parentId := some "a" }]
  nodup := by decide
  rank id := if id = "r" then 0 else if id = "a" ∨ id = "b" then 1 else 2
  acyclic := by simp

theorem node_of_lookup {nodes : List WorkflowyNode} {id : String} {e : WorkflowyError}
    {n : WorkflowyNode} (h : (match nodes.find? fun n => n.id = id with
      | some n => Except.ok n
      | none => .error e) = .ok n) : n∈nodes ∧ n.id = id := by
  split at h
  · rename_i m hm
    cases h
    exact ⟨List.mem_of_find?_eq_some hm,by simpa using List.find?_some hm⟩
  · cases h

/-- Fetches complete in reverse, and those before the retry wave fail for `b`. -/
def reversedWalk : WalkEnv where
  node _ id :=
    match smallTree.nodes.find? fun n => n.id = id with
    | some n => .ok n
    | none => .error (.ApiError 404 "not found")
  topLevel _ := .ok (smallTree.nodes.filter fun n => n.parentId = none)
  listing t id :=
    if id = "b" ∧ t<12 then .error (.ApiError 429 "slow down")
    else .ok (smallTree.nodes.filter fun n => n.parentId = some id)
  arrive _ ids := ids.reverse
  arrive_perm _ ids := ids.reverse_perm
  status _ := none
  retryAfterRemainingMs _ := none
  fitsBudget _ _ := true
  anyOf _ ids := ids.head?
  patient := false

theorem reversedWalk_serves : reversedWalk.Serves smallTree where
  node t id n h := node_of_lookup h
  topLevel t ns h := by
    cases h
    rfl
  listing t id ns h := by
    simp only [reversedWalk] at h
    split at h
    · cases h
    · cases h
      rfl

/-- The level below comes out as `d` before `c`, though `c` arrives in a retry. -/
theorem reversedWalk_document_order :
    ∃ f, getSubtreeWithControls reversedWalk (some "r") 1 100 = .ok f ∧
      f.nodes = smallTree.docOrder (some "r") 1 ∧
      f.nodes.map WorkflowyNode.id = ["r","a","b","d","c"] :=
  ⟨_,rfl,(subtree_document_order reversedWalk_serves (some "r") 1 100 rfl rfl).1,by decide⟩

end WorkflowyMcp.SubtreeWalk
