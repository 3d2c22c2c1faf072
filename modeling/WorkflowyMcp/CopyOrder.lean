import WorkflowyMcp.DeepCopy
import WorkflowyMcp.WalkCap

/-! What a copy looks like to its reader: the order in which the children of each copied node
are displayed, and how many nodes a copy without children makes. -/
namespace WorkflowyMcp.DeepCopy
open SubtreeWalk

section display
variable (behind : List WorkflowyNode → WorkflowyNode → List WorkflowyNode)

/- Where the upstream puts a new child: without a priority before its siblings, otherwise where
   `behind` says, at the end or in the order of priorities. -/
def place (siblings : List WorkflowyNode) (n : WorkflowyNode) : List WorkflowyNode :=
  if n.priority = none then n::siblings else behind siblings n

/-- The children of a node as the upstream displays them, when `nodes` were created in turn. -/
def displayed (nodes : List WorkflowyNode) (id : String) : List WorkflowyNode :=
  (childrenOf nodes id).foldl (place behind) []

/-- Under the copy of each copied node the copies of its children stand in the order in which the
source displays the children. -/
def SameOrder (tree : Tree) (copies : List WorkflowyNode) (copyOf : WorkflowyNode → WorkflowyNode)
    (after : List WorkflowyNode) : Prop :=
  ∀ p∈copies, displayed behind after (copyOf p).id =
    ((tree.children (some p.id)).filter fun n => decide (n∈copies)).map copyOf

variable {behind}

theorem foldl_place {nodes : List WorkflowyNode} (h : ∀ n∈nodes, n.priority = none)
    (siblings : List WorkflowyNode) :
    nodes.foldl (place behind) siblings = nodes.reverse++siblings := by
  induction nodes generalizing siblings with
  | nil => rfl
  | cons n nodes ih =>
    have hn : place behind siblings n = n::siblings := if_pos (h n (by simp))
    rw [List.foldl_cons,hn,ih fun m hm => h m (by simp [hm])]
    simp

end display

/-- A list without repetitions is its own reverse only if it has at most one entry. -/
theorem reverse_eq_self_iff {l : List WorkflowyNode} (h : l.Nodup) :
    l.reverse = l ↔ l.length ≤ 1 := by
  cases l with
  | nil => simp
  | cons a l =>
    constructor
    · intro hrev
      cases hl : l.reverse with
      | nil =>
        rw [List.reverse_eq_nil_iff] at hl
        simp [hl]
      | cons b rest =>
        rw [List.reverse_cons,hl,List.cons_append,List.cons.injEq] at hrev
        have hb : b∈l := List.mem_reverse.mp (hl ▸ List.mem_cons_self)
        exact absurd (hrev.1 ▸ hb) (List.nodup_cons.mp h).1
    · intro hlen
      obtain rfl : l = [] := List.eq_nil_of_length_eq_zero (by
        simp only [List.length_cons] at hlen
        omega)
      rfl

section copy
variable {tree : Tree} {source target newRootId : String} {depth : Nat}
  {transform : WorkflowyNode → String × Option String} {before done nodes : List WorkflowyNode}
  {st : CopyState}

theorem level_sublist {root : Option String} {k : Nat} (hk : k ≤ depth) :
    (tree.level root k).Sublist (tree.docOrder root depth) := by
  have hmem : tree.level root k∈(List.range (depth+1)).map (tree.level root) :=
    List.mem_map_of_mem (List.mem_range.mpr (by omega))
  exact (List.sublist_flatten_of_mem hmem).trans (List.sublist_append_right _ _)

theorem children_sublist_below {p : WorkflowyNode} {level : List WorkflowyNode} (hp : p∈level) :
    (tree.children (some p.id)).Sublist (tree.below level) :=
  List.sublist_flatten_of_mem (List.mem_map_of_mem hp)

/-- The children of a fetched node were fetched in display order, or not at all. -/
theorem children_fetched {r p : WorkflowyNode} (hp : p∈tree.docOrder (some r.id) depth)
    (hr : r∈tree.nodes) :
    (tree.children (some p.id)).Sublist (tree.docOrder (some r.id) depth) ∨
      ∀ n∈tree.children (some p.id), n∉tree.docOrder (some r.id) depth := by
  rcases Tree.mem_docOrder.mp hp with ⟨hmem,hid⟩ | ⟨k,hk,hd⟩
  · obtain rfl := Tree.eq_of_id hmem hr (Option.some.inj hid)
    exact .inl (level_sublist (k := 0) (Nat.zero_le depth))
  by_cases hlast : k = depth
  · subst hlast
    refine .inr fun n hn hin => ?_
    obtain ⟨hmem,hpar⟩ := Tree.mem_children.mp hn
    have hdeep : tree.AtDepth (some r.id) (k+1) n := ⟨hmem,p,hd,hpar⟩
    rcases Tree.mem_docOrder.mp hin with ⟨-,hid⟩ | ⟨j,hj,hjd⟩
    · have hlt := hdeep.rank_lt
      rw [Option.some.inj hid] at hlt
      exact lt_irrefl _ hlt
    · have hjk := hjd.unique hdeep
      omega
  · have hlevel : (tree.children (some p.id)).Sublist (tree.level (some r.id) (k+1)) :=
      children_sublist_below (Tree.mem_level.mpr hd)
    exact .inl (hlevel.trans (level_sublist (k := k+1) (by omega)))

/-- The children of a node as the walk returns them stand in display order. -/
theorem childrenOf_docOrder {r p : WorkflowyNode} (hr : r∈tree.nodes)
    (hp : p∈tree.docOrder (some r.id) depth) :
    childrenOf (tree.docOrder (some r.id) depth) p.id =
      (tree.children (some p.id)).filter fun n =>
        decide (n∈tree.docOrder (some r.id) depth) := by
  rcases children_fetched hp hr with hsub | hnone
  · have hall : (tree.children (some p.id)).filter (fun n =>
        decide (n∈tree.docOrder (some r.id) depth)) = tree.children (some p.id) :=
      List.filter_eq_self.mpr fun n hn => by simpa using hsub.subset hn
    have hown : childrenOf (tree.children (some p.id)) p.id = tree.children (some p.id) :=
      List.filter_eq_self.mpr fun n hn => by simpa using (Tree.mem_children.mp hn).2
    have hkept : (tree.children (some p.id)).Sublist
        (childrenOf (tree.docOrder (some r.id) depth) p.id) := by
      rw [← hown]
      exact hsub.filter _
    have hsame : (tree.children (some p.id)).Perm
        (childrenOf (tree.docOrder (some r.id) depth) p.id) := by
      refine (List.perm_ext_iff_of_nodup (Tree.children_nodup _)
        (((Tree.docOrder_nodup _ _).of_map _).sublist (childrenOf_sublist _ _))).mpr fun n => ?_
      rw [mem_childrenOf,Tree.mem_children]
      constructor
      · exact fun hn => ⟨hsub.subset (Tree.mem_children.mpr hn),hn.2⟩
      · exact fun ⟨hn,hpar⟩ => ⟨Tree.docOrder_subset hn,hpar⟩
    rw [hall,hkept.eq_of_length hsame.length_eq]
  · have hnil : (tree.children (some p.id)).filter (fun n =>
        decide (n∈tree.docOrder (some r.id) depth)) = [] :=
      List.filter_eq_nil_iff.mpr fun n hn => by simpa using hnone n hn
    rw [hnil]
    refine List.eq_nil_iff_forall_not_mem.mpr fun n hn => ?_
    obtain ⟨hin,hpar⟩ := mem_childrenOf.mp hn
    exact hnone n (Tree.mem_children.mpr ⟨Tree.docOrder_subset hin,hpar⟩) hin

/-- What was created under the copy of a node: the copies of its children, in turn. -/
theorem Booked.childrenOf_copy (h : Booked transform source target newRootId before done st nodes)
    {p : WorkflowyNode} (hp : p∈done) (horphan : ∀ n∈done, n.id = source → n.parentId≠some p.id) :
    childrenOf nodes (image transform source target newRootId st p).id =
      (childrenOf done p.id).map (image transform source target newRootId st) := by
  obtain ⟨hfresh,htarget⟩ := h.fresh p hp
  have hold : childrenOf before (st.newId p.id) = [] :=
    List.filter_eq_nil_iff.mpr fun n hn => by simpa using (hfresh n hn).2
  have hparent : ∀ n∈done,
      (image transform source target newRootId st n).parentId = some (st.newId p.id) ↔
        n.parentId = some p.id := by
    intro n hn
    by_cases hid : n.id = source
    · have hne : n.parentId≠some p.id := horphan n hn hid
      simpa [image,hid,htarget] using hne
    · obtain ⟨q,hq,hpar⟩ := h.born n hn hid
      rw [image,if_neg hid,h.newParent hq hpar,hpar]
      constructor
      · intro he
        rw [List.inj_on_of_nodup_map h.distinct hq hp (Option.some.inj he)]
      · intro he
        rw [Option.some.inj he]
  calc childrenOf nodes (st.newId p.id)
      = childrenOf before (st.newId p.id)++
          childrenOf (done.map (image transform source target newRootId st)) (st.newId p.id) := by
        rw [h.nodes,childrenOf,List.filter_append]
        rfl
    _ = childrenOf (done.map (image transform source target newRootId st)) (st.newId p.id) := by
        rw [hold,List.nil_append]
    _ = (done.filter fun n => decide ((image transform source target newRootId st n).parentId =
          some (st.newId p.id))).map (image transform source target newRootId st) :=
        List.filter_map
    _ = (childrenOf done p.id).map (image transform source target newRootId st) :=
        congrArg _ (List.filter_congr fun n hn => decide_eq_decide.mpr (hparent n hn))

variable {behind : List WorkflowyNode → WorkflowyNode → List WorkflowyNode}

/-- The copies of the children are displayed from the last created to the first. -/
theorem Booked.displayed_copy (h : Booked transform source target newRootId before done st nodes)
    {p : WorkflowyNode} (hp : p∈done) (horphan : ∀ n∈done, n.id = source → n.parentId≠some p.id) :
    displayed behind nodes (image transform source target newRootId st p).id =
      ((childrenOf done p.id).map (image transform source target newRootId st)).reverse := by
  rw [displayed,h.childrenOf_copy hp horphan,foldl_place,List.append_nil]
  intro n hn
  obtain ⟨m,-,rfl⟩ := List.mem_map.mp hn
  rfl

end copy

/-- A copy that is made displays the children of every copied node in the order of the source
exactly when no copied node has two copied children. -/
theorem copy_order_iff {w : WalkEnv} {tree : Tree} (hw : w.Serves tree) (svc : Service)
    (u : Upstream) (ctx : WorkflowContext) {fuel : Nat} (hfuel : tree.nodes.length ≤ fuel)
    (behind : List WorkflowyNode → WorkflowyNode → List WorkflowyNode)
    (transform : WorkflowyNode → String × Option String) (source target : String) (depth : Nat)
    (truncationRefusalLabel notFoundLabel : String) :
    let r := (deepCopySubtree transform w fuel source target depth truncationRefusalLabel
      notFoundLabel ctx).run svc.serve u
    let copies := tree.docOrder (some source) depth
    (∃ e, r.1 = some (.error e)) ∨
    ∃ newRootId done st, r.1 = some (.ok (newRootId,st.createdCount,st.footprint)) ∧
      done.Perm copies ∧ Booked transform source target newRootId u.nodes done st r.2.nodes ∧
      (SameOrder behind tree copies (image transform source target newRootId st) r.2.nodes ↔
        ∀ p∈copies, ((tree.children (some p.id)).filter fun n => decide (n∈copies)).length ≤ 1) := by
  intro r copies
  rcases run_deepCopySubtree_booked hw svc u ctx hfuel transform source target depth
      truncationRefusalLabel notFoundLabel with
    ⟨e,he,-⟩ | ⟨newRootId,done,st,hok,hperm,hsiblings,hb⟩
  · exact .inl ⟨e,he⟩
  refine .inr ⟨newRootId,done,st,hok,hperm,hb,forall₂_congr fun p hp => ?_⟩
  have hpd : p∈done := hperm.mem_iff.mpr hp
  obtain ⟨root,hroot,hid,-⟩ := hb.root
  subst hid
  have hrmem : root∈tree.nodes := Tree.docOrder_subset (hperm.subset hroot)
  have horphan : ∀ n∈done, n.id = root.id → n.parentId≠some p.id := fun n hn hid => by
    have hnmem := Tree.docOrder_subset (hperm.subset hn)
    rw [Tree.eq_of_id hnmem hrmem hid]
    exact root_orphan hrmem (Tree.mem_docOrder.mp hp)
  have hchildren : childrenOf done p.id =
      (tree.children (some p.id)).filter fun n => decide (n∈copies) :=
    (hsiblings p hpd).trans (childrenOf_docOrder hrmem hp)
  rw [hb.displayed_copy hpd horphan,hchildren]
  have hcopies : ((childrenOf done p.id).map
      (image transform root.id target newRootId st)).Nodup := by
    refine List.Nodup.map_on (fun a ha b hb' h => ?_)
      ((hb.sources.of_map _).sublist (childrenOf_sublist _ _))
    have hsame : st.newId a.id = st.newId b.id := congrArg WorkflowyNode.id h
    exact List.inj_on_of_nodup_map hb.distinct ((childrenOf_sublist _ _).subset ha)
      ((childrenOf_sublist _ _).subset hb') hsame
  rw [hchildren] at hcopies
  rw [reverse_eq_self_iff hcopies,List.length_map]

/- A workspace with a target `home` and a source `r` that has the children `a` and `b`, listed
   the other way round. -/
def forkTree : Tree where
  nodes := [{ id := "home" },{ id := "r", name := "r" },
    { id := "b", name := "b", parentId := some "r", priority := some 2 },
    { id := "a", name := "a", parentId := some "r", priority := some 1 }]
  nodup := by decide
  rank id := if id = "r" then 0 else 1
  acyclic := by simp

/-- A chain is displayed like its source. -/
theorem chain_same_order :
    let r := (deepCopySubtree (prefixed "c" none) (answeringWalk (chainTree 2)) 4 "c" "home" 10
      "duplicate" "Node" {}).run lengthening.serve { nodes := chain 2 }
    let copies := (chainTree 2).docOrder (some "c") 10
    ∃ newRootId done st, r.1 = some (.ok (newRootId,st.createdCount,st.footprint)) ∧
      Booked (prefixed "c" none) "c" "home" newRootId (chain 2) done st r.2.nodes ∧
      SameOrder (fun l n => l++[n]) (chainTree 2) copies
        (image (prefixed "c" none) "c" "home" newRootId st) r.2.nodes := by
  intro r copies
  have hok : (r.1.bind Except.toOption).isSome := by decide +kernel
  rcases copy_order_iff (answeringWalk_serves (chainTree 2)) lengthening { nodes := chain 2 } {}
      (show (chainTree 2).nodes.length ≤ 4 by decide) (fun l n => l++[n]) (prefixed "c" none) "c"
      "home" 10 "duplicate" "Node" with
    ⟨e,he⟩ | ⟨newRootId,done,st,hrun,-,hb,hiff⟩
  · simp [r,he,Except.toOption] at hok
  · exact ⟨newRootId,done,st,hrun,hb,hiff.mpr (by decide +kernel)⟩

/-- The copy of `r` displays `b` before `a`. -/
theorem fork_reversed :
    let r := (deepCopySubtree (prefixed "r" none) (answeringWalk forkTree) 4 "r" "home" 10
      "duplicate" "Node" {}).run lengthening.serve { nodes := forkTree.nodes }
    ((r.1.bind Except.toOption).map fun out =>
        (displayed (fun l n => l++[n]) r.2.nodes out.1).map WorkflowyNode.name) =
      some ["b","a"] ∧
    (forkTree.children (some "r")).map WorkflowyNode.name = ["a","b"] := by
  decide +kernel

/-- One node was created, the copy of the source under the target. -/
def RootOnly (target : String) (before after : List WorkflowyNode) (out : DuplicateOutcome) : Prop :=
  out.nodesCreated = 1 ∧
    ∃ c : WorkflowyNode, after = before++[c] ∧ c.id = out.newRootId ∧ c.parentId = some target

section rootOnly
variable {w : WalkEnv} {tree : Tree} {source target newRootId : String}
  {transform : WorkflowyNode → String × Option String} {before done nodes : List WorkflowyNode}
  {st : CopyState}

/-- A walk of depth zero brings in the source and its children. -/
theorem docOrder_zero {r : WorkflowyNode} (hr : r∈tree.nodes) :
    tree.docOrder (some r.id) 0 = r::tree.children (some r.id) := by
  rw [Tree.docOrder,Tree.filter_id hr]
  simp [Tree.level]

theorem Booked.rootOnly_iff (h : Booked transform source target newRootId before done st nodes)
    (hdone : done.Perm (tree.docOrder (some source) 0)) :
    RootOnly target before nodes ⟨source,newRootId,st.createdCount⟩ ↔
      tree.children (some source) = [] := by
  obtain ⟨r,hr,rfl,hroot⟩ := h.root
  have hrmem : r∈tree.nodes := Tree.docOrder_subset (hdone.subset hr)
  rw [docOrder_zero hrmem] at hdone
  have hcount : st.createdCount = (tree.children (some r.id)).length+1 := by
    rw [h.count,hdone.length_eq,List.length_cons]
  constructor
  · rintro ⟨hone,-⟩
    have hone : st.createdCount = 1 := hone
    exact List.eq_nil_of_length_eq_zero (by omega)
  · intro hnil
    rw [hnil] at hdone hcount
    refine ⟨hcount,image transform r.id target newRootId st r,?_,?_,?_⟩
    · rw [h.nodes,List.perm_singleton.mp hdone]
      rfl
    · exact hroot
    · simp [image]

/-- A calm walk of depth zero of a childless node brings in the node alone. -/
theorem childless_fetch (hw : w.Serves tree) (hc : w.Calm (some source))
    (hnil : tree.children (some source) = []) :
    ∃ f, getSubtreeWithControls w (some source) 0 MAX_SUBTREE_NODES = .ok f ∧
      f.truncated = false ∧ ∃ n∈f.nodes, n.id = source := by
  obtain ⟨n,hn⟩ := hc.node 1 source rfl
  obtain ⟨hmem,hid⟩ := hw.node 1 source n hn
  refine ⟨⟨[n],false,MAX_SUBTREE_NODES,none,none,[]⟩,?_,rfl,n,by simp,hid⟩
  simp [getSubtreeWithControls,walk,walkStart,hc.status,hn,MAX_SUBTREE_NODES,
    getChildren_calm hw hc,hnil,Except.map,fetchDescendants,finishWalk,Walked.fetch,
    TruncationOutcome.withSkipped,TruncationOutcome.complete]

/-- A duplicate made without children is a copy of the source alone exactly when the source has
no children; and where no request fails, exactly then is such a copy made. -/
theorem root_only_iff (hw : w.Serves tree) (svc : Service) (u : Upstream) (ctx : WorkflowContext)
    {fuel : Nat} (hfuel : tree.nodes.length ≤ fuel) (source target : String)
    (namePrefix : Option String) :
    let r := (duplicateSubtree w fuel source target false namePrefix ctx).run svc.serve u
    (∀ out fp, r.1 = some (.ok (out,fp)) →
      (RootOnly target u.nodes r.2.nodes out ↔ tree.children (some source) = [])) ∧
    (w.Calm (some source) → Unhindered svc ctx → (findNode u.nodes target).isSome →
      ((∃ out fp, r.1 = some (.ok (out,fp)) ∧ RootOnly target u.nodes r.2.nodes out) ↔
        tree.children (some source) = [])) := by
  simp only [duplicateSubtree,Proc.bind_eq,Proc.run_bind,Bool.false_eq_true,if_false]
  rcases run_deepCopySubtree_booked hw svc u ctx hfuel (prefixed source namePrefix) source target 0
      "duplicate" "Node" with
    ⟨e,he,hsame⟩ | ⟨newRootId,done,st,hok,hperm,-,hb⟩
  · rw [he]
    refine ⟨fun out fp h => ?_,fun hc hun htarget => ?_⟩
    · cases h
    · refine iff_of_false ?_ fun hnil => ?_
      · rintro ⟨out,fp,h,-⟩
        cases h
      obtain ⟨f,hf,hwhole,n,hn,hid⟩ := childless_fetch hw hc hnil
      rcases (hsame hun htarget).2 f hf with hcut | hmissing
      · rw [hwhole] at hcut
        cases hcut
      · exact hmissing n hn hid
  · rw [hok]
    have hiff := hb.rootOnly_iff hperm
    refine ⟨fun out fp h => ?_,fun _ _ _ => ?_⟩
    · cases h
      exact hiff
    · refine Iff.trans ⟨?_,fun h => ⟨_,_,rfl,h⟩⟩ hiff
      rintro ⟨out,fp,h,honly⟩
      cases h
      exact honly

end rootOnly

/-- The last node of a chain is duplicated alone. -/
theorem leaf_root_only :
    let r := (duplicateSubtree (answeringWalk (chainTree 2)) 4 "ccc" "home" false none {}).run
      lengthening.serve { nodes := chain 2 }
    ∃ out fp, r.1 = some (.ok (out,fp)) ∧ RootOnly "home" (chain 2) r.2.nodes out :=
  ((root_only_iff (answeringWalk_serves (chainTree 2)) lengthening { nodes := chain 2 } {}
    (show (chainTree 2).nodes.length ≤ 4 by decide) "ccc" "home" none).2
    (answeringWalk_calm (r := { id := "ccc", name := "step", parentId := some "cc" }) (by decide))
    ⟨fun _ _ _ _ _ _ => rfl,fun _ => rfl,fun _ => rfl⟩ (by decide)).mpr (by decide +kernel)

/-- A source with two children: three nodes are created. -/
theorem fork_not_root_only :
    let r := (duplicateSubtree (answeringWalk forkTree) 4 "r" "home" false none {}).run
      lengthening.serve { nodes := forkTree.nodes }
    ((r.1.bind Except.toOption).map fun out => out.1.nodesCreated) = some 3 ∧
      r.2.nodes.length = forkTree.nodes.length+3 := by
  decide +kernel

end WorkflowyMcp.DeepCopy
