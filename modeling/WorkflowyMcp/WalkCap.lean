import WorkflowyMcp.WalkOrder

/-! The node cap of a walk whose every request is answered: the result never exceeds it, and
where the walk reports that it was hit. -/
namespace WorkflowyMcp.SubtreeWalk

/-- No request of the walk fails, and it is neither cancelled nor late. -/
structure WalkEnv.Calm (w : WalkEnv) (rootId : Option String) : Prop where
  status : ∀ t, w.status t = none
  node : ∀ t id, rootId = some id → ∃ n, w.node t id = .ok n
  topLevel : ∀ t, ∃ ns, w.topLevel t = .ok ns
  listing : ∀ t id, ∃ ns, w.listing t id = .ok ns

/-- The children of `root` and the `left` levels below, from the level `k` on. -/
def levelsFrom (tree : Tree) (root : Option String) (k left : Nat) : List WorkflowyNode :=
  (List.range (left+1)).flatMap fun j => tree.level root (k+j)

variable {w : WalkEnv} {tree : Tree} {rootId : Option String} {nodeLimit k left : Nat}

theorem levelsFrom_zero : levelsFrom tree rootId k 0 = tree.level rootId k := by
  simp [levelsFrom]

theorem levelsFrom_succ : levelsFrom tree rootId k (left+1) =
    tree.level rootId k++levelsFrom tree rootId (k+1) left := by
  simp only [levelsFrom]
  rw [List.range_succ_eq_map,List.flatMap_cons,List.flatMap_map]
  simp [Nat.add_assoc,Nat.add_comm 1]

theorem levelsFrom_of_nil (h : tree.level rootId k = []) (left : Nat) :
    levelsFrom tree rootId k left = [] := by
  simp [levelsFrom,Tree.level_of_nil h]

theorem getChildren_calm (hw : w.Serves tree) (hc : w.Calm rootId) (t : Nat) (id : String) :
    getChildren w t id = .ok (tree.children (some id)) := by
  obtain ⟨ns,hns⟩ := hc.listing t id
  have hr : getChildren w t id = .ok (sortChildrenByPriority (ns.map (fillParent id))) := by
    simp [getChildren,hns,Except.map]
  rw [hr,← getChildren_serves hw hr]

/- Where every listing comes in, only the cap stops the stream, and it does as soon as it is
   reached. -/
theorem drain_calm (hw : w.Serves tree) (hc : w.Calm rootId) (nodeLimit outLen : Nat)
    (ids : List String) {d : Drain} (hstop : d.stop = none) :
    let r := drain w nodeLimit outLen ids d
    r.skipped = d.skipped ∧
      (r.stop = none ∧ r.next = d.next++ids.flatMap (blocks tree) ∧
          (ids≠[] → outLen+r.next.length < nodeLimit) ∨
        r.stop = some .NodeLimit ∧ nodeLimit ≤ outLen+r.next.length ∧
          r.next.length ≤ d.next.length+(ids.flatMap (blocks tree)).length) := by
  induction ids generalizing d with
  | nil => exact ⟨rfl,.inl ⟨hstop,by simp [drain],by simp⟩⟩
  | cons id ids ih =>
    have hreply := getChildren_calm hw hc d.clock id
    have hnext : (d.receive w id).next = d.next++blocks tree id := by
      simp [Drain.receive,hreply,blocks]
    have hskip : (d.receive w id).skipped = d.skipped := by simp [Drain.receive,hreply]
    have hnone : (d.receive w id).stop = none := by simp [Drain.receive,hreply,hstop]
    intro r
    by_cases hcap : nodeLimit ≤ outLen+(d.receive w id).next.length
    · have hr : r = { d.receive w id with stop := some .NodeLimit } := by
        simp [r,drain,hnone,hcap]
      rw [hr]
      refine ⟨hskip,.inr ⟨rfl,hcap,?_⟩⟩
      simp only [hnext,List.length_append,List.flatMap_cons]
      omega
    · have hr : r = drain w nodeLimit outLen ids
          { d.receive w id with clock := (d.receive w id).clock+1 } := by
        simp [r,drain,hnone,hcap,hc.status]
      rw [hr]
      obtain ⟨hs,h⟩ := ih (d := { d.receive w id with clock := (d.receive w id).clock+1 }) hnone
      refine ⟨hs.trans hskip,?_⟩
      rcases h with ⟨hstop',hnext',hlt⟩ | ⟨hstop',hle,hlen⟩
      · refine .inl ⟨hstop',hnext'.trans (by simp [hnext]),fun _ => ?_⟩
        by_cases hids : ids = []
        · subst hids
          simp only [drain]
          omega
        · exact hlt hids
      · refine .inr ⟨hstop',hle,hlen.trans ?_⟩
        simp only [hnext,List.length_append,List.flatMap_cons]
        omega

/- A level that is not empty is fetched whole below the cap, or up to where it is reached. -/
theorem fetchLevel_calm (hw : w.Serves tree) (hc : w.Calm rootId) (nodeLimit outLen : Nat)
    {s : WalkState} (hne : s.level≠[]) :
    let d := fetchLevel w nodeLimit outLen s
    d.skipped = [] ∧
      (d.stop = none ∧ outLen+(tree.below s.level).length < nodeLimit ∨
        d.stop = some .NodeLimit ∧ nodeLimit ≤ outLen+(tree.below s.level).length) := by
  have hperm := w.arrive_perm (s.clock+1) (s.level.map WorkflowyNode.id)
  have hids : w.arrive (s.clock+1) (s.level.map WorkflowyNode.id)≠[] := fun h => by
    rw [h] at hperm
    exact hne (List.map_eq_nil_iff.mp hperm.symm.eq_nil)
  have hlength : ((w.arrive (s.clock+1) (s.level.map WorkflowyNode.id)).flatMap
      (blocks tree)).length = (tree.below s.level).length := by
    rw [(hperm.flatMap_right _).length_eq]
    simp [Tree.below,blocks,List.flatMap_map]
  obtain ⟨hskipped,h⟩ := drain_calm hw hc nodeLimit outLen
    (w.arrive (s.clock+1) (s.level.map WorkflowyNode.id))
    (d := { pending := s.level.map WorkflowyNode.id, clock := s.clock+2, log := s.log }) rfl
  refine ⟨hskipped,?_⟩
  rcases h with ⟨hstop,hnext,hlt⟩ | ⟨hstop,hle,hlen⟩
  · have hlt := hlt hids
    rw [hnext,List.nil_append,hlength] at hlt
    exact .inl ⟨hstop,hlt⟩
  · rw [hlength,List.length_nil] at hlen
    exact .inr ⟨hstop,by omega⟩

/- A pass over a level that is not empty: it goes on below the cap, and otherwise stops there
   and says so. -/
theorem levelPass_calm (hw : w.Serves tree) (hc : w.Calm rootId) {s : WalkState}
    (hne : s.level≠[]) (hskip : s.skipped = [])
    (hnodup : (s.level.map WorkflowyNode.id).Nodup) (hout : s.out.length ≤ nodeLimit) :
    match levelPass w nodeLimit s with
    | .inl s' => s'.out = s.out++s.level ∧ s'.level = tree.below s.level ∧ s'.skipped = [] ∧
        s.out.length+s.level.length+(tree.below s.level).length < nodeLimit
    | .inr r => r.outcome.reason = some .NodeLimit ∧ r.out.length ≤ nodeLimit ∧
        nodeLimit ≤ s.out.length+s.level.length+(tree.below s.level).length := by
  by_cases hfit : nodeLimit < s.out.length+s.level.length
  · obtain ⟨anchor,hpass⟩ := levelPass_over (w := w) hne hfit
    rw [hpass]
    refine ⟨rfl,?_,by omega⟩
    rw [List.length_append,List.length_take]
    omega
  have hfit := Nat.le_of_not_lt hfit
  have hlen : (s.out++s.level).length = s.out.length+s.level.length := List.length_append
  obtain ⟨hskipped,h⟩ := fetchLevel_calm hw hc nodeLimit (s.out++s.level).length hne
  rcases h with ⟨hstop,hlt⟩ | ⟨hstop,hle⟩
  · have hpass := levelPass_on hfit (hc.status s.clock) hstop
    have hclean : s.skipped++(recoverLevel w
        (fetchLevel w nodeLimit (s.out++s.level).length s)).failed = [] := by
      rw [recoverLevel,hskipped,hskip]
      rfl
    obtain ⟨hout',hlevel'⟩ := levelPass_order hw hne hnodup hpass hclean
    rw [hpass]
    exact ⟨hout',hlevel',hclean,by omega⟩
  · obtain ⟨anchor,hpass⟩ := levelPass_stop hfit (hc.status s.clock) hstop
    rw [hpass]
    refine ⟨TruncationOutcome.reason_stopped .NodeLimit anchor _,?_,by omega⟩
    rw [List.length_append,List.length_take]
    omega

theorem finishWalk_capped {s : WalkState} (hskip : s.skipped = [])
    (hout : s.out.length ≤ nodeLimit) :
    (finishWalk nodeLimit s).out.length ≤ nodeLimit ∧
      ((finishWalk nodeLimit s).outcome.reason = some .NodeLimit ↔
        nodeLimit < s.out.length+s.level.length) := by
  unfold finishWalk
  simp only
  split
  · refine ⟨?_,iff_of_true (TruncationOutcome.reason_stopped .NodeLimit _ _) (by omega)⟩
    rw [List.length_append,List.length_take]
    omega
  · refine ⟨by rw [List.length_append]; omega,iff_of_false ?_ (by omega)⟩
    simp [TruncationOutcome.withSkipped,TruncationOutcome.complete,hskip]

/-- Below the cap the walk reports it hit when the levels reach it, or, where only the last level
is left, when they exceed it. -/
theorem fetchDescendants_capped (hw : w.Serves tree) (hc : w.Calm rootId) (left : Nat)
    {s : WalkState}
    (hlevel : s.level = tree.level rootId k) (hskip : s.skipped = [])
    (hout : s.out.length < nodeLimit) :
    (fetchDescendants w nodeLimit left s).out.length ≤ nodeLimit ∧
      ((fetchDescendants w nodeLimit left s).outcome.reason = some .NodeLimit ↔
        if left = 0 then nodeLimit < s.out.length+(levelsFrom tree rootId k left).length
        else nodeLimit ≤ s.out.length+(levelsFrom tree rootId k left).length) := by
  induction left generalizing s k with
  | zero => simpa [fetchDescendants,levelsFrom_zero,hlevel] using finishWalk_capped hskip hout.le
  | succ left ih =>
    rw [if_neg (Nat.succ_ne_zero left)]
    by_cases hne : s.level = []
    · have hfinish := finishWalk_capped hskip hout.le
      have hnil := levelsFrom_of_nil (hlevel ▸ hne) (left+1)
      rw [fetchDescendants,hne,hnil]
      rw [hne] at hfinish
      exact ⟨hfinish.1,hfinish.2.trans (iff_of_false (by simpa using hout.le) (by simpa using hout))⟩
    have hempty : s.level.isEmpty = false := by simpa using hne
    have hnodup : (s.level.map WorkflowyNode.id).Nodup := hlevel ▸ Tree.level_ids_nodup rootId k
    have hbelow : tree.below s.level = tree.level rootId (k+1) := by rw [hlevel]; rfl
    have htotal : (levelsFrom tree rootId k (left+1)).length =
        s.level.length+(levelsFrom tree rootId (k+1) left).length := by
      rw [levelsFrom_succ,List.length_append,hlevel]
    have hpass := levelPass_calm hw hc hne hskip hnodup hout.le
    rw [fetchDescendants,hempty]
    cases hp : levelPass w nodeLimit s with
    | inr r =>
      rw [hp] at hpass
      obtain ⟨hreason,hlen,hle⟩ := hpass
      have hfirst : (tree.level rootId (k+1)).length ≤
          (levelsFrom tree rootId (k+1) left).length := by
        cases left with
        | zero => rw [levelsFrom_zero]
        | succ left =>
          rw [levelsFrom_succ,List.length_append]
          omega
      rw [hbelow] at hle
      exact ⟨hlen,iff_of_true hreason (by omega)⟩
    | inl s' =>
      rw [hp] at hpass
      obtain ⟨hout',hlevel',hskip',hlt⟩ := hpass
      have hlen' : s'.out.length = s.out.length+s.level.length := by
        rw [hout',List.length_append]
      obtain ⟨hle,hiff⟩ := ih (hlevel'.trans hbelow) hskip' (by omega)
      refine ⟨hle,hiff.trans ?_⟩
      rw [hbelow] at hlt
      split
      · rename_i hzero
        subst hzero
        rw [levelsFrom_zero] at htotal ⊢
        omega
      · omega

/-- A walk of a tree that does not change, with every request answered, returns no more nodes
than its cap, and reports the cap exactly when the subtree is larger: unless the subtree is of
just that size and a level is fetched below the children of the root, or only the root fits. -/
theorem node_limit_exact_iff (hw : w.Serves tree) (hc : w.Calm rootId) (maxDepth : Nat)
    (hlimit : 1 ≤ nodeLimit) :
    (∃ f, getSubtreeWithControls w rootId maxDepth nodeLimit = .ok f ∧
      f.nodes.length ≤ nodeLimit ∧ (f.truncationReason = some .NodeLimit ↔
        nodeLimit < (tree.docOrder rootId maxDepth).length)) ↔
      ((tree.docOrder rootId maxDepth).length≠nodeLimit ∨
        maxDepth = 0 ∧ (rootId = none ∨ nodeLimit≠1)) := by
  have hdoc : tree.docOrder rootId maxDepth =
      (tree.nodes.filter fun n => some n.id = rootId)++levelsFrom tree rootId 0 maxDepth := by
    simp [Tree.docOrder,levelsFrom]
  -- below the cap the walk gets to its loop, from the root and its children
  have hloop : ∀ s, walkStart w rootId nodeLimit = .ok (.inl s) → s.skipped = [] →
      s.out.length < nodeLimit →
      ((∃ f, getSubtreeWithControls w rootId maxDepth nodeLimit = .ok f ∧
        f.nodes.length ≤ nodeLimit ∧ (f.truncationReason = some .NodeLimit ↔
          nodeLimit < (tree.docOrder rootId maxDepth).length)) ↔
        ((tree.docOrder rootId maxDepth).length≠nodeLimit ∨ maxDepth = 0)) := by
    intro s hs hskip hout
    obtain ⟨hroot,hlevel⟩ := walkStart_serves hw hs
    obtain ⟨hle,hiff⟩ := fetchDescendants_capped hw hc maxDepth hlevel hskip hout
    have hlen : (tree.docOrder rootId maxDepth).length =
        s.out.length+(levelsFrom tree rootId 0 maxDepth).length := by
      rw [hdoc,List.length_append,hroot]
    rw [← hlen] at hiff
    simp only [getSubtreeWithControls,walk,hs,Except.map,Except.ok.injEq,exists_eq_left',
      Walked.fetch,hle,hiff,true_and]
    split
    · rename_i hzero
      simp [hzero]
    · rename_i hpos
      simp only [hpos,or_false]
      omega
  cases rootId with
  | none =>
    obtain ⟨ns,hns⟩ := hc.topLevel 1
    have hstart : walkStart w none nodeLimit = .ok (.inl
        { out := [], level := sortChildrenByPriority ns, clock := 2 }) := by
      simp [walkStart,hc.status,getTopLevelNodes,hns,Except.map]
    simpa using hloop _ hstart rfl (by simp only [List.length_nil]; omega)
  | some id =>
    obtain ⟨root,hn⟩ := hc.node 1 id rfl
    obtain ⟨hmem,rfl⟩ := hw.node 1 id root hn
    by_cases hone : nodeLimit ≤ 1
    · obtain rfl : nodeLimit = 1 := by omega
      have hwalk : getSubtreeWithControls w (some root.id) maxDepth 1 =
          .ok (Walked.fetch 1 ⟨.stopped .NodeLimit (some root.id),[root],2,[]⟩) := by
        simp [getSubtreeWithControls,walk,walkStart,hc.status,hn,Except.map]
      have hpos : 1 ≤ (tree.docOrder (some root.id) maxDepth).length := by
        rw [hdoc,Tree.filter_id hmem]
        simp
      simp only [hwalk,Except.ok.injEq,exists_eq_left',Walked.fetch,List.length_singleton,le_refl,
        true_and,TruncationOutcome.stopped,true_iff]
      simp
      omega
    · have hstart : walkStart w (some root.id) nodeLimit = .ok (.inl
          { out := [root], level := tree.children (some root.id), clock := 4 }) := by
        simp [walkStart,hc.status,hn,hone,getChildren_calm hw hc]
      have h := hloop _ hstart rfl (by simp only [List.length_singleton]; omega)
      rw [h]
      have hne : nodeLimit≠1 := by omega
      simp [hne]

/- Every request is answered at once, the children of a level from its last parent to its first. -/
def answeringWalk (tree : Tree) : WalkEnv where
  node _ id :=
    match tree.nodes.find? fun n => n.id = id with
    | some n => .ok n
    | none => .error (.ApiError 404 "not found")
  topLevel _ := .ok (tree.nodes.filter fun n => n.parentId = none)
  listing _ id := .ok (tree.nodes.filter fun n => n.parentId = some id)
  arrive _ ids := ids.reverse
  arrive_perm _ ids := ids.reverse_perm
  status _ := none
  retryAfterRemainingMs _ := none
  fitsBudget _ _ := true
  anyOf _ ids := ids.head?
  patient := false

theorem answeringWalk_serves (tree : Tree) : (answeringWalk tree).Serves tree where
  node t id n h := node_of_lookup h
  topLevel t ns h := by
    cases h
    rfl
  listing t id ns h := by
    cases h
    rfl

theorem answeringWalk_calm {r : WorkflowyNode} (hr : r∈tree.nodes) :
    (answeringWalk tree).Calm (some r.id) where
  status _ := rfl
  node t id h := by
    obtain rfl : r.id = id := by simpa using h
    have hsome : (tree.nodes.find? fun n => n.id = r.id).isSome := by
      rw [List.find?_isSome]
      exact ⟨r,hr,by simp⟩
    obtain ⟨n,hn⟩ := Option.isSome_iff_exists.mp hsome
    exact ⟨n,by simp [answeringWalk,hn]⟩
  topLevel _ := ⟨_,rfl⟩
  listing _ _ := ⟨_,rfl⟩

/-- Four nodes of the five are returned, and the walk says that it was cut. -/
theorem smallTree_cut :
    ∃ f, getSubtreeWithControls (answeringWalk smallTree) (some "r") 1 4 = .ok f ∧
      f.nodes.length ≤ 4 ∧ (f.truncationReason = some .NodeLimit ↔
        4 < (smallTree.docOrder (some "r") 1).length) :=
  (node_limit_exact_iff (answeringWalk_serves smallTree)
    (answeringWalk_calm (r := { id := "r" }) (by decide)) 1 (by decide)).mpr (.inl (by decide))

/-- All five nodes fit under the cap and are returned, and the walk still reports it hit. -/
theorem smallTree_fits :
    ∃ f, getSubtreeWithControls (answeringWalk smallTree) (some "r") 1 5 = .ok f ∧
      f.nodes = smallTree.docOrder (some "r") 1 ∧ f.nodes.length = 5 ∧
      f.truncationReason = some .NodeLimit ∧
      ¬(f.truncationReason = some .NodeLimit ↔ 5 < (smallTree.docOrder (some "r") 1).length) :=
  ⟨_,rfl,by decide⟩

end WorkflowyMcp.SubtreeWalk
