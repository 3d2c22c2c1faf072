import WorkflowyMcp.Lib.Blocks
import WorkflowyMcp.WalkCap
import WorkflowyMcp.WalkLog

/-! A walk that is cut short and the document order: where the cut leaves a prefix of it. -/
namespace WorkflowyMcp.SubtreeWalk
variable {w : WalkEnv} {tree : Tree} {rootId : Option String} {nodeLimit outLen k left : Nat}

/- The listings that come in before the stream of a level is stopped, by an abort, the cap or
   the status; `taken` nodes of the next level have come in before. -/
def answered (w : WalkEnv) (nodeLimit outLen : Nat) : List String → Nat → Nat → List String
  | [],_,_ => []
  | id::ids,clock,taken =>
    match getChildren w clock id with
    | .ok children =>
      id::(if nodeLimit ≤ outLen+(taken+children.length) || (w.status (clock+1)).isSome then []
        else answered w nodeLimit outLen ids (clock+2) (taken+children.length))
    | .error e =>
      if e.isAbort || decide (nodeLimit ≤ outLen+taken) || (w.status (clock+1)).isSome then []
      else answered w nodeLimit outLen ids (clock+2) taken

/-- The parents of a level whose listings came in before it was stopped. -/
def cameIn (w : WalkEnv) (nodeLimit : Nat) (s : WalkState) : List String :=
  answered w nodeLimit (s.out.length+s.level.length)
    (w.arrive (s.clock+1) (s.level.map WorkflowyNode.id)) (s.clock+2) 0

/- At a level whose stream is stopped, no listing that holds anything is missing before one
   that came in and holds anything, while there is room. -/
def Gapless (w : WalkEnv) (tree : Tree) (nodeLimit : Nat) : Nat → WalkState → Prop
  | 0,_ => True
  | left+1,s => s.level≠[] →
    (¬Cut w nodeLimit s → (levelPass w nodeLimit s).isRight →
      Blocks.Gapless (fun n => tree.children (some n.id))
        (fun n => decide (n.id∈cameIn w nodeLimit s))
        (nodeLimit-(s.out.length+s.level.length)) s.level) ∧
    ∀ s', levelPass w nodeLimit s = .inl s' → Gapless w tree nodeLimit left s'

theorem drain_answered (hw : w.Serves tree) (nodeLimit outLen : Nat) (ids : List String)
    {d : Drain} (hstop : d.stop = none) :
    (drain w nodeLimit outLen ids d).next = d.next++
        (answered w nodeLimit outLen ids d.clock d.next.length).flatMap (blocks tree) ∧
      (answered w nodeLimit outLen ids d.clock d.next.length).Sublist ids := by
  induction ids generalizing d with
  | nil => exact ⟨by simp [drain,answered],.refl _⟩
  | cons id ids ih =>
    obtain ⟨next,_,skipped,pending,lastUnfinished,clock,log⟩ := d
    subst hstop
    unfold drain answered
    cases hr : getChildren w clock id with
    | ok children =>
      obtain rfl : children = blocks tree id := getChildren_serves hw hr
      simp only [Drain.receive,hr,Option.isSome_none,Bool.false_eq_true,if_false,List.length_append]
      by_cases hcap : nodeLimit ≤ outLen+(next.length+(blocks tree id).length)
      · simp [hcap]
      · cases hs : w.status (clock+1) with
        | some status => simp [hcap]
        | none =>
          obtain ⟨hnext,hsub⟩ := ih (d := ⟨next++blocks tree id,none,skipped,
            pending.filter (·≠id),lastUnfinished,clock+2,log++[⟨id,.ok⟩]⟩) rfl
          simp only [List.length_append] at hnext hsub
          simp only [hcap,decide_false,Option.isSome_none,Bool.or_self,Bool.false_eq_true,if_false]
          refine ⟨hnext.trans ?_,hsub.cons_cons id⟩
          rw [List.flatMap_cons,List.append_assoc]
    | error e =>
      by_cases ha : e.isAbort
      · simp [Drain.receive,hr,ha]
      · simp only [Drain.receive,hr,Option.isSome_none,Bool.false_eq_true,if_false,ha,Bool.false_or]
        by_cases hcap : nodeLimit ≤ outLen+next.length
        · simp [hcap]
        · cases hs : w.status (clock+1) with
          | some status => simp [hcap]
          | none =>
            obtain ⟨hnext,hsub⟩ := ih (d := ⟨next,none,skipped++[id],pending.filter (·≠id),
              lastUnfinished,clock+2,log++[⟨id,.failed⟩]⟩) rfl
            simp only [hcap,decide_false,Option.isSome_none,Bool.or_self,Bool.false_eq_true,
              if_false,fetched,ha]
            exact ⟨hnext,hsub.cons id⟩

variable {s s' : WalkState}

/-- A level put in order after a stop: the listings that came in, parent by parent. -/
theorem next_came_in (hw : w.Serves tree) (hnodup : (s.level.map WorkflowyNode.id).Nodup) :
    orderLevelByParent (fetchLevel w nodeLimit (s.out++s.level).length s).next s.level =
      Blocks.held (fun n => tree.children (some n.id))
        (fun n => decide (n.id∈cameIn w nodeLimit s)) s.level := by
  have hperm := w.arrive_perm (s.clock+1) (s.level.map WorkflowyNode.id)
  obtain ⟨hnext,hsub⟩ := drain_answered hw nodeLimit
    (s.out++s.level).length (w.arrive (s.clock+1) (s.level.map WorkflowyNode.id))
    (d := { pending := s.level.map WorkflowyNode.id, clock := s.clock+2, log := s.log }) rfl
  have hsub : (cameIn w nodeLimit s).Sublist
      (w.arrive (s.clock+1) (s.level.map WorkflowyNode.id)) := by
    rwa [List.length_append] at hsub
  have hcame : (fetchLevel w nodeLimit (s.out++s.level).length s).next =
      (cameIn w nodeLimit s).flatMap (blocks tree) := by
    refine hnext.trans ?_
    rw [List.nil_append,List.length_append]
    rfl
  have hset : (cameIn w nodeLimit s).Perm
      ((s.level.filter fun n => decide (n.id∈cameIn w nodeLimit s)).map WorkflowyNode.id) := by
    refine (List.perm_ext_iff_of_nodup ((hperm.nodup_iff.mpr hnodup).sublist hsub)
      (hnodup.sublist (List.filter_sublist.map _))).mpr fun id => ?_
    constructor
    · intro hid
      obtain ⟨n,hn,rfl⟩ := List.mem_map.mp (hperm.subset (hsub.subset hid))
      exact List.mem_map_of_mem (List.mem_filter.mpr ⟨hn,by simpa using hid⟩)
    · intro hid
      obtain ⟨n,hn,rfl⟩ := List.mem_map.mp hid
      simpa using (List.mem_filter.mp hn).2
  have hparent : ∀ id, ∀ n∈blocks tree id, n.parentId = some id := fun id n hn =>
    (Tree.mem_children.mp hn).2
  rw [hcame,orderLevelByParent_sublist hnodup (List.filter_sublist.map _) hset hparent,
    List.flatMap_map]
  rfl

/-- A pass leads from a level to children of its nodes. -/
theorem levelPass_children (hw : w.Serves tree) (hne : s.level≠[])
    (h : levelPass w nodeLimit s = .inl s') :
    ∀ n∈s'.level, ∃ p∈s.level, n∈tree.children (some p.id) := by
  obtain ⟨-,-,hstop,rfl⟩ := levelPass_inl hne h
  intro n hn
  obtain ⟨arrived,harrived,hasked⟩ := fetchLevel_collects hw hstop
  have hn := (orderLevelByParent_perm _ _).subset hn
  rw [harrived] at hn
  obtain ⟨id,hid,hn⟩ := List.mem_flatMap.mp hn
  obtain ⟨p,hp,rfl⟩ := List.mem_map.mp (hasked.subset (List.mem_append_left _ hid))
  exact ⟨p,hp,hn⟩

theorem finishWalk_log (nodeLimit : Nat) (s : WalkState) : (finishWalk nodeLimit s).log = s.log := by
  unfold finishWalk
  simp only
  split <;> rfl

/-- A branch lost above the levels still to be walked stays lost. -/
theorem fetchDescendants_unrecovered (hw : w.Serves tree) (nodeLimit left : Nat) {x : String}
    (hlevel : ∀ n∈s.level, tree.AtDepth rootId k n) (hx : x∈unrecovered s.log)
    (hno : ∀ j n, tree.AtDepth rootId (k+j) n → n.id≠x) :
    x∈unrecovered (fetchDescendants w nodeLimit left s).log := by
  have hother : ∀ (s : WalkState) k, (∀ n∈s.level, tree.AtDepth rootId k n) →
      (∀ j n, tree.AtDepth rootId (k+j) n → n.id≠x) → x∉s.level.map WorkflowyNode.id := by
    intro s k hlevel hno hmem
    obtain ⟨n,hn,rfl⟩ := List.mem_map.mp hmem
    exact hno 0 n (hlevel n hn) rfl
  induction left generalizing s k with
  | zero => rwa [fetchDescendants,finishWalk_log]
  | succ left ih =>
    unfold fetchDescendants
    split
    · rwa [finishWalk_log]
    rename_i hempty
    have hne : s.level≠[] := fun h => hempty (List.isEmpty_iff.mpr h)
    cases hp : levelPass w nodeLimit s with
    | inr r => exact (levelPass_stopped_log hne hp).unrecovered hx (hother s k hlevel hno)
    | inl s' =>
      have hlevel' : ∀ n∈s'.level, tree.AtDepth rootId (k+1) n := fun n hn => by
        obtain ⟨p,hpl,hc⟩ := levelPass_children hw hne hp n hn
        obtain ⟨hmem,hpar⟩ := Tree.mem_children.mp hc
        exact ⟨hmem,p,hlevel p hpl,hpar⟩
      refine ih hlevel' ((levelPass_log hne hp).unrecovered hx (hother s k hlevel hno)) ?_
      exact fun j n hn => hno (1+j) n (by rwa [← Nat.add_assoc])

/-- A pass of a walk that loses no branch loses none. -/
theorem levelPass_lossless (hw : w.Serves tree) (hne : s.level≠[])
    (hlevel : s.level = tree.level rootId k) (hskip : s.skipped = [])
    (hp : levelPass w nodeLimit s = .inl s')
    (hlost : unrecovered (fetchDescendants w nodeLimit left s').log = []) : s'.skipped = [] := by
  have hdepth : ∀ n∈s.level, tree.AtDepth rootId k n := fun n hn =>
    Tree.mem_level.mp (hlevel ▸ hn)
  have hnodup : (s.level.map WorkflowyNode.id).Nodup := hlevel ▸ Tree.level_ids_nodup rootId k
  have hbelow : ∀ n∈s'.level, tree.AtDepth rootId (k+1) n := fun n hn => by
    obtain ⟨p,hpl,hc⟩ := levelPass_children hw hne hp n hn
    obtain ⟨hmem,hpar⟩ := Tree.mem_children.mp hc
    exact ⟨hmem,p,hdepth p hpl,hpar⟩
  obtain ⟨-,-,hstop,rfl⟩ := levelPass_inl hne hp
  obtain ⟨arrived,-,hasked⟩ := fetchLevel_collects hw hstop
  have hall := recoverLevel_lost w nodeLimit (s.out++s.level).length hnodup
  rw [hskip,List.nil_append]
  refine List.eq_nil_iff_forall_not_mem.mpr fun x hx => ?_
  obtain ⟨m,hm,rfl⟩ := List.mem_map.mp (hasked.subset (List.mem_append_right _ hx))
  have hkept := fetchDescendants_unrecovered hw nodeLimit left hbelow
    (hall _ hx) fun j n hn hid => by
      have hsame : n = m := Tree.eq_of_id hn.mem (hdepth m hm).mem hid
      subst hsame
      have hjk := hn.unique (hdepth n hm)
      omega
  rw [hlost] at hkept
  cases hkept

theorem prefix_levelsFrom (tree : Tree) (rootId : Option String) (k left : Nat) :
    tree.level rootId k <+: levelsFrom tree rootId k left := by
  cases left with
  | zero => rw [levelsFrom_zero]
  | succ left =>
    rw [levelsFrom_succ]
    exact List.prefix_append _ _

theorem prefix_finishWalk (nodeLimit left : Nat) (hlevel : s.level = tree.level rootId k) :
    (finishWalk nodeLimit s).out <+: s.out++levelsFrom tree rootId k left := by
  have hwhole : s.out++s.level <+: s.out++levelsFrom tree rootId k left := by
    rw [List.prefix_append_right_inj,hlevel]
    exact prefix_levelsFrom tree rootId k left
  unfold finishWalk
  simp only
  split
  · exact ((List.prefix_append_right_inj s.out).mpr (List.take_prefix _ _)).trans hwhole
  · exact hwhole

/-- A pass that stops at a whole level leaves a prefix, or stops before a gap. -/
theorem levelPass_prefix_iff (hw : w.Serves tree) (hne : s.level≠[])
    (hlevel : s.level = tree.level rootId k) {r : Walked} (hp : levelPass w nodeLimit s = .inr r) :
    r.out <+: s.out++levelsFrom tree rootId k (left+1) ↔ (¬Cut w nodeLimit s →
      Blocks.Gapless (fun n => tree.children (some n.id))
        (fun n => decide (n.id∈cameIn w nodeLimit s))
        (nodeLimit-(s.out.length+s.level.length)) s.level) := by
  have hnodup : (s.level.map WorkflowyNode.id).Nodup := hlevel ▸ Tree.level_ids_nodup rootId k
  have hwhole : s.out++s.level <+: s.out++levelsFrom tree rootId k (left+1) := by
    rw [List.prefix_append_right_inj,hlevel]
    exact prefix_levelsFrom tree rootId k (left+1)
  by_cases hfit : nodeLimit < s.out.length+s.level.length
  · obtain ⟨anchor,hover⟩ := levelPass_over (w := w) hne hfit
    rw [hover] at hp
    cases hp
    refine iff_of_true ?_ fun hcut => absurd (.inl hfit) hcut
    exact ((List.prefix_append_right_inj s.out).mpr (List.take_prefix _ _)).trans hwhole
  have hfit := Nat.le_of_not_lt hfit
  cases hs : w.status s.clock with
  | some status =>
    rw [levelPass_status hfit hs] at hp
    cases hp
    exact iff_of_true hwhole fun hcut => absurd (.inr (by rw [hs]; rfl)) hcut
  | none =>
    have hcut : ¬Cut w nodeLimit s := by
      simp only [Cut,hs,Option.isSome_none,Bool.false_eq_true,or_false]
      omega
    cases hstop : (fetchLevel w nodeLimit (s.out++s.level).length s).stop with
    | none =>
      rw [levelPass_on hfit hs hstop] at hp
      cases hp
    | some reason =>
      obtain ⟨anchor,hstopped⟩ := levelPass_stop hfit hs hstop
      rw [hstopped] at hp
      cases hp
      have hbelow : s.level.flatMap (fun n => tree.children (some n.id)) =
          tree.level rootId (k+1) := by
        rw [hlevel]
        rfl
      have hfull : s.out++levelsFrom tree rootId k (left+1) =
          s.out++s.level++levelsFrom tree rootId (k+1) left := by
        rw [levelsFrom_succ,hlevel,List.append_assoc]
      have hnext : (s.level.flatMap fun n => tree.children (some n.id)).Nodup :=
        hbelow ▸ Tree.level_nodup rootId (k+1)
      rw [hfull,List.prefix_append_right_inj,next_came_in hw hnodup,List.length_append]
      simp only [hcut,not_false_eq_true,true_imp_iff]
      rw [← Blocks.take_held_prefix_iff hnext,hbelow]
      constructor
      · intro h
        refine List.prefix_of_prefix_length_le h (prefix_levelsFrom tree rootId (k+1) left) ?_
        rw [← hbelow]
        exact ((List.take_sublist _ _).trans (Blocks.held_sublist _)).length_le
      · exact fun h => h.trans (prefix_levelsFrom tree rootId (k+1) left)

theorem fetchDescendants_prefix_iff (hw : w.Serves tree) (hlevel : s.level = tree.level rootId k)
    (hskip : s.skipped = []) (hlost : unrecovered (fetchDescendants w nodeLimit left s).log = []) :
    (fetchDescendants w nodeLimit left s).out <+: s.out++levelsFrom tree rootId k left ↔
      Gapless w tree nodeLimit left s := by
  induction left generalizing s k with
  | zero => exact iff_of_true (prefix_finishWalk nodeLimit 0 hlevel) trivial
  | succ left ih =>
    unfold fetchDescendants at hlost ⊢
    unfold Gapless
    by_cases hne : s.level = []
    · simpa [hne] using prefix_finishWalk nodeLimit (left+1) hlevel
    have hempty : s.level.isEmpty = false := by simpa using hne
    simp only [hempty,Bool.false_eq_true,if_false] at hlost
    simp only [hempty,Bool.false_eq_true,if_false,ne_eq,hne,not_false_eq_true,true_imp_iff]
    cases hp : levelPass w nodeLimit s with
    | inr r =>
      simp only [levelPass_prefix_iff hw hne hlevel hp]
      simp
    | inl s' =>
      simp only [hp] at hlost
      have hclean := levelPass_lossless hw hne hlevel hskip hp hlost
      obtain ⟨hout,hnext⟩ :=
        levelPass_order hw hne (hlevel ▸ Tree.level_ids_nodup rootId k) hp hclean
      have hfull : s.out++levelsFrom tree rootId k (left+1) =
          s'.out++levelsFrom tree rootId (k+1) left := by
        rw [levelsFrom_succ,hout,hlevel,List.append_assoc]
      have hrest := ih (s := s') (k := k+1) (by rw [hnext,hlevel]; rfl) hclean hlost
      rw [← hfull] at hrest
      simpa using hrest

theorem walkStart_skipped (h : walkStart w rootId nodeLimit = .ok (.inl s)) : s.skipped = [] := by
  unfold walkStart at h
  repeat' split at h
  all_goals cases h
  all_goals rfl

/-- A walk stopped before its loop returns nothing, or the root it was asked for. -/
theorem walkStart_stopped {r : Walked} (h : walkStart w rootId nodeLimit = .ok (.inr r)) :
    r.out = [] ∨ ∃ id n, rootId = some id ∧ w.node 1 id = .ok n ∧ r.out = [n] := by
  unfold walkStart at h
  split at h
  · cases h
    exact .inl rfl
  cases rootId with
  | none =>
    simp only at h
    repeat' split at h
    all_goals cases h
    exact .inl rfl
  | some id =>
    cases hn : w.node 1 id with
    | error e =>
      simp only [hn] at h
      split at h
      · cases h
        exact .inl rfl
      · cases h
    | ok n =>
      refine .inr ⟨id,n,rfl,hn,?_⟩
      simp only [hn] at h
      repeat' split at h
      all_goals cases h
      all_goals rfl

/-- Of a tree that does not change, a walk that loses no branch returns a prefix of the document
order, exactly when the stream of no level is stopped at a gap. -/
theorem truncated_prefix_iff (hw : w.Serves tree) (rootId : Option String)
    (maxDepth nodeLimit : Nat) {r : Walked} (h : walk w rootId maxDepth nodeLimit = .ok r)
    (hlost : unrecovered r.log = []) :
    (r.fetch nodeLimit).nodes <+: tree.docOrder rootId maxDepth ↔
      ∀ s, walkStart w rootId nodeLimit = .ok (.inl s) → Gapless w tree nodeLimit maxDepth s := by
  have hdoc : tree.docOrder rootId maxDepth =
      (tree.nodes.filter fun n => some n.id = rootId)++levelsFrom tree rootId 0 maxDepth := by
    simp [Tree.docOrder,levelsFrom]
  unfold walk at h
  cases hs : walkStart w rootId nodeLimit with
  | error e => simp [hs,Except.map] at h
  | ok start =>
    simp only [hs,Except.map,Except.ok.injEq] at h
    subst h
    cases start with
    | inr r =>
      have hprefix : r.out <+: tree.docOrder rootId maxDepth := by
        rcases walkStart_stopped hs with hout | ⟨id,n,rfl,hn,hout⟩
        · rw [hout]
          exact List.nil_prefix
        · obtain ⟨hmem,rfl⟩ := hw.node 1 id n hn
          rw [hout,hdoc,Tree.filter_id hmem]
          exact List.prefix_append _ _
      exact iff_of_true hprefix fun s hs' => by cases hs'
    | inl s =>
      obtain ⟨hout,hlevel⟩ := walkStart_serves hw hs
      have hrest := fetchDescendants_prefix_iff hw hlevel (walkStart_skipped hs) hlost
      rw [hout,← hdoc] at hrest
      simpa [Walked.fetch] using hrest

/-- With room for three nodes the walk stops when the listing of `b` comes in, and keeps a
prefix. -/
theorem smallTree_prefix :
    ∃ r, walk (answeringWalk smallTree) (some "r") 1 3 = .ok r ∧ (r.fetch 3).truncated = true ∧
      (r.fetch 3).nodes.map WorkflowyNode.id = ["r","a","b"] ∧
      ∀ s, walkStart (answeringWalk smallTree) (some "r") 3 = .ok (.inl s) →
        Gapless (answeringWalk smallTree) smallTree 3 1 s :=
  ⟨_,rfl,rfl,by decide,(truncated_prefix_iff (answeringWalk_serves smallTree) (some "r") 1 3 rfl
    (by decide)).mp (by decide)⟩

/-- With room for four it keeps the child of `b` where the child of `a` should stand. -/
theorem smallTree_gap :
    ∃ r, walk (answeringWalk smallTree) (some "r") 1 4 = .ok r ∧ (r.fetch 4).truncated = true ∧
      unrecovered r.log = [] ∧ (r.fetch 4).nodes.map WorkflowyNode.id = ["r","a","b","c"] ∧
      (smallTree.docOrder (some "r") 1).map WorkflowyNode.id = ["r","a","b","d","c"] ∧
      ¬(r.fetch 4).nodes <+: smallTree.docOrder (some "r") 1 :=
  ⟨_,rfl,by decide⟩

end WorkflowyMcp.SubtreeWalk
