import WorkflowyMcp.IndexResolve

/-! What a short hash stands for, told from the calls alone. The long form goes to the id
whose entry was written last; the short form is given up once two ids with it were indexed
together. -/
namespace WorkflowyMcp.NameIndex
variable {toLowercase : String → String} {idx : NameIndex} {key u : String}

/-- The one and only indexed id with that hash. -/
structure Sole (hashOf : String → Option String) (idx : NameIndex) (key u : String) : Prop where
  indexed : idx.Indexed u
  hash : hashOf u = some key
  only : ∀ v, idx.Indexed v → hashOf v = some key → v = u

def Crowded (hashOf : String → Option String) (key : String) (idx : NameIndex) : Prop :=
  ∃ u v, u≠v ∧ idx.Indexed u ∧ idx.Indexed v ∧ hashOf u = some key ∧ hashOf v = some key

def IndexOp.isClear : IndexOp → Bool
  | .clear => true
  | _ => false

/-- Since the last `clear` no two ids with that hash were indexed at the same time. -/
def Apart (toLowercase : String → String) (hashOf : String → Option String) (key : String)
    (ops : List IndexOp) : Prop :=
  ∀ pre suf, ops = pre++suf → (∀ op∈suf, op.isClear = false) →
    ¬Crowded hashOf key (Runs.run (perform toLowercase) {} pre)

/-- What a call does to the entries, one id at a time. -/
inductive IndexEdit where
  | write (id : String)
  | remove (id : String)
  | wipe
deriving DecidableEq, Repr

section edits
variable (toLowercase : String → String)

def ingestEdits (idx : NameIndex) : List WorkflowyNode → List IndexEdit
  | [] => []
  | node::nodes =>
    (if idx.sameContent toLowercase node then [] else [.write node.id])++
      ingestEdits (idx.ingestNode toLowercase node) nodes

def opEdits (idx : NameIndex) : IndexOp → List IndexEdit
  | .ingest nodes => idx.ingestEdits toLowercase nodes
  | .invalidateNode id => [.remove id]
  | .clear => [.wipe]
  | .mergeFromDisk file io =>
    match idx.mergeFromDisk toLowercase file io with
    | .ok _ => idx.ingestEdits toLowercase (idx.adoptList file)
    | .error _ => []

def edits (idx : NameIndex) : List IndexOp → List IndexEdit
  | [] => []
  | op::ops => idx.opEdits toLowercase op++edits (idx.perform toLowercase op) ops

end edits

/-- The last entry written for an id with that suffix is that of `u`, and it still stands. -/
def WrittenLast (key u : String) (es : List IndexEdit) : Prop :=
  ∃ pre post, es = pre++.write u::post ∧ shortHashOf u = some key ∧
    ∀ e∈post, e≠.wipe ∧ e≠.remove u ∧ ∀ v, e = .write v → shortHashOf v ≠ some key

/-- The id a suffix stands for after one more edit. -/
def heldAfter (key : String) (held : Option String) : IndexEdit → Option String
  | .write v => if shortHashOf v = some key then some v else held
  | .remove v => if held = some v then none else held
  | .wipe => none

theorem heldAfter_eq_some {held : Option String} {e : IndexEdit} :
    heldAfter key held e = some u ↔
      (e = .write u ∧ shortHashOf u = some key) ∨
      (held = some u ∧ e≠.wipe ∧ e≠.remove u ∧ ∀ v, e = .write v → shortHashOf v ≠ some key) := by
  cases e with
  | write v =>
    by_cases hv : shortHashOf v = some key
    · simp only [heldAfter,if_pos hv,Option.some.injEq,IndexEdit.write.injEq]
      constructor
      · rintro rfl
        exact .inl ⟨rfl,hv⟩
      · rintro (⟨rfl,-⟩ | ⟨-,-,-,h⟩)
        · rfl
        · exact absurd hv (h v rfl)
    · simp only [heldAfter,if_neg hv]
      constructor
      · intro h
        refine .inr ⟨h,by simp,by simp,?_⟩
        rintro w ⟨⟩
        exact hv
      · rintro (⟨⟨⟩,h⟩ | ⟨h,-⟩)
        · exact absurd h hv
        · exact h
  | remove v =>
    by_cases hv : held = some v
    · subst hv
      simp [heldAfter,eq_comm]
    · simp only [heldAfter,if_neg hv]
      constructor
      · rintro rfl
        exact .inr ⟨rfl,by simp,by simpa [eq_comm] using hv,by simp⟩
      · rintro (⟨⟨⟩,-⟩ | ⟨h,-⟩)
        exact h
  | wipe => simp [heldAfter]

theorem held_eq_some {es : List IndexEdit} :
    es.foldl (heldAfter key) none = some u ↔ WrittenLast key u es := by
  induction es using List.reverseRecOn with
  | nil => simp [WrittenLast]
  | append_singleton es e ih =>
    rw [List.foldl_append,List.foldl_cons,List.foldl_nil,heldAfter_eq_some,ih]
    constructor
    · rintro (⟨rfl,hu⟩ | ⟨⟨pre,post,rfl,hu,hpost⟩,he⟩)
      · exact ⟨es,[],rfl,hu,by simp⟩
      · refine ⟨pre,post++[e],by simp,hu,fun f hf => ?_⟩
        rcases List.mem_append.mp hf with hf | hf
        · exact hpost f hf
        · exact (List.mem_singleton.mp hf) ▸ he
    · rintro ⟨pre,post,hes,hu,hpost⟩
      rcases List.eq_nil_or_concat post with rfl | ⟨post,f,rfl⟩
      · obtain ⟨rfl,hf⟩ := List.append_inj' hes rfl
        exact .inl ⟨(List.cons.inj hf).1,hu⟩
      · have hsplit : es++[e] = (pre++.write u::post)++[f] := by simpa using hes
        obtain ⟨rfl,hf⟩ := List.append_inj' hsplit rfl
        obtain rfl := (List.cons.inj hf).1
        exact .inr ⟨⟨pre,post,rfl,hu,fun g hg => hpost g (by simp [hg])⟩,hpost e (by simp)⟩

theorem held_invalidateNode (id : String) (h : idx.Hashed) :
    (idx.invalidateNode id).byShortHash.lookup key =
      heldAfter key (idx.byShortHash.lookup key) (.remove id) := by
  have hmap : (idx.invalidateNode id).byShortHash = dropShort idx.byShortHash id := by
    unfold NameIndex.invalidateNode
    split <;> rfl
  rw [hmap,lookup_dropShort,heldAfter]
  by_cases hid : idx.byShortHash.lookup key = some id
  · rw [if_pos hid,if_pos ⟨(h.short key id hid).2,hid⟩]
  · rw [if_neg hid,if_neg fun hx => hid hx.2]

theorem held_ingestNode (node : WorkflowyNode) :
    (idx.ingestNode toLowercase node).byShortHash.lookup key =
      (if idx.sameContent toLowercase node then [] else [IndexEdit.write node.id]).foldl
        (heldAfter key) (idx.byShortHash.lookup key) := by
  unfold NameIndex.ingestNode
  split
  · rfl
  · show (addShort (dropShort idx.byShortHash node.id) node.id).lookup key = _
    rw [lookup_addShort,lookup_dropShort,List.foldl_cons,List.foldl_nil,heldAfter]
    split
    · rfl
    · rename_i hx
      rw [if_neg fun h => hx h.1]

theorem held_ingest (nodes : List WorkflowyNode) :
    (idx.ingest toLowercase nodes).byShortHash.lookup key =
      (idx.ingestEdits toLowercase nodes).foldl (heldAfter key)
        (idx.byShortHash.lookup key) := by
  induction nodes generalizing idx with
  | nil => rfl
  | cons node nodes ih =>
    have hstep : (idx.ingest toLowercase (node::nodes)) =
      (idx.ingestNode toLowercase node).ingest toLowercase nodes := rfl
    rw [hstep,ih,held_ingestNode,ingestEdits,List.foldl_append]

theorem held_perform (h : idx.Hashed) (op : IndexOp) :
    (idx.perform toLowercase op).byShortHash.lookup key =
      (idx.opEdits toLowercase op).foldl (heldAfter key) (idx.byShortHash.lookup key) := by
  cases op with
  | ingest nodes => exact held_ingest nodes
  | invalidateNode id => exact held_invalidateNode id h
  | clear => exact AList.lookup_empty key
  | mergeFromDisk file io =>
    cases hm : idx.mergeFromDisk toLowercase file io with
    | ok merged =>
      simp only [NameIndex.perform,opEdits,hm]
      exact mergeFromDisk_ok hm ▸ held_ingest _
    | error e => simp only [NameIndex.perform,opEdits,hm,List.foldl_nil]

/-- The map of suffixes is what the edits leave of each. -/
theorem held_run (h : idx.Hashed) (ops : List IndexOp) :
    (Runs.run (perform toLowercase) idx ops).byShortHash.lookup key =
      (idx.edits toLowercase ops).foldl (heldAfter key) (idx.byShortHash.lookup key) := by
  induction ops generalizing idx with
  | nil => rfl
  | cons op ops ih =>
    rw [Runs.run_cons,ih (h.perform op),held_perform h,edits,List.foldl_append]

section apart
variable {hashOf : String → Option String} {ops : List IndexOp} {op : IndexOp}

theorem Crowded.mono {idx' : NameIndex} (h : Crowded hashOf key idx)
    (hsub : ∀ id, idx.Indexed id → idx'.Indexed id) : Crowded hashOf key idx' := by
  obtain ⟨u,v,hne,hu,hv,hkey⟩ := h
  exact ⟨u,v,hne,hsub u hu,hsub v hv,hkey⟩

theorem Sole.of_not_crowded (h : ¬Crowded hashOf key idx) (hu : idx.Indexed u)
    (hkey : hashOf u = some key) : Sole hashOf idx key u := by
  refine ⟨hu,hkey,fun v hv hkv => ?_⟩
  by_contra hne
  exact h ⟨v,u,hne,hv,hu,hkv,hkey⟩

theorem apart_nil : Apart toLowercase hashOf key [] := by
  intro pre suf hsplit _
  obtain ⟨rfl,rfl⟩ := List.append_eq_nil_iff.mp hsplit.symm
  rintro ⟨u,v,-,hu,-⟩
  simp [Indexed] at hu

theorem apart_concat : Apart toLowercase hashOf key (ops++[op]) ↔
    ¬Crowded hashOf key (Runs.run (perform toLowercase) {} (ops++[op])) ∧
      (op.isClear = false → Apart toLowercase hashOf key ops) := by
  constructor
  · intro h
    refine ⟨h (ops++[op]) [] (by simp) (by simp),fun hop pre suf hsplit hsuf => ?_⟩
    refine h pre (suf++[op]) (by simp [hsplit]) fun o ho => ?_
    rcases List.mem_append.mp ho with ho | ho
    · exact hsuf o ho
    · exact List.mem_singleton.mp ho ▸ hop
  · rintro ⟨hend,hops⟩ pre suf hsplit hsuf
    rcases List.eq_nil_or_concat suf with rfl | ⟨suf,o,rfl⟩
    · simpa [hsplit] using hend
    · have hsplit : ops++[op] = (pre++suf)++[o] := by simpa using hsplit
      obtain ⟨rfl,ho⟩ := List.append_inj' hsplit rfl
      obtain rfl := (List.cons.inj ho).1
      exact hops (hsuf op (by simp)) pre suf rfl fun o' ho' => hsuf o' (by simp [ho'])

theorem indexed_ingestNode (node : WorkflowyNode) {id : String} (h : idx.Indexed id) :
    (idx.ingestNode toLowercase node).Indexed id := by
  unfold NameIndex.ingestNode
  split
  · exact h
  · by_cases hid : id = node.id
    · exact indexed_addNode.mpr (.inr hid)
    · exact indexed_addNode.mpr (.inl (indexed_removeLocked.mpr ⟨h,hid⟩))

theorem indexed_ingest (nodes : List WorkflowyNode) {id : String} (h : idx.Indexed id) :
    (idx.ingest toLowercase nodes).Indexed id := by
  induction nodes generalizing idx with
  | nil => exact h
  | cons node nodes ih => exact ih (indexed_ingestNode node h)

theorem indexed_ingestNode_self (node : WorkflowyNode) :
    (idx.ingestNode toLowercase node).Indexed node.id := by
  unfold NameIndex.ingestNode
  split
  · rename_i hs
    simp only [sameContent] at hs
    split at hs
    · rename_i hkey
      rw [Indexed,hkey]
      rfl
    · cases hs
  · exact indexed_addNode.mpr (.inr rfl)

theorem indexed_of_ingested {nodes : List WorkflowyNode} {node : WorkflowyNode}
    (hn : node∈nodes) : (idx.ingest toLowercase nodes).Indexed node.id := by
  induction nodes generalizing idx with
  | nil => cases hn
  | cons m nodes ih =>
    rcases List.mem_cons.mp hn with rfl | hn
    · exact indexed_ingest nodes (indexed_ingestNode_self node)
    · exact ih hn

/-- What the filing of one more node keeps while the hash stays uncrowded, a batch keeps that
leaves it uncrowded. -/
theorem ingest_uncrowded {P : NameIndex → Prop} {nodes : List WorkflowyNode} (h : P idx)
    (hnode : ∀ idx node, P idx → ¬Crowded hashOf key (idx.ingestNode toLowercase node) →
      P (idx.ingestNode toLowercase node))
    (hc : ¬Crowded hashOf key (idx.ingest toLowercase nodes)) :
    P (idx.ingest toLowercase nodes) := by
  induction nodes generalizing idx with
  | nil => exact h
  | cons node nodes ih =>
    exact ih (hnode idx node h fun hnow => hc (hnow.mono fun id => indexed_ingest nodes)) hc

theorem perform_uncrowded {P : NameIndex → Prop} (h : P idx) (hop : op.isClear = false)
    (hnode : ∀ idx node, P idx → ¬Crowded hashOf key (idx.ingestNode toLowercase node) →
      P (idx.ingestNode toLowercase node))
    (hremove : ∀ idx id, P idx → P (NameIndex.invalidateNode idx id))
    (hc : ¬Crowded hashOf key (idx.perform toLowercase op)) : P (idx.perform toLowercase op) := by
  cases op with
  | ingest nodes => exact ingest_uncrowded h hnode hc
  | invalidateNode id => exact hremove idx id h
  | clear => cases hop
  | mergeFromDisk file io =>
    cases hm : idx.mergeFromDisk toLowercase file io with
    | ok merged =>
      simp only [NameIndex.perform,hm] at hc ⊢
      rw [mergeFromDisk_ok hm] at hc ⊢
      exact ingest_uncrowded h hnode hc
    | error e => simpa only [NameIndex.perform,hm] using h

/-- What holds of a new and of a cleared index, and is kept while the hash is uncrowded, holds
after any calls that kept the ids apart. -/
theorem run_apart {P : NameIndex → Prop} (hempty : P {}) (hclear : ∀ idx, P (NameIndex.clear idx))
    (hnode : ∀ idx node, P idx → ¬Crowded hashOf key (idx.ingestNode toLowercase node) →
      P (idx.ingestNode toLowercase node))
    (hremove : ∀ idx id, P idx → P (NameIndex.invalidateNode idx id))
    (ha : Apart toLowercase hashOf key ops) : P (Runs.run (perform toLowercase) {} ops) := by
  induction ops using List.reverseRecOn with
  | nil => exact hempty
  | append_singleton ops op ih =>
    obtain ⟨hend,hrest⟩ := apart_concat.mp ha
    rw [Runs.run_concat] at hend ⊢
    cases hop : op.isClear with
    | true =>
      cases op with
      | clear => exact hclear _
      | ingest | invalidateNode | mergeFromDisk => cases hop
    | false => exact perform_uncrowded (ih (hrest hop)) hop hnode hremove hend

end apart

theorem indexed_invalidateNode {x id : String} :
    (idx.invalidateNode x).Indexed id ↔ idx.Indexed id ∧ id≠x := by
  have hid : (idx.invalidateNode x).Indexed id ↔ (idx.removeLocked x).Indexed id := by
    unfold NameIndex.invalidateNode
    split <;> rfl
  rw [hid,indexed_removeLocked]

theorem indexed_ingestNode_iff {node : WorkflowyNode} {id : String}
    (hs : idx.sameContent toLowercase node = false) :
    (idx.ingestNode toLowercase node).Indexed id ↔ idx.Indexed id ∨ id = node.id := by
  rw [NameIndex.ingestNode,hs,if_neg Bool.false_ne_true,indexed_addNode,indexed_removeLocked]
  by_cases hid : id = node.id
  · simp [hid]
  · simp [hid]

/-- Every indexed id with that suffix is what the suffix stands for. -/
def Filed (key : String) (idx : NameIndex) : Prop :=
  idx.Hashed ∧ ∀ v, idx.Indexed v → shortHashOf v = some key → idx.byShortHash.lookup key = some v

theorem Filed.ingestNode (h : Filed key idx) {node : WorkflowyNode}
    (hc : ¬Crowded shortHashOf key (idx.ingestNode toLowercase node)) :
    Filed key (idx.ingestNode toLowercase node) := by
  refine ⟨h.1.ingestNode node,fun v hv hkey => ?_⟩
  rw [held_ingestNode]
  cases hs : idx.sameContent toLowercase node with
  | true =>
    rw [NameIndex.ingestNode,if_pos hs] at hv
    exact h.2 v hv hkey
  | false =>
    have hmade : (idx.ingestNode toLowercase node).Indexed node.id :=
      (indexed_ingestNode_iff hs).mpr (.inr rfl)
    by_cases hnode : shortHashOf node.id = some key
    · obtain rfl := (Sole.of_not_crowded hc hmade hnode).only v hv hkey
      simp [heldAfter,hkey]
    · have hold := ((indexed_ingestNode_iff hs).mp hv).resolve_right fun hid => hnode (hid ▸ hkey)
      simpa [heldAfter,hnode] using h.2 v hold hkey

theorem Filed.invalidateNode (h : Filed key idx) (id : String) :
    Filed key (idx.invalidateNode id) := by
  refine ⟨h.1.invalidateNode id,fun v hv hkey => ?_⟩
  obtain ⟨hv,hne⟩ := indexed_invalidateNode.mp hv
  rw [held_invalidateNode id h.1,h.2 v hv hkey,heldAfter,if_neg]
  simpa using hne

/-- The prefix is not taken for ambiguous. -/
def Single (key : String) (idx : NameIndex) : Prop :=
  idx.Hashed ∧ ∀ e, idx.byPrefixHash.lookup key = some e → e.count = 1

theorem prefix_removeLocked (x : String) {e : PrefixEntry}
    (h : (idx.removeLocked x).byPrefixHash.lookup key = some e) :
    idx.byPrefixHash.lookup key = some e := by
  have hpre : (idx.removeLocked x).byPrefixHash.lookup key =
      if prefixHashOf x = some key ∧ idx.byPrefixHash.lookup key = some ⟨x,1⟩ then none
      else idx.byPrefixHash.lookup key := lookup_dropPrefix _ x key
  rw [hpre] at h
  split at h
  · cases h
  · exact h

theorem prefix_invalidateNode (x : String) :
    (idx.invalidateNode x).byPrefixHash = (idx.removeLocked x).byPrefixHash := by
  unfold NameIndex.invalidateNode
  split <;> rfl

theorem Single.ingestNode (h : Single key idx) {node : WorkflowyNode}
    (hc : ¬Crowded prefixHashOf key (idx.ingestNode toLowercase node)) :
    Single key (idx.ingestNode toLowercase node) := by
  refine ⟨h.1.ingestNode node,fun e he => ?_⟩
  cases hs : idx.sameContent toLowercase node with
  | true =>
    rw [NameIndex.ingestNode,if_pos hs] at he
    exact h.2 e he
  | false =>
    have hmap : (idx.ingestNode toLowercase node).byPrefixHash.lookup key =
        if prefixHashOf node.id = some key
        then some (bumped ((idx.removeLocked node.id).byPrefixHash.lookup key) node.id)
        else (idx.removeLocked node.id).byPrefixHash.lookup key := by
      rw [NameIndex.ingestNode,hs,if_neg Bool.false_ne_true]
      exact lookup_addPrefix _ node.id key
    rw [hmap] at he
    split at he
    · rename_i hnode
      obtain rfl := Option.some.inj he
      unfold bumped
      split
      · rename_i e hold
        have hone := h.2 e (prefix_removeLocked node.id hold)
        split
        · exact hone
        · -- another id owns the prefix, and is indexed still
          rename_i hne
          obtain ⟨uuid,count⟩ := e
          obtain rfl : count = 1 := hone
          obtain ⟨howner,hkey⟩ := (h.1.removeLocked node.id).owner key uuid hold
          exact absurd ⟨uuid,node.id,hne,
            (indexed_ingestNode_iff hs).mpr (.inl (indexed_removeLocked.mp howner).1),
            (indexed_ingestNode_iff hs).mpr (.inr rfl),hkey,hnode⟩ hc
      · rfl
    · exact h.2 e (prefix_removeLocked node.id he)

theorem Single.invalidateNode (h : Single key idx) (id : String) :
    Single key (idx.invalidateNode id) := by
  refine ⟨h.1.invalidateNode id,fun e he => ?_⟩
  rw [prefix_invalidateNode] at he
  exact h.2 e (prefix_removeLocked id he)

/-- An ambiguous prefix stays ambiguous until the index is cleared. -/
def Ambiguous (key : String) (idx : NameIndex) : Prop :=
  ∃ e, idx.byPrefixHash.lookup key = some e ∧ 1 < e.count

theorem Ambiguous.removeLocked (h : Ambiguous key idx) (x : String) :
    Ambiguous key (idx.removeLocked x) := by
  obtain ⟨e,he,hcount⟩ := h
  have hpre : (idx.removeLocked x).byPrefixHash.lookup key =
      if prefixHashOf x = some key ∧ idx.byPrefixHash.lookup key = some ⟨x,1⟩ then none
      else idx.byPrefixHash.lookup key := lookup_dropPrefix _ x key
  refine ⟨e,?_,hcount⟩
  rw [hpre,if_neg,he]
  rintro ⟨-,hone⟩
  obtain rfl := Option.some.inj (he.symm.trans hone)
  exact Nat.lt_irrefl 1 hcount

theorem Ambiguous.ingestNode (h : Ambiguous key idx) (node : WorkflowyNode) :
    Ambiguous key (idx.ingestNode toLowercase node) := by
  unfold NameIndex.ingestNode
  split
  · exact h
  · obtain ⟨e,he,hcount⟩ := h.removeLocked node.id
    have hmap : ((idx.removeLocked node.id).addNode toLowercase node).byPrefixHash.lookup key =
        if prefixHashOf node.id = some key
        then some (bumped ((idx.removeLocked node.id).byPrefixHash.lookup key) node.id)
        else (idx.removeLocked node.id).byPrefixHash.lookup key := lookup_addPrefix _ node.id key
    rw [he] at hmap
    split at hmap
    · refine ⟨_,hmap,?_⟩
      unfold bumped
      dsimp only
      split
      · exact hcount
      · show 1 < min (e.count+1) (2^32-1)
        omega
    · exact ⟨e,hmap,hcount⟩

theorem Ambiguous.ingest (h : Ambiguous key idx) (nodes : List WorkflowyNode) :
    Ambiguous key (idx.ingest toLowercase nodes) := by
  induction nodes generalizing idx with
  | nil => exact h
  | cons node nodes ih => exact ih (h.ingestNode node)

theorem Ambiguous.perform (h : Ambiguous key idx) {op : IndexOp} (hop : op.isClear = false) :
    Ambiguous key (idx.perform toLowercase op) := by
  cases op with
  | ingest nodes => exact h.ingest nodes
  | invalidateNode id =>
    show ∃ e, (idx.invalidateNode id).byPrefixHash.lookup key = some e ∧ 1 < e.count
    rw [prefix_invalidateNode]
    exact h.removeLocked id
  | clear => cases hop
  | mergeFromDisk file io =>
    cases hm : idx.mergeFromDisk toLowercase file io with
    | ok merged =>
      simp only [NameIndex.perform,hm]
      exact mergeFromDisk_ok hm ▸ h.ingest _
    | error e => simpa only [NameIndex.perform,hm] using h

theorem Hashed.ambiguous (h : idx.Hashed) (hc : Crowded prefixHashOf key idx) :
    Ambiguous key idx := by
  obtain ⟨u,v,hne,hu,hv,hku,hkv⟩ := hc
  cases hl : idx.byPrefixHash.lookup key with
  | none => simpa [hl] using h.listed key u hu hku
  | some e =>
    refine ⟨e,hl,?_⟩
    have hpos := h.counted key e hl
    by_contra hle
    obtain ⟨uuid,count⟩ := e
    obtain rfl : count = 1 := by
      simp only at hpos hle
      omega
    exact hne ((h.sole key uuid hl u hu hku).trans (h.sole key uuid hl v hv hkv).symm)

theorem ambiguous_of_not_apart {ops : List IndexOp}
    (ha : ¬Apart toLowercase prefixHashOf key ops) :
    Ambiguous key (Runs.run (NameIndex.perform toLowercase) {} ops) := by
  induction ops using List.reverseRecOn with
  | nil => exact absurd apart_nil ha
  | append_singleton ops op ih =>
    rw [apart_concat,not_and_or,not_not] at ha
    rcases ha with hc | ha
    · exact (hashed_run (ops++[op])).ambiguous hc
    · obtain ⟨hop,ha⟩ := Classical.not_imp.mp ha
      rw [Runs.run_concat]
      exact (ih ha).perform hop

section runs
variable {ops : List IndexOp}

theorem Filed.of_apart (ha : Apart toLowercase shortHashOf key ops) :
    Filed key (Runs.run (perform toLowercase) {} ops) :=
  run_apart ⟨Hashed.empty,by simp [Indexed]⟩
    (fun idx => ⟨Hashed.clear idx,by simp [Indexed,NameIndex.clear]⟩)
    (fun _ _ h hc => h.ingestNode hc) (fun _ id h => h.invalidateNode id) ha

theorem Single.of_apart (ha : Apart toLowercase prefixHashOf key ops) :
    Single key (Runs.run (perform toLowercase) {} ops) :=
  run_apart ⟨Hashed.empty,by simp⟩ (fun idx => ⟨Hashed.clear idx,by simp [NameIndex.clear]⟩)
    (fun _ _ h hc => h.ingestNode hc) (fun _ id h => h.invalidateNode id) ha

theorem short_of_apart (ha : Apart toLowercase shortHashOf key ops) :
    let idx := Runs.run (perform toLowercase) {} ops
    idx.byShortHash.lookup key = some u ↔ Sole shortHashOf idx key u := by
  intro idx
  obtain ⟨hh,hfiled⟩ := Filed.of_apart ha
  constructor
  · intro hs
    obtain ⟨hu,hkey⟩ := hh.short key u hs
    exact Sole.of_not_crowded (ha ops [] (by simp) (by simp)) hu hkey
  · exact fun h => hfiled u h.indexed h.hash

theorem prefix_iff_apart :
    let idx := Runs.run (perform toLowercase) {} ops
    idx.byPrefixHash.lookup key = some ⟨u,1⟩ ↔
      Apart toLowercase prefixHashOf key ops ∧ Sole prefixHashOf idx key u := by
  intro idx
  have hh : idx.Hashed := hashed_run ops
  constructor
  · intro hp
    have ha : Apart toLowercase prefixHashOf key ops := by
      by_contra hno
      obtain ⟨e,he,hcount⟩ := ambiguous_of_not_apart hno
      obtain rfl := Option.some.inj (he.symm.trans hp)
      exact Nat.lt_irrefl 1 hcount
    obtain ⟨hu,hkey⟩ := hh.owner key u hp
    exact ⟨ha,hu,hkey,hh.sole key u hp⟩
  · rintro ⟨ha,hsole⟩
    obtain ⟨-,hone⟩ := Single.of_apart ha
    obtain ⟨⟨uuid,count⟩,hl⟩ := Option.isSome_iff_exists.mp
      (hh.listed key u hsole.indexed hsole.hash)
    obtain rfl : count = 1 := hone _ hl
    rw [hl,hsole.only uuid (hh.owner key uuid hl).1 (hh.owner key uuid hl).2]

theorem suffix_iff_last : (Runs.run (perform toLowercase) {} ops).byShortHash.lookup key = some u ↔
    WrittenLast key u (edits toLowercase {} ops) := by
  rw [held_run Hashed.empty,← held_eq_some]
  rfl

/-- What a query finds, told from the calls. -/
theorem resolve_run {short : String} :
    let idx := Runs.run (perform toLowercase) {} ops
    idx.resolveShortHash short = some u ↔
      ∃ key, Spells short SHORT_HASH_LEN_URL key ∧ WrittenLast key u (edits toLowercase {} ops) ∨
        Spells short SHORT_HASH_LEN_PREFIX key ∧ Apart toLowercase prefixHashOf key ops ∧
          Sole prefixHashOf idx key u := by
  intro idx
  rw [resolve_eq_some (hashed_run ops)]
  refine exists_congr fun key => or_congr (and_congr_right fun _ => suffix_iff_last) ?_
  exact and_congr_right fun _ => prefix_iff_apart

end runs

/-- After any calls, a query in the long form finds the id of that form written last, as long as
its entry stands; one in the short form finds the only id with it, if no two were ever together.
While no two were together the long form finds the only one too. -/
theorem resolves_iff (toLowercase : String → String) (ops : List IndexOp) (short u : String) :
    let idx := Runs.run (perform toLowercase) {} ops
    (idx.resolveShortHash short = some u ↔
      ∃ key, Spells short SHORT_HASH_LEN_URL key ∧ WrittenLast key u (edits toLowercase {} ops) ∨
        Spells short SHORT_HASH_LEN_PREFIX key ∧ Apart toLowercase prefixHashOf key ops ∧
          Sole prefixHashOf idx key u) ∧
    (idx.resolveShortHash short = some u → idx.Indexed u ∧ Abbreviates short u) ∧
    ∀ key, Spells short SHORT_HASH_LEN_URL key → Apart toLowercase shortHashOf key ops →
      (idx.resolveShortHash short = some u ↔ Sole shortHashOf idx key u) := by
  intro idx
  have hh : idx.Hashed := hashed_run ops
  refine ⟨resolve_run,fun hr => ⟨indexed_of_resolve hh hr,abbreviates_of_resolve hh hr⟩,
    fun key hkey ha => ?_⟩
  have hsole : idx.byShortHash.lookup key = some u ↔ Sole shortHashOf idx key u :=
    short_of_apart ha
  rw [← hsole,resolve_eq_some hh]
  constructor
  · rintro ⟨key',⟨hs,hl⟩ | ⟨hs,hl⟩⟩
    · exact (hs.unique hkey).2 ▸ hl
    · exact absurd (hs.unique hkey).1 (by decide)
  · exact fun hl => ⟨key,.inl ⟨hkey,hl⟩⟩

/-- Two ids alike at both ends. -/
def twins : List WorkflowyNode :=
  [{ id := "550e8400-e29b-41d4-a716-446655440000", name := "a" },
    { id := "550e8400-e29b-41d4-b716-446655440000", name := "b" }]

theorem indexed_iff_mem {id : String} : idx.Indexed id ↔ id∈idx.byId.keys := by
  rw [Indexed,AList.lookup_isSome,AList.mem_keys]

instance (hashOf : String → Option String) (idx : NameIndex) (key u : String) :
    Decidable (Sole hashOf idx key u) :=
  decidable_of_iff (idx.Indexed u ∧ hashOf u = some key ∧
      ∀ v∈idx.byId.keys, hashOf v = some key → v = u)
    ⟨fun ⟨hu,hkey,h⟩ => ⟨hu,hkey,fun v hv => h v (indexed_iff_mem.mp hv)⟩,
      fun h => ⟨h.indexed,h.hash,fun v hv => h.only v (indexed_iff_mem.mpr hv)⟩⟩

/-- While both are indexed the long form names one of them; when that one is dropped neither form
finds the other, though it is the only one left. -/
theorem twin_lost :
    let both := Runs.run (perform asciiLowercase) {} [.ingest twins]
    let left := Runs.run (perform asciiLowercase) {}
      [.ingest twins,.invalidateNode "550e8400-e29b-41d4-b716-446655440000"]
    both.resolveShortHash "446655440000" = some "550e8400-e29b-41d4-b716-446655440000" ∧
    both.Indexed "550e8400-e29b-41d4-a716-446655440000" ∧
    shortHashOf "550e8400-e29b-41d4-a716-446655440000" = some "446655440000" ∧
    left.resolveShortHash "446655440000" = none ∧ left.resolveShortHash "550e8400" = none ∧
    Sole shortHashOf left "446655440000" "550e8400-e29b-41d4-a716-446655440000" ∧
    Sole prefixHashOf left "550e8400" "550e8400-e29b-41d4-a716-446655440000" := by
  decide +kernel

end WorkflowyMcp.NameIndex
