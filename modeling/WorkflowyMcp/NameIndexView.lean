import WorkflowyMcp.NameIndex

/-! A name index stands for a partial map from ids to entries. The two maps it keeps
agree (`Wf`), every operation keeps them so, and its effect on the partial map is one
equation each. -/
namespace WorkflowyMcp.NameIndex
variable {toLowercase : String → String} {idx : NameIndex}

/-- The buckets and the reverse map say the same, and no bucket is empty. -/
structure Wf (toLowercase : String → String) (idx : NameIndex) : Prop where
  filed : ∀ key es, idx.byName.lookup key = some es → ∀ e∈es,
    idx.byId.lookup e.nodeId = some key ∧ toLowercase e.name = key
  indexed : ∀ id key, idx.byId.lookup id = some key →
    ∃ es, idx.byName.lookup key = some es ∧ ∃ e∈es, e.nodeId=id
  distinct : ∀ key es, idx.byName.lookup key = some es → (es.map NameIndexEntry.nodeId).Nodup
  nonempty : ∀ key es, idx.byName.lookup key = some es → es≠[]

theorem mem_entries {e : NameIndexEntry} :
    e∈idx.entries ↔ ∃ key es, idx.byName.lookup key = some es ∧ e∈es := by
  simp only [entries,List.mem_flatten,KeyMap.mem_values]
  constructor
  · rintro ⟨es,⟨key,hk⟩,he⟩
    exact ⟨key,es,hk,he⟩
  · rintro ⟨key,es,hk,he⟩
    exact ⟨es,⟨key,hk⟩,he⟩

theorem Wf.empty : Wf toLowercase {} :=
  ⟨by simp,by simp,by simp,by simp⟩

theorem Wf.unique (h : idx.Wf toLowercase) {e f : NameIndexEntry} (he : e∈idx.entries)
    (hf : f∈idx.entries) (hid : e.nodeId=f.nodeId) : e=f := by
  obtain ⟨key,es,hk,he⟩ := mem_entries.mp he
  obtain ⟨key',es',hk',hf⟩ := mem_entries.mp hf
  have hkey := (h.filed _ _ hk e he).1
  rw [hid,(h.filed _ _ hk' f hf).1] at hkey
  obtain rfl := Option.some.inj hkey
  obtain rfl := Option.some.inj (hk.symm.trans hk')
  exact List.inj_on_of_nodup_map (h.distinct _ _ hk) he hf hid

theorem lookup_eq_some (h : idx.Wf toLowercase) {id : String} {e : NameIndexEntry} :
    idx.lookupEntryById id = some e ↔ e∈idx.entries ∧ e.nodeId=id := by
  have hsound {e : NameIndexEntry} (hl : idx.lookupEntryById id = some e) :
      e∈idx.entries ∧ e.nodeId=id := by
    unfold lookupEntryById at hl
    cases hid : idx.byId.lookup id with
    | none => simp [hid] at hl
    | some key =>
      cases hk : idx.byName.lookup key with
      | none => simp [hid,hk] at hl
      | some es =>
        have hf : es.find? (fun e => e.nodeId = id) = some e := by simpa [hid,hk] using hl
        exact ⟨mem_entries.mpr ⟨key,es,hk,List.mem_of_find?_eq_some hf⟩,
          by simpa using List.find?_some hf⟩
  refine ⟨hsound,?_⟩
  rintro ⟨he,rfl⟩
  obtain ⟨key,es,hk,hmem⟩ := mem_entries.mp he
  have hid := (h.filed _ _ hk e hmem).1
  have hsome : (idx.lookupEntryById e.nodeId).isSome := by
    simp only [lookupEntryById,hid,hk,Option.bind_some,List.find?_isSome,decide_eq_true_eq]
    exact ⟨e,hmem,rfl⟩
  obtain ⟨f,hf⟩ := Option.isSome_iff_exists.mp hsome
  rw [hf,h.unique (hsound hf).1 he (hsound hf).2]

theorem mem_entries_iff (h : idx.Wf toLowercase) {e : NameIndexEntry} :
    e∈idx.entries ↔ idx.lookupEntryById e.nodeId = some e := by
  simp [lookup_eq_some h]

theorem byId_of_lookup (h : idx.Wf toLowercase) {id : String} {e : NameIndexEntry}
    (hl : idx.lookupEntryById id = some e) : idx.byId.lookup id = some (toLowercase e.name) := by
  obtain ⟨he,rfl⟩ := (lookup_eq_some h).mp hl
  obtain ⟨key,es,hk,hmem⟩ := mem_entries.mp he
  rw [(h.filed _ _ hk e hmem).1,(h.filed _ _ hk e hmem).2]

theorem byId_eq_none (h : idx.Wf toLowercase) {id : String} :
    idx.byId.lookup id = none ↔ idx.lookupEntryById id = none := by
  cases hl : idx.lookupEntryById id with
  | some e => simp [byId_of_lookup h hl]
  | none =>
    refine iff_of_true ?_ rfl
    by_contra hne
    obtain ⟨key,hkey⟩ := Option.ne_none_iff_exists'.mp hne
    obtain ⟨es,hk,e,he,rfl⟩ := h.indexed _ _ hkey
    have hsome := (lookup_eq_some h).mpr ⟨mem_entries.mpr ⟨key,es,hk,he⟩,rfl⟩
    exact absurd hl (by simp [hsome])

theorem lookup_dropNamed (byName : KeyMap String (List NameIndexEntry)) (key x k : String) :
    (dropNamed byName key x).lookup k =
      if k=key then (byName.lookup key).bind fun es =>
        if (es.filter fun e => e.nodeId ≠ x) = [] then none
        else some (es.filter fun e => e.nodeId ≠ x)
      else byName.lookup k := by
  unfold dropNamed
  cases hk : byName.lookup key with
  | none =>
    by_cases h : k=key
    · subst h
      simp [hk]
    · simp [h]
  | some es =>
    by_cases hempty : (es.filter fun e => e.nodeId ≠ x) = []
    · simp only [if_pos hempty,KeyMap.lookup_erase_ite,Option.bind_some]
    · simp only [if_neg hempty,KeyMap.lookup_insert_ite,Option.bind_some]

/-- Buckets after a removal: those of before, without the removed id. -/
theorem lookup_removeLocked_byName (h : idx.Wf toLowercase) {x k : String}
    {es : List NameIndexEntry} :
    (idx.removeLocked x).byName.lookup k = some es ↔
      es≠[] ∧ ∃ es', idx.byName.lookup k = some es' ∧ es = es'.filter fun e => e.nodeId ≠ x := by
  have hfree (hx : idx.byId.lookup x ≠ some k) {es' : List NameIndexEntry}
      (hk : idx.byName.lookup k = some es') : (es'.filter fun e => e.nodeId ≠ x) = es' := by
    refine List.filter_eq_self.mpr fun e he => ?_
    have hne : e.nodeId≠x := fun hid => hx (hid ▸ (h.filed _ _ hk e he).1)
    simpa using hne
  have hkeep (hx : idx.byId.lookup x ≠ some k)
      (hsame : (idx.removeLocked x).byName.lookup k = idx.byName.lookup k) :
      (idx.removeLocked x).byName.lookup k = some es ↔
        es≠[] ∧ ∃ es', idx.byName.lookup k = some es' ∧
          es = es'.filter fun e => e.nodeId ≠ x := by
    rw [hsame]
    constructor
    · exact fun hk => ⟨h.nonempty _ _ hk,es,hk,(hfree hx hk).symm⟩
    · rintro ⟨-,es',hk,rfl⟩
      rw [hfree hx hk,hk]
  cases hx : idx.byId.lookup x with
  | none => exact hkeep (by simp [hx]) (by simp [removeLocked,hx])
  | some key =>
    by_cases hkey : k=key
    · subst hkey
      simp only [removeLocked,hx,lookup_dropNamed,if_true]
      cases hk : idx.byName.lookup k with
      | none => simp
      | some es' =>
        by_cases hempty : (es'.filter fun e => e.nodeId ≠ x) = []
        · simp only [Option.bind_some,if_pos hempty,Option.some.injEq,exists_eq_left']
          exact iff_of_false (by simp) fun hne => hne.1 (hne.2.trans hempty)
        · simp only [Option.bind_some,if_neg hempty,Option.some.injEq,exists_eq_left']
          exact ⟨fun he => ⟨he ▸ hempty,he.symm⟩,fun he => he.2.symm⟩
    · exact hkeep (by simp [hx,Ne.symm hkey]) (by simp [removeLocked,hx,lookup_dropNamed,hkey])

theorem Wf.removeLocked (h : idx.Wf toLowercase) (x : String) :
    (idx.removeLocked x).Wf toLowercase := by
  have hbyId (id : String) : (idx.removeLocked x).byId.lookup id =
      if id=x then none else idx.byId.lookup id := by simp [NameIndex.removeLocked]
  constructor
  · intro key es hk e he
    obtain ⟨-,es',hk',rfl⟩ := (lookup_removeLocked_byName h).mp hk
    obtain ⟨he,hne⟩ := List.mem_filter.mp he
    rw [hbyId,if_neg (by simpa using hne)]
    exact h.filed _ _ hk' e he
  · intro id key hid
    rw [hbyId] at hid
    by_cases hx : id=x
    · simp [hx] at hid
    · rw [if_neg hx] at hid
      obtain ⟨es,hk,e,he,rfl⟩ := h.indexed _ _ hid
      have hmem : e∈es.filter fun e => e.nodeId ≠ x := List.mem_filter.mpr ⟨he,by simpa using hx⟩
      exact ⟨_,(lookup_removeLocked_byName h).mpr ⟨List.ne_nil_of_mem hmem,es,hk,rfl⟩,
        e,hmem,rfl⟩
  · intro key es hk
    obtain ⟨-,es',hk',rfl⟩ := (lookup_removeLocked_byName h).mp hk
    exact (h.distinct _ _ hk').sublist (List.filter_sublist.map _)
  · exact fun key es hk => ((lookup_removeLocked_byName h).mp hk).1

theorem mem_entries_removeLocked (h : idx.Wf toLowercase) {x : String} {e : NameIndexEntry} :
    e∈(idx.removeLocked x).entries ↔ e∈idx.entries ∧ e.nodeId≠x := by
  simp only [mem_entries,lookup_removeLocked_byName h]
  constructor
  · rintro ⟨key,_,⟨-,es,hk,rfl⟩,he⟩
    obtain ⟨he,hne⟩ := List.mem_filter.mp he
    exact ⟨⟨key,es,hk,he⟩,by simpa using hne⟩
  · rintro ⟨⟨key,es,hk,he⟩,hne⟩
    have hmem : e∈es.filter fun e => e.nodeId ≠ x := List.mem_filter.mpr ⟨he,by simpa using hne⟩
    exact ⟨key,_,⟨List.ne_nil_of_mem hmem,es,hk,rfl⟩,hmem⟩

theorem lookup_removeLocked (h : idx.Wf toLowercase) (x id : String) :
    (idx.removeLocked x).lookupEntryById id =
      if id=x then none else idx.lookupEntryById id := by
  refine Option.ext fun e => ?_
  rw [lookup_eq_some (h.removeLocked x),mem_entries_removeLocked h]
  by_cases hx : id=x
  · subst hx
    rw [if_pos rfl]
    exact iff_of_false (fun he => he.1.2 he.2) (by simp)
  · rw [if_neg hx,lookup_eq_some h]
    constructor
    · exact fun he => ⟨he.1.1,he.2⟩
    · exact fun he => ⟨⟨he.1,fun hn => hx (he.2.symm.trans hn)⟩,he.2⟩

theorem lookup_addNode_byName (node : WorkflowyNode) (k : String) :
    (idx.addNode toLowercase node).byName.lookup k =
      if k = toLowercase node.name
      then some ((idx.byName.lookup k).getD [] ++ [NameIndexEntry.ofNode node])
      else idx.byName.lookup k := by
  by_cases hk : k = toLowercase node.name
  · subst hk; simp [addNode]
  · simp [addNode,hk]

/-- What a bucket holds after an addition: what it held before, and the new entry in the
bucket of its name. -/
theorem mem_bucket_addNode {node : WorkflowyNode} {key : String} {e : NameIndexEntry} :
    (∃ es, (idx.addNode toLowercase node).byName.lookup key = some es ∧ e∈es) ↔
      (∃ es, idx.byName.lookup key = some es ∧ e∈es) ∨
        key = toLowercase node.name ∧ e = NameIndexEntry.ofNode node := by
  rw [lookup_addNode_byName]
  by_cases hkey : key = toLowercase node.name
  · cases hk : idx.byName.lookup key with
    | none => simp [hkey]
    | some es => simp [hkey]
  · simp [hkey]

theorem mem_entries_addNode {node : WorkflowyNode} {e : NameIndexEntry} :
    e∈(idx.addNode toLowercase node).entries ↔
      e∈idx.entries ∨ e = NameIndexEntry.ofNode node := by
  simp only [mem_entries,mem_bucket_addNode,exists_or,exists_and_right,exists_eq,true_and]

theorem Wf.addNode (h : idx.Wf toLowercase) {node : WorkflowyNode}
    (hnew : idx.byId.lookup node.id = none) : (idx.addNode toLowercase node).Wf toLowercase := by
  have hbyId (id : String) : (idx.addNode toLowercase node).byId.lookup id =
      if id=node.id then some (toLowercase node.name) else idx.byId.lookup id := by
    simp [NameIndex.addNode]
  have hold {key : String} {es : List NameIndexEntry} (hk : idx.byName.lookup key = some es)
      {e : NameIndexEntry} (he : e∈es) : e.nodeId≠node.id := by
    intro hid
    have hfiled := (h.filed _ _ hk e he).1
    rw [hid,hnew] at hfiled
    simp at hfiled
  constructor
  · intro key es hk e he
    rw [hbyId]
    rcases mem_bucket_addNode.mp ⟨es,hk,he⟩ with ⟨es',hk',he'⟩ | ⟨rfl,rfl⟩
    · rw [if_neg (hold hk' he')]
      exact h.filed _ _ hk' e he'
    · simp [NameIndexEntry.ofNode]
  · intro id key hid
    rw [hbyId] at hid
    suffices ∃ e, (∃ es, (idx.addNode toLowercase node).byName.lookup key = some es ∧ e∈es) ∧
        e.nodeId=id by
      obtain ⟨e,⟨es,hk,he⟩,hid⟩ := this
      exact ⟨es,hk,e,he,hid⟩
    simp only [mem_bucket_addNode]
    by_cases hx : id=node.id
    · rw [if_pos hx] at hid
      exact ⟨_,.inr ⟨(Option.some.inj hid).symm,rfl⟩,hx.symm⟩
    · rw [if_neg hx] at hid
      obtain ⟨es,hk,e,he,hid⟩ := h.indexed _ _ hid
      exact ⟨e,.inl ⟨es,hk,he⟩,hid⟩
  · intro key es hk
    rw [lookup_addNode_byName] at hk
    by_cases hkey : key = toLowercase node.name
    · rw [if_pos hkey] at hk
      obtain rfl := Option.some.inj hk
      cases hl : idx.byName.lookup key with
      | none => simp
      | some es =>
        have hno : node.id∉es.map NameIndexEntry.nodeId := by
          intro hmem
          obtain ⟨e,he,hid⟩ := List.mem_map.mp hmem
          exact hold hl he hid
        simpa [List.nodup_append,NameIndexEntry.ofNode,h.distinct _ _ hl] using
          fun e he hid => hold hl he hid
    · rw [if_neg hkey] at hk
      exact h.distinct _ _ hk
  · intro key es hk
    rw [lookup_addNode_byName] at hk
    by_cases hkey : key = toLowercase node.name
    · rw [if_pos hkey] at hk
      obtain rfl := Option.some.inj hk
      simp
    · rw [if_neg hkey] at hk
      exact h.nonempty _ _ hk

theorem lookup_addNode (h : idx.Wf toLowercase) {node : WorkflowyNode}
    (hnew : idx.byId.lookup node.id = none) (id : String) :
    (idx.addNode toLowercase node).lookupEntryById id =
      if id=node.id then some (NameIndexEntry.ofNode node) else idx.lookupEntryById id := by
  refine Option.ext fun e => ?_
  rw [lookup_eq_some (h.addNode hnew),mem_entries_addNode]
  by_cases hx : id=node.id
  · subst hx
    rw [if_pos rfl,Option.some.injEq]
    constructor
    · rintro ⟨he | rfl,hid⟩
      · have hl := (lookup_eq_some h).mpr ⟨he,hid⟩
        rw [(byId_eq_none h).mp hnew] at hl
        simp at hl
      · rfl
    · rintro rfl
      exact ⟨.inr rfl,rfl⟩
  · rw [if_neg hx,lookup_eq_some h]
    constructor
    · rintro ⟨he | rfl,hid⟩
      · exact ⟨he,hid⟩
      · exact absurd hid.symm hx
    · exact fun he => ⟨.inl he.1,he.2⟩

end WorkflowyMcp.NameIndex
