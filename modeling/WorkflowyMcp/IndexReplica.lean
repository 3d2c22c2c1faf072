import WorkflowyMcp.Lib.Replica
import WorkflowyMcp.NameIndexView

/-! The name index as a replica: ingesting puts, invalidating forgets, merging adopts,
and a snapshot publishes what is not excluded. -/
namespace WorkflowyMcp
namespace NameIndex
variable {toLowercase : String → String} {idx : NameIndex}

def replica (idx : NameIndex) : Replica String NameIndexEntry :=
  ⟨idx.lookupEntryById,{id | id∈idx.tombstones}⟩

@[simp] theorem mem_replica (id : String) : idx.replica.mem id = idx.lookupEntryById id := rfl
@[simp] theorem dead_replica (id : String) : id∈idx.replica.dead ↔ id∈idx.tombstones := .rfl

/-- The skip rule, on the entry the index holds. -/
def unchanged (toLowercase : String → String) (e : NameIndexEntry) (node : WorkflowyNode) : Bool :=
  toLowercase e.name = toLowercase node.name && e.description = node.description &&
    (node.lastModified.isNone || e.lastModified = node.lastModified)

theorem sameContent_eq (h : idx.Wf toLowercase) (node : WorkflowyNode) :
    idx.sameContent toLowercase node =
      (idx.lookupEntryById node.id).any fun e => unchanged toLowercase e node := by
  cases hl : idx.lookupEntryById node.id with
  | none => simp [sameContent,(byId_eq_none h).mpr hl]
  | some e =>
    have hkey := byId_of_lookup h hl
    by_cases hname : toLowercase e.name = toLowercase node.name
    · have hfind : ((idx.byName.lookup (toLowercase e.name)).bind fun v =>
          v.find? fun e => e.nodeId = node.id) = some e := by
        simpa [lookupEntryById,hkey] using hl
      rw [hname] at hfind hkey
      simp [sameContent,hkey,hfind,unchanged,hname]
    · simp [sameContent,hkey,unchanged,hname]

def observe (toLowercase : String → String) (o : Option NameIndexEntry) (node : WorkflowyNode) :
    NameIndexEntry :=
  match o with
  | some e => if unchanged toLowercase e node then e else .ofNode node
  | none => .ofNode node

theorem Wf.fresh (h : idx.Wf toLowercase) (x : String) :
    (idx.removeLocked x).byId.lookup x = none := by
  rw [byId_eq_none (h.removeLocked x),lookup_removeLocked h,if_pos rfl]

theorem Wf.ingestNode (h : idx.Wf toLowercase) (node : WorkflowyNode) :
    (idx.ingestNode toLowercase node).Wf toLowercase := by
  unfold NameIndex.ingestNode
  split
  · exact h
  · exact (h.removeLocked _).addNode (h.fresh _)

theorem lookup_ingestNode (h : idx.Wf toLowercase) (node : WorkflowyNode) (id : String) :
    (idx.ingestNode toLowercase node).lookupEntryById id =
      if id=node.id then some (observe toLowercase (idx.lookupEntryById id) node)
      else idx.lookupEntryById id := by
  unfold NameIndex.ingestNode
  rw [sameContent_eq h]
  by_cases hid : id=node.id
  · subst hid
    rw [if_pos rfl]
    cases hl : idx.lookupEntryById node.id with
    | none => simp [observe,lookup_addNode (h.removeLocked _) (h.fresh _)]
    | some e =>
      by_cases hu : unchanged toLowercase e node = true
      · simp [hu,hl,observe]
      · simp [hu,observe,lookup_addNode (h.removeLocked _) (h.fresh _)]
  · rw [if_neg hid]
    split
    · rfl
    · rw [lookup_addNode (h.removeLocked _) (h.fresh _),if_neg hid,lookup_removeLocked h,
        if_neg hid]

theorem replica_ingestNode (h : idx.Wf toLowercase) (node : WorkflowyNode) :
    (idx.ingestNode toLowercase node).replica =
      if idx.sameContent toLowercase node = true then idx.replica
      else idx.replica.put node.id (.ofNode node) := by
  unfold NameIndex.ingestNode
  split
  · rfl
  · refine Replica.ext (fun id => ?_) fun id => .rfl
    rw [mem_replica,lookup_addNode (h.removeLocked _) (h.fresh _),lookup_removeLocked h]
    by_cases hid : id=node.id
    · simp [hid,Replica.put]
    · simp [hid,Replica.put]

@[simp] theorem tombstones_ingestNode (node : WorkflowyNode) :
    (idx.ingestNode toLowercase node).tombstones = idx.tombstones := by
  unfold NameIndex.ingestNode
  split <;> rfl

theorem Wf.ingest (h : idx.Wf toLowercase) (nodes : List WorkflowyNode) :
    (idx.ingest toLowercase nodes).Wf toLowercase := by
  induction nodes generalizing idx with
  | nil => exact h
  | cons node nodes ih => exact ih (h.ingestNode node)

@[simp] theorem tombstones_ingest (nodes : List WorkflowyNode) :
    (idx.ingest toLowercase nodes).tombstones = idx.tombstones := by
  induction nodes generalizing idx with
  | nil => rfl
  | cons node nodes ih => exact ih.trans (tombstones_ingestNode node)

/-- The observations of one id in a batch, one after the other. -/
def observeAll (toLowercase : String → String) (id : String) :
    Option NameIndexEntry → List WorkflowyNode → Option NameIndexEntry
  | o, [] => o
  | o, node::nodes =>
    observeAll toLowercase id (if id=node.id then some (observe toLowercase o node) else o) nodes

theorem lookup_ingest (h : idx.Wf toLowercase) (nodes : List WorkflowyNode) (id : String) :
    (idx.ingest toLowercase nodes).lookupEntryById id =
      observeAll toLowercase id (idx.lookupEntryById id) nodes := by
  induction nodes generalizing idx with
  | nil => rfl
  | cons node nodes ih =>
    exact (ih (h.ingestNode node)).trans (by rw [lookup_ingestNode h,observeAll])

theorem observeAll_eq_none {id : String} {o : Option NameIndexEntry} {nodes : List WorkflowyNode} :
    observeAll toLowercase id o nodes = none ↔ o = none ∧ ∀ node∈nodes, node.id≠id := by
  induction nodes generalizing o with
  | nil => simp [observeAll]
  | cons node nodes ih =>
    rw [observeAll,ih]
    by_cases hid : id=node.id
    · simp [hid]
    · simp [hid,Ne.symm hid]

theorem observeAll_of_absent {id : String} {o : Option NameIndexEntry}
    {nodes : List WorkflowyNode} (h : ∀ node∈nodes, node.id≠id) :
    observeAll toLowercase id o nodes = o := by
  induction nodes generalizing o with
  | nil => rfl
  | cons node nodes ih =>
    obtain ⟨hne,h⟩ := List.forall_mem_cons.mp h
    rw [observeAll,if_neg (Ne.symm hne),ih h]

/-- Leaving out nodes of other ids changes nothing. -/
theorem observeAll_filter {id : String} {o : Option NameIndexEntry} {nodes : List WorkflowyNode}
    {p : WorkflowyNode → Bool} (hp : ∀ node∈nodes, node.id=id → p node = true) :
    observeAll toLowercase id o (nodes.filter p) = observeAll toLowercase id o nodes := by
  induction nodes generalizing o with
  | nil => rfl
  | cons node nodes ih =>
    obtain ⟨hnode,hp⟩ := List.forall_mem_cons.mp hp
    by_cases hkeep : p node = true
    · rw [List.filter_cons_of_pos hkeep,observeAll,observeAll,ih hp]
    · have hid : id≠node.id := fun hid => hkeep (hnode hid.symm)
      rw [List.filter_cons_of_neg hkeep,observeAll,if_neg hid,ih hp]

theorem observeAll_of_nodup {nodes : List WorkflowyNode} {node : WorkflowyNode}
    (hnd : (nodes.map WorkflowyNode.id).Nodup) (hmem : node∈nodes) :
    observeAll toLowercase node.id none nodes = some (.ofNode node) := by
  induction nodes with
  | nil => exact absurd hmem (List.not_mem_nil)
  | cons m nodes ih =>
    obtain ⟨hno,hnd⟩ := List.nodup_cons.mp hnd
    rcases List.mem_cons.mp hmem with rfl | hmem
    · rw [observeAll,if_pos rfl,observeAll_of_absent]
      · rfl
      · exact fun n hn hid => hno (List.mem_map.mpr ⟨n,hn,hid⟩)
    · have hne : node.id≠m.id := fun hid => hno (List.mem_map.mpr ⟨node,hmem,hid⟩)
      rw [observeAll,if_neg hne,ih hnd hmem]

/-- A batch that leaves the index clean has left it as it was. -/
theorem ingest_of_clean {nodes : List WorkflowyNode}
    (h : (idx.ingest toLowercase nodes).dirty = false) : idx.ingest toLowercase nodes = idx := by
  induction nodes generalizing idx with
  | nil => rfl
  | cons node nodes ih =>
    have hrest : (idx.ingestNode toLowercase node).ingest toLowercase nodes =
        idx.ingestNode toLowercase node := ih h
    have hdirty : (idx.ingestNode toLowercase node).dirty = false := by rw [← hrest]; exact h
    refine hrest.trans ?_
    by_cases hs : idx.sameContent toLowercase node = true
    · exact if_pos hs
    · rw [NameIndex.ingestNode,if_neg hs] at hdirty
      exact absurd hdirty (by simp [NameIndex.addNode])

theorem Wf.of_maps {idx' : NameIndex} (h : idx.Wf toLowercase) (hn : idx'.byName = idx.byName)
    (hi : idx'.byId = idx.byId) : idx'.Wf toLowercase :=
  ⟨hn ▸ hi ▸ h.filed,hn ▸ hi ▸ h.indexed,hn ▸ h.distinct,hn ▸ h.nonempty⟩

theorem Wf.invalidateNode (h : idx.Wf toLowercase) (x : String) :
    (idx.invalidateNode x).Wf toLowercase := by
  unfold NameIndex.invalidateNode
  split
  · exact (h.removeLocked x).of_maps rfl rfl
  · exact h.removeLocked x

theorem lookup_invalidateNode (h : idx.Wf toLowercase) (x id : String) :
    (idx.invalidateNode x).lookupEntryById id =
      if id=x then none else idx.lookupEntryById id := by
  rw [← lookup_removeLocked h]
  unfold NameIndex.invalidateNode
  split <;> rfl

theorem replica_invalidateNode (h : idx.Wf toLowercase) (x : String) :
    (idx.invalidateNode x).replica = idx.replica.forget x := by
  refine Replica.ext (fun id => ?_) fun id => ?_
  · simp [lookup_invalidateNode h,Replica.forget,Function.update_apply]
  · have hx : idx.byId.lookup x = none ↔ idx.lookupEntryById x = none := byId_eq_none h
    cases hl : idx.byId.lookup x with
    | none =>
      have hn := hx.mp hl
      simp [NameIndex.invalidateNode,hl,hn,Replica.forget,removeLocked]
    | some key =>
      have hn : idx.lookupEntryById x ≠ none := fun hn => by simp [hx.mpr hn] at hl
      simp [NameIndex.invalidateNode,hl,hn,Replica.forget,removeLocked,or_comm]

theorem Wf.clear (idx : NameIndex) : idx.clear.Wf toLowercase :=
  ⟨by simp [NameIndex.clear],by simp [NameIndex.clear],by simp [NameIndex.clear],
    by simp [NameIndex.clear]⟩

/-- Clearing forgets everything indexed at once. -/
theorem replica_clear (h : idx.Wf toLowercase) :
    idx.clear.replica =
      ⟨fun _ => none,{id | id∈idx.tombstones ∨ idx.lookupEntryById id ≠ none}⟩ := by
  refine Replica.ext (fun id => ?_) fun id => ?_
  · simp [replica,NameIndex.clear,lookupEntryById]
  · have hid : id∈idx.byId.keys ↔ idx.lookupEntryById id ≠ none := by
      rw [ne_eq,← byId_eq_none h,AList.lookup_eq_none,not_not,AList.mem_keys]
    have htomb : idx.clear.tombstones = idx.tombstones ∪ idx.byId.keys.toFinset := by
      cases hk : idx.byId.keys with
      | nil => simp [NameIndex.clear,hk]
      | cons k ks => simp [NameIndex.clear,hk]
    simp only [dead_replica,htomb,Finset.mem_union,List.mem_toFinset,Set.mem_ofPred_eq,hid]

end NameIndex
end WorkflowyMcp
