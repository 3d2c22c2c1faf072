import WorkflowyMcp.IndexReplica

/-! What the disk operations do to the replica and to the file: a merge adopts the
file's content, a completed save exchanges with it, a failed one leaves it alone. -/
namespace WorkflowyMcp
variable {toLowercase : String → String}

/-- The entries a reader of the file ends up with, by id. -/
def IndexFile.content (toLowercase : String → String) (file : IndexFile) (id : String) :
    Option NameIndexEntry :=
  NameIndex.observeAll toLowercase id none (file.nodes.map PersistedEntry.toNode)

theorem IndexFile.content_eq_none {file : IndexFile} {id : String} :
    file.content toLowercase id = none ↔ ∀ n∈file.nodes, n.id≠id := by
  simp [content,NameIndex.observeAll_eq_none,PersistedEntry.toNode]

namespace NameIndex
variable {idx : NameIndex}

/-- What a merge of the file ingests. -/
def adoptList (idx : NameIndex) (file : IndexFile) : List WorkflowyNode :=
  (file.nodes.filter idx.adopts).map PersistedEntry.toNode

theorem mergeFromDisk_ok {file : IndexFile} {io : DiskIo} {merged : NameIndex}
    (hm : idx.mergeFromDisk toLowercase file io = .ok merged) :
    merged = idx.ingest toLowercase (idx.adoptList file) := by
  unfold mergeFromDisk at hm
  cases hr : io.read with
  | some e => simp [hr] at hm
  | none =>
    cases file with
    | missing | malformed =>
      simp only [hr,Except.ok.injEq] at hm
      exact hm.symm
    | snapshot snap =>
      simp only [hr] at hm
      split at hm
      · simp at hm
      · exact (Except.ok.inj hm).symm

theorem Wf.mergeFromDisk (h : idx.Wf toLowercase) {file : IndexFile} {io : DiskIo}
    {merged : NameIndex} (hm : idx.mergeFromDisk toLowercase file io = .ok merged) :
    merged.Wf toLowercase :=
  mergeFromDisk_ok hm ▸ h.ingest _

theorem tombstones_mergeFromDisk {file : IndexFile} {io : DiskIo} {merged : NameIndex}
    (hm : idx.mergeFromDisk toLowercase file io = .ok merged) :
    merged.tombstones = idx.tombstones :=
  mergeFromDisk_ok hm ▸ tombstones_ingest _

theorem mergeFromDisk_of_clean {file : IndexFile} {io : DiskIo} {merged : NameIndex}
    (hm : idx.mergeFromDisk toLowercase file io = .ok merged) (hc : merged.dirty = false) :
    merged = idx := by
  obtain rfl := mergeFromDisk_ok hm
  exact ingest_of_clean hc

theorem adopts_iff (h : idx.Wf toLowercase) (e : PersistedEntry) :
    idx.adopts e = true ↔ idx.lookupEntryById e.id = none ∧ e.id∉idx.tombstones := by
  simp [adopts,byId_eq_none h]

theorem adoptList_absent (h : idx.Wf toLowercase) {file : IndexFile} {id : String}
    (hid : idx.lookupEntryById id ≠ none ∨ id∈idx.tombstones) :
    ∀ node∈idx.adoptList file, node.id≠id := by
  intro node hnode heq
  obtain ⟨n,hn,rfl⟩ := List.mem_map.mp hnode
  obtain ⟨hnone,hdead⟩ := (adopts_iff h n).mp (List.mem_filter.mp hn).2
  obtain rfl : n.id=id := heq
  exact hid.elim (fun hne => hne hnone) hdead

theorem observeAll_adoptList (h : idx.Wf toLowercase) {file : IndexFile} {id : String}
    (hnone : idx.lookupEntryById id = none) (hdead : id∉idx.tombstones) :
    observeAll toLowercase id none (idx.adoptList file) = file.content toLowercase id := by
  have hmap : idx.adoptList file = (file.nodes.map PersistedEntry.toNode).filter fun node =>
      idx.adopts ⟨node.id,node.name,node.parentId,node.description,node.lastModified⟩ := by
    rw [List.filter_map]
    rfl
  rw [hmap,observeAll_filter]
  · rfl
  · exact fun node _ hid => (adopts_iff h _).mpr (hid ▸ ⟨hnone,hdead⟩)

/-- Memory wins, the buried are skipped, everything else in the file is adopted. -/
theorem replica_mergeFromDisk (h : idx.Wf toLowercase) {file : IndexFile} {io : DiskIo}
    {merged : NameIndex} (hm : idx.mergeFromDisk toLowercase file io = .ok merged) :
    merged.replica = idx.replica.adopt (file.content toLowercase) := by
  refine Replica.ext (fun id => ?_) fun id => ?_
  · rw [mem_replica,mergeFromDisk_ok hm,lookup_ingest h]
    cases hl : idx.lookupEntryById id with
    | some e =>
      rw [Replica.mem_adopt_of_mem (r := idx.replica) hl]
      exact observeAll_of_absent (adoptList_absent h (.inl (by simp [hl])))
    | none =>
      by_cases hd : id∈idx.tombstones
      · rw [Replica.mem_adopt_of_dead (r := idx.replica) hd,mem_replica,hl]
        exact observeAll_of_absent (adoptList_absent h (.inr hd))
      · rw [Replica.mem_adopt_of_new (r := idx.replica) hl hd]
        exact observeAll_adoptList h hl hd
  · simp [tombstones_mergeFromDisk hm]

theorem lookup_mergeFromDisk (h : idx.Wf toLowercase) {file : IndexFile} {io : DiskIo}
    {merged : NameIndex} (hm : idx.mergeFromDisk toLowercase file io = .ok merged) (id : String) :
    merged.lookupEntryById id = (idx.replica.adopt (file.content toLowercase)).mem id :=
  congrArg (fun r => r.mem id) (replica_mergeFromDisk h hm)

theorem nodup_entries (h : idx.Wf toLowercase) :
    (idx.entries.map NameIndexEntry.nodeId).Nodup := by
  rw [entries,List.map_flatten,List.nodup_flatten]
  constructor
  · intro ids hids
    obtain ⟨es,hes,rfl⟩ := List.mem_map.mp hids
    obtain ⟨key,hk⟩ := KeyMap.mem_values.mp hes
    exact h.distinct key es hk
  · refine List.pairwise_map.mpr (KeyMap.pairwise_values fun j k es fs hj hk hne => ?_)
    intro id hes hfs
    obtain ⟨e,he,rfl⟩ := List.mem_map.mp hes
    obtain ⟨f,hf,hid⟩ := List.mem_map.mp hfs
    have hkey := (h.filed k fs hk f hf).1
    rw [hid,(h.filed j es hj e he).1] at hkey
    exact hne (Option.some.inj hkey)

/-- The ids a save of this index withholds. -/
def withheld (tokens : List String) (idx : NameIndex) : Set String :=
  {id | Excluded (idx.entries.map NameIndexEntry.persisted) tokens id}

theorem snapshot_nodes_perm (tokens : List String) (now : Nat) :
    (idx.snapshot tokens now).nodes.Perm ((idx.entries.map NameIndexEntry.persisted).filter
      fun n => n.id∉excludedIds (idx.entries.map NameIndexEntry.persisted) tokens) :=
  sortByKey_perm _

theorem mem_snapshot {tokens : List String} {now : Nat} {n : PersistedEntry} :
    n∈(idx.snapshot tokens now).nodes ↔
      ∃ e∈idx.entries, e.persisted=n ∧ e.nodeId∉idx.withheld tokens := by
  rw [(snapshot_nodes_perm tokens now).mem_iff,List.mem_filter]
  simp only [List.mem_map,mem_excludedIds,decide_not,Bool.not_eq_eq_eq_not,Bool.not_true,
    decide_eq_false_iff_not]
  constructor
  · rintro ⟨⟨e,he,rfl⟩,hx⟩
    exact ⟨e,he,rfl,hx⟩
  · rintro ⟨e,he,rfl,hx⟩
    exact ⟨⟨e,he,rfl⟩,hx⟩

theorem nodup_snapshot (h : idx.Wf toLowercase) (tokens : List String) (now : Nat) :
    ((idx.snapshot tokens now).nodes.map PersistedEntry.id).Nodup := by
  rw [((snapshot_nodes_perm tokens now).map _).nodup_iff]
  refine List.Nodup.sublist (List.filter_sublist.map _) ?_
  rw [List.map_map]
  exact nodup_entries h

theorem content_of_mem_snapshot (h : idx.Wf toLowercase) {tokens : List String} {now : Nat}
    {n : PersistedEntry} (hn : n∈(idx.snapshot tokens now).nodes) :
    (IndexFile.snapshot (idx.snapshot tokens now)).content toLowercase n.id =
      some (.ofNode n.toNode) := by
  have hnd : (((idx.snapshot tokens now).nodes.map PersistedEntry.toNode).map
      WorkflowyNode.id).Nodup := by
    rw [List.map_map]
    exact nodup_snapshot h tokens now
  exact observeAll_of_nodup hnd (List.mem_map.mpr ⟨n,hn,rfl⟩)

/-- A snapshot publishes what is not withheld. -/
theorem content_snapshot (h : idx.Wf toLowercase) (tokens : List String) (now : Nat) :
    (IndexFile.snapshot (idx.snapshot tokens now)).content toLowercase =
      idx.replica.publish (idx.withheld tokens) := by
  refine funext fun id => Option.ext fun e => ?_
  rw [Replica.publish_eq_some,mem_replica,lookup_eq_some h]
  constructor
  · intro hc
    obtain ⟨n,hn,rfl⟩ : ∃ n∈(idx.snapshot tokens now).nodes, n.id=id := by
      by_contra hno
      push Not at hno
      have hnone : (IndexFile.snapshot (idx.snapshot tokens now)).content toLowercase id = none :=
        IndexFile.content_eq_none.mpr hno
      simp [hnone] at hc
    obtain ⟨f,hf,rfl,hx⟩ := mem_snapshot.mp hn
    obtain rfl : f=e := Option.some.inj ((content_of_mem_snapshot h hn).symm.trans hc)
    exact ⟨hx,hf,rfl⟩
  · rintro ⟨hx,he,rfl⟩
    exact content_of_mem_snapshot h (mem_snapshot.mpr ⟨e,he,rfl,hx⟩)

/-- What reading a file can do to an index: ids the file does not list stay as they
are, and nothing is buried or dug up. -/
structure ReadOf (toLowercase : String → String) (file : IndexFile) (idx idx' : NameIndex) :
    Prop where
  wf : idx'.Wf toLowercase
  tombstones : idx'.tombstones = idx.tombstones
  frame : ∀ id, file.content toLowercase id = none → idx'.lookupEntryById id =
    idx.lookupEntryById id

theorem ReadOf.refl (h : idx.Wf toLowercase) (file : IndexFile) :
    ReadOf toLowercase file idx idx := ⟨h,rfl,fun _ _ => rfl⟩

theorem readOf_mergeFromDisk (h : idx.Wf toLowercase) {file : IndexFile} {io : DiskIo}
    {merged : NameIndex} (hm : idx.mergeFromDisk toLowercase file io = .ok merged) :
    ReadOf toLowercase file idx merged := by
  refine ⟨h.mergeFromDisk hm,tombstones_mergeFromDisk hm,fun id hno => ?_⟩
  rw [lookup_mergeFromDisk h hm]
  simp [Replica.adopt,hno]

theorem readOf_loadFromDisk (h : idx.Wf toLowercase) (disk : Disk) (io : DiskIo) :
    ReadOf toLowercase disk.file idx (idx.loadFromDisk toLowercase disk io).2 := by
  unfold loadFromDisk
  cases hf : disk.file with
  | missing => exact .refl h _
  | malformed error => cases io.read <;> exact .refl h _
  | snapshot snap =>
    cases io.read with
    | some e => exact .refl h _
    | none =>
      by_cases hv : snap.version > PERSIST_SCHEMA_VERSION
      · simp only [if_pos hv]
        exact .refl h _
      · simp only [if_neg hv]
        have hwf := h.ingest (snap.nodes.map PersistedEntry.toNode)
        refine ⟨hwf.of_maps rfl rfl,tombstones_ingest _,fun id hno => ?_⟩
        refine (lookup_ingest h _ id).trans (observeAll_of_absent fun node hnode => ?_)
        obtain ⟨n,hn,rfl⟩ := List.mem_map.mp hnode
        exact IndexFile.content_eq_none.mp hno n hn

theorem readOf_refreshFromDisk (h : idx.Wf toLowercase) (disk : Disk) (io : DiskIo) :
    ReadOf toLowercase disk.file idx (idx.refreshFromDiskIfChanged toLowercase disk io).2 := by
  unfold refreshFromDiskIfChanged
  split
  · exact .refl h _
  · exact .refl h _
  · split
    · exact .refl h _
    · split
      · exact .refl h _
      · rename_i hm
        have hread := readOf_mergeFromDisk h hm
        exact ⟨hread.wf.of_maps rfl rfl,hread.tombstones,hread.frame⟩

/-- The index after a completed save whose merge gave `merged`. -/
def afterSave (merged : NameIndex) (io : DiskIo) : NameIndex :=
  ((merged.stampMtime io).clearDirty).clearTombstones

@[simp] theorem lookup_afterSave (merged : NameIndex) (io : DiskIo) (id : String) :
    (merged.afterSave io).lookupEntryById id = merged.lookupEntryById id := by
  unfold afterSave stampMtime
  split <;> rfl

@[simp] theorem tombstones_afterSave (merged : NameIndex) (io : DiskIo) :
    (merged.afterSave io).tombstones = ∅ := rfl

theorem Wf.afterSave {merged : NameIndex} (h : merged.Wf toLowercase) (io : DiskIo) :
    (merged.afterSave io).Wf toLowercase := by
  unfold NameIndex.afterSave stampMtime
  split <;> exact h.of_maps rfl rfl

/-- A save gets as far as its merge. -/
def saveMerges (toLowercase : String → String) (idx : NameIndex) (disk : Disk)
    (io : DiskIo) : Bool :=
  io.createDir.isNone && io.lock.isNone && (idx.mergeFromDisk toLowercase disk.file io).isOk

/-- A save fails before its merge, or fails after it, or completes with what it merged;
only the last changes the file. -/
theorem saveToDisk_cases (toLowercase : String → String) (tokens : List String) (idx : NameIndex)
    (disk : Disk) (io : DiskIo) :
    (saveMerges toLowercase idx disk io = false ∧
        ∃ e, idx.saveToDisk toLowercase tokens disk io = (.error e,idx,disk)) ∨
      ∃ merged, saveMerges toLowercase idx disk io = true ∧
        idx.mergeFromDisk toLowercase disk.file io = .ok merged ∧
        ((∃ e, idx.saveToDisk toLowercase tokens disk io = (.error e,merged,disk)) ∨
          idx.saveToDisk toLowercase tokens disk io =
            (.ok (),merged.afterSave io,⟨.snapshot (merged.snapshot tokens io.now),io.mtime⟩)) := by
  cases hc : io.createDir with
  | some e => exact .inl ⟨by simp [saveMerges,hc],e,by simp [saveToDisk,hc]⟩
  | none =>
    cases hl : io.lock with
    | some e => exact .inl ⟨by simp [saveMerges,hl],e,by simp [saveToDisk,hc,hl]⟩
    | none =>
      cases hm : idx.mergeFromDisk toLowercase disk.file io with
      | error e =>
        exact .inl ⟨by simp [saveMerges,hm,Except.isOk,Except.toBool],e,by
          simp [saveToDisk,hc,hl,hm]⟩
      | ok merged =>
        refine .inr ⟨merged,by simp [saveMerges,hc,hl,hm,Except.isOk,Except.toBool],rfl,?_⟩
        cases hw : io.write with
        | some e => exact .inl ⟨e,by simp [saveToDisk,hc,hl,hm,hw]⟩
        | none =>
          cases hr : io.rename with
          | some e => exact .inl ⟨e,by simp [saveToDisk,hc,hl,hm,hw,hr]⟩
          | none => exact .inr (by simp [saveToDisk,hc,hl,hm,hw,hr,afterSave])

theorem Wf.saveToDisk (h : idx.Wf toLowercase) (tokens : List String) (disk : Disk) (io : DiskIo) :
    ((idx.saveToDisk toLowercase tokens disk io).2.1).Wf toLowercase := by
  rcases saveToDisk_cases toLowercase tokens idx disk io with
    ⟨-,e,hs⟩ | ⟨merged,-,hm,⟨e,hs⟩ | hs⟩
  · rw [hs]; exact h
  · rw [hs]; exact h.mergeFromDisk hm
  · rw [hs]; exact (h.mergeFromDisk hm).afterSave io

end NameIndex
end WorkflowyMcp
