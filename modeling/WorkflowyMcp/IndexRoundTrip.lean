import WorkflowyMcp.IndexInvariant
import WorkflowyMcp.Text

/-! A save read back: what a fresh index loads from the file a save wrote, what saving that
index writes, and what a save that fails leaves behind. -/
namespace WorkflowyMcp.NameIndex
open Runs
variable {toLowercase : String → String} {tokens : List String} {idx merged fresh : NameIndex}

/-- The calls on an index that has a save path. -/
inductive IndexCall where
  | op (op : IndexOp)
  | loadFromDisk (disk : Disk) (io : DiskIo)
  | saveToDisk (disk : Disk) (io : DiskIo)
  | refreshFromDiskIfChanged (disk : Disk) (io : DiskIo)

def after (toLowercase : String → String) (tokens : List String) (idx : NameIndex) :
    IndexCall → NameIndex
  | .op op => idx.perform toLowercase op
  | .loadFromDisk disk io => (idx.loadFromDisk toLowercase disk io).2
  | .saveToDisk disk io => (idx.saveToDisk toLowercase tokens disk io).2.1
  | .refreshFromDiskIfChanged disk io => (idx.refreshFromDiskIfChanged toLowercase disk io).2

theorem Wf.after (h : idx.Wf toLowercase) (call : IndexCall) :
    (idx.after toLowercase tokens call).Wf toLowercase := by
  cases call with
  | op op => exact h.perform op
  | loadFromDisk disk io => exact (readOf_loadFromDisk h disk io).wf
  | saveToDisk disk io => exact h.saveToDisk tokens disk io
  | refreshFromDiskIfChanged disk io => exact (readOf_refreshFromDisk h disk io).wf

theorem wf_calls (calls : List IndexCall) :
    (run (after toLowercase tokens) {} calls).Wf toLowercase :=
  run_keeps (I := fun idx : NameIndex => idx.Wf toLowercase) (fun _ call h => h.after call) .empty calls

/-- What a save of this index writes, before it is put in order. -/
def kept (tokens : List String) (idx : NameIndex) : List NameIndexEntry :=
  idx.entries.filter fun e => e.nodeId∉excludedIds (idx.entries.map NameIndexEntry.persisted) tokens

theorem mem_kept {e : NameIndexEntry} :
    e∈idx.kept tokens ↔ e∈idx.entries ∧ e.nodeId∉idx.withheld tokens := by
  simp [kept,withheld,mem_excludedIds]

theorem snapshot_nodes (tokens : List String) (idx : NameIndex) (now : Nat) :
    (idx.snapshot tokens now).nodes =
      sortByKey PersistedEntry.id ((idx.kept tokens).map NameIndexEntry.persisted) := by
  rw [snapshot,kept,List.filter_map]
  rfl

/-- A fresh index that holds what `idx` does not withhold. -/
structure Reloads (toLowercase : String → String) (tokens : List String)
    (idx fresh : NameIndex) : Prop where
  wf : fresh.Wf toLowercase
  lookup : ∀ id, fresh.lookupEntryById id =
    (idx.replica.publish (idx.withheld tokens)) id

theorem reloads_snapshot (h : idx.Wf toLowercase) (tokens : List String) (now mtime : Nat) {io : DiskIo}
    (hio : io.read = none) :
    let r := ({} : NameIndex).loadFromDisk toLowercase
      ⟨.snapshot (idx.snapshot tokens now),mtime⟩ io
    r.1 = .ok (idx.snapshot tokens now).nodes.length ∧ Reloads toLowercase tokens idx r.2 := by
  have hload : ({} : NameIndex).loadFromDisk toLowercase
      ⟨.snapshot (idx.snapshot tokens now),mtime⟩ io =
      (.ok (idx.snapshot tokens now).nodes.length,
        { ({} : NameIndex).ingest toLowercase
            ((idx.snapshot tokens now).nodes.map PersistedEntry.toNode) with dirty := false }) := by
    simp [loadFromDisk,hio,snapshot]
  rw [hload]
  have hwf : (({} : NameIndex).ingest toLowercase
      ((idx.snapshot tokens now).nodes.map PersistedEntry.toNode)).Wf toLowercase := Wf.empty.ingest _
  refine ⟨rfl,hwf.of_maps rfl rfl,fun id => ?_⟩
  rw [← content_snapshot h tokens now]
  exact lookup_ingest .empty _ id

/-- Nothing that was kept is excluded among what was kept. -/
theorem Reloads.kept (hr : Reloads toLowercase tokens idx fresh) (h : idx.Wf toLowercase) :
    fresh.entries.Perm (idx.kept tokens) ∧ (fresh.kept tokens).Perm (idx.kept tokens) := by
  have hmem : ∀ e, e∈fresh.entries ↔ e∈idx.kept tokens := fun e => by
    rw [mem_entries_iff hr.wf,hr.lookup,Replica.publish_eq_some,mem_kept,mem_replica,
      ← mem_entries_iff h,and_comm]
  have hfresh : fresh.entries.Nodup := (nodup_entries hr.wf).of_map _
  have hkept : (idx.kept tokens).Nodup := ((nodup_entries h).of_map _).filter _
  have hall : fresh.kept tokens = fresh.entries := by
    refine List.filter_eq_self.mpr fun e he => ?_
    have hnot := (mem_kept.mp ((hmem e).mp he)).2
    have hsub : fresh.entries.map NameIndexEntry.persisted ⊆
        idx.entries.map NameIndexEntry.persisted :=
      List.map_subset _ fun f hf => (mem_kept.mp ((hmem f).mp hf)).1
    simpa [mem_excludedIds] using fun hx : Excluded _ _ _ => hnot (hx.mono hsub)
  have hperm : fresh.entries.Perm (idx.kept tokens) :=
    (List.perm_ext_iff_of_nodup hfresh hkept).mpr hmem
  exact ⟨hperm,hall ▸ hperm⟩

/-- A save onto a file that lists no more than the index holds adopts nothing. -/
theorem mergeFromDisk_known (h : idx.Wf toLowercase) {file : IndexFile} {io : DiskIo}
    (hknown : ∀ n∈file.nodes, idx.lookupEntryById n.id ≠ none)
    (hm : idx.mergeFromDisk toLowercase file io = .ok merged) : merged = idx := by
  have hnone : file.nodes.filter idx.adopts = [] := by
    refine List.filter_eq_nil_iff.mpr fun n hn hadopt => ?_
    exact hknown n hn ((adopts_iff h n).mp hadopt).1
  rw [mergeFromDisk_ok hm,adoptList,hnone]
  rfl

/-- Saving what was loaded writes the list it was loaded from. -/
theorem Reloads.saves (hr : Reloads toLowercase tokens idx fresh) (h : idx.Wf toLowercase)
    {now mtime : Nat} {io : DiskIo}
    (hok : (fresh.saveToDisk toLowercase tokens
      ⟨.snapshot (idx.snapshot tokens now),mtime⟩ io).1 = .ok ()) :
    (fresh.saveToDisk toLowercase tokens
      ⟨.snapshot (idx.snapshot tokens now),mtime⟩ io).2.2.file.nodes =
      (idx.snapshot tokens now).nodes := by
  rcases saveToDisk_cases toLowercase tokens fresh
      ⟨.snapshot (idx.snapshot tokens now),mtime⟩ io with
    ⟨-,e,hs⟩ | ⟨merged,-,hm,⟨e,hs⟩ | hs⟩
  · simp [hs] at hok
  · simp [hs] at hok
  · obtain rfl : merged = fresh := mergeFromDisk_known hr.wf (fun n hn => by
      obtain ⟨e,he,rfl,hx⟩ := mem_snapshot.mp hn
      have hsome : idx.replica.publish (idx.withheld tokens) e.nodeId = some e :=
        Replica.publish_eq_some.mpr ⟨hx,(mem_entries_iff h).mp he⟩
      show fresh.lookupEntryById e.nodeId ≠ none
      rw [hr.lookup,hsome]
      simp) hm
    rw [hs]
    show (merged.snapshot tokens io.now).nodes = _
    rw [snapshot_nodes,snapshot_nodes]
    refine sortByKey_of_perm ((hr.kept h).2.map _) ?_
    rw [List.map_map]
    exact (nodup_entries hr.wf).sublist (List.filter_sublist.map _)

theorem dirty_ingest (toLowercase : String → String) (idx : NameIndex)
    (nodes : List WorkflowyNode) (hd : idx.dirty = true) :
    (idx.ingest toLowercase nodes).dirty = true := by
  induction nodes generalizing idx with
  | nil => exact hd
  | cons n nodes ih =>
    refine ih (idx.ingestNode toLowercase n) ?_
    unfold ingestNode
    split
    · exact hd
    · rfl

/-- A merge sets the dirty flag when it adopts an entry, and does not touch it otherwise. -/
theorem dirty_mergeFromDisk (h : idx.Wf toLowercase) {file : IndexFile} {io : DiskIo}
    (hm : idx.mergeFromDisk toLowercase file io = .ok merged) :
    merged.dirty = (idx.dirty || file.nodes.any idx.adopts) := by
  rw [mergeFromDisk_ok hm,adoptList]
  have hany : file.nodes.any idx.adopts = !(file.nodes.filter idx.adopts).isEmpty := by
    rw [Bool.eq_iff_iff]
    simp [List.filter_eq_nil_iff]
  rw [hany]
  cases hf : file.nodes.filter idx.adopts with
  | nil => simp [ingest]
  | cons n rest =>
    have hnew := (adopts_iff h n).mp (List.mem_filter.mp (hf ▸ List.mem_cons_self)).2
    have hchanged : idx.sameContent toLowercase n.toNode = false := by
      rw [sameContent_eq h]
      simp [PersistedEntry.toNode,hnew.1]
    have hdirty : (idx.ingestNode toLowercase n.toNode).dirty = true := by
      simp [ingestNode,hchanged,addNode]
    have hrest := dirty_ingest toLowercase (idx.ingestNode toLowercase n.toNode)
      (rest.map PersistedEntry.toNode) hdirty
    simpa [ingest] using hrest

/-- A completed save can be read back: a fresh index gets the entries that were not withheld,
each once, and writes the same list. A save that fails leaves the file and the tombstones as they
were, and the dirty flag too unless it had merged an entry of the file by then. -/
theorem saved_reloads (toLowercase : String → String) (tokens : List String)
    (calls : List IndexCall) (disk : Disk) (io : DiskIo) :
    let idx := run (after toLowercase tokens) {} calls
    let r := idx.saveToDisk toLowercase tokens disk io
    (r.1 = .ok () → ∀ ioLoad : DiskIo, ioLoad.read = none →
      let loaded := ({} : NameIndex).loadFromDisk toLowercase r.2.2 ioLoad
      loaded.1 = .ok (r.2.1.kept tokens).length ∧
        loaded.2.entries.Perm (r.2.1.kept tokens) ∧
        (loaded.2.entries.map NameIndexEntry.nodeId).Nodup ∧
        ∀ ioSave, (loaded.2.saveToDisk toLowercase tokens r.2.2 ioSave).1 = .ok () →
          (loaded.2.saveToDisk toLowercase tokens r.2.2 ioSave).2.2.file.nodes = r.2.2.file.nodes) ∧
    ∀ e, r.1 = .error e →
      r.2.2 = disk ∧ r.2.1.tombstones = idx.tombstones ∧
        r.2.1.dirty = (idx.dirty ||
          saveMerges toLowercase idx disk io && disk.file.nodes.any idx.adopts) := by
  intro idx r
  have h : idx.Wf toLowercase := wf_calls calls
  rcases saveToDisk_cases toLowercase tokens idx disk io with
    ⟨hno,e,hs⟩ | ⟨merged,hyes,hm,⟨e,hs⟩ | hs⟩
  · refine ⟨fun hok => ?_,fun _ _ => ?_⟩
    · simp [r,hs] at hok
    · simp [r,hs,hno]
  · refine ⟨fun hok => ?_,fun _ _ => ?_⟩
    · simp [r,hs] at hok
    · simp [r,hs,hyes,tombstones_mergeFromDisk hm,dirty_mergeFromDisk h hm]
  · have hwf := h.mergeFromDisk hm
    have hkept : (merged.afterSave io).kept tokens = merged.kept tokens := by
      unfold afterSave stampMtime
      split <;> rfl
    refine ⟨fun _ ioLoad hio => ?_,fun e he => ?_⟩
    · simp only [r,hs,hkept]
      obtain ⟨hcount,hr⟩ := reloads_snapshot hwf tokens io.now io.mtime hio
      refine ⟨?_,(hr.kept hwf).1,nodup_entries hr.wf,fun ioSave hok => hr.saves hwf hok⟩
      rw [hcount,snapshot_nodes,(sortByKey_perm _).length_eq,List.length_map]
    · simp [r,hs] at he

/-- The rename of a clean index's save fails, after an entry of the file was adopted. -/
theorem failed_save_dirty :
    let disk : Disk := { file := .snapshot ⟨3,0,[⟨"a","Alpha",none,none,none⟩]⟩ }
    let r := ({} : NameIndex).saveToDisk asciiLowercase [] disk { rename := some (.other "no space") }
    r.1.isOk = false ∧ ({} : NameIndex).dirty = false ∧ r.2.1.dirty = true := by
  decide +kernel

end WorkflowyMcp.NameIndex
