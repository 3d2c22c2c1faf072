import WorkflowyMcp.Lib.Overlay
import WorkflowyMcp.IndexRoundTrip

/-! `reindex --full-export`: the prior file is loaded, the whole export is ingested over it,
and the index is saved, all on an index with a save path. -/
namespace WorkflowyMcp
open NameIndex

inductive CommandError where
  | message (text : String)
  | io (e : IoError)
deriving DecidableEq, Repr

def exportFailed (e : WorkflowyError) : String :=
  "full export failed: " ++ e.display ++
    " (Workflowy throttles /nodes-export; wait ~65 s and retry)"

/- A load that fails leaves the index empty and the command goes on. -/
def cmdReindex (toLowercase : String → String) (tokens : List String) (disk : Disk)
    (ioLoad ioSave : DiskIo) (exportAll : Except WorkflowyError (List WorkflowyNode)) :
    Except CommandError Unit × NameIndex × Disk :=
  let idx := (({} : NameIndex).loadFromDisk toLowercase disk ioLoad).2
  match exportAll with
  | .error e => (.error (.message (exportFailed e)),idx,disk)
  | .ok nodes =>
    let saved := (idx.ingest toLowercase nodes).saveToDisk toLowercase tokens disk ioSave
    (saved.1.mapError .io,saved.2)

/-- The exported nodes that are not excluded, as the file stores them. -/
def exportedEntries (tokens : List String) (exported : List WorkflowyNode) : List PersistedEntry :=
  let nodes := exported.map fun n => (NameIndexEntry.ofNode n).persisted
  nodes.filter fun n => n.id∉excludedIds nodes tokens

def exportedRow (exported : List WorkflowyNode) (id : String) : Option NameIndexEntry :=
  (exported.find? fun n => n.id = id).map NameIndexEntry.ofNode

/- The entry of the prior file that the export does not replace: its id is not exported, or
   the exported node counts as unchanged although it differs. -/
def outlivingRow (toLowercase : String → String) (file : IndexFile) (loaded : Bool)
    (exported : List WorkflowyNode) (id : String) : Option NameIndexEntry :=
  (file.content toLowercase id).filter fun e =>
    decide (∀ n∈exported, n.id = id → loaded ∧ unchanged toLowercase e n ∧ e≠.ofNode n)

/-- By the parents in the table, the node lies under an excluded root. -/
abbrev Hidden (tokens : List String) (table : String → Option NameIndexEntry) (id : String) : Prop :=
  Overlay.Withheld (fun id => matchesToken tokens id = true) NameIndexEntry.parentId table id

/- Every entry of the prior file that the export does not replace is excluded, in the table of
   both and, where exported, in the export; and so is every exported node below one of them. -/
abbrev LeavesNothing (toLowercase : String → String) (tokens : List String) (file : IndexFile)
    (loaded : Bool) (exported : List WorkflowyNode) : Prop :=
  Overlay.Unseen (fun id => matchesToken tokens id = true) NameIndexEntry.parentId
    (outlivingRow toLowercase file loaded exported) (exportedRow exported)

section
variable {toLowercase : String → String} {tokens : List String} {file : IndexFile}
  {exported : List WorkflowyNode} {idx : NameIndex}

theorem excluded_iff_hidden {entries : List NameIndexEntry} {table : String → Option NameIndexEntry}
    (h : ∀ e, e∈entries ↔ table e.nodeId = some e) (hid : ∀ id e, table id = some e → e.nodeId = id)
    {id : String} : Excluded (entries.map NameIndexEntry.persisted) tokens id ↔
      Hidden tokens table id := by
  have hmem {n : PersistedEntry} (hn : n∈entries.map NameIndexEntry.persisted) :
      ∃ e, table n.id = some e ∧ e.parentId = n.parentId := by
    obtain ⟨e,he,rfl⟩ := List.mem_map.mp hn
    exact ⟨e,(h e).mp he,rfl⟩
  constructor
  · intro hx
    induction hx with
    | self hn hm =>
      obtain ⟨e,he,-⟩ := hmem hn
      exact .self he hm
    | root hn hp hm =>
      obtain ⟨e,he,hpar⟩ := hmem hn
      exact .root he (hpar.trans hp) hm
    | child hn hp _ ih =>
      obtain ⟨e,he,hpar⟩ := hmem hn
      exact .up he (hpar.trans hp) ih
  · intro hx
    have hlisted {k : String} {e : NameIndexEntry} (hk : table k = some e) :
        e.persisted∈entries.map NameIndexEntry.persisted ∧ e.persisted.id = k := by
      obtain rfl := hid k e hk
      exact ⟨List.mem_map_of_mem ((h e).mpr hk),rfl⟩
    induction hx with
    | self hk hm =>
      obtain ⟨hn,rfl⟩ := hlisted hk
      exact .self hn hm
    | root hk hp hm =>
      obtain ⟨hn,rfl⟩ := hlisted hk
      exact .root hn hp hm
    | up hk hp _ ih =>
      obtain ⟨hn,rfl⟩ := hlisted hk
      exact .child hn hp ih

theorem exportedRow_eq_some (hdistinct : (exported.map WorkflowyNode.id).Nodup) {id : String}
    {e : NameIndexEntry} :
    exportedRow exported id = some e ↔ ∃ n∈exported, n.id = id ∧ NameIndexEntry.ofNode n = e := by
  constructor
  · intro h
    obtain ⟨n,hn,rfl⟩ := Option.map_eq_some_iff.mp h
    exact ⟨n,List.mem_of_find?_eq_some hn,by simpa using List.find?_some hn,rfl⟩
  · rintro ⟨n,hn,rfl,rfl⟩
    have hsome : (exported.find? fun m => m.id = n.id).isSome := by
      rw [List.find?_isSome]
      exact ⟨n,hn,by simp⟩
    obtain ⟨m,hm⟩ := Option.isSome_iff_exists.mp hsome
    have hid : m.id = n.id := by simpa using List.find?_some hm
    obtain rfl := List.inj_on_of_nodup_map hdistinct (List.mem_of_find?_eq_some hm) hn hid
    rw [exportedRow,hm,Option.map_some]

theorem exportedRow_id (hdistinct : (exported.map WorkflowyNode.id).Nodup) (id : String)
    (e : NameIndexEntry) (h : exportedRow exported id = some e) : e.nodeId = id := by
  obtain ⟨n,-,rfl,rfl⟩ := (exportedRow_eq_some hdistinct).mp h
  rfl

theorem shown_id {table : String → Option NameIndexEntry}
    (h : ∀ id e, table id = some e → e.nodeId = id) (id : String) (e : NameIndexEntry)
    (he : Overlay.shown (fun id => matchesToken tokens id = true) NameIndexEntry.parentId table id =
      some e) : e.nodeId = id :=
  h id e (Overlay.shown_eq_some.mp he).2

theorem outliving_differs {loaded : Bool} (id : String) (e : NameIndexEntry)
    (h : outlivingRow toLowercase file loaded exported id = some e) : exportedRow exported id ≠ some e := by
  intro hrow
  obtain ⟨n,hn,rfl⟩ := Option.map_eq_some_iff.mp hrow
  have hall := (Option.filter_eq_some_iff.mp h).2
  have hsame := of_decide_eq_true hall n (List.mem_of_find?_eq_some hn)
    (by simpa using List.find?_some hn)
  exact hsame.2.2 rfl

/-- A batch without repeated ids: each listed id is observed once. -/
theorem observeAll_distinct (hdistinct : (exported.map WorkflowyNode.id).Nodup) (id : String)
    (o : Option NameIndexEntry) : observeAll toLowercase id o exported =
      match exported.find? fun n => n.id = id with
      | some n => some (observe toLowercase o n)
      | none => o := by
  induction exported generalizing o with
  | nil => rfl
  | cons n ns ih =>
    rw [List.map_cons,List.nodup_cons] at hdistinct
    by_cases hid : n.id = id
    · have hno : ∀ m∈ns, m.id≠id := fun m hm he =>
        hdistinct.1 (List.mem_map.mpr ⟨m,hm,he.trans hid.symm⟩)
      rw [observeAll,if_pos hid.symm,observeAll_of_absent hno,List.find?_cons_of_pos (by simpa using hid)]
    · rw [observeAll,if_neg (Ne.symm hid),ih hdistinct.2,List.find?_cons_of_neg (by simpa using hid)]

/-- A file that a save can merge gives its content to a load that can read it. -/
theorem lookup_loaded {disk : Disk} {ioSave : DiskIo} {merged : NameIndex} (ioLoad : DiskIo)
    (hm : idx.mergeFromDisk toLowercase disk.file ioSave = .ok merged) (id : String) :
    (({} : NameIndex).loadFromDisk toLowercase disk ioLoad).2.lookupEntryById id =
      if ioLoad.read = none then disk.file.content toLowercase id else none := by
  have hempty : ({} : NameIndex).lookupEntryById id = none := by simp [lookupEntryById]
  unfold loadFromDisk
  cases hf : disk.file with
  | missing => simp [IndexFile.content,IndexFile.nodes,observeAll,hempty]
  | malformed error =>
    cases hr : ioLoad.read with
    | none => simp [IndexFile.content,IndexFile.nodes,observeAll,hempty]
    | some e => simpa using hempty
  | snapshot snap =>
    cases hr : ioLoad.read with
    | some e => simpa using hempty
    | none =>
      have hversion : ¬snap.version > PERSIST_SCHEMA_VERSION := fun hnew => by
        unfold mergeFromDisk at hm
        rw [hf] at hm
        cases hs : ioSave.read with
        | some e => simp [hs] at hm
        | none => simp [hs,hnew] at hm
      simp only [if_neg hversion,if_true]
      exact lookup_ingest .empty _ id

theorem wf_loaded (toLowercase : String → String) (disk : Disk) (ioLoad : DiskIo) :
    ((({} : NameIndex).loadFromDisk toLowercase disk ioLoad).2).Wf toLowercase :=
  (readOf_loadFromDisk .empty disk ioLoad).wf

/-- What the index holds when the command saves it. -/
theorem lookup_rebuilt (hdistinct : (exported.map WorkflowyNode.id).Nodup) {disk : Disk}
    {ioLoad ioSave : DiskIo} {merged : NameIndex}
    (hm : ((({} : NameIndex).loadFromDisk toLowercase disk ioLoad).2.ingest toLowercase
      exported).mergeFromDisk toLowercase disk.file ioSave = .ok merged) :
    merged.lookupEntryById = Overlay.laidOver
      (outlivingRow toLowercase disk.file (decide (ioLoad.read = none)) exported)
      (exportedRow exported) := by
  funext id
  have hwf := (wf_loaded toLowercase disk ioLoad).ingest exported
  have htomb : (({} : NameIndex).loadFromDisk toLowercase disk ioLoad).2.tombstones = ∅ :=
    (readOf_loadFromDisk .empty disk ioLoad).tombstones
  have hlook : merged.lookupEntryById id =
      (observeAll toLowercase id (if ioLoad.read = none then disk.file.content toLowercase id
        else none) exported).or (disk.file.content toLowercase id) := by
    have hload := lookup_loaded ioLoad hm id
    rw [lookup_mergeFromDisk hwf hm,← hload,← lookup_ingest (wf_loaded toLowercase disk ioLoad)]
    simp [Replica.adopt,htomb]
  rw [hlook,observeAll_distinct hdistinct]
  unfold Overlay.laidOver outlivingRow exportedRow
  cases hfind : exported.find? fun n => n.id = id with
  | none =>
    have hno : ∀ n∈exported, n.id≠id := by simpa using List.find?_eq_none.mp hfind
    have hfilter : (disk.file.content toLowercase id).filter (fun e => decide (∀ n∈exported,
        n.id = id → decide (ioLoad.read = none) = true ∧ unchanged toLowercase e n ∧ e≠.ofNode n)) =
        disk.file.content toLowercase id := by
      cases disk.file.content toLowercase id with
      | none => rfl
      | some e =>
        refine if_pos ?_
        simpa using fun n hn hid => absurd hid (hno n hn)
    simp only [hfilter,Option.map_none,Option.or_none]
    split <;> simp
  | some n =>
    have hn := List.mem_of_find?_eq_some hfind
    have hid : n.id = id := by simpa using List.find?_some hfind
    have honly : ∀ e : NameIndexEntry, (∀ m∈exported, m.id = id →
        decide (ioLoad.read = none) = true ∧ unchanged toLowercase e m ∧ e≠.ofNode m) ↔
        ioLoad.read = none ∧ unchanged toLowercase e n ∧ e≠.ofNode n := fun e => by
      constructor
      · intro h
        simpa using h n hn hid
      · intro h m hm hmid
        obtain rfl := List.inj_on_of_nodup_map hdistinct hm hn (hmid.trans hid.symm)
        simpa using h
    simp only [honly,Option.map_some,Option.some_or]
    by_cases hread : ioLoad.read = none
    · cases hc : disk.file.content toLowercase id with
      | none => simp [hread,observe]
      | some e =>
        by_cases hu : unchanged toLowercase e n
        · by_cases he : e = .ofNode n
          · simp [observe,hread,he,Option.filter]
          · simp [observe,hread,hu,he,Option.filter]
        · simp [observe,hread,hu,Option.filter]
    · simp [hread,observe]

/-- The list stores the rows of the table, each once. -/
structure Stores (l : List PersistedEntry) (table : String → Option NameIndexEntry) : Prop where
  nodup : (l.map PersistedEntry.id).Nodup
  mem : ∀ e : NameIndexEntry, e.persisted∈l ↔ table e.nodeId = some e

theorem persisted_toNode (n : PersistedEntry) : (NameIndexEntry.ofNode n.toNode).persisted = n := rfl

theorem Stores.perm_iff {l l' : List PersistedEntry} {table table' : String → Option NameIndexEntry}
    (h : Stores l table) (h' : Stores l' table') (hid : ∀ id e, table id = some e → e.nodeId = id)
    (hid' : ∀ id e, table' id = some e → e.nodeId = id) : l.Perm l' ↔ table = table' := by
  rw [List.perm_ext_iff_of_nodup (h.nodup.of_map _) (h'.nodup.of_map _)]
  constructor
  · intro hmem
    refine funext fun id => Option.ext fun e => ?_
    constructor
    · intro he
      obtain rfl := hid id e he
      exact (h'.mem e).mp ((hmem _).mp ((h.mem e).mpr he))
    · intro he
      obtain rfl := hid' id e he
      exact (h.mem e).mp ((hmem _).mpr ((h'.mem e).mpr he))
  · rintro rfl n
    rw [← persisted_toNode n,h.mem,h'.mem]

/-- A filter by exclusion stores what the table shows. -/
theorem stores_shown (tokens : List String) {entries : List NameIndexEntry}
    {table : String → Option NameIndexEntry} (hnodup : (entries.map NameIndexEntry.nodeId).Nodup)
    (h : ∀ e, e∈entries ↔ table e.nodeId = some e) (hid : ∀ id e, table id = some e → e.nodeId = id) :
    Stores ((entries.map NameIndexEntry.persisted).filter fun n =>
        n.id∉excludedIds (entries.map NameIndexEntry.persisted) tokens)
      (Overlay.shown (fun id => matchesToken tokens id = true) NameIndexEntry.parentId table) := by
  refine ⟨?_,fun e => ?_⟩
  · refine List.Nodup.sublist (List.filter_sublist.map _) ?_
    rw [List.map_map]
    exact hnodup
  · have hinj : e.persisted∈entries.map NameIndexEntry.persisted ↔ e∈entries :=
      List.mem_map_of_injective fun a b hab => by
        cases a
        cases b
        simpa [NameIndexEntry.persisted] using hab
    simp only [List.mem_filter,hinj,decide_eq_true_eq,mem_excludedIds,
      excluded_iff_hidden h hid,Overlay.shown_eq_some,h e,and_comm]
    rfl

theorem stores_exported (hdistinct : (exported.map WorkflowyNode.id).Nodup) :
    Stores (exportedEntries tokens exported)
      (Overlay.shown (fun id => matchesToken tokens id = true) NameIndexEntry.parentId
        (exportedRow exported)) := by
  have hrow : ∀ e, e∈exported.map NameIndexEntry.ofNode ↔ exportedRow exported e.nodeId = some e := by
    intro e
    rw [exportedRow_eq_some hdistinct,List.mem_map]
    constructor
    · rintro ⟨n,hn,rfl⟩
      exact ⟨n,hn,rfl,rfl⟩
    · rintro ⟨n,hn,-,he⟩
      exact ⟨n,hn,he⟩
  have hnodup : ((exported.map NameIndexEntry.ofNode).map NameIndexEntry.nodeId).Nodup := by
    rw [List.map_map]
    exact hdistinct
  have hstores := stores_shown tokens hnodup hrow (exportedRow_id hdistinct)
  rwa [List.map_map] at hstores

/-- After a full-export rebuild that completes, the file holds the exported nodes that are not
excluded and nothing else, if and only if the prior file leaves nothing behind. -/
theorem reindex_exact_iff (toLowercase : String → String) (tokens : List String) (disk : Disk)
    (ioLoad ioSave : DiskIo) (exported : List WorkflowyNode)
    (hdistinct : (exported.map WorkflowyNode.id).Nodup)
    (hok : (cmdReindex toLowercase tokens disk ioLoad ioSave (.ok exported)).1 = .ok ()) :
    (cmdReindex toLowercase tokens disk ioLoad ioSave (.ok exported)).2.2.file.nodes.Perm
        (exportedEntries tokens exported) ↔
      LeavesNothing toLowercase tokens disk.file (decide (ioLoad.read = none)) exported := by
  have hwf := (wf_loaded toLowercase disk ioLoad).ingest exported
  simp only [cmdReindex] at hok ⊢
  rcases saveToDisk_cases toLowercase tokens ((({} : NameIndex).loadFromDisk toLowercase disk
      ioLoad).2.ingest toLowercase exported) disk ioSave with
    ⟨-,e,hs⟩ | ⟨merged,-,hm,⟨e,hs⟩ | hs⟩
  · simp [hs,Except.mapError] at hok
  · simp [hs,Except.mapError] at hok
  · rw [hs]
    have hmerged := hwf.mergeFromDisk hm
    have hid : ∀ id e, merged.lookupEntryById id = some e → e.nodeId = id := fun id e he =>
      ((lookup_eq_some hmerged).mp he).2
    have hstores := stores_shown tokens (nodup_entries hmerged) (fun e => mem_entries_iff hmerged) hid
    refine ((snapshot_nodes_perm tokens ioSave.now).congr_left _).trans ?_
    rw [hstores.perm_iff (stores_exported hdistinct) (shown_id hid)
      (shown_id (exportedRow_id hdistinct)),lookup_rebuilt hdistinct hm]
    exact Overlay.shown_over_iff outliving_differs

end

/-- What a rebuild of this file from this export writes, where no node is excluded. -/
def rebuilt (prior : List PersistedEntry) (exported : List WorkflowyNode) : List PersistedEntry :=
  (cmdReindex asciiLowercase [] { file := .snapshot ⟨3,0,prior⟩ } {} {} (.ok exported)).2.2.file.nodes

/-- A renamed node is replaced, a new one is added. -/
theorem renamed_rebuilt :
    let prior : List PersistedEntry := [⟨"a","Alpha",none,none,some 1⟩]
    let exported : List WorkflowyNode := [{ id := "a", name := "Alpha two", lastModified := some 2 },
      { id := "b", name := "Beta", parentId := some "a" }]
    rebuilt prior exported = [⟨"a","Alpha two",none,none,some 2⟩,⟨"b","Beta",some "a",none,none⟩] ∧
      LeavesNothing asciiLowercase [] (.snapshot ⟨3,0,prior⟩) true exported :=
  ⟨by decide +kernel,(reindex_exact_iff asciiLowercase []
    { file := .snapshot ⟨3,0,[⟨"a","Alpha",none,none,some 1⟩]⟩ } {} {} _ (by decide)
    (by decide +kernel)).mp (by decide +kernel)⟩

/-- A deleted node survives the rebuild, and a moved one keeps its old parent. -/
theorem deleted_survives :
    let prior : List PersistedEntry :=
      [⟨"a","Alpha",none,none,some 1⟩,⟨"gone","Gone",none,none,some 1⟩]
    let exported : List WorkflowyNode :=
      [{ id := "a", name := "Alpha", parentId := some "r", lastModified := some 1 },
        { id := "r", name := "Root" }]
    (cmdReindex asciiLowercase [] { file := .snapshot ⟨3,0,prior⟩ } {} {} (.ok exported)).1 = .ok () ∧
      (exported.map WorkflowyNode.id).Nodup ∧
      rebuilt prior exported = [⟨"a","Alpha",none,none,some 1⟩,⟨"gone","Gone",none,none,some 1⟩,
        ⟨"r","Root",none,none,none⟩] ∧
      ¬(rebuilt prior exported).Perm (exportedEntries [] exported) := by
  decide +kernel

end WorkflowyMcp
