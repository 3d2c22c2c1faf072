import WorkflowyMcp.Lib.Runs
import WorkflowyMcp.Text
import WorkflowyMcp.IndexDisk

/-! The checkpoint saver of one process, step by step, while threads of the process
ingest and invalidate between its steps. -/
namespace WorkflowyMcp.IndexSaver
open Runs NameIndex

inductive SavePhase where
  | idle
  | merged
  | snapped (snap : PersistedSnapshot)
  | written
  | cleaned
deriving DecidableEq

/-- `retired` holds the nodes invalidated and not ingested again since. -/
structure Saver where
  index : NameIndex
  disk : Disk
  phase : SavePhase := .idle
  retired : Finset String := ∅

inductive SaverEvent where
  | ingest (nodes : List WorkflowyNode)
  | invalidate (id : String)
  | advance (io : DiskIo)

section
variable (toLowercase : String → String)

/-- A fresh index after an attempt to load the file. -/
def boot (disk : Disk) (io : DiskIo) : Saver :=
  { index := (loadFromDisk toLowercase {} disk io).2, disk := disk }

/-- The next step of the save: merge, snapshot, write and rename, clear the dirty flag,
clear the tombstones. The saver starts only on a dirty index, and gives up where the
file system fails. -/
def advance (tokens : List String) (s : Saver) (io : DiskIo) : Saver :=
  match s.phase with
  | .idle =>
    if s.index.dirty && io.createDir.isNone && io.lock.isNone then
      match s.index.mergeFromDisk toLowercase s.disk.file io with
      | .ok merged => { s with index := merged, phase := .merged }
      | .error _ => s
    else s
  | .merged => { s with phase := .snapped (s.index.snapshot tokens io.now) }
  | .snapped snap =>
    if io.write.isNone && io.rename.isNone
    then { s with index := s.index.stampMtime io, disk := ⟨.snapshot snap,io.mtime⟩, phase := .written }
    else { s with phase := .idle }
  | .written => { s with index := s.index.clearDirty, phase := .cleaned }
  | .cleaned => { s with index := s.index.clearTombstones, phase := .idle }

def step (tokens : List String) (s : Saver) : SaverEvent → Saver
  | .ingest nodes =>
    { s with
      index := s.index.ingest toLowercase nodes
      retired := s.retired.filter fun id => ∀ n∈nodes, n.id≠id }
  | .invalidate id =>
    { s with index := s.index.invalidateNode id, retired := insert id s.retired }
  | .advance io => advance toLowercase tokens s io

/-- Undisturbed, the five steps are one `saveToDisk`. -/
theorem undisturbed_save (tokens : List String) (s : Saver) (io : DiskIo) (hidle : s.phase = .idle)
    (hdirty : s.index.dirty = true)
    (hok : (s.index.saveToDisk toLowercase tokens s.disk io).1.isOk = true) :
    run (step toLowercase tokens) s (List.replicate 5 (.advance io)) =
      { s with
        index := (s.index.saveToDisk toLowercase tokens s.disk io).2.1
        disk := (s.index.saveToDisk toLowercase tokens s.disk io).2.2 } := by
  cases hc : io.createDir with
  | some e => simp [saveToDisk,hc,Except.isOk,Except.toBool] at hok
  | none =>
    cases hl : io.lock with
    | some e => simp [saveToDisk,hc,hl,Except.isOk,Except.toBool] at hok
    | none =>
      cases hm : s.index.mergeFromDisk toLowercase s.disk.file io with
      | error e => simp [saveToDisk,hc,hl,hm,Except.isOk,Except.toBool] at hok
      | ok merged =>
        cases hw : io.write with
        | some e => simp [saveToDisk,hc,hl,hm,hw,Except.isOk,Except.toBool] at hok
        | none =>
          cases hr : io.rename with
          | some e => simp [saveToDisk,hc,hl,hm,hw,hr,Except.isOk,Except.toBool] at hok
          | none =>
            simp [saveToDisk,hc,hl,hm,hw,hr,List.replicate,step,advance,hidle,hdirty]

end

/-- The ids of the nodes listed. -/
def Listed (x : String) (nodes : List PersistedEntry) : Prop := ∃ n∈nodes, n.id=x

/-- Every entry that is not withheld is listed as it is. -/
def Carries (tokens : List String) (idx : NameIndex) (nodes : List PersistedEntry) : Prop :=
  ∀ e∈idx.entries, e.nodeId∉idx.withheld tokens → e.persisted∈nodes

/-- Every listed node is indexed. -/
def Covers (idx : NameIndex) (nodes : List PersistedEntry) : Prop :=
  ∀ n∈nodes, idx.lookupEntryById n.id ≠ none

/-- With no save running and the index clean, the file carries the index, and a retired
node is neither in the file nor adopted by the next merge. -/
def Quiet (toLowercase : String → String) (tokens : List String) (s : Saver) : Prop :=
  s.phase = .idle → s.index.dirty = false → Carries tokens s.index s.disk.file.nodes ∧
    ∀ x∈s.retired, ¬Listed x s.disk.file.nodes ∧
      ∀ io merged, s.index.mergeFromDisk toLowercase s.disk.file io = .ok merged →
        merged.lookupEntryById x = none

def SavePhase.flagPending : SavePhase → Bool
  | .snapped _ | .written => true
  | _ => false

def SavePhase.snapshotTaken : SavePhase → Bool
  | .snapped _ | .written | .cleaned => true
  | _ => false

/-- Between the snapshot and the clearing of the dirty flag a batch repeats what is
indexed; between the snapshot and the end of the save no indexed node is invalidated;
and a node invalidated while it is not indexed is tombstoned or not in the file. -/
def Undisturbed (toLowercase : String → String) (s : Saver) : SaverEvent → Prop
  | .ingest nodes => s.phase.flagPending = true →
    ∀ n∈nodes, s.index.sameContent toLowercase n = true
  | .invalidate x =>
    (s.phase.snapshotTaken = true → s.index.lookupEntryById x = none) ∧
      (s.index.lookupEntryById x = none → Listed x s.disk.file.nodes → x∈s.index.tombstones)
  | .advance _ => True

/-- What holds between any two steps of an undisturbed run. -/
structure Sound (toLowercase : String → String) (tokens : List String) (s : Saver) : Prop where
  wf : s.index.Wf toLowercase
  gone : ∀ x∈s.retired, s.index.lookupEntryById x = none
  barred : ∀ x∈s.retired, Listed x s.disk.file.nodes → x∈s.index.tombstones
  current : s.index.dirty = false → Carries tokens s.index s.disk.file.nodes
  purged : s.index.dirty = false → ∀ x∈s.retired, ¬Listed x s.disk.file.nodes
  waking : s.phase ≠ .cleaned → s.index.dirty = false → s.index.tombstones = ∅
  snapped : ∀ snap, s.phase = .snapped snap →
    Carries tokens s.index snap.nodes ∧ Covers s.index snap.nodes
  written : s.phase = .written →
    Carries tokens s.index s.disk.file.nodes ∧ Covers s.index s.disk.file.nodes
  cleaned : s.phase = .cleaned → Covers s.index s.disk.file.nodes

variable {toLowercase : String → String} {tokens : List String} {s : Saver}

theorem Covers.not_listed {idx : NameIndex} {nodes : List PersistedEntry} (h : Covers idx nodes)
    {x : String} (hx : idx.lookupEntryById x = none) : ¬Listed x nodes := by
  rintro ⟨n,hn,rfl⟩
  exact h n hn hx

theorem Sound.quiet (h : Sound toLowercase tokens s) : Quiet toLowercase tokens s := by
  intro _ hclean
  refine ⟨h.current hclean,fun x hx => ⟨h.purged hclean x hx,fun io merged hm => ?_⟩⟩
  rw [lookup_mergeFromDisk h.wf hm]
  refine Replica.mem_adopt_eq_none.mpr ⟨h.gone x hx,.inr ?_⟩
  exact IndexFile.content_eq_none.mpr fun n hn hid => h.purged hclean x hx ⟨n,hn,hid⟩

/-- A batch that repeats what is indexed changes nothing. -/
theorem ingest_of_same {idx : NameIndex} {nodes : List WorkflowyNode}
    (h : ∀ n∈nodes, idx.sameContent toLowercase n = true) : idx.ingest toLowercase nodes = idx := by
  induction nodes with
  | nil => rfl
  | cons n nodes ih =>
    obtain ⟨hn,h⟩ := List.forall_mem_cons.mp h
    have hskip : idx.ingestNode toLowercase n = idx := if_pos hn
    exact (congrArg (fun i => NameIndex.ingest toLowercase i nodes) hskip).trans (ih h)

theorem lookup_ingest_ne_none {idx : NameIndex} (h : idx.Wf toLowercase)
    {nodes : List WorkflowyNode}
    {x : String} (hx : idx.lookupEntryById x ≠ none) :
    (idx.ingest toLowercase nodes).lookupEntryById x ≠ none := by
  rw [lookup_ingest h]
  exact fun hn => hx (observeAll_eq_none.mp hn).1

theorem sound_ingest (h : Sound toLowercase tokens s) {nodes : List WorkflowyNode}
    (hu : Undisturbed toLowercase s (.ingest nodes)) :
    Sound toLowercase tokens (step toLowercase tokens s (.ingest nodes)) := by
  have hkept {x : String} (hx : x∈s.retired.filter fun id => ∀ n∈nodes, n.id≠id) :
      x∈s.retired ∧ ∀ n∈nodes, n.id≠x := Finset.mem_filter.mp hx
  have hclean (hd : (s.index.ingest toLowercase nodes).dirty = false) :
      s.index.ingest toLowercase nodes = s.index ∧ s.index.dirty = false := by
    have hsame := ingest_of_clean hd
    exact ⟨hsame,hsame ▸ hd⟩
  constructor
  · exact h.wf.ingest nodes
  · intro x hx
    show (s.index.ingest toLowercase nodes).lookupEntryById x = none
    rw [lookup_ingest h.wf]
    exact observeAll_eq_none.mpr ⟨h.gone x (hkept hx).1,(hkept hx).2⟩
  · intro x hx hlisted
    show x∈(s.index.ingest toLowercase nodes).tombstones
    rw [tombstones_ingest]
    exact h.barred x (hkept hx).1 hlisted
  · intro hd
    show Carries tokens (s.index.ingest toLowercase nodes) _
    rw [(hclean hd).1]
    exact h.current (hclean hd).2
  · exact fun hd x hx => h.purged (hclean hd).2 x (hkept hx).1
  · intro hp hd
    show (s.index.ingest toLowercase nodes).tombstones = ∅
    rw [(hclean hd).1]
    exact h.waking hp (hclean hd).2
  · intro snap hp
    have hsame : s.index.ingest toLowercase nodes = s.index :=
      ingest_of_same (hu (by rw [show s.phase = .snapped snap from hp]; rfl))
    show Carries tokens (s.index.ingest toLowercase nodes) _ ∧ Covers _ _
    rw [step,hsame]
    exact h.snapped snap hp
  · intro hp
    have hsame : s.index.ingest toLowercase nodes = s.index :=
      ingest_of_same (hu (by rw [show s.phase = .written from hp]; rfl))
    show Carries tokens (s.index.ingest toLowercase nodes) _ ∧ Covers _ _
    rw [step,hsame]
    exact h.written hp
  · exact fun hp n hn => lookup_ingest_ne_none h.wf (h.cleaned hp n hn)

/-- Invalidating a node that is not indexed leaves entries, tombstones and flag alone. -/
theorem invalidateNode_of_absent {idx : NameIndex} (h : idx.Wf toLowercase) {x : String}
    (hx : idx.lookupEntryById x = none) :
    (idx.invalidateNode x).entries = idx.entries ∧
      (idx.invalidateNode x).lookupEntryById = idx.lookupEntryById ∧
      (idx.invalidateNode x).tombstones = idx.tombstones ∧
      (idx.invalidateNode x).dirty = idx.dirty := by
  have hid := (byId_eq_none h).mpr hx
  refine ⟨?_,funext fun id => ?_,?_,?_⟩
  · simp [invalidateNode,hid,removeLocked,entries]
  · rw [lookup_invalidateNode h]
    by_cases hne : id=x
    · rw [if_pos hne,hne,hx]
    · rw [if_neg hne]
  · simp [invalidateNode,hid,removeLocked]
  · simp [invalidateNode,hid,removeLocked]

theorem Carries.congr {idx idx' : NameIndex} {nodes : List PersistedEntry}
    (h : Carries tokens idx nodes) (he : idx'.entries = idx.entries) :
      Carries tokens idx' nodes := by
  unfold Carries withheld at *
  rwa [he]

theorem Covers.congr {idx idx' : NameIndex} {nodes : List PersistedEntry} (h : Covers idx nodes)
    (hl : idx'.lookupEntryById = idx.lookupEntryById) : Covers idx' nodes := by
  unfold Covers at *
  rwa [hl]

theorem sound_invalidate_absent (h : Sound toLowercase tokens s) {x : String}
    (hx : s.index.lookupEntryById x = none)
    (hbar : Listed x s.disk.file.nodes → x∈s.index.tombstones) :
    Sound toLowercase tokens (step toLowercase tokens s (.invalidate x)) := by
  obtain ⟨he,hl,ht,hd⟩ := invalidateNode_of_absent h.wf hx
  constructor
  · exact h.wf.invalidateNode x
  · intro y hy
    refine (congrFun hl y).trans ?_
    rcases Finset.mem_insert.mp hy with rfl | hy
    · exact hx
    · exact h.gone y hy
  · intro y hy hlisted
    show y∈(s.index.invalidateNode x).tombstones
    rw [ht]
    rcases Finset.mem_insert.mp hy with rfl | hy
    · exact hbar hlisted
    · exact h.barred y hy hlisted
  · exact fun hclean => (h.current (hd.symm.trans hclean)).congr he
  · intro hclean y hy hlisted
    have hclean' : s.index.dirty = false := hd.symm.trans hclean
    rcases Finset.mem_insert.mp hy with rfl | hy
    · by_cases hp : s.phase = .cleaned
      · exact (h.cleaned hp).not_listed hx hlisted
      · have hmem := hbar hlisted
        simp [h.waking hp hclean'] at hmem
    · exact h.purged hclean' y hy hlisted
  · exact fun hp hclean => ht.trans (h.waking hp (hd.symm.trans hclean))
  · exact fun snap hp => ⟨(h.snapped snap hp).1.congr he,(h.snapped snap hp).2.congr hl⟩
  · exact fun hp => ⟨(h.written hp).1.congr he,(h.written hp).2.congr hl⟩
  · exact fun hp => (h.cleaned hp).congr hl

theorem sound_invalidate_present (h : Sound toLowercase tokens s) {x : String}
    (hx : s.index.lookupEntryById x ≠ none) (hphase : s.phase.snapshotTaken = false) :
    Sound toLowercase tokens (step toLowercase tokens s (.invalidate x)) := by
  have hid : (s.index.byId.lookup x).isSome = true := by
    rw [Option.isSome_iff_ne_none]
    exact fun hn => hx ((byId_eq_none h.wf).mp hn)
  have hdirty : (s.index.invalidateNode x).dirty = true := by simp [invalidateNode,hid]
  have htomb : (s.index.invalidateNode x).tombstones = insert x s.index.tombstones := by
    simp [invalidateNode,hid,removeLocked]
  have hno (hclean : (s.index.invalidateNode x).dirty = false) : False := by simp [hdirty] at hclean
  constructor
  · exact h.wf.invalidateNode x
  · intro y hy
    show (s.index.invalidateNode x).lookupEntryById y = none
    rw [lookup_invalidateNode h.wf]
    rcases Finset.mem_insert.mp hy with rfl | hy
    · exact if_pos rfl
    · rw [h.gone y hy,ite_self]
  · intro y hy hlisted
    show y∈(s.index.invalidateNode x).tombstones
    rw [htomb]
    rcases Finset.mem_insert.mp hy with rfl | hy
    · exact Finset.mem_insert_self _ _
    · exact Finset.mem_insert_of_mem (h.barred y hy hlisted)
  · exact fun hclean => (hno hclean).elim
  · exact fun hclean => (hno hclean).elim
  · exact fun _ hclean => (hno hclean).elim
  · exact fun snap hp => by simp [show s.phase = .snapped snap from hp,SavePhase.snapshotTaken] at hphase
  · exact fun hp => by simp [show s.phase = .written from hp,SavePhase.snapshotTaken] at hphase
  · exact fun hp => by simp [show s.phase = .cleaned from hp,SavePhase.snapshotTaken] at hphase

theorem sound_merge (h : Sound toLowercase tokens s) (hidle : s.phase = .idle) {io : DiskIo}
    {merged : NameIndex} (hm : s.index.mergeFromDisk toLowercase s.disk.file io = .ok merged) :
    Sound toLowercase tokens { s with index := merged, phase := .merged } := by
  have hclean (hd : merged.dirty = false) : merged = s.index ∧ s.index.dirty = false := by
    have hsame := mergeFromDisk_of_clean hm hd
    exact ⟨hsame,hsame ▸ hd⟩
  have htomb := tombstones_mergeFromDisk hm
  constructor
  · exact h.wf.mergeFromDisk hm
  · intro x hx
    show merged.lookupEntryById x = none
    rw [lookup_mergeFromDisk h.wf hm]
    refine Replica.mem_adopt_eq_none.mpr ⟨h.gone x hx,?_⟩
    by_cases hlisted : Listed x s.disk.file.nodes
    · exact .inl (h.barred x hx hlisted)
    · exact .inr (IndexFile.content_eq_none.mpr fun n hn hid => hlisted ⟨n,hn,hid⟩)
  · intro x hx hlisted
    show x∈merged.tombstones
    rw [htomb]
    exact h.barred x hx hlisted
  · intro hd
    show Carries tokens merged _
    rw [(hclean hd).1]
    exact h.current (hclean hd).2
  · exact fun hd x hx => h.purged (hclean hd).2 x hx
  · exact fun _ hd => htomb.trans (h.waking (by simp [hidle]) (hclean hd).2)
  · exact fun _ => nofun
  · exact nofun
  · exact nofun

theorem sound_snapshot (h : Sound toLowercase tokens s) (hp : s.phase = .merged) (now : Nat) :
    Sound toLowercase tokens { s with phase := .snapped (s.index.snapshot tokens now) } := by
  refine ⟨h.wf,h.gone,h.barred,h.current,h.purged,fun _ => h.waking (by simp [hp]),?_,
    nofun,nofun⟩
  rintro _ ⟨⟩
  constructor
  · exact fun e he hshown => mem_snapshot.mpr ⟨e,he,rfl,hshown⟩
  · intro n hn
    obtain ⟨e,he,rfl,-⟩ := mem_snapshot.mp hn
    exact fun hno => by simp [(mem_entries_iff h.wf).mp he,NameIndexEntry.persisted] at hno

theorem sound_write (h : Sound toLowercase tokens s) {snap : PersistedSnapshot}
    (hp : s.phase = .snapped snap) (io : DiskIo) :
    Sound toLowercase tokens
      { s with index := s.index.stampMtime io, disk := ⟨.snapshot snap,io.mtime⟩, phase := .written } := by
  obtain ⟨hcarry,hcover⟩ := h.snapped snap hp
  have hstamp : ∃ t, s.index.stampMtime io = { s.index with lastDiskRefreshMtime := t } := by
    unfold stampMtime
    split
    · exact ⟨_,rfl⟩
    · exact ⟨_,rfl⟩
  obtain ⟨t,ht⟩ := hstamp
  rw [ht]
  refine ⟨h.wf.of_maps rfl rfl,h.gone,?_,fun _ => hcarry,?_,fun _ => h.waking (by simp [hp]),
    fun _ => nofun,fun _ => ⟨hcarry,hcover⟩,nofun⟩
  · exact fun x hx hlisted => absurd hlisted (hcover.not_listed (h.gone x hx))
  · exact fun _ x hx => hcover.not_listed (h.gone x hx)

theorem sound_clearDirty (h : Sound toLowercase tokens s) (hp : s.phase = .written) :
    Sound toLowercase tokens { s with index := s.index.clearDirty, phase := .cleaned } := by
  obtain ⟨hcarry,hcover⟩ := h.written hp
  exact ⟨h.wf.of_maps rfl rfl,h.gone,h.barred,fun _ => hcarry,
    fun _ x hx => hcover.not_listed (h.gone x hx),fun hne => absurd rfl hne,
    fun _ => nofun,nofun,fun _ => hcover⟩

theorem sound_clearTombstones (h : Sound toLowercase tokens s) (hp : s.phase = .cleaned) :
    Sound toLowercase tokens { s with index := s.index.clearTombstones, phase := .idle } := by
  have hcover := h.cleaned hp
  exact ⟨h.wf.of_maps rfl rfl,h.gone,
    fun x hx hlisted => absurd hlisted (hcover.not_listed (h.gone x hx)),h.current,h.purged,
    fun _ _ => rfl,fun _ => nofun,nofun,nofun⟩

theorem sound_giveUp (h : Sound toLowercase tokens s) (hp : s.phase ≠ .cleaned) :
    Sound toLowercase tokens { s with phase := .idle } :=
  ⟨h.wf,h.gone,h.barred,h.current,h.purged,fun _ => h.waking hp,fun _ => nofun,
    nofun,nofun⟩

theorem sound_advance (h : Sound toLowercase tokens s) (io : DiskIo) :
    Sound toLowercase tokens (advance toLowercase tokens s io) := by
  unfold advance
  split
  · rename_i hp
    split
    · split
      · rename_i hm
        exact sound_merge h hp hm
      · exact h
    · exact h
  · rename_i hp
    exact sound_snapshot h hp io.now
  · rename_i hp
    split
    · exact sound_write h hp io
    · exact sound_giveUp h (by simp [hp])
  · rename_i hp
    exact sound_clearDirty h hp
  · rename_i hp
    exact sound_clearTombstones h hp

theorem sound_step (e : SaverEvent) (hu : Undisturbed toLowercase s e)
    (h : Sound toLowercase tokens s) : Sound toLowercase tokens (step toLowercase tokens s e) := by
  cases e with
  | ingest nodes => exact sound_ingest h hu
  | advance io => exact sound_advance h io
  | invalidate x =>
    by_cases hx : s.index.lookupEntryById x = none
    · exact sound_invalidate_absent h hx (hu.2 hx)
    · refine sound_invalidate_present h hx ?_
      by_contra hp
      exact hx (hu.1 (by simpa using hp))

theorem observeAll_mem {id : String} {o : Option NameIndexEntry} {nodes : List WorkflowyNode}
    {e : NameIndexEntry} (h : observeAll toLowercase id o nodes = some e) :
    o = some e ∨ ∃ n∈nodes, e = .ofNode n := by
  induction nodes generalizing o with
  | nil => exact .inl h
  | cons n nodes ih =>
    rcases ih h with ho | ⟨m,hm,he⟩
    · by_cases hid : id=n.id
      · rw [if_pos hid,Option.some.injEq] at ho
        unfold observe at ho
        split at ho
        · split at ho
          · exact .inl (congrArg some ho)
          · exact .inr ⟨n,List.mem_cons_self,ho.symm⟩
        · exact .inr ⟨n,List.mem_cons_self,ho.symm⟩
      · rw [if_neg hid] at ho
        exact .inl ho
    · exact .inr ⟨m,List.mem_cons_of_mem n hm,he⟩

/-- What a fresh index loads, the file carries. -/
theorem carries_loaded (disk : Disk) (io : DiskIo) :
    Carries tokens (loadFromDisk toLowercase {} disk io).2 disk.file.nodes := by
  intro e he _
  have hwf : (loadFromDisk toLowercase {} disk io).2.Wf toLowercase :=
    (readOf_loadFromDisk .empty disk io).wf
  have hl := (mem_entries_iff hwf).mp he
  have hnone (id : String) : ({} : NameIndex).lookupEntryById id = none := rfl
  unfold loadFromDisk at hl
  cases hf : disk.file with
  | missing => simp [hf,hnone] at hl
  | malformed error => cases hr : io.read <;> simp [hf,hr,hnone] at hl
  | snapshot snap =>
    cases hr : io.read with
    | some err => simp [hf,hr,hnone] at hl
    | none =>
      by_cases hv : snap.version > PERSIST_SCHEMA_VERSION
      · simp [hf,hr,hv,hnone] at hl
      · simp only [hf,hr,if_neg hv] at hl
        have hobs := (lookup_ingest (Wf.empty : Wf toLowercase {}) _ e.nodeId).symm.trans hl
        rcases observeAll_mem hobs with ho | ⟨n,hn,he⟩
        · simp [hnone] at ho
        · obtain ⟨m,hm,rfl⟩ := List.mem_map.mp hn
          rw [he]
          exact hm

theorem sound_boot (disk : Disk) (io : DiskIo) :
    Sound toLowercase tokens (boot toLowercase disk io) := by
  have hread := readOf_loadFromDisk (Wf.empty : Wf toLowercase {}) disk io
  refine ⟨hread.wf,?_,?_,fun _ => carries_loaded disk io,?_,fun _ _ => hread.tombstones,
    fun _ => nofun,nofun,nofun⟩
  · exact fun x hx => absurd hx (Finset.notMem_empty x)
  · exact fun x hx => absurd hx (Finset.notMem_empty x)
  · exact fun _ x hx => absurd hx (Finset.notMem_empty x)

/-- In every undisturbed run, a clean index at rest is what the file holds, and what was
invalidated stays out. -/
theorem undisturbed_quiet (tokens : List String) (disk : Disk) (io : DiskIo) (es : List SaverEvent)
    (h : Meets (step toLowercase tokens) (Undisturbed toLowercase) (boot toLowercase disk io) es) :
    Always (step toLowercase tokens) (Quiet toLowercase tokens) (boot toLowercase disk io) es :=
  h.always (fun _ e hu hs => sound_step e hu hs) (fun _ hs => hs.quiet) (sound_boot disk io)

/-- A batch lands between the snapshot of a save and its write. -/
def overtakenSave : List SaverEvent :=
  [.ingest [{ id := "a", name := "a" }],.advance {},.advance {},
   .ingest [{ id := "b", name := "b" }],.advance {},.advance {},.advance {}]

/-- The index ends clean and at rest, with a node the file does not have. -/
theorem overtaken_batch_lost :
    ¬Always (step asciiLowercase []) (Quiet asciiLowercase []) (boot asciiLowercase {} {})
      overtakenSave := by
  intro h
  have hend := h overtakenSave List.prefix_rfl (by decide) (by decide)
  have hlisted := hend.1 ⟨"b","b",none,none,none⟩ (by decide) not_excluded_nil
  exact absurd hlisted (by decide)

/-- A node is saved, then invalidated, then saved away, with nothing in between. -/
theorem saved_then_invalidated_quiet :
    Always (step asciiLowercase []) (Quiet asciiLowercase []) (boot asciiLowercase {} {})
      [.ingest [{ id := "a", name := "a" }],.advance {},.advance {},.advance {},.advance {},
       .advance {},.invalidate "a",.advance {},.advance {},.advance {},.advance {},
         .advance {}] := by
  exact undisturbed_quiet [] {} {} _ ⟨fun h => absurd h (by decide),trivial,trivial,trivial,trivial,
    trivial,⟨fun h => absurd h (by decide),fun h => absurd h (by decide)⟩,trivial,trivial,trivial,
    trivial,trivial,trivial⟩

end WorkflowyMcp.IndexSaver
