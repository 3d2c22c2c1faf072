import Mathlib.Logic.Function.Basic
import WorkflowyMcp.Lib.Runs
import WorkflowyMcp.Text
import WorkflowyMcp.IndexDisk

/-! Any number of processes sharing one index file. Each index keeps its two maps in
agreement, a save is one step under the save lock, and the processes run in any order. -/
namespace WorkflowyMcp

/-- A node as the API returned it, and when that observation was made. -/
structure Sighting where
  node : WorkflowyNode
  seenAt : Nat
deriving DecidableEq

inductive IndexEvent (P : Type) where
  | load (p : P) (io : DiskIo)
  | ingest (p : P) (batch : List Sighting)
  | invalidate (p : P) (id : String)
  | refresh (p : P) (io : DiskIo)
  | save (p : P) (io : DiskIo)
deriving DecidableEq

def IndexEvent.proc {P : Type} : IndexEvent P → P
  | .load p _ | .ingest p _ | .invalidate p _ | .refresh p _ | .save p _ => p

structure SharedIndex (P : Type) (toLowercase : String → String) where
  procs : P → NameIndex
  disk : Disk
  wf : ∀ p, (procs p).Wf toLowercase

namespace NameIndex
variable {toLowercase : String → String} {idx : NameIndex}

/-- The index joined with a readable file. -/
def joined (toLowercase : String → String) (idx : NameIndex) (file : IndexFile) : NameIndex :=
  match idx.mergeFromDisk toLowercase file {} with
  | .ok merged => merged
  | .error _ => idx

theorem joined_of_merge {file : IndexFile} {io : DiskIo} {merged : NameIndex}
    (hm : idx.mergeFromDisk toLowercase file io = .ok merged) :
    idx.joined toLowercase file = merged := by
  have hr : io.read = none := by
    cases hr : io.read with
    | none => rfl
    | some e => simp [mergeFromDisk,hr] at hm
  have hio : idx.mergeFromDisk toLowercase file {} = idx.mergeFromDisk toLowercase file io := by
    simp [mergeFromDisk,hr]
  simp [joined,hio,hm]

end NameIndex

namespace SharedIndex
variable {P : Type} {toLowercase : String → String}

/-- Fresh processes before a file of any content. -/
def start (toLowercase : String → String) (disk : Disk) : SharedIndex P toLowercase :=
  ⟨fun _ => {},disk,fun _ => .empty⟩

/-- The copy of a node in a process's memory, and the one in the file. -/
def held (s : SharedIndex P toLowercase) (p : P) (id : String) : Option NameIndexEntry :=
  (s.procs p).lookupEntryById id

def filed (s : SharedIndex P toLowercase) (id : String) : Option NameIndexEntry :=
  s.disk.file.content toLowercase id

def buried (s : SharedIndex P toLowercase) (p : P) (id : String) : Prop :=
  id∈(s.procs p).tombstones

/-- The file lists the node. -/
def InFile (s : SharedIndex P toLowercase) (id : String) : Prop :=
  ∃ n∈s.disk.file.nodes, n.id=id

instance (s : SharedIndex P toLowercase) (id : String) : Decidable (s.InFile id) :=
  inferInstanceAs (Decidable (∃ n∈s.disk.file.nodes, n.id=id))

theorem inFile_iff {s : SharedIndex P toLowercase} {id : String} :
    s.InFile id ↔ s.filed id ≠ none := by
  rw [filed,ne_eq,IndexFile.content_eq_none]
  simp [InFile]

theorem not_inFile_iff {s : SharedIndex P toLowercase} {id : String} :
    ¬s.InFile id ↔ s.filed id = none := by
  rw [inFile_iff,not_not]

def Completes (tokens : List String) (s : SharedIndex P toLowercase) (p : P) (io : DiskIo) : Prop :=
  ((s.procs p).saveToDisk toLowercase tokens s.disk io).1.isOk = true

instance (tokens : List String) (s : SharedIndex P toLowercase) (p : P) (io : DiskIo) :
    Decidable (Completes tokens s p io) := inferInstanceAs (Decidable (_ = true))

/-- What a save by `p` withholds: the ids under an excluded root in its memory joined
with the file. -/
def withheldBy (tokens : List String) (s : SharedIndex P toLowercase) (p : P) : Set String :=
  ((s.procs p).joined toLowercase s.disk.file).withheld tokens

instance (tokens : List String) (s : SharedIndex P toLowercase) (p : P) (id : String) :
    Decidable (id∈withheldBy tokens s p) :=
  decidable_of_iff (id∈excludedIds (((s.procs p).joined toLowercase s.disk.file).entries.map
    NameIndexEntry.persisted) tokens) mem_excludedIds

variable [DecidableEq P]

def setProc (s : SharedIndex P toLowercase) (p : P) (idx : NameIndex) (h : idx.Wf toLowercase)
    (disk : Disk) : SharedIndex P toLowercase :=
  ⟨Function.update s.procs p idx,disk,fun q => by
    by_cases hq : q=p
    · subst hq; simpa using h
    · simpa [hq] using s.wf q⟩

@[simp] theorem procs_setProc (s : SharedIndex P toLowercase) (p q : P) (idx : NameIndex)
    (h : idx.Wf toLowercase) (disk : Disk) :
    (s.setProc p idx h disk).procs q = if q=p then idx else s.procs q := by
  by_cases hq : q=p
  · subst hq; simp [setProc]
  · simp [setProc,hq]

@[simp] theorem disk_setProc (s : SharedIndex P toLowercase) (p : P) (idx : NameIndex)
    (h : idx.Wf toLowercase) (disk : Disk) : (s.setProc p idx h disk).disk = disk := rfl

def step (tokens : List String) (s : SharedIndex P toLowercase) :
    IndexEvent P → SharedIndex P toLowercase
  | .load p io =>
    s.setProc p ((s.procs p).loadFromDisk toLowercase s.disk io).2
      (NameIndex.readOf_loadFromDisk (s.wf p) s.disk io).wf s.disk
  | .ingest p batch =>
    s.setProc p ((s.procs p).ingest toLowercase (batch.map Sighting.node))
      ((s.wf p).ingest _) s.disk
  | .invalidate p id =>
    s.setProc p ((s.procs p).invalidateNode id) ((s.wf p).invalidateNode id) s.disk
  | .refresh p io =>
    s.setProc p ((s.procs p).refreshFromDiskIfChanged toLowercase s.disk io).2
      (NameIndex.readOf_refreshFromDisk (s.wf p) s.disk io).wf s.disk
  | .save p io =>
    s.setProc p ((s.procs p).saveToDisk toLowercase tokens s.disk io).2.1
      ((s.wf p).saveToDisk tokens s.disk io)
      ((s.procs p).saveToDisk toLowercase tokens s.disk io).2.2

variable {tokens : List String} {s : SharedIndex P toLowercase} {p q : P} {io : DiskIo}
  {id : String}

theorem procs_step_other {e : IndexEvent P} (hq : q≠e.proc) :
    (step tokens s e).procs q = s.procs q := by
  cases e with
  | load p | ingest p | invalidate p | refresh p | save p =>
    simp only [IndexEvent.proc] at hq
    simp [step,hq]

theorem save_failed (hc : ¬Completes tokens s p io) :
    (step tokens s (.save p io)).disk = s.disk ∧
      NameIndex.ReadOf toLowercase s.disk.file (s.procs p)
        ((step tokens s (.save p io)).procs p) := by
  rcases NameIndex.saveToDisk_cases toLowercase tokens (s.procs p) s.disk io with
    ⟨-,e,hs⟩ | ⟨merged,-,hm,⟨e,hs⟩ | hs⟩
  · simpa [step,hs] using .refl (s.wf p) _
  · simpa [step,hs] using NameIndex.readOf_mergeFromDisk (s.wf p) hm
  · exact absurd (by simp [Completes,hs,Except.isOk,Except.toBool]) hc

/-- A completed save exchanges the process's replica with the file. -/
theorem save_completed (hc : Completes tokens s p io) :
    (step tokens s (.save p io)).filed =
        ((s.procs p).replica.adopt s.filed).publish (withheldBy tokens s p) ∧
      (step tokens s (.save p io)).held p = ((s.procs p).replica.adopt s.filed).mem ∧
      ((step tokens s (.save p io)).procs p).tombstones = ∅ := by
  rcases NameIndex.saveToDisk_cases toLowercase tokens (s.procs p) s.disk io with
    ⟨-,e,hs⟩ | ⟨merged,-,hm,⟨e,hs⟩ | hs⟩
  · simp [Completes,hs,Except.isOk,Except.toBool] at hc
  · simp [Completes,hs,Except.isOk,Except.toBool] at hc
  · have hrep := NameIndex.replica_mergeFromDisk (s.wf p) hm
    have hfiled : (step tokens s (.save p io)).filed =
        merged.replica.publish (merged.withheld tokens) := by
      rw [← NameIndex.content_snapshot ((s.wf p).mergeFromDisk hm) tokens io.now]
      simp only [step,hs]
      rfl
    rw [hfiled,withheldBy,NameIndex.joined_of_merge hm,hrep]
    have hheld (id : String) : (step tokens s (.save p io)).held p id =
      merged.lookupEntryById id := by
      simp [held,step,hs]
    exact ⟨rfl,funext fun id => (hheld id).trans (NameIndex.lookup_mergeFromDisk (s.wf p) hm id),
      by simp [step,hs]⟩

theorem filed_step (tokens : List String) (s : SharedIndex P toLowercase) (e : IndexEvent P) :
    (step tokens s e).filed = s.filed ∨
      ∃ p io, e = .save p io ∧ Completes tokens s p io := by
  cases e with
  | load p io | ingest p batch | invalidate p id | refresh p io => exact .inl rfl
  | save p io =>
    by_cases hc : Completes tokens s p io
    · exact .inr ⟨p,io,rfl,hc⟩
    · exact .inl (congrArg (fun d => d.file.content toLowercase) (save_failed hc).1)

theorem readOf_load (tokens : List String) (s : SharedIndex P toLowercase) (p : P) (io : DiskIo) :
    NameIndex.ReadOf toLowercase s.disk.file (s.procs p)
      ((step tokens s (.load p io)).procs p) := by
  simpa [step] using NameIndex.readOf_loadFromDisk (s.wf p) s.disk io

theorem readOf_refresh (tokens : List String) (s : SharedIndex P toLowercase) (p : P)
    (io : DiskIo) :
    NameIndex.ReadOf toLowercase s.disk.file (s.procs p)
      ((step tokens s (.refresh p io)).procs p) := by
  simpa [step] using NameIndex.readOf_refreshFromDisk (s.wf p) s.disk io

/-- Nothing is buried but by an invalidation. -/
theorem buried_step {e : IndexEvent P} (he : ∀ p, e ≠ .invalidate p id)
    (hb : (step tokens s e).buried q id) : s.buried q id := by
  by_cases hq : q=e.proc
  · subst hq
    cases e with
    | load p io =>
      show id∈(s.procs p).tombstones
      rw [← (readOf_load tokens s p io).tombstones]
      exact hb
    | refresh p io =>
      show id∈(s.procs p).tombstones
      rw [← (readOf_refresh tokens s p io).tombstones]
      exact hb
    | ingest p batch => simpa [buried,step,IndexEvent.proc] using hb
    | invalidate p x =>
      have hx : id≠x := fun hx => he p (hx ▸ rfl)
      have hdead : id∈((s.procs p).invalidateNode x).replica.dead := by
        simpa [buried,step,IndexEvent.proc] using hb
      rw [NameIndex.replica_invalidateNode (s.wf p)] at hdead
      simpa [Replica.forget,hx,buried,IndexEvent.proc] using hdead
    | save p io =>
      by_cases hc : Completes tokens s p io
      · rw [buried,IndexEvent.proc,(save_completed hc).2.2] at hb
        simp at hb
      · show id∈(s.procs p).tombstones
        rw [← (save_failed hc).2.tombstones]
        exact hb
  · rwa [buried,procs_step_other hq] at hb

end SharedIndex
end WorkflowyMcp
