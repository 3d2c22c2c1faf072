import Mathlib.Logic.Function.Basic
import WorkflowyMcp.Lib.Runs
import WorkflowyMcp.Text
import WorkflowyMcp.IndexDisk

/-! What an index has last been told of each node's parent, kept beside the index, and
the rule that no saved snapshot holds a node below an excluded root by that account. -/
namespace WorkflowyMcp.IndexPrivacy
open Runs
variable {toLowercase : String → String}

inductive PrivacyEvent where
  | ingest (nodes : List WorkflowyNode)
  | invalidate (id : String)
  | merge (file : IndexFile) (io : DiskIo)
  | save (disk : Disk) (io : DiskIo)

/-- For each node ingested and not invalidated since, the parent last observed. -/
abbrev Parents := String → Option (Option String)

def Parents.record (latest : Parents) (nodes : List WorkflowyNode) : Parents :=
  nodes.foldl (fun l n => Function.update l n.id (some n.parentId)) latest

/-- The index, the parents last observed, and the last saved snapshot with the parents
observed when it was taken. -/
structure Account (toLowercase : String → String) where
  index : NameIndex
  wf : index.Wf toLowercase
  latest : Parents
  saved : List PersistedEntry
  savedLatest : Parents

/-- The observed parent chain reaches an id that matches a token. -/
inductive Below (tokens : List String) (latest : Parents) : String → Prop
  | self {x q} : latest x = some q → matchesToken tokens x = true → Below tokens latest x
  | root {x p} : latest x = some (some p) → matchesToken tokens p = true → Below tokens latest x
  | up {x p} : latest x = some (some p) → Below tokens latest p → Below tokens latest x

def Private (tokens : List String) (a : Account toLowercase) : Prop :=
  ∀ n∈a.saved, ¬Below tokens a.savedLatest n.id

def opened (toLowercase : String → String) : Account toLowercase :=
  ⟨{},.empty,fun _ => none,[],fun _ => none⟩

/-- A merge ingests what it adopts. A save merges first, and a completed one replaces the
last saved snapshot by the one of what it merged. -/
def account (tokens : List String) (a : Account toLowercase) : PrivacyEvent → Account toLowercase
  | .ingest nodes =>
    ⟨a.index.ingest toLowercase nodes,a.wf.ingest nodes,a.latest.record nodes,a.saved,a.savedLatest⟩
  | .invalidate id =>
    ⟨a.index.invalidateNode id,a.wf.invalidateNode id,Function.update a.latest id none,a.saved,
      a.savedLatest⟩
  | .merge file io =>
    match hm : a.index.mergeFromDisk toLowercase file io with
    | .ok merged =>
      ⟨merged,a.wf.mergeFromDisk hm,a.latest.record (a.index.adoptList file),a.saved,a.savedLatest⟩
    | .error _ => a
  | .save disk io =>
    let r := a.index.saveToDisk toLowercase tokens disk io
    let latest :=
      if a.index.saveMerges toLowercase disk io
      then a.latest.record (a.index.adoptList disk.file) else a.latest
    ⟨r.2.1,a.wf.saveToDisk tokens disk io,latest,
      if r.1.isOk then r.2.2.file.nodes else a.saved,if r.1.isOk then latest else a.savedLatest⟩

/-- No node of the batch is skipped as unchanged while its parent has changed. -/
def NoBareMove (toLowercase : String → String) : NameIndex → List WorkflowyNode → Prop
  | _, [] => True
  | idx, n::ns =>
    (idx.sameContent toLowercase n = true →
      ∀ e, idx.lookupEntryById n.id = some e → e.parentId = n.parentId) ∧
      NoBareMove toLowercase (idx.ingestNode toLowercase n) ns

/-- The batch the step ingests, its own or what it adopts from the file, has no bare move. -/
def Observes (a : Account toLowercase) : PrivacyEvent → Prop
  | .ingest nodes => NoBareMove toLowercase a.index nodes
  | .merge file _ => NoBareMove toLowercase a.index (a.index.adoptList file)
  | .save disk _ => NoBareMove toLowercase a.index (a.index.adoptList disk.file)
  | .invalidate _ => True

/-- The index holds the parents last observed. -/
def Tracks (idx : NameIndex) (latest : Parents) : Prop :=
  ∀ id, latest id = (idx.lookupEntryById id).map NameIndexEntry.parentId

theorem tracks_ingest {idx : NameIndex} (h : idx.Wf toLowercase) {latest : Parents}
    {nodes : List WorkflowyNode} (ht : Tracks idx latest) (hn : NoBareMove toLowercase idx nodes) :
    Tracks (idx.ingest toLowercase nodes) (latest.record nodes) := by
  induction nodes generalizing idx latest with
  | nil => exact ht
  | cons n nodes ih =>
    obtain ⟨hsame,hn⟩ := hn
    refine ih (h.ingestNode n) (fun id => ?_) hn
    show Function.update latest n.id (some n.parentId) id = _
    rw [NameIndex.lookup_ingestNode h,Function.update_apply]
    by_cases hid : id=n.id
    · subst hid
      rw [NameIndex.sameContent_eq h] at hsame
      cases hl : idx.lookupEntryById n.id with
      | none => simp [NameIndex.observe,NameIndexEntry.ofNode]
      | some e =>
        by_cases hu : NameIndex.unchanged toLowercase e n = true
        · have hparent := hsame (by simp [hl,hu]) e hl
          simp [NameIndex.observe,hu,hparent]
        · simp [NameIndex.observe,hu,NameIndexEntry.ofNode]
    · simp [hid,ht id]

theorem tracks_merge {idx merged : NameIndex} (h : idx.Wf toLowercase) {latest : Parents}
    {file : IndexFile} {io : DiskIo} (ht : Tracks idx latest)
    (hn : NoBareMove toLowercase idx (idx.adoptList file))
    (hm : idx.mergeFromDisk toLowercase file io = .ok merged) :
    Tracks merged (latest.record (idx.adoptList file)) :=
  NameIndex.mergeFromDisk_ok hm ▸ tracks_ingest h ht hn

theorem tracks_invalidate {idx : NameIndex} (h : idx.Wf toLowercase) {latest : Parents}
    (ht : Tracks idx latest) (x : String) :
    Tracks (idx.invalidateNode x) (Function.update latest x none) := by
  intro id
  rw [NameIndex.lookup_invalidateNode h,Function.update_apply]
  by_cases hid : id=x
  · simp [hid]
  · simp [hid,ht id]

/-- Below an excluded root by the observed parents is excluded by the indexed ones. -/
theorem excluded_of_below {idx : NameIndex} (h : idx.Wf toLowercase) {latest : Parents}
    (ht : Tracks idx latest) {tokens : List String} {x : String} (hb : Below tokens latest x) :
    Excluded (idx.entries.map NameIndexEntry.persisted) tokens x := by
  have hentry {x : String} {q : Option String} (hx : latest x = some q) :
      ∃ n∈idx.entries.map NameIndexEntry.persisted, n.id=x ∧ n.parentId=q := by
    obtain ⟨e,hl,rfl⟩ := Option.map_eq_some_iff.mp ((ht x).symm.trans hx)
    obtain ⟨he,rfl⟩ := (NameIndex.lookup_eq_some h).mp hl
    exact ⟨e.persisted,List.mem_map.mpr ⟨e,he,rfl⟩,rfl,rfl⟩
  induction hb with
  | self hx hm =>
    obtain ⟨n,hn,rfl,-⟩ := hentry hx
    exact .self hn hm
  | root hx hm =>
    obtain ⟨n,hn,rfl,hp⟩ := hentry hx
    exact .root hn hp hm
  | up hx _ ih =>
    obtain ⟨n,hn,rfl,hp⟩ := hentry hx
    exact .child hn hp ih

theorem snapshot_private {idx : NameIndex} (h : idx.Wf toLowercase) {latest : Parents}
    (ht : Tracks idx latest) (tokens : List String) (now : Nat) :
    ∀ n∈(idx.snapshot tokens now).nodes, ¬Below tokens latest n.id := by
  intro n hn hb
  obtain ⟨e,-,rfl,hshown⟩ := NameIndex.mem_snapshot.mp hn
  exact hshown (excluded_of_below h ht hb)

/-- Every step keeps the indexed parents current and the saved snapshot private. -/
theorem private_step (tokens : List String) (a : Account toLowercase) (e : PrivacyEvent)
    (hobs : Observes a e) (h : Tracks a.index a.latest ∧ Private tokens a) :
    Tracks (account tokens a e).index (account tokens a e).latest ∧
      Private tokens (account tokens a e) := by
  obtain ⟨ht,hp⟩ := h
  cases e with
  | ingest nodes => exact ⟨tracks_ingest a.wf ht hobs,hp⟩
  | invalidate id => exact ⟨tracks_invalidate a.wf ht id,hp⟩
  | merge file io =>
    simp only [account]
    split
    · rename_i merged hm
      exact ⟨tracks_merge a.wf ht hobs hm,hp⟩
    · exact ⟨ht,hp⟩
  | save disk io =>
    rcases NameIndex.saveToDisk_cases toLowercase tokens a.index disk io with
      ⟨hno,e,hs⟩ | ⟨merged,hyes,hm,⟨e,hs⟩ | hs⟩
    · simpa [account,hno,hs,Private,Except.isOk,Except.toBool] using ⟨ht,hp⟩
    · have htm := tracks_merge a.wf ht hobs hm
      simpa [account,hyes,hs,Private,Except.isOk,Except.toBool] using ⟨htm,hp⟩
    · have htm := tracks_merge a.wf ht hobs hm
      have hpriv := snapshot_private (a.wf.mergeFromDisk hm) htm tokens io.now
      have htrack : Tracks (merged.afterSave io) (a.latest.record (a.index.adoptList disk.file)) :=
        fun id => (htm id).trans (by rw [NameIndex.lookup_afterSave])
      simpa [account,hyes,hs,Private,Except.isOk,Except.toBool] using ⟨htrack,hpriv⟩

/-- In every run whose batches hold no bare move, no saved snapshot holds a node below an
excluded root by the parents last observed. -/
theorem excluded_never_saved (tokens : List String) (es : List PrivacyEvent)
    (h : Meets (account tokens) Observes (opened toLowercase) es) :
    Always (account tokens) (Private tokens) (opened toLowercase) es := by
  refine h.always (I := fun a => Tracks a.index a.latest ∧ Private tokens a)
    (private_step tokens) (fun _ hI => hI.2) ⟨?_,?_⟩
  · intro id
    simp [opened,NameIndex.lookupEntryById]
  · simp [opened,Private]

/-- A node first seen at the top level is seen again below the private root. -/
def movedBelow : List PrivacyEvent :=
  [.ingest [{ id := "x", name := "x" }],.ingest [{ id := "x", name := "x", parentId := some privateRoot }],
   .save {} {}]

theorem moved_node_saved :
    ¬Always (account [privateRoot]) (Private [privateRoot]) (opened asciiLowercase) movedBelow := by
  intro h
  have hend := h movedBelow List.prefix_rfl ⟨"x","x",none,none,none⟩ (by decide)
  exact hend (.root (p := privateRoot) (by decide) (by decide))

/-- Seen below the private root with a new name, the node is withheld. -/
theorem renamed_node_withheld :
    Always (account [privateRoot]) (Private [privateRoot]) (opened asciiLowercase)
      [.ingest [{ id := "x", name := "x" }],
       .ingest [{ id := "x", name := "x2", parentId := some privateRoot }],.save {} {}] := by
  refine excluded_never_saved [privateRoot] _ ⟨?_,?_,?_,trivial⟩
  · exact ⟨fun h => absurd h (by decide),trivial⟩
  · exact ⟨fun h => absurd h (by decide),trivial⟩
  · trivial

end WorkflowyMcp.IndexPrivacy
