import WorkflowyMcp.SharedIndex

/-! Invalidations in a shared index. Every invalidation digs a grave; the grave is kept
until some process ingests the node from an API observation made since, and it is
settled once the process has completed a save. -/
namespace WorkflowyMcp.SharedIndex
open Runs

structure Grave (P : Type) where
  proc : P
  id : String
  since : Nat
  saved : Bool
deriving DecidableEq

structure Graveyard (P : Type) (toLowercase : String → String) where
  index : SharedIndex P toLowercase
  clock : Nat := 0
  graves : List (Grave P) := []

/-- The batch holds the node from an observation made after it was invalidated. -/
def seenSince {P : Type} (batch : List Sighting) (g : Grave P) : Bool :=
  batch.any fun o => o.node.id = g.id && decide (g.since < o.seenAt)

variable {P : Type} [DecidableEq P] {toLowercase : String → String}

def settle (p : P) (g : Grave P) : Grave P := if g.proc=p then { g with saved := true } else g

def dig (tokens : List String) (w : Graveyard P toLowercase) : IndexEvent P → List (Grave P)
  | .invalidate p id => ⟨p,id,w.clock,false⟩::w.graves
  | .ingest _ batch => w.graves.filter fun g => !seenSince batch g
  | .save p io => if Completes tokens w.index p io then w.graves.map (settle p) else w.graves
  | .load _ _ | .refresh _ _ => w.graves

/-- A step of the index, with the clock and the graves kept beside it. -/
def watch (tokens : List String) (w : Graveyard P toLowercase) (e : IndexEvent P) :
    Graveyard P toLowercase :=
  ⟨step tokens w.index e,w.clock+1,dig tokens w e⟩

/-- Whatever was invalidated and saved is neither in the file nor in the memory of the
process that invalidated it. -/
def AtRest (w : Graveyard P toLowercase) : Prop :=
  ∀ g∈w.graves, g.saved = true → ¬w.index.InFile g.id ∧ w.index.held g.proc g.id = none

/-- No batch brings back to a process, from an old observation, a node whose
invalidation it has saved. A completed save is by a process that holds no node it has
invalidated, has a tombstone for each of them the file lists, and holds and shows no
node whose invalidation another process has saved. -/
def Respects (tokens : List String) (w : Graveyard P toLowercase) : IndexEvent P → Prop
  | .ingest p batch => ∀ g∈w.graves, g.saved = true → g.proc=p →
      (∃ o∈batch, o.node.id=g.id) → seenSince batch g = true
  | .save p io => Completes tokens w.index p io → ∀ g∈w.graves,
      (g.proc=p → w.index.held p g.id = none ∧ (w.index.InFile g.id → w.index.buried p g.id)) ∧
      (g.proc≠p → g.saved = true →
        w.index.held p g.id = none ∨ g.id∈withheldBy tokens w.index p)
  | _ => True

variable {tokens : List String} {w : Graveyard P toLowercase} {p : P} {io : DiskIo}

theorem held_step_other (tokens : List String) (s : SharedIndex P toLowercase)
    (e : IndexEvent P) {q : P} (hq : q≠e.proc) (id : String) :
      (step tokens s e).held q id = s.held q id := by
  rw [held,procs_step_other hq,held]

/-- Reading the file brings nothing back that the file does not list. -/
theorem atRest_of_read {e : IndexEvent P} (hrest : AtRest w) (hdig : dig tokens w e = w.graves)
    (hdisk : (step tokens w.index e).disk = w.index.disk)
    (hread : NameIndex.ReadOf toLowercase w.index.disk.file (w.index.procs e.proc)
      ((step tokens w.index e).procs e.proc)) : AtRest (watch tokens w e) := by
  intro g hg hsaved
  obtain ⟨hfile,hheld⟩ := hrest g (hdig ▸ hg) hsaved
  refine ⟨by rw [InFile,watch,hdisk]; exact hfile,?_⟩
  by_cases hp : g.proc=e.proc
  · rw [hp] at hheld ⊢
    exact (hread.frame g.id (not_inFile_iff.mp hfile)).trans hheld
  · exact (held_step_other tokens w.index e hp g.id).trans hheld

theorem held_ingest (tokens : List String) (s : SharedIndex P toLowercase) (p : P)
    (batch : List Sighting) (id : String) :
    (step tokens s (.ingest p batch)).held p id = none ↔
      s.held p id = none ∧ ∀ o∈batch, o.node.id≠id := by
  simp [held,step,NameIndex.lookup_ingest (s.wf p),NameIndex.observeAll_eq_none]

theorem atRest_ingest (hrest : AtRest w) {batch : List Sighting}
    (hresp : Respects tokens w (.ingest p batch)) : AtRest (watch tokens w (.ingest p batch)) := by
  intro g hg hsaved
  obtain ⟨hkept,hold⟩ := List.mem_filter.mp hg
  obtain ⟨hfile,hheld⟩ := hrest g hkept hsaved
  refine ⟨hfile,?_⟩
  by_cases hp : g.proc=p
  · subst hp
    refine (held_ingest tokens w.index g.proc batch g.id).mpr ⟨hheld,fun o ho hid => ?_⟩
    simp [hresp g hkept hsaved rfl ⟨o,ho,hid⟩] at hold
  · exact (held_step_other tokens w.index (.ingest p batch) hp g.id).trans hheld

theorem atRest_invalidate (hrest : AtRest w) (id : String) :
    AtRest (watch tokens w (.invalidate p id)) := by
  intro g hg hsaved
  rcases List.mem_cons.mp hg with rfl | hg
  · simp at hsaved
  · obtain ⟨hfile,hheld⟩ := hrest g hg hsaved
    refine ⟨hfile,?_⟩
    by_cases hp : g.proc=p
    · subst hp
      simp only [watch,step,held,procs_setProc,if_true]
      rw [NameIndex.lookup_invalidateNode (w.index.wf g.proc)]
      by_cases hid : g.id=id
      · rw [if_pos hid]
      · rw [if_neg hid]; exact hheld
    · exact (held_step_other tokens w.index (.invalidate p id) hp g.id).trans hheld

theorem mem_settled {g : Grave P} (hg : g∈w.graves.map (settle p)) (hsaved : g.saved = true) :
    ∃ f∈w.graves, f.proc=g.proc ∧ f.id=g.id ∧ (f.proc=p ∨ f.saved = true) := by
  obtain ⟨f,hf,rfl⟩ := List.mem_map.mp hg
  by_cases hp : f.proc=p
  · exact ⟨f,hf,by simp [settle,hp],by simp [settle,hp],.inl hp⟩
  · rw [settle,if_neg hp] at hsaved ⊢
    exact ⟨f,hf,rfl,rfl,.inr hsaved⟩

theorem atRest_save (hrest : AtRest w) (hresp : Respects tokens w (.save p io))
    (hdone : Completes tokens w.index p io) : AtRest (watch tokens w (.save p io)) := by
  intro g hg hsaved
  simp only [watch,dig,if_pos hdone] at hg
  obtain ⟨f,hf,hproc,hid,hcase⟩ := mem_settled hg hsaved
  obtain ⟨hfiled,hmem,-⟩ := save_completed hdone
  rw [not_inFile_iff,← hproc,← hid]
  by_cases hp : f.proc=p
  · obtain ⟨hheld,hbury⟩ := (hresp hdone f hf).1 hp
    have hnone : ((w.index.procs p).replica.adopt w.index.filed).mem f.id = none := by
      refine Replica.mem_adopt_eq_none.mpr ⟨hheld,?_⟩
      by_cases hfile : w.index.InFile f.id
      · exact .inl (hbury hfile)
      · exact .inr (not_inFile_iff.mp hfile)
    refine ⟨(congrFun hfiled f.id).trans (Replica.publish_eq_none.mpr (.inr hnone)),?_⟩
    rw [hp]
    exact (congrFun hmem f.id).trans hnone
  · have hold := hcase.resolve_left hp
    obtain ⟨hfile,hheld⟩ := hrest f hf hold
    refine ⟨(congrFun hfiled f.id).trans (Replica.publish_eq_none.mpr ?_),
      (held_step_other tokens w.index (.save p io) hp f.id).trans hheld⟩
    rcases (hresp hdone f hf).2 hp hold with hno | hwith
    · exact .inr (Replica.mem_adopt_eq_none.mpr ⟨hno,.inr (not_inFile_iff.mp hfile)⟩)
    · exact .inl hwith

theorem atRest_step (e : IndexEvent P) (hresp : Respects tokens w e) (hrest : AtRest w) :
    AtRest (watch tokens w e) := by
  cases e with
  | load p io => exact atRest_of_read hrest rfl rfl (readOf_load tokens w.index p io)
  | refresh p io => exact atRest_of_read hrest rfl rfl (readOf_refresh tokens w.index p io)
  | ingest p batch => exact atRest_ingest hrest hresp
  | invalidate p id => exact atRest_invalidate hrest id
  | save p io =>
    by_cases hdone : Completes tokens w.index p io
    · exact atRest_save hrest hresp hdone
    · obtain ⟨hdisk,hread⟩ := save_failed hdone
      exact atRest_of_read hrest (if_neg hdone) hdisk hread

/-- A step that breaks the condition leaves a grave disturbed. -/
theorem disturbed_step (e : IndexEvent P) (hresp : ¬Respects tokens w e) :
    ¬AtRest (watch tokens w e) := by
  intro hrest
  apply hresp
  cases e with
  | load p io | refresh p io | invalidate p id => trivial
  | ingest p batch =>
    rintro g hg hsaved hp ⟨o,ho,hid⟩
    by_contra hold
    have hkept : g∈(watch tokens w (.ingest p batch)).graves :=
      List.mem_filter.mpr ⟨hg,by simpa using hold⟩
    subst hp
    exact ((held_ingest tokens w.index g.proc batch g.id).mp (hrest g hkept hsaved).2).2 o ho hid
  | save p io =>
    intro hdone g hg
    have hex := save_completed hdone
    have hkept : settle p g∈(watch tokens w (.save p io)).graves := by
      simp only [watch,dig,if_pos hdone]
      exact List.mem_map.mpr ⟨g,hg,rfl⟩
    constructor
    · intro hp
      have hsettle : settle p g = { g with saved := true } := if_pos hp
      rw [hsettle] at hkept
      have hheld : ((w.index.procs p).replica.adopt w.index.filed).mem g.id = none :=
        (congrFun hex.2.1 g.id).symm.trans (hp ▸ (hrest _ hkept rfl).2)
      obtain ⟨hno,hor⟩ := Replica.mem_adopt_eq_none.mp hheld
      exact ⟨hno,fun hfile => hor.resolve_right (inFile_iff.mp hfile)⟩
    · intro hp hsaved
      rw [settle,if_neg hp] at hkept
      have hnone := (congrFun hex.1 g.id).symm.trans (not_inFile_iff.mp (hrest g hkept hsaved).1)
      rcases Replica.publish_eq_none.mp hnone with hwith | hno
      · exact .inr hwith
      · exact .inl (Replica.mem_adopt_eq_none.mp hno).1

def openGraveyard (toLowercase : String → String) (disk : Disk) : Graveyard P toLowercase :=
  ⟨start toLowercase disk,0,[]⟩

/-- Over every run of fresh processes, saved invalidations stay in force exactly when
every step respects the graves. -/
theorem invalidated_at_rest_iff (tokens : List String) (disk : Disk) (es : List (IndexEvent P)) :
    Always (watch tokens) AtRest (openGraveyard toLowercase disk) es ↔
      Meets (watch tokens) (Respects tokens) (openGraveyard toLowercase disk) es :=
  always_iff_meets (fun _ e => atRest_step e) (fun _ h => h) (fun _ e _ => disturbed_step e)
    fun _ hg => absurd hg (List.not_mem_nil)

/-- Two processes know `x`; one invalidates it and saves, then the other saves. -/
def returningNode : List (IndexEvent Bool) :=
  [.ingest false [⟨{ id := "x", name := "x" },0⟩],.save false {},.load true {},
   .invalidate true "x",.save true {},.ingest false [⟨{ id := "y", name := "y" },5⟩],
   .save false {}]

theorem invalidated_node_returns :
    ¬Always (watch []) AtRest (openGraveyard asciiLowercase {}) returningNode := by
  intro h
  have hend := h returningNode List.prefix_rfl ⟨true,"x",3,true⟩ (by decide) rfl
  exact hend.1 (by decide)

end WorkflowyMcp.SharedIndex
