import WorkflowyMcp.SharedIndex

/-! What the processes' saves make of one node of the shared file: how old the file's
copy may get, and when the file keeps a node that was saved. -/
namespace WorkflowyMcp.SharedIndex
open Runs
variable {P : Type} {toLowercase : String → String}

/-- The file has no copy of the node from before `t`. -/
def NoneOlder (id : String) (t : Int) (s : SharedIndex P toLowercase) : Prop :=
  ∀ e, s.filed id = some e → ∀ u, e.lastModified = some u → t ≤ u

/-- A completed save that shows the node is not by a process with a copy from before `t`. -/
def SavesCurrent (tokens : List String) (id : String) (t : Int) (s : SharedIndex P toLowercase) :
    IndexEvent P → Prop
  | .save p io => Completes tokens s p io → id∉withheldBy tokens s p →
      ∀ c, s.held p id = some c → ∀ u, c.lastModified = some u → t ≤ u
  | _ => True

/-- A completed save does not withhold the node. -/
def SavesShow (tokens : List String) (id : String) (s : SharedIndex P toLowercase) :
    IndexEvent P → Prop
  | .save p io => Completes tokens s p io → id∉withheldBy tokens s p
  | _ => True

variable [DecidableEq P] {tokens : List String} {id : String}

theorem noneOlder_step {t : Int} {s : SharedIndex P toLowercase} {e : IndexEvent P}
    (hcur : SavesCurrent tokens id t s e) (h : NoneOlder id t s) :
    NoneOlder id t (step tokens s e) := by
  intro c hc u hu
  rcases filed_step tokens s e with hsame | ⟨p,io,rfl,hdone⟩
  · rw [hsame] at hc
    exact h c hc u hu
  · rw [(save_completed hdone).1] at hc
    have hshown := (Replica.publish_eq_some.mp hc).1
    rcases Replica.exchange_origin hc with hown | ⟨-,hfile⟩
    · exact hcur hdone hshown c hown u hu
    · exact h c hfile u hu

theorem stale_step {t : Int} {s : SharedIndex P toLowercase} {e : IndexEvent P}
    (hstale : ¬SavesCurrent tokens id t s e) : ¬NoneOlder id t (step tokens s e) := by
  intro h
  apply hstale
  cases e with
  | load p io | ingest p batch | invalidate p x | refresh p io => trivial
  | save p io =>
    intro hdone hshown c hown u hu
    refine h c ?_ u hu
    rw [(save_completed hdone).1]
    exact Replica.publish_eq_some.mpr ⟨hshown,Replica.mem_adopt_of_mem hown⟩

/-- From a file holding a copy of time `t` on, the file's copy gets older than `t` exactly
when a process saves while its own memory holds, and it does not withhold, an older one. -/
theorem persisted_not_older_iff (s : SharedIndex P toLowercase) {e : NameIndexEntry} {t : Int}
    (hfiled : s.filed id = some e) (ht : e.lastModified = some t) (es : List (IndexEvent P)) :
    Always (step tokens) (NoneOlder id t) s es ↔
      Meets (step tokens) (SavesCurrent tokens id t) s es := by
  have hs : NoneOlder id t s := fun c hc u hu => by
    obtain rfl := Option.some.inj (hfiled.symm.trans hc)
    exact (Option.some.inj (ht.symm.trans hu)).le
  exact always_iff_meets (fun _ _ => noneOlder_step) (fun _ h => h)
    (fun _ _ _ => stale_step) hs

/-- One process holds an old copy of `x`; another has saved a newer one. -/
def newerSaved : SharedIndex Bool asciiLowercase :=
  run (step []) (start asciiLowercase {})
    [.ingest false [⟨{ id := "x", name := "x", lastModified := some 1 },0⟩],
     .ingest true [⟨{ id := "x", name := "x", lastModified := some 2 },1⟩],
     .save true {}]

theorem newerSaved_filed : newerSaved.filed "x" = some ⟨"x","x",none,none,some 2⟩ := by decide

/-- The older copy then replaces the newer one in the file. -/
theorem stale_copy_overwrites :
    newerSaved.filed "x" = some ⟨"x","x",none,none,some 2⟩ ∧
      ¬Always (step []) (NoneOlder "x" 2) newerSaved [.save false {}] := by
  refine ⟨newerSaved_filed,fun h => ?_⟩
  have hold := h [.save false {}] List.prefix_rfl ⟨"x","x",none,none,some 1⟩ (by decide) 1 rfl
  exact absurd hold (by decide)

/-- Saving again what is newest keeps the file's copy. -/
theorem newerSaved_kept :
    Always (step []) (NoneOlder "x" 2) newerSaved [.save true {}] := by
  refine (persisted_not_older_iff newerSaved newerSaved_filed rfl _).mpr ⟨?_,trivial⟩
  intro _ _ c hc u hu
  obtain rfl : c = ⟨"x","x",none,none,some 2⟩ :=
    Option.some.inj (hc.symm.trans (by decide : newerSaved.held true "x" = _))
  exact (Option.some.inj hu).le

theorem unburied_run {s : SharedIndex P toLowercase} {es : List (IndexEvent P)}
    (hes : ∀ e∈es, ∀ p, e ≠ .invalidate p id) (hs : ∀ p, ¬s.buried p id) :
    ∀ p, ¬(run (step tokens) s es).buried p id := by
  induction es generalizing s with
  | nil => exact hs
  | cons e es ih =>
    obtain ⟨he,hes⟩ := List.forall_mem_cons.mp hes
    exact ih hes fun p hb => hs p (buried_step he hb)

theorem inFile_step {s : SharedIndex P toLowercase} {e : IndexEvent P}
    (hshow : SavesShow tokens id s e) (hb : ∀ p, ¬s.buried p id) (h : s.filed id ≠ none) :
    (step tokens s e).filed id ≠ none := by
  rcases filed_step tokens s e with hsame | ⟨p,io,rfl,hdone⟩
  · rwa [hsame]
  · rw [(save_completed hdone).1]
    exact Replica.exchange_keeps h (hb p) (hshow hdone)

theorem inFile_run {s : SharedIndex P toLowercase} {es : List (IndexEvent P)}
    (hes : ∀ e∈es, ∀ p, e ≠ .invalidate p id)
    (hshow : Meets (step tokens) (SavesShow tokens id) s es)
    (hb : ∀ p, ¬s.buried p id) (h : s.filed id ≠ none) :
      (run (step tokens) s es).filed id ≠ none := by
  induction es generalizing s with
  | nil => exact h
  | cons e es ih =>
    obtain ⟨he,hes⟩ := List.forall_mem_cons.mp hes
    exact ih hes hshow.2 (fun p hp => hb p (buried_step he hp)) (inFile_step hshow.1 hb h)

/-- A node some process held at one of its completed saves stays in the file as long as
no process invalidates it and no save from that one on withholds it. -/
theorem additions_survive (disk : Disk) (pre post : List (IndexEvent P)) (p : P) (io : DiskIo)
    (hkeep : ∀ e∈pre++.save p io::post, ∀ q, e ≠ .invalidate q id)
    (hdone : Completes tokens (run (step tokens) (start toLowercase disk) pre) p io)
    (hheld : (run (step tokens) (start toLowercase disk) (pre++[.save p io])).held p id ≠ none)
    (hshow : Meets (step tokens) (SavesShow tokens id) (run (step tokens) (start toLowercase disk) pre)
      (.save p io::post)) :
    (run (step tokens) (start toLowercase disk) (pre++.save p io::post)).InFile id := by
  have hpre : ∀ e∈pre, ∀ q, e ≠ .invalidate q id := fun e he =>
    hkeep e (List.mem_append_left _ he)
  have hpost : ∀ e∈post, ∀ q, e ≠ .invalidate q id := fun e he =>
    hkeep e (List.mem_append_right _ (List.mem_cons_of_mem _ he))
  have hb : ∀ q, ¬(run (step tokens) (start toLowercase disk) pre).buried q id :=
    unburied_run hpre fun q => by simp [start,buried]
  rw [run_concat] at hheld
  rw [inFile_iff,run_append,run_cons]
  set s := run (step tokens) (start toLowercase disk) pre
  have hsave := save_completed hdone
  have hfiled : (step tokens s (.save p io)).filed id ≠ none := by
    rw [hsave.1]
    intro hn
    rcases Replica.publish_eq_none.mp hn with hw | hm
    · exact hshow.1 hdone hw
    · exact hheld ((congrFun hsave.2.1 id).trans hm)
  have hb' : ∀ q, ¬(step tokens s (.save p io)).buried q id := fun q hq =>
    hb q (buried_step (by simp) hq)
  exact inFile_run hpost hshow.2 hb' hfiled

/-- One process saved `x` below `a`; another has seen that `a` is below the private root. -/
def privateAncestry : List (IndexEvent Bool) :=
  [.ingest false [⟨{ id := "a", name := "a", parentId := some privateRoot },0⟩],
   .ingest true [⟨{ id := "x", name := "x", parentId := some "a" },1⟩]]

/-- The second process's save withholds `x`, which the first one had put in the file. -/
theorem later_saver_withholds :
    let s := run (step [privateRoot]) (start asciiLowercase {}) (privateAncestry++[.save true {}])
    (∀ e∈privateAncestry++[.save true {},.save false {}], ∀ q, e ≠ .invalidate q "x") ∧
      Completes [privateRoot] (run (step [privateRoot]) (start asciiLowercase {}) privateAncestry) true {} ∧
      s.held true "x" ≠ none ∧ s.InFile "x" ∧ Completes [privateRoot] s false {} ∧
      ¬(step [privateRoot] s (.save false {})).InFile "x" :=
  ⟨by decide,by decide,by decide,by decide,by decide,by decide⟩

/-- Two writers that loaded the same empty file: the first one's node survives the second
one's save. -/
theorem concurrent_writers_survive :
    (run (step [privateRoot]) (start asciiLowercase {})
      ([.load false {},.load true {},.ingest true [⟨{ id := "a", name := "a" },0⟩]]++
        .save true {}::[.ingest false [⟨{ id := "b", name := "b" },1⟩],.save false {}])).InFile "a" := by
  refine additions_survive {} _ _ true {} ?_ ?_ ?_ ?_
  · decide
  · decide
  · decide
  · exact ⟨fun _ => by decide,trivial,fun _ => by decide,trivial⟩

end WorkflowyMcp.SharedIndex
