import WorkflowyMcp.Lib.Outline
import WorkflowyMcp.Connection
import WorkflowyMcp.Transaction

/-! `insert_content_via_indented`: one create a line, under the stack of open ancestors,
with the progress made so far in every way the batch can stop. -/
namespace WorkflowyMcp.InsertContent

def MAX_INSERT_CONTENT_LINES : Nat := 80

structure ParsedLine where
  text : String
  indent : Nat
deriving DecidableEq, Repr

inductive PartialReason where
  | Cancelled | Timeout | Error
deriving DecidableEq, Repr

inductive InsertContentOutcome where
  | Complete (parentId : Option String) (createdCount : Nat) (lastInsertedId : Option String)
  | Partial (parentId : Option String) (reason : PartialReason) (createdCount totalCount : Nat)
      (lastInsertedId stoppedAtLine error : Option String)
deriving DecidableEq, Repr

def tooLarge (lines : Nat) : WorkflowyError :=
  let cap := toString MAX_INSERT_CONTENT_LINES
  .InvalidInput ("payload too large: " ++ toString lines ++ " lines exceeds the " ++ cap ++
    "-line cap. Split into batches of ≤" ++ cap ++ " lines each and call insert_content once per batch; pass the previous batch's `last_inserted_id` as `parent_id` of the next call to keep the hierarchy stitched together. The cap was lowered from 200 to " ++
    cap ++ " on 2026-05-04 because the failure-report 2026-05-03 observed ≥80-line payloads failing at the MCP transport layer before the handler ran — surfacing as undiagnosable 'Tool execution failed' with no per-tool counter movement. Below the cap is the empirically safe ceiling.")

structure Progress where
  parentStack : List (Option String)
  createdCount : Nat := 0
  lastInsertedId : Option String := none
  footprint : MutationFootprint := {}

structure Bailout where
  reason : PartialReason
  line : Option String
  error : Option String := none

namespace Progress

def indentOf (p : Progress) (line : ParsedLine) : Nat := min line.indent (p.parentStack.length-1)

def lineParent (p : Progress) (line : ParsedLine) : Option String :=
  p.parentStack.getD (p.indentOf line) none

/-- Book a created line and open it for the lines after it. -/
def record (p : Progress) (line : ParsedLine) (id : String) : Progress where
  parentStack :=
    let nextLevel := p.indentOf line+1
    if nextLevel < p.parentStack.length then
      (p.parentStack.set nextLevel (some id)).take (nextLevel+1)
    else p.parentStack++[some id]
  createdCount := p.createdCount+1
  lastInsertedId := some id
  footprint := p.footprint.recordCreated id line.text none (p.lineParent line)

end Progress

/-- The part of a pass after the reply to its create, `next` being the passes after it. -/
def afterCreate (p : Progress) (line : ParsedLine)
    (next : String → Net (Progress × Option Bailout)) :
    Except WorkflowyError CreatedNode → Net (Progress × Option Bailout)
  | .ok created => next created.id
  | .error .Cancelled => return (p,some ⟨.Cancelled,some line.text,none⟩)
  | .error .Timeout => return (p,some ⟨.Timeout,some line.text,none⟩)
  | .error e => do
    if ← ask (.isCancelled .afterError) then return (p,some ⟨.Cancelled,some line.text,none⟩)
    if ← ask (.isPastDeadline .afterError) then return (p,some ⟨.Timeout,some line.text,none⟩)
    return (p,some ⟨.Error,some line.text,some e.display⟩)

/-- The batch from line `idx` on. -/
def insertLines (maxAttempts : Nat) :
    List ParsedLine → Nat → Progress → Net (Progress × Option Bailout)
  | [],_,p => return (p,none)
  | line::lines,idx,p => do
    if ← ask (.isCancelled .beforeLine) then return (p,some ⟨.Cancelled,none,none⟩)
    if ← ask (.isPastDeadline .beforeLine) then return (p,some ⟨.Timeout,some line.text,none⟩)
    let reply ← Client.createNodeCancellable maxAttempts line.text none (p.lineParent line)
      (some (idx : Int)) none
    afterCreate p line (fun id => insertLines maxAttempts lines (idx+1) (p.record line id)) reply

def outcome (parentId : Option String) (total : Nat) (p : Progress) :
    Option Bailout → InsertContentOutcome
  | some b => .Partial parentId b.reason p.createdCount total p.lastInsertedId b.line b.error
  | none => .Complete parentId p.createdCount p.lastInsertedId

def insertContentViaIndented (maxAttempts : Nat) (parentId : Option String)
    (parsed : List ParsedLine) :
    Net (Except WorkflowyError (InsertContentOutcome × MutationFootprint)) :=
  if parsed.isEmpty then return .ok (.Complete parentId 0 none,{})
  else if MAX_INSERT_CONTENT_LINES < parsed.length then return .error (tooLarge parsed.length)
  else do
    let (p,bailout) ← insertLines maxAttempts parsed 0 { parentStack := [parentId] }
    let footprint := match parentId with
      | some pid => p.footprint.invalidateCacheOnly pid
      | none => p.footprint
    return .ok (outcome parentId parsed.length p bailout,footprint)

theorem record_parentStack (p : Progress) (line : ParsedLine) (id : String) :
    (p.record line id).parentStack = Outline.place p.parentStack line.indent (some id) := by
  have hlevel : p.indentOf line = Outline.level p.parentStack line.indent := rfl
  simp only [Progress.record,Outline.place,hlevel]
  split
  · rename_i hlt
    rw [List.take_add_one,List.take_set_of_le (Nat.le_refl _),List.getElem?_set_self hlt]
    rfl
  · rename_i hge
    rw [List.take_of_length_le (Nat.le_of_not_lt hge)]

theorem lineParent_eq (p : Progress) (line : ParsedLine) :
    p.lineParent line = p.parentStack.getD (Outline.level p.parentStack line.indent) default := rfl

section step
variable {σ : Type} {w : World σ}

/-- The check before a line sees a cancel. -/
def cancelSeen (w : World σ) : Ask → σ → Bool
  | .isCancelled .beforeLine,s => (w.serve (.isCancelled .beforeLine) s).1
  | _,_ => false

theorem cancelSeen_createNode (maxAttempts : Nat) (name : String)
    (description parentId : Option String) (priority : Option Int)
    (layout : Option String) (s : σ) :
    (Client.createNodeCancellable maxAttempts name description parentId priority layout).tally
      (cancelSeen w) w.serve s = 0 := by
  have hattempt : ∀ q, (Client.sendAttempt q).Issues (· ≠ .isCancelled .beforeLine) := by
    intro q
    refine ⟨by simp,fun cancelled => ?_⟩
    cases cancelled with
    | true => trivial
    | false =>
      refine ⟨by simp,fun late => ?_⟩
      cases late with
      | true => trivial
      | false =>
        refine ⟨by simp,fun acquired => ?_⟩
        cases acquired with
        | false => trivial
        | true =>
          refine ⟨by simp,fun late => ?_⟩
          cases late with
          | true => trivial
          | false => exact ⟨by simp,fun _ => trivial⟩
  have hloop : ∀ q left attempt,
      (Client.requestLoop q attempt left).Issues (· ≠ .isCancelled .beforeLine) := by
    intro q left
    induction left with
    | zero =>
      intro attempt
      refine (hattempt q).bind fun reply => ?_
      cases reply <;> trivial
    | succ left ih =>
      intro attempt
      refine (hattempt q).bind fun reply => ?_
      cases reply with
      | ok r => trivial
      | error e =>
        simp only
        split
        · refine ⟨by simp,fun abort => ?_⟩
          cases abort with
          | error abort => trivial
          | ok u => exact ih (attempt+1)
        · trivial
  refine Proc.Issues.tally_eq_zero (P := (· ≠ .isCancelled .beforeLine)) ?_ ?_ w.serve s
  · refine Proc.Issues.bind ⟨by simp,fun remaining => ?_⟩ fun reply => trivial
    cases remaining with
    | some remainingMs => trivial
    | none => exact hloop _ _ _
  · intro a s ha
    unfold cancelSeen
    split
    · exact absurd rfl ha
    · rfl

variable {tmpl : WorkflowyNode} {most : Nat} {p : Progress} {line : ParsedLine} {s s' : σ}
  {prog rest : Net (Progress × Option Bailout)} {b : Bailout} {g : List String} {id : String}

/-- The batch stops at a line: nothing is booked for it, and the cursor names it unless the
check before the line saw a cancel. -/
structure Stops (w : World σ) (tmpl : WorkflowyNode) (most : Nat) (p : Progress) (line : ParsedLine)
    (prog : Net (Progress × Option Bailout)) (s : σ) (b : Bailout) (g : List String) : Prop where
  result : (prog.run w.serve s).1 = (p,some b)
  gains : w.Gains tmpl s (prog.run w.serve s).2 g
  atMost : g.length ≤ most
  disowned : g.length ≤ prog.tally w.disowned w.serve s+1
  unheard : g.length = prog.tally w.unheard w.serve s
  line : b.line = if prog.tally (cancelSeen w) w.serve s = 0 then some line.text else none

/-- The batch gets past a line and goes on with `rest` from `s'`. -/
structure GoesOn (w : World σ) (tmpl : WorkflowyNode) (most : Nat)
    (prog : Net (Progress × Option Bailout)) (s : σ) (rest : Net (Progress × Option Bailout))
    (s' : σ) (id : String) (g : List String) : Prop where
  run : prog.run w.serve s = rest.run w.serve s'
  gains : w.Gains tmpl s s' g
  atMost : g.length ≤ most
  disowned : g.length+rest.tally w.disowned w.serve s' ≤ prog.tally w.disowned w.serve s+1
  unheard : g.length+rest.tally w.unheard w.serve s' = prog.tally w.unheard w.serve s+1
  cancelSeen : prog.tally (cancelSeen w) w.serve s = rest.tally (cancelSeen w) w.serve s'
  last : g.getLast? = some id

/-- What becomes of a line: the batch stops there or goes on with the lines after it. -/
def LineStep (w : World σ) (tmpl : WorkflowyNode) (most : Nat) (p : Progress) (line : ParsedLine)
    (next : String → Net (Progress × Option Bailout)) (prog : Net (Progress × Option Bailout))
    (s : σ) : Prop :=
  (∃ b g, Stops w tmpl most p line prog s b g) ∨
    ∃ id g s', GoesOn w tmpl most prog s (next id) s' id g

variable {next : String → Net (Progress × Option Bailout)}

theorem LineStep.quiet {a : Ask} (ha : ∀ q, a ≠ .send q) (hc : cancelSeen w a s = false)
    {k : Answer a → Net (Progress × Option Bailout)}
    (h : LineStep w tmpl most p line next (k (w.serve a s).1) (w.serve a s).2) :
    LineStep w tmpl most p line next (.call () a k) s := by
  obtain ⟨hd,hu⟩ := World.unmarked (w := w) ha s
  rcases h with ⟨b,g,h⟩ | ⟨id,g,s',h⟩
  · refine .inl ⟨b,g,h.result,.quiet ha h.gains,h.atMost,?_,?_,?_⟩
    · simpa [hd] using h.disowned
    · simpa [hu] using h.unheard
    · simpa [hc] using h.line
  · refine .inr ⟨id,g,s',h.run,.quiet ha h.gains,h.atMost,?_,?_,?_,h.last⟩
    · simpa [hd] using h.disowned
    · simpa [hu] using h.unheard
    · simpa [hc] using h.cancelSeen

/-- What follows a failed create: the batch stops at the line and asks nothing of the store. -/
def Quits (w : World σ) (p : Progress) (line : ParsedLine) (prog : Net (Progress × Option Bailout))
    (s : σ) : Prop :=
  ∃ b, (prog.run w.serve s).1 = (p,some b) ∧ b.line = some line.text ∧
    w.nodes (prog.run w.serve s).2 = w.nodes s ∧ prog.tally w.disowned w.serve s = 0 ∧
    prog.tally w.unheard w.serve s = 0 ∧ prog.tally (cancelSeen w) w.serve s = 0

theorem Quits.quiet {a : Ask} (ha : ∀ q, a ≠ .send q) (hc : ∀ s, cancelSeen w a s = false)
    {k : Answer a → Net (Progress × Option Bailout)} (h : ∀ r s', Quits w p line (k r) s') :
    Quits w p line (.call () a k) s := by
  obtain ⟨b,hrun,hline,hnodes,hd,hu,hcs⟩ := h (w.serve a s).1 (w.serve a s).2
  obtain ⟨hda,hua⟩ := World.unmarked (w := w) ha s
  refine ⟨b,hrun,hline,hnodes.trans (w.quiet a s ha),?_,?_,?_⟩
  · simpa [hda] using hd
  · simpa [hua] using hu
  · simpa [hc s] using hcs

theorem quits_afterError (e : WorkflowyError) (s : σ) :
    Quits w p line (afterCreate p line next (.error e)) s := by
  have hret : ∀ (b : Bailout) (s : σ), b.line = some line.text →
    Quits w p line (.ret (p,some b)) s :=
    fun b s hb => ⟨b,rfl,hb,rfl,rfl,rfl,rfl⟩
  unfold afterCreate
  split
  · rename_i heq
    cases heq
  · exact hret _ s rfl
  · exact hret _ s rfl
  · refine Quits.quiet (by simp) (fun _ => rfl) fun cancelled s => ?_
    cases cancelled with
    | true => exact hret _ s rfl
    | false =>
      refine Quits.quiet (by simp) (fun _ => rfl) fun late s => ?_
      cases late with
      | true => exact hret _ s rfl
      | false => exact hret _ s rfl

theorem lineStep_create (maxAttempts idx : Nat) (s : σ) :
    LineStep w (World.template line.text none (p.lineParent line) (some (idx : Int)))
      (max 1 maxAttempts) p line next
      ((Client.createNodeCancellable maxAttempts line.text none (p.lineParent line)
        (some (idx : Int)) none).bind (afterCreate p line next)) s := by
  obtain ⟨g,h⟩ := World.created_createNodeCancellable (w := w) line.text none (p.lineParent line)
    (some (idx : Int)) none maxAttempts s
  have hcs := cancelSeen_createNode (w := w) maxAttempts line.text none (p.lineParent line)
    (some (idx : Int)) none s
  generalize Client.createNodeCancellable maxAttempts line.text none (p.lineParent line)
    (some (idx : Int)) none = create at h hcs ⊢
  have hdisowned := h.disowned
  cases hreply : (create.run w.serve s).1 with
  | ok c =>
    obtain ⟨hlast,hlen⟩ := h.ok c hreply
    refine .inr ⟨c.id,g,(create.run w.serve s).2,?_,h.gains,h.atMost,?_,?_,?_,hlast⟩
    · rw [Proc.run_bind,hreply]
      rfl
    · rw [Proc.tally_bind,hreply,afterCreate]
      omega
    · rw [Proc.tally_bind,hreply,afterCreate]
      omega
    · rw [Proc.tally_bind,hreply,afterCreate,hcs]
      omega
  | error e =>
    have hlen := h.error e hreply
    obtain ⟨b,hrun,hline,hnodes,hd,hu,hc⟩ :
        Quits w p line (afterCreate p line next (.error e)) (create.run w.serve s).2 :=
      quits_afterError e _
    refine .inl ⟨b,g,?_,⟨?_,h.gains.fresh⟩,h.atMost,?_,?_,?_⟩
    · rw [Proc.run_bind,hreply]
      exact hrun
    · rw [Proc.run_bind,hreply,hnodes]
      exact h.gains.nodes
    · rw [Proc.tally_bind,hreply]
      omega
    · rw [Proc.tally_bind,hreply,hu,hlen]
      rfl
    · rw [Proc.tally_bind,hreply,hc,hcs]
      exact hline

theorem insertLines_cons (maxAttempts : Nat) (line : ParsedLine) (lines : List ParsedLine)
    (idx : Nat) (p : Progress) (s : σ) :
    LineStep w (World.template line.text none (p.lineParent line) (some (idx : Int)))
      (max 1 maxAttempts) p line (fun id => insertLines maxAttempts lines (idx+1) (p.record line id))
      (insertLines maxAttempts (line::lines) idx p) s := by
  have hstop : ∀ (reason : PartialReason) (s : σ),
      LineStep w (World.template line.text none (p.lineParent line) (some (idx : Int)))
        (max 1 maxAttempts) p line
        (fun id => insertLines maxAttempts lines (idx+1) (p.record line id))
        (.ret (p,some ⟨reason,some line.text,none⟩)) s := fun reason s =>
    .inl ⟨_,[],rfl,.none rfl,by simp,by simp,rfl,rfl⟩
  cases hcancel : (w.serve (.isCancelled .beforeLine) s).1 with
  | true =>
    refine .inl ⟨⟨.Cancelled,none,none⟩,[],?_,.none ?_,by simp,by simp,?_,?_⟩
    · simp [insertLines,ask,hcancel]
    · have hquiet := w.quiet (.isCancelled .beforeLine) s (by simp)
      simpa [insertLines,ask,hcancel] using hquiet
    · simp [insertLines,ask,hcancel,World.unheard]
    · simp [insertLines,ask,hcancel,cancelSeen]
  | false =>
    refine LineStep.quiet (a := .isCancelled .beforeLine) (by simp) hcancel ?_
    rw [hcancel]
    refine LineStep.quiet (a := .isPastDeadline .beforeLine) (by simp) rfl ?_
    cases (w.serve (.isPastDeadline .beforeLine) (w.serve (.isCancelled .beforeLine) s).2).1 with
    | true => exact hstop .Timeout _
    | false => exact lineStep_create maxAttempts idx _

/-- The nodes made for the lines whose ids the batch learnt. -/
def planned : Progress → Nat → List ParsedLine → List String → List WorkflowyNode
  | p,idx,line::lines,id::ids =>
    { World.template line.text none (p.lineParent line) (some (idx : Int)) with id } ::
      planned (p.record line id) (idx+1) lines ids
  | _,_,_,_ => []

def recordAll (p : Progress) (lines : List ParsedLine) (ids : List String) : Progress :=
  (lines.zip ids).foldl (fun p entry => p.record entry.1 entry.2) p

/-- A run of the batch: what it booked, how it ended and what the upstream gained. -/
structure Booked (w : World σ) (lines : List ParsedLine) (idx : Nat) (p : Progress)
    (prog : Net (Progress × Option Bailout)) (s : σ) (ids : List String) : Prop where
  progress : (prog.run w.serve s).1.1 = recordAll p lines ids
  completed : (prog.run w.serve s).1.2 = none → ids.length = lines.length
  stopped : ∀ b, (prog.run w.serve s).1.2 = some b → ∃ line, lines[ids.length]? = some line ∧
    b.line = if prog.tally (cancelSeen w) w.serve s = 0 then some line.text else none
  gained : (w.nodes (prog.run w.serve s).2).length =
    (w.nodes s).length+ids.length+prog.tally w.unheard w.serve s
  keeps : w.nodes s ⊆ w.nodes (prog.run w.serve s).2
  made : planned p idx lines ids ⊆ w.nodes (prog.run w.serve s).2
  exact : prog.tally w.unheard w.serve s = 0 →
    w.nodes (prog.run w.serve s).2 = w.nodes s++planned p idx lines ids
  fresh : ∀ id∈ids, World.Fresh (w.nodes s) id
  distinct : ids.Nodup
  apart : ∀ x, p.parentStack = [x] ∨ (∃ n∈w.nodes s, n.parentId = x) → ∀ id∈ids, x≠some id

theorem booked_insertLines (maxAttempts : Nat) (lines : List ParsedLine) (idx : Nat) (p : Progress)
    (s : σ) : ∃ ids, Booked w lines idx p (insertLines maxAttempts lines idx p) s ids := by
  induction lines generalizing idx p s with
  | nil => exact ⟨[],rfl,fun _ => rfl,by simp [insertLines],by simp [insertLines],
      by simp [insertLines],by simp [planned],by simp [insertLines,planned],by simp,by simp,
      by simp⟩
  | cons line lines ih =>
    rcases insertLines_cons (w := w) maxAttempts line lines idx p s with ⟨b,g,h⟩ | ⟨id,g,s',h⟩
    · refine ⟨[],?_,?_,?_,?_,?_,by simp [planned],?_,by simp,by simp,by simp⟩
      · rw [h.result]
        rfl
      · simp [h.result]
      · intro b' hb
        obtain rfl : b = b' := by simpa [h.result] using hb
        exact ⟨line,rfl,h.line⟩
      · rw [h.gains.length,h.unheard]
        simp
      · rw [h.gains.nodes]
        exact List.subset_append_left _ _
      · intro hu
        have hg : g = [] := List.eq_nil_of_length_eq_zero (h.unheard.trans hu)
        rw [h.gains.nodes,hg]
        simp [planned]
    · obtain ⟨ids,hb⟩ := ih (idx+1) (p.record line id) s'
      have hid : id∈g := List.mem_of_getLast? h.last
      have hun := h.unheard
      beta_reduce at hun
      have hsub : w.nodes s ⊆ w.nodes s' := by
        rw [h.gains.nodes]
        exact List.subset_append_left _ _
      have hnode : { World.template line.text none (p.lineParent line) (some (idx : Int)) with
          id } ∈ w.nodes s' := by
        rw [h.gains.nodes]
        exact List.mem_append_right _ (List.mem_map.mpr ⟨id,hid,rfl⟩)
      refine ⟨id::ids,?_,?_,?_,?_,?_,?_,?_,?_,?_,?_⟩
      · rw [h.run,hb.progress]
        rfl
      · rw [h.run]
        exact fun hnone => congrArg (·+1) (hb.completed hnone)
      · rw [h.run,h.cancelSeen]
        exact hb.stopped
      · rw [h.run,hb.gained,h.gains.length,List.length_cons]
        omega
      · rw [h.run]
        exact fun n hn => hb.keeps (hsub hn)
      · rw [h.run]
        exact List.cons_subset.mpr ⟨hb.keeps hnode,hb.made⟩
      · intro hu
        have hpos := List.length_pos_of_mem hid
        obtain ⟨x,hx⟩ := List.length_eq_one_iff.mp (show g.length = 1 by omega)
        obtain rfl : x = id := by simpa [hx] using h.last
        rw [h.run,hb.exact (by omega),h.gains.nodes,hx]
        simp [planned]
      · intro y hy
        rcases List.mem_cons.mp hy with rfl | hy
        · exact (h.gains.fresh y hid).1
        · exact fun n hn => hb.fresh y hy n (hsub hn)
      · exact List.nodup_cons.mpr ⟨fun hmem => (hb.fresh id hmem _ hnode).1 rfl,hb.distinct⟩
      · intro x hx y hy
        have hused : ∃ n∈w.nodes s', n.parentId = x := by
          rcases hx with hx | ⟨n,hn,rfl⟩
          · exact ⟨_,hnode,by simp [Progress.lineParent,Progress.indentOf,hx]⟩
          · exact ⟨n,hsub hn,rfl⟩
        rcases List.mem_cons.mp hy with rfl | hy
        · rcases hx with hx | ⟨n,hn,rfl⟩
          · have hp : p.lineParent line = x := by
              simp [Progress.lineParent,Progress.indentOf,hx]
            exact hp ▸ (h.gains.fresh y hid).2
          · exact ((h.gains.fresh y hid).1 n hn).2
        · exact hb.apart x (.inr hused) y hy

end step

section tree
variable {p : Progress} {lines : List ParsedLine} {ids : List String}

/-- The open ancestor of line `i`: the nearest line before it at a smaller level, where an
indent counts as at most one level more than the line before. -/
def parentLine (lines : List ParsedLine) (i : Nat) : Option Nat :=
  Outline.nearest (Outline.levels 0 (lines.map ParsedLine.indent)) i

/-- The nodes of the first lines of a payload below `base`, as far as there are ids. -/
def madeNodes (base : Option String) (lines : List ParsedLine) (ids : List String) :
    List WorkflowyNode :=
  (List.range ids.length).map fun i => {
    id := ids.getD i ""
    name := (lines.map ParsedLine.text).getD i ""
    parentId := Outline.entry base (ids.map some) (parentLine lines i)
    priority := some (i : Int) }

def items (lines : List ParsedLine) (ids : List String) : List (Nat × Option String) :=
  (lines.map ParsedLine.indent).zip (ids.map some)

theorem planned_getElem? (p : Progress) (idx : Nat) (hle : ids.length ≤ lines.length) (i : Nat)
    (hi : i < ids.length) : (planned p idx lines ids)[i]? = some {
      id := ids.getD i ""
      name := (lines.map ParsedLine.text).getD i ""
      parentId := (Outline.parents p.parentStack (items lines ids)).getD i none
      priority := some ((idx+i : Nat) : Int) } := by
  induction lines generalizing p idx ids i with
  | nil => simp at hle; simp [hle] at hi
  | cons line lines ih =>
    cases ids with
    | nil => simp at hi
    | cons id ids =>
      cases i with
      | zero => simp [planned,items,Outline.parents,lineParent_eq]
      | succ i =>
        have hrest := ih (p.record line id) (idx+1)
          (by simpa using hle : ids.length ≤ lines.length) i (by simpa using hi)
        rw [record_parentStack] at hrest
        have hidx : idx+1+i = idx+(i+1) := by omega
        rw [hidx] at hrest
        simpa [planned,items,Outline.parents] using hrest

theorem length_planned (p : Progress) (idx : Nat) (hle : ids.length ≤ lines.length) :
    (planned p idx lines ids).length = ids.length := by
  induction lines generalizing p idx ids with
  | nil => simp at hle; simp [hle,planned]
  | cons line lines ih =>
    cases ids with
    | nil => rfl
    | cons id ids => simpa [planned] using ih (p.record line id) (idx+1) (by simpa using hle)

theorem planned_eq_madeNodes (base : Option String) (hle : ids.length ≤ lines.length) :
    planned { parentStack := [base] } 0 lines ids = madeNodes base lines ids := by
  have hparents := Outline.parents_zip base (lines.map ParsedLine.indent) (ids.map some)
    (by simpa using hle)
  refine List.ext_getElem? fun i => ?_
  by_cases hi : i < ids.length
  · rw [planned_getElem? _ 0 hle i hi,items,hparents]
    simp [madeNodes,parentLine,hi]
  · have hlen := length_planned { parentStack := [base] } 0 hle
    rw [List.getElem?_eq_none (by omega),List.getElem?_eq_none (by simp [madeNodes]; omega)]

theorem recordAll_cons (p : Progress) (line : ParsedLine) (lines : List ParsedLine) (id : String)
    (ids : List String) :
    recordAll p (line::lines) (id::ids) = recordAll (p.record line id) lines ids := rfl

theorem recordAll_createdCount (hle : ids.length ≤ lines.length) :
    (recordAll p lines ids).createdCount = p.createdCount+ids.length := by
  induction lines generalizing p ids with
  | nil => simp at hle; simp [hle,recordAll]
  | cons line lines ih =>
    cases ids with
    | nil => rfl
    | cons id ids =>
      rw [recordAll_cons,ih (by simpa using hle)]
      simp [Progress.record]
      omega

theorem recordAll_lastInsertedId (hle : ids.length ≤ lines.length) :
    (recordAll p lines ids).lastInsertedId = (ids.getLast? <|> p.lastInsertedId) := by
  induction lines generalizing p ids with
  | nil => simp at hle; simp [hle,recordAll]
  | cons line lines ih =>
    cases ids with
    | nil => rfl
    | cons id ids =>
      rw [recordAll_cons,ih (by simpa using hle)]
      cases ids with
      | nil => rfl
      | cons id' ids => simp [List.getLast?_eq_some_getLast]

theorem recordAll_createdNodes (hle : ids.length ≤ lines.length) :
    (recordAll p lines ids).footprint.createdNodes.map WorkflowyNode.id =
      p.footprint.createdNodes.map WorkflowyNode.id++ids := by
  induction lines generalizing p ids with
  | nil => simp at hle; simp [hle,recordAll]
  | cons line lines ih =>
    cases ids with
    | nil => simp [recordAll]
    | cons id ids =>
      rw [recordAll_cons,ih (by simpa using hle)]
      simp [Progress.record,MutationFootprint.recordCreated]

end tree

section results
variable {σ : Type} {w : World σ} {maxAttempts : Nat} {base : Option String}
  {lines : List ParsedLine} {s : σ}

/-- The batch as the tool sees it, once the payload is neither empty nor too large. -/
theorem insertContent_eq (hne : lines≠[]) (hcap : lines.length ≤ MAX_INSERT_CONTENT_LINES) :
    insertContentViaIndented maxAttempts base lines =
      (insertLines maxAttempts lines 0 { parentStack := [base] }).bind fun r =>
        .ret (.ok (outcome base lines.length r.1 r.2,
          match base with
          | some pid => r.1.footprint.invalidateCacheOnly pid
          | none => r.1.footprint)) := by
  have hempty : lines.isEmpty = false := by simpa using hne
  simp only [insertContentViaIndented,hempty,Bool.false_eq_true,if_false,
    if_neg (Nat.not_lt.mpr hcap)]
  rfl

theorem insertContent_other (maxAttempts : Nat) (base : Option String)
    (h : ¬(lines≠[] ∧ lines.length ≤ MAX_INSERT_CONTENT_LINES)) :
    insertContentViaIndented maxAttempts base lines = .ret (.ok (.Complete base 0 none,{})) ∧
        lines = [] ∨
      insertContentViaIndented maxAttempts base lines = .ret (.error (tooLarge lines.length)) := by
  by_cases hne : lines = []
  · subst hne
    exact .inl ⟨rfl,rfl⟩
  · have hcap : MAX_INSERT_CONTENT_LINES < lines.length := by
      by_contra hle
      exact h ⟨hne,Nat.le_of_not_lt hle⟩
    have hempty : lines.isEmpty = false := by simpa using hne
    refine .inr ?_
    simp only [insertContentViaIndented,hempty,Bool.false_eq_true,if_false,if_pos hcap]
    rfl

/-- What the batch made, line by line. -/
theorem insertLines_groups (maxAttempts : Nat) (lines : List ParsedLine) (idx : Nat) (p : Progress)
    (s : σ) :
    ∃ groups : List (List WorkflowyNode),
      w.nodes ((insertLines maxAttempts lines idx p).run w.serve s).2 = w.nodes s++groups.flatten ∧
      groups.length ≤ lines.length ∧
      ∀ (i : Nat) group, groups[i]? = some group →
        group.length ≤ max 1 maxAttempts ∧
        group.length ≤ (insertLines maxAttempts lines idx p).tally w.disowned w.serve s+1 ∧
        ∃ line, lines[i]? = some line ∧
          ∀ n∈group, n.name = line.text ∧ n.priority = some ((idx+i : Nat) : Int) := by
  induction lines generalizing idx p s with
  | nil => exact ⟨[],by simp [insertLines],by simp,by simp⟩
  | cons line lines ih =>
    have hgroup : ∀ g, ∀ n∈World.copies (World.template line.text none (p.lineParent line)
        (some (idx : Int))) g, n.name = line.text ∧ n.priority = some (idx : Int) := by
      intro g n hn
      obtain ⟨id,-,rfl⟩ := List.mem_map.mp hn
      exact ⟨rfl,rfl⟩
    rcases insertLines_cons (w := w) maxAttempts line lines idx p s with ⟨b,g,h⟩ | ⟨id,g,s',h⟩
    · refine ⟨[World.copies _ g],by rw [List.flatten_singleton]; exact h.gains.nodes,by simp,?_⟩
      intro i group hi
      cases i with
      | succ i => simp at hi
      | zero =>
        obtain rfl := Option.some.inj hi
        exact ⟨by simpa using h.atMost,by simpa using h.disowned,line,rfl,hgroup g⟩
    · obtain ⟨groups,hnodes,hlen,hgroups⟩ := ih (idx+1) (p.record line id) s'
      have hd := h.disowned
      beta_reduce at hd
      have hpos := List.length_pos_of_mem (List.mem_of_getLast? h.last)
      refine ⟨World.copies (World.template line.text none (p.lineParent line)
        (some (idx : Int))) g::groups,?_,by simpa using hlen,?_⟩
      · rw [List.flatten_cons,← List.append_assoc,← h.gains.nodes,← hnodes]
        exact congrArg (fun r => w.nodes r.2) h.run
      · intro i group hi
        cases i with
        | zero =>
          obtain rfl := Option.some.inj hi
          exact ⟨by simpa using h.atMost,by simp only [List.length_map]; omega,line,rfl,hgroup g⟩
        | succ i =>
          obtain ⟨hmost,htally,line',hline,hn⟩ := hgroups i group hi
          have hidx : idx+1+i = idx+(i+1) := by omega
          exact ⟨hmost,by omega,line',hline,hidx ▸ hn⟩

/-- One call makes at most as many nodes as it may attempt, and at most one more than there
were attempts that took effect but whose answer invited another; a batch makes at most
that many for each of its lines. -/
theorem creates_bounded (w : World σ) (maxAttempts : Nat) :
    (∀ name description parentId priority layout s,
      let p := Client.createNodeCancellable maxAttempts name description parentId priority layout
      ∃ ids, w.Gains (World.template name description parentId priority) s (p.run w.serve s).2 ids ∧
        ids.length ≤ max 1 maxAttempts ∧ ids.length ≤ p.tally w.disowned w.serve s+1) ∧
    ∀ base lines s,
      let p := insertContentViaIndented maxAttempts base lines
      ∃ groups : List (List WorkflowyNode),
        w.nodes (p.run w.serve s).2 = w.nodes s++groups.flatten ∧ groups.length ≤ lines.length ∧
        ∀ (i : Nat) group, groups[i]? = some group →
          group.length ≤ max 1 maxAttempts ∧ group.length ≤ p.tally w.disowned w.serve s+1 ∧
          ∃ line, lines[i]? = some line ∧ ∀ n∈group, n.name = line.text ∧
            n.priority = some (i : Int) := by
  refine ⟨fun name description parentId priority layout s => ?_,fun base lines s => ?_⟩
  · obtain ⟨ids,h⟩ := World.created_createNodeCancellable (w := w) name description parentId
      priority layout maxAttempts s
    exact ⟨ids,h.gains,h.atMost,h.disowned⟩
  · by_cases hin : lines≠[] ∧ lines.length ≤ MAX_INSERT_CONTENT_LINES
    · have hgroups := insertLines_groups (w := w) maxAttempts lines 0 { parentStack := [base] } s
      simpa [insertContent_eq hin.1 hin.2,Proc.run_bind,Proc.tally_bind] using hgroups
    · refine ⟨[],?_,by simp,by simp⟩
      rcases insertContent_other maxAttempts base hin with ⟨heq,-⟩ | heq
      · simp [heq]
      · simp [heq]

/-- A create that lands behind a bad gateway and is sent again. -/
theorem create_landed_twice :
    ¬((Client.createNodeCancellable RETRY_MAX_ATTEMPTS "a" none none none none).run
      (Service.reliable.world { lost := fun t => if t = 5 then some (.ApiError 502 "") else none }).serve
      ⟨[],0⟩).2.nodes.length ≤ 1 := by
  decide

variable {parentId : Option String} {count total : Nat} {last stopped error : Option String}
  {reason : PartialReason} {fp : MutationFootprint}

/-- A complete batch booked every line. -/
theorem complete_booked
    (h : ((insertContentViaIndented maxAttempts base lines).run w.serve s).1 =
      .ok (.Complete parentId count last,fp)) :
    ∃ ids, ids.length = lines.length ∧ last = ids.getLast? ∧
      fp.createdNodes.map WorkflowyNode.id = ids ∧
      madeNodes base lines ids ⊆
        w.nodes ((insertContentViaIndented maxAttempts base lines).run w.serve s).2 ∧
      ((insertContentViaIndented maxAttempts base lines).tally w.unheard w.serve s = 0 →
        w.nodes ((insertContentViaIndented maxAttempts base lines).run w.serve s).2 =
          w.nodes s++madeNodes base lines ids) ∧
      (∀ id∈ids, World.Fresh (w.nodes s) id) ∧ ids.Nodup ∧ ∀ id∈ids, base≠some id := by
  by_cases hin : lines≠[] ∧ lines.length ≤ MAX_INSERT_CONTENT_LINES
  · obtain ⟨ids,hb⟩ := booked_insertLines (w := w) maxAttempts lines 0 { parentStack := [base] } s
    have hfresh := hb.fresh
    simp only [insertContent_eq hin.1 hin.2,Proc.run_bind,Proc.tally_bind,Proc.run_ret,
      Proc.tally_ret,Nat.add_zero,Except.ok.injEq,Prod.mk.injEq] at h ⊢
    obtain ⟨hout,hfp⟩ := h
    cases hbail : ((insertLines maxAttempts lines 0 { parentStack := [base] }).run w.serve s).1.2 with
    | some b => simp [outcome,hbail] at hout
    | none =>
      have hlen := hb.completed hbail
      have hplan := planned_eq_madeNodes base hlen.le
      refine ⟨ids,hlen,?_,?_,hplan ▸ hb.made,hplan ▸ hb.exact,hfresh,hb.distinct,
        hb.apart base (.inl rfl)⟩
      · simp only [outcome,hbail,InsertContentOutcome.Complete.injEq] at hout
        rw [← hout.2.2,hb.progress,recordAll_lastInsertedId hlen.le]
        simp
      · have hids := recordAll_createdNodes (p := { parentStack := [base] }) hlen.le
        rw [hb.progress] at hfp
        rw [← hfp]
        cases base <;> simpa [MutationFootprint.invalidateCacheOnly] using hids
  · rcases insertContent_other maxAttempts base hin with
      ⟨heq,rfl⟩ | heq
    · simp only [heq,Proc.run_ret,Except.ok.injEq,Prod.mk.injEq,
        InsertContentOutcome.Complete.injEq] at h ⊢
      exact ⟨[],rfl,h.1.2.2.symm,by simp [← h.2],by simp [madeNodes],by simp [madeNodes],by simp,
        by simp,by simp⟩
    · simp [heq] at h

/-- The node of each line is hung under the node of the nearest line before it at a smaller
level, or under the base; where no line is indented more than one step deeper than the
line before, levels are the indents. -/
theorem complete_parents (w : World σ) (maxAttempts : Nat) (base : Option String)
    (lines : List ParsedLine) (s : σ)
    (h : ((insertContentViaIndented maxAttempts base lines).run w.serve s).1 =
      .ok (.Complete parentId count last,fp)) :
    ∃ ids, ids.length = lines.length ∧ fp.createdNodes.map WorkflowyNode.id = ids ∧
      (∀ (i : Nat) line, lines[i]? = some line →
        ∃ n∈w.nodes ((insertContentViaIndented maxAttempts base lines).run w.serve s).2,
          some n.id = ids[i]? ∧ n.name = line.text ∧
          n.parentId = Outline.entry base (ids.map some)
            (Outline.nearest (Outline.levels 0 (lines.map ParsedLine.indent)) i)) ∧
      (Outline.Stepped 0 (lines.map ParsedLine.indent) →
        Outline.levels 0 (lines.map ParsedLine.indent) = lines.map ParsedLine.indent) := by
  obtain ⟨ids,hlen,-,hids,hmade,-⟩ := complete_booked h
  refine ⟨ids,hlen,hids,fun i line hi => ?_,Outline.Stepped.levels⟩
  obtain ⟨hlt,rfl⟩ := List.getElem?_eq_some_iff.mp hi
  have hlt' : i < ids.length := hlen ▸ hlt
  refine ⟨_,hmade (List.mem_map.mpr ⟨i,List.mem_range.mpr hlt',rfl⟩),?_,?_,rfl⟩
  · simp [hlt']
  · simp [hlt]

/-- A child under its parent, on a connection that loses nothing. -/
theorem complete_parents_child :
    let w := Service.reliable.world {}
    let p := insertContentViaIndented RETRY_MAX_ATTEMPTS none [⟨"a",0⟩,⟨"b",1⟩]
    ∃ ids : List String, ids.length = 2 ∧ ∃ n∈w.nodes (p.run w.serve ⟨[],0⟩).2,
      some n.id = ids[1]? ∧ n.name = "b" ∧ n.parentId = Outline.entry none (ids.map some)
        (some 0) := by
  obtain ⟨ids,hlen,-,hparents,-⟩ := complete_parents (Service.reliable.world {}) RETRY_MAX_ATTEMPTS
    none [⟨"a",0⟩,⟨"b",1⟩] ⟨[],0⟩ rfl
  exact ⟨ids,hlen,hparents 1 ⟨"b",1⟩ rfl⟩

/-- Of two lines indented alike but too deep, the second is hung under the first. -/
theorem deep_siblings_nested :
    let nodes := ((insertContentViaIndented RETRY_MAX_ATTEMPTS none
      [⟨"a",0⟩,⟨"b",2⟩,⟨"c",2⟩]).run (Service.reliable.world {}).serve ⟨[],0⟩).2.nodes
    ¬∀ n∈nodes, n.name = "c" →
      n.parentId = Outline.entry none (nodes.map fun m => some m.id)
        (Outline.nearest [0,2,2] 2) := by
  decide

/-- The cursor of a stopped batch: what was made is the first lines, as a whole run hangs
them, and the line to go on from is told. -/
def Resumable (w : World σ) (base : Option String) (lines : List ParsedLine) (s s' : σ)
    (count : Nat) (last stopped : Option String) : Prop :=
  ∃ ids, ids.length = count ∧ w.nodes s' = w.nodes s++madeNodes base lines ids ∧
    last = ids.getLast? ∧ ∃ line, lines[count]? = some line ∧ stopped = some line.text

/-- A stopped batch can be resumed exactly if it was not stopped by the check before a line
seeing a cancel, and no create took effect whose id it did not learn. -/
theorem partial_resumable_iff (w : World σ) (maxAttempts : Nat) (base : Option String)
    (lines : List ParsedLine) (s : σ)
    (h : ((insertContentViaIndented maxAttempts base lines).run w.serve s).1 =
      .ok (.Partial parentId reason count total last stopped error,fp)) :
    Resumable w base lines s
        ((insertContentViaIndented maxAttempts base lines).run w.serve s).2 count last stopped ↔
      (insertContentViaIndented maxAttempts base lines).tally (cancelSeen w) w.serve s = 0 ∧
      (insertContentViaIndented maxAttempts base lines).tally w.unheard w.serve s = 0 := by
  by_cases hin : lines≠[] ∧ lines.length ≤ MAX_INSERT_CONTENT_LINES
  · obtain ⟨ids,hb⟩ := booked_insertLines (w := w) maxAttempts lines 0 { parentStack := [base] } s
    have hgained := hb.gained
    simp only [insertContent_eq hin.1 hin.2,Proc.run_bind,Proc.tally_bind,Proc.run_ret,
      Proc.tally_ret,Nat.add_zero,Except.ok.injEq,Prod.mk.injEq] at h ⊢
    obtain ⟨hout,-⟩ := h
    cases hbail : ((insertLines maxAttempts lines 0 { parentStack := [base] }).run w.serve s).1.2 with
    | none => simp [outcome,hbail] at hout
    | some b =>
      obtain ⟨line,hline,hstop⟩ := hb.stopped b hbail
      have hlt := (List.getElem?_eq_some_iff.mp hline).1
      simp only [outcome,hbail,InsertContentOutcome.Partial.injEq,hb.progress,
        recordAll_createdCount hlt.le,recordAll_lastInsertedId hlt.le,Nat.zero_add] at hout
      obtain ⟨-,-,rfl,-,rfl,rfl,-⟩ := hout
      constructor
      · rintro ⟨ids',hlen,hnodes,-,line',hline',htold⟩
        refine ⟨?_,?_⟩
        · by_contra hne
          rw [hstop,if_neg hne] at htold
          cases htold
        · have hcount := congrArg List.length hnodes
          simp only [List.length_append,madeNodes,List.length_map,List.length_range] at hcount
          omega
      · rintro ⟨hc,hu⟩
        refine ⟨ids,rfl,?_,by simp,line,hline,by rw [hstop,if_pos hc]⟩
        rw [hb.exact hu,planned_eq_madeNodes base hlt.le]
  · rcases insertContent_other maxAttempts base hin with
      ⟨heq,-⟩ | heq
    · simp [heq] at h
    · simp [heq] at h

/-- A batch whose budget ends after the first line. -/
theorem partial_resumable_timeout :
    let w := Service.reliable.world { pastDeadline := fun site t => site = .beforeLine && t = 9 }
    let p := insertContentViaIndented RETRY_MAX_ATTEMPTS none [⟨"a",0⟩,⟨"b",0⟩]
    ∃ last, Resumable w none [⟨"a",0⟩,⟨"b",0⟩] ⟨[],0⟩ (p.run w.serve ⟨[],0⟩).2 1 last (some "b") :=
  ⟨_,(partial_resumable_iff (Service.reliable.world _) RETRY_MAX_ATTEMPTS none
    [⟨"a",0⟩,⟨"b",0⟩] ⟨[],0⟩ rfl).mpr (by decide)⟩

/-- A cancel seen before the second line leaves no line to go on from. -/
theorem cancelled_without_cursor :
    let w := Service.reliable.world { cancelled := fun site t => site = .beforeLine && t = 8 }
    let p := insertContentViaIndented RETRY_MAX_ATTEMPTS none [⟨"a",0⟩,⟨"b",0⟩]
    ∃ last fp, (p.run w.serve ⟨[],0⟩).1 = .ok (.Partial none .Cancelled 1 2 last none none,fp) ∧
      ¬Resumable w none [⟨"a",0⟩,⟨"b",0⟩] ⟨[],0⟩ (p.run w.serve ⟨[],0⟩).2 1 last none := by
  refine ⟨_,_,rfl,?_⟩
  rintro ⟨ids,-,-,-,line,-,hstopped⟩
  cases hstopped

end results

section hung

/-- Each node of the list hangs under one of the roots or under a node before it. -/
def Hung : List (Option String) → List WorkflowyNode → Prop
  | _,[] => True
  | roots,n::ns => n.parentId∈roots ∧ Hung (roots++[some n.id]) ns

theorem Hung.mono {roots roots' : List (Option String)} {ns : List WorkflowyNode}
    (h : Hung roots ns) (hsub : roots⊆roots') : Hung roots' ns := by
  induction ns generalizing roots roots' with
  | nil => trivial
  | cons n ns ih =>
    refine ⟨hsub h.1,ih h.2 (List.append_subset.mpr ⟨?_,List.subset_append_right ..⟩)⟩
    exact List.subset_append_of_subset_left _ hsub

theorem hung_append {roots : List (Option String)} {ns ms : List WorkflowyNode} :
    Hung roots (ns++ms) ↔ Hung roots ns ∧ Hung (roots++ns.map fun n => some n.id) ms := by
  induction ns generalizing roots with
  | nil => simp [Hung]
  | cons n ns ih => simp [Hung,ih,and_assoc]

theorem hung_copies {roots : List (Option String)} {tmpl : WorkflowyNode}
    (h : tmpl.parentId∈roots) (ids : List String) : Hung roots (World.copies tmpl ids) := by
  induction ids generalizing roots with
  | nil => trivial
  | cons id ids ih => exact ⟨h,ih (List.mem_append_left _ h)⟩

theorem lineParent_mem {p : Progress} (hp : p.parentStack≠[]) (line : ParsedLine) :
    p.lineParent line∈p.parentStack := by
  have hpos := List.length_pos_iff.mpr hp
  have hlt : p.indentOf line < p.parentStack.length := by
    unfold Progress.indentOf
    omega
  rw [Progress.lineParent,List.getD_eq_getElem?_getD,List.getElem?_eq_getElem hlt]
  exact List.getElem_mem hlt

theorem record_subset (p : Progress) (line : ParsedLine) (id : String) :
    (p.record line id).parentStack⊆p.parentStack++[some id] ∧ (p.record line id).parentStack≠[] := by
  rw [record_parentStack]
  unfold Outline.place
  refine ⟨List.append_subset.mpr ⟨?_,List.subset_append_right ..⟩,by simp⟩
  exact List.subset_append_of_subset_left _ (List.take_subset _ _)

variable {σ : Type} {w : World σ}

/-- However a batch ends, what it made hangs under the places that were open when it began. -/
theorem hung_insertLines (maxAttempts : Nat) (lines : List ParsedLine) (idx : Nat) {p : Progress}
    (hp : p.parentStack≠[]) (s : σ) :
    ∃ made, w.nodes ((insertLines maxAttempts lines idx p).run w.serve s).2 = w.nodes s++made ∧
      Hung p.parentStack made := by
  induction lines generalizing idx p s with
  | nil => exact ⟨[],by simp [insertLines],trivial⟩
  | cons line lines ih =>
    have hcopies (g : List String) : Hung p.parentStack (World.copies
        (World.template line.text none (p.lineParent line) (some (idx : Int))) g) :=
      hung_copies (lineParent_mem hp line) g
    rcases insertLines_cons (w := w) maxAttempts line lines idx p s with ⟨b,g,h⟩ | ⟨id,g,s',h⟩
    · exact ⟨_,h.gains.nodes,hcopies g⟩
    · obtain ⟨hsub,hne⟩ := record_subset p line id
      obtain ⟨made,hnodes,hhung⟩ := ih (idx+1) hne s'
      have hnodes : w.nodes ((insertLines maxAttempts lines (idx+1) (p.record line id)).run w.serve
        s').2 = w.nodes s'++made := hnodes
      refine ⟨_,by rw [h.run,hnodes,h.gains.nodes,List.append_assoc],hung_append.mpr ⟨hcopies g,?_⟩⟩
      refine hhung.mono fun x hx => ?_
      rcases List.mem_append.mp (hsub hx) with hx | hx
      · exact List.mem_append_left _ hx
      · obtain rfl := List.mem_singleton.mp hx
        exact List.mem_append_right _ (by simpa using List.mem_of_getLast? h.last)

theorem hung_insertContent (maxAttempts : Nat) (base : Option String) (lines : List ParsedLine)
    (s : σ) : ∃ made, w.nodes ((insertContentViaIndented maxAttempts base lines).run w.serve s).2 =
      w.nodes s++made ∧ Hung [base] made := by
  by_cases hin : lines≠[] ∧ lines.length ≤ MAX_INSERT_CONTENT_LINES
  · have h := hung_insertLines (w := w) maxAttempts lines 0 (p := { parentStack := [base] })
      (by simp) s
    simpa [insertContent_eq hin.1 hin.2,Proc.run_bind] using h
  · rcases insertContent_other maxAttempts base hin with ⟨heq,-⟩ | heq
    · exact ⟨[],by simp [heq],trivial⟩
    · exact ⟨[],by simp [heq],trivial⟩

end hung
end WorkflowyMcp.InsertContent
