import WorkflowyMcp.ToolCalls

/-! The generations of the cancel registry against what they are for: `cancel_all` marks the calls
and the walks that are running, and no later ones. -/
namespace WorkflowyMcp

/-- The same server with guards that are marks: `cancel_all` marks what is running. -/
def OpenCall.markAll (call : OpenCall Bool) : OpenCall Bool :=
  { call with guard := call.guard.map fun _ => true, walks := call.walks.map fun _ => true }

def Calls.markedStep {T : Type} [DecidableEq T] (errorText : String → WorkflowyError → String)
    (s : Calls T Bool) : CallEvent T → Calls T Bool
  | .cancelAll => { s with running := KeyMap.mapValues OpenCall.markAll s.running }
  | e => s.act false id errorText e

section marks
variable {G H : Type}

def OpenCall.map (f : G → H) (call : OpenCall G) : OpenCall H :=
  ⟨call.tool,call.paramsHash,call.started,call.guard.map f,call.walks.map f⟩

variable {T : Type} [DecidableEq T]

namespace Calls

def map (f : G → H) (s : Calls T G) : Calls T H :=
  ⟨KeyMap.mapValues (OpenCall.map f) s.running,s.inFlightWalks,s.opLog⟩

/-- Of the guards an event only uses whether they read as cancelled. -/
theorem act_map {f : G → H} {fresh : G} {fresh' : H} {isCancelled : G → Bool}
    {isCancelled' : H → Bool} (errorText : String → WorkflowyError → String)
    (hfresh : f fresh = fresh') (hread : ∀ g, isCancelled' (f g) = isCancelled g)
    (s : Calls T G) (e : CallEvent T) :
    (s.map f).act fresh' isCancelled' errorText e =
      (s.act fresh isCancelled errorText e).map f := by
  have hlookup (t : T) : (s.map f).running.lookup t = (s.running.lookup t).map (·.map f) :=
    KeyMap.lookup_mapValues _ _ t
  have hrelease (t : T) (call : OpenCall G) :
      (s.map f).release t (call.map f) = (s.release t call).map f := by
    simp [release,map,OpenCall.map,KeyMap.erase_mapValues]
  have hfinish (t : T) (call : OpenCall G) (now : Nat) (outcome : Outcome) :
      (s.map f).finish t (call.map f) now outcome = (s.finish t call now outcome).map f := by
    simp only [finish,hrelease]
    rfl
  cases e with
  | begin t tool paramsHash handled now =>
    simp only [act,hlookup]
    cases s.running.lookup t with
    | some call => rfl
    | none =>
      simp only [Option.map_none,map,KeyMap.insert_mapValues,OpenCall.map]
      cases handled <;> simp [hfresh]
  | enterWalk t =>
    simp only [act,hlookup]
    cases s.running.lookup t with
    | none => rfl
    | some call => simp [map,KeyMap.insert_mapValues,OpenCall.map,hfresh]
  | leaveWalk t i =>
    simp only [act,hlookup]
    cases s.running.lookup t with
    | none => rfl
    | some call =>
      by_cases hi : i<call.walks.length
      · simp [map,KeyMap.insert_mapValues,OpenCall.map,hi,List.eraseIdx_map]
      · simp [map,OpenCall.map,hi]
  | poll t now =>
    simp only [act,hlookup]
    cases s.running.lookup t with
    | none => rfl
    | some call =>
      have hany : (call.map f).guard.any isCancelled' = call.guard.any isCancelled := by
        simp [OpenCall.map,Option.any_map,hread]
      simp only [Option.map_some,hany,hfinish]
      split <;> rfl
  | deadline t now =>
    simp only [act,hlookup]
    cases s.running.lookup t with
    | none => rfl
    | some call =>
      have hsome : (call.map f).guard.isSome = call.guard.isSome := by simp [OpenCall.map]
      simp only [Option.map_some,hsome,hfinish]
      split <;> rfl
  | returns t outcome now =>
    simp only [act,hlookup]
    cases s.running.lookup t with
    | none => rfl
    | some call => exact hfinish t call now outcome
  | abandon t =>
    simp only [act,hlookup]
    cases s.running.lookup t with
    | none => rfl
    | some call => exact hrelease t call
  | cancelAll => rfl

/-- Every guard of a running call and of its walks meets `P`. -/
def Guarded (P : G → Prop) (s : Calls T G) : Prop :=
  ∀ t call, s.running.lookup t = some call →
    (∀ g∈call.guard, P g) ∧ ∀ g∈call.walks, P g

theorem Guarded.imp {P Q : G → Prop} {s : Calls T G} (h : s.Guarded P) (hPQ : ∀ g, P g → Q g) :
    s.Guarded Q :=
  fun t call hopen => ⟨fun g hg => hPQ g ((h t call hopen).1 g hg),
    fun g hg => hPQ g ((h t call hopen).2 g hg)⟩

theorem Guarded.insert {P : G → Prop} {s : Calls T G} (h : s.Guarded P) {t : T}
    {call : OpenCall G} (hguard : ∀ g∈call.guard, P g) (hwalks : ∀ g∈call.walks, P g)
    {n : Nat} {log : OpLog} : Guarded P ⟨s.running.insert t call,n,log⟩ := by
  intro t' call' hopen
  rw [KeyMap.lookup_insert_ite] at hopen
  split at hopen
  · obtain rfl := Option.some.inj hopen
    exact ⟨hguard,hwalks⟩
  · exact h t' call' hopen

theorem Guarded.erase {P : G → Prop} {s : Calls T G} (h : s.Guarded P) {t : T} {n : Nat}
    {log : OpLog} : Guarded P ⟨s.running.erase t,n,log⟩ := by
  intro t' call' hopen
  rw [KeyMap.lookup_erase_ite] at hopen
  split at hopen
  · cases hopen
  · exact h t' call' hopen

theorem Acted.guarded {fresh : G} {s s' : Calls T G} {about : Option T}
    {opens : Option (Begun T)} {closes : Option Ending} {P : G → Prop}
    (h : Acted fresh s about opens closes s')
    (hfresh : P fresh) (hs : s.Guarded P) : s'.Guarded P := by
  cases h with
  | idle => exact hs
  | opened t call hnew hguard hwalks =>
    exact hs.insert (fun g hg => hguard g hg ▸ hfresh) (by simp [hwalks])
  | entered t call hopen =>
    apply hs.insert
    · exact (hs t call hopen).1
    · exact List.forall_mem_cons.mpr ⟨hfresh,(hs t call hopen).2⟩
  | left t call i hopen hi =>
    apply hs.insert
    · exact (hs t call hopen).1
    · exact fun g hg => (hs t call hopen).2 g (List.mem_of_mem_eraseIdx hg)
  | finished | abandoned => exact hs.erase

/-- To mark all is to read all guards at a generation that none of them is of. -/
theorem markAll_map {f g : Nat → Bool} {s : Calls T Nat} (h : s.Guarded fun n => g n = true) :
    KeyMap.mapValues OpenCall.markAll (s.map f).running = (s.map g).running := by
  simp only [map,KeyMap.mapValues_mapValues]
  refine KeyMap.mapValues_congr fun t call hopen => ?_
  obtain ⟨hguard,hwalks⟩ := h t call hopen
  have hg : (call.guard.map f).map (fun _ => true) = call.guard.map g := by
    rw [Option.map_map]
    exact Option.map_congr fun n hn => (hguard n hn).symm
  have hw : (call.walks.map f).map (fun _ => true) = call.walks.map g := by
    rw [List.map_map]
    exact List.map_congr_left fun n hn => (hwalks n hn).symm
  simp only [OpenCall.map,OpenCall.markAll,hg,hw]

end Calls

def CallEvent.isCancelAll : CallEvent T → Bool
  | .cancelAll => true
  | _ => false

theorem marks_run (errorText : String → WorkflowyError → String) (es : List (CallEvent T))
    (hfew : es.countP CallEvent.isCancelAll < 2^64) :
    let s := Runs.run (CallServer.step errorText) .new es
    s.registry.generation = es.countP CallEvent.isCancelAll ∧
      s.calls.Guarded (· ≤ s.registry.generation) ∧
      Runs.run (Calls.markedStep errorText) .new es = s.calls.map s.registry.isCancelled := by
  induction es using List.reverseRecOn with
  | nil => exact ⟨rfl,nofun,rfl⟩
  | append_singleton es e ih =>
    rw [List.countP_append] at hfew
    obtain ⟨hgen,hle,hmarks⟩ := ih (by omega)
    rw [Runs.run_concat,Runs.run_concat,hmarks]
    set s := Runs.run (CallServer.step errorText) .new es
    cases he : e.isCancelAll with
    | true =>
      obtain rfl : e = .cancelAll := by cases e <;> first | rfl | cases he
      have hnext : (s.registry.generation+1)%2^64 = s.registry.generation+1 :=
        Nat.mod_eq_of_lt (by simpa [hgen,CallEvent.isCancelAll] using hfew)
      have hregistry : (s.step errorText .cancelAll).registry.generation =
          s.registry.generation+1 := hnext
      have hread (g : Nat) (hg : g ≤ s.registry.generation) :
          (s.step errorText .cancelAll).registry.isCancelled g = true := by
        simp only [CancelRegistry.isCancelled,hregistry,ne_eq,decide_eq_true_eq]
        omega
      refine ⟨?_,hle.imp fun g hg => ?_,?_⟩
      · rw [hregistry,hgen,List.countP_append]
        rfl
      · rw [hregistry]
        omega
      · have hmark := Calls.markAll_map (f := s.registry.isCancelled) (hle.imp hread)
        simp only [Calls.markedStep,hmark]
        rfl
    | false =>
      have hregistry : (s.step errorText e).registry = s.registry := by
        cases e <;> first | rfl | cases he
      have hmarked : (s.calls.map s.registry.isCancelled).markedStep errorText e =
          (s.calls.map s.registry.isCancelled).act false id errorText e := by
        cases e <;> first | rfl | cases he
      refine ⟨?_,?_,?_⟩
      · rw [hregistry,hgen,List.countP_append,List.countP_singleton,he]
        rfl
      · rw [CallServer.step_calls,hregistry]
        exact (Calls.acted e).guarded (le_refl _) hle
      · rw [CallServer.step_calls,hregistry,hmarked]
        refine Calls.act_map errorText ?_ (fun g => rfl) s.calls e
        simp [CancelRegistry.isCancelled,CancelRegistry.guard]

/-- In every interleaving with fewer than 2^64 calls of `cancel_all`, the generations of the
server do what marks on the running calls and walks would: a guard reads as cancelled iff
`cancel_all` was called while its call or walk was running. -/
theorem cancel_marks_running (errorText : String → WorkflowyError → String)
    (es : List (CallEvent T)) (hfew : es.countP CallEvent.isCancelAll < 2^64) :
    let s := Runs.run (CallServer.step errorText) .new es
    Runs.run (Calls.markedStep errorText) .new es = s.calls.map s.registry.isCancelled :=
  (marks_run errorText es hfew).2.2

def acrossCancel : List (CallEvent Bool) := [.begin true "get_subtree" "" true 0,.enterWalk true,
  .cancelAll,.begin false "get_node" "" true 1,.poll true 2,.poll false 2]

/-- The call from before `cancel_all` ends at its poll, and the call from behind it goes on. -/
theorem cancel_marks_running_two :
    let s := Runs.run (CallServer.step fun _ _ => "cancelled") .new acrossCancel
    s.calls.running.lookup true = none ∧ (s.calls.running.lookup false).isSome ∧
      Runs.run (Calls.markedStep fun _ _ => "cancelled") .new acrossCancel =
        s.calls.map s.registry.isCancelled :=
  ⟨by decide +kernel,by decide +kernel,cancel_marks_running _ acrossCancel (by decide)⟩

end marks

end WorkflowyMcp
