import WorkflowyMcp.IndentedContent
import WorkflowyMcp.Previews
import WorkflowyMcp.ScopedSearch
import WorkflowyMcp.ServerCreates

/-! `smart_insert`: content for a node that is searched for, and the choice between several of them
in a second call. -/
namespace WorkflowyMcp
open SubtreeWalk InsertContent

structure SmartInsertParams where
  searchQuery : String
  content : String
  selection : Option Nat := none
  maxDepth : Option Nat := none
deriving DecidableEq, Repr

structure InsertOption where
  option : Nat
  name : String
  id : String
  path : String
deriving DecidableEq, Repr

inductive SmartInsertReply where
  | multipleMatches (options : List InsertOption)
  | success (outcome : InsertContentOutcome) (targetId targetName : String)

namespace SmartInsert

/-- What the handler makes of the nodes of its walk. -/
inductive Choice where
  | refused (e : McpError)
  | offered (options : List InsertOption)
  | target (n : WorkflowyNode)

def emptyContent : McpError := .toolInvalidParams "smart_insert" none "Content cannot be empty"

def noMatch (fetch : SubtreeFetch) (query : String) : McpError :=
  .toolInvalidParams "smart_insert" none <|
    "No nodes found matching '"++query++"'"++
      if fetch.truncated then " (subtree truncated at "++toString fetch.limit++
        " nodes — narrow search or raise cap)" else ""

def outOfRange (idx count : Nat) : McpError :=
  .toolInvalidParams "smart_insert" none <|
    "Selection "++toString idx++" out of range (1-"++toString count++")"

section handler
variable (toLowercase : String → String) (isWord : Char → Bool)

def matching (nodes : List WorkflowyNode) (query : String) : List WorkflowyNode :=
  nodes.filter (Previews.searchMatches toLowercase query)

/-- A path is cut at a byte and may fall inside a character. -/
def optionsOf (nodes found : List WorkflowyNode) : Option (List InsertOption) :=
  found.zipIdx.mapM fun (n,i) =>
    (NodePaths.buildNodePathWithMap n.id nodes).map fun path =>
      { option := i+1, name := Html.renderDisplay isWord n.name, id := n.id, path }

def choose (fetch : SubtreeFetch) (p : SmartInsertParams) : Option Choice :=
  let found := matching toLowercase fetch.nodes p.searchQuery
  if found.isEmpty then some (.refused (noMatch fetch p.searchQuery))
  else if 1 < found.length ∧ p.selection.isNone then
    (optionsOf isWord fetch.nodes found).map .offered
  else
    let idx := p.selection.getD 1
    if idx < 1 ∨ found.length < idx then some (.refused (outOfRange idx found.length))
    else found[idx-1]?.map .target

def smartInsertUnderTarget (maxAttempts : Nat) (targetNodeId content : String) :
    Net (Except WorkflowyError (InsertContentOutcome × MutationFootprint)) :=
  let parsed := parseIndentedContent content
  if parsed.isEmpty then return .error (.InvalidInput "Content cannot be empty")
  else insertContentViaIndented maxAttempts (some targetNodeId) parsed

/-- What follows the walk. There is no reply where a path is cut inside a character. -/
def insertChosen (s : Server) (maxAttempts : Nat) (fetch : SubtreeFetch) (p : SmartInsertParams) :
    Net (Option (Handled SmartInsertReply)) :=
  match choose toLowercase isWord fetch p with
  | none => return none
  | some (.refused e) => return some (.error e,s)
  | some (.offered options) => return some (.ok (.multipleMatches options),s)
  | some (.target n) => do
    match ← smartInsertUnderTarget maxAttempts n.id (trim p.content) with
    | .error e => return some (.error (workflowErrorToMcp "smart_insert" (some n.id) e),s)
    | .ok (outcome,fp) =>
      return some (.ok (.success outcome n.id n.name),s.applyFootprint toLowercase fp)

def smartInsert (s : Server) (maxAttempts : Nat) (w : WalkEnv) (p : SmartInsertParams) :
    Net (Option (Handled SmartInsertReply)) :=
  if trim p.content = "" then return some (.error emptyContent,s)
  else
    match s.walkSubtree toLowercase w none (p.maxDepth.getD 3) with
    | (.error e,s) => return some (.error (.toolError "smart_insert" none e.display),s)
    | (.ok fetch,s) => insertChosen toLowercase isWord s maxAttempts fetch p

end handler

/-- A walk from the top level that answers is not cut. -/
def Uncut (w : WalkEnv) (maxDepth : Nat) : Prop :=
  ∀ fetch, getSubtreeWithControls w none maxDepth DeepCopy.MAX_SUBTREE_NODES = .ok fetch →
    fetch.truncated = false

section choice
variable {toLowercase : String → String} {isWord : Char → Bool} {fetch fetch' : SubtreeFetch}
  {p : SmartInsertParams} {options : List InsertOption}

theorem ids_optionsOf {nodes found : List WorkflowyNode}
    (h : optionsOf isWord nodes found = some options) :
    options.map InsertOption.id = found.map WorkflowyNode.id := by
  refine map_of_zipIdx_mapM h fun n i o ho => ?_
  obtain ⟨path,-,rfl⟩ := Option.map_eq_some_iff.mp ho
  rfl

/-- What was offered are the nodes that match, each by its id. -/
theorem choose_offered (h : choose toLowercase isWord fetch p = some (.offered options)) :
    matching toLowercase fetch.nodes p.searchQuery≠[] ∧ options.map InsertOption.id =
      (matching toLowercase fetch.nodes p.searchQuery).map WorkflowyNode.id := by
  unfold choose at h
  dsimp only at h
  split at h
  · cases h
  · rename_i hne
    split at h
    · obtain ⟨options',hoptions,heq⟩ := Option.map_eq_some_iff.mp h
      cases heq
      exact ⟨by simpa using hne,ids_optionsOf hoptions⟩
    · split at h
      · cases h
      · obtain ⟨n,-,heq⟩ := Option.map_eq_some_iff.mp h
        cases heq

/-- A selection takes the node at that place or is refused. -/
theorem choose_selected {content : String} {i : Nat}
    (hne : matching toLowercase fetch.nodes p.searchQuery≠[]) :
    choose toLowercase isWord fetch { p with content, selection := some i } =
      if i < 1 ∨ (matching toLowercase fetch.nodes p.searchQuery).length < i then
        some (.refused (outOfRange i (matching toLowercase fetch.nodes p.searchQuery).length))
      else (matching toLowercase fetch.nodes p.searchQuery)[i-1]?.map .target := by
  simp [choose,hne]

end choice

section picked
variable {toLowercase : String → String} {isWord : Char → Bool} {p : SmartInsertParams}
  {maxAttempts : Nat} {σ : Type} {up : World σ} {st : σ}

/-- The lines of a content are upstream, each hung under its place below the node. -/
def Holds (up : World σ) (targetId content : String) (st : σ) : Prop :=
  ∃ ids, ids.length = (parseIndentedContent (trim content)).length ∧
    madeNodes (some targetId) (parseIndentedContent (trim content)) ids ⊆ up.nodes st

theorem smartInsertUnderTarget_nil {targetId content : String}
    (h : parseIndentedContent content = []) :
    smartInsertUnderTarget maxAttempts targetId content =
      .ret (.error (.InvalidInput "Content cannot be empty")) := by
  simp [smartInsertUnderTarget,h]

theorem smartInsertUnderTarget_eq {targetId content : String}
    (h : parseIndentedContent content≠[]) : smartInsertUnderTarget maxAttempts targetId content =
      insertContentViaIndented maxAttempts (some targetId) (parseIndentedContent content) := by
  simp [smartInsertUnderTarget,h]

/-- The insertion under a target, when it answers and completes, leaves the content there. -/
theorem underTarget_ok {targetId content : String} {outcome : InsertContentOutcome}
    {fp : MutationFootprint}
    (h : ((smartInsertUnderTarget maxAttempts targetId (trim content)).run up.serve st).1 =
      .ok (outcome,fp)) {parentId : Option String} {count : Nat} {last : Option String}
    (hcomplete : outcome = .Complete parentId count last) :
    Holds up targetId content
      ((smartInsertUnderTarget maxAttempts targetId (trim content)).run up.serve st).2 := by
  subst hcomplete
  by_cases hempty : parseIndentedContent (trim content) = []
  · rw [smartInsertUnderTarget_nil hempty] at h
    cases h
  · rw [smartInsertUnderTarget_eq hempty] at h ⊢
    obtain ⟨ids,hlen,-,-,hmade,-⟩ := complete_booked h
    exact ⟨ids,hlen,hmade⟩

theorem insertChosen_target {fetch : SubtreeFetch} {s s'' : Server} {n : WorkflowyNode}
    {reply : SmartInsertReply}
    (hchoice : choose toLowercase isWord fetch p = some (.target n))
    (h : ((insertChosen toLowercase isWord s maxAttempts fetch p).run up.serve st).1 =
      some (.ok reply,s'')) :
    ∃ outcome, reply = .success outcome n.id n.name ∧ ∀ parentId count last,
      outcome = .Complete parentId count last → Holds up n.id p.content
        ((insertChosen toLowercase isWord s maxAttempts fetch p).run up.serve st).2 := by
  unfold insertChosen at h ⊢
  rw [hchoice] at h ⊢
  simp only [Proc.bind_eq,Proc.run_bind] at h ⊢
  cases hrun : ((smartInsertUnderTarget maxAttempts n.id (trim p.content)).run up.serve st).1 with
  | error e =>
    rw [hrun] at h
    cases h
  | ok r =>
    obtain ⟨outcome,fp⟩ := r
    simp only [hrun,Proc.pure_eq,Proc.run_ret,Option.some.injEq,Prod.mk.injEq,
      Except.ok.injEq] at h ⊢
    exact ⟨outcome,h.1.symm,fun parentId count last hc => underTarget_ok hrun hc⟩

/-- Options are the reply of a choice that offers them. -/
theorem insertChosen_offered {fetch : SubtreeFetch} {s s'' : Server} {options : List InsertOption}
    (h : ((insertChosen toLowercase isWord s maxAttempts fetch p).run up.serve st).1 =
      some (.ok (.multipleMatches options),s'')) :
    choose toLowercase isWord fetch p = some (.offered options) := by
  cases hchoice : choose toLowercase isWord fetch p with
  | none => simp [insertChosen,hchoice] at h
  | some choice =>
    cases choice with
    | refused e => simp [insertChosen,hchoice] at h
    | offered options' =>
      obtain ⟨rfl,-⟩ : options' = options ∧ s = s'' := by simpa [insertChosen,hchoice] using h
      rfl
    | target n =>
      obtain ⟨outcome,hreply,-⟩ := insertChosen_target hchoice h
      cases hreply

variable (toLowercase isWord maxAttempts p) in
/-- A call is refused before it walks or by its walk, or goes on with what it walked. -/
theorem smartInsert_cases (w : WalkEnv) (s : Server) :
    (∃ e s', smartInsert toLowercase isWord s maxAttempts w p = .ret (some (.error e,s'))) ∨
    ∃ fetch s', getSubtreeWithControls w none (p.maxDepth.getD 3) DeepCopy.MAX_SUBTREE_NODES =
        .ok fetch ∧ smartInsert toLowercase isWord s maxAttempts w p =
          insertChosen toLowercase isWord s' maxAttempts fetch p := by
  by_cases hempty : trim p.content = ""
  · exact .inl ⟨emptyContent,s,if_pos hempty⟩
  rw [smartInsert,if_neg hempty]
  rcases hwalk : s.walkSubtree toLowercase w none (p.maxDepth.getD 3) with ⟨e | fetch,s'⟩
  · exact .inl ⟨.toolError "smart_insert" none e.display,s',rfl⟩
  · exact .inr ⟨fetch,s',Server.walkSubtree_ok toLowercase hwalk,rfl⟩

/-- Who answers has walked. -/
theorem smartInsert_walk {w : WalkEnv} {s s'' : Server} {reply : SmartInsertReply}
    (h : ((smartInsert toLowercase isWord s maxAttempts w p).run up.serve st).1 =
      some (.ok reply,s'')) :
    ∃ fetch s', getSubtreeWithControls w none (p.maxDepth.getD 3) DeepCopy.MAX_SUBTREE_NODES =
        .ok fetch ∧ smartInsert toLowercase isWord s maxAttempts w p =
          insertChosen toLowercase isWord s' maxAttempts fetch p := by
  rcases smartInsert_cases toLowercase isWord p maxAttempts w s with ⟨e,s',hret⟩ | hwalk
  · rw [hret] at h
    cases h
  · exact hwalk

/-- Only the insertion under a target asks anything of the upstream. -/
theorem insertChosen_silent {fetch : SubtreeFetch} (s : Server) (st : σ)
    (h : ∀ n, choose toLowercase isWord fetch p≠some (.target n)) :
    ((insertChosen toLowercase isWord s maxAttempts fetch p).run up.serve st).2 = st := by
  unfold insertChosen
  rcases hchoice : choose toLowercase isWord fetch p with _ | e | options | n
  · rfl
  · rfl
  · rfl
  · exact absurd hchoice (h n)

/-- What an insertion makes, complete or not, hangs below its target. -/
theorem insertChosen_hung {fetch : SubtreeFetch} {n : WorkflowyNode} (s : Server) (st : σ)
    (hchoice : choose toLowercase isWord fetch p = some (.target n)) :
    ∃ made, up.nodes ((insertChosen toLowercase isWord s maxAttempts fetch p).run up.serve
      st).2 = up.nodes st++made ∧ Hung [some n.id] made := by
  have hunder : ((insertChosen toLowercase isWord s maxAttempts fetch p).run up.serve st).2 =
      ((smartInsertUnderTarget maxAttempts n.id (trim p.content)).run up.serve st).2 := by
    rw [insertChosen,hchoice]
    simp only [Proc.bind_eq,Proc.run_bind]
    cases hrun : ((smartInsertUnderTarget maxAttempts n.id (trim p.content)).run up.serve st).1 with
    | error e => simp only [Proc.pure_eq,Proc.run_ret]
    | ok r => simp only [Proc.pure_eq,Proc.run_ret]
  rw [hunder]
  by_cases hempty : parseIndentedContent (trim p.content) = []
  · rw [smartInsertUnderTarget_nil hempty]
    exact ⟨[],(List.append_nil _).symm,trivial⟩
  · rw [smartInsertUnderTarget_eq hempty]
    exact hung_insertContent maxAttempts (some n.id) _ st

end picked

section twoCalls
variable {toLowercase : String → String} {isWord : Char → Bool} {tree : Tree} {w w' : WalkEnv}
  {p : SmartInsertParams} {maxAttempts : Nat} {s s' s₁ : Server} {options : List InsertOption}

/-- Of two complete walks of one tree, the second selects from what the first one offered: a place
in the list is the node that stands there, and a place outside of it is refused. -/
theorem selected_choice (hw : w.Serves tree) (hw' : w'.Serves tree)
    {fetch fetch' : SubtreeFetch}
    (hf : getSubtreeWithControls w none (p.maxDepth.getD 3) DeepCopy.MAX_SUBTREE_NODES = .ok fetch)
    (hf' : getSubtreeWithControls w' none (p.maxDepth.getD 3) DeepCopy.MAX_SUBTREE_NODES =
      .ok fetch') (ht : fetch.truncated = false) (ht' : fetch'.truncated = false)
    (hoffered : choose toLowercase isWord fetch p = some (.offered options)) (content : String)
    (i : Nat) :
    ((i < 1 ∨ options.length < i) ∧ ∃ e, choose toLowercase isWord fetch'
        { p with content, selection := some i } = some (.refused e)) ∨
      ∃ n o, 1 ≤ i ∧ options[i-1]? = some o ∧ o.id = n.id ∧ choose toLowercase isWord fetch'
        { p with content, selection := some i } = some (.target n) := by
  have hnodes : fetch'.nodes = fetch.nodes :=
    (fetch_docOrder hw' hf' ht').trans (fetch_docOrder hw hf ht).symm
  obtain ⟨hne,hids⟩ := choose_offered hoffered
  have hlen : options.length = (matching toLowercase fetch.nodes p.searchQuery).length := by
    simpa using congrArg List.length hids
  rw [choose_selected (hnodes ▸ hne),hnodes,← hlen]
  split
  · rename_i hout
    exact .inl ⟨hout,_,rfl⟩
  · rename_i hin
    have hi : i-1 < options.length := by omega
    have hi' : i-1 < (matching toLowercase fetch.nodes p.searchQuery).length := hlen ▸ hi
    refine .inr ⟨_,options[i-1],by omega,List.getElem?_eq_getElem hi,?_,
      by rw [List.getElem?_eq_getElem hi']; rfl⟩
    have hget := congrArg (·[i-1]?) hids
    simpa [List.getElem?_eq_getElem hi,List.getElem?_eq_getElem hi'] using hget

/-- A place that the first call did not offer leaves the upstream as it was. For one that it did, the
second call makes nodes only below the node that stood there, whatever comes of it; and if it tells
a success, it is told of that node, with the whole content below it where it is complete. -/
theorem picked_lands (hw : w.Serves tree) (hw' : w'.Serves tree)
    (hcut : Uncut w (p.maxDepth.getD 3)) (hcut' : Uncut w' (p.maxDepth.getD 3)) {σ : Type}
    {up : World σ} {st : σ}
    (hoffered : ((smartInsert toLowercase isWord s maxAttempts w p).run up.serve st).1 =
      some (.ok (.multipleMatches options),s₁)) (content : String) (i : Nat) (st' : σ) :
    let second := (smartInsert toLowercase isWord s' maxAttempts w'
      { p with content, selection := some i }).run up.serve st'
    (i < 1 ∨ options.length < i → second.2 = st' ∧ ∀ reply s₂, second.1≠some (.ok reply,s₂)) ∧
    ∀ o, 1 ≤ i → options[i-1]? = some o →
      (∃ made, up.nodes second.2 = up.nodes st'++made ∧ Hung [some o.id] made) ∧
      ∀ reply s₂, second.1 = some (.ok reply,s₂) →
        ∃ outcome name, reply = .success outcome o.id name ∧ ∀ parentId count last,
          outcome = .Complete parentId count last → Holds up o.id content second.2 := by
  intro second
  obtain ⟨fetch,srv,hf,hfirst⟩ := smartInsert_walk hoffered
  rw [hfirst] at hoffered
  rcases smartInsert_cases toLowercase isWord { p with content, selection := some i } maxAttempts
    w' s' with ⟨e,s₂,hret⟩ | ⟨fetch',srv',hf',hsecond⟩
  · have hrefused : second = (some (.error e,s₂),st') := by simp only [second,hret,Proc.run_ret]
    rw [hrefused]
    exact ⟨fun _ => ⟨rfl,by simp⟩,fun o _ _ => ⟨⟨[],by simp,trivial⟩,by simp⟩⟩
  have hchosen : second = (insertChosen toLowercase isWord srv' maxAttempts fetch'
      { p with content, selection := some i }).run up.serve st' := by simp only [second,hsecond]
  rw [hchosen]
  obtain ⟨hout,e,hchoice⟩ | ⟨n,o,hi,ho,hid,hchoice⟩ := selected_choice hw hw' hf hf' (hcut _ hf)
    (hcut' _ hf') (insertChosen_offered hoffered) content i
  · refine ⟨fun _ => ⟨insertChosen_silent srv' st' (by simp [hchoice]),?_⟩,fun o hi ho => ?_⟩
    · simp [insertChosen,hchoice]
    · have hlt := (List.getElem?_eq_some_iff.mp ho).1
      omega
  · refine ⟨fun hout => ?_,fun o' _ ho' => ?_⟩
    · have hlt := (List.getElem?_eq_some_iff.mp ho).1
      omega
    · obtain rfl : o = o' := Option.some.inj (ho.symm.trans ho')
      rw [hid]
      refine ⟨insertChosen_hung srv' st' hchoice,fun reply s₂ hreply => ?_⟩
      obtain ⟨outcome,rfl,hholds⟩ := insertChosen_target hchoice hreply
      exact ⟨outcome,n.name,rfl,hholds⟩

/-- Two plans, one below the other. -/
def plansTree : Tree where
  nodes := [{ id := "p", name := "Plan" },{ id := "q", name := "Plan B", parentId := some "p" }]
  nodup := by decide
  rank id := if id = "p" then 0 else 1
  acyclic := by simp

def offeredIds : Option (Handled SmartInsertReply) → Option (List String)
  | some (.ok (.multipleMatches options),_) => some (options.map InsertOption.id)
  | _ => none

def completedUnder : Option (Handled SmartInsertReply) → Option String
  | some (.ok (.success (.Complete ..) targetId _),_) => some targetId
  | _ => none

theorem offered_of_ids {r : Option (Handled SmartInsertReply)} {ids : List String}
    (h : offeredIds r = some ids) : ∃ options s₁, r = some (.ok (.multipleMatches options),s₁) ∧
      options.map InsertOption.id = ids := by
  unfold offeredIds at h
  split at h
  · exact ⟨_,_,rfl,Option.some.inj h⟩
  · cases h

theorem success_of_completed {r : Option (Handled SmartInsertReply)} {id : String}
    (h : completedUnder r = some id) : ∃ parentId count last name s₂,
      r = some (.ok (.success (.Complete parentId count last) id name),s₂) := by
  unfold completedUnder at h
  split at h
  · cases h
    exact ⟨_,_,_,_,_,rfl⟩
  · cases h

def planQuery : SmartInsertParams := { searchQuery := "plan", content := "- a\n  - b" }

theorem uncut_plans : Uncut (DeepCopy.smoothWalk plansTree) 3 := by
  intro fetch hf
  have hall : ((getSubtreeWithControls (DeepCopy.smoothWalk plansTree) none 3
      DeepCopy.MAX_SUBTREE_NODES).toOption.all fun fetch => !fetch.truncated) = true := by
    decide +kernel
  simpa [hf,Except.toOption] using hall

/-- The second of the two plans is picked. -/
theorem second_plan_picked : Holds (Service.reliable.world {}) "q" "- a\n  - b"
    ((smartInsert asciiLowercase Char.isAlphanum {} RETRY_MAX_ATTEMPTS
      (DeepCopy.smoothWalk plansTree) { planQuery with selection := some 2 }).run
        (Service.reliable.world {}).serve ⟨plansTree.nodes,0⟩).2 := by
  have hserves := DeepCopy.smoothWalk_serves plansTree
  have hoffered : offeredIds ((smartInsert asciiLowercase Char.isAlphanum {} RETRY_MAX_ATTEMPTS
      (DeepCopy.smoothWalk plansTree) planQuery).run (Service.reliable.world {}).serve
        ⟨plansTree.nodes,0⟩).1 = some ["p","q"] := by decide +kernel
  have hpicked : completedUnder ((smartInsert asciiLowercase Char.isAlphanum {} RETRY_MAX_ATTEMPTS
      (DeepCopy.smoothWalk plansTree) { planQuery with selection := some 2 }).run
        (Service.reliable.world {}).serve ⟨plansTree.nodes,0⟩).1 = some "q" := by decide +kernel
  obtain ⟨options,s₁,hoffered,hids⟩ := offered_of_ids hoffered
  obtain ⟨parentId,count,last,name,s₂,hpicked⟩ := success_of_completed hpicked
  have hq : ∃ o, options[1]? = some o ∧ o.id = "q" := by
    have hget := congrArg (·[1]?) hids
    simpa [Option.map_eq_some_iff] using hget
  obtain ⟨o,ho,hid⟩ := hq
  obtain ⟨outcome,name',hreply,hholds⟩ := ((picked_lands (p := planQuery) hserves hserves uncut_plans
    uncut_plans hoffered "- a\n  - b" 2 (⟨plansTree.nodes,0⟩ : Upstream)).2 o (by decide) ho).2
      _ _ hpicked
  obtain ⟨hcomplete,-,-⟩ := SmartInsertReply.success.inj hreply
  exact hid ▸ hholds parentId count last hcomplete.symm

end twoCalls
end SmartInsert
end WorkflowyMcp
