import Mathlib.Algebra.Ring.Int.Defs
import Mathlib.Algebra.Ring.Nat
import Mathlib.Algebra.Order.BigOperators.Group.List
import Mathlib.Algebra.Order.Group.Nat
import Mathlib.Logic.Function.Basic
import WorkflowyMcp.Client

/-! The upstream as a tree store with atomic calls: a call is refused or fails and
changes nothing, or it takes effect at once. Which calls are refused, the ids of
created nodes and the completion times are arbitrary. -/
namespace WorkflowyMcp

structure Service where
  refuses : Nat → ApiCall → Option WorkflowyError
  now : Nat → Int
  freshId : Nat → List WorkflowyNode → String
  fresh : ∀ t nodes, ∀ n∈nodes, n.id≠freshId t nodes ∧ n.parentId≠some (freshId t nodes)

/-- A service that refuses nothing. New ids are longer than all ids in the store. -/
def Service.reliable : Service where
  refuses _ _ := none
  now t := t
  freshId _ nodes := String.ofList (List.replicate
    ((nodes.map fun n => n.id.length+(n.parentId.getD "").length).sum+1) 'n')
  fresh := by
    intro t nodes n hn
    have hle := List.le_sum_of_mem
      (List.mem_map_of_mem (f := fun n => n.id.length+(n.parentId.getD "").length) hn)
    generalize (nodes.map fun n => n.id.length+(n.parentId.getD "").length).sum = k at hle ⊢
    refine ⟨fun h => ?_,fun h => ?_⟩
    · simp [h] at hle
      omega
    · simp [h] at hle
      omega

structure Upstream where
  nodes : List WorkflowyNode
  clock : Nat := 0

def findNode (nodes : List WorkflowyNode) (id : String) : Option WorkflowyNode :=
  nodes.find? fun n => n.id = id

/-- Follow parents from `x` for at most `fuel` steps, looking for `root`. -/
def inSubtree (nodes : List WorkflowyNode) (root : String) : Nat → String → Bool
  | 0, x => x == root
  | fuel+1, x => x == root ||
    match (findNode nodes x).bind WorkflowyNode.parentId with
    | some p => inSubtree nodes root fuel p
    | none => false

def notFound (id : String) : WorkflowyError :=
  .RetryExhausted 1 ("API error 404: node " ++ id ++ " not found")

/-- Replace the node `id`, keeping its id. -/
def updateNode (nodes : List WorkflowyNode) (id : String) (f : WorkflowyNode → WorkflowyNode) :
    List WorkflowyNode :=
  nodes.map fun n => if n.id = id then { f n with id := n.id } else n

namespace Service
variable (svc : Service)

/-- The effect of a call that is not refused. -/
def apply (q : ApiCall) (u : Upstream) :
    Except WorkflowyError (ApiResult q × List WorkflowyNode) :=
  match q with
  | .getNode id =>
    match findNode u.nodes id with
    | some n => .ok (n,u.nodes)
    | none => .error (notFound id)
  | .getChildren id =>
    match findNode u.nodes id with
    | some _ => .ok (u.nodes.filter fun n => n.parentId = some id,u.nodes)
    | none => .error (notFound id)
  | .getTopLevel => .ok (u.nodes.filter fun n => n.parentId = none,u.nodes)
  | .createNode name description parentId priority _ =>
    if (parentId.map fun p => (findNode u.nodes p).isSome) = some false then
      .error (notFound (parentId.getD ""))
    else
      let id := svc.freshId u.clock u.nodes
      .ok (some id,u.nodes ++ [{ id, name, description, parentId, priority }])
  | .postNode id name note completed =>
    match findNode u.nodes id with
    | none => .error (notFound id)
    | some _ => .ok ((),updateNode u.nodes id fun n =>
        { n with
          name := name.getD n.name
          description := note <|> n.description
          completed := completed.getD n.completed
          completedAt := match completed with
            | none => n.completedAt
            | some true => some (svc.now u.clock)
            | some false => none })
  | .deleteNode id =>
    match findNode u.nodes id with
    | none => .error (notFound id)
    | some _ => .ok ((),u.nodes.filter fun n => !inSubtree u.nodes id u.nodes.length n.id)
  | .moveNode id newParentId priority =>
    match findNode u.nodes id, findNode u.nodes newParentId with
    | some _, some _ =>
      if inSubtree u.nodes id u.nodes.length newParentId then
        .error (.RetryExhausted 1 "API error 400: cannot move a node under itself")
      else .ok ((),updateNode u.nodes id fun n =>
        { n with parentId := some newParentId, priority := priority <|> n.priority })
    | none, _ => .error (notFound id)
    | _, none => .error (notFound newParentId)

def serve : Proc.Server ApiCall ApiReply Upstream := fun q u =>
  match svc.refuses u.clock q with
  | some e => (.error e,{ u with clock := u.clock+1 })
  | none =>
    match svc.apply q u with
    | .error e => (.error e,{ u with clock := u.clock+1 })
    | .ok (r,nodes) => (.ok r,{ nodes, clock := u.clock+1 })

end Service

/-- What a transaction has to restore of a node. -/
structure Facts where
  name : String
  description : Option String
  completed : Bool
  parentId : Option String
deriving DecidableEq, Repr

def Facts.write (name note : Option String) (completed : Option Bool) (f : Facts) : Facts :=
  { f with
    name := name.getD f.name
    description := note <|> f.description
    completed := completed.getD f.completed }

def Facts.moved (p : String) (f : Facts) : Facts := { f with parentId := some p }

def WorkflowyNode.facts (n : WorkflowyNode) : Facts :=
  ⟨n.name,n.description,n.completedAt.isSome,n.parentId⟩

/-- The store as its callers see it: the facts of each id, if there is such a node. -/
abbrev View := String → Option Facts

def Upstream.facts (u : Upstream) : View := fun id =>
  (findNode u.nodes id).map WorkflowyNode.facts

/- A deletion takes the children along; where there are none, only the node goes. -/
structure View.Deleted (c : String) (v v' : View) : Prop where
  present : (v c).isSome
  gone : v' c = none
  others : ∀ y, v' y = none ∨ v' y = v y
  children : ∀ y f, v y = some f → f.parentId = some c → v' y = none
  leaf : (∀ y f, y≠c → v y = some f → f.parentId ≠ some c) → ∀ y, y≠c → v' y = v y

section find
variable {nodes : List WorkflowyNode} {id x : String}

theorem findNode_mem {n : WorkflowyNode} (h : findNode nodes x = some n) : n∈nodes :=
  List.mem_of_find?_eq_some h

theorem findNode_updateNode (f : WorkflowyNode → WorkflowyNode) :
    findNode (updateNode nodes id f) x =
      if x = id then (findNode nodes id).map fun n => { f n with id := n.id }
      else findNode nodes x := by
  induction nodes with
  | nil => simp [updateNode,findNode]
  | cons n nodes ih =>
    simp only [updateNode,findNode,List.map_cons,List.find?_cons] at ih ⊢
    by_cases hn : n.id = id
    · by_cases hx : x = id
      · simp [hn,hx]
      · have hne : id≠x := fun h => hx h.symm
        simpa [hn,hx,hne] using ih
    · by_cases hx : x = id
      · subst hx
        simpa [hn] using ih
      · by_cases hnx : n.id = x
        · simp [hnx,hx]
        · simpa [hn,hnx,hx] using ih

theorem findNode_append_of_fresh {c : WorkflowyNode} (hc : ∀ n∈nodes, n.id≠c.id) :
    findNode (nodes++[c]) x = if x = c.id then some c else findNode nodes x := by
  simp only [findNode,List.find?_append]
  by_cases hx : x = c.id
  · have hnone : nodes.find? (fun n => decide (n.id = x)) = none := by
      simpa [hx] using hc
    rw [hnone]
    simp [hx]
  · have hne : c.id≠x := fun h => hx h.symm
    simp [hx,hne]

theorem findNode_filter_id (p : String → Bool) :
    findNode (nodes.filter fun n => p n.id) x = if p x then findNode nodes x else none := by
  induction nodes with
  | nil => simp [findNode]
  | cons n nodes ih =>
    simp only [findNode,List.filter_cons,List.find?_cons] at ih ⊢
    by_cases hn : n.id = x
    · subst hn
      by_cases hp : p n.id
      · simp [hp]
      · simpa [hp] using ih
    · by_cases hp : p n.id
      · simpa [hp,hn] using ih
      · simpa [hp,hn] using ih

end find

theorem inSubtree_self (nodes : List WorkflowyNode) (root : String) (fuel : Nat) :
    inSubtree nodes root fuel root = true := by
  cases fuel <;> simp [inSubtree]

theorem inSubtree_child {nodes : List WorkflowyNode} {root x : String} {n : WorkflowyNode}
    (hn : findNode nodes x = some n) (hp : n.parentId = some root) :
    inSubtree nodes root nodes.length x = true := by
  cases hlen : nodes.length with
  | zero => simp [List.eq_nil_of_length_eq_zero hlen,findNode] at hn
  | succ fuel => simp [inSubtree,hn,hp,inSubtree_self]

/-- Nothing but itself lies under a node without children. -/
theorem inSubtree_leaf {nodes : List WorkflowyNode} {root : String}
    (hleaf : ∀ y n, y≠root → findNode nodes y = some n → n.parentId ≠ some root) (fuel : Nat)
    {x : String} (hx : x≠root) : inSubtree nodes root fuel x = false := by
  induction fuel generalizing x with
  | zero => simpa [inSubtree] using hx
  | succ fuel ih =>
    have hx' : (x == root) = false := by simpa using hx
    cases hf : (findNode nodes x).bind WorkflowyNode.parentId with
    | none => simp [inSubtree,hf,hx']
    | some p =>
      obtain ⟨n,hn,hp⟩ := Option.bind_eq_some_iff.mp hf
      have hpr : p≠root := fun h => hleaf x n hx hn (h ▸ hp)
      simp [inSubtree,hf,hx',ih hpr]

namespace Service
variable (svc : Service) {u : Upstream}

@[simp] theorem serve_clock (q : ApiCall) : (svc.serve q u).2.clock = u.clock+1 := by
  unfold serve
  split
  · rfl
  · split <;> rfl

/-- A call that fails changes nothing. -/
theorem serve_error {q : ApiCall} {e : WorkflowyError} (h : (svc.serve q u).1 = .error e) :
    (svc.serve q u).2.nodes = u.nodes := by
  cases hr : svc.refuses u.clock q with
  | some e' => simp [serve,hr]
  | none =>
    cases ha : svc.apply q u with
    | error e' => simp [serve,hr,ha]
    | ok r => simp [serve,hr,ha] at h

/-- A call that succeeds was not refused and took effect. -/
theorem serve_ok {q : ApiCall} {r : ApiResult q} (h : (svc.serve q u).1 = .ok r) :
    svc.refuses u.clock q = none ∧ svc.apply q u = .ok (r,(svc.serve q u).2.nodes) := by
  cases hr : svc.refuses u.clock q with
  | some e => simp [serve,hr] at h
  | none =>
    cases ha : svc.apply q u with
    | error e => simp [serve,hr,ha] at h
    | ok p =>
      have hp : p.1 = r := by simpa [serve,hr,ha] using h
      simp [serve,hr,ha,← hp]

theorem serve_of_apply {q : ApiCall} {r : ApiResult q} {nodes : List WorkflowyNode}
    (hr : svc.refuses u.clock q = none) (ha : svc.apply q u = .ok (r,nodes)) :
    svc.serve q u = (.ok r,{ nodes, clock := u.clock+1 }) := by
  simp only [serve,hr,ha]

theorem facts_of_nodes {s t : Upstream} (h : s.nodes = t.nodes) : s.facts = t.facts := by
  funext x
  simp [Upstream.facts,h]

theorem facts_isSome {x : String} : (u.facts x).isSome = (findNode u.nodes x).isSome := by
  simp [Upstream.facts]

theorem facts_updateNode {x : String} {n : WorkflowyNode} {f : WorkflowyNode → WorkflowyNode}
    {u' : Upstream} (hn : findNode u.nodes x = some n) (hu : u'.nodes = updateNode u.nodes x f) :
    u'.facts = Function.update u.facts x (some (f n).facts) := by
  funext y
  simp only [Upstream.facts,hu,findNode_updateNode]
  by_cases hy : y = x
  · subst hy
    simp [hn,WorkflowyNode.facts]
  · simp [hy,Upstream.facts]

theorem serve_getNode_ok {x : String} {n : WorkflowyNode}
    (h : (svc.serve (.getNode x) u).1 = .ok n) :
    u.facts x = some n.facts ∧ (svc.serve (.getNode x) u).2.facts = u.facts := by
  obtain ⟨-,ha⟩ := svc.serve_ok h
  simp only [apply] at ha
  split at ha <;> rename_i hf
  · simp only [Except.ok.injEq,Prod.mk.injEq] at ha
    refine ⟨?_,facts_of_nodes ha.2.symm⟩
    simp [Upstream.facts,hf,ha.1]
  · cases ha

theorem serve_getChildren (x : String) :
    (svc.serve (.getChildren x) u).2.facts = u.facts := by
  apply facts_of_nodes
  cases h : (svc.serve (.getChildren x) u).1 with
  | error e => exact svc.serve_error h
  | ok r =>
    obtain ⟨-,ha⟩ := svc.serve_ok h
    simp only [apply] at ha
    split at ha
    · simp only [Except.ok.injEq,Prod.mk.injEq] at ha
      exact ha.2.symm
    · cases ha

theorem serve_post_ok {x : String} {name note : Option String} {completed : Option Bool}
    (h : (svc.serve (.postNode x name note completed) u).1 = .ok ()) :
    ∃ f, u.facts x = some f ∧ (svc.serve (.postNode x name note completed) u).2.facts =
      Function.update u.facts x (some (f.write name note completed)) := by
  obtain ⟨-,ha⟩ := svc.serve_ok h
  simp only [apply] at ha
  split at ha <;> rename_i hf
  · cases ha
  · rename_i n
    simp only [Except.ok.injEq,Prod.mk.injEq] at ha
    refine ⟨n.facts,by simp [Upstream.facts,hf],?_⟩
    rw [facts_updateNode hf ha.2.symm]
    cases completed with
    | none => rfl
    | some b => cases b <;> rfl

/-- A post that is not refused succeeds on a node that exists. -/
theorem serve_post_of_present {x : String} {name note : Option String} {completed : Option Bool}
    (hr : svc.refuses u.clock (.postNode x name note completed) = none)
    (hx : (u.facts x).isSome) : (svc.serve (.postNode x name note completed) u).1 = .ok () := by
  rw [facts_isSome] at hx
  obtain ⟨n,hn⟩ := Option.isSome_iff_exists.mp hx
  have ha : ∃ nodes, svc.apply (.postNode x name note completed) u = .ok ((),nodes) := by
    simp [apply,hn]
  obtain ⟨nodes,ha⟩ := ha
  rw [svc.serve_of_apply hr ha]

theorem serve_move_ok {x p : String} {priority : Option Int}
    (h : (svc.serve (.moveNode x p priority) u).1 = .ok ()) :
    ∃ f, u.facts x = some f ∧ (svc.serve (.moveNode x p priority) u).2.facts =
      Function.update u.facts x (some (f.moved p)) := by
  obtain ⟨-,ha⟩ := svc.serve_ok h
  simp only [apply] at ha
  split at ha <;> try cases ha
  rename_i n m hn hm
  split at ha
  · cases ha
  · simp only [Except.ok.injEq,Prod.mk.injEq] at ha
    refine ⟨n.facts,by simp [Upstream.facts,hn],?_⟩
    rw [facts_updateNode hn ha.2.symm]
    rfl

theorem serve_create_ok {name : String} {description parentId : Option String}
    {priority : Option Int} {layout : Option String} {r : Option String}
    (h : (svc.serve (.createNode name description parentId priority layout) u).1 = .ok r) :
    ∃ c, r = some c ∧ u.facts c = none ∧
      (∀ y f, u.facts y = some f → f.parentId ≠ some c) ∧
      (svc.serve (.createNode name description parentId priority layout) u).2.facts =
        Function.update u.facts c (some ⟨name,description,false,parentId⟩) := by
  obtain ⟨-,ha⟩ := svc.serve_ok h
  simp only [apply] at ha
  split at ha
  · cases ha
  · simp only [Except.ok.injEq,Prod.mk.injEq] at ha
    have hfresh := svc.fresh u.clock u.nodes
    refine ⟨svc.freshId u.clock u.nodes,ha.1.symm,?_,?_,?_⟩
    · have hnone : findNode u.nodes (svc.freshId u.clock u.nodes) = none := by
        simpa [findNode] using fun n hn => (hfresh n hn).1
      simp [Upstream.facts,hnone]
    · intro y f hf
      obtain ⟨n,hn,rfl⟩ := Option.map_eq_some_iff.mp hf
      exact (hfresh n (findNode_mem hn)).2
    · funext y
      simp only [Upstream.facts,← ha.2]
      rw [findNode_append_of_fresh fun n hn => (hfresh n hn).1]
      by_cases hy : y = svc.freshId u.clock u.nodes
      · simp [hy,WorkflowyNode.facts]
      · simp [hy,Upstream.facts]

theorem serve_delete_ok {x : String} (h : (svc.serve (.deleteNode x) u).1 = .ok ()) :
    View.Deleted x u.facts (svc.serve (.deleteNode x) u).2.facts := by
  obtain ⟨-,ha⟩ := svc.serve_ok h
  simp only [apply] at ha
  split at ha <;> rename_i hf
  · cases ha
  · simp only [Except.ok.injEq,Prod.mk.injEq,true_and] at ha
    have hview : ∀ y, (svc.serve (.deleteNode x) u).2.facts y =
        if inSubtree u.nodes x u.nodes.length y then none else u.facts y := by
      intro y
      simp only [Upstream.facts,← ha]
      rw [findNode_filter_id fun id => !inSubtree u.nodes x u.nodes.length id]
      by_cases hy : inSubtree u.nodes x u.nodes.length y <;> simp [hy]
    refine ⟨by simp [Upstream.facts,hf],by simp [hview,inSubtree_self],?_,?_,?_⟩
    · intro y
      rw [hview]
      by_cases hy : inSubtree u.nodes x u.nodes.length y <;> simp [hy]
    · intro y f hy hp
      obtain ⟨n,hn,rfl⟩ := Option.map_eq_some_iff.mp hy
      rw [hview,if_pos (inSubtree_child hn hp)]
    · intro hleaf y hy
      have hl : ∀ z n, z≠x → findNode u.nodes z = some n → n.parentId ≠ some x :=
        fun z n hz hn => hleaf z n.facts hz (by simp [Upstream.facts,hn])
      rw [hview,inSubtree_leaf hl _ hy]
      simp

end Service
end WorkflowyMcp
