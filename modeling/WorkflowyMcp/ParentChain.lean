import WorkflowyMcp.CacheRaces
import WorkflowyMcp.DeepCopy
import WorkflowyMcp.NodeAtPath

/-! The path of a node: its parents one after the other up to the top level, and how the names on
it lead back to the node. -/
namespace WorkflowyMcp

structure PathSegment where
  id : String
  name : String
deriving DecidableEq, Repr

structure ParentChain where
  segments : List PathSegment
  truncated : Bool
deriving DecidableEq, Repr

namespace ParentChain
open DeepCopy (WorkflowContext)

def segment (n : WorkflowyNode) : PathSegment := ⟨n.id,n.name⟩

/-- The parent that a walk up goes to. -/
def above (n : WorkflowyNode) : Option String := n.parentId.filter (· ≠ "")

/-- The walk with `left` more nodes to read; the context is polled before each of them. -/
def walkFrom (ctx : WorkflowContext) : (left depth : Nat) → (seen : List String) →
    (segments : List PathSegment) → (id : String) → Api (Except WorkflowyError ParentChain)
  | left,depth,seen,segments,id =>
    if ctx.isCancelled depth then return .error .Cancelled
    else if ctx.isPastDeadline depth then return .error .Timeout
    else if seen.contains id then return .ok ⟨segments.reverse,false⟩
    else match left with
      | 0 => return .ok ⟨segments.reverse,true⟩
      | left+1 => do
        match ← Client.getNodeWithPropagationRetry id with
        | .error _ => return .ok ⟨segments.reverse,false⟩
        | .ok node =>
          let segments := segments++[segment node]
          match above node with
          | none => return .ok ⟨segments.reverse,false⟩
          | some pid => walkFrom ctx left (depth+1) (id::seen) segments pid

def walkParentChain (nodeId : String) (maxDepth : Nat) (ctx : WorkflowContext) :
    Api (Except WorkflowyError ParentChain) :=
  walkFrom ctx maxDepth 0 [] [] nodeId

structure PathOfReply where
  nodeId : String
  path : String
  segments : List PathSegment
  depth : Nat
  truncated : Bool
deriving DecidableEq, Repr

def displayPath (segments : List PathSegment) : String :=
  " > ".intercalate (segments.map fun s => if s.name = "" then "(untitled)" else s.name)

/- The id is resolved when the handler starts. -/
def pathOf (nodeId : String) (maxDepth : Option Nat) : Api (Except McpError PathOfReply) := do
  match ← walkParentChain nodeId (maxDepth.getD 50) {} with
  | .error e => return .error (workflowErrorToMcp "path_of" (some nodeId) e)
  | .ok chain =>
    return .ok ⟨nodeId,displayPath chain.segments,chain.segments,chain.segments.length,
      chain.truncated⟩

section climb
variable (nodes : List WorkflowyNode)

/-- Nodes of the store from `id` up, each the parent of the one before. -/
def Climbs : Option String → List WorkflowyNode → Prop
  | _,[] => True
  | id,n::ns => id.bind (findNode nodes) = some n ∧ Climbs (above n) ns

/-- Where a climb would go on. -/
def next : Option String → List WorkflowyNode → Option String
  | id,[] => id
  | _,n::ns => next (above n) ns

variable {nodes}

theorem Climbs.mem {id : Option String} {ns : List WorkflowyNode} (h : Climbs nodes id ns) :
    ∀ n∈ns, n∈nodes := by
  induction ns generalizing id with
  | nil => exact List.forall_mem_nil _
  | cons n ns ih =>
    obtain ⟨hn,hrest⟩ := h
    rw [Option.bind_eq_some_iff] at hn
    obtain ⟨_,-,hfind⟩ := hn
    exact List.forall_mem_cons.mpr ⟨findNode_mem hfind,ih hrest⟩

theorem climbs_append {id : Option String} {ns ms : List WorkflowyNode} :
    Climbs nodes id (ns++ms) ↔ Climbs nodes id ns ∧ Climbs nodes (next id ns) ms := by
  induction ns generalizing id with
  | nil => simp [Climbs,next]
  | cons n ns ih => simp [Climbs,next,ih,and_assoc]

theorem Climbs.head {id : Option String} {n : WorkflowyNode} {ns : List WorkflowyNode}
    (h : Climbs nodes id (n::ns)) : id = some n.id := by
  obtain ⟨x,rfl,hfind⟩ := Option.bind_eq_some_iff.mp h.1
  have hid : n.id = x := by simpa using List.find?_some hfind
  rw [hid]

/-- Of two climbs from one node the shorter is a part of the longer. -/
theorem Climbs.prefix {id : Option String} {ns ms : List WorkflowyNode} (h : Climbs nodes id ns)
    (h' : Climbs nodes id ms) (hlen : ns.length ≤ ms.length) : ns <+: ms := by
  induction ns generalizing id ms with
  | nil => exact List.nil_prefix
  | cons n ns ih =>
    cases ms with
    | nil => simp at hlen
    | cons m ms =>
      obtain rfl : n = m := Option.some.inj (h.1.symm.trans h'.1)
      exact (List.prefix_cons_inj n).mpr (ih h.2 h'.2 (Nat.le_of_succ_le_succ hlen))

end climb

section walk
variable {svc : Service} {u : Upstream}

/-- A node that cannot be read: it is not in the store, or the service refuses to read it. -/
def Unread (svc : Service) (nodes : List WorkflowyNode) (id : String) : Prop :=
  (∀ t, svc.refuses t (.getNode id) = none) → findNode nodes id = none

theorem getNode_served (svc : Service) (u : Upstream) (id : String) :
    (svc.serve (.getNode id) u).2.nodes = u.nodes ∧
    (∀ n, (svc.serve (.getNode id) u).1 = .ok n → findNode u.nodes id = some n) ∧
      ∀ e, (svc.serve (.getNode id) u).1 = .error e → Unread svc u.nodes id := by
  cases hr : svc.refuses u.clock (.getNode id) with
  | some e => exact ⟨by simp [Service.serve,hr],by simp [Service.serve,hr],
      fun _ _ hno => absurd (hno u.clock) (by simp [hr])⟩
  | none =>
    cases hfind : findNode u.nodes id with
    | none => exact ⟨by simp [Service.serve,Service.apply,hr,hfind],
        by simp [Service.serve,Service.apply,hr,hfind],fun _ _ _ => hfind⟩
    | some n => exact ⟨by simp [Service.serve,Service.apply,hr,hfind],
        by simp [Service.serve,Service.apply,hr,hfind],
        by simp [Service.serve,Service.apply,hr,hfind]⟩

/-- Retried reads change no node, and what they answer is the node of the store. -/
theorem getNode_retried (svc : Service) (id : String) (left : Nat) (u : Upstream) :
    let r := (Client.withPropagationRetry (Client.getNode id) left).run svc.serve u
    r.2.nodes = u.nodes ∧ (∀ n, r.1 = .ok n → findNode u.nodes id = some n) ∧
      ∀ e, r.1 = .error e → Unread svc u.nodes id := by
  induction left generalizing u with
  | zero => exact getNode_served svc u id
  | succ left ih =>
    obtain ⟨hnodes,hok,herror⟩ := getNode_served svc u id
    have hrun : (Client.getNode id).run svc.serve u = svc.serve (.getNode id) u := rfl
    simp only [Client.withPropagationRetry,Proc.bind_eq,Proc.run_bind,hrun]
    cases hr : (svc.serve (.getNode id) u).1 with
    | ok n => exact ⟨hnodes,fun m hm => hok m (hr.trans hm),by simp⟩
    | error e =>
      by_cases hlike : is404Like e = true
      · obtain ⟨hnodes',hok',herror'⟩ := ih (svc.serve (.getNode id) u).2
        simp only [hlike,if_true]
        rw [hnodes] at hnodes' hok' herror'
        exact ⟨hnodes',hok',herror'⟩
      · simp only [if_neg hlike]
        exact ⟨hnodes,by simp,fun _ _ => herror e hr⟩

/-- How a walk ends: after all it may read with a parent left, or where there is no new parent to
be read. -/
structure Ends (svc : Service) (nodes : List WorkflowyNode) (left : Nat) (seen : List String)
    (ns : List WorkflowyNode) (onward : Option String) (truncated : Bool) : Prop where
  capped : truncated = true → ns.length = left ∧ ∃ p, onward = some p ∧ p∉seen
  stopped : truncated = false → ∀ p, onward = some p → p∈seen ∨ ns.length < left ∧ Unread svc nodes p

/-- The next node was read before. -/
theorem Ends.again {nodes : List WorkflowyNode} {left : Nat} {seen : List String} {id : String}
    (hseen : id∈seen) : Ends svc nodes left seen [] (some id) false where
  capped := nofun
  stopped _ _ hp := .inl (Option.some.inj hp ▸ hseen)

/-- A walk from the node above ends as the walk from the node does. -/
theorem Ends.cons {nodes ns : List WorkflowyNode} {left : Nat} {seen : List String}
    {node : WorkflowyNode} {pid : String} {truncated : Bool} (habove : above node = some pid)
    (h : Ends svc nodes left (ns.map (·.id)++node.id::seen) ns (next (some pid) ns) truncated) :
    Ends svc nodes (left+1) ((node::ns).map (·.id)++seen) (node::ns)
      (next (some node.id) (node::ns)) truncated where
  capped htrunc := by
    obtain ⟨hfull,p,hp,hpnew⟩ := h.capped htrunc
    refine ⟨by simp [hfull],p,by rw [next,habove,hp],?_⟩
    simp only [List.mem_append,List.mem_cons,List.map_cons] at hpnew ⊢
    tauto
  stopped hstop p hp := by
    rw [next,habove] at hp
    rcases h.stopped hstop p hp with hmem | ⟨hlt,hunread⟩
    · refine .inl ?_
      simp only [List.mem_append,List.mem_cons,List.map_cons] at hmem ⊢
      tauto
    · exact .inr ⟨Nat.succ_lt_succ hlt,hunread⟩

theorem walkFrom_ok {ctx : WorkflowContext} {left depth : Nat} {seen : List String}
    {segments : List PathSegment} {id : String} {chain : ParentChain}
    (h : ((walkFrom ctx left depth seen segments id).run svc.serve u).1 = .ok chain) :
    ∃ ns, chain.segments = (segments++ns.map segment).reverse ∧ Climbs u.nodes (some id) ns ∧
      (ns.map (·.id)).Nodup ∧ (∀ n∈ns, n.id∉seen) ∧ ns.length ≤ left ∧
      Ends svc u.nodes left ((ns.map (·.id))++seen) ns (next (some id) ns) chain.truncated := by
  induction left generalizing depth seen segments id u with
  | zero =>
    rw [walkFrom] at h
    split at h
    · cases h
    split at h
    · cases h
    split at h
    · rename_i hseen
      cases h
      exact ⟨[],by simp,trivial,List.nodup_nil,List.forall_mem_nil _,le_refl _,.again (by simpa using hseen)⟩
    · rename_i hseen
      cases h
      exact ⟨[],by simp,trivial,List.nodup_nil,List.forall_mem_nil _,le_refl _,
        fun _ => ⟨rfl,id,rfl,by simpa using hseen⟩,nofun⟩
  | succ left ih =>
    rw [walkFrom] at h
    split at h
    · cases h
    split at h
    · cases h
    split at h
    · rename_i hseen
      cases h
      exact ⟨[],by simp,trivial,List.nodup_nil,List.forall_mem_nil _,Nat.zero_le _,.again (by simpa using hseen)⟩
    · rename_i hseen
      have hid : id∉seen := by simpa using hseen
      obtain ⟨hnodes,hok,herror⟩ := getNode_retried svc id (Client.maxPropRetries-1) u
      simp only [Proc.bind_eq,Proc.run_bind,Client.getNodeWithPropagationRetry] at h
      cases hr : ((Client.withPropagationRetry (Client.getNode id)
          (Client.maxPropRetries-1)).run svc.serve u).1 with
      | error e =>
        rw [hr] at h
        cases h
        refine ⟨[],by simp,trivial,List.nodup_nil,List.forall_mem_nil _,Nat.zero_le _,by simp,fun _ p hp => .inr ?_⟩
        cases hp
        exact ⟨Nat.succ_pos _,herror e hr⟩
      | ok node =>
        have hfind := hok node hr
        obtain rfl : node.id = id := by simpa using List.find?_some hfind
        rw [hr] at h
        cases habove : above node with
        | none =>
          simp only [habove] at h
          cases h
          exact ⟨[node],by simp,⟨hfind,trivial⟩,List.nodup_singleton _,by simpa using hid,
            Nat.succ_pos _,nofun,fun _ p hp => by simp [next,habove] at hp⟩
        | some pid =>
          simp only [habove] at h
          obtain ⟨ns,hsegments,hclimbs,hnodup,hnew,hlen,hends⟩ := ih h
          rw [hnodes] at hclimbs hends
          have hne : node.id∉ns.map (·.id) := by
            intro hmem
            obtain ⟨n,hn,hsame⟩ := List.mem_map.mp hmem
            exact hnew n hn (by simp [hsame])
          have hnew' : ∀ n∈node::ns, n.id∉seen := by
            refine List.forall_mem_cons.mpr ⟨hid,fun n hn hmem => ?_⟩
            exact hnew n hn (List.mem_cons_of_mem _ hmem)
          exact ⟨node::ns,by simpa using hsegments,⟨hfind,habove ▸ hclimbs⟩,
            List.nodup_cons.mpr ⟨hne,hnodup⟩,hnew',Nat.succ_le_succ hlen,hends.cons habove⟩

theorem calls_retried {σ : Type} (srv : Proc.Server ApiCall ApiReply σ) (id : String) (left : Nat)
    (s : σ) : (Client.withPropagationRetry (Client.getNode id) left).calls srv s ≤ left+1 := by
  induction left generalizing s with
  | zero => exact le_refl 1
  | succ left ih =>
    have hone (s : σ) : (Client.getNode id).calls srv s = 1 := rfl
    simp only [Client.withPropagationRetry,Proc.bind_eq,Proc.calls_bind,hone]
    have hrest := ih ((Client.getNode id).run srv s).2
    split
    · simp [Proc.calls]
    · split
      · omega
      · simp [Proc.calls]

theorem calls_walkFrom {σ : Type} (srv : Proc.Server ApiCall ApiReply σ) (ctx : WorkflowContext)
    (left depth : Nat) (seen : List String) (segments : List PathSegment) (id : String) (s : σ) :
    (walkFrom ctx left depth seen segments id).calls srv s ≤ Client.maxPropRetries*left := by
  induction left generalizing depth seen segments id s with
  | zero =>
    rw [walkFrom]
    split
    · exact le_refl 0
    split
    · exact le_refl 0
    split <;> exact le_refl 0
  | succ left ih =>
    rw [walkFrom]
    split
    · exact Nat.zero_le _
    split
    · exact Nat.zero_le _
    split
    · exact Nat.zero_le _
    · have hread := calls_retried srv id (Client.maxPropRetries-1) s
      simp only [Proc.bind_eq,Proc.calls_bind,Client.getNodeWithPropagationRetry]
      split
      · simp only [Proc.pure_eq,Proc.calls,Client.maxPropRetries] at hread ⊢
        omega
      · rename_i node _
        split
        · simp only [Proc.pure_eq,Proc.calls,Client.maxPropRetries] at hread ⊢
          omega
        · rename_i pid _
          have hrest := ih (depth+1) (id::seen) (segments++[segment node]) pid
            ((Client.withPropagationRetry (Client.getNode id) (Client.maxPropRetries-1)).run srv s).2
          simp only [Client.maxPropRetries] at hread hrest ⊢
          omega

/-- Without a context to stop it a walk answers. -/
theorem walkFrom_answers {σ : Type} (srv : Proc.Server ApiCall ApiReply σ) (left depth : Nat)
    (seen : List String) (segments : List PathSegment) (id : String) (s : σ) :
    ∃ chain, ((walkFrom {} left depth seen segments id).run srv s).1 = .ok chain := by
  induction left generalizing depth seen segments id s with
  | zero =>
    rw [walkFrom]
    simp only [Bool.false_eq_true,if_false]
    split <;> exact ⟨_,rfl⟩
  | succ left ih =>
    rw [walkFrom]
    simp only [Bool.false_eq_true,if_false]
    split
    · exact ⟨_,rfl⟩
    · simp only [Proc.bind_eq,Proc.run_bind]
      split
      · exact ⟨_,rfl⟩
      · split
        · exact ⟨_,rfl⟩
        · exact ih _ _ _ _ _

/-- A path is answered, and it is a climb to where no new parent can be read or to its bound. -/
theorem pathOf_run (svc : Service) (u : Upstream) (nodeId : String) (maxDepth : Option Nat) :
    ∃ (reply : PathOfReply) (ns : List WorkflowyNode),
      ((pathOf nodeId maxDepth).run svc.serve u).1 = .ok reply ∧
      reply.segments = (ns.map segment).reverse ∧ reply.depth = ns.length ∧
      Climbs u.nodes (some nodeId) ns ∧ (ns.map (·.id)).Nodup ∧ ns.length ≤ maxDepth.getD 50 ∧
      Ends svc u.nodes (maxDepth.getD 50) (ns.map (·.id)) ns (next (some nodeId) ns)
        reply.truncated := by
  obtain ⟨chain,hchain⟩ := walkFrom_answers svc.serve (maxDepth.getD 50) 0 [] [] nodeId u
  obtain ⟨ns,hsegments,hclimbs,hnodup,-,hlen,hends⟩ := walkFrom_ok hchain
  refine ⟨⟨nodeId,displayPath chain.segments,chain.segments,chain.segments.length,
    chain.truncated⟩,ns,?_,by simpa using hsegments,by simp [hsegments],hclimbs,hnodup,hlen,
    by simpa using hends⟩
  simp only [pathOf,Proc.bind_eq,Proc.run_bind,walkParentChain,hchain]
  rfl

/-- On every store, with parents missing or in a cycle, and whatever the service refuses: a path is
answered with a bounded number of reads, it is the climb from the node to where no new parent can
be read, and it is cut only at its bound with a new parent left. -/
theorem pathOf_climbs (svc : Service) (u : Upstream) (nodeId : String) (maxDepth : Option Nat) :
    (pathOf nodeId maxDepth).calls svc.serve u ≤ Client.maxPropRetries*maxDepth.getD 50 ∧
    ∃ (reply : PathOfReply) (ns : List WorkflowyNode),
      ((pathOf nodeId maxDepth).run svc.serve u).1 = .ok reply ∧
      reply.segments = (ns.map segment).reverse ∧ reply.depth = ns.length ∧
      Climbs u.nodes (some nodeId) ns ∧ (ns.map (·.id)).Nodup ∧ ns.length ≤ maxDepth.getD 50 ∧
      Ends svc u.nodes (maxDepth.getD 50) (ns.map (·.id)) ns (next (some nodeId) ns)
        reply.truncated := by
  refine ⟨?_,pathOf_run svc u nodeId maxDepth⟩
  obtain ⟨chain,hchain⟩ := walkFrom_answers svc.serve (maxDepth.getD 50) 0 [] [] nodeId u
  have hcalls := calls_walkFrom svc.serve {} (maxDepth.getD 50) 0 [] [] nodeId u
  simp only [pathOf,Proc.bind_eq,Proc.calls_bind]
  rw [walkParentChain,hchain]
  simpa [Proc.calls] using hcalls

end walk

section tree
open NodeAtPath SubtreeWalk
variable {tree : Tree}

/-- Every parent is a node of the tree. -/
def Rooted (tree : Tree) : Prop :=
  ∀ n∈tree.nodes, ∀ p, n.parentId = some p → p≠"" ∧ ∃ m∈tree.nodes, m.id = p

/-- A descent from the top level, read from below, is a climb to the top level. -/
theorem climbs_reverse (hrooted : Rooted tree) {ns : List WorkflowyNode}
    (h : Descends tree none ns) :
    Climbs tree.nodes (endOf none ns) ns.reverse ∧ next (endOf none ns) ns.reverse = none := by
  induction ns using List.reverseRecOn with
  | nil => exact ⟨trivial,rfl⟩
  | append_singleton ns x ih =>
    obtain ⟨hns,hx,hparent⟩ := descends_concat.mp h
    obtain ⟨hclimbs,hnext⟩ := ih hns
    have habove : above x = endOf none ns := by
      rw [above,hparent]
      cases hend : endOf none ns with
      | none => rfl
      | some p =>
        have hp := (hrooted x hx p (hparent.trans hend)).1
        simp [Option.filter,hp]
    rw [endOf_concat,List.reverse_append,List.reverse_singleton,List.singleton_append]
    refine ⟨⟨?_,habove ▸ hclimbs⟩,by rw [next,habove,hnext]⟩
    exact findNode_of_mem tree.nodup hx

theorem Climbs.rank {n : WorkflowyNode} {ns : List WorkflowyNode} {id : Option String}
    (h : Climbs tree.nodes id (n::ns)) : ∀ m∈ns, tree.rank m.id < tree.rank n.id := by
  induction ns generalizing n id with
  | nil => exact List.forall_mem_nil _
  | cons m ns ih =>
    have hm : tree.rank m.id < tree.rank n.id := by
      have hparent : n.parentId = some m.id := by
        have habove := Climbs.head h.2
        exact (Option.filter_eq_some_iff.mp habove).1
      exact tree.acyclic n (h.mem n List.mem_cons_self) m.id hparent
    refine List.forall_mem_cons.mpr ⟨hm,fun k hk => ?_⟩
    exact (ih h.2 k hk).trans hm

theorem Climbs.nodup {id : Option String} {ns : List WorkflowyNode}
    (h : Climbs tree.nodes id ns) : (ns.map (·.id)).Nodup := by
  induction ns generalizing id with
  | nil => exact List.nodup_nil
  | cons n ns ih =>
    refine List.nodup_cons.mpr ⟨fun hmem => ?_,ih h.2⟩
    obtain ⟨m,hm,hid⟩ := List.mem_map.mp hmem
    have hlt := h.rank m hm
    rw [hid] at hlt
    exact lt_irrefl _ hlt

/-- Where every read is answered, a climb that ends is as long as it may be: up to the top level,
or to the bound. -/
theorem Ends.full {svc : Service} {id : Option String} {left : Nat} {truncated : Bool}
    {ns full : List WorkflowyNode} (hreads : ∀ t x, svc.refuses t (.getNode x) = none)
    (hclimbs : Climbs tree.nodes id ns) (hlen : ns.length ≤ left)
    (hends : Ends svc tree.nodes left (ns.map (·.id)) ns (next id ns) truncated)
    (hfull : Climbs tree.nodes id full) (hnext : next id full = none) :
    ns = full.take left ∧ truncated = decide (left < full.length) := by
  have hpre : ns <+: full := by
    refine hclimbs.prefix hfull (Nat.le_of_not_lt fun hlt => ?_)
    obtain ⟨rest,rfl⟩ := hfull.prefix hclimbs (Nat.le_of_lt hlt)
    rw [climbs_append,hnext] at hclimbs
    cases rest with
    | nil => simp at hlt
    | cons m rest => cases hclimbs.2.1
  obtain ⟨rest,rfl⟩ := hpre
  cases rest with
  | nil =>
    have huncut : truncated = false := by
      by_contra hcut
      obtain ⟨-,p,hp,-⟩ := hends.capped (Bool.eq_true_of_not_eq_false hcut)
      rw [List.append_nil] at hnext
      simp [hnext] at hp
    simp [huncut,hlen,List.take_of_length_le]
  | cons m rest =>
    have hm : Climbs tree.nodes (next id ns) (m::rest) := (climbs_append.mp hfull).2
    have hnew : m.id∉ns.map (·.id) := by
      intro hmem
      have hnodup := hfull.nodup
      rw [List.map_append,List.map_cons] at hnodup
      exact (List.nodup_append.mp hnodup).2.2 _ hmem _ List.mem_cons_self rfl
    have hfind : findNode tree.nodes m.id = some m :=
      findNode_of_mem tree.nodup (hm.mem m List.mem_cons_self)
    have hcut : truncated = true := by
      by_contra hstop
      rcases hends.stopped (Bool.eq_false_of_not_eq_true hstop) m.id hm.head with hseen | ⟨-,hunread⟩
      · exact hnew hseen
      · rw [hunread fun t => hreads t m.id] at hfind
        cases hfind
    obtain ⟨hcap,-⟩ := hends.capped hcut
    simp [hcut,← hcap]

end tree

section back
open NodeAtPath SubtreeWalk
variable {toLowercase : String → String} {w : WalkEnv} {tree : Tree}

/-- A node is found by its name as it is stored: the name is not blank, and of its siblings the node
is the first whose text without markup is the name, but for blanks at the ends and the case of
letters. -/
def FoundByName (toLowercase : String → String) (tree : Tree) (n : WorkflowyNode) : Prop :=
  toLowercase (trim n.name)≠"" ∧ ((tree.children n.parentId).find? fun m =>
    stored toLowercase m = toLowercase (trim n.name)) = some n

/-- One segment leads to the first child that stores it, if there is a segment and a child. -/
theorem pathStep_name (hcase : CaseFolding toLowercase) (hw : w.Serves tree) (ha : Answers w)
    (name : String) (s : PathState) :
    (toLowercase (trim name)≠"" ∧ ∃ m s', ((tree.children s.currentId).find? fun m =>
        stored toLowercase m = toLowercase (trim name)) = some m ∧
          pathStep toLowercase w name s = (none,s') ∧ s'.currentId = some m.id) ∨
      (¬(toLowercase (trim name)≠"" ∧ ∃ m, ((tree.children s.currentId).find? fun m =>
        stored toLowercase m = toLowercase (trim name)) = some m)) ∧
          ∃ e s', pathStep toLowercase w name s = (some e,s') := by
  by_cases hne : toLowercase (trim name) = ""
  · refine .inr ⟨fun h => h.1 hne,?_⟩
    simp only [pathStep,if_pos hne]
    exact ⟨_,_,rfl⟩
  · cases hfind : (tree.children s.currentId).find? fun m =>
        stored toLowercase m = toLowercase (trim name) with
    | none =>
      refine .inr ⟨by simp,?_⟩
      simp only [pathStep,if_neg hne,listed_eq hw ha,matched_eq hcase,hfind]
      exact ⟨_,_,rfl⟩
    | some m =>
      refine .inl ⟨hne,m,?_⟩
      simp only [pathStep,if_neg hne,listed_eq hw ha,matched_eq hcase,hfind]
      exact ⟨_,trivial,rfl,rfl⟩

/-- Names lead down the tree, wherever they lead. -/
theorem names_descend (hcase : CaseFolding toLowercase) (hw : w.Serves tree) (ha : Answers w)
    {names : List String} {s s' : PathState}
    (h : pathLoop toLowercase w names s = (none,s')) :
    ∃ ms, Descends tree s.currentId ms ∧ ms.length = names.length ∧
      s'.currentId = endOf s.currentId ms := by
  induction names generalizing s with
  | nil =>
    obtain ⟨-,rfl⟩ := Prod.mk.inj h
    exact ⟨[],trivial,rfl,rfl⟩
  | cons name names ih =>
    rcases pathStep_name hcase hw ha name s with ⟨-,m,s1,hfind,hstep,hid⟩ | ⟨-,e,s1,hstep⟩
    · simp only [pathLoop,hstep] at h
      obtain ⟨ms,hdesc,hlen,hend⟩ := ih h
      obtain ⟨hm,hparent⟩ := Tree.mem_children.mp (List.mem_of_find?_eq_some hfind)
      rw [hid] at hdesc hend
      exact ⟨m::ms,⟨hm,hparent,hdesc⟩,by simp [hlen],hend⟩
    · simp [pathLoop,hstep] at h

theorem names_lead_iff (hcase : CaseFolding toLowercase) (hw : w.Serves tree) (ha : Answers w)
    {ns : List WorkflowyNode} {s : PathState} (hns : Descends tree s.currentId ns) :
    (∃ s', pathLoop toLowercase w (ns.map (·.name)) s = (none,s') ∧
        s'.currentId = endOf s.currentId ns) ↔ ∀ n∈ns, FoundByName toLowercase tree n := by
  induction ns generalizing s with
  | nil => simp [pathLoop,endOf]
  | cons n ns ih =>
    obtain ⟨hn,hparent,hrest⟩ := hns
    rw [List.forall_mem_cons,FoundByName,hparent]
    rcases pathStep_name hcase hw ha n.name s with ⟨hne,m,s1,hfind,hstep,hid⟩ | ⟨hno,e,s1,hstep⟩
    · simp only [List.map_cons,pathLoop,hstep,endOf,hfind,Option.some.injEq]
      by_cases hm : m = n
      · subst hm
        rw [← hid] at hrest ⊢
        simpa [hne] using ih hrest
      · refine iff_of_false ?_ fun h => hm h.1.2
        -- from another child the names cannot lead back below this one
        rintro ⟨s',hloop,hend⟩
        obtain ⟨ms,hdesc,hlen,hend'⟩ := names_descend hcase hw ha hloop
        rw [hid] at hdesc hend'
        have hstart := hdesc.start_eq hrest (by simpa using hlen) (hend'.symm.trans hend)
        obtain ⟨hmem,-⟩ := Tree.mem_children.mp (List.mem_of_find?_eq_some hfind)
        exact hm (Tree.eq_of_id hmem hn (Option.some.inj hstart))
    · simp only [List.map_cons,pathLoop,hstep]
      refine iff_of_false (by simp) fun h => hno ⟨h.1.1,n,h.1.2⟩

/-- In a tree whose reads are answered the path of a node is its descent from the top level, and
its names lead back to the node if and only if each node on it is found by its name. -/
theorem pathOf_nodeAtPath (hcase : CaseFolding toLowercase) (hrooted : Rooted tree)
    (hw : w.Serves tree) (ha : Answers w) {svc : Service} {u : Upstream} (hu : u.nodes = tree.nodes)
    (hreads : ∀ t x, svc.refuses t (.getNode x) = none) (nameIndex : NameIndex)
    {higher : List WorkflowyNode} {n : WorkflowyNode} (hpath : Descends tree none (higher++[n]))
    {maxDepth : Option Nat} (hdepth : higher.length < maxDepth.getD 50) :
    ∃ reply, ((pathOf n.id maxDepth).run svc.serve u).1 = .ok reply ∧
      reply.segments = (higher++[n]).map segment ∧ reply.truncated = false ∧
      ((∃ back, (nodeAtPath toLowercase w (reply.segments.map (·.name)) none nameIndex).1 =
          .ok back ∧ back.id = n.id) ↔ ∀ a∈higher++[n], FoundByName toLowercase tree a) := by
  obtain ⟨reply,ns,hreply,hsegments,-,hclimbs,-,hlen,hends⟩ := pathOf_run svc u n.id maxDepth
  rw [hu] at hclimbs hends
  obtain ⟨hfull,hnext⟩ := climbs_reverse hrooted hpath
  rw [endOf_concat] at hfull hnext
  obtain ⟨hns,hcut⟩ := hends.full hreads hclimbs hlen hfull hnext
  have hfits : (higher++[n]).reverse.length ≤ maxDepth.getD 50 := by simpa using hdepth
  rw [List.take_of_length_le hfits] at hns
  have hsegments : reply.segments = (higher++[n]).map segment := by
    rw [hsegments,hns,List.map_reverse,List.reverse_reverse]
  refine ⟨reply,hreply,hsegments,by simpa [Nat.not_lt] using hcut.trans (by simpa using hdepth),?_⟩
  have hnames : reply.segments.map (·.name) = (higher++[n]).map (·.name) := by
    rw [hsegments,List.map_map]
    rfl
  have hne : (higher++[n]).map (·.name)≠[] := by simp
  rw [hnames,← names_lead_iff hcase hw ha (s := { currentId := none, nameIndex }) hpath,
    nodeAtPath,if_neg hne]
  cases hloop : pathLoop toLowercase w ((higher++[n]).map (·.name))
      { currentId := none, nameIndex } with
  | mk failed s =>
    cases failed with
    | some e => simp
    | none =>
      obtain ⟨ms,-,hlen,hend⟩ := names_descend hcase hw ha hloop
      obtain ⟨ms,x,rfl⟩ : ∃ ms' x, ms = ms'++[x] := by
        refine (List.eq_nil_or_concat' ms).resolve_left fun h => ?_
        simp [h] at hlen
      rw [endOf_concat] at hend
      simp [endOf_concat,hend]

/-- A name with markup on it: its path does not lead back. -/
theorem home_not_led_back : ∃ reply,
    ((pathOf "h" none).run Service.reliable.serve ⟨areasTree.nodes,0⟩).1 = .ok reply ∧
    reply.segments = [⟨"a","<b>Areas</b>"⟩,⟨"h"," <i>Home</i> base"⟩] ∧
    ¬∃ back, (nodeAtPath asciiLowercase (answeringWalk areasTree) (reply.segments.map (·.name))
      none {}).1 = .ok back ∧ back.id = "h" := by
  have hrooted : Rooted areasTree := by
    simp only [Rooted,areasTree,List.forall_mem_cons]
    simp [areas,home]
  have hpath : Descends areasTree none ([areas]++[home]) := by
    simp [Descends,areasTree,areas,home]
  have hreads : ∀ t x, Service.reliable.refuses t (.getNode x) = none := fun _ _ => rfl
  have hdepth : [areas].length < (none : Option Nat).getD 50 := by decide
  obtain ⟨reply,hreply,hsegments,-,hback⟩ := pathOf_nodeAtPath asciiLowercase_caseFolding hrooted
    (answeringWalk_serves areasTree) (answeringWalk_answers areasTree) (u := ⟨areasTree.nodes,0⟩) rfl
    hreads {} hpath hdepth
  refine ⟨reply,hreply,hsegments,fun h => ?_⟩
  have hfound := hback.mp h areas List.mem_cons_self
  revert hfound
  unfold FoundByName
  decide +kernel

end back

end ParentChain
end WorkflowyMcp
