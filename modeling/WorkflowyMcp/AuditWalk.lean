import Mathlib.Data.String.Basic
import WorkflowyMcp.DeepCopy
import WorkflowyMcp.WalkCap

/-! `audit_mirrors_walk`: one bounded walk of the scope, or a walk for each child of the root
put together with the root, and where the two agree. -/
namespace WorkflowyMcp

def TruncationReason.asStr : TruncationReason → String
  | .NodeLimit => "node_limit"
  | .Timeout => "timeout"
  | .Cancelled => "cancelled"
  | .SkippedBranches => "skipped_branches"

namespace SubtreeWalk.Tree
variable {tree : Tree} {r : String} {k : Nat} {n : WorkflowyNode}

/-- Below a node come its children and what is below each of them. -/
theorem atDepth_succ : tree.AtDepth (some r) (k+1) n ↔
    ∃ c∈tree.children (some r), tree.AtDepth (some c.id) k n := by
  induction k generalizing n with
  | zero =>
    constructor
    · rintro ⟨hn,c,hc,hpar⟩
      exact ⟨c,mem_children.mpr hc,hn,hpar⟩
    · rintro ⟨c,hc,hn,hpar⟩
      exact ⟨hn,c,mem_children.mp hc,hpar⟩
  | succ k ih =>
    constructor
    · rintro ⟨hn,p,hp,hpar⟩
      obtain ⟨c,hc,hp⟩ := ih.mp hp
      exact ⟨c,hc,hn,p,hp,hpar⟩
    · rintro ⟨c,hc,hn,p,hp,hpar⟩
      exact ⟨hn,p,ih.mpr ⟨c,hc,hp⟩,hpar⟩

end SubtreeWalk.Tree

namespace AuditWalk
open SubtreeWalk DeepCopy

structure AuditChunk where
  id : String
  name : String
  scanned : Nat
  truncated : Bool
  truncationReason : Option String
deriving DecidableEq, Repr

structure AuditMirrorsWalkOutcome where
  nodes : List WorkflowyNode := []
  truncated : Bool := false
  truncationReason : Option String := none
  chunks : List AuditChunk := []
deriving DecidableEq, Repr

section
variable (renderDisplay : String → String) (walks : Nat → WalkEnv)

def AuditMirrorsWalkOutcome.addChunk (o : AuditMirrorsWalkOutcome) (child : WorkflowyNode)
    (fetch : SubtreeFetch) : AuditMirrorsWalkOutcome :=
  let reason := fetch.truncationReason.map TruncationReason.asStr
  { nodes := o.nodes++fetch.nodes
    truncated := o.truncated || fetch.truncated
    truncationReason :=
      if fetch.truncated && o.truncationReason.isNone then reason else o.truncationReason
    chunks := o.chunks++[⟨child.id,renderDisplay child.name,fetch.nodes.length,fetch.truncated,
      reason⟩] }

/-- Walk each child in turn; the `i`-th walk of the call meets `walks i`. -/
def walkChildren (childDepth : Nat) : Nat → List WorkflowyNode → AuditMirrorsWalkOutcome →
    Except WorkflowyError AuditMirrorsWalkOutcome
  | _,[],o => .ok o
  | i,child::children,o =>
    match getSubtreeWithControls (walks i) (some child.id) childDepth MAX_SUBTREE_NODES with
    | .error e => .error e
    | .ok fetch => walkChildren childDepth (i+1) children (o.addChunk renderDisplay child fetch)

/- In chunks the root is read first, and a failure of that read is passed over. The two reads
   that are not part of a walk meet `walks 0` too. -/
def auditMirrorsWalk (rootId : String) (maxDepth : Nat) (chunked : Bool) :
    Except WorkflowyError AuditMirrorsWalkOutcome :=
  if !chunked then
    (getSubtreeWithControls (walks 0) (some rootId) maxDepth MAX_SUBTREE_NODES).map fun fetch =>
      { nodes := fetch.nodes
        truncated := fetch.truncated
        truncationReason := fetch.truncationReason.map TruncationReason.asStr }
  else
    let root := match (walks 0).node 0 rootId with
      | .ok n => [n]
      | .error _ => []
    match getChildren (walks 0) 1 rootId with
    | .error e => .error e
    | .ok children =>
      (walkChildren renderDisplay walks (maxDepth-1) 1 children { nodes := root }).map fun o =>
        { o with nodes := dedupByKey WorkflowyNode.id (sortByKey WorkflowyNode.id o.nodes) }

end

variable {renderDisplay : String → String} {walks : Nat → WalkEnv} {tree : Tree} {rootId : String}
  {maxDepth : Nat}

/-- Chunks that are all whole bring in the subtree of each child. -/
theorem walkChildren_whole (hw : ∀ i, (walks i).Serves tree) {childDepth i : Nat}
    {children : List WorkflowyNode} {o o' : AuditMirrorsWalkOutcome}
    (h : walkChildren renderDisplay walks childDepth i children o = .ok o')
    (ht : o'.truncated = false) : o.truncated = false ∧
      o'.nodes = o.nodes++children.flatMap fun c => tree.docOrder (some c.id) childDepth := by
  induction children generalizing i o with
  | nil =>
    simp only [walkChildren,Except.ok.injEq] at h
    subst h
    exact ⟨ht,by simp⟩
  | cons child children ih =>
    unfold walkChildren at h
    cases hf : getSubtreeWithControls (walks i) (some child.id) childDepth MAX_SUBTREE_NODES with
    | error e => simp [hf] at h
    | ok fetch =>
      simp only [hf] at h
      obtain ⟨hno,hnodes⟩ := ih h
      simp only [AuditMirrorsWalkOutcome.addChunk,Bool.or_eq_false_iff] at hno
      rw [hnodes,AuditMirrorsWalkOutcome.addChunk,fetch_docOrder (hw i) hf hno.2]
      exact ⟨hno.1,by simp⟩

/-- The nodes of a walk in chunks that is whole and has read the root: each node once. -/
theorem chunked_nodes (hw : ∀ i, (walks i).Serves tree) {o : AuditMirrorsWalkOutcome}
    (h : auditMirrorsWalk renderDisplay walks rootId maxDepth true = .ok o)
    (ht : o.truncated = false) {root : WorkflowyNode} (hroot : (walks 0).node 0 rootId = .ok root) :
    (o.nodes.map WorkflowyNode.id).Nodup ∧ ∀ n, n∈o.nodes ↔
      n = root ∨ ∃ c∈tree.children (some rootId), tree.InSubtree (some c.id) (maxDepth-1) n := by
  obtain ⟨hmem,-⟩ := hw 0 |>.node 0 rootId root hroot
  simp only [auditMirrorsWalk,hroot,Bool.not_true,Bool.false_eq_true,if_false] at h
  cases hc : getChildren (walks 0) 1 rootId with
  | error e => simp [hc] at h
  | ok children =>
    obtain rfl := getChildren_serves (hw 0) hc
    cases hwalk : walkChildren renderDisplay walks (maxDepth-1) 1 (tree.children (some rootId))
        { nodes := [root] } with
    | error e => simp [hc,hwalk,Except.map] at h
    | ok all =>
      simp only [hc,hwalk,Except.map,Except.ok.injEq] at h
      subst h
      obtain ⟨-,hnodes⟩ := walkChildren_whole hw hwalk ht
      have hall : ∀ n, n∈all.nodes ↔ n = root ∨
          ∃ c∈tree.children (some rootId), tree.InSubtree (some c.id) (maxDepth-1) n := by
        simp [hnodes,Tree.mem_docOrder]
      have htree : ∀ n∈all.nodes, n∈tree.nodes := fun n hn => by
        rcases (hall n).mp hn with rfl | ⟨c,-,hsub⟩
        · exact hmem
        · exact Tree.docOrder_subset (Tree.mem_docOrder.mpr hsub)
      have hsorted : ∀ n, n∈sortByKey WorkflowyNode.id all.nodes ↔ n∈all.nodes := fun n =>
        (sortByKey_perm _).mem_iff
      refine ⟨?_,fun n => (Iff.trans ?_ (hall n))⟩
      · have hstrict : (dedupByKey WorkflowyNode.id (sortByKey WorkflowyNode.id
            all.nodes)).Pairwise fun a b => a.id < b.id := dedupByKey_sorted (sortByKey_sorted _)
        exact List.pairwise_map.mpr (hstrict.imp ne_of_lt)
      · change n∈dedupByKey WorkflowyNode.id (sortByKey WorkflowyNode.id all.nodes) ↔ _
        constructor
        · exact fun hn => (hsorted n).mp (mem_dedupByKey hn)
        · intro hn
          have hkey : ∃ m∈dedupByKey WorkflowyNode.id (sortByKey WorkflowyNode.id all.nodes),
              m.id = n.id := exists_mem_dedupByKey ((hsorted n).mpr hn)
          obtain ⟨m,hm,hid⟩ := hkey
          have hmall := (hsorted m).mp (mem_dedupByKey hm)
          obtain rfl := Tree.eq_of_id (htree m hmall) (htree n hn) hid
          exact hm

theorem unchunked_nodes (hw : ∀ i, (walks i).Serves tree) {o : AuditMirrorsWalkOutcome}
    (h : auditMirrorsWalk renderDisplay walks rootId maxDepth false = .ok o)
    (ht : o.truncated = false) :
    o.nodes = tree.docOrder (some rootId) maxDepth := by
  simp only [auditMirrorsWalk,Bool.not_false,if_true] at h
  cases hf : getSubtreeWithControls (walks 0) (some rootId) maxDepth MAX_SUBTREE_NODES with
  | error e => simp [hf,Except.map] at h
  | ok fetch =>
    simp only [hf,Except.map,Except.ok.injEq] at h
    subst h
    exact fetch_docOrder (hw 0) hf ht

/-- The subtrees of the children, one level less deep, are the subtree of the root, unless the
depth cannot be taken down by one. -/
theorem subtree_of_children {root n : WorkflowyNode} (hroot : root∈tree.nodes) :
    (n = root ∨ ∃ c∈tree.children (some root.id), tree.InSubtree (some c.id) (maxDepth-1) n) ↔
      tree.InSubtree (some root.id) maxDepth n ∨ maxDepth = 0 ∧ tree.AtDepth (some root.id) 1 n := by
  have hself : (n∈tree.nodes ∧ some n.id = some root.id) ↔ n = root := by
    constructor
    · rintro ⟨hn,hid⟩
      exact Tree.eq_of_id hn hroot (by simpa using hid)
    · rintro rfl
      exact ⟨hroot,rfl⟩
  unfold Tree.InSubtree
  rw [hself]
  constructor
  · rintro (rfl | ⟨c,hc,⟨hn,hid⟩ | ⟨k,hk,hd⟩⟩)
    · exact .inl (.inl rfl)
    · have hcmem := (Tree.mem_children.mp hc).1
      obtain rfl := Tree.eq_of_id hn hcmem (by simpa using hid)
      exact .inl (.inr ⟨0,Nat.zero_le _,Tree.mem_children.mp hc⟩)
    · have hsucc : tree.AtDepth (some root.id) (k+1) n := Tree.atDepth_succ.mpr ⟨c,hc,hd⟩
      by_cases hzero : maxDepth = 0
      · obtain rfl : k = 0 := by omega
        exact .inr ⟨hzero,hsucc⟩
      · exact .inl (.inr ⟨k+1,by omega,hsucc⟩)
  · rintro ((rfl | ⟨k,hk,hd⟩) | ⟨-,hd⟩)
    · exact .inl rfl
    · cases k with
      | zero => exact .inr ⟨n,Tree.mem_children.mpr hd,.inl ⟨hd.1,rfl⟩⟩
      | succ k =>
        obtain ⟨c,hc,hd⟩ := Tree.atDepth_succ.mp hd
        exact .inr ⟨c,hc,.inr ⟨k,by omega,hd⟩⟩
    · obtain ⟨c,hc,hd⟩ := Tree.atDepth_succ.mp hd
      exact .inr ⟨c,hc,.inr ⟨0,Nat.zero_le _,hd⟩⟩

/-- Of a tree that does not change, two audit walks that are both whole, one in chunks and one not,
return the same nodes, each once, exactly when the depth is at least one or no child of the root
has a child. -/
theorem chunked_agrees_iff {walks' : Nat → WalkEnv} (hw : ∀ i, (walks i).Serves tree)
    (hw' : ∀ i, (walks' i).Serves tree) {plain chunked : AuditMirrorsWalkOutcome}
    (hplain : auditMirrorsWalk renderDisplay walks rootId maxDepth false = .ok plain)
    (hchunked : auditMirrorsWalk renderDisplay walks' rootId maxDepth true = .ok chunked)
    (hroot : ∃ n, (walks' 0).node 0 rootId = .ok n)
    (ht : plain.truncated = false) (ht' : chunked.truncated = false) :
    ((∀ n, n∈plain.nodes ↔ n∈chunked.nodes) ∧ (plain.nodes.map WorkflowyNode.id).Nodup ∧
        (chunked.nodes.map WorkflowyNode.id).Nodup) ↔
      (1 ≤ maxDepth ∨ ∀ n, ¬tree.AtDepth (some rootId) 1 n) := by
  obtain ⟨root,hroot⟩ := hroot
  obtain ⟨hmem,rfl⟩ := (hw' 0).node 0 rootId root hroot
  obtain ⟨hnodup',hnodes'⟩ := chunked_nodes hw' hchunked ht' hroot
  have hnodup : (plain.nodes.map WorkflowyNode.id).Nodup := by
    rw [unchunked_nodes hw hplain ht]
    exact Tree.docOrder_nodup _ _
  have hnodes : ∀ n, n∈plain.nodes ↔ tree.InSubtree (some root.id) maxDepth n := fun n => by
    rw [unchunked_nodes hw hplain ht,Tree.mem_docOrder]
  simp only [hnodup,hnodup',and_true,hnodes,hnodes',subtree_of_children hmem]
  constructor
  · intro hsame
    by_contra hno
    obtain ⟨hdepth,hgrand⟩ := not_or.mp hno
    obtain ⟨n,hn⟩ := not_forall_not.mp hgrand
    obtain rfl : maxDepth = 0 := by omega
    rcases (hsame n).mpr (.inr ⟨rfl,hn⟩) with ⟨-,hid⟩ | ⟨k,hk,hd⟩
    · have hrank := hn.rank_lt
      have hid : n.id = root.id := by simpa using hid
      rw [hid] at hrank
      exact lt_irrefl _ hrank
    · have hlevels := hn.unique hd
      omega
  · intro hcond n
    refine ⟨.inl,fun h => h.elim (fun h => h) fun ⟨hzero,hd⟩ => ?_⟩
    rcases hcond with hdepth | hnone
    · omega
    · exact absurd hd (hnone n)

/-- With a depth of one the small tree is audited whole both ways. -/
theorem smallTree_chunked :
    ∃ plain chunked,
      auditMirrorsWalk id (fun _ => answeringWalk smallTree) "r" 1 false = .ok plain ∧
      auditMirrorsWalk id (fun _ => answeringWalk smallTree) "r" 1 true = .ok chunked ∧
      (∀ n, n∈plain.nodes ↔ n∈chunked.nodes) ∧ chunked.nodes.map WorkflowyNode.id =
        ["a","b","c","d","r"] :=
  ⟨_,_,rfl,rfl,((chunked_agrees_iff (fun _ => answeringWalk_serves smallTree)
    (fun _ => answeringWalk_serves smallTree) rfl rfl
    ⟨{ id := "r" },show (answeringWalk smallTree).node 0 "r" = _ from rfl⟩ rfl rfl).mpr
    (.inl le_rfl)).1,
    by decide⟩

/-- With a depth of zero the chunks reach the grandchildren `c` and `d`, and the single walk does
not. -/
theorem smallTree_deeper :
    ∃ plain chunked,
      auditMirrorsWalk id (fun _ => answeringWalk smallTree) "r" 0 false = .ok plain ∧
      auditMirrorsWalk id (fun _ => answeringWalk smallTree) "r" 0 true = .ok chunked ∧
      plain.truncated = false ∧ chunked.truncated = false ∧
      plain.nodes.map WorkflowyNode.id = ["r","a","b"] ∧
      chunked.nodes.map WorkflowyNode.id = ["a","b","c","d","r"] ∧
      ¬∀ n, n∈plain.nodes ↔ n∈chunked.nodes :=
  ⟨_,_,rfl,rfl,rfl,rfl,by decide,by decide,fun h =>
    absurd ((h { id := "d", parentId := some "a" }).mpr (by decide)) (by decide)⟩

end AuditWalk
end WorkflowyMcp
