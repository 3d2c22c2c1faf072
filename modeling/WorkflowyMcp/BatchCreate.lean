import WorkflowyMcp.Lib.Flight
import WorkflowyMcp.RequestLoop
import WorkflowyMcp.Connection

/-! A batch of creates in flight together: whose nodes are made, and which results tell of them, in
every interleaving. -/
namespace WorkflowyMcp

structure BatchCreateOp where
  name : String
  description : Option String := none
  parentId : Option String := none
  priority : Option Int := none
deriving DecidableEq, Repr

def BatchCreateOp.node (op : BatchCreateOp) (id : String) : WorkflowyNode :=
  { id, name := op.name, description := op.description, parentId := op.parentId,
    priority := op.priority }

def SUBTREE_FETCH_CONCURRENCY : Nat := 5

namespace Client

abbrev CreateFlight := Flight Ask Answer Unit (Except WorkflowyError CreatedNode)

def createOp (maxAttempts : Nat) (op : BatchCreateOp) : Net (Except WorkflowyError CreatedNode) :=
  createNodeCancellable maxAttempts op.name op.description op.parentId op.priority none

/-- The creates in flight and those collected, after these picks. -/
def batchCreateNodes {σ : Type} (serve : Proc.Server Ask Answer σ) (maxAttempts : Nat)
    (ops : List BatchCreateOp) (s : σ) (picks : List Nat) : CreateFlight×σ :=
  Runs.run (Flight.step serve (max SUBTREE_FETCH_CONCURRENCY 1))
    (Flight.start (max SUBTREE_FETCH_CONCURRENCY 1) (ops.map (createOp maxAttempts)),s) picks

end Client

abbrev BatchCreateOp.Creating (op : BatchCreateOp) :
    Nat → Net (Except WorkflowyError CreatedNode) → Prop :=
  WorkflowyMcp.Creating op.name op.description op.parentId op.priority none

/-- A node that was made: for which operation, under which id, and whether its reply told the id. -/
structure Made where
  op : Nat
  id : String
  heard : Bool
deriving DecidableEq, Repr

section batch
variable {σ : Type}

def madeNode (ops : List BatchCreateOp) (m : Made) : WorkflowyNode :=
  (ops.getD m.op { name := "" }).node m.id

def attempts (made : List Made) (i : Nat) : Nat := made.countP (·.op = i)

/-- The ids that were told to operation `i`. -/
def heardIds (made : List Made) (i : Nat) : List String :=
  (made.filter fun m => m.op = i && m.heard).map Made.id

section ledger
variable {made : List Made} {i j : Nat} {id : String} {heard : Bool}

theorem attempts_concat_of_ne (h : j≠i) : attempts (made++[⟨i,id,heard⟩]) j = attempts made j := by
  simp [attempts,h.symm]

theorem attempts_concat : attempts (made++[⟨i,id,heard⟩]) i = attempts made i+1 := by
  simp [attempts]

theorem heardIds_concat_of_ne (h : j≠i) : heardIds (made++[⟨i,id,heard⟩]) j = heardIds made j := by
  simp [heardIds,h.symm]

theorem heardIds_concat :
    heardIds (made++[⟨i,id,heard⟩]) i = heardIds made i++if heard then [id] else [] := by
  cases heard <;> simp [heardIds]

end ledger

variable (w : World σ) (ops : List BatchCreateOp) (most : Nat) (s₀ : σ)

/-- The store holds what was there and, under new ids, what was made for the operations. -/
structure Holds (made : List Made) (s : σ) : Prop where
  nodes : w.nodes s = w.nodes s₀++made.map (madeNode ops)
  fresh : ∀ m∈made, World.Fresh (w.nodes s₀) m.id
  distinct : (made.map Made.id).Nodup
  atMost : ∀ i, attempts made i ≤ most
  owned : ∀ m∈made, m.op < ops.length

/-- What a result tells of the ledger: the id of an operation's own node, or none. -/
def ToldOf (made : List Made) (i : Nat) (r : Except WorkflowyError CreatedNode) : Prop :=
  ∃ op, ops[i]? = some op ∧ match r with
    | .ok c => heardIds made i = [c.id] ∧ c.name = op.name ∧ c.parentId = op.parentId
    | .error _ => heardIds made i = []

/-- A create that has not returned has been told nothing, or is about to return what it was told. -/
def Owed (made : List Made) (i : Nat) (p : Net (Except WorkflowyError CreatedNode)) : Prop :=
  (∃ op n, ops[i]? = some op ∧ op.Creating n p ∧ n+attempts made i ≤ most ∧ heardIds made i = []) ∨
    ∃ r, p = .ret r ∧ ToldOf ops made i r

variable {w ops most s₀}

theorem told_of_owed {made : List Made} {i : Nat} {r : Except WorkflowyError CreatedNode}
    (h : Owed ops most made i (.ret r)) : ToldOf ops made i r := by
  obtain ⟨op,n,hop,hp,-,hheard⟩ | ⟨r,hr,htold⟩ := h
  · cases hp
    exact ⟨op,hop,hheard⟩
  · cases hr
    exact htold

section concat
variable {made : List Made} {i j : Nat} {id : String} {heard : Bool}

theorem told_concat {r : Except WorkflowyError CreatedNode} (hj : j≠i) (h : ToldOf ops made j r) :
    ToldOf ops (made++[⟨i,id,heard⟩]) j r := by
  obtain ⟨op,hop,h⟩ := h
  refine ⟨op,hop,?_⟩
  cases r <;> simpa only [heardIds_concat_of_ne hj] using h

theorem owed_concat {p : Net (Except WorkflowyError CreatedNode)} (hj : j≠i)
    (h : Owed ops most made j p) : Owed ops most (made++[⟨i,id,heard⟩]) j p := by
  obtain ⟨op,n,hop,hp,hn,hheard⟩ | ⟨r,hr,htold⟩ := h
  · exact .inl ⟨op,n,hop,hp,by rwa [attempts_concat_of_ne hj],by rwa [heardIds_concat_of_ne hj]⟩
  · exact .inr ⟨r,hr,told_concat hj htold⟩

/-- An operation that may go on creating makes one more node. -/
theorem holds_concat {s s' : σ} {op : BatchCreateOp} (hs : Holds w ops most s₀ made s)
    (hop : ops[i]? = some op) (hmost : attempts made i+1 ≤ most)
    (hnodes : w.nodes s' = w.nodes s++[op.node id]) (hfresh : World.Fresh (w.nodes s) id) :
    Holds w ops most s₀ (made++[⟨i,id,heard⟩]) s' := by
  have hnode : madeNode ops ⟨i,id,heard⟩ = op.node id := by
    rw [madeNode,List.getD_eq_getElem?_getD,hop]
    rfl
  refine ⟨by simp [hnodes,hs.nodes,hnode],fun m hm => ?_,?_,fun j => ?_,fun m hm => ?_⟩
  · rcases List.mem_append.mp hm with hm | hm
    · exact hs.fresh m hm
    · obtain rfl := List.mem_singleton.mp hm
      exact fun n hn => hfresh n (by rw [hs.nodes]; exact List.mem_append_left _ hn)
  · rw [List.map_append,List.map_singleton,List.nodup_append]
    refine ⟨hs.distinct,List.nodup_singleton _,fun a ha b hb => ?_⟩
    obtain ⟨m,hm,rfl⟩ := List.mem_map.mp ha
    obtain rfl := List.mem_singleton.mp hb
    refine (hfresh (madeNode ops m) ?_).1
    rw [hs.nodes]
    exact List.mem_append_right _ (List.mem_map_of_mem hm)
  · by_cases hj : j = i
    · rwa [hj,attempts_concat]
    · rw [attempts_concat_of_ne hj]
      exact hs.atMost j
  · rcases List.mem_append.mp hm with hm | hm
    · exact hs.owned m hm
    · obtain rfl := List.mem_singleton.mp hm
      exact (List.getElem?_eq_some_iff.mp hop).1

end concat

/-- Each reply is booked on the operation that asked, and on no other. -/
theorem booked_call {made : List Made} {s : σ} {i : Nat} {fr : Unit} {a : Ask}
    {k : Answer a → Net (Except WorkflowyError CreatedNode)} (hs : Holds w ops most s₀ made s)
    (hp : Owed ops most made i (.call fr a k)) :
    ∃ made', Holds w ops most s₀ made' (w.serve a s).2 ∧
      Owed ops most made' i (k (w.serve a s).1) ∧ ∀ j, j≠i →
        (∀ p, Owed ops most made j p → Owed ops most made' j p) ∧
        ∀ r, ToldOf ops made j r → ToldOf ops made' j r := by
  obtain ⟨op,n,hop,hp,hn,hheard⟩ | ⟨r,hr,-⟩ := hp
  · cases hp with
    | quiet ha h =>
      have hnodes := w.quiet a s ha
      exact ⟨made,⟨by rw [hnodes,hs.nodes],hs.fresh,hs.distinct,hs.atMost,hs.owned⟩,
        .inl ⟨op,n,hop,h _,hn,hheard⟩,fun _ _ => ⟨fun _ h => h,fun _ h => h⟩⟩
    | @send n k heard unheard =>
      rcases w.create op.name op.description op.parentId op.priority none s with
        ⟨hsame,hreply⟩ | ⟨id,hfresh,-,hnodes,hid⟩
      · exact ⟨made,⟨by rw [hsame,hs.nodes],hs.fresh,hs.distinct,hs.atMost,hs.owned⟩,
          .inl ⟨op,n,hop,unheard _ hreply,by omega,hheard⟩,fun _ _ => ⟨fun _ h => h,fun _ h => h⟩⟩
      · have hothers (heard : Bool) (j : Nat) (hj : j≠i) :
            (∀ p, Owed ops most made j p → Owed ops most (made++[⟨i,id,heard⟩]) j p) ∧
              ∀ r, ToldOf ops made j r → ToldOf ops (made++[⟨i,id,heard⟩]) j r :=
          ⟨fun _ h => owed_concat hj h,fun _ h => told_concat hj h⟩
        generalize (w.serve (.send (.createNode op.name op.description op.parentId op.priority none))
          s).1 = reply at hid ⊢
        by_cases htold : ∃ c, reply = .ok (some c)
        · obtain ⟨c,rfl⟩ := htold
          obtain rfl := hid c rfl
          refine ⟨_,holds_concat hs hop (by omega) hnodes hfresh,
            .inr ⟨_,heard c,op,hop,?_,rfl,rfl⟩,hothers true⟩
          rw [heardIds_concat,hheard]
          rfl
        · refine ⟨_,holds_concat hs hop (by omega) hnodes hfresh,
            .inl ⟨op,n,hop,unheard _ fun c hc => htold ⟨c,hc⟩,?_,?_⟩,hothers false⟩
          · rw [attempts_concat]
            omega
          · rw [heardIds_concat,hheard]
            rfl
  · cases hr

theorem booked_run (w : World σ) (maxAttempts : Nat) (ops : List BatchCreateOp) (s : σ)
    (picks : List Nat) :
    let after := Client.batchCreateNodes w.serve maxAttempts ops s picks
    ∃ made, Holds w ops (max 1 maxAttempts) s made after.2 ∧
      ∀ r∈after.1.done, ToldOf ops made r.1 r.2 := by
  intro after
  have hstart : Holds w ops (max 1 maxAttempts) s [] s :=
    ⟨by simp,by simp,by simp,fun i => Nat.zero_le _,by simp⟩
  have htasks : ∀ i p, (ops.map (Client.createOp maxAttempts))[i]? = some p →
      Owed ops (max 1 maxAttempts) [] i p := by
    intro i p hp
    rw [List.getElem?_map] at hp
    obtain ⟨op,hop,rfl⟩ := Option.map_eq_some_iff.mp hp
    exact .inl ⟨op,_,hop,creating_createNodeCancellable maxAttempts op.name _ _ _ _,by simp [attempts],rfl⟩
  obtain ⟨made,hkept⟩ := Flight.kept_run (I := Holds w ops (max 1 maxAttempts) s)
    (J := Owed ops (max 1 maxAttempts)) (K := ToldOf ops)
    (fun made s i fr a k hs hp => booked_call hs hp) (fun made i r h => told_of_owed h) hstart
    (max SUBTREE_FETCH_CONCURRENCY 1) htasks picks
  exact ⟨made,hkept.state,hkept.collected⟩

/-- Whatever the schedule, and wherever it is cut off: no more than five creates are in flight, the
store holds what it held and what was made for the operations, at most one node for each attempt, and
what was collected tells each operation's own id, or none was heard. -/
theorem batch_booked (w : World σ) (maxAttempts : Nat) (ops : List BatchCreateOp) (s : σ)
    (picks : List Nat) :
    let after := Client.batchCreateNodes w.serve maxAttempts ops s picks
    after.1.running.length ≤ 5 ∧ after.1.indices.Perm (List.range ops.length) ∧
      ∃ made, Holds w ops (max 1 maxAttempts) s made after.2 ∧
        ∀ r∈after.1.done, ToldOf ops made r.1 r.2 := by
  have hindices := Flight.indices_run w.serve (max SUBTREE_FETCH_CONCURRENCY 1)
    (ops.map (Client.createOp maxAttempts)) s picks
  rw [List.length_map] at hindices
  exact ⟨Flight.running_run w.serve _ _ s picks,hindices,booked_run w maxAttempts ops s picks⟩

/-- A result is that of its own operation, and tells the node made for it. -/
def AnswersOp (made : List Made) (nodes : List WorkflowyNode) (i : Nat) (op : BatchCreateOp) :
    Except WorkflowyError CreatedNode → Prop
  | .ok c => heardIds made i = [c.id] ∧ c.name = op.name ∧ c.parentId = op.parentId ∧
    op.node c.id∈nodes
  | .error _ => heardIds made i = []

theorem mem_of_heard {made : List Made} {s : σ} {i : Nat} {op : BatchCreateOp} {id : String}
    (hs : Holds w ops most s₀ made s) (hop : ops[i]? = some op) (h : heardIds made i = [id]) :
    op.node id∈w.nodes s := by
  have hid : id∈heardIds made i := by simp [h]
  obtain ⟨m,hfilter,rfl⟩ := List.mem_map.mp hid
  obtain ⟨hm,hi⟩ := List.mem_filter.mp hfilter
  obtain rfl : m.op = i := by simpa using (Bool.and_eq_true_iff.mp hi).1
  have hnode : madeNode ops m = op.node m.id := by
    rw [madeNode,List.getD_eq_getElem?_getD,hop]
    rfl
  rw [hs.nodes,← hnode]
  exact List.mem_append_right _ (List.mem_map_of_mem hm)

/-- Where only creates in flight are picked, all come back in the end; and in whatever order they do,
the results stand in the order of the operations. -/
theorem batch_returns (w : World σ) (maxAttempts : Nat) (ops : List BatchCreateOp) (s : σ)
    (picks : Nat → Nat)
    (h : ∀ n, let p := (Client.batchCreateNodes w.serve maxAttempts ops s
      ((List.range n).map picks)).1
      p.running≠[] → picks n < p.running.length) :
    ∃ n, let after := Client.batchCreateNodes w.serve maxAttempts ops s ((List.range n).map picks)
      after.1.Finished ∧ after.1.results.length = ops.length ∧
        ∃ made, Holds w ops (max 1 maxAttempts) s made after.2 ∧ ∀ i op, ops[i]? = some op →
          ∃ r, after.1.results[i]? = some r ∧ AnswersOp made (w.nodes after.2) i op r := by
  obtain ⟨n,hdone⟩ := Flight.finishes (by decide) w.serve _ s picks h
  have hindices := Flight.indices_run w.serve (max SUBTREE_FETCH_CONCURRENCY 1)
    (ops.map (Client.createOp maxAttempts)) s ((List.range n).map picks)
  rw [List.length_map] at hindices
  obtain ⟨hlen,hget⟩ := Flight.getElem?_results hindices hdone
  obtain ⟨made,hholds,htold⟩ := booked_run w maxAttempts ops s ((List.range n).map picks)
  refine ⟨n,hdone,hlen,made,hholds,fun i op hop => ?_⟩
  have hi := hlen ▸ (List.getElem?_eq_some_iff.mp hop).1
  have hr := List.getElem?_eq_getElem hi
  obtain ⟨op',hop',hr'⟩ := htold _ ((hget i _).mp hr)
  obtain rfl : op' = op := Option.some.inj (hop'.symm.trans hop)
  refine ⟨_,hr,?_⟩
  revert hr'
  generalize (Flight.results _)[i] = r
  cases r with
  | ok c => exact fun ⟨hheard,hname,hparent⟩ => ⟨hheard,hname,hparent,mem_of_heard hholds hop hheard⟩
  | error e => exact id

def twoCreates (picks : List Nat) : Client.CreateFlight×Upstream :=
  Client.batchCreateNodes (Service.reliable.world {}).serve RETRY_MAX_ATTEMPTS
    [{ name := "a" },{ name := "b" }] ⟨[],0⟩ picks

theorem twoCreates_return : ∃ n, let after := twoCreates ((List.range n).map fun _ => 0)
    after.1.Finished ∧ after.1.results.length = 2 := by
  obtain ⟨n,hdone,hlen,-⟩ := batch_returns (Service.reliable.world {}) RETRY_MAX_ATTEMPTS
    [{ name := "a" },{ name := "b" }] ⟨[],0⟩ (fun _ => 0) fun n h => List.length_pos_of_ne_nil h
  exact ⟨n,hdone,hlen⟩

/-- The second may come back first. -/
example : let after := (twoCreates (List.replicate 7 1++List.replicate 7 0)).1
    after.done.map Prod.fst = [1,0] ∧
      after.results.map (fun r => r.toOption.map CreatedNode.name) = [some "a",some "b"] := by
  decide

end batch

end WorkflowyMcp
