import WorkflowyMcp.RequestLoop
import WorkflowyMcp.ServerTools
import WorkflowyMcp.Connection

/-! Calls of `create_node` side by side: the key is looked up when a call starts, its create may be
sent more than once, and the key is recorded when the answer is read. Between these come the other
calls. -/
namespace WorkflowyMcp

namespace CreateNodeParams

def call (p : CreateNodeParams) : ApiCall :=
  .createNode p.name p.description p.parentId p.priority p.layout

/-- `create_node_cancellable`, attempt by attempt. -/
def create (maxAttempts : Nat) (p : CreateNodeParams) : Net (Except WorkflowyError CreatedNode) :=
  Client.createNodeCancellable maxAttempts p.name p.description p.parentId p.priority p.layout

def node (p : CreateNodeParams) (id : String) : WorkflowyNode :=
  { id, name := p.name, description := p.description, parentId := p.parentId, priority := p.priority }

abbrev Creating (p : CreateNodeParams) : Nat → Net (Except WorkflowyError CreatedNode) → Prop :=
  WorkflowyMcp.Creating p.name p.description p.parentId p.priority p.layout

end CreateNodeParams

/-- What the handler records of an answered create. -/
def recordOf (p : CreateNodeParams) (reply : Except WorkflowyError CreatedNode) :
    Option IdempotencyRecord :=
  match p.idempotencyKey,reply with
  | some key,.ok created => some ⟨key,created.id,p.name,p.parentId⟩
  | _,_ => none

theorem recordOf_eq_some {p : CreateNodeParams} {reply : Except WorkflowyError CreatedNode}
    {r : IdempotencyRecord} : recordOf p reply = some r ↔
      p.idempotencyKey = some r.key ∧ p.name = r.name ∧ p.parentId = r.parentId ∧
        ∃ c, reply = .ok c ∧ c.id = r.itemId := by
  obtain ⟨key,itemId,name,parentId⟩ := r
  cases hkey : p.idempotencyKey <;> cases reply <;> simp [recordOf,hkey]
  tauto

/-- A call with what is left of its create; its client may have stopped waiting. -/
structure CreateCall where
  params : CreateNodeParams
  rest : Net (Except WorkflowyError CreatedNode)
  waiting : Bool

structure KeyedCreates (T σ : Type) where
  idempotency : IdempotencyStore
  upstream : σ
  calls : KeyMap T CreateCall := ∅

/- Times in milliseconds. A call goes on with its create when it is attended to; what a dropped
   call has in flight may still be served, and it sends no more. `other` is a call of another tool. -/
inductive CreateEvent (T : Type) where
  | begin (t : T) (params : CreateNodeParams) (nowMs : Nat)
  | attend (t : T)
  | returns (t : T) (nowMs : Nat) (iter : IterOrder (String×Nat))
  | drop (t : T)
  | other (q : ApiCall)

namespace KeyedCreates
variable {T σ : Type}

def new (ttlMs maxEntries : Nat) (u : σ) : KeyedCreates T σ where
  idempotency := .new ttlMs maxEntries
  upstream := u

def checked (s : KeyedCreates T σ) (p : CreateNodeParams) (nowMs : Nat) :
    Option IdempotencyHit × IdempotencyStore :=
  match p.idempotencyKey with
  | none => (none,s.idempotency)
  | some key => s.idempotency.check key nowMs

/-- Neither the key nor the layout ends the call before its create is sent. -/
def admits (s : KeyedCreates T σ) (p : CreateNodeParams) (nowMs : Nat) : Bool :=
  (s.checked p nowMs).1.isNone && p.layout.all isValidLayoutMode

section handler
variable (toLowercase : String → String) (srv : Proc.Server Ask Answer σ) (st : σ)
  (server : Server) (maxAttempts : Nat) (s : KeyedCreates T σ) (p : CreateNodeParams) (nowMs : Nat)
  (degradedWarning : Option String)

theorem checked_fst : (s.checked p nowMs).1 =
    p.idempotencyKey.bind fun key => (s.idempotency.check key nowMs).1 := by
  cases hkey : p.idempotencyKey <;> simp [checked,hkey]

/-- The handler over the attempts of its create. -/
def handler : Net (Handled CreateNodeReply) :=
  (Server.createNode toLowercase server p (fun key => (s.idempotency.check key nowMs).1)
    degradedWarning).interp (Client.requestCancellable maxAttempts)

/-- Alone, the handler goes through the create of the call if the call is admitted, and leaves to be
recorded what is recorded when the answer is read. -/
theorem createNode_admitted (hadmits : s.admits p nowMs = true) :
    let r := (handler toLowercase server maxAttempts s p nowMs degradedWarning).run srv st
    let created := (p.create maxAttempts).run srv st
    r.2 = created.2 ∧ r.1.1.toOption.bind (·.recorded) = recordOf p created.1 := by
  simp only [admits,checked_fst,Bool.and_eq_true,Option.isNone_iff_eq_none] at hadmits
  obtain ⟨hmiss,hlayout⟩ := hadmits
  have hvalid : p.layout.filter (fun lm => !isValidLayoutMode lm) = none := by
    cases hlm : p.layout <;> simp_all
  simp only [handler,Proc.run_interp,Server.createNode,hmiss,hvalid,Client.request,Proc.bind_eq,
    Proc.call_bind,Proc.ret_bind,recordOf,CreateNodeParams.create,
    Client.createNodeCancellable,Proc.run_bind,Proc.pure_eq,Proc.run_ret]
  cases hreply : Client.createdNode p.name p.parentId ((Client.requestCancellable maxAttempts
      (.createNode p.name p.description p.parentId p.priority p.layout)).run srv st).1 with
  | error e => cases hkey : p.idempotencyKey <;> simp [hreply,Except.toOption]
  | ok created => cases hkey : p.idempotencyKey <;> simp [hreply,Except.toOption]

theorem createNode_refused (hadmits : s.admits p nowMs = false) :
    let r := (handler toLowercase server maxAttempts s p nowMs degradedWarning).run srv st
    r.2 = st ∧ r.1.1.toOption.bind (·.recorded) = none := by
  simp only [admits,checked_fst] at hadmits
  simp only [handler,Proc.run_interp]
  cases hhit : p.idempotencyKey.bind fun key => (s.idempotency.check key nowMs).1 with
  | some hit =>
    cases hkey : p.idempotencyKey with
    | none => simp [hkey] at hhit
    | some key =>
      have hcheck : (s.idempotency.check key nowMs).1 = some hit := by simpa [hkey] using hhit
      simp [Server.createNode,hkey,hcheck,Except.toOption]
  | none =>
    have hinvalid : ∃ lm, p.layout.filter (fun lm => !isValidLayoutMode lm) = some lm := by
      cases hlm : p.layout <;> simp_all
    obtain ⟨lm,hlm⟩ := hinvalid
    simp [Server.createNode,hhit,hlm,Except.toOption]

end handler

variable [DecidableEq T]

/-- The call whose answer is there to be read. -/
def answered (s : KeyedCreates T σ) (t : T) :
    Option (CreateNodeParams×Except WorkflowyError CreatedNode) :=
  match s.calls.lookup t with
  | some ⟨p,.ret r,true⟩ => some (p,r)
  | _ => none

def step (w : World σ) (maxAttempts : Nat) (s : KeyedCreates T σ) :
    CreateEvent T → KeyedCreates T σ
  | .begin t p nowMs =>
    if (s.calls.lookup t).isSome then s
    else
      let s' := { s with idempotency := (s.checked p nowMs).2 }
      if s.admits p nowMs then
        { s' with calls := s.calls.insert t ⟨p,p.create maxAttempts,true⟩ }
      else s'
  | .attend t =>
    match s.calls.lookup t with
    | some ⟨p,.call _ a k,waiting⟩ =>
      let (r,upstream) := w.serve a s.upstream
      let calls := if waiting then s.calls.insert t ⟨p,k r,true⟩ else s.calls.erase t
      { s with upstream, calls }
    | _ => s
  | .returns t nowMs iter =>
    match s.answered t with
    | none => s
    | some (p,reply) =>
      let s := { s with calls := s.calls.erase t }
      match recordOf p reply with
      | none => s
      | some r => { s with
        idempotency := s.idempotency.record r.key r.itemId r.name r.parentId nowMs iter }
  | .drop t =>
    match s.calls.lookup t with
    | none => s
    | some c => { s with calls := s.calls.insert t { c with waiting := false } }
  | .other q => { s with upstream := (w.serve (.send q) s.upstream).2 }

/-- What an event asks of the store. -/
def storeCall (s : KeyedCreates T σ) : CreateEvent T → Option IdempotencyStore.Call
  | .begin t p nowMs =>
    if (s.calls.lookup t).isSome then none
    else p.idempotencyKey.map fun key => .check key nowMs
  | .returns t nowMs iter => (s.answered t).bind fun r =>
    (recordOf r.1 r.2).map fun r => .record r.key r.itemId r.name r.parentId nowMs iter
  | .attend _ | .drop _ | .other _ => none

/-- The node that an event makes for a call with a key. -/
def made (w : World σ) (key : String) (s : KeyedCreates T σ) : CreateEvent T → Option String
  | .attend t =>
    match s.calls.lookup t with
    | some ⟨p,.call _ a _,_⟩ =>
      if p.idempotencyKey = some key then
        ((w.nodes (w.serve a s.upstream).2)[(w.nodes s.upstream).length]?).map (·.id)
      else none
    | _ => none
  | .begin .. | .returns .. | .drop _ | .other _ => none

section step
variable {w : World σ} {maxAttempts : Nat} {s : KeyedCreates T σ}

theorem answered_eq_some {t : T} {p : CreateNodeParams} {r : Except WorkflowyError CreatedNode} :
    s.answered t = some (p,r) ↔ s.calls.lookup t = some ⟨p,.ret r,true⟩ := by
  unfold answered
  split
  · rename_i p' r' hcall
    simp [hcall]
  · rename_i hno
    refine iff_of_false nofun fun hcall => hno p r hcall

theorem storeCall_record {e : CreateEvent T} {key itemId name : String} {parentId : Option String}
    {nowMs : Nat} {iter : IterOrder (String×Nat)}
    (h : s.storeCall e = some (.record key itemId name parentId nowMs iter)) :
    ∃ t p c, e = .returns t nowMs iter ∧ s.answered t = some (p,.ok c) ∧ c.id = itemId ∧
      p.idempotencyKey = some key ∧ p.name = name ∧ p.parentId = parentId := by
  cases e with
  | begin t p nowMs' =>
    simp only [storeCall] at h
    split at h
    · cases h
    · obtain ⟨_,-,h⟩ := Option.map_eq_some_iff.mp h
      cases h
  | returns t nowMs' iter' =>
    simp only [storeCall,Option.bind_eq_some_iff,Option.map_eq_some_iff] at h
    obtain ⟨⟨p,reply⟩,hread,r,hrec,hcall⟩ := h
    obtain ⟨hkey,hname,hparent,c,rfl,hid⟩ := recordOf_eq_some.mp hrec
    cases hcall
    exact ⟨t,p,c,rfl,hread,hid,hkey,hname,hparent⟩
  | attend t => cases h
  | drop t => cases h
  | other q => cases h

theorem store_step (s : KeyedCreates T σ) (e : CreateEvent T) :
    (step w maxAttempts s e).idempotency =
      Runs.run IdempotencyStore.perform s.idempotency (s.storeCall e).toList := by
  cases e with
  | begin t p nowMs =>
    cases hopen : (s.calls.lookup t).isSome with
    | true => simp [step,storeCall,hopen]
    | false => cases hkey : p.idempotencyKey <;> cases hadmits : s.admits p nowMs <;>
        simp [step,storeCall,checked,hopen,hkey,hadmits,IdempotencyStore.perform]
  | attend t =>
    simp only [step,storeCall]
    split <;> rfl
  | returns t nowMs iter =>
    cases hread : s.answered t with
    | none => simp [step,storeCall,hread]
    | some r => cases hrec : recordOf r.1 r.2 <;>
        simp [step,storeCall,hread,hrec,IdempotencyStore.perform]
  | drop t =>
    simp only [step,storeCall]
    split <;> rfl
  | other q => rfl

theorem store_run (w : World σ) (maxAttempts : Nat) (s : KeyedCreates T σ)
    (es : List (CreateEvent T)) : (Runs.run (step w maxAttempts) s es).idempotency =
      Runs.run IdempotencyStore.perform s.idempotency
        (Runs.outputs (step w maxAttempts) storeCall s es) :=
  Runs.part_run (fun s : KeyedCreates T σ => s.idempotency) store_step s es

/-- A call after a step: it was there, it was admitted, or its create went on. -/
theorem lookup_step {e : CreateEvent T} {t : T} {c : CreateCall}
    (h : (step w maxAttempts s e).calls.lookup t = some c) :
    (∃ w, s.calls.lookup t = some { c with waiting := w } ∧ (c.waiting → w)) ∨
    (∃ p nowMs, e = .begin t p nowMs ∧ s.calls.lookup t = none ∧ s.admits p nowMs ∧
      c = ⟨p,p.create maxAttempts,true⟩) ∨
    ∃ a k, e = .attend t ∧ s.calls.lookup t = some ⟨c.params,.call () a k,true⟩ ∧
      c = ⟨c.params,k (w.serve a s.upstream).1,true⟩ := by
  have hsame (h : s.calls.lookup t = some c) :
      ∃ w, s.calls.lookup t = some { c with waiting := w } ∧ (c.waiting → w) := ⟨c.waiting,h,id⟩
  cases e with
  | begin t' p nowMs =>
    simp only [step] at h
    split at h
    · exact .inl (hsame h)
    · rename_i hopen
      split at h
      · rename_i hadmits
        rw [KeyMap.lookup_insert_ite] at h
        split at h
        · rename_i ht
          subst ht
          exact .inr (.inl ⟨p,nowMs,rfl,by simpa using hopen,hadmits,(Option.some.inj h).symm⟩)
        · exact .inl (hsame h)
      · exact .inl (hsame h)
  | attend t' =>
    simp only [step] at h
    split at h
    · rename_i p fr a k waiting hcall
      cases waiting with
      | true =>
        simp only [if_true,KeyMap.lookup_insert_ite] at h
        split at h
        · rename_i ht
          subst ht
          obtain rfl := Option.some.inj h
          exact .inr (.inr ⟨a,k,rfl,hcall,rfl⟩)
        · exact .inl (hsame h)
      | false =>
        simp only [Bool.false_eq_true,if_false,KeyMap.lookup_erase_ite] at h
        split at h
        · cases h
        · exact .inl (hsame h)
    · exact .inl (hsame h)
  | returns t' nowMs iter =>
    simp only [step] at h
    split at h
    · exact .inl (hsame h)
    · have herase : (s.calls.erase t').lookup t = some c := by
        split at h <;> exact h
      rw [KeyMap.lookup_erase_ite] at herase
      split at herase
      · cases herase
      · exact .inl (hsame herase)
  | drop t' =>
    simp only [step] at h
    split at h
    · exact .inl (hsame h)
    · rename_i c' hcall
      rw [KeyMap.lookup_insert_ite] at h
      split at h
      · rename_i ht
        subst ht
        obtain rfl := Option.some.inj h
        exact .inl ⟨c'.waiting,hcall,nofun⟩
      · exact .inl (hsame h)
  | other q => exact .inl (hsame h)

end step

section creating
variable {w : World σ} {name : String} {description parentId : Option String}
  {priority : Option Int} {layout : Option String} {n : Nat} {a : Ask}
  {k : Answer a → Net (Except WorkflowyError CreatedNode)} {s : σ}

/-- A create that goes on either may still fail or has just heard the id of its node. -/
theorem creating_next (h : Creating name description parentId priority layout n (.call () a k))
    (w : World σ) (s : σ) :
    (∃ m, Creating name description parentId priority layout m (k (w.serve a s).1)) ∨
    ∃ id, a = .send (.createNode name description parentId priority layout) ∧
      (w.serve (.send (.createNode name description parentId priority layout)) s).1 = .ok (some id) ∧
      k (w.serve a s).1 = .ret (.ok ⟨id,name,parentId⟩) := by
  cases h with
  | quiet ha h => exact .inl ⟨n,h _⟩
  | @send m k heard unheard =>
    by_cases hid : ∃ id, (w.serve (.send (.createNode name description parentId priority layout))
        s).1 = .ok (some id)
    · obtain ⟨id,hid⟩ := hid
      exact .inr ⟨id,rfl,hid,by rw [hid]; exact heard id⟩
    · exact .inl ⟨m,unheard _ fun id h => hid ⟨id,h⟩⟩

theorem creating_ne_ok {p : Net (Except WorkflowyError CreatedNode)}
    (h : Creating name description parentId priority layout n p) (c : CreatedNode) :
    p≠.ret (.ok c) := by
  rintro rfl
  cases h

/-- A node that a create makes and that it hears of is the one it returns. -/
theorem creating_landed (h : Creating name description parentId priority layout n (.call () a k))
    (hlanded : w.landed a s = true) (hheard : w.unheard a s = false) :
    ∃ id, k (w.serve a s).1 = .ret (.ok ⟨id,name,parentId⟩) := by
  cases h with
  | quiet ha h => simp [World.landed,w.quiet a s ha] at hlanded
  | @send m k heard unheard =>
    rcases hreply : (w.serve (.send (.createNode name description parentId priority layout)) s).1
      with e | _ | id
    · simp [World.unheard,hreply,hlanded] at hheard
    · simp [World.unheard,hreply,hlanded] at hheard
    · exact ⟨id,heard id⟩

end creating

/-- What is left of a call's create goes on, or is the answer that tells its node. -/
def Sound (s : KeyedCreates T σ) : Prop :=
  ∀ t c, s.calls.lookup t = some c → (∃ n, c.params.Creating n c.rest) ∨
    ∃ id, c.rest = .ret (.ok ⟨id,c.params.name,c.params.parentId⟩)

section sound
variable {w : World σ} {maxAttempts : Nat} {s : KeyedCreates T σ}

theorem sound_new (ttlMs maxEntries : Nat) (u : σ) :
    (new ttlMs maxEntries u : KeyedCreates T σ).Sound := fun _ _ h => nomatch h

/-- A call that goes on still may create. -/
theorem Sound.creating (hs : s.Sound) {t : T} {p : CreateNodeParams} {a : Ask}
    {k : Answer a → Net (Except WorkflowyError CreatedNode)} {waiting : Bool}
    (h : s.calls.lookup t = some ⟨p,.call () a k,waiting⟩) :
    ∃ n, p.Creating n (.call () a k) := by
  rcases hs t _ h with hcreating | ⟨id,hret⟩
  · exact hcreating
  · cases hret

theorem Sound.step (hs : s.Sound) (e : CreateEvent T) : (step w maxAttempts s e).Sound := by
  intro t c h
  rcases lookup_step h with ⟨waiting,hcall,-⟩ | ⟨p,nowMs,-,-,-,rfl⟩ | ⟨a,k,rfl,hcall,hc⟩
  · exact hs t ⟨c.params,c.rest,waiting⟩ hcall
  · exact .inl ⟨_,creating_createNodeCancellable maxAttempts _ _ _ _ _⟩
  · obtain ⟨n,hcreating⟩ := hs.creating hcall
    rw [hc]
    rcases creating_next hcreating w s.upstream with hnext | ⟨id,-,-,hret⟩
    · exact .inl hnext
    · exact .inr ⟨id,hret⟩

variable (w maxAttempts) in
theorem sound_run (ttlMs maxEntries : Nat) (u : σ) (es : List (CreateEvent T)) :
    (Runs.run (KeyedCreates.step w maxAttempts) (new ttlMs maxEntries u) es).Sound :=
  Runs.run_keeps (I := Sound) (fun _ e hs => hs.step e) (sound_new ttlMs maxEntries u) es

end sound

/-- The pending create of `t` is served: the upstream makes its node under this id and says so. -/
structure Tells (w : World σ) (s : KeyedCreates T σ) (t : T) (p : CreateNodeParams) (id : String) :
    Prop where
  pending : ∃ k, s.calls.lookup t = some ⟨p,.call () (.send p.call) k,true⟩
  reply : (w.serve (.send p.call) s.upstream).1 = .ok (some id)
  nodes : w.nodes (w.serve (.send p.call) s.upstream).2 = w.nodes s.upstream++[p.node id]

theorem world_nodes {w : World σ} {p : CreateNodeParams} {u : σ} {id : String}
    (h : (w.serve (.send p.call) u).1 = .ok (some id)) :
    w.nodes (w.serve (.send p.call) u).2 = w.nodes u++[p.node id] := by
  rcases w.create p.name p.description p.parentId p.priority p.layout u with
    ⟨-,hno⟩ | ⟨id',-,-,hnodes,hid⟩
  · exact absurd h (hno id)
  · obtain rfl := hid id h
    exact hnodes

/-- A call that is about to return a node was told of it in the run, and has waited since to have the
answer read. -/
theorem told_run (w : World σ) (maxAttempts : Nat) {ttlMs maxEntries : Nat} {u : σ}
    {es : List (CreateEvent T)} {t : T} {p : CreateNodeParams} {c : CreatedNode}
    (h : (Runs.run (step w maxAttempts) (new ttlMs maxEntries u) es).calls.lookup t =
      some ⟨p,.ret (.ok c),true⟩) :
    ∃ pre between, es = pre++.attend t::between ∧
      Tells w (Runs.run (step w maxAttempts) (new (T := T) ttlMs maxEntries u) pre) t p c.id ∧
      Runs.Always (step w maxAttempts) (fun s => s.answered t = some (p,.ok c))
        (Runs.run (step w maxAttempts) (new ttlMs maxEntries u) (pre++[.attend t])) between := by
  induction es using List.reverseRecOn with
  | nil => cases h
  | append_singleton es e ih =>
    have hlast := h
    rw [Runs.run_concat] at h
    rcases lookup_step h with ⟨waiting,hcall,hw⟩ | ⟨p',nowMs,-,-,-,hc⟩ | ⟨a,k,rfl,hcall,hc⟩
    · obtain rfl : waiting = true := hw rfl
      obtain ⟨pre,between,rfl,htells,halways⟩ := ih hcall
      refine ⟨pre,between++[e],by simp,htells,?_⟩
      intro mid hmid
      rcases List.prefix_concat_iff.mp hmid with rfl | hmid
      · rw [← Runs.run_append]
        refine answered_eq_some.mpr ?_
        simpa using hlast
      · exact halways mid hmid
    · have hrest := congrArg CreateCall.rest hc
      cases hrest
    · have hs := sound_run w maxAttempts ttlMs maxEntries u es
      obtain ⟨n,hcreating⟩ := hs.creating hcall
      have hk := congrArg CreateCall.rest hc
      rcases creating_next hcreating w
        (Runs.run (step w maxAttempts) (new (T := T) ttlMs maxEntries u) es).upstream with
          ⟨m,hnext⟩ | ⟨id,rfl,hreply,hret⟩
      · exact absurd hk.symm (creating_ne_ok hnext c)
      · obtain rfl : c = ⟨id,p.name,p.parentId⟩ := by
          rw [hret] at hk
          exact Except.ok.inj (Proc.ret.inj hk)
        refine ⟨es,[],rfl,⟨⟨k,hcall⟩,hreply,world_nodes hreply⟩,?_⟩
        intro mid hmid
        obtain rfl := List.prefix_nil.mp hmid
        exact answered_eq_some.mpr (by simpa [Runs.run_concat] using h)

def recordedKeys (w : World σ) (maxAttempts : Nat) (s : KeyedCreates T σ)
    (es : List (CreateEvent T)) : List String :=
  (Runs.outputs (step w maxAttempts) storeCall s es).filterMap IdempotencyStore.Call.recorded

/-- A key that is held was recorded, and not again since. -/
theorem recorded_of_lookup {ttlMs maxEntries : Nat} {calls : List IdempotencyStore.Call}
    {key : String} {e : IdempotencyEntry}
    (h : (Runs.run IdempotencyStore.perform (.new ttlMs maxEntries) calls).inner.lookup key = some e) :
    ∃ pre iter post, calls = pre++.record key e.itemId e.name e.parentId e.recordedUnixMs iter::post ∧
      key∉post.filterMap IdempotencyStore.Call.recorded := by
  induction calls using List.reverseRecOn generalizing e with
  | nil => cases h
  | append_singleton calls c ih =>
    rw [Runs.run_concat] at h
    generalize Runs.run IdempotencyStore.perform (.new ttlMs maxEntries) calls = s at h ih
    have hold (h : s.inner.lookup key = some e) (hc : c.recorded≠some key) :
        ∃ pre iter post, calls++[c] =
          pre++.record key e.itemId e.name e.parentId e.recordedUnixMs iter::post ∧
            key∉post.filterMap IdempotencyStore.Call.recorded := by
      obtain ⟨pre,iter,post,rfl,hpost⟩ := ih h
      refine ⟨pre,iter,post++[c],by simp,?_⟩
      rw [List.filterMap_append,List.mem_append,not_or]
      exact ⟨hpost,by simpa using hc⟩
    cases c with
    | check key' nowMs =>
      simp only [IdempotencyStore.perform,IdempotencyStore.check,IdempotencyStore.pruneExpired,
        KeyMap.lookup_retain,Option.filter_eq_some_iff] at h
      exact hold h.1 (Option.some_ne_none _).symm
    | record key' itemId name parentId nowMs iter =>
      have hmap := IdempotencyStore.lookup_enforceCap iter h
      simp only [IdempotencyStore.pruneExpired,KeyMap.lookup_retain,KeyMap.lookup_insert_ite,
        Option.filter_eq_some_iff] at hmap
      obtain ⟨hmap,-⟩ := hmap
      split at hmap
      · rename_i hkey
        subst hkey
        obtain rfl := Option.some.inj hmap
        exact ⟨calls,iter,[],rfl,by simp⟩
      · rename_i hkey
        exact hold hmap fun hrec => hkey (Option.some.inj hrec).symm

/-- In every interleaving a replay sends nothing, and it names the node of the last create with its
key whose answer was read: that call had its create served, was told this node, which the upstream
made for it with that name in that place, waited, and recorded the key when it returned. -/
theorem replay_truthful (w : World σ) (maxAttempts : Nat) {ttlMs maxEntries : Nat} {u : σ}
    {es : List (CreateEvent T)} {t : T} {p : CreateNodeParams} {nowMs : Nat} {key : String}
    {hit : IdempotencyHit} (hkey : p.idempotencyKey = some key)
    (hhit : ((Runs.run (step w maxAttempts) (new (T := T) ttlMs maxEntries u) es).checked p
      nowMs).1 = some hit) :
    let start : KeyedCreates T σ := new ttlMs maxEntries u
    let after (es : List (CreateEvent T)) := Runs.run (step w maxAttempts) start es
    (step w maxAttempts (after es) (.begin t p nowMs)).upstream = (after es).upstream ∧
    (step w maxAttempts (after es) (.begin t p nowMs)).calls = (after es).calls ∧
    hit.ageMs < ttlMs ∧
    ∃ (p' : CreateNodeParams) (pre between post : List (CreateEvent T)) (caller : T)
      (recordedMs : Nat) (iter : IterOrder (String×Nat)),
      es = (pre++.attend caller::between)++.returns caller recordedMs iter::post ∧
      p'.idempotencyKey = some key ∧ p'.name = hit.name ∧ p'.parentId = hit.parentId ∧
      Tells w (after pre) caller p' hit.itemId ∧
      Runs.Always (step w maxAttempts)
        (fun s => s.answered caller = some (p',.ok ⟨hit.itemId,p'.name,p'.parentId⟩))
        (after (pre++[.attend caller])) between ∧
      (after (pre++.attend caller::between)).storeCall (.returns caller recordedMs iter) =
        some (.record key hit.itemId hit.name hit.parentId recordedMs iter) ∧
      hit.ageMs = nowMs-recordedMs ∧
      key∉recordedKeys w maxAttempts
        (after (pre++.attend caller::between++[.returns caller recordedMs iter])) post := by
  intro start after
  have hadmits : (after es).admits p nowMs = false := by simp [admits,after,start,hhit]
  have hbegin : (step w maxAttempts (after es) (.begin t p nowMs)).upstream = (after es).upstream ∧
      (step w maxAttempts (after es) (.begin t p nowMs)).calls = (after es).calls := by
    simp only [step,hadmits]
    split <;> exact ⟨rfl,rfl⟩
  have hcheck : ((after es).idempotency.check key nowMs).1 = some hit := by
    simpa [checked,hkey] using hhit
  have hstore := store_run w maxAttempts start es
  have hage : hit.ageMs < ttlMs := by
    have hage := IdempotencyStore.check_ageMs hcheck
    rwa [hstore,IdempotencyStore.run_ttlMs] at hage
  refine ⟨hbegin.1,hbegin.2,hage,?_⟩
  simp only [IdempotencyStore.check,IdempotencyStore.pruneExpired,KeyMap.lookup_retain,
    Option.map_eq_some_iff,Option.filter_eq_some_iff] at hcheck
  obtain ⟨entry,⟨hheld,-⟩,rfl⟩ := hcheck
  rw [hstore] at hheld
  obtain ⟨calls,iter,later,hcalls,hlater⟩ := recorded_of_lookup hheld
  obtain ⟨before,e,post,rfl,hrecord,-,rfl⟩ := Runs.outputs_split hcalls
  obtain ⟨caller,p',c,rfl,hread,hid,hkey',hname,hparent⟩ := storeCall_record hrecord
  obtain ⟨pre,between,rfl,htells,halways⟩ :=
    told_run w maxAttempts (answered_eq_some.mp hread)
  have hnot : ¬∃ n, p'.Creating n (.ret (.ok c)) := by
    rintro ⟨n,h⟩
    exact creating_ne_ok h c rfl
  obtain ⟨id,hret⟩ := (sound_run w maxAttempts ttlMs maxEntries u _ caller _
    (answered_eq_some.mp hread)).resolve_left hnot
  obtain rfl : c = ⟨id,p'.name,p'.parentId⟩ := Except.ok.inj (Proc.ret.inj hret)
  obtain rfl : id = entry.itemId := hid
  exact ⟨p',pre,between,post,caller,_,_,rfl,hkey',hname,hparent,htells,halways,hrecord,rfl,hlater⟩

/-- A call with the key whose client waits. -/
def Waits (s : KeyedCreates T σ) (key : String) (t : T) (c : CreateCall) : Prop :=
  s.calls.lookup t = some c ∧ c.waiting = true ∧ c.params.idempotencyKey = some key

/-- An attempt makes a node for the key, but nobody waits for it, or its answer does not tell the
node. The funnel may then send the create again. -/
def strays (w : World σ) (key : String) (s : KeyedCreates T σ) (t : T) : Bool :=
  match s.calls.lookup t with
  | some ⟨p,.call _ a _,waiting⟩ =>
    p.idempotencyKey = some key && w.landed a s.upstream && (!waiting || w.unheard a s.upstream)
  | _ => false

/-- A call with the key begins only when nobody waits for another one, and of an attempt that makes
a node for the key the answer is heard, and read. -/
def Careful (w : World σ) (key : String) (s : KeyedCreates T σ) : CreateEvent T → Prop
  | .begin _ p _ => p.idempotencyKey = some key → ∀ t c, ¬s.Waits key t c
  | .attend t => s.strays w key t = false
  | .drop t => ∀ p c, s.answered t = some (p,.ok c) → p.idempotencyKey ≠ some key
  | .returns .. | .other _ => True

instance (w : World σ) (key : String) (s : KeyedCreates T σ) (t : T) :
    Decidable (Careful w key s (.attend t)) :=
  inferInstanceAs (Decidable (s.strays w key t = false))

section once
variable {w : World σ} {maxAttempts : Nat} {s : KeyedCreates T σ} {key : String}

theorem waits_step {e : CreateEvent T} {t : T} {c : CreateCall}
    (h : (step w maxAttempts s e).Waits key t c) :
    s.Waits key t c ∨
    (∃ p nowMs, e = .begin t p nowMs ∧ s.calls.lookup t = none ∧ s.admits p nowMs ∧
      c = ⟨p,p.create maxAttempts,true⟩) ∨
    ∃ a k, e = .attend t ∧ s.Waits key t ⟨c.params,.call () a k,true⟩ ∧
      c.rest = k (w.serve a s.upstream).1 := by
  obtain ⟨hopen,hwaiting,hkey⟩ := h
  rcases lookup_step hopen with ⟨waiting,hcall,hw⟩ | hbegin | ⟨a,k,he,hcall,hc⟩
  · obtain rfl : waiting = c.waiting := (hw hwaiting).trans hwaiting.symm
    exact .inl ⟨hcall,hwaiting,hkey⟩
  · exact .inr (.inl hbegin)
  · exact .inr (.inr ⟨a,k,he,⟨hcall,rfl,hkey⟩,congrArg CreateCall.rest hc⟩)

theorem made_eq_some {e : CreateEvent T} {id : String} (h : made w key s e = some id) :
    ∃ t p a k waiting, e = .attend t ∧ s.calls.lookup t = some ⟨p,.call () a k,waiting⟩ ∧
      p.idempotencyKey = some key ∧ w.landed a s.upstream = true := by
  cases e with
  | attend t =>
    simp only [made] at h
    split at h
    · rename_i p fr a k waiting hcall
      split at h
      · rename_i hkey
        obtain ⟨n,hn,-⟩ := Option.map_eq_some_iff.mp h
        obtain ⟨hlt,-⟩ := List.getElem?_eq_some_iff.mp hn
        exact ⟨t,p,a,k,waiting,rfl,hcall,hkey,by simpa [World.landed] using hlt.ne'⟩
      · cases h
    · cases h
  | begin t p nowMs => cases h
  | returns t nowMs iter => cases h
  | drop t => cases h
  | other q => cases h

/-- Whoever is told a node has made it. -/
theorem made_of_told {t : T} {p : CreateNodeParams} {id : String}
    {k : Answer (.send p.call) → Net (Except WorkflowyError CreatedNode)} {waiting : Bool}
    (hcall : s.calls.lookup t = some ⟨p,.call () (.send p.call) k,waiting⟩)
    (hkey : p.idempotencyKey = some key)
    (hreply : (w.serve (.send p.call) s.upstream).1 = .ok (some id)) :
    made w key s (.attend t) = some id := by
  simp only [made,hcall,if_pos hkey,world_nodes hreply,List.getElem?_concat_length,Option.map_some]
  rfl

/-- A call that was made a node waits until it is recorded. -/
theorem waits_kept {e : CreateEvent T} {t : T} {c : CreateCall} {node : CreatedNode}
    (h : s.Waits key t c) (hrest : c.rest = .ret (.ok node)) (hcareful : s.Careful w key e) :
    (step w maxAttempts s e).Waits key t c ∨
      ∃ call, s.storeCall e = some call ∧ call.recorded = some key := by
  obtain ⟨hopen,hwaiting,hkey⟩ := h
  obtain ⟨p,rest,waiting⟩ := c
  obtain rfl : waiting = true := hwaiting
  obtain rfl : rest = .ret (.ok node) := hrest
  have hkept {s' : KeyedCreates T σ} (h : s'.calls.lookup t = some ⟨p,.ret (.ok node),true⟩) :
      s'.Waits key t ⟨p,.ret (.ok node),true⟩ := ⟨h,rfl,hkey⟩
  have hread := answered_eq_some.mpr hopen
  cases e with
  | begin t' p' nowMs =>
    refine .inl (hkept ?_)
    simp only [step]
    split
    · exact hopen
    · rename_i hnew
      split
      · have hne : t≠t' := fun ht => hnew (by rw [← ht,hopen]; rfl)
        simp [hne,hopen]
      · exact hopen
  | attend t' =>
    refine .inl (hkept ?_)
    simp only [step]
    split
    · rename_i p' fr a k waiting hcall
      have hne : t≠t' := by
        rintro rfl
        rw [hopen] at hcall
        cases hcall
      cases waiting <;> simp [hne,hopen]
    · exact hopen
  | returns t' nowMs iter =>
    by_cases ht : t = t'
    · subst ht
      have hrec : recordOf p (.ok node) = some ⟨key,node.id,p.name,p.parentId⟩ :=
        recordOf_eq_some.mpr ⟨hkey,rfl,rfl,node,rfl,rfl⟩
      exact .inr ⟨.record key node.id p.name p.parentId nowMs iter,
        by simp only [storeCall,hread,Option.bind_some,hrec,Option.map_some],rfl⟩
    · refine .inl (hkept ?_)
      simp only [step]
      split
      · exact hopen
      · split <;> simp [ht,hopen]
  | drop t' =>
    refine .inl (hkept ?_)
    have hne : t≠t' := by
      rintro rfl
      exact hcareful p node hread hkey
    simp only [step]
    split
    · exact hopen
    · simp [hne,hopen]
  | other q => exact .inl (hkept hopen)

/-- At most one client waits with the key, and its call was not made a node. -/
structure Unmade (s : KeyedCreates T σ) (key : String) : Prop where
  unmade : ∀ t c node, s.Waits key t c → c.rest≠.ret (.ok node)
  single : ∀ t t' c c', s.Waits key t c → s.Waits key t' c' → t = t'

/-- Whoever waits with the key was made a node, and somebody waits or the key was recorded. -/
structure Made (s : KeyedCreates T σ) (key : String) (recorded : List String) : Prop where
  owned : ∀ t c, s.Waits key t c → ∃ node, c.rest = .ret (.ok node)
  owner : (∃ t c, s.Waits key t c) ∨ key∈recorded

theorem unmade_step {e : CreateEvent T} (hs : s.Sound) (h : s.Unmade key)
    (hcareful : s.Careful w key e) (hmade : made w key s e = none) :
    (step w maxAttempts s e).Unmade key where
  unmade t c node hwaits hrest := by
    rcases waits_step hwaits with hold | ⟨p,nowMs,-,-,-,rfl⟩ | ⟨a,k,rfl,hold,hserved⟩
    · exact h.unmade t c node hold hrest
    · cases hrest
    · obtain ⟨n,hcreating⟩ := hs.creating hold.1
      rcases creating_next hcreating w s.upstream with ⟨m,hnext⟩ | ⟨id,rfl,hreply,-⟩
      · exact creating_ne_ok hnext node (hserved.symm.trans hrest)
      · rw [made_of_told hold.1 hold.2.2 hreply] at hmade
        cases hmade
  single t t' c c' hwaits hwaits' := by
    have hthere {t : T} {c : CreateCall} (hwaits : (step w maxAttempts s e).Waits key t c) :
        (∃ c, s.Waits key t c) ∨ ∃ p nowMs, e = .begin t p nowMs ∧ ∀ t c, ¬s.Waits key t c := by
      rcases waits_step hwaits with hold | ⟨p,nowMs,rfl,-,-,rfl⟩ | ⟨a,k,rfl,hold,-⟩
      · exact .inl ⟨c,hold⟩
      · exact .inr ⟨p,nowMs,rfl,hcareful hwaits.2.2⟩
      · exact .inl ⟨_,hold⟩
    rcases hthere hwaits with ⟨c,hold⟩ | ⟨p,nowMs,rfl,hno⟩
    · rcases hthere hwaits' with ⟨c',hold'⟩ | ⟨p,nowMs,rfl,hno⟩
      · exact h.single t t' c c' hold hold'
      · exact absurd hold (hno t c)
    · rcases hthere hwaits' with ⟨c',hold'⟩ | ⟨p',nowMs',he,-⟩
      · exact absurd hold' (hno t' c')
      · injection he

theorem heard_of_careful {t : T} {p : CreateNodeParams} {a : Ask}
    {k : Answer a → Net (Except WorkflowyError CreatedNode)} {waiting : Bool}
    (hcareful : s.Careful w key (.attend t))
    (hcall : s.calls.lookup t = some ⟨p,.call () a k,waiting⟩) (hkey : p.idempotencyKey = some key)
    (hlanded : w.landed a s.upstream = true) :
    waiting = true ∧ w.unheard a s.upstream = false := by
  have hstrays : s.strays w key t = false := hcareful
  simpa [strays,hcall,hkey,hlanded] using hstrays

theorem made_of_unmade {e : CreateEvent T} {id : String} (hs : s.Sound) (h : s.Unmade key)
    (hcareful : s.Careful w key e) (hmade : made w key s e = some id) (recorded : List String) :
    (step w maxAttempts s e).Made key recorded := by
  obtain ⟨t,p,a,k,waiting,rfl,hcall,hkey,hlanded⟩ := made_eq_some hmade
  obtain ⟨rfl,hheard⟩ := heard_of_careful hcareful hcall hkey hlanded
  obtain ⟨n,hcreating⟩ := hs.creating hcall
  obtain ⟨id,hret⟩ := creating_landed hcreating hlanded hheard
  have hafter : (step w maxAttempts s (.attend t)).calls.lookup t =
      some ⟨p,.ret (.ok ⟨id,p.name,p.parentId⟩),true⟩ := by
    simp only [step,hcall,if_true,KeyMap.lookup_insert_ite,hret]
  refine ⟨fun t' c hwaits => ?_,.inl ⟨t,_,hafter,rfl,hkey⟩⟩
  have ht : t = t' := by
    rcases waits_step hwaits with hold | ⟨p',nowMs,he,-⟩ | ⟨a',k',he,-⟩
    · exact h.single t t' _ c ⟨hcall,rfl,hkey⟩ hold
    · cases he
    · cases he
      rfl
  subst ht
  rw [hwaits.1] at hafter
  exact ⟨_,congrArg CreateCall.rest (Option.some.inj hafter)⟩

/-- A second node would be made for a call that begins after the first was recorded. -/
theorem made_step {e : CreateEvent T} {recorded : List String} (h : s.Made key recorded)
    (hcareful : s.Careful w key e)
    (hrefused : ∀ t p nowMs, e = .begin t p nowMs → p.idempotencyKey = some key →
      s.calls.lookup t = none → key∈recorded → s.admits p nowMs = false) :
    made w key s e = none ∧ (step w maxAttempts s e).Made key
      (recorded++(s.storeCall e).toList.filterMap IdempotencyStore.Call.recorded) := by
  have hdone {t : T} {p : CreateNodeParams} {a : Ask}
      {k : Answer a → Net (Except WorkflowyError CreatedNode)}
      (hwaits : s.Waits key t ⟨p,.call () a k,true⟩) : False := by
    obtain ⟨node,hrest⟩ := h.owned t _ hwaits
    cases hrest
  refine ⟨?_,fun t c hwaits => ?_,?_⟩
  · by_contra hsome
    obtain ⟨id,hid⟩ := Option.ne_none_iff_exists'.mp hsome
    obtain ⟨t,p,a,k,waiting,rfl,hcall,hkey,hlanded⟩ := made_eq_some hid
    obtain ⟨rfl,-⟩ := heard_of_careful hcareful hcall hkey hlanded
    exact hdone ⟨hcall,rfl,hkey⟩
  · rcases waits_step hwaits with hold | ⟨p,nowMs,rfl,hnew,hadmits,rfl⟩ | ⟨a,k,rfl,hold,-⟩
    · exact h.owned t c hold
    · have hno := hcareful hwaits.2.2
      have hrec := h.owner.resolve_left fun ⟨t,c,hold⟩ => hno t c hold
      rw [hrefused t p nowMs rfl hwaits.2.2 hnew hrec] at hadmits
      cases hadmits
    · exact (hdone hold).elim
  · rcases h.owner with ⟨t,c,hwaits⟩ | hrec
    · obtain ⟨node,hrest⟩ := h.owned t c hwaits
      rcases waits_kept hwaits hrest hcareful with hkept | ⟨call,hcall,hkey⟩
      · exact .inl ⟨t,c,hkept⟩
      · exact .inr (List.mem_append_right _ (by simp [hcall,hkey]))
    · exact .inr (List.mem_append_left _ hrec)

theorem last_record {calls : List IdempotencyStore.Call}
    (h : key∈calls.filterMap IdempotencyStore.Call.recorded) :
    ∃ pre itemId name parentId t iter post,
      calls = pre++.record key itemId name parentId t iter::post ∧
        key∉post.filterMap IdempotencyStore.Call.recorded := by
  induction calls using List.reverseRecOn with
  | nil => cases h
  | append_singleton calls c ih =>
    by_cases hc : c.recorded = some key
    · cases c with
      | check key' nowMs => cases hc
      | record key' itemId name parentId nowMs iter =>
        obtain rfl := Option.some.inj hc
        exact ⟨calls,itemId,name,parentId,nowMs,iter,[],rfl,by simp⟩
    · rw [List.filterMap_append,List.mem_append] at h
      obtain ⟨pre,itemId,name,parentId,t,iter,post,rfl,hpost⟩ :=
        ih (h.resolve_right (by simpa using hc))
      refine ⟨pre,itemId,name,parentId,t,iter,post++[c],by simp,?_⟩
      rw [List.filterMap_append,List.mem_append,not_or]
      exact ⟨hpost,by simpa using hc⟩

end once

def keyedParams : CreateNodeParams := { name := "a", idempotencyKey := some "k" }

/-- A create that is answered: the sixth thing its call asks is the request itself. -/
def keyedRun : List (CreateEvent Nat) :=
  .begin 0 keyedParams 5::List.replicate 6 (.attend 0)++[.returns 0 6 IdempotencyStore.asStored]

theorem replay_truthful_keyedRun : ∃ hit, ((Runs.run (step (Service.reliable.world {})
    RETRY_MAX_ATTEMPTS) (new 1000 8 ⟨[],0⟩) keyedRun).checked keyedParams 7).1 = some hit ∧
      hit.itemId = "n" ∧ hit.ageMs < 1000 := by
  have hhit : ((Runs.run (step (Service.reliable.world {}) RETRY_MAX_ATTEMPTS)
      (new (T := Nat) 1000 8 ⟨[],0⟩) keyedRun).checked keyedParams 7).1 =
        some ⟨"n","a",none,1⟩ := by decide
  exact ⟨_,hhit,rfl,(replay_truthful (Service.reliable.world {}) RETRY_MAX_ATTEMPTS (t := 1) rfl
    hhit).2.2.1⟩

section window
variable {w : World σ} {maxAttempts ttlMs maxEntries start : Nat} {key : String}
  {before window : List (CreateEvent T)} {u : σ}

/-- A window of a run in which what is recorded of `key` is kept: the clock does not go back, the
window is no longer than an entry lives, fewer other keys are recorded in it than the store holds,
and each eviction has one oldest entry. -/
structure Retains (w : World σ) (maxAttempts ttlMs maxEntries : Nat) (u : σ) (key : String)
    (start : Nat) (before window : List (CreateEvent T)) : Prop where
  clock : ((Runs.outputs (step w maxAttempts) storeCall (new ttlMs maxEntries u) (before++window)).map
    IdempotencyStore.Call.nowMs).Pairwise (·≤·)
  untied : Runs.Meets IdempotencyStore.perform IdempotencyStore.Untied (.new ttlMs maxEntries)
    (Runs.outputs (step w maxAttempts) storeCall (new ttlMs maxEntries u) (before++window))
  times : ∀ c∈Runs.outputs (step w maxAttempts) storeCall
      (Runs.run (step w maxAttempts) (new ttlMs maxEntries u) before) window,
    start ≤ c.nowMs ∧ c.nowMs < start+ttlMs
  few : ((recordedKeys w maxAttempts (Runs.run (step w maxAttempts) (new ttlMs maxEntries u) before)
    window).toFinset.erase key).card < maxEntries

theorem Retains.of_concat {e : CreateEvent T}
    (h : Retains w maxAttempts ttlMs maxEntries u key start before (window++[e])) :
    Retains w maxAttempts ttlMs maxEntries u key start before window := by
  obtain ⟨hclock,huntied,htimes,hfew⟩ := h
  rw [← List.append_assoc,Runs.outputs_append] at hclock huntied
  refine ⟨?_,(Runs.meets_append.mp huntied).1,fun c hc => htimes c ?_,lt_of_le_of_lt ?_ hfew⟩
  · rw [List.map_append] at hclock
    exact (List.pairwise_append.mp hclock).1
  · rw [Runs.outputs_append]
    exact List.mem_append_left _ hc
  · refine Finset.card_le_card (Finset.erase_subset_erase key fun j hj => ?_)
    rw [List.mem_toFinset] at hj ⊢
    rw [recordedKeys,Runs.outputs_append,List.filterMap_append]
    exact List.mem_append_left _ hj

/-- Once the key is recorded in the window, no call with it is admitted there. -/
theorem Retains.refused {t : T} {p : CreateNodeParams} {nowMs : Nat}
    (h : Retains w maxAttempts ttlMs maxEntries u key start before (window++[.begin t p nowMs]))
    (hkey : p.idempotencyKey = some key)
    (hnew : (Runs.run (step w maxAttempts) (new ttlMs maxEntries u)
      (before++window)).calls.lookup t = none)
    (hrec : key∈recordedKeys w maxAttempts
      (Runs.run (step w maxAttempts) (new ttlMs maxEntries u) before) window) :
    (Runs.run (step w maxAttempts) (new (T := T) ttlMs maxEntries u) (before++window)).admits p
      nowMs = false := by
  have hcall : storeCall (Runs.run (step w maxAttempts) (new ttlMs maxEntries u) (before++window))
      (.begin t p nowMs) = some (.check key nowMs) := by simp [storeCall,hnew,hkey]
  have hout : Runs.outputs (step w maxAttempts) storeCall
      (Runs.run (step w maxAttempts) (new ttlMs maxEntries u) (before++window)) [.begin t p nowMs] =
        [.check key nowMs] := by simp [Runs.outputs,hcall]
  obtain ⟨pre,itemId,name,parentId,recordedMs,iter,post,hsplit,hpost⟩ := last_record hrec
  have hclock := h.clock
  rw [← List.append_assoc,Runs.outputs_append,hout,List.map_append] at hclock
  have htimes := h.times
  rw [Runs.outputs_append,← Runs.run_append,hout,hsplit] at htimes
  have hstart := htimes (.record key itemId name parentId recordedMs iter) (by simp)
  have hend := htimes (.check key nowMs) (by simp)
  simp only [IdempotencyStore.Call.nowMs] at hstart hend
  have httl : 0 < ttlMs := by omega
  have hremembers : IdempotencyStore.Remembers (.new ttlMs maxEntries)
      (Runs.outputs (step w maxAttempts) storeCall (new ttlMs maxEntries u) (before++window)) nowMs :=
    IdempotencyStore.check_run httl hclock h.of_concat.untied
  rw [Runs.outputs_append,hsplit] at hremembers
  have hfew : (post.filterMap IdempotencyStore.Call.recorded).toFinset.card < maxEntries := by
    refine lt_of_le_of_lt (Finset.card_le_card fun j hj => ?_) h.of_concat.few
    rw [recordedKeys,hsplit,Finset.mem_erase,List.mem_toFinset]
    rw [List.mem_toFinset] at hj
    refine ⟨fun hjk => hpost (hjk ▸ hj),?_⟩
    rw [List.filterMap_append,List.mem_append]
    exact .inr (List.mem_cons_of_mem _ hj)
  have hhit := hremembers _ key itemId name parentId recordedMs iter post
    (List.append_assoc _ _ _).symm (by simp only [IdempotencyStore.new]; omega) hpost hfew
  have hstore := store_run w maxAttempts (new (T := T) ttlMs maxEntries u) (before++window)
  rw [Runs.outputs_append,hsplit] at hstore
  have hempty : (new (T := T) ttlMs maxEntries u).idempotency = .new ttlMs maxEntries := rfl
  rw [hempty] at hstore
  rw [← hstore] at hhit
  simp [admits,checked,hkey,hhit]

/-- In every interleaving, where nobody waits with a key at first and its calls are careful, at most
one node is made for it while it is retained. -/
theorem created_once
    (hretains : Retains w maxAttempts ttlMs maxEntries u key start before window)
    (hfree : ∀ t c, ¬(Runs.run (step w maxAttempts) (new (T := T) ttlMs maxEntries u)
      before).Waits key t c)
    (hcareful : Runs.Meets (step w maxAttempts) (Careful w key)
      (Runs.run (step w maxAttempts) (new ttlMs maxEntries u) before) window) :
    (Runs.outputs (step w maxAttempts) (made w key)
      (Runs.run (step w maxAttempts) (new ttlMs maxEntries u) before) window).length ≤ 1 := by
  set s := Runs.run (step w maxAttempts) (new ttlMs maxEntries u) before with hs
  suffices hphase : (Runs.outputs (step w maxAttempts) (made w key) s window = [] ∧
      (Runs.run (step w maxAttempts) s window).Unmade key) ∨
      ((Runs.outputs (step w maxAttempts) (made w key) s window).length = 1 ∧
        (Runs.run (step w maxAttempts) s window).Made key (recordedKeys w maxAttempts s window)) by
    rcases hphase with ⟨hnone,-⟩ | ⟨hone,-⟩
    · simp [hnone]
    · exact hone.le
  induction window using List.reverseRecOn with
  | nil => exact .inl ⟨rfl,fun t c id h => absurd h (hfree t c),fun t _ c _ h => absurd h (hfree t c)⟩
  | append_singleton window e ih =>
    obtain ⟨hpre,hstep⟩ := Runs.meets_append.mp hcareful
    have hsound : (Runs.run (step w maxAttempts) s window).Sound := by
      rw [hs,← Runs.run_append]
      exact sound_run w maxAttempts ttlMs maxEntries u _
    have hlast : Runs.outputs (step w maxAttempts) (made w key)
        (Runs.run (step w maxAttempts) s window) [e] =
          (made w key (Runs.run (step w maxAttempts) s window) e).toList := by simp [Runs.outputs]
    rw [Runs.outputs_append,Runs.run_concat,hlast]
    rcases ih hretains.of_concat hpre with ⟨hnone,hunmade⟩ | ⟨hone,hmade⟩
    · cases he : made w key (Runs.run (step w maxAttempts) s window) e with
      | none => exact .inl ⟨by simp [hnone],unmade_step hsound hunmade hstep.1 he⟩
      | some id => exact .inr ⟨by simp [hnone],made_of_unmade hsound hunmade hstep.1 he _⟩
    · have hrefused : ∀ t p nowMs, e = .begin t p nowMs → p.idempotencyKey = some key →
          (Runs.run (step w maxAttempts) s window).calls.lookup t = none →
            key∈recordedKeys w maxAttempts s window →
              (Runs.run (step w maxAttempts) s window).admits p nowMs = false := by
        rintro t p nowMs rfl hkey hnew hrec
        rw [hs,← Runs.run_append] at hnew ⊢
        exact hretains.refused hkey hnew hrec
      obtain ⟨hnone,hafter⟩ := made_step hmade hstep.1 hrefused
      refine .inr ⟨by rw [hnone,Option.toList_none,List.append_nil,hone],?_⟩
      have hrecorded : recordedKeys w maxAttempts s (window++[e]) =
          recordedKeys w maxAttempts s window++
            ((Runs.run (step w maxAttempts) s window).storeCall e).toList.filterMap
              IdempotencyStore.Call.recorded := by
        simp [recordedKeys,Runs.outputs_append,Runs.outputs]
      rw [hrecorded]
      exact hafter

end window

/-- The call is made a second time, with the same key. -/
theorem created_once_keyedRun : (Runs.outputs (step (Service.reliable.world {}) RETRY_MAX_ATTEMPTS)
    (made (Service.reliable.world {}) "k") (new 1000 8 ⟨[],0⟩)
    (keyedRun++[.begin 1 keyedParams 7,.attend 1])).length ≤ 1 := by
  have hretains : Retains (Service.reliable.world {}) RETRY_MAX_ATTEMPTS 1000 8 ⟨[],0⟩ "k" 0 []
      (keyedRun++[.begin 1 keyedParams 7,.attend 1]) :=
    ⟨by decide,⟨trivial,fun h => absurd h (by decide),trivial,trivial⟩,by decide,by decide⟩
  refine created_once hretains (fun t c h => nomatch h.1) ?_
  refine ⟨fun _ t c h => (nomatch h.1),by decide,by decide,by decide,by decide,by decide,by decide,
    trivial,fun _ t c h => ?_,by decide,trivial⟩
  exact absurd (show (none : Option CreateCall) = some c from h.1) nofun

/-- The first request takes effect, and its reply gets lost behind a 502. -/
def badGateway : Connection where
  lost n := if n = 5 then some (.ApiError 502 "") else none

/-- The call sends its create again: its key does not keep it from a second node. -/
example : (Runs.outputs (step (Service.reliable.world badGateway) RETRY_MAX_ATTEMPTS)
    (made (Service.reliable.world badGateway) "k") (new (T := Nat) 1000 8 ⟨[],0⟩)
    (.begin 0 keyedParams 5::List.replicate 12 (.attend 0))).length = 2 := by decide

end KeyedCreates
end WorkflowyMcp
