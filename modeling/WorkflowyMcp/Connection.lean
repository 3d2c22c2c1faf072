import WorkflowyMcp.RequestLoop
import WorkflowyMcp.Upstream

/-! The tree store reached over a connection that may lose a reply, with a caller that may
give up: one of the upstreams the request loop is run against. -/
namespace WorkflowyMcp

/- At each instant: whether a look at the guard or the deadline finds it expired, and the
   error that stands in for the reply to an attempt, if its reply is lost. -/
structure Connection where
  cancelled : Site → Nat → Bool := fun _ _ => false
  pastDeadline : Site → Nat → Bool := fun _ _ => false
  lost : Nat → Option WorkflowyError := fun _ => none

namespace Service
variable (svc : Service) (conn : Connection)

def tick (u : Upstream) : Upstream := { u with clock := u.clock+1 }

/-- An attempt whose reply is lost has been served all the same. -/
def answer : Proc.Server Ask Answer Upstream
  | .isCancelled site,u => (conn.cancelled site u.clock,tick u)
  | .isPastDeadline site,u => (conn.pastDeadline site u.clock,tick u)
  | .retryAfterRemainingMs,u => (none,tick u)
  | .acquire,u => (true,tick u)
  | .backoff _ _,u => (.ok (),tick u)
  | .send q,u => (((conn.lost u.clock).map Except.error).getD (svc.serve q u).1,(svc.serve q u).2)

/-- A create adds one node under a new id, or nothing. -/
theorem serve_create_cases (name : String) (description parentId : Option String)
    (priority : Option Int) (layout : Option String) (u : Upstream) :
    let q := ApiCall.createNode name description parentId priority layout
    ((svc.serve q u).2.nodes = u.nodes ∧ ∀ c, (svc.serve q u).1 ≠ .ok (some c)) ∨
    ∃ id, (∀ n∈u.nodes, n.id≠id ∧ n.parentId≠some id) ∧ parentId≠some id ∧
      (svc.serve q u).2.nodes = u.nodes++[({ id, name, description, parentId, priority } : WorkflowyNode)] ∧
      (svc.serve q u).1 = .ok (some id) := by
  intro q
  cases h : (svc.serve q u).1 with
  | error e => exact .inl ⟨svc.serve_error h,by simp⟩
  | ok r =>
    obtain ⟨-,ha⟩ := svc.serve_ok h
    simp only [apply,q] at ha
    split at ha
    · cases ha
    · rename_i hparent
      obtain ⟨rfl,hnodes⟩ := Prod.mk.inj (Except.ok.inj ha)
      have hfresh := svc.fresh u.clock u.nodes
      refine .inr ⟨_,hfresh,fun hp => ?_,hnodes.symm,rfl⟩
      have hsome : (findNode u.nodes (svc.freshId u.clock u.nodes)).isSome := by
        simpa [hp,Option.isSome_iff_ne_none] using hparent
      obtain ⟨n,hn⟩ := Option.isSome_iff_exists.mp hsome
      have hid : n.id = svc.freshId u.clock u.nodes := by simpa [findNode] using List.find?_some hn
      exact (hfresh n (findNode_mem hn)).1 hid

def world : World Upstream where
  serve := svc.answer conn
  nodes := Upstream.nodes
  quiet := by
    intro a u ha
    cases a with
    | send q => exact absurd rfl (ha q)
    | isCancelled | isPastDeadline | retryAfterRemainingMs | acquire | backoff => rfl
  create := by
    intro name description parentId priority layout u q
    rcases svc.serve_create_cases name description parentId priority layout u with
      ⟨hsame,hreply⟩ | ⟨id,hfresh,hp,hnodes,hreply⟩
    · refine .inl ⟨hsame,fun c hc => ?_⟩
      cases hl : conn.lost u.clock with
      | none => exact hreply c (by simpa [answer,hl] using hc)
      | some e => simp [answer,hl] at hc
    · refine .inr ⟨id,hfresh,hp,hnodes,fun c hc => ?_⟩
      cases hl : conn.lost u.clock with
      | none =>
        have hc' : (svc.serve q u).1 = .ok (some c) := by simpa [answer,hl] using hc
        rw [hreply] at hc'
        exact (Option.some.inj (Except.ok.inj hc')).symm
      | some e => simp [answer,hl] at hc

end Service
end WorkflowyMcp
