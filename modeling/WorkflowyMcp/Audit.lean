import Mathlib.Data.List.Dedup
import Mathlib.Data.List.Perm.Basic
import WorkflowyMcp.ServerCreates

/-! The audit of the mirror convention. What it collects in hash maps and hash sets it goes
through in an order that is chosen anew each time. -/
namespace WorkflowyMcp

structure MirrorFinding where
  status : String
  nodeId : String
  name : String
  issue : String
deriving DecidableEq, Repr

structure ExternalCanonical where
  id : String
  name : String
  hasCanonicalMarker : Option Bool
deriving DecidableEq, Repr

namespace Audit

/- How far a match of `(?:\s*#[\w-]+)+\s*` has come: before the first tag, behind a `#`, inside
   a tag, in the blanks behind one. -/
inductive TagRun where
  | lead | hash | word | gap
deriving DecidableEq, Repr

section text
variable (toLowercase : String → String) (isWord : Char → Bool)

def TagRun.next (c : Char) : TagRun → Option TagRun
  | .hash => if isWord c || c = '-' then some .word else none
  | s =>
    if c = '#' then some .hash
    else if isWhiteSpace c then some (if s = .lead then .lead else .gap)
    else if s = .word && (isWord c || c = '-') then some .word
    else none

/-- The match goes on to the end of the text. -/
def isTagRun (s : TagRun) : List Char → Bool
  | [] => s = .word || s = .gap
  | c::cs =>
    match s.next isWord c with
    | some s => isTagRun s cs
    | none => false

def beforeTags : List Char → List Char
  | [] => []
  | c::cs => if isTagRun isWord .lead (c::cs) then [] else c::beforeTags cs

def stripTrailingTags (name : String) : String :=
  String.ofList ((beforeTags isWord name.toList).reverse.dropWhile isWhiteSpace).reverse

def MIN_SHORT_HASH_LEN : Nat := 8

/-- One id is a long enough text that ends or starts with the other. -/
def abbreviates (a b : String) : Bool :=
  MIN_SHORT_HASH_LEN ≤ a.utf8ByteSize &&
    (b.toList.isSuffixOf a.toList || b.toList.isPrefixOf a.toList)

def idMatch (a b : String) : Bool :=
  let a := toLowercase a
  let b := toLowercase b
  a = b || abbreviates a b || abbreviates b a

def contains (a b : String) : Bool := decide (b.toList <:+: a.toList)

def drifted (name canonName : String) : Bool :=
  let mn := toLowercase (stripTrailingTags isWord name)
  let cn := toLowercase (stripTrailingTags isWord canonName)
  !contains mn cn && !contains cn mn

def marked (n : WorkflowyNode) : Bool :=
  (extractMarker toLowercase isWord (n.description.getD "") "canonical_of:").isSome

def mirrorTarget (n : WorkflowyNode) : Option String :=
  extractMarker toLowercase isWord (n.description.getD "") "mirror_of:"

/-- The values of `by_id`: of the nodes under one id, the last. -/
def byId : List WorkflowyNode → List WorkflowyNode
  | [] => []
  | n::ns => if ns.any (·.id = n.id) then byId ns else n::byId ns

def canonicalTargets (nodes : List WorkflowyNode) : List String :=
  ((nodes.filter (marked toLowercase isWord)).map fun n => toLowercase n.id).dedup

/-- The orders in which one run goes through its hash maps and its hash set. -/
structure Iteration (nodes : List WorkflowyNode) (external : List ExternalCanonical) where
  byId : List WorkflowyNode
  externals : List ExternalCanonical
  targets : List String
  byId_perm : byId.Perm (Audit.byId nodes)
  externals_perm : externals.Perm external
  targets_perm : targets.Perm (canonicalTargets toLowercase isWord nodes)

/-- What the findings about a mirror read of its canonical. -/
structure Canonical where
  id : String
  name : String
  unmarked : Bool
deriving DecidableEq, Repr

def Canonical.ofNode (n : WorkflowyNode) : Canonical := ⟨n.id,n.name,!marked toLowercase isWord n⟩

def Canonical.ofExternal (e : ExternalCanonical) : Canonical :=
  ⟨e.id,e.name,e.hasCanonicalMarker = some false⟩

def mkFinding (status : String) (n : WorkflowyNode) (issue : String) : MirrorFinding :=
  ⟨status,n.id,n.name,issue⟩

/-- The findings about a mirror whose canonical was found, `place` telling where. -/
def canonicalFindings (n : WorkflowyNode) (place : String) (c : Canonical) : List MirrorFinding :=
  (if drifted toLowercase isWord n.name c.name then
    [mkFinding "DRIFTED" n ("name diverges from canonical \"" ++ c.name ++ "\"" ++ place)] else []) ++
  (if c.unmarked then
    [mkFinding "ORPHAN" n ("canonical " ++ c.id ++ " has no canonical_of: marker")] else [])

variable {nodes : List WorkflowyNode} {external : List ExternalCanonical}

def mirrorFindings (it : Iteration toLowercase isWord nodes external) (n : WorkflowyNode)
    (target : String) : List MirrorFinding :=
  match it.byId.find? fun c => idMatch toLowercase c.id target with
  | some canon => canonicalFindings toLowercase isWord n "" (.ofNode toLowercase isWord canon)
  | none =>
    match it.externals.find? fun c => idMatch toLowercase c.id target with
    | none =>
      [mkFinding "BROKEN" n ("mirror_of:" ++ target ++ " not found in scope or in name index")]
    | some ec =>
      canonicalFindings toLowercase isWord n " (resolved outside scope)" (.ofExternal ec)

def lonelyFindings (nodes : List WorkflowyNode) (cid : String) : List MirrorFinding :=
  if (nodes.filterMap (mirrorTarget toLowercase isWord)).any fun t => idMatch toLowercase t cid then []
  else
    match nodes.find? fun n => toLowercase n.id = cid with
    | some canon => [mkFinding "LONELY" canon "canonical has no mirrors (may be intentional)"]
    | none => []

def nodeFindings (it : Iteration toLowercase isWord nodes external) (n : WorkflowyNode) :
    List MirrorFinding :=
  match mirrorTarget toLowercase isWord n with
  | some target => mirrorFindings toLowercase isWord it n target
  | none => []

/-- Of the map of external canonicals only the values are read. -/
def auditMirrorsWithExternal (nodes : List WorkflowyNode) (external : List ExternalCanonical)
    (it : Iteration toLowercase isWord nodes external) : List MirrorFinding :=
  nodes.flatMap (nodeFindings toLowercase isWord it) ++
    it.targets.flatMap (lonelyFindings toLowercase isWord nodes)

def auditMirrors (nodes : List WorkflowyNode) (it : Iteration toLowercase isWord nodes []) :
    List MirrorFinding :=
  auditMirrorsWithExternal toLowercase isWord nodes [] it

end text

section order
variable {toLowercase : String → String} {isWord : Char → Bool} {nodes nodes' : List WorkflowyNode}
  {external : List ExternalCanonical}

/-- What tells one finding from another. -/
abbrev key (f : MirrorFinding) : String × String × String := (f.status,f.nodeId,f.issue)

/-- Two canonicals give rise to the same findings about a mirror. -/
structure Agree (toLowercase : String → String) (isWord : Char → Bool) (n : WorkflowyNode)
    (a b : Canonical) : Prop where
  drifted : drifted toLowercase isWord n.name a.name = drifted toLowercase isWord n.name b.name
  name : Audit.drifted toLowercase isWord n.name a.name → a.name = b.name
  unmarked : a.unmarked = b.unmarked
  id : a.unmarked → a.id = b.id

theorem mem_canonicalFindings {n : WorkflowyNode} {place : String} {c : Canonical}
    {k : String × String × String} :
    k∈(canonicalFindings toLowercase isWord n place c).map key ↔
      (drifted toLowercase isWord n.name c.name ∧
        k = ("DRIFTED",n.id,"name diverges from canonical \"" ++ c.name ++ "\"" ++ place)) ∨
      (c.unmarked ∧ k = ("ORPHAN",n.id,"canonical " ++ c.id ++ " has no canonical_of: marker")) := by
  unfold canonicalFindings
  by_cases hd : drifted toLowercase isWord n.name c.name <;> by_cases hu : c.unmarked <;>
    simp [hd,hu,mkFinding,key]

theorem Agree.keys {n : WorkflowyNode} {a b : Canonical} (h : Agree toLowercase isWord n a b)
    (place : String) :
    (canonicalFindings toLowercase isWord n place a).map key =
      (canonicalFindings toLowercase isWord n place b).map key := by
  unfold canonicalFindings
  rw [← h.drifted,← h.unmarked]
  by_cases hd : Audit.drifted toLowercase isWord n.name a.name <;> by_cases hu : a.unmarked <;>
    simp [hd,hu,mkFinding,key]
  · exact ⟨h.name hd,h.id hu⟩
  · exact h.name hd
  · exact h.id hu

theorem agree_of_keys {n : WorkflowyNode} (place : String) {a b : Canonical}
    (h : ∀ k, k∈(canonicalFindings toLowercase isWord n place a).map key ↔
      k∈(canonicalFindings toLowercase isWord n place b).map key) :
    Agree toLowercase isWord n a b := by
  have hd : ∀ {a b : Canonical}, (∀ k, k∈(canonicalFindings toLowercase isWord n place a).map key →
      k∈(canonicalFindings toLowercase isWord n place b).map key) →
      Audit.drifted toLowercase isWord n.name a.name →
      Audit.drifted toLowercase isWord n.name b.name ∧ a.name = b.name := by
    intro a b h hd
    have hk := h _ (mem_canonicalFindings.mpr (.inl ⟨hd,rfl⟩))
    rcases mem_canonicalFindings.mp hk with ⟨hd',hk⟩ | ⟨-,hk⟩
    · exact ⟨hd',by simpa using hk⟩
    · simp at hk
  have hu : ∀ {a b : Canonical}, (∀ k, k∈(canonicalFindings toLowercase isWord n place a).map key →
      k∈(canonicalFindings toLowercase isWord n place b).map key) →
      a.unmarked → b.unmarked ∧ a.id = b.id := by
    intro a b h hu
    have hk := h _ (mem_canonicalFindings.mpr (.inr ⟨hu,rfl⟩))
    rcases mem_canonicalFindings.mp hk with ⟨-,hk⟩ | ⟨hu',hk⟩
    · simp at hk
    · exact ⟨hu',by simpa using hk⟩
  refine ⟨?_,fun ha => (hd (fun k => (h k).mp) ha).2,?_,fun ha => (hu (fun k => (h k).mp) ha).2⟩
  · rw [Bool.eq_iff_iff]
    exact ⟨fun ha => (hd (fun k => (h k).mp) ha).1,fun hb => (hd (fun k => (h k).mpr) hb).1⟩
  · rw [Bool.eq_iff_iff]
    exact ⟨fun ha => (hu (fun k => (h k).mp) ha).1,fun hb => (hu (fun k => (h k).mpr) hb).1⟩

theorem byId_eq_self (h : (nodes.map WorkflowyNode.id).Nodup) : byId nodes = nodes := by
  induction nodes with
  | nil => rfl
  | cons n ns ih =>
    obtain ⟨hn,hns⟩ := List.nodup_cons.mp h
    have hany : ns.any (·.id = n.id) = false := by
      simpa [List.mem_map] using hn
    simp [byId,hany,ih hns]

/-- The iteration in the order in which the nodes and the externals are listed. -/
def Iteration.listed (toLowercase : String → String) (isWord : Char → Bool)
    (nodes : List WorkflowyNode) (external : List ExternalCanonical) :
    Iteration toLowercase isWord nodes external where
  byId := Audit.byId nodes
  externals := external
  targets := canonicalTargets toLowercase isWord nodes
  byId_perm := .refl _
  externals_perm := .refl _
  targets_perm := .refl _

/-- A node and an external canonical come first. -/
def Iteration.led (it : Iteration toLowercase isWord nodes external) {c : WorkflowyNode}
    (hc : c∈Audit.byId nodes) : Iteration toLowercase isWord nodes external :=
  { it with
    byId := c::(Audit.byId nodes).erase c
    byId_perm := (List.perm_cons_erase hc).symm }

def Iteration.ledOutside (it : Iteration toLowercase isWord nodes external) {e : ExternalCanonical}
    (he : e∈external) : Iteration toLowercase isWord nodes external :=
  { it with
    externals := e::external.erase e
    externals_perm := (List.perm_cons_erase he).symm }

theorem mem_byId_iff (it : Iteration toLowercase isWord nodes external)
    (h : (nodes.map WorkflowyNode.id).Nodup) {n : WorkflowyNode} : n∈it.byId ↔ n∈nodes := by
  rw [it.byId_perm.mem_iff,byId_eq_self h]

theorem mirrorFindings_node (it : Iteration toLowercase isWord nodes external) (n : WorkflowyNode)
    (target : String) : (∃ c∈it.byId, idMatch toLowercase c.id target ∧
      mirrorFindings toLowercase isWord it n target =
        canonicalFindings toLowercase isWord n "" (.ofNode toLowercase isWord c)) ∨
    ((∀ c∈it.byId, ¬idMatch toLowercase c.id target) ∧
      ((∃ e∈it.externals, idMatch toLowercase e.id target ∧
        mirrorFindings toLowercase isWord it n target = canonicalFindings toLowercase isWord n
          " (resolved outside scope)" (.ofExternal e)) ∨
      (∀ e∈it.externals, ¬idMatch toLowercase e.id target) ∧
        mirrorFindings toLowercase isWord it n target =
          [mkFinding "BROKEN" n
            ("mirror_of:" ++ target ++ " not found in scope or in name index")])) := by
  unfold mirrorFindings
  cases hf : it.byId.find? fun c => idMatch toLowercase c.id target with
  | some c =>
    have hm := List.find?_some (p := fun c : WorkflowyNode => idMatch toLowercase c.id target) hf
    exact .inl ⟨c,List.mem_of_find?_eq_some hf,hm,rfl⟩
  | none =>
    refine .inr ⟨fun c hc => ?_,?_⟩
    · exact List.find?_eq_none.mp hf c hc
    · cases he : it.externals.find? fun c => idMatch toLowercase c.id target with
      | some e =>
        have hm := List.find?_some (p := fun e : ExternalCanonical => idMatch toLowercase e.id target) he
        exact .inl ⟨e,List.mem_of_find?_eq_some he,hm,rfl⟩
      | none => exact .inr ⟨fun e hm => List.find?_eq_none.mp he e hm,rfl⟩

/-- Where a marker matches several canonicals, they agree; and a lonely canonical is alone under
its lowercased id. -/
structure Unambiguous (toLowercase : String → String) (isWord : Char → Bool)
    (nodes : List WorkflowyNode) (external : List ExternalCanonical) : Prop where
  inScope : ∀ n∈nodes, ∀ target, mirrorTarget toLowercase isWord n = some target →
    ∀ a∈nodes, ∀ b∈nodes, idMatch toLowercase a.id target → idMatch toLowercase b.id target →
      Agree toLowercase isWord n (.ofNode toLowercase isWord a) (.ofNode toLowercase isWord b)
  outside : ∀ n∈nodes, ∀ target, mirrorTarget toLowercase isWord n = some target →
    (∀ c∈nodes, ¬idMatch toLowercase c.id target) →
    ∀ a∈external, ∀ b∈external, idMatch toLowercase a.id target → idMatch toLowercase b.id target →
      Agree toLowercase isWord n (.ofExternal a) (.ofExternal b)
  lonely : ∀ n∈nodes, marked toLowercase isWord n →
    (∀ m∈nodes, ∀ target, mirrorTarget toLowercase isWord m = some target →
      ¬idMatch toLowercase target (toLowercase n.id)) →
    ∀ n'∈nodes, toLowercase n'.id = toLowercase n.id → n'.id = n.id

theorem Unambiguous.nodeFindings_keys (h : Unambiguous toLowercase isWord nodes external)
    (hn : (nodes.map WorkflowyNode.id).Nodup) (hp : nodes'.Perm nodes)
    (it : Iteration toLowercase isWord nodes external)
    (it' : Iteration toLowercase isWord nodes' external) {n : WorkflowyNode} (hmem : n∈nodes) :
    (nodeFindings toLowercase isWord it n).map key =
      (nodeFindings toLowercase isWord it' n).map key := by
  have hmem' : ∀ c, c∈it'.byId ↔ c∈nodes := fun c => by
    rw [mem_byId_iff it' ((hp.map _).nodup_iff.mpr hn),hp.mem_iff]
  unfold nodeFindings
  cases ht : mirrorTarget toLowercase isWord n with
  | none => rfl
  | some target =>
    dsimp only
    have hext : ∀ e, e∈it.externals ↔ e∈external := fun e => it.externals_perm.mem_iff
    have hext' : ∀ e, e∈it'.externals ↔ e∈external := fun e => it'.externals_perm.mem_iff
    rcases mirrorFindings_node it n target with ⟨c,hc,hm,heq⟩ | ⟨hno,hrest⟩
    · rcases mirrorFindings_node it' n target with ⟨c',hc',hm',heq'⟩ | ⟨hno',-⟩
      · rw [heq,heq']
        exact (h.inScope n hmem target ht c ((mem_byId_iff it hn).mp hc) c' ((hmem' c').mp hc')
          hm hm').keys ""
      · exact absurd hm (hno' c ((hmem' c).mpr ((mem_byId_iff it hn).mp hc)))
    · have hnone : ∀ c∈nodes, ¬idMatch toLowercase c.id target := fun c hc =>
        hno c ((mem_byId_iff it hn).mpr hc)
      rcases mirrorFindings_node it' n target with ⟨c,hc,hm,-⟩ | ⟨-,hrest'⟩
      · exact absurd hm (hnone c ((hmem' c).mp hc))
      · rcases hrest with ⟨e,he,hm,heq⟩ | ⟨hnoe,heq⟩
        · rcases hrest' with ⟨e',he',hm',heq'⟩ | ⟨hnoe',-⟩
          · rw [heq,heq']
            exact (h.outside n hmem target ht hnone e ((hext e).mp he) e' ((hext' e').mp he')
              hm hm').keys _
          · exact absurd hm (hnoe' e ((hext' e).mpr ((hext e).mp he)))
        · rcases hrest' with ⟨e,he,hm,-⟩ | ⟨-,heq'⟩
          · exact absurd hm (hnoe e ((hext e).mpr ((hext' e).mp he)))
          · rw [heq,heq']

theorem find?_lowercase {cid : String} {n : WorkflowyNode}
    (h : (nodes.find? fun n => toLowercase n.id = cid) = some n) :
    n∈nodes ∧ toLowercase n.id = cid :=
  ⟨List.mem_of_find?_eq_some h,by simpa using List.find?_some h⟩

theorem mem_canonicalTargets {cid : String} :
    cid∈canonicalTargets toLowercase isWord nodes ↔
      ∃ n∈nodes, marked toLowercase isWord n ∧ toLowercase n.id = cid := by
  simp [canonicalTargets,and_assoc]

/-- Whether a canonical is lonely is told by the first node under its lowercased id. -/
theorem mem_lonelyFindings {cid : String} {k : String × String × String} :
    k∈(lonelyFindings toLowercase isWord nodes cid).map key ↔
      (∀ m∈nodes, ∀ target, mirrorTarget toLowercase isWord m = some target →
        ¬idMatch toLowercase target cid) ∧
      ∃ n, (nodes.find? fun n => toLowercase n.id = cid) = some n ∧
        k = ("LONELY",n.id,"canonical has no mirrors (may be intentional)") := by
  unfold lonelyFindings
  split
  · rename_i hany
    refine iff_of_false (by simp) fun h => ?_
    obtain ⟨target,ht,hm⟩ := List.any_eq_true.mp hany
    obtain ⟨m,hmem,ht⟩ := List.mem_filterMap.mp ht
    exact h.1 m hmem target ht hm
  · rename_i hany
    have hlone : ∀ m∈nodes, ∀ target, mirrorTarget toLowercase isWord m = some target →
        ¬idMatch toLowercase target cid := fun m hmem target ht hm =>
      hany (List.any_eq_true.mpr ⟨target,List.mem_filterMap.mpr ⟨m,hmem,ht⟩,hm⟩)
    cases nodes.find? fun n => toLowercase n.id = cid with
    | none => simp
    | some n =>
      constructor
      · intro hk
        exact ⟨hlone,n,rfl,by simpa [mkFinding,key] using hk⟩
      · rintro ⟨-,n',hn',rfl⟩
        obtain rfl := Option.some.inj hn'
        simp [mkFinding,key]

theorem lonelyFindings_eq (hp : nodes'.Perm nodes) {cid : String}
    (h : (∀ m∈nodes, ∀ target, mirrorTarget toLowercase isWord m = some target →
        ¬idMatch toLowercase target cid) →
      ∀ a∈nodes, ∀ b∈nodes, toLowercase a.id = cid → toLowercase b.id = cid → a.id = b.id) :
    (lonelyFindings toLowercase isWord nodes cid).map key =
      (lonelyFindings toLowercase isWord nodes' cid).map key := by
  have hany : ((nodes.filterMap (mirrorTarget toLowercase isWord)).any fun t =>
      idMatch toLowercase t cid) = (nodes'.filterMap (mirrorTarget toLowercase isWord)).any fun t =>
      idMatch toLowercase t cid := (hp.symm.filterMap _).any_eq
  unfold lonelyFindings
  rw [← hany]
  split
  · rfl
  · rename_i hnone
    have hlone : ∀ m∈nodes, ∀ target, mirrorTarget toLowercase isWord m = some target →
        ¬idMatch toLowercase target cid := fun m hmem target ht hm =>
      hnone (List.any_eq_true.mpr ⟨target,List.mem_filterMap.mpr ⟨m,hmem,ht⟩,hm⟩)
    cases ha : nodes.find? fun n => toLowercase n.id = cid with
    | none =>
      have hb : (nodes'.find? fun n => toLowercase n.id = cid) = none := by
        rw [List.find?_eq_none] at ha ⊢
        exact fun n hn => ha n (hp.mem_iff.mp hn)
      rw [hb]
    | some a =>
      obtain ⟨hmem,hida⟩ := find?_lowercase ha
      cases hb : nodes'.find? fun n => toLowercase n.id = cid with
      | none =>
        have hno := List.find?_eq_none.mp hb a (hp.mem_iff.mpr hmem)
        simp [hida] at hno
      | some b =>
        obtain ⟨hmem',hidb⟩ := find?_lowercase hb
        simp [mkFinding,key,h hlone a hmem b (hp.mem_iff.mp hmem') hida hidb]

theorem Unambiguous.audit_perm (h : Unambiguous toLowercase isWord nodes external)
    (hn : (nodes.map WorkflowyNode.id).Nodup) (hp : nodes'.Perm nodes)
    (it : Iteration toLowercase isWord nodes external)
    (it' : Iteration toLowercase isWord nodes' external) :
    ((auditMirrorsWithExternal toLowercase isWord nodes external it).map key).Perm
      ((auditMirrorsWithExternal toLowercase isWord nodes' external it').map key) := by
  unfold auditMirrorsWithExternal
  rw [List.map_append,List.map_append,List.map_flatMap,List.map_flatMap,List.map_flatMap,
    List.map_flatMap]
  refine List.Perm.append ?_ ?_
  · exact hp.symm.flatMap fun n hmem => .of_eq (h.nodeFindings_keys hn hp it it' hmem)
  · have htargets : it.targets.Perm it'.targets :=
      it.targets_perm.trans ((((hp.symm.filter _).map _).dedup).trans it'.targets_perm.symm)
    refine htargets.flatMap fun cid hcid => .of_eq (lonelyFindings_eq hp fun hlone a ha b hb => ?_)
    obtain ⟨n,hmem,hmark,rfl⟩ := mem_canonicalTargets.mp (it.targets_perm.mem_iff.mp hcid)
    intro hla hlb
    exact (h.lonely n hmem hmark hlone a ha hla).trans (h.lonely n hmem hmark hlone b hb hlb).symm

theorem mem_nodeFindings (it : Iteration toLowercase isWord nodes external) {n : WorkflowyNode}
    {k : String × String × String} (hk : k∈(nodeFindings toLowercase isWord it n).map key) :
    k.1≠"LONELY" ∧ k.2.1 = n.id := by
  unfold nodeFindings at hk
  split at hk
  · rename_i target ht
    have hcanon : ∀ {place : String} {c : Canonical},
        k∈(canonicalFindings toLowercase isWord n place c).map key →
        k.1≠"LONELY" ∧ k.2.1 = n.id := by
      intro place c hk
      rcases mem_canonicalFindings.mp hk with ⟨-,rfl⟩ | ⟨-,rfl⟩ <;> simp
    rcases mirrorFindings_node it n target with
      ⟨c,-,-,heq⟩ | ⟨-,⟨e,-,-,heq⟩ | ⟨-,heq⟩⟩
    · exact hcanon (heq ▸ hk)
    · exact hcanon (heq ▸ hk)
    · rw [heq] at hk
      simp only [mkFinding,key,List.map_cons,List.map_nil,List.mem_singleton] at hk
      simp [hk]
  · cases hk

/-- The findings about a mirror are told apart from all others by its id and their status. -/
theorem mem_audit_node (it : Iteration toLowercase isWord nodes external)
    (hn : (nodes.map WorkflowyNode.id).Nodup) {n : WorkflowyNode} (hmem : n∈nodes)
    {k : String × String × String} (hs : k.1≠"LONELY") (hid : k.2.1 = n.id) :
    k∈(auditMirrorsWithExternal toLowercase isWord nodes external it).map key ↔
      k∈(nodeFindings toLowercase isWord it n).map key := by
  rw [auditMirrorsWithExternal,List.map_append,List.map_flatMap,List.map_flatMap,List.mem_append,
    List.mem_flatMap,List.mem_flatMap]
  refine ⟨fun h => ?_,fun h => .inl ⟨n,hmem,h⟩⟩
  rcases h with ⟨m,hm,hk⟩ | ⟨cid,-,hk⟩
  · have hmn : m = n := List.inj_on_of_nodup_map hn hm hmem
      ((mem_nodeFindings it hk).2.symm.trans hid)
    exact hmn ▸ hk
  · obtain ⟨-,m,-,rfl⟩ := mem_lonelyFindings.mp hk
    exact absurd rfl hs

theorem mem_audit_lonely (it : Iteration toLowercase isWord nodes external)
    {k : String × String × String} (hs : k.1 = "LONELY") :
    k∈(auditMirrorsWithExternal toLowercase isWord nodes external it).map key ↔
      ∃ cid∈canonicalTargets toLowercase isWord nodes,
        k∈(lonelyFindings toLowercase isWord nodes cid).map key := by
  rw [auditMirrorsWithExternal,List.map_append,List.map_flatMap,List.map_flatMap,List.mem_append,
    List.mem_flatMap,List.mem_flatMap]
  constructor
  · rintro (⟨m,hm,hk⟩ | ⟨cid,hcid,hk⟩)
    · exact absurd hs (mem_nodeFindings it hk).1
    · exact ⟨cid,it.targets_perm.mem_iff.mp hcid,hk⟩
  · rintro ⟨cid,hcid,hk⟩
    exact .inr ⟨cid,it.targets_perm.mem_iff.mpr hcid,hk⟩

/-- Two iterations that give one multiset of findings give a mirror the same findings. -/
theorem nodeFindings_of_perm {it it' : Iteration toLowercase isWord nodes external}
    (h : ((auditMirrorsWithExternal toLowercase isWord nodes external it).map key).Perm
      ((auditMirrorsWithExternal toLowercase isWord nodes external it').map key))
    (hn : (nodes.map WorkflowyNode.id).Nodup) {n : WorkflowyNode} (hmem : n∈nodes)
    (k : String × String × String) :
    k∈(nodeFindings toLowercase isWord it n).map key ↔
      k∈(nodeFindings toLowercase isWord it' n).map key := by
  constructor
  · intro hk
    obtain ⟨hs,hid⟩ := mem_nodeFindings it hk
    exact (mem_audit_node it' hn hmem hs hid).mp
      (h.mem_iff.mp ((mem_audit_node it hn hmem hs hid).mpr hk))
  · intro hk
    obtain ⟨hs,hid⟩ := mem_nodeFindings it' hk
    exact (mem_audit_node it hn hmem hs hid).mp
      (h.mem_iff.mpr ((mem_audit_node it' hn hmem hs hid).mpr hk))

theorem nodeFindings_led (it : Iteration toLowercase isWord nodes external) {n c : WorkflowyNode}
    {target : String} (ht : mirrorTarget toLowercase isWord n = some target)
    (hc : c∈Audit.byId nodes) (hm : idMatch toLowercase c.id target) :
    nodeFindings toLowercase isWord (it.led hc) n =
      canonicalFindings toLowercase isWord n "" (.ofNode toLowercase isWord c) := by
  simp [nodeFindings,ht,mirrorFindings,Iteration.led,hm]

theorem nodeFindings_ledOutside (it : Iteration toLowercase isWord nodes external)
    {n : WorkflowyNode} {target : String} (ht : mirrorTarget toLowercase isWord n = some target)
    (hno : ∀ c∈it.byId, ¬idMatch toLowercase c.id target) {e : ExternalCanonical} (he : e∈external)
    (hm : idMatch toLowercase e.id target) :
    nodeFindings toLowercase isWord (it.ledOutside he) n =
      canonicalFindings toLowercase isWord n " (resolved outside scope)" (.ofExternal e) := by
  have hnone : (it.byId.find? fun c => idMatch toLowercase c.id target) = none :=
    List.find?_eq_none.mpr hno
  simp [nodeFindings,ht,mirrorFindings,Iteration.ledOutside,hnone,hm]

/-- Markers that match one node each, and ids that differ in more than their case. -/
theorem Unambiguous.of_sole
    (hs : ∀ n∈nodes, ∀ target∈mirrorTarget toLowercase isWord n, ∀ a∈nodes, ∀ b∈nodes,
      idMatch toLowercase a.id target → idMatch toLowercase b.id target → a = b)
    (he : ∀ n∈nodes, ∀ target∈mirrorTarget toLowercase isWord n, ∀ a∈external, ∀ b∈external,
      idMatch toLowercase a.id target → idMatch toLowercase b.id target → a = b)
    (hl : ∀ a∈nodes, ∀ b∈nodes, toLowercase a.id = toLowercase b.id → a.id = b.id) :
    Unambiguous toLowercase isWord nodes external where
  inScope n hmem target ht a ha b hb hma hmb := by
    rw [hs n hmem target ht a ha b hb hma hmb]
    exact ⟨rfl,fun _ => rfl,rfl,fun _ => rfl⟩
  outside n hmem target ht _ a ha b hb hma hmb := by
    rw [he n hmem target ht a ha b hb hma hmb]
    exact ⟨rfl,fun _ => rfl,rfl,fun _ => rfl⟩
  lonely n hmem _ _ n' hmem' hid := hl n' hmem' n hmem hid

/-- A lonely canonical is reported under the first node that has its lowercased id. -/
theorem eq_of_lonely {toLowercase : String → String} {isWord : Char → Bool}
    {external : List ExternalCanonical} {n n' : WorkflowyNode} {rest rest' : List WorkflowyNode}
    (h : ((auditMirrorsWithExternal toLowercase isWord (n::rest) external (.listed ..)).map key).Perm
      ((auditMirrorsWithExternal toLowercase isWord (n'::rest') external (.listed ..)).map key))
    (hmark : marked toLowercase isWord n)
    (hlone : ∀ m∈n::rest, ∀ target, mirrorTarget toLowercase isWord m = some target →
      ¬idMatch toLowercase target (toLowercase n.id))
    (hid : toLowercase n'.id = toLowercase n.id) : n'.id = n.id := by
  have hk := (mem_audit_lonely (.listed toLowercase isWord (n::rest) external)
      (k := ("LONELY",n.id,"canonical has no mirrors (may be intentional)")) rfl).mpr
    ⟨toLowercase n.id,mem_canonicalTargets.mpr ⟨n,by simp,hmark,rfl⟩,
      mem_lonelyFindings.mpr ⟨hlone,n,by simp,rfl⟩⟩
  obtain ⟨cid,-,hl⟩ := (mem_audit_lonely _ rfl).mp (h.mem_iff.mp hk)
  obtain ⟨-,x,hx,hkx⟩ := mem_lonelyFindings.mp hl
  have hxid : n.id = x.id := by simpa using hkx
  have hcid : toLowercase n'.id = cid := by
    rw [hid,hxid]
    exact (find?_lowercase hx).2
  rw [List.find?_cons_of_pos (by simpa using hcid)] at hx
  rw [hxid,Option.some.inj hx]

/-- The findings are the same whatever the orders of the slice and of the hash maps, if and only
if no marker and no lowercased id is ambiguous. -/
theorem order_free_iff (toLowercase : String → String) (isWord : Char → Bool)
    (nodes : List WorkflowyNode) (external : List ExternalCanonical)
    (hn : (nodes.map WorkflowyNode.id).Nodup) :
    (∀ a b, a.Perm nodes → b.Perm nodes → ∀ (it : Iteration toLowercase isWord a external)
      (it' : Iteration toLowercase isWord b external),
      ((auditMirrorsWithExternal toLowercase isWord a external it).map key).Perm
        ((auditMirrorsWithExternal toLowercase isWord b external it').map key)) ↔
      Unambiguous toLowercase isWord nodes external := by
  let listed := Iteration.listed toLowercase isWord nodes external
  constructor
  · intro h
    refine ⟨fun n hmem target ht a ha b hb hma hmb => ?_,
      fun n hmem target ht hno a ha b hb hma hmb => ?_,fun n hmem hmark hlone n' hmem' hid => ?_⟩
    · rw [← byId_eq_self hn] at ha hb
      refine agree_of_keys "" fun k => ?_
      have hk := nodeFindings_of_perm (h nodes nodes (.refl _) (.refl _) (listed.led ha)
        (listed.led hb)) hn hmem k
      rwa [nodeFindings_led listed ht ha hma,nodeFindings_led listed ht hb hmb] at hk
    · have hno' : ∀ c∈listed.byId, ¬idMatch toLowercase c.id target := fun c hc =>
        hno c ((mem_byId_iff listed hn).mp hc)
      refine agree_of_keys " (resolved outside scope)" fun k => ?_
      have hk := nodeFindings_of_perm (h nodes nodes (.refl _) (.refl _) (listed.ledOutside ha)
        (listed.ledOutside hb)) hn hmem k
      rwa [nodeFindings_ledOutside listed ht hno' ha hma,
        nodeFindings_ledOutside listed ht hno' hb hmb] at hk
    · -- put the canonical first, then the node that shares its lowercased id
      have hp := List.perm_cons_erase hmem
      have hp' := List.perm_cons_erase hmem'
      exact eq_of_lonely (h _ _ hp.symm hp'.symm (.listed ..) (.listed ..)) hmark
        (fun m hm => hlone m (hp.mem_iff.mpr hm)) hid
  · intro h a b ha hb it it'
    exact (h.audit_perm hn ha listed it).symm.trans (h.audit_perm hn hb listed it')

abbrev asciiWord (c : Char) : Bool := c.isAlphanum || c = '_'

theorem order_free_mirrored :
    let nodes : List WorkflowyNode := [{ id := "aaaaaaaa", description := some "canonical_of: lead" },
      { id := "bbbbbbbb", description := some "mirror_of: aaaaaaaa" }]
    ∀ a b, a.Perm nodes → b.Perm nodes → ∀ (it : Iteration asciiLowercase asciiWord a [])
      (it' : Iteration asciiLowercase asciiWord b []),
      ((auditMirrorsWithExternal asciiLowercase asciiWord a [] it).map key).Perm
        ((auditMirrorsWithExternal asciiLowercase asciiWord b [] it').map key) :=
  (order_free_iff asciiLowercase asciiWord _ [] (by decide)).mpr
    (.of_sole (by decide +kernel) (by decide +kernel) (by decide +kernel))

/-- A marker of eight characters matches two nodes, of which one is marked. -/
theorem twins_audited_differently :
    let nodes : List WorkflowyNode :=
      [{ id := "c0ffee00-1", name := "Latte", description := some "canonical_of: lead" },
        { id := "c0ffee00-2", name := "Mocha" },
        { id := "bbbbbbbb-3", name := "Latte", description := some "mirror_of: c0ffee00" }]
    let listed := Iteration.listed asciiLowercase asciiWord nodes []
    let reversed : Iteration asciiLowercase asciiWord nodes [] :=
      { listed with
        byId := nodes.reverse
        byId_perm := by decide +kernel }
    (nodes.map WorkflowyNode.id).Nodup ∧
      ¬((auditMirrorsWithExternal asciiLowercase asciiWord nodes [] listed).map key).Perm
        ((auditMirrorsWithExternal asciiLowercase asciiWord nodes [] reversed).map key) := by
  decide +kernel

end order
end Audit
end WorkflowyMcp
