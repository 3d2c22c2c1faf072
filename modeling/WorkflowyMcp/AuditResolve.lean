import WorkflowyMcp.MirrorAudit
import WorkflowyMcp.ShortHashHistory

/-! The audit of mirrors as the tool runs it. The walked nodes are filed in the name index, which
then answers for the markers that the walk leaves open. Whether a marker means a node is decided
three times, each time by another rule. -/
namespace WorkflowyMcp

def NameIndexEntry.toExternal (entry : NameIndexEntry) : ExternalCanonical :=
  ⟨entry.nodeId,entry.name,none⟩

namespace NameIndex
variable {toLowercase : String → String} {ops : List IndexOp} {t u : String}

def resolveTarget (idx : NameIndex) (targetLc : String) : Option NameIndexEntry :=
  (idx.lookupEntryById targetLc).or ((idx.resolveShortHash targetLc).bind idx.lookupEntryById)

/-- The id under which the index answers for a lowercased marker after the calls: the marker
itself, or else the id it is a short hash of. -/
def LookedUp (toLowercase : String → String) (ops : List IndexOp) (t u : String) : Prop :=
  let idx := Runs.run (perform toLowercase) {} ops
  idx.Indexed t ∧ u = t ∨ ¬idx.Indexed t ∧
    ∃ key, Spells t SHORT_HASH_LEN_URL key ∧ WrittenLast key u (edits toLowercase {} ops) ∨
      Spells t SHORT_HASH_LEN_PREFIX key ∧ Apart toLowercase prefixHashOf key ops ∧
        Sole prefixHashOf idx key u

theorem resolveTarget_eq_some {e : NameIndexEntry} :
    let idx := Runs.run (perform toLowercase) {} ops
    idx.resolveTarget t = some e ↔
      ∃ u, LookedUp toLowercase ops t u ∧ idx.lookupEntryById u = some e := by
  intro idx
  have hw : idx.Wf toLowercase := wf_run ops
  have hid : idx.Indexed t ↔ idx.lookupEntryById t ≠ none := indexed_iff hw
  unfold resolveTarget LookedUp
  cases hl : idx.lookupEntryById t with
  | some e' =>
    have hindexed : idx.Indexed t := hid.mpr (by simp [hl])
    constructor
    · intro he
      exact ⟨t,.inl ⟨hindexed,rfl⟩,hl.trans (by simpa using he)⟩
    · rintro ⟨u,⟨-,rfl⟩ | ⟨hno,-⟩,he⟩
      · simpa using hl.symm.trans he
      · exact absurd hindexed hno
  | none =>
    have hindexed : ¬idx.Indexed t := fun h => hid.mp h hl
    rw [Option.none_or,Option.bind_eq_some_iff]
    refine exists_congr fun u => and_congr_left fun _ => ?_
    have hr : idx.resolveShortHash t = some u ↔ _ := resolve_run
    rw [hr]
    exact ⟨fun h => .inr ⟨hindexed,h⟩,fun h => (h.resolve_left fun h => hindexed h.1).2⟩

theorem nodeId_of_lookup {idx : NameIndex} {id : String} {e : NameIndexEntry}
    (h : idx.lookupEntryById id = some e) : e.nodeId = id := by
  unfold lookupEntryById at h
  split at h
  · obtain ⟨es,-,hfind⟩ := Option.bind_eq_some_iff.mp h
    simpa using List.find?_some hfind
  · cases h

end NameIndex

namespace Audit
open NameIndex

section tool
variable (toLowercase : String → String) (isWord : Char → Bool)

def endsWith (a b : String) : Bool := b.toList.isSuffixOf a.toList

def inScope (nodes : List WorkflowyNode) (t : String) : Bool :=
  nodes.any fun s => endsWith (toLowercase s.id) t || endsWith t (toLowercase s.id)

/- The targets found so far are also the set of those seen. -/
def unresolvedTarget (nodes : List WorkflowyNode) (targets : List String) (node : WorkflowyNode) :
    List String :=
  match mirrorTarget toLowercase isWord node with
  | some target =>
    let t := toLowercase target
    if inScope toLowercase nodes t then targets
    else if t∈targets then targets else targets++[t]
  | none => targets

def extractUnresolvedMirrorTargets (nodes : List WorkflowyNode) : List String :=
  nodes.foldl (unresolvedTarget toLowercase isWord nodes) []

def addExternal (idx : NameIndex) (external : KeyMap String ExternalCanonical) (targetLc : String) :
    KeyMap String ExternalCanonical :=
  match idx.resolveTarget targetLc with
  | some entry => external.insert targetLc entry.toExternal
  | none => external

def auditMirrorsExternalCanonicals (idx : NameIndex) (nodes : List WorkflowyNode) :
    KeyMap String ExternalCanonical :=
  (extractUnresolvedMirrorTargets toLowercase isWord nodes).foldl (addExternal idx) ∅

/-- The externals of one call: the walked nodes are filed first. -/
def callExternals (crossScopeResolve : Bool) (idx : NameIndex) (nodes : List WorkflowyNode) :
    List ExternalCanonical :=
  if crossScopeResolve then
    (auditMirrorsExternalCanonicals toLowercase isWord (idx.ingest toLowercase nodes) nodes).values
  else []

end tool

section externals
variable {toLowercase : String → String} {isWord : Char → Bool} {nodes : List WorkflowyNode}
  {idx : NameIndex}

theorem mem_unresolvedTarget {t : String} {targets : List String} {m : WorkflowyNode} :
    t∈unresolvedTarget toLowercase isWord nodes targets m ↔
      t∈targets ∨ inScope toLowercase nodes t = false ∧
        ∃ target, mirrorTarget toLowercase isWord m = some target ∧ toLowercase target = t := by
  unfold unresolvedTarget
  cases ht : mirrorTarget toLowercase isWord m with
  | none => simp
  | some target =>
    dsimp only
    split
    · rename_i hin
      refine ⟨.inl,fun h => h.resolve_right ?_⟩
      rintro ⟨hout,_,⟨⟩,rfl⟩
      simp [hin] at hout
    · rename_i hout
      split
      · rename_i hseen
        refine ⟨.inl,fun h => h.elim id ?_⟩
        rintro ⟨-,_,⟨⟩,rfl⟩
        exact hseen
      · rw [List.mem_append,List.mem_singleton]
        refine or_congr_right ⟨?_,?_⟩
        · rintro rfl
          exact ⟨by simpa using hout,target,rfl,rfl⟩
        · rintro ⟨-,_,⟨⟩,rfl⟩
          rfl

theorem mem_unresolved {t : String} :
    t∈extractUnresolvedMirrorTargets toLowercase isWord nodes ↔
      inScope toLowercase nodes t = false ∧
        ∃ m∈nodes, ∃ target, mirrorTarget toLowercase isWord m = some target ∧
          toLowercase target = t := by
  suffices h : ∀ (ms : List WorkflowyNode) (targets : List String),
      t∈ms.foldl (unresolvedTarget toLowercase isWord nodes) targets ↔
        t∈targets ∨ inScope toLowercase nodes t = false ∧
          ∃ m∈ms, ∃ target, mirrorTarget toLowercase isWord m = some target ∧
            toLowercase target = t by
    simpa [extractUnresolvedMirrorTargets] using h nodes []
  intro ms
  induction ms with
  | nil => simp
  | cons m ms ih =>
    intro targets
    rw [List.foldl_cons,ih,mem_unresolvedTarget,or_assoc,← and_or_left]
    simp only [List.mem_cons,exists_eq_or_imp]

/-- A map that is filled target by target holds what the index knows of each. -/
theorem lookup_addExternals (targets : List String) (external : KeyMap String ExternalCanonical)
    (t : String) : (targets.foldl (addExternal idx) external).lookup t =
      if t∈targets then ((idx.resolveTarget t).map NameIndexEntry.toExternal).or (external.lookup t)
      else external.lookup t := by
  induction targets generalizing external with
  | nil => simp
  | cons t' targets ih =>
    rw [List.foldl_cons,ih]
    unfold addExternal
    by_cases ht : t = t'
    · subst ht
      cases hr : idx.resolveTarget t <;> simp
    · cases idx.resolveTarget t' <;> simp [ht]

theorem mem_callExternals {e : ExternalCanonical} :
    e∈callExternals toLowercase isWord true idx nodes ↔
      ∃ m∈nodes, ∃ target, mirrorTarget toLowercase isWord m = some target ∧
        inScope toLowercase nodes (toLowercase target) = false ∧
        ∃ entry, (idx.ingest toLowercase nodes).resolveTarget (toLowercase target) = some entry ∧
          e = entry.toExternal := by
  simp only [callExternals,if_true,KeyMap.mem_values,auditMirrorsExternalCanonicals,
    lookup_addExternals,mem_unresolved]
  constructor
  · rintro ⟨t,ht⟩
    split at ht
    · rename_i hopen
      obtain ⟨hout,m,hm,target,hmark,rfl⟩ := hopen
      obtain ⟨entry,hentry,rfl⟩ : ∃ entry, (idx.ingest toLowercase nodes).resolveTarget
          (toLowercase target) = some entry ∧ entry.toExternal = e := by
        simpa using ht
      exact ⟨m,hm,target,hmark,hout,entry,hentry,rfl⟩
    · simp at ht
  · rintro ⟨m,hm,target,hmark,hout,entry,hentry,rfl⟩
    exact ⟨toLowercase target,by rw [if_pos ⟨hout,m,hm,target,hmark,rfl⟩,hentry]; rfl⟩

end externals

/-- A finding of that status about that node. -/
def Reported (findings : List MirrorFinding) (status id : String) : Prop :=
  ∃ f∈findings, f.status = status ∧ f.nodeId = id

structure Referent where
  id : String
  name : String
deriving DecidableEq, Repr

/-- The id in full, whatever its hyphens and its case, or one of its short hashes. -/
def Refers (t id : String) : Prop :=
  (stripHyphens t).map Char.toLower = (stripHyphens id).map Char.toLower ∨ Abbreviates t id

/-- A marker that refers to one walked or indexed node and to no other. -/
structure Denotes (idx : NameIndex) (nodes : List WorkflowyNode) (t : String) (x : Referent) :
    Prop where
  known : (∃ m∈nodes, m.id = x.id ∧ m.name = x.name) ∨
    (∀ m∈nodes, m.id≠x.id) ∧ ∃ e, idx.lookupEntryById x.id = some e ∧ e.name = x.name
  refers : Refers t x.id
  only : ∀ id, (∃ m∈nodes, m.id = id) ∨ idx.Indexed id → Refers t id → id = x.id

instance (short : String) (len : Nat) (key : String) : Decidable (Spells short len key) :=
  decidable_of_iff ((String.ofList (stripHyphens short)).utf8ByteSize = len ∧
      (stripHyphens short).all isAsciiHexdigit = true ∧
      key = String.ofList ((stripHyphens short).map Char.toLower))
    ⟨fun ⟨hlen,hhex,hkey⟩ => ⟨hlen,hhex,hkey⟩,fun h => ⟨h.len,h.hex,h.key⟩⟩

instance (short id : String) : Decidable (Abbreviates short id) :=
  decidable_of_iff ((∃ key∈shortHashOf id, Spells short SHORT_HASH_LEN_URL key) ∨
      ∃ key∈prefixHashOf id, Spells short SHORT_HASH_LEN_PREFIX key) (by
    simp only [Abbreviates,exists_or,and_comm,Option.mem_def])

instance (t id : String) : Decidable (Refers t id) := inferInstanceAs (Decidable (_ ∨ _))

instance (idx : NameIndex) (nodes : List WorkflowyNode) (t : String) (x : Referent) :
    Decidable (Denotes idx nodes t x) :=
  decidable_of_iff (((∃ m∈nodes, m.id = x.id ∧ m.name = x.name) ∨
      (∀ m∈nodes, m.id≠x.id) ∧ ∃ e∈idx.lookupEntryById x.id, e.name = x.name) ∧ Refers t x.id ∧
      (∀ m∈nodes, Refers t m.id → m.id = x.id) ∧ ∀ id∈idx.byId.keys, Refers t id → id = x.id)
    ⟨fun ⟨hknown,hrefers,hwalked,hindexed⟩ => ⟨hknown,hrefers,fun id hid ht => by
      rcases hid with ⟨m,hm,rfl⟩ | hid
      · exact hwalked m hm ht
      · exact hindexed id (indexed_iff_mem.mp hid) ht⟩,
    fun h => ⟨h.known,h.refers,fun m hm => h.only m.id (.inl ⟨m,hm,rfl⟩),
      fun id hid => h.only id (.inr (indexed_iff_mem.mpr hid))⟩⟩

instance (findings : List MirrorFinding) (status id : String) :
    Decidable (Reported findings status id) :=
  inferInstanceAs (Decidable (∃ f∈findings, f.status = status ∧ f.nodeId = id))

section verdict
variable (toLowercase : String → String) (isWord : Char → Bool)

/-- What the findings are to say about a mirror of `x`. -/
structure Judged (findings : List MirrorFinding) (n : WorkflowyNode) (x : Referent) : Prop where
  found : ¬Reported findings "BROKEN" n.id
  drifted : Reported findings "DRIFTED" n.id ↔ drifted toLowercase isWord n.name x.name

/-- No walked id ends with the marker or is its end, and the index then answers for it. -/
def Leads (ops : List IndexOp) (nodes : List WorkflowyNode) (t u : String) : Prop :=
  inScope toLowercase nodes t = false ∧ LookedUp toLowercase (ops++[.ingest nodes]) t u

/-- Every node the marker matches drifts as `x` does. Where it matches no walked node, it leads to
`x` and matches it, or the marker of another mirror leads to an id that it matches. -/
structure Traced (ops : List IndexOp) (nodes : List WorkflowyNode) (n : WorkflowyNode)
    (target : String) (x : Referent) : Prop where
  walked : ∀ c∈nodes, idMatch toLowercase c.id target →
    drifted toLowercase isWord n.name c.name = drifted toLowercase isWord n.name x.name
  led : (∀ c∈nodes, ¬idMatch toLowercase c.id target) →
    (idMatch toLowercase x.id target ∧ Leads toLowercase ops nodes (toLowercase target) x.id) ∨
    ∃ m∈nodes, ∃ other, mirrorTarget toLowercase isWord m = some other ∧
      toLowercase other≠toLowercase target ∧
      ∃ u, idMatch toLowercase u target ∧ Leads toLowercase ops nodes (toLowercase other) u
  strays : (∀ c∈nodes, ¬idMatch toLowercase c.id target) → ∀ m∈nodes, ∀ other,
    mirrorTarget toLowercase isWord m = some other → toLowercase other≠toLowercase target →
    ∀ u, idMatch toLowercase u target → Leads toLowercase ops nodes (toLowercase other) u →
    ∀ e, (Runs.run (perform toLowercase) {} ops).lookupEntryById u = some e →
      drifted toLowercase isWord n.name e.name = drifted toLowercase isWord n.name x.name

end verdict

section judged
variable {toLowercase : String → String} {isWord : Char → Bool} {ops : List IndexOp}
  {nodes : List WorkflowyNode} {external : List ExternalCanonical} {n : WorkflowyNode}
  {target : String} {x : Referent}

theorem reported_iff (it : Iteration toLowercase isWord nodes external)
    (hn : (nodes.map WorkflowyNode.id).Nodup) (hmem : n∈nodes) {status : String}
    (hs : status≠"LONELY") :
    Reported (auditMirrorsWithExternal toLowercase isWord nodes external it) status n.id ↔
      ∃ k∈(nodeFindings toLowercase isWord it n).map key, k.1 = status := by
  constructor
  · rintro ⟨f,hf,rfl,hid⟩
    exact ⟨key f,(mem_audit_node it hn hmem hs hid).mp (List.mem_map_of_mem hf),rfl⟩
  · rintro ⟨k,hk,rfl⟩
    have hid := (mem_nodeFindings it hk).2
    obtain ⟨f,hf,rfl⟩ := List.mem_map.mp ((mem_audit_node it hn hmem hs hid).mpr hk)
    exact ⟨f,hf,rfl,hid⟩

theorem judged_canonical (it : Iteration toLowercase isWord nodes external)
    (hn : (nodes.map WorkflowyNode.id).Nodup) (hmem : n∈nodes) {place : String} {c : Canonical}
    (hc : nodeFindings toLowercase isWord it n = canonicalFindings toLowercase isWord n place c) :
    Judged toLowercase isWord (auditMirrorsWithExternal toLowercase isWord nodes external it) n x ↔
      drifted toLowercase isWord n.name c.name = drifted toLowercase isWord n.name x.name := by
  have hbroken : ¬Reported (auditMirrorsWithExternal toLowercase isWord nodes external it)
      "BROKEN" n.id := by
    rw [reported_iff it hn hmem (by decide),hc]
    rintro ⟨k,hk,hs⟩
    rcases mem_canonicalFindings.mp hk with ⟨-,rfl⟩ | ⟨-,rfl⟩
    · exact absurd hs (by simp)
    · exact absurd hs (by simp)
  have hdrifted : Reported (auditMirrorsWithExternal toLowercase isWord nodes external it)
      "DRIFTED" n.id ↔ drifted toLowercase isWord n.name c.name := by
    rw [reported_iff it hn hmem (by decide),hc]
    constructor
    · rintro ⟨k,hk,hs⟩
      rcases mem_canonicalFindings.mp hk with ⟨hd,-⟩ | ⟨-,rfl⟩
      · exact hd
      · exact absurd hs (by simp)
    · exact fun hd => ⟨_,mem_canonicalFindings.mpr (.inl ⟨hd,rfl⟩),rfl⟩
  rw [Bool.eq_iff_iff,← hdrifted]
  exact ⟨Judged.drifted,fun h => ⟨hbroken,h⟩⟩

theorem not_judged_broken (it : Iteration toLowercase isWord nodes external)
    (hn : (nodes.map WorkflowyNode.id).Nodup) (hmem : n∈nodes) {issue : String}
    (hc : nodeFindings toLowercase isWord it n = [mkFinding "BROKEN" n issue]) :
    ¬Judged toLowercase isWord (auditMirrorsWithExternal toLowercase isWord nodes external it) n
      x := by
  intro h
  refine h.found ((reported_iff it hn hmem (by decide)).mpr ?_)
  exact ⟨_,List.mem_map_of_mem (hc ▸ List.mem_singleton.mpr rfl),rfl⟩

/-- An audit is right about a mirror in every order if and only if all its marker can match drifts
as `x` does, and something is matched. -/
theorem judged_iff_matches (hn : (nodes.map WorkflowyNode.id).Nodup) (hmem : n∈nodes)
    (ht : mirrorTarget toLowercase isWord n = some target) :
    (∀ it : Iteration toLowercase isWord nodes external,
      Judged toLowercase isWord (auditMirrorsWithExternal toLowercase isWord nodes external it) n
        x) ↔
      (∀ c∈nodes, idMatch toLowercase c.id target →
        drifted toLowercase isWord n.name c.name = drifted toLowercase isWord n.name x.name) ∧
      ((∀ c∈nodes, ¬idMatch toLowercase c.id target) →
        (∃ e∈external, idMatch toLowercase e.id target) ∧
        ∀ e∈external, idMatch toLowercase e.id target →
          drifted toLowercase isWord n.name e.name = drifted toLowercase isWord n.name x.name) := by
  let listed := Iteration.listed toLowercase isWord nodes external
  constructor
  · intro h
    refine ⟨fun c hc hm => ?_,fun hno => ⟨?_,fun e he hm => ?_⟩⟩
    · rw [← byId_eq_self hn] at hc
      exact (judged_canonical _ hn hmem (nodeFindings_led listed ht hc hm)).mp (h _)
    · have hfind : nodeFindings toLowercase isWord listed n =
          mirrorFindings toLowercase isWord listed n target := by simp [nodeFindings,ht]
      rcases mirrorFindings_node listed n target with
        ⟨c,hc,hm,-⟩ | ⟨-,⟨e,he,hm,-⟩ | ⟨-,heq⟩⟩
      · exact absurd hm (hno c ((mem_byId_iff listed hn).mp hc))
      · exact ⟨e,he,hm⟩
      · exact absurd (h listed) (not_judged_broken listed hn hmem (hfind.trans heq))
    · have hno' : ∀ c∈listed.byId, ¬idMatch toLowercase c.id target := fun c hc =>
        hno c ((mem_byId_iff listed hn).mp hc)
      exact (judged_canonical _ hn hmem (nodeFindings_ledOutside listed ht hno' he hm)).mp (h _)
  · rintro ⟨hwalked,hout⟩ it
    have hfind : nodeFindings toLowercase isWord it n =
        mirrorFindings toLowercase isWord it n target := by simp [nodeFindings,ht]
    rcases mirrorFindings_node it n target with ⟨c,hc,hm,heq⟩ | ⟨hno,hrest⟩
    · exact (judged_canonical it hn hmem (hfind.trans heq)).mpr
        (hwalked c ((mem_byId_iff it hn).mp hc) hm)
    · obtain ⟨⟨e',he',hm'⟩,hall⟩ := hout fun c hc => hno c ((mem_byId_iff it hn).mpr hc)
      rcases hrest with ⟨e,he,hm,heq⟩ | ⟨hnone,-⟩
      · exact (judged_canonical it hn hmem (hfind.trans heq)).mpr
          (hall e (it.externals_perm.mem_iff.mp he) hm)
      · exact absurd hm' (hnone e' (it.externals_perm.mem_iff.mpr he'))

theorem indexed_leads {t u : String} (h : Leads toLowercase ops nodes t u) :
    (Runs.run (perform toLowercase) {} (ops++[.ingest nodes])).Indexed u ∧ Refers t u := by
  obtain ⟨-,⟨hindexed,rfl⟩ | ⟨-,hshort⟩⟩ := h
  · exact ⟨hindexed,.inl rfl⟩
  · have hr := resolve_run.mpr hshort
    exact ⟨indexed_of_resolve (hashed_run _) hr,.inr (abbreviates_of_resolve (hashed_run _) hr)⟩

theorem lookup_called (ops : List IndexOp) (nodes : List WorkflowyNode) (u : String) :
    (Runs.run (perform toLowercase) {} (ops++[.ingest nodes])).lookupEntryById u =
      observeAll toLowercase u ((Runs.run (perform toLowercase) {} ops).lookupEntryById u)
        nodes := by
  rw [Runs.run_concat]
  exact lookup_ingest (wf_run ops) nodes u

theorem indexed_called {u : String} :
    (Runs.run (perform toLowercase) {} (ops++[.ingest nodes])).Indexed u ↔
      (∃ m∈nodes, m.id = u) ∨ (Runs.run (perform toLowercase) {} ops).Indexed u := by
  rw [indexed_iff (wf_run _),indexed_iff (wf_run _),lookup_called,ne_eq,observeAll_eq_none,
    not_and_or,or_comm]
  simp

/-- By its own marker a mirror is led to the node that it refers to. -/
theorem Denotes.led {t u : String}
    (hx : Denotes (Runs.run (perform toLowercase) {} ops) nodes t x)
    (h : Leads toLowercase ops nodes t u) : u = x.id :=
  hx.only u (indexed_called.mp (indexed_leads h).1) (indexed_leads h).2

theorem mem_externals_leads {e : ExternalCanonical} :
    e∈callExternals toLowercase isWord true (Runs.run (perform toLowercase) {} ops) nodes ↔
      ∃ m∈nodes, ∃ other, mirrorTarget toLowercase isWord m = some other ∧
        ∃ u, Leads toLowercase ops nodes (toLowercase other) u ∧
        ∃ entry, (Runs.run (perform toLowercase) {} (ops++[.ingest nodes])).lookupEntryById u =
          some entry ∧ e = entry.toExternal := by
  have hcalled : (Runs.run (perform toLowercase) {} ops).ingest toLowercase nodes =
    Runs.run (perform toLowercase) {} (ops++[.ingest nodes]) :=
      (Runs.run_concat (perform toLowercase) {} ops (.ingest nodes)).symm
  rw [mem_callExternals,hcalled]
  refine exists_congr fun m => and_congr_right fun _ => exists_congr fun other =>
    and_congr_right fun _ => ?_
  constructor
  · rintro ⟨hout,entry,hentry,rfl⟩
    obtain ⟨u,hu,hl⟩ := resolveTarget_eq_some.mp hentry
    exact ⟨u,⟨hout,hu⟩,entry,hl,rfl⟩
  · rintro ⟨u,⟨hout,hu⟩,entry,hl,rfl⟩
    exact ⟨hout,entry,resolveTarget_eq_some.mpr ⟨u,hu,hl⟩,rfl⟩

/-- What the marker matches, where it matches no walked node, the index holds as before the call. -/
theorem lookup_matched {u : String} (hno : ∀ c∈nodes, ¬idMatch toLowercase c.id target)
    (hu : idMatch toLowercase u target) :
    (Runs.run (perform toLowercase) {} (ops++[.ingest nodes])).lookupEntryById u =
      (Runs.run (perform toLowercase) {} ops).lookupEntryById u := by
  rw [lookup_called,observeAll_of_absent]
  rintro m hm rfl
  exact hno m hm hu

theorem exists_external {m : WorkflowyNode} (hm : m∈nodes) {other : String}
    (hother : mirrorTarget toLowercase isWord m = some other) {u : String}
    (hlead : Leads toLowercase ops nodes (toLowercase other) u) :
    ∃ e∈callExternals toLowercase isWord true (Runs.run (perform toLowercase) {} ops) nodes,
      e.id = u := by
  have hindexed := (indexed_iff (wf_run _)).mp (indexed_leads hlead).1
  obtain ⟨entry,he⟩ := Option.ne_none_iff_exists'.mp hindexed
  exact ⟨_,mem_externals_leads.mpr ⟨m,hm,other,hother,u,hlead,entry,he,rfl⟩,nodeId_of_lookup he⟩

section directions
variable (hno : ∀ c∈nodes, ¬idMatch toLowercase c.id target)
  (hx : Denotes (Runs.run (perform toLowercase) {} ops) nodes (toLowercase target) x)
include hx

/-- An external that the marker matches was found by the marker itself or by another one. -/
theorem led_of_external {e : ExternalCanonical}
    (he : e∈callExternals toLowercase isWord true (Runs.run (perform toLowercase) {} ops) nodes)
    (hmatch : idMatch toLowercase e.id target) :
    (idMatch toLowercase x.id target ∧ Leads toLowercase ops nodes (toLowercase target) x.id) ∨
    ∃ m∈nodes, ∃ other, mirrorTarget toLowercase isWord m = some other ∧
      toLowercase other≠toLowercase target ∧
      ∃ u, idMatch toLowercase u target ∧ Leads toLowercase ops nodes (toLowercase other) u := by
  obtain ⟨m,hm,other,hother,u,hlead,entry,hl,rfl⟩ := mem_externals_leads.mp he
  have hu : idMatch toLowercase u target := nodeId_of_lookup hl ▸ hmatch
  by_cases heq : toLowercase other = toLowercase target
  · rw [heq] at hlead
    obtain rfl := hx.led hlead
    exact .inl ⟨hu,hlead⟩
  · exact .inr ⟨m,hm,other,hother,heq,u,hu,hlead⟩

include hno in
/-- What the marker itself finds is `x`, under its name. -/
theorem Traced.drifts (h : Traced toLowercase isWord ops nodes n target x) {e : ExternalCanonical}
    (he : e∈callExternals toLowercase isWord true (Runs.run (perform toLowercase) {} ops) nodes)
    (hmatch : idMatch toLowercase e.id target) :
    drifted toLowercase isWord n.name e.name = drifted toLowercase isWord n.name x.name := by
  obtain ⟨m,hm,other,hother,u,hlead,entry,hl,rfl⟩ := mem_externals_leads.mp he
  have hu : idMatch toLowercase u target := nodeId_of_lookup hl ▸ hmatch
  rw [lookup_matched hno hu] at hl
  by_cases heq : toLowercase other = toLowercase target
  · rw [heq] at hlead
    obtain rfl := hx.led hlead
    rcases hx.known with ⟨c,hc,hid,-⟩ | ⟨-,e,he,hname⟩
    · exact absurd (hid ▸ hu) (hno c hc)
    · obtain rfl := Option.some.inj (hl.symm.trans he)
      exact hname ▸ rfl
  · exact h.strays hno m hm other hother heq u hu hlead entry hl

end directions

/-- The tool is right about a mirror, whatever the order of its maps, if and only if the walked
nodes, or else the index, trace its marker. -/
theorem judged_iff_traced (toLowercase : String → String) (isWord : Char → Bool)
    (ops : List IndexOp) (nodes : List WorkflowyNode) (n : WorkflowyNode) (target : String)
    (x : Referent) (hn : (nodes.map WorkflowyNode.id).Nodup) (hmem : n∈nodes)
    (ht : mirrorTarget toLowercase isWord n = some target)
    (hx : Denotes (Runs.run (perform toLowercase) {} ops) nodes (toLowercase target) x) :
    (∀ it : Iteration toLowercase isWord nodes
        (callExternals toLowercase isWord true (Runs.run (perform toLowercase) {} ops) nodes),
      Judged toLowercase isWord (auditMirrorsWithExternal toLowercase isWord nodes _ it) n x) ↔
      Traced toLowercase isWord ops nodes n target x := by
  rw [judged_iff_matches hn hmem ht]
  constructor
  · rintro ⟨hwalked,hout⟩
    refine ⟨hwalked,fun hno => ?_,fun hno m hm other hother hne u hu hlead e he => ?_⟩
    · obtain ⟨e,he,hmatch⟩ := (hout hno).1
      exact led_of_external hx he hmatch
    · have hl := (lookup_matched hno hu).trans he
      have hid : e.toExternal.id = u := nodeId_of_lookup he
      exact (hout hno).2 e.toExternal
        (mem_externals_leads.mpr ⟨m,hm,other,hother,u,hlead,e,hl,rfl⟩) (hid.symm ▸ hu)
  · intro h
    refine ⟨h.walked,fun hno => ⟨?_,fun e he hmatch => h.drifts hno hx he hmatch⟩⟩
    rcases h.led hno with ⟨hu,hlead⟩ | ⟨m,hm,other,hother,-,u,hu,hlead⟩
    · obtain ⟨e,he,hid⟩ := exists_external hmem ht hlead
      exact ⟨e,he,hid.symm ▸ hu⟩
    · obtain ⟨e,he,hid⟩ := exists_external hm hother hlead
      exact ⟨e,he,hid.symm ▸ hu⟩

def habits : WorkflowyNode := { id := hyphenated, name := "Habits" }

def mirrorOf (marker : String) : WorkflowyNode :=
  { id := "bbbbbbbb-0000-4000-8000-000000000001", name := "Habits",
    description := some ("mirror_of: " ++ marker) }

theorem suffix_traced :
    let idx := Runs.run (perform asciiLowercase) {} [.ingest [habits]]
    ∀ it : Iteration asciiLowercase asciiWord [mirrorOf "446655440000"]
        (callExternals asciiLowercase asciiWord true idx [mirrorOf "446655440000"]),
      Judged asciiLowercase asciiWord (auditMirrorsWithExternal asciiLowercase asciiWord
        [mirrorOf "446655440000"] _ it) (mirrorOf "446655440000") ⟨hyphenated,"Habits"⟩ :=
  (judged_iff_traced asciiLowercase asciiWord [.ingest [habits]] [mirrorOf "446655440000"]
    (mirrorOf "446655440000") "446655440000" ⟨hyphenated,"Habits"⟩ (by decide) (by simp)
    (by decide +kernel) (by decide +kernel)).mpr
    { walked := by decide +kernel
      led := fun _ => .inl ⟨by decide +kernel,by decide +kernel,
        .inr ⟨by decide +kernel,resolve_run.mp (by decide +kernel)⟩⟩
      strays := fun _ m hm other hother hne => by
        have hmark : mirrorTarget asciiLowercase asciiWord (mirrorOf "446655440000") =
          some "446655440000" := by decide +kernel
        obtain rfl := List.mem_singleton.mp hm
        exact absurd (congrArg asciiLowercase (Option.some.inj (hother.symm.trans hmark))) hne }

/-- The findings about a mirror of that marker, which is walked together with `others`. -/
def findingsOf (ops : List IndexOp) (marker : String) (others : List WorkflowyNode) :
    List MirrorFinding :=
  auditMirrorsWithExternal asciiLowercase asciiWord (mirrorOf marker::others)
    (callExternals asciiLowercase asciiWord true (Runs.run (perform asciiLowercase) {} ops)
      (mirrorOf marker::others)) (.listed ..)

/-- A walked id ends with the eight digits another one starts with; the id is given without
hyphens; a twin is indexed later and dropped, which takes the suffix away and leaves the prefix
ambiguous. Each time the name has not changed. -/
theorem mirrors_misjudged :
    let x : Referent := ⟨hyphenated,"Habits"⟩
    let idx (ops : List IndexOp) := Runs.run (perform asciiLowercase) {} ops
    let indexed : List IndexOp := [.ingest [habits]]
    let lookalike : WorkflowyNode :=
      { id := "aaaaaaaa-0000-4000-8000-0000550e8400", name := "Taxes" }
    let twin : WorkflowyNode := { id := "550e8400-e29b-41d4-b716-446655440000", name := "Taxes" }
    let twinned : List IndexOp := [.ingest [habits,twin],.invalidateNode twin.id]
    (mirrorTarget asciiLowercase asciiWord (mirrorOf "550e8400") = some "550e8400" ∧
      Denotes (idx indexed) [mirrorOf "550e8400",lookalike] "550e8400" x ∧
      Reported (findingsOf indexed "550e8400" [lookalike]) "DRIFTED" (mirrorOf "550e8400").id ∧
      drifted asciiLowercase asciiWord (mirrorOf "550e8400").name x.name = false) ∧
    ∀ call∈[(indexed,unhyphenated),(twinned,"446655440000"),(twinned,"550e8400")],
      mirrorTarget asciiLowercase asciiWord (mirrorOf call.2) = some call.2 ∧
      Denotes (idx call.1) [mirrorOf call.2] call.2 x ∧
      Reported (findingsOf call.1 call.2 []) "BROKEN" (mirrorOf call.2).id := by
  decide +kernel

end judged
end Audit
end WorkflowyMcp
