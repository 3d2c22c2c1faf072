import WorkflowyMcp.Lib.Runs
import WorkflowyMcp.IndexDisk

/-! The four maps of a name index kept consistent: the two hash maps point into the
reverse map, and a prefix that counts one owner has that owner only. -/
namespace WorkflowyMcp.NameIndex
variable {toLowercase : String → String} {idx : NameIndex}

def Indexed (idx : NameIndex) (id : String) : Prop := (idx.byId.lookup id).isSome

instance (idx : NameIndex) : DecidablePred idx.Indexed :=
  fun id => inferInstanceAs (Decidable ((idx.byId.lookup id).isSome = true))

theorem indexed_removeLocked {x id : String} :
    (idx.removeLocked x).Indexed id ↔ idx.Indexed id ∧ id≠x := by
  unfold Indexed removeLocked
  simp only [KeyMap.lookup_erase_ite]
  by_cases hx : id=x
  · simp [hx]
  · simp [hx]

theorem indexed_addNode {node : WorkflowyNode} {id : String} :
    (idx.addNode toLowercase node).Indexed id ↔ idx.Indexed id ∨ id=node.id := by
  unfold Indexed addNode
  simp only [KeyMap.lookup_insert_ite]
  by_cases hx : id=node.id
  · simp [hx]
  · simp [hx]

section maps
variable (byShort : KeyMap String String) (byPrefix : KeyMap String PrefixEntry) (x : String)

theorem lookup_dropShort (s : String) :
    (dropShort byShort x).lookup s =
      if shortHashOf x = some s ∧ byShort.lookup s = some x then none else byShort.lookup s := by
  unfold dropShort
  cases hx : shortHashOf x with
  | none => simp
  | some t =>
    by_cases hs : s=t
    · subst hs
      by_cases ht : byShort.lookup s = some x
      · simp [ht]
      · simp [ht]
    · have hts : t≠s := Ne.symm hs
      by_cases ht : byShort.lookup t = some x
      · simp [ht,hs,hts]
      · simp [ht,hts]

theorem lookup_addShort (s : String) :
    (addShort byShort x).lookup s =
      if shortHashOf x = some s then some x else byShort.lookup s := by
  unfold addShort
  cases hx : shortHashOf x with
  | none => simp
  | some t => simp [eq_comm]

theorem lookup_dropPrefix (p : String) :
    (dropPrefix byPrefix x).lookup p =
      if prefixHashOf x = some p ∧ byPrefix.lookup p = some ⟨x,1⟩ then none
      else byPrefix.lookup p := by
  unfold dropPrefix
  cases hx : prefixHashOf x with
  | none => simp
  | some q =>
    by_cases hp : p=q
    · subst hp
      cases hq : byPrefix.lookup p with
      | none => simp [hq]
      | some e =>
        obtain ⟨uuid,count⟩ := e
        by_cases he : uuid = x ∧ count = 1
        · simp [he,hq]
        · simp [he,and_comm,hq]
    · have hqp : q≠p := Ne.symm hp
      cases hq : byPrefix.lookup q with
      | none => simp [hq,hqp]
      | some e =>
        by_cases he : e.count = 1 ∧ e.fullUuid = x
        · simp [hq,he,hp,hqp]
        · simp [hq,he,hqp]

/-- The entry of a prefix after one more id with it. -/
def bumped (o : Option PrefixEntry) (x : String) : PrefixEntry :=
  match o with
  | some e => if e.fullUuid = x then e else { e with count := min (e.count+1) (2^32-1) }
  | none => ⟨x,1⟩

theorem lookup_addPrefix (p : String) :
    (addPrefix byPrefix x).lookup p =
      if prefixHashOf x = some p then some (bumped (byPrefix.lookup p) x)
      else byPrefix.lookup p := by
  unfold addPrefix
  cases hx : prefixHashOf x with
  | none => simp
  | some q =>
    by_cases hp : p=q
    · subst hp
      cases hq : byPrefix.lookup p with
      | none => simp [bumped,hq]
      | some e =>
        by_cases he : e.fullUuid = x
        · simp [bumped,he,hq]
        · simp [bumped,he,hq]
    · have hne : ¬q=p := Ne.symm hp
      cases hq : byPrefix.lookup q with
      | none => simp [hq,hp,hne]
      | some e =>
        by_cases he : e.fullUuid = x
        · simp [hq,he,hne]
        · simp [hq,he,hp,hne]

end maps

/- Beside what is promised of the hash maps: every indexed prefix is listed, and no count
   is zero. Both are needed for a collision to be noticed. -/
structure Hashed (idx : NameIndex) : Prop where
  short : ∀ s u, idx.byShortHash.lookup s = some u → idx.Indexed u ∧ shortHashOf u = some s
  owner : ∀ p u, idx.byPrefixHash.lookup p = some ⟨u,1⟩ → idx.Indexed u ∧ prefixHashOf u = some p
  sole : ∀ p u, idx.byPrefixHash.lookup p = some ⟨u,1⟩ →
    ∀ id, idx.Indexed id → prefixHashOf id = some p → id = u
  listed : ∀ p id, idx.Indexed id → prefixHashOf id = some p →
    (idx.byPrefixHash.lookup p).isSome
  counted : ∀ p e, idx.byPrefixHash.lookup p = some e → 0 < e.count

theorem Hashed.empty : Hashed {} := ⟨by simp,by simp,by simp,by simp [Indexed],by simp⟩

theorem Hashed.clear (idx : NameIndex) : idx.clear.Hashed :=
  ⟨by simp [NameIndex.clear],by simp [NameIndex.clear],by simp [NameIndex.clear],
    by simp [NameIndex.clear,Indexed],by simp [NameIndex.clear]⟩

theorem Hashed.removeLocked (h : idx.Hashed) (x : String) : (idx.removeLocked x).Hashed := by
  have hshort (s : String) : (idx.removeLocked x).byShortHash.lookup s =
      if shortHashOf x = some s ∧ idx.byShortHash.lookup s = some x then none
      else idx.byShortHash.lookup s := lookup_dropShort _ x s
  have hpre (p : String) : (idx.removeLocked x).byPrefixHash.lookup p =
      if prefixHashOf x = some p ∧ idx.byPrefixHash.lookup p = some ⟨x,1⟩ then none
      else idx.byPrefixHash.lookup p := lookup_dropPrefix _ x p
  have hold {p : String} {e : PrefixEntry}
      (hp : (idx.removeLocked x).byPrefixHash.lookup p = some e) :
      idx.byPrefixHash.lookup p = some e := by
    rw [hpre] at hp
    split at hp
    · cases hp
    · exact hp
  refine ⟨?_,?_,?_,?_,?_⟩
  · intro s u hs
    rw [hshort] at hs
    split at hs
    · cases hs
    · rename_i hx
      obtain ⟨hu,hhash⟩ := h.short s u hs
      refine ⟨indexed_removeLocked.mpr ⟨hu,?_⟩,hhash⟩
      rintro rfl
      exact hx ⟨hhash,hs⟩
  · intro p u hp
    have hkept := hold hp
    obtain ⟨hu,hhash⟩ := h.owner p u hkept
    refine ⟨indexed_removeLocked.mpr ⟨hu,?_⟩,hhash⟩
    rintro rfl
    rw [hpre,if_pos ⟨hhash,hkept⟩] at hp
    cases hp
  · exact fun p u hp id hid => h.sole p u (hold hp) id (indexed_removeLocked.mp hid).1
  · intro p id hid hhash
    obtain ⟨hid,hne⟩ := indexed_removeLocked.mp hid
    rw [hpre]
    split
    · rename_i hx
      exact absurd (h.sole p x hx.2 id hid hhash) hne
    · exact h.listed p id hid hhash
  · exact fun p e hp => h.counted p e (hold hp)

/-- An id that is not indexed can be added: a prefix it shares is no longer counted once. -/
theorem Hashed.addNode (h : idx.Hashed) {node : WorkflowyNode} (hnew : ¬idx.Indexed node.id) :
    (idx.addNode toLowercase node).Hashed := by
  have hshort (s : String) : (idx.addNode toLowercase node).byShortHash.lookup s =
      if shortHashOf node.id = some s then some node.id else idx.byShortHash.lookup s :=
    lookup_addShort _ node.id s
  have hpre (p : String) : (idx.addNode toLowercase node).byPrefixHash.lookup p =
      if prefixHashOf node.id = some p then some (bumped (idx.byPrefixHash.lookup p) node.id)
      else idx.byPrefixHash.lookup p := lookup_addPrefix _ node.id p
  have hbumped {p u : String} (hp : prefixHashOf node.id = some p)
      (hb : bumped (idx.byPrefixHash.lookup p) node.id = ⟨u,1⟩) :
      idx.byPrefixHash.lookup p = none ∧ u = node.id := by
    unfold bumped at hb
    split at hb
    · rename_i e he
      split at hb
      · rename_i huuid
        rw [hb] at he huuid
        obtain rfl : u = node.id := huuid
        exact absurd (h.owner p _ he).1 hnew
      · have hcount := h.counted p e he
        have hone : min (e.count+1) (2^32-1) = 1 := congrArg PrefixEntry.count hb
        omega
    · rename_i hnone
      exact ⟨hnone,(congrArg PrefixEntry.fullUuid hb).symm⟩
  refine ⟨?_,?_,?_,?_,?_⟩
  · intro s u hs
    rw [hshort] at hs
    split at hs
    · rename_i hx
      obtain rfl := Option.some.inj hs
      exact ⟨indexed_addNode.mpr (.inr rfl),hx⟩
    · obtain ⟨hu,hhash⟩ := h.short s u hs
      exact ⟨indexed_addNode.mpr (.inl hu),hhash⟩
  · intro p u hp
    rw [hpre] at hp
    split at hp
    · rename_i hx
      obtain ⟨-,rfl⟩ := hbumped hx (Option.some.inj hp)
      exact ⟨indexed_addNode.mpr (.inr rfl),hx⟩
    · obtain ⟨hu,hhash⟩ := h.owner p u hp
      exact ⟨indexed_addNode.mpr (.inl hu),hhash⟩
  · intro p u hp id hid hhash
    rw [hpre] at hp
    split at hp
    · rename_i hx
      obtain ⟨hnone,rfl⟩ := hbumped hx (Option.some.inj hp)
      refine (indexed_addNode.mp hid).resolve_left fun hold => ?_
      have hsome := h.listed p id hold hhash
      rw [hnone] at hsome
      cases hsome
    · rename_i hx
      rcases indexed_addNode.mp hid with hid | rfl
      · exact h.sole p u hp id hid hhash
      · exact absurd hhash hx
  · intro p id hid hhash
    rw [hpre]
    split
    · rfl
    · rename_i hx
      rcases indexed_addNode.mp hid with hid | rfl
      · exact h.listed p id hid hhash
      · exact absurd hhash hx
  · intro p e hp
    rw [hpre] at hp
    split at hp
    · obtain rfl := Option.some.inj hp
      unfold bumped
      split
      · rename_i e he
        have hcount := h.counted p e he
        split
        · exact hcount
        · show 0 < min (e.count+1) (2^32-1)
          omega
      · exact Nat.one_pos
    · exact h.counted p e hp

theorem Hashed.of_maps {idx' : NameIndex} (h : idx.Hashed) (hi : idx'.byId = idx.byId)
    (hs : idx'.byShortHash = idx.byShortHash) (hp : idx'.byPrefixHash = idx.byPrefixHash) :
    idx'.Hashed := by
  have hid (id : String) : idx'.Indexed id ↔ idx.Indexed id := by rw [Indexed,hi,Indexed]
  refine ⟨?_,?_,?_,?_,?_⟩
  · simpa only [hid,hs] using h.short
  · simpa only [hid,hp] using h.owner
  · simpa only [hid,hp] using h.sole
  · simpa only [hid,hp] using h.listed
  · simpa only [hp] using h.counted

theorem Hashed.invalidateNode (h : idx.Hashed) (x : String) : (idx.invalidateNode x).Hashed := by
  unfold NameIndex.invalidateNode
  split
  · exact (h.removeLocked x).of_maps rfl rfl rfl
  · exact h.removeLocked x

theorem Hashed.ingestNode (h : idx.Hashed) (node : WorkflowyNode) :
    (idx.ingestNode toLowercase node).Hashed := by
  unfold NameIndex.ingestNode
  split
  · exact h
  · exact (h.removeLocked node.id).addNode fun hid => (indexed_removeLocked.mp hid).2 rfl

theorem Hashed.ingest (h : idx.Hashed) (nodes : List WorkflowyNode) :
    (idx.ingest toLowercase nodes).Hashed := by
  induction nodes generalizing idx with
  | nil => exact h
  | cons node nodes ih => exact ih (h.ingestNode node)

theorem Hashed.mergeFromDisk (h : idx.Hashed) {file : IndexFile} {io : DiskIo} {merged : NameIndex}
    (hm : idx.mergeFromDisk toLowercase file io = .ok merged) : merged.Hashed :=
  mergeFromDisk_ok hm ▸ h.ingest _

/-- One call on a name index. -/
inductive IndexOp where
  | ingest (nodes : List WorkflowyNode)
  | invalidateNode (id : String)
  | clear
  | mergeFromDisk (file : IndexFile) (io : DiskIo)

/-- A merge that fails leaves the index as it was. -/
def perform (toLowercase : String → String) (idx : NameIndex) : IndexOp → NameIndex
  | .ingest nodes => idx.ingest toLowercase nodes
  | .invalidateNode id => idx.invalidateNode id
  | .clear => idx.clear
  | .mergeFromDisk file io =>
    match idx.mergeFromDisk toLowercase file io with
    | .ok merged => merged
    | .error _ => idx

/-- What the four operations keep, every call keeps. -/
theorem perform_keeps {P : NameIndex → Prop} (hingest : ∀ nodes, P (idx.ingest toLowercase nodes))
    (hinvalidate : ∀ id, P (idx.invalidateNode id)) (hclear : P idx.clear)
    (hmerge : ∀ file io merged, idx.mergeFromDisk toLowercase file io = .ok merged → P merged)
    (h : P idx) (op : IndexOp) : P (idx.perform toLowercase op) := by
  cases op with
  | ingest nodes => exact hingest nodes
  | invalidateNode id => exact hinvalidate id
  | clear => exact hclear
  | mergeFromDisk file io =>
    cases hm : idx.mergeFromDisk toLowercase file io with
    | ok merged =>
      simp only [NameIndex.perform,hm]
      exact hmerge file io merged hm
    | error e =>
      simp only [NameIndex.perform,hm]
      exact h

theorem Wf.perform (h : idx.Wf toLowercase) (op : IndexOp) :
    (idx.perform toLowercase op).Wf toLowercase :=
  perform_keeps h.ingest h.invalidateNode (Wf.clear idx) (fun _ _ _ hm => h.mergeFromDisk hm) h op

theorem Hashed.perform (h : idx.Hashed) (op : IndexOp) : (idx.perform toLowercase op).Hashed :=
  perform_keeps h.ingest h.invalidateNode (Hashed.clear idx)
    (fun _ _ _ hm => h.mergeFromDisk hm) h op

/- What callers may rely on. The reverse map names an id's bucket when one entry of that id
   stands in all the buckets together, and only then. -/
structure Represented (toLowercase : String → String) (idx : NameIndex) : Prop where
  filed : ∀ id k, idx.byId.lookup id = some k ↔
    idx.entries.countP (fun e => e.nodeId = id) = 1 ∧
      ∃ es, idx.byName.lookup k = some es ∧ ∃ e∈es, e.nodeId = id ∧ k = toLowercase e.name
  nonempty : ∀ k es, idx.byName.lookup k = some es → es≠[]
  short : ∀ s u, idx.byShortHash.lookup s = some u → idx.Indexed u ∧ shortHashOf u = some s
  prefixed : ∀ p e, idx.byPrefixHash.lookup p = some e → e.count = 1 →
    idx.Indexed e.fullUuid ∧ ∀ id, idx.Indexed id → (prefixHashOf id = some p ↔ id = e.fullUuid)

theorem countP_entries (h : idx.Wf toLowercase) {e : NameIndexEntry} (he : e∈idx.entries) :
    idx.entries.countP (fun f => f.nodeId = e.nodeId) = 1 := by
  have hnodup := nodup_entries h
  rw [← List.count_eq_one_of_mem hnodup (List.mem_map_of_mem he),List.count,List.countP_map]
  rfl

theorem Wf.represented (h : idx.Wf toLowercase) (hh : idx.Hashed) :
    idx.Represented toLowercase where
  filed id k := by
    constructor
    · intro hid
      obtain ⟨es,hk,e,he,rfl⟩ := h.indexed id k hid
      exact ⟨countP_entries h (mem_entries.mpr ⟨k,es,hk,he⟩),es,hk,e,he,rfl,
        (h.filed k es hk e he).2.symm⟩
    · rintro ⟨-,es,hk,e,he,rfl,-⟩
      exact (h.filed k es hk e he).1
  nonempty := h.nonempty
  short := hh.short
  prefixed p e hp hone := by
    obtain ⟨u,count⟩ := e
    obtain rfl : count = 1 := hone
    obtain ⟨hu,hhash⟩ := hh.owner p u hp
    exact ⟨hu,fun id hid => ⟨hh.sole p u hp id hid,fun he => he ▸ hhash⟩⟩

theorem run_consistent (h : idx.Wf toLowercase) (hh : idx.Hashed) (ops : List IndexOp) :
    (Runs.run (perform toLowercase) idx ops).Wf toLowercase ∧
      (Runs.run (perform toLowercase) idx ops).Hashed :=
  ⟨Runs.run_keeps (I := fun idx : NameIndex => idx.Wf toLowercase) (fun _ op h => h.perform op) h ops,
    Runs.run_keeps (I := Hashed) (fun _ op hh => hh.perform op) hh ops⟩

theorem wf_run (ops : List IndexOp) : (Runs.run (perform toLowercase) {} ops).Wf toLowercase :=
  (run_consistent Wf.empty Hashed.empty ops).1

theorem hashed_run (ops : List IndexOp) : (Runs.run (perform toLowercase) {} ops).Hashed :=
  (run_consistent Wf.empty Hashed.empty ops).2

/-- After any calls on a new index its four maps agree. -/
theorem maps_agree (toLowercase : String → String) (ops : List IndexOp) :
    (Runs.run (perform toLowercase) {} ops).Represented toLowercase :=
  (wf_run ops).represented (hashed_run ops)

end WorkflowyMcp.NameIndex
