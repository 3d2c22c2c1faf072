import WorkflowyMcp.IndexFootprint

/-! Reading a name index by reference: the id a short hash stands for, and the path to a node
along the parents of the entries. What removals and a batch of nodes change of both. -/
namespace WorkflowyMcp.NameIndex
variable {toLowercase : String → String} {idx : NameIndex}

def stripHyphens (short : String) : List Char := short.toList.filter (· ≠ '-')

/- The length is counted in bytes. -/
def resolveShortHash (idx : NameIndex) (short : String) : Option String :=
  let stripped := stripHyphens short
  let key := String.ofList (stripped.map Char.toLower)
  let len := (String.ofList stripped).utf8ByteSize
  if len = SHORT_HASH_LEN_URL then
    if !stripped.all isAsciiHexdigit then none else idx.byShortHash.lookup key
  else if len = SHORT_HASH_LEN_PREFIX then
    if !stripped.all isAsciiHexdigit then none
    else
      match idx.byPrefixHash.lookup key with
      | some e => if e.count > 1 then none else some e.fullUuid
      | none => none
  else none

/-- The entries on the way up from `current`, at most `hops` of them. -/
def pathEntries (idx : NameIndex) : Nat → Option NameIndexEntry → List NameIndexEntry
  | hops+1,some e => e::idx.pathEntries hops (e.parentId.bind idx.lookupEntryById)
  | _,_ => []

def pathOf (idx : NameIndex) (nodeId : String) : List String :=
  ((idx.pathEntries 33 (idx.lookupEntryById nodeId)).map NameIndexEntry.name).reverse

/- `short` is a hash of `len` digits and `key` its form in the maps. -/
structure Spells (short : String) (len : Nat) (key : String) : Prop where
  len : (String.ofList (stripHyphens short)).utf8ByteSize = len
  hex : (stripHyphens short).all isAsciiHexdigit = true
  key : key = String.ofList ((stripHyphens short).map Char.toLower)

theorem Spells.unique {short key key' : String} {len len' : Nat} (h : Spells short len key)
    (h' : Spells short len' key') : len = len' ∧ key = key' :=
  ⟨h.len.symm.trans h'.len,h.key.trans h'.key.symm⟩

/-- `short` is one of the two short forms of `id`. -/
def Abbreviates (short id : String) : Prop :=
  ∃ key, Spells short SHORT_HASH_LEN_URL key ∧ shortHashOf id = some key ∨
    Spells short SHORT_HASH_LEN_PREFIX key ∧ prefixHashOf id = some key

theorem resolve_eq_some (h : idx.Hashed) {short u : String} :
    idx.resolveShortHash short = some u ↔
      ∃ key, Spells short SHORT_HASH_LEN_URL key ∧ idx.byShortHash.lookup key = some u ∨
        Spells short SHORT_HASH_LEN_PREFIX key ∧ idx.byPrefixHash.lookup key = some ⟨u,1⟩ := by
  unfold resolveShortHash
  constructor
  · intro hr
    simp only [Bool.not_eq_true',← Bool.not_eq_true] at hr
    split at hr
    · rename_i hlen
      split at hr
      · cases hr
      · rename_i hhex
        exact ⟨_,.inl ⟨⟨hlen,not_not.mp hhex,rfl⟩,hr⟩⟩
    · split at hr
      · rename_i hlen
        split at hr
        · cases hr
        · rename_i hhex
          split at hr
          · rename_i e he
            split at hr
            · cases hr
            · rename_i hcount
              obtain rfl := Option.some.inj hr
              have hpos := h.counted _ e he
              have hone : e = ⟨e.fullUuid,1⟩ := by
                obtain ⟨uuid,count⟩ := e
                simp only [PrefixEntry.mk.injEq,true_and] at hpos hcount ⊢
                omega
              exact ⟨_,.inr ⟨⟨hlen,not_not.mp hhex,rfl⟩,hone ▸ he⟩⟩
          · cases hr
      · cases hr
  · rintro ⟨key,⟨⟨hlen,hhex,rfl⟩,hkey⟩ | ⟨⟨hlen,hhex,rfl⟩,hkey⟩⟩
    · simp only [hlen,if_true,hhex]
      exact hkey
    · have hne : ¬SHORT_HASH_LEN_PREFIX = SHORT_HASH_LEN_URL := by decide
      simp only [hlen,if_neg hne,if_true,hhex,hkey]
      rfl

theorem indexed_of_resolve (h : idx.Hashed) {short u : String}
    (hr : idx.resolveShortHash short = some u) : idx.Indexed u := by
  obtain ⟨key,⟨-,hkey⟩ | ⟨-,hkey⟩⟩ := (resolve_eq_some h).mp hr
  · exact (h.short key u hkey).1
  · exact (h.owner key u hkey).1

theorem abbreviates_of_resolve (h : idx.Hashed) {short u : String}
    (hr : idx.resolveShortHash short = some u) : Abbreviates short u := by
  obtain ⟨key,⟨hs,hkey⟩ | ⟨hs,hkey⟩⟩ := (resolve_eq_some h).mp hr
  · exact ⟨key,.inl ⟨hs,(h.short key u hkey).2⟩⟩
  · exact ⟨key,.inr ⟨hs,(h.owner key u hkey).2⟩⟩

/-- What a short hash stands for is lost with the entry only. -/
theorem resolve_removeLocked (h : idx.Hashed) (x : String) {short u : String} :
    (idx.removeLocked x).resolveShortHash short = some u ↔
      idx.resolveShortHash short = some u ∧ u≠x := by
  have hshort (s : String) : (idx.removeLocked x).byShortHash.lookup s = some u ↔
      idx.byShortHash.lookup s = some u ∧ u≠x := by
    have hown := h.short s x
    simp only [removeLocked,lookup_dropShort]
    split
    · rename_i hx
      simp [hx.2,eq_comm]
    · rename_i hx
      refine ⟨fun hs => ⟨hs,?_⟩,And.left⟩
      rintro rfl
      exact hx ⟨(hown hs).2,hs⟩
  have hpre (p : String) : (idx.removeLocked x).byPrefixHash.lookup p = some ⟨u,1⟩ ↔
      idx.byPrefixHash.lookup p = some ⟨u,1⟩ ∧ u≠x := by
    have hown := h.owner p x
    simp only [removeLocked,lookup_dropPrefix]
    split
    · rename_i hx
      simp [hx.2,eq_comm]
    · rename_i hx
      refine ⟨fun hp => ⟨hp,?_⟩,And.left⟩
      rintro rfl
      exact hx ⟨(hown hp).2,hp⟩
  rw [resolve_eq_some (h.removeLocked x),resolve_eq_some h]
  simp only [hshort,hpre,← and_assoc,← or_and_right,exists_and_right]

theorem resolve_invalidateNode (h : idx.Hashed) (x : String) {short u : String} :
    (idx.invalidateNode x).resolveShortHash short = some u ↔
      idx.resolveShortHash short = some u ∧ u≠x := by
  rw [← resolve_removeLocked h]
  unfold invalidateNode
  split <;> rfl

theorem Hashed.invalidateAll (h : idx.Hashed) (ids : List String) :
    (ids.foldl NameIndex.invalidateNode idx).Hashed := by
  induction ids generalizing idx with
  | nil => exact h
  | cons id ids ih => exact ih (h.invalidateNode id)

theorem resolve_invalidateAll (h : idx.Hashed) (ids : List String) {short u : String} :
    (ids.foldl NameIndex.invalidateNode idx).resolveShortHash short = some u ↔
      idx.resolveShortHash short = some u ∧ u∉ids := by
  induction ids generalizing idx with
  | nil => simp
  | cons id ids ih =>
    rw [List.foldl_cons,ih (h.invalidateNode id),resolve_invalidateNode h,List.mem_cons,not_or,
      and_assoc]

theorem bumped_eq_one {o : Option PrefixEntry} {x u : String} (hu : u≠x)
    (ho : ∀ e, o = some e → 0 < e.count) : bumped o x ≠ ⟨u,1⟩ := by
  intro he
  cases o with
  | none => exact hu (congrArg PrefixEntry.fullUuid he).symm
  | some e =>
    have hpos := ho e rfl
    simp only [bumped] at he
    split at he
    · rename_i hx
      exact hu (by rw [← hx,he])
    · have hone : min (e.count+1) (2^32-1) = 1 := congrArg PrefixEntry.count he
      omega

/-- A node that is added takes over the short hashes it shares. -/
theorem resolve_addNode (h : idx.Hashed) {node : WorkflowyNode} (hnew : ¬idx.Indexed node.id)
    {short u : String} (hu : u≠node.id) :
    (idx.addNode toLowercase node).resolveShortHash short = some u ↔
      idx.resolveShortHash short = some u ∧ ¬Abbreviates short node.id := by
  have hshort (s : String) : (idx.addNode toLowercase node).byShortHash.lookup s = some u ↔
      idx.byShortHash.lookup s = some u ∧ shortHashOf node.id ≠ some s := by
    simp only [addNode,lookup_addShort]
    split
    · rename_i hx
      simp [hx,Ne.symm hu]
    · rename_i hx
      simp [hx]
  have hpre (p : String) : (idx.addNode toLowercase node).byPrefixHash.lookup p = some ⟨u,1⟩ ↔
      idx.byPrefixHash.lookup p = some ⟨u,1⟩ ∧ prefixHashOf node.id ≠ some p := by
    simp only [addNode,lookup_addPrefix]
    split
    · rename_i hx
      simp [hx,bumped_eq_one hu (h.counted p)]
    · rename_i hx
      simp [hx]
  rw [resolve_eq_some (h.addNode hnew),resolve_eq_some h]
  simp only [hshort,hpre,Abbreviates,not_exists,not_or,not_and]
  have hforms : SHORT_HASH_LEN_PREFIX≠SHORT_HASH_LEN_URL := by decide
  constructor
  · rintro ⟨key,⟨hs,hkey,hno⟩ | ⟨hs,hkey,hno⟩⟩
    · refine ⟨⟨key,.inl ⟨hs,hkey⟩⟩,fun key' => ⟨fun hs' => ?_,fun hs' => ?_⟩⟩
      · exact (hs'.unique hs).2 ▸ hno
      · exact absurd (hs'.unique hs).1 hforms
    · refine ⟨⟨key,.inr ⟨hs,hkey⟩⟩,fun key' => ⟨fun hs' => ?_,fun hs' => ?_⟩⟩
      · exact absurd (hs.unique hs').1 hforms
      · exact (hs'.unique hs).2 ▸ hno
  · rintro ⟨⟨key,⟨hs,hkey⟩ | ⟨hs,hkey⟩⟩,hno⟩
    · exact ⟨key,.inl ⟨hs,hkey,(hno key).1 hs⟩⟩
    · exact ⟨key,.inr ⟨hs,hkey,(hno key).2 hs⟩⟩

theorem resolve_ingestNode (h : idx.Hashed) {node : WorkflowyNode} {short u : String}
    (hu : u≠node.id) :
    (idx.ingestNode toLowercase node).resolveShortHash short = some u ↔
      idx.resolveShortHash short = some u ∧
        (Abbreviates short node.id → idx.sameContent toLowercase node = true) := by
  have hnew : ¬(idx.removeLocked node.id).Indexed node.id := fun hid =>
    (indexed_removeLocked.mp hid).2 rfl
  unfold ingestNode
  split
  · rename_i hsame
    simp [hsame]
  · rename_i hsame
    rw [resolve_addNode (h.removeLocked node.id) hnew hu,resolve_removeLocked h]
    simp [hsame,hu]

theorem sameContent_congr (h : idx.Wf toLowercase) {idx' : NameIndex} (h' : idx'.Wf toLowercase)
    {node : WorkflowyNode} (hl : idx'.lookupEntryById node.id = idx.lookupEntryById node.id) :
    idx'.sameContent toLowercase node = idx.sameContent toLowercase node := by
  rw [sameContent_eq h,sameContent_eq h',hl]

/-- A batch takes a short hash away only through a node that shares it and is filed. -/
theorem resolve_ingest (hw : idx.Wf toLowercase) (h : idx.Hashed) {nodes : List WorkflowyNode}
    {short u : String} (hu : ∀ n∈nodes, u≠n.id) :
    (idx.ingest toLowercase nodes).resolveShortHash short = some u ↔
      idx.resolveShortHash short = some u ∧
        ∀ n∈nodes, Abbreviates short n.id → idx.sameContent toLowercase n = true := by
  induction nodes generalizing idx with
  | nil => simp [ingest]
  | cons node nodes ih =>
    obtain ⟨hnode,hu⟩ := List.forall_mem_cons.mp hu
    have hstep : (idx.ingest toLowercase (node::nodes)) =
      (idx.ingestNode toLowercase node).ingest toLowercase nodes := rfl
    rw [hstep,ih (hw.ingestNode node) (h.ingestNode node) hu,resolve_ingestNode h hnode,
      List.forall_mem_cons,and_assoc]
    refine and_congr_right fun _ => and_congr_right fun hfiled => ?_
    refine forall₂_congr fun n _ => imp_congr_right fun hshort => ?_
    -- the node before either was skipped or has no such hash, so it is another one
    by_cases hid : n.id = node.id
    · have hsame := hfiled (hid ▸ hshort)
      rw [ingestNode,if_pos hsame]
    · have hl : (idx.ingestNode toLowercase node).lookupEntryById n.id =
          idx.lookupEntryById n.id := by rw [lookup_ingestNode hw,if_neg hid]
      rw [sameContent_congr hw (hw.ingestNode node) hl]

theorem pathEntries_congr {idx' : NameIndex} {hops : Nat} {current : Option NameIndexEntry}
    (h : ∀ e∈idx.pathEntries hops current, ∀ p, e.parentId = some p →
      idx'.lookupEntryById p = idx.lookupEntryById p) :
    idx'.pathEntries hops current = idx.pathEntries hops current := by
  induction hops generalizing current with
  | zero => rfl
  | succ hops ih =>
    cases current with
    | none => rfl
    | some e =>
      simp only [pathEntries] at h ⊢
      obtain ⟨he,hrest⟩ := List.forall_mem_cons.mp h
      have hnext : e.parentId.bind idx'.lookupEntryById = e.parentId.bind idx.lookupEntryById := by
        cases hp : e.parentId with
        | none => rfl
        | some p => exact he p hp
      rw [hnext,ih hrest]

end WorkflowyMcp.NameIndex
