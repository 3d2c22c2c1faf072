import WorkflowyMcp.IndexResolve
import WorkflowyMcp.NameIndexQuery

/-! What a name index holds of an id after any observations of it: the entry of the last
one that was recorded. The others agree with it in all that the skip rule compares. -/
namespace WorkflowyMcp.NameIndex
variable {toLowercase : String → String} {idx : NameIndex}

/-- The observations of an id in a run, first to last. -/
def observations (id : String) : List IndexOp → List WorkflowyNode
  | [] => []
  | .ingest nodes :: ops => nodes.filter (·.id = id)++observations id ops
  | _ :: ops => observations id ops

/-- The call ingests, or drops another id. -/
def Keeps (id : String) : IndexOp → Prop
  | .ingest _ => True
  | .invalidateNode x => x≠id
  | .clear | .mergeFromDisk .. => False

instance (id : String) : DecidablePred (Keeps id)
  | .ingest _ => .isTrue trivial
  | .invalidateNode x => inferInstanceAs (Decidable (x≠id))
  | .clear | .mergeFromDisk .. => .isFalse not_false

theorem unchanged_iff {e : NameIndexEntry} {node : WorkflowyNode} :
    unchanged toLowercase e node = true ↔ toLowercase e.name = toLowercase node.name ∧
      e.description = node.description ∧
      (node.lastModified = none ∨ e.lastModified = node.lastModified) := by
  simp [unchanged,and_assoc]

/-- The entry after some observations, from the one held before. -/
def record (toLowercase : String → String) (held : Option NameIndexEntry)
    (obs : List WorkflowyNode) : Option NameIndexEntry :=
  obs.foldl (fun o node => some (observe toLowercase o node)) held

@[simp] theorem record_nil (held : Option NameIndexEntry) : record toLowercase held [] = held := rfl

theorem record_concat (held : Option NameIndexEntry) (obs : List WorkflowyNode)
    (node : WorkflowyNode) : record toLowercase held (obs++[node]) =
      some (observe toLowercase (record toLowercase held obs) node) := by
  simp [record]

theorem observeAll_eq_record (id : String) (held : Option NameIndexEntry)
    (nodes : List WorkflowyNode) : observeAll toLowercase id held nodes =
      record toLowercase held (nodes.filter (·.id = id)) := by
  induction nodes generalizing held with
  | nil => rfl
  | cons node nodes ih =>
    rw [observeAll,ih]
    by_cases hid : node.id=id
    · simp [hid,record]
    · simp [hid,Ne.symm hid]

theorem lookup_run (h : idx.Wf toLowercase) (id : String) (ops : List IndexOp)
    (hkept : ∀ op∈ops, Keeps id op) :
    (Runs.run (perform toLowercase) idx ops).lookupEntryById id =
      record toLowercase (idx.lookupEntryById id) (observations id ops) := by
  induction ops generalizing idx with
  | nil => rfl
  | cons op ops ih =>
    obtain ⟨hop,hops⟩ := List.forall_mem_cons.mp hkept
    rw [Runs.run_cons,ih (h.perform op) hops]
    cases op with
    | ingest nodes =>
      simp only [perform,lookup_ingest h,observeAll_eq_record,observations,record,List.foldl_append]
    | invalidateNode x =>
      have hne : id≠x := Ne.symm hop
      simp only [perform,lookup_invalidateNode h,if_neg hne,observations]
    | clear => exact hop.elim
    | mergeFromDisk file io => exact hop.elim

/-- `e` is the entry of an observation, or the one held before, and all later observations
look the same to the skip rule. -/
def Recorded (toLowercase : String → String) (held : Option NameIndexEntry)
    (obs : List WorkflowyNode) (e : NameIndexEntry) : Prop :=
  (∃ pre o post, obs = pre++o::post ∧ e = .ofNode o ∧ ∀ n∈post, unchanged toLowercase e n) ∨
    held = some e ∧ ∀ n∈obs, unchanged toLowercase e n

theorem recorded_of_record {held : Option NameIndexEntry} {obs : List WorkflowyNode}
    {e : NameIndexEntry} (h : record toLowercase held obs = some e) :
    Recorded toLowercase held obs e := by
  induction obs using List.reverseRecOn generalizing e with
  | nil => exact .inr ⟨h,by simp⟩
  | append_singleton obs node ih =>
    rw [record_concat] at h
    have hnew (he : e = .ofNode node) : Recorded toLowercase held (obs++[node]) e :=
      .inl ⟨obs,node,[],rfl,he,by simp⟩
    cases hr : record toLowercase held obs with
    | none => exact hnew (by simpa [hr,observe,eq_comm] using h)
    | some f =>
      by_cases hu : unchanged toLowercase f node
      · obtain rfl : f=e := by simpa [hr,observe,hu] using h
        obtain ⟨pre,o,post,rfl,he,hpost⟩ | ⟨hheld,hobs⟩ := ih hr
        · refine .inl ⟨pre,o,post++[node],by simp,he,fun n hn => ?_⟩
          rcases List.mem_append.mp hn with hn | hn
          · exact hpost n hn
          · rwa [List.mem_singleton.mp hn]
        · refine .inr ⟨hheld,fun n hn => ?_⟩
          rcases List.mem_append.mp hn with hn | hn
          · exact hobs n hn
          · rwa [List.mem_singleton.mp hn]
      · exact hnew (by simpa [hr,observe,hu,eq_comm] using h)

/-- No observation that the skip rule takes for known brings another parent. -/
def NoBareMove (toLowercase : String → String) (held : Option NameIndexEntry)
    (obs : List WorkflowyNode) : Prop :=
  ∀ pre n post, obs = pre++n::post → ∀ f, record toLowercase held pre = some f →
    unchanged toLowercase f n → n.parentId = f.parentId

/-- The last observation is recorded, or it is skipped because it looks the same. -/
theorem record_getLast (toLowercase : String → String) (held : Option NameIndexEntry)
    {obs : List WorkflowyNode} {last : WorkflowyNode} (hlast : obs.getLast? = some last) :
    ∃ e, record toLowercase held obs = some e ∧ (e = .ofNode last ∨
      ∃ pre, obs = pre++[last] ∧ record toLowercase held pre = some e ∧
        unchanged toLowercase e last) := by
  obtain ⟨pre,rfl⟩ := List.getLast?_eq_some_iff.mp hlast
  rw [record_concat]
  refine ⟨_,rfl,?_⟩
  cases hr : record toLowercase held pre with
  | none => exact .inl rfl
  | some f =>
    by_cases hu : unchanged toLowercase f last
    · exact .inr ⟨pre,rfl,by simp [observe,hu,hr],by simp [observe,hu]⟩
    · exact .inl (by simp [observe,hu])

/-- Each entry of a climb is the one its predecessor names as parent. -/
theorem isChain_pathEntries (hops : Nat) (o : Option NameIndexEntry) :
    (idx.pathEntries hops o).IsChain fun a b => a.parentId.bind idx.lookupEntryById = some b := by
  induction hops generalizing o with
  | zero => simp [pathEntries]
  | succ hops ih =>
    cases o with
    | none => simp [pathEntries]
    | some e =>
      rw [pathEntries]
      cases hp : e.parentId.bind idx.lookupEntryById with
      | none => cases hops <;> simp [pathEntries]
      | some f =>
        cases hops with
        | zero => simp [pathEntries]
        | succ hops =>
          have hrest := ih (some f)
          rw [pathEntries] at hrest ⊢
          exact List.isChain_cons_cons.mpr ⟨hp,hrest⟩

/-- The last recorded observation wins. The latest one agrees with it in lowercased name and
description and, where it has one, in its timestamp; the parent is the latest too unless a
move came alone. The readers follow the parents so recorded. -/
theorem last_recorded_wins (toLowercase : String → String) (before ops : List IndexOp) (id : String)
    (last : WorkflowyNode) (hkept : ∀ op∈ops, Keeps id op)
    (hlast : (observations id ops).getLast? = some last) :
    let held := (Runs.run (perform toLowercase) {} before).lookupEntryById id
    let idx := Runs.run (perform toLowercase) {} (before++ops)
    ∃ e, idx.lookupEntryById id = some e ∧
      Recorded toLowercase held (observations id ops) e ∧
      toLowercase e.name = toLowercase last.name ∧ e.description = last.description ∧
      (∀ t, last.lastModified = some t → e.lastModified = some t) ∧
      (NoBareMove toLowercase held (observations id ops) → e.parentId = last.parentId) ∧
      (∃ es, idx.pathOf id = ((e::es).map NameIndexEntry.name).reverse ∧
        (e::es).IsChain fun a b => a.parentId.bind idx.lookupEntryById = some b) ∧
      ∀ a, idx.isDescendantOf id a = true ↔ ∃ k<33, idx.Under a k id := by
  intro held idx
  have hl : idx.lookupEntryById id = record toLowercase held (observations id ops) := by
    simp only [idx,Runs.run_append]
    exact lookup_run (wf_run before) id ops hkept
  obtain ⟨e,he,hwon⟩ := record_getLast toLowercase held hlast
  have hrec : Recorded toLowercase held (observations id ops) e := recorded_of_record he
  rw [he] at hl
  have hpath : ∃ es, idx.pathOf id = ((e::es).map NameIndexEntry.name).reverse ∧
      (e::es).IsChain fun a b => a.parentId.bind idx.lookupEntryById = some b := by
    refine ⟨idx.pathEntries 32 (e.parentId.bind idx.lookupEntryById),?_,?_⟩
    · rw [pathOf,hl]
      rfl
    · exact isChain_pathEntries 33 (some e)
  refine ⟨e,hl,hrec,?_,?_,?_,?_,hpath,fun a => isDescendantOf_iff⟩
  all_goals
    obtain rfl | ⟨pre,hobs,hpre,hu⟩ := hwon
  · rfl
  · exact (unchanged_iff.mp hu).1
  · rfl
  · exact (unchanged_iff.mp hu).2.1
  · exact fun t ht => ht
  · intro t ht
    rcases (unchanged_iff.mp hu).2.2 with hnone | hsame
    · rw [ht] at hnone
      cases hnone
    · exact hsame.trans ht
  · exact fun _ => rfl
  · exact fun hmove => (hmove pre last [] hobs e hpre hu).symm

/-- A node is seen at the top level, and then below `p` and otherwise the same. -/
def movedUnder : List IndexOp :=
  [.ingest [{ id := "x", name := "x" }],.ingest [{ id := "x", name := "x", parentId := some "p" }]]

theorem move_not_seen :
    let idx := Runs.run (perform asciiLowercase) {} movedUnder
    idx.lookupEntryById "x" = some ⟨"x","x",none,none,none⟩ ∧ idx.isDescendantOf "x" "p" = false := by
  decide

theorem last_recorded_note :
    let idx := Runs.run (perform asciiLowercase) {} (movedUnder++
      [.invalidateNode "p",.ingest [{ id := "x", name := "X", description := some "note" }]])
    ∃ e, idx.lookupEntryById "x" = some e ∧ e.description = some "note" := by
  obtain ⟨e,he,-,-,hdesc,-⟩ := last_recorded_wins asciiLowercase movedUnder
    [.invalidateNode "p",.ingest [{ id := "x", name := "X", description := some "note" }]] "x"
    { id := "x", name := "X", description := some "note" } (by decide) rfl
  exact ⟨e,he,hdesc⟩

end WorkflowyMcp.NameIndex
