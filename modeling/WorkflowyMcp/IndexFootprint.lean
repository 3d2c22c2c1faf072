import WorkflowyMcp.IndexInvariant
import WorkflowyMcp.ServerTools

/-! The name index behind a handler: every id the handler names is dropped, then the nodes it
created are ingested. -/
namespace WorkflowyMcp

abbrev MutationFootprint.made (fp : MutationFootprint) : List String :=
  fp.createdNodes.map WorkflowyNode.id

@[simp] theorem MutationFootprint.made_extend (fp fp' : MutationFootprint) :
    (fp.extend fp').made = fp.made++fp'.made := List.map_append ..

@[simp] theorem MutationFootprint.named_extend (fp fp' : MutationFootprint) :
    (fp.extend fp').invalidatedNameIndex =
      fp.invalidatedNameIndex++fp'.invalidatedNameIndex := rfl

namespace NameIndex
variable {toLowercase : String → String} {idx : NameIndex}

theorem indexed_iff (h : idx.Wf toLowercase) {id : String} :
    idx.Indexed id ↔ idx.lookupEntryById id ≠ none := by
  rw [Indexed,Option.isSome_iff_ne_none,ne_eq,byId_eq_none h]

theorem Wf.invalidateAll (h : idx.Wf toLowercase) (ids : List String) :
    (ids.foldl NameIndex.invalidateNode idx).Wf toLowercase := by
  induction ids generalizing idx with
  | nil => exact h
  | cons id ids ih => exact ih (h.invalidateNode id)

theorem lookup_invalidateAll (h : idx.Wf toLowercase) (ids : List String) (x : String) :
    (ids.foldl NameIndex.invalidateNode idx).lookupEntryById x =
      if x∈ids then none else idx.lookupEntryById x := by
  induction ids generalizing idx with
  | nil => simp
  | cons id ids ih =>
    rw [List.foldl_cons,ih (h.invalidateNode id),lookup_invalidateNode h]
    by_cases hx : x = id
    · simp [hx]
    · simp [hx]

end NameIndex

namespace Server
variable {toLowercase : String → String} {s : Server}

theorem nameIndex_invalidateForMutation (s : Server) (ids : List String) :
    (s.invalidateForMutation ids).nameIndex = ids.foldl NameIndex.invalidateNode s.nameIndex := by
  unfold invalidateForMutation
  induction ids generalizing s with
  | nil => rfl
  | cons id ids ih => exact ih _

theorem nameIndex_applyFootprint (fp : MutationFootprint) :
    (s.applyFootprint toLowercase fp).nameIndex =
      (fp.invalidatedNameIndex.foldl NameIndex.invalidateNode s.nameIndex).ingest toLowercase
        fp.createdNodes := by
  unfold applyFootprint
  cases fp.createdNodes with
  | nil => rfl
  | cons node nodes => rfl

/-- A server whose index has seen some calls since it was new. -/
def after (toLowercase : String → String) (cache : NodeCache) (calls : List NameIndex.IndexOp) :
    Server :=
  ⟨cache,Runs.run (NameIndex.perform toLowercase) {} calls⟩

theorem wf_after (toLowercase : String → String) (cache : NodeCache)
    (calls : List NameIndex.IndexOp) :
    (after toLowercase cache calls).nameIndex.Wf toLowercase :=
  NameIndex.wf_run calls

/-- An id is left without an entry if it was not created and, when it had one, was named. -/
theorem lookup_applyFootprint (h : s.nameIndex.Wf toLowercase) (fp : MutationFootprint)
    (x : String) :
    (s.applyFootprint toLowercase fp).nameIndex.lookupEntryById x = none ↔
      x∉fp.made ∧ (s.nameIndex.Indexed x → x∈fp.invalidatedNameIndex) := by
  rw [nameIndex_applyFootprint,NameIndex.lookup_ingest (h.invalidateAll _),
    NameIndex.observeAll_eq_none,NameIndex.lookup_invalidateAll h,NameIndex.indexed_iff h,and_comm]
  refine and_congr (by simp) ?_
  by_cases hx : x∈fp.invalidatedNameIndex
  · simp [hx]
  · simp [hx]

end Server
end WorkflowyMcp
