import Mathlib.Algebra.Ring.Nat
import Mathlib.Data.List.AList
import Mathlib.Data.List.Count

/-! Finite maps with one value type: lookups after an update in `if` form, and the
values in iteration order. -/
namespace WorkflowyMcp

abbrev KeyMap (κ V : Type) := AList fun _ : κ => V

namespace KeyMap
variable {κ V : Type} [DecidableEq κ]

@[simp] theorem lookup_insert_ite (m : KeyMap κ V) (a k : κ) (v : V) :
    (m.insert a v).lookup k = if k=a then some v else m.lookup k := by
  by_cases h : k=a
  · subst h; simp
  · simp [h]

@[simp] theorem lookup_erase_ite (m : KeyMap κ V) (a k : κ) :
    (m.erase a).lookup k = if k=a then none else m.lookup k := by
  by_cases h : k=a
  · subst h; simp
  · simp [h]

def values (m : KeyMap κ V) : List V := m.entries.map fun e => e.2

theorem mem_values {m : KeyMap κ V} {v : V} : v∈m.values ↔ ∃ k, m.lookup k = some v := by
  constructor
  · intro h
    obtain ⟨⟨k,v'⟩,he,rfl⟩ := List.mem_map.mp h
    exact ⟨k,AList.mem_lookup_iff.mpr he⟩
  · rintro ⟨k,hk⟩
    exact List.mem_map.mpr ⟨⟨k,v⟩,AList.mem_lookup_iff.mp hk,rfl⟩

theorem pairwise_values {m : KeyMap κ V} {R : V → V → Prop}
    (h : ∀ j k v w, m.lookup j = some v → m.lookup k = some w → j≠k → R v w) :
    m.values.Pairwise R := by
  have hnd : m.entries.Pairwise fun e f => e.1≠f.1 := List.nodupKeys_iff_pairwise.mp m.nodupKeys
  refine List.pairwise_map.mpr (hnd.imp_of_mem ?_)
  intro e f he hf hne
  exact h e.1 f.1 e.2 f.2 (AList.mem_lookup_iff.mpr he) (AList.mem_lookup_iff.mpr hf) hne

/-- Keep the entries that satisfy `p`. -/
def retain (p : κ → V → Bool) (m : KeyMap κ V) : KeyMap κ V :=
  ⟨m.entries.filter fun e => p e.1 e.2,m.nodupKeys.sublist List.filter_sublist⟩

@[simp] theorem lookup_retain (p : κ → V → Bool) (m : KeyMap κ V) (k : κ) :
    (m.retain p).lookup k = (m.lookup k).filter (p k) := by
  refine Option.ext fun v => ?_
  rw [← Option.mem_def,AList.mem_lookup_iff]
  simp [retain,← AList.mem_lookup_iff,Option.filter_eq_some_iff]

theorem entries_insert (m : KeyMap κ V) (a : κ) (v : V) :
    (m.insert a v).entries = ⟨a,v⟩::(m.erase a).entries := rfl

def eraseAll (ks : List κ) (m : KeyMap κ V) : KeyMap κ V := ks.foldl (fun m k => m.erase k) m

theorem keys_eraseAll (ks : List κ) (m : KeyMap κ V) : (m.eraseAll ks).keys = m.keys.diff ks := by
  induction ks generalizing m with
  | nil => rfl
  | cons k ks ih => exact (ih (m.erase k)).trans (by rw [AList.keys_erase,List.diff_cons])

theorem lookup_eraseAll (ks : List κ) (m : KeyMap κ V) (k : κ) :
    (m.eraseAll ks).lookup k = if k∈ks then none else m.lookup k := by
  induction ks generalizing m with
  | nil => rfl
  | cons j ks ih =>
    refine (ih (m.erase j)).trans ?_
    by_cases hk : k∈ks <;> by_cases hj : k=j <;> simp [hk,hj]

theorem length_keys_eraseAll {ks : List κ} {m : KeyMap κ V} (hnodup : ks.Nodup)
    (hsub : ks⊆m.keys) : (m.eraseAll ks).keys.length = m.keys.length-ks.length := by
  have hcount := List.countP_diff (List.subperm_of_subset hnodup hsub) fun _ => true
  simpa [keys_eraseAll] using hcount

section values
variable {W : Type}

def mapValues (f : V → W) (m : KeyMap κ V) : KeyMap κ W where
  entries := m.entries.map fun e => ⟨e.1,f e.2⟩
  nodupKeys := by
    have hkeys : (m.entries.map fun e => (⟨e.1,f e.2⟩ : Sigma fun _ : κ => W)).keys =
        m.entries.keys := by simp [List.keys,Function.comp_def]
    exact (congrArg List.Nodup hkeys).mpr m.nodupKeys

@[simp] theorem lookup_mapValues (f : V → W) (m : KeyMap κ V) (k : κ) :
    (m.mapValues f).lookup k = (m.lookup k).map f :=
  List.dlookup_map₂ (γ := fun _ => V) (δ := fun _ => W) (f := fun _ => f) k

theorem erase_mapValues (f : V → W) (m : KeyMap κ V) (k : κ) :
    mapValues f (m.erase k) = (mapValues f m).erase k := by
  refine AList.ext ?_
  have herase : List.kerase k (m.entries.map fun e => (⟨e.1,f e.2⟩ : Sigma fun _ : κ => W)) =
      (m.entries.kerase k).map fun e => ⟨e.1,f e.2⟩ := by
    simp only [List.kerase,List.eraseP_map]
    rfl
  exact herase.symm

theorem insert_mapValues (f : V → W) (m : KeyMap κ V) (k : κ) (v : V) :
    mapValues f (m.insert k v) = (mapValues f m).insert k (f v) := by
  refine AList.ext ?_
  have herase := congrArg AList.entries (erase_mapValues f m k)
  rw [entries_insert,← herase]
  rfl

theorem mapValues_congr {f g : V → W} {m : KeyMap κ V}
    (h : ∀ k v, m.lookup k = some v → f v = g v) : mapValues f m = mapValues g m := by
  refine AList.ext (List.map_congr_left fun e he => ?_)
  rw [h e.1 e.2 (AList.mem_lookup_iff.mpr he)]

omit [DecidableEq κ] in
theorem mapValues_mapValues {X : Type} (f : V → W) (g : W → X) (m : KeyMap κ V) :
    mapValues g (mapValues f m) = mapValues (fun v => g (f v)) m := by
  refine AList.ext ?_
  simp [mapValues,Function.comp_def]

/-- The sum of a measure over the values. -/
def total (f : V → Nat) (m : KeyMap κ V) : Nat := (m.values.map f).sum

theorem total_insert (f : V → Nat) (m : KeyMap κ V) (k : κ) (v : V) :
    total f (m.insert k v) = f v+total f (m.erase k) := by
  rw [total,values,entries_insert]
  rfl

/-- A key that is held stands once among the entries. -/
theorem perm_of_lookup {m : KeyMap κ V} {k : κ} {v : V} (h : m.lookup k = some v) :
    m.entries.Perm (⟨k,v⟩::(m.erase k).entries) := by
  obtain ⟨w,pre,post,hpre,hsplit,hrest⟩ := List.exists_of_kerase
    (AList.mem_keys.mp (AList.lookup_isSome.mp (h ▸ rfl)) : k∈m.entries.keys)
  have hw : w = v := by
    have hmem : w∈m.lookup k := AList.mem_lookup_iff.mpr (by simp [hsplit])
    exact Option.some.inj (hmem.symm.trans h)
  have herase : (m.erase k).entries = pre++post := hrest
  rw [hsplit,herase,hw]
  exact List.perm_middle

theorem total_of_lookup (f : V → Nat) {m : KeyMap κ V} {k : κ} {v : V}
    (h : m.lookup k = some v) : total f m = f v+total f (m.erase k) := by
  have hvalues : m.values.Perm (v::values (m.erase k)) := (perm_of_lookup h).map fun e : (_ : κ)×V => e.2
  exact (hvalues.map f).sum_nat

theorem erase_of_lookup {m : KeyMap κ V} {k : κ} (h : m.lookup k = none) : m.erase k = m :=
  AList.ext (List.kerase_of_notMem_keys fun hk =>
    AList.lookup_eq_none.mp h (AList.mem_keys.mpr hk))

end values

end KeyMap
end WorkflowyMcp
