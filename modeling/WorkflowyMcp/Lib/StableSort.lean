import Mathlib.Data.List.Sort
import Mathlib.Data.List.Destutter
import Mathlib.Data.List.Nodup

/-! Stable sorting by a key. A stable sort is fixed by two facts: the result is
ordered by the key, and the entries of each key keep their order. -/
namespace WorkflowyMcp
variable {α β κ : Type} [LinearOrder κ]

/-- Stable sort by an ascending key (`sort_by_key`). -/
def sortByKey (key : α → κ) (xs : List α) : List α :=
  xs.insertionSort fun a b => key a ≤ key b

variable {key : α → κ}

theorem sortByKey_perm (xs : List α) : (sortByKey key xs).Perm xs :=
  List.perm_insertionSort _ xs

theorem sortByKey_sorted (xs : List α) :
    (sortByKey key xs).Pairwise fun a b => key a ≤ key b := by
  have : Std.Total (fun a b : α => key a ≤ key b) := ⟨fun a b => le_total _ _⟩
  have : IsTrans α fun a b => key a ≤ key b := ⟨fun _ _ _ => le_trans⟩
  exact List.pairwise_insertionSort _ xs

/-- Distinct keys leave no choice. -/
theorem sortByKey_of_perm {xs ys : List α} (hperm : xs.Perm ys) (hnodup : (xs.map key).Nodup) :
    sortByKey key xs = sortByKey key ys := by
  have hsame : (sortByKey key xs).Perm (sortByKey key ys) :=
    ((sortByKey_perm xs).trans hperm).trans (sortByKey_perm ys).symm
  refine hsame.eq_of_pairwise (fun a b ha hb hab hba => ?_) (sortByKey_sorted xs)
    (sortByKey_sorted ys)
  have hax := (sortByKey_perm xs).mem_iff.mp ha
  have hbx := (sortByKey_perm xs).mem_iff.mp (hsame.mem_iff.mpr hb)
  exact List.inj_on_of_nodup_map hnodup hax hbx (le_antisymm hab hba)

theorem filter_orderedInsert (k : κ) (a : α) (xs : List α) :
    (xs.orderedInsert (fun a b => key a ≤ key b) a).filter (fun b => key b = k) =
      (a::xs).filter fun b => key b = k := by
  induction xs with
  | nil => rfl
  | cons b xs ih =>
    by_cases hab : key a ≤ key b
    · simp [List.orderedInsert,hab]
    · rw [List.orderedInsert,if_neg hab,List.filter_cons,ih]
      have hne : ¬(key a=k ∧ key b=k) := by rintro ⟨rfl,hb⟩; exact hab hb.ge
      by_cases ha : key a=k
      · have hb : key b≠k := fun hb => hne ⟨ha,hb⟩
        simp [ha,hb]
      · simp [List.filter_cons,ha]

/-- Stability: entries of one key keep their relative order. -/
theorem filter_sortByKey (k : κ) (xs : List α) :
    (sortByKey key xs).filter (fun b => key b = k) = xs.filter fun b => key b = k := by
  induction xs with
  | nil => rfl
  | cons a xs ih =>
    refine (filter_orderedInsert k a (sortByKey key xs)).trans ?_
    simp only [List.filter_cons,ih]

/-- Two lists in key order with the same entries at each key are equal. -/
theorem eq_of_sorted_filter {xs ys : List α}
    (hx : xs.Pairwise fun a b => key a ≤ key b) (hy : ys.Pairwise fun a b => key a ≤ key b)
    (h : ∀ k, xs.filter (fun b => key b = k) = ys.filter fun b => key b = k) : xs = ys := by
  have hmem {us vs : List α} (huv : ∀ k, us.filter (fun b => key b = k) =
      vs.filter fun b => key b = k) {a : α} (ha : a∈us) : a∈vs := by
    have hf : a∈us.filter fun b => key b = key a := by simp [ha]
    rw [huv] at hf
    exact (List.mem_filter.mp hf).1
  induction xs generalizing ys with
  | nil =>
    cases ys with
    | nil => rfl
    | cons b ys => exact absurd (hmem (fun k => (h k).symm) List.mem_cons_self) (by simp)
  | cons a xs ih =>
    cases ys with
    | nil => exact absurd (hmem h List.mem_cons_self) (by simp)
    | cons b ys =>
      have hle {u v : α} {vs : List α} (hv : (v::vs).Pairwise fun a b => key a ≤ key b)
          (hu : u∈v::vs) : key v ≤ key u := by
        rcases List.mem_cons.mp hu with rfl | hu
        · exact le_refl _
        · exact (List.pairwise_cons.mp hv).1 u hu
      have hba : key b ≤ key a := hle hy (hmem h List.mem_cons_self)
      have hab : key a ≤ key b :=
        hle hx (hmem (fun k => (h k).symm) List.mem_cons_self)
      have hk := h (key a)
      rw [List.filter_cons_of_pos (by simp),
        List.filter_cons_of_pos (by simp [le_antisymm hba hab])] at hk
      obtain ⟨rfl,_⟩ := List.cons.inj hk
      refine congrArg (List.cons a) (ih (List.pairwise_cons.mp hx).2
        (List.pairwise_cons.mp hy).2 fun k => ?_)
      have hk' := h k
      by_cases hak : key a=k
      · simpa [List.filter_cons,hak] using hk'
      · simpa [List.filter_cons,hak] using hk'

/-- To leave entries out before the sort or behind it is the same. -/
theorem sortByKey_filter (p : α → Bool) (xs : List α) :
    sortByKey key (xs.filter p) = (sortByKey key xs).filter p := by
  refine eq_of_sorted_filter (sortByKey_sorted _) ((sortByKey_sorted xs).filter p) fun k => ?_
  have hswap (ys : List α) : (ys.filter p).filter (fun a => key a = k) =
      (ys.filter fun a => key a = k).filter p := by
    simp only [List.filter_filter,Bool.and_comm]
  rw [filter_sortByKey,hswap,hswap,filter_sortByKey]

theorem sortByKey_map (f : β → α) (xs : List β) :
    sortByKey key (xs.map f) = (sortByKey (fun b => key (f b)) xs).map f := by
  refine eq_of_sorted_filter (sortByKey_sorted _) ?_ fun k => ?_
  · exact List.pairwise_map.mpr (sortByKey_sorted xs)
  · rw [filter_sortByKey,List.filter_map,List.filter_map]
    exact congrArg (List.map f) (filter_sortByKey k xs).symm

theorem filter_flatMap_of_rank {rank : β → κ} {blocks : β → List α} (k : κ) (bs : List β)
    (hb : ∀ b∈bs, ∀ a∈blocks b, key a=rank b) :
    (bs.flatMap blocks).filter (fun a => key a = k) =
      (bs.filter fun b => rank b = k).flatMap blocks := by
  induction bs with
  | nil => rfl
  | cons b bs ih =>
    have hrest := ih fun c hc => hb c (List.mem_cons_of_mem b hc)
    have hblock := hb b List.mem_cons_self
    rw [List.flatMap_cons,List.filter_append,hrest]
    by_cases hk : rank b=k
    · rw [List.filter_cons_of_pos (by simpa using hk),List.flatMap_cons]
      congr 1
      exact List.filter_eq_self.mpr fun a ha => by simpa [hblock a ha] using hk
    · rw [List.filter_cons_of_neg (by simpa using hk)]
      have hempty : (blocks b).filter (fun a => key a = k) = [] :=
        List.filter_eq_nil_iff.mpr fun a ha => by simpa [hblock a ha] using hk
      simp [hempty]

/-- Blocks delivered in any order, sorted by the rank of their owner, come out in
the owners' order with every block intact. -/
theorem sortByKey_flatMap (rank : β → κ) {blocks : β → List α} {bs cs : List β}
    (hperm : cs.Perm bs) (hrank : bs.Pairwise fun b c => rank b<rank c)
    (hb : ∀ b∈bs, ∀ a∈blocks b, key a=rank b) :
    sortByKey key (cs.flatMap blocks) = bs.flatMap blocks := by
  have hc : ∀ c∈cs, ∀ a∈blocks c, key a=rank c := fun c hc => hb c (hperm.mem_iff.mp hc)
  have huniq (k : κ) : (bs.filter fun b => rank b = k).length ≤ 1 := by
    by_contra hlen
    obtain ⟨b,c,rest,hf⟩ : ∃ b c rest, (bs.filter fun b => rank b = k) = b::c::rest := by
      rcases hfs : bs.filter (fun b => rank b = k) with _ | ⟨b,_ | ⟨c,rest⟩⟩
      · simp [hfs] at hlen
      · simp [hfs] at hlen
      · exact ⟨b,c,rest,rfl⟩
    have hpw := hrank.filter fun b => decide (rank b = k)
    rw [hf] at hpw
    have hbk : rank b=k := by
      have : b∈bs.filter fun b => rank b = k := by simp [hf]
      simpa using (List.mem_filter.mp this).2
    have hck : rank c=k := by
      have : c∈bs.filter fun b => rank b = k := by simp [hf]
      simpa using (List.mem_filter.mp this).2
    have hlt := (List.pairwise_cons.mp hpw).1 c List.mem_cons_self
    rw [hbk,hck] at hlt
    exact lt_irrefl _ hlt
  refine eq_of_sorted_filter (sortByKey_sorted _) ?_ fun k => ?_
  · rw [List.pairwise_flatMap]
    refine ⟨fun b hbs => ?_,?_⟩
    · exact List.pairwise_of_forall_mem_list fun x hx y hy =>
        by rw [hb b hbs x hx,hb b hbs y hy]
    · refine hrank.imp_of_mem fun {b c} hbs hcs hlt x hx y hy => ?_
      rw [hb b hbs x hx,hb c hcs y hy]
      exact hlt.le
  · rw [filter_sortByKey,filter_flatMap_of_rank k cs hc,filter_flatMap_of_rank k bs hb]
    have hpf := hperm.filter fun b => decide (rank b = k)
    have hlen := huniq k
    rcases hfs : bs.filter (fun b => rank b = k) with _ | ⟨b,_ | ⟨c,rest⟩⟩
    · rw [hfs] at hpf
      rw [hpf.eq_nil]
    · rw [hfs] at hpf
      rw [List.perm_singleton.mp hpf]
    · simp [hfs] at hlen

/-- Of neighbours with one key keep the first (`dedup_by` on a key). -/
def dedupByKey (key : α → κ) (xs : List α) : List α :=
  xs.destutter fun a b => key a≠key b

theorem mem_dedupByKey {xs : List α} {a : α} (h : a∈dedupByKey key xs) : a∈xs :=
  (List.destutter_sublist _ xs).subset h

/-- Every key stays. -/
theorem exists_mem_dedupByKey {xs : List α} {a : α} (ha : a∈xs) :
    ∃ b∈dedupByKey key xs, key b = key a := by
  have hfrom : ∀ (xs : List α) (c : α), a∈c::xs →
      ∃ b∈xs.destutter' (fun a b => key a≠key b) c, key b = key a := by
    intro xs
    induction xs with
    | nil =>
      intro c ha
      obtain rfl : a = c := by simpa using ha
      exact ⟨a,by simp,rfl⟩
    | cons d xs ih =>
      intro c ha
      rw [List.destutter'_cons]
      by_cases hcd : key c≠key d
      · rw [if_pos hcd]
        rcases List.mem_cons.mp ha with rfl | ha
        · exact ⟨a,by simp,rfl⟩
        · obtain ⟨b,hb,he⟩ := ih d ha
          exact ⟨b,List.mem_cons_of_mem c hb,he⟩
      · rw [if_neg hcd]
        have hcd : key c = key d := not_not.mp hcd
        rcases List.mem_cons.mp ha with rfl | ha
        · exact ih a List.mem_cons_self
        · rcases List.mem_cons.mp ha with rfl | ha
          · exact ⟨c,List.mem_destutter' _ _ c,hcd⟩
          · exact ih c (List.mem_cons_of_mem c ha)
  cases xs with
  | nil => cases ha
  | cons c xs => exact hfrom xs c ha

/-- In a sorted list equal keys are neighbours, so each key stays once. -/
theorem dedupByKey_sorted {xs : List α} (h : xs.Pairwise fun a b => key a ≤ key b) :
    (dedupByKey key xs).Pairwise fun a b => key a < key b := by
  have hfrom : ∀ (xs : List α) (c : α), ((c::xs).Pairwise fun a b => key a ≤ key b) →
      (xs.destutter' (fun a b => key a≠key b) c).Pairwise fun a b => key a < key b := by
    intro xs
    induction xs with
    | nil => simp
    | cons d xs ih =>
      intro c h
      obtain ⟨hc,hd⟩ := List.pairwise_cons.mp h
      rw [List.destutter'_cons]
      by_cases hcd : key c≠key d
      · rw [if_pos hcd,List.pairwise_cons]
        refine ⟨fun b hb => ?_,ih d hd⟩
        have hlt : key c < key d := lt_of_le_of_ne (hc d List.mem_cons_self) hcd
        have hle : key d ≤ key b := by
          rcases List.mem_cons.mp ((List.destutter'_sublist xs _ d).subset hb) with rfl | hb
          · exact le_rfl
          · exact (List.pairwise_cons.mp hd).1 b hb
        exact lt_of_lt_of_le hlt hle
      · rw [if_neg hcd]
        refine ih c (List.pairwise_cons.mpr ⟨fun b hb => hc b (List.mem_cons_of_mem d hb),?_⟩)
        exact (List.pairwise_cons.mp hd).2
  cases xs with
  | nil => exact .nil
  | cons c xs => exact hfrom xs c h

end WorkflowyMcp
