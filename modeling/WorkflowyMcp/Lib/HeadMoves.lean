import Mathlib.Data.List.Basic

/-! Ordered lists, one for each place, and what is left when some items were moved to the
head of one of them. Nothing here names a particular service. -/
namespace WorkflowyMcp
variable {ι α : Type} [DecidableEq ι] [DecidableEq α]

/- Every list loses the moved items; the list of `p` has them in front. -/
def placed (lists : ι → List α) (p : ι) (moved : List α) : ι → List α := fun q =>
  (if q = p then moved else []) ++ (lists q).filter (· ∉ moved)

namespace HeadMoves
variable (lists : ι → List α) (p : ι)

@[simp] theorem placed_nil : placed lists p [] = lists := by
  funext q
  simp [placed]

theorem placed_self (moved : List α) :
    placed lists p moved p = moved ++ (lists p).filter (· ∉ moved) := by
  simp [placed]

theorem placed_of_ne {q : ι} (h : q ≠ p) (moved : List α) :
    placed lists p moved q = (lists q).filter (· ∉ moved) := by
  simp [placed,h]

/-- Items moved later stand before those that were moved before and not again. -/
theorem placed_placed (first later : List α) :
    placed (placed lists p first) p later =
      placed lists p (later ++ first.filter (· ∉ later)) := by
  have hleft : ∀ l : List α, (l.filter (· ∉ first)).filter (· ∉ later) =
      l.filter (· ∉ later ++ first.filter (· ∉ later)) := by
    intro l
    rw [List.filter_filter]
    refine List.filter_congr fun a _ => ?_
    by_cases ha : a ∈ later <;> simp [ha]
  funext q
  by_cases hq : q = p
  · subst hq
    rw [placed_self,placed_self,placed_self,List.filter_append,hleft,List.append_assoc]
  · rw [placed_of_ne _ _ hq,placed_of_ne _ _ hq,placed_of_ne _ _ hq,hleft]

/-- One more item goes in front of those already moved. -/
theorem placed_cons {a : α} {moved : List α} (h : a ∉ moved) :
    placed (placed lists p moved) p [a] = placed lists p (a :: moved) := by
  have hkeep : moved.filter (· ∉ [a]) = moved := by
    refine List.filter_eq_self.mpr fun b hb => ?_
    have hba : b ≠ a := fun hba => h (hba ▸ hb)
    simpa using hba
  rw [placed_placed,hkeep]
  rfl

/-- Moving all of a list forgets that some of it had been moved. -/
theorem placed_of_subset {first later : List α} (h : first ⊆ later) :
    placed (placed lists p first) p later = placed lists p later := by
  have hnone : first.filter (· ∉ later) = [] :=
    List.filter_eq_nil_iff.mpr fun a ha => by simpa using h ha
  rw [placed_placed,hnone,List.append_nil]

end HeadMoves
end WorkflowyMcp
