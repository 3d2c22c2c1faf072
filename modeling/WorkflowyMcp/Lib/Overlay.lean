import Mathlib.Data.Option.Basic
import Mathlib.Tactic.Common

/-! Tables whose rows name a row above them. A row is withheld when it, or a key above it, is
hit. Laying old rows over a table shows the table unchanged exactly when every old row is
withheld and nothing new is withheld with them. -/
namespace WorkflowyMcp.Overlay
variable {K V : Type} (hit : K → Prop) (up : V → Option K)

/-- The chain of rows above `k` comes to a key that is hit, listed or not. -/
inductive Withheld (t : K → Option V) : K → Prop
  | self {k v} : t k = some v → hit k → Withheld t k
  | root {k v p} : t k = some v → up v = some p → hit p → Withheld t k
  | up {k v p} : t k = some v → up v = some p → Withheld t p → Withheld t k

open Classical in
noncomputable def shown (t : K → Option V) : K → Option V :=
  fun k => if Withheld hit up t k then none else t k

def laidOver (s t : K → Option V) : K → Option V := fun k => (s k).or (t k)

/-- What laying `s` over `t` asks for, to show no more and no less than `t`. -/
structure Unseen (s t : K → Option V) : Prop where
  old : ∀ k, s k ≠ none → Withheld hit up (laidOver s t) k
  shared : ∀ k, s k ≠ none → t k ≠ none → Withheld hit up t k
  orphan : ∀ k v p, t k = some v → up v = some p → t p = none → s p ≠ none → Withheld hit up t k

variable {hit : K → Prop} {up : V → Option K} {s t : K → Option V} {k : K}

theorem Withheld.listed (h : Withheld hit up t k) : t k ≠ none := by
  cases h with
  | self hk _ => simp [hk]
  | root hk _ _ => simp [hk]
  | up hk _ _ => simp [hk]

theorem laidOver_of_none (h : s k = none) : laidOver s t k = t k := by
  simp [laidOver,h]

theorem shown_eq_some {v : V} : shown hit up t k = some v ↔ ¬Withheld hit up t k ∧ t k = some v := by
  by_cases h : Withheld hit up t k
  · simp [shown,h]
  · simp [shown,h]

theorem shown_eq_none : shown hit up t k = none ↔ Withheld hit up t k ∨ t k = none := by
  by_cases h : Withheld hit up t k
  · simp [shown,h]
  · simp [shown,h]

/-- What is withheld stays so when old rows, all withheld, are laid over it. -/
theorem Unseen.withheld_over (h : Unseen hit up s t) (hk : Withheld hit up t k) :
    Withheld hit up (laidOver s t) k := by
  induction hk with
  | @self k v hk hhit =>
    by_cases hs : s k = none
    · exact .self (by rw [laidOver_of_none hs,hk]) hhit
    · exact h.old k hs
  | @root k v p hk hp hhit =>
    by_cases hs : s k = none
    · exact .root (by rw [laidOver_of_none hs,hk]) hp hhit
    · exact h.old k hs
  | @up k v p hk hp _ ih =>
    by_cases hs : s k = none
    · exact .up (by rw [laidOver_of_none hs,hk]) hp ih
    · exact h.old k hs

/-- The old rows withhold nothing of the table that was not withheld. -/
theorem Unseen.withheld_under (h : Unseen hit up s t) (hk : Withheld hit up (laidOver s t) k)
    (ht : t k ≠ none) : Withheld hit up t k := by
  induction hk with
  | @self k v hk hhit =>
    obtain ⟨w,hw⟩ := Option.ne_none_iff_exists'.mp ht
    exact .self hw hhit
  | @root k v p hk hp hhit =>
    by_cases hs : s k = none
    · exact .root (by rwa [laidOver_of_none hs] at hk) hp hhit
    · exact h.shared k hs ht
  | @up k v p hk hp habove ih =>
    by_cases hs : s k = none
    · rw [laidOver_of_none hs] at hk
      by_cases htp : t p = none
      · have hsp : s p ≠ none := fun hsp => habove.listed (by rw [laidOver_of_none hsp,htp])
        exact h.orphan k v p hk hp htp hsp
      · exact .up hk hp (ih htp)
    · exact h.shared k hs ht

theorem Unseen.shown_over (h : Unseen hit up s t) : shown hit up (laidOver s t) = shown hit up t := by
  refine funext fun k => ?_
  by_cases hs : s k = none
  · by_cases ht : t k = none
    · rw [shown_eq_none.mpr (.inr (by rw [laidOver_of_none hs,ht])),shown_eq_none.mpr (.inr ht)]
    · have hiff : Withheld hit up (laidOver s t) k ↔ Withheld hit up t k :=
        ⟨fun hk => h.withheld_under hk ht,h.withheld_over⟩
      refine Option.ext fun v => ?_
      rw [shown_eq_some,shown_eq_some,hiff,laidOver_of_none hs]
  · have hnone : shown hit up t k = none := by
      rw [shown_eq_none]
      by_cases ht : t k = none
      · exact .inr ht
      · exact .inl (h.shared k hs ht)
    rw [hnone,shown_eq_none.mpr (.inl (h.old k hs))]

/-- Old rows that differ from the rows they cover go unseen, or the difference shows. -/
theorem shown_over_iff (hne : ∀ k v, s k = some v → t k ≠ some v) :
    shown hit up (laidOver s t) = shown hit up t ↔ Unseen hit up s t := by
  refine ⟨fun h => ?_,Unseen.shown_over⟩
  have hold : ∀ k, s k ≠ none → Withheld hit up (laidOver s t) k := fun k hs => by
    by_contra hk
    obtain ⟨v,hv⟩ := Option.ne_none_iff_exists'.mp hs
    have hseen : shown hit up t k = some v := by
      rw [← h,shown_eq_some]
      exact ⟨hk,by simp [laidOver,hv]⟩
    exact hne k v hv (shown_eq_some.mp hseen).2
  have hcovered : ∀ k, Withheld hit up (laidOver s t) k → t k ≠ none → Withheld hit up t k :=
    fun k hk ht => by
      have hnone : shown hit up t k = none := h ▸ shown_eq_none.mpr (.inl hk)
      exact (shown_eq_none.mp hnone).resolve_right ht
  refine ⟨hold,fun k hs => hcovered k (hold k hs),fun k v p hk hp htp hsp => ?_⟩
  have ht : t k ≠ none := by simp [hk]
  by_cases hs : s k = none
  · exact hcovered k (.up (by rw [laidOver_of_none hs,hk]) hp (hold p hsp)) ht
  · exact hcovered k (hold k hs) ht

end WorkflowyMcp.Overlay
