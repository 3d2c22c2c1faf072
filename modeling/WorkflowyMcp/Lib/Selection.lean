import Mathlib.Data.List.Basic
import Mathlib.Data.List.Count
import Mathlib.Tactic.Common

/-! Selections from a list by a test, and when the selection by a stronger test, or one made before
a cut, comes to the same. -/
namespace WorkflowyMcp
variable {α β : Type} {q : α → Bool} {l : List α} {n : Nat}

/-- To keep some before the cut or behind it is the same if the cut meets only kept ones, or
leaves none of them out. -/
theorem take_filter_iff : (l.take n).filter q = (l.filter q).take n ↔
    (∀ x∈l.take n, q x = true) ∨ ∀ x∈l.drop n, q x = false := by
  have hsplit : l.filter q = (l.take n).filter q++(l.drop n).filter q := by
    rw [← List.filter_append,List.take_append_drop]
  have hlen : ((l.take n).filter q).length ≤ n :=
    Nat.le_trans (List.length_filter_le _ _) (List.length_take_le n l)
  rw [hsplit,List.take_append,List.take_of_length_le hlen]
  constructor
  · intro h
    have hnil : ((l.drop n).filter q).take (n-((l.take n).filter q).length) = [] := by simpa using h
    rcases List.take_eq_nil_iff.mp hnil with hfull | hdrop
    · have htake : ((l.take n).filter q).length = (l.take n).length := by
        have := List.length_filter_le q (l.take n)
        have := List.length_take_le n l
        omega
      exact .inl (List.filter_eq_self.mp ((List.filter_sublist).eq_of_length htake))
    · exact .inr fun x hx => by simpa using List.filter_eq_nil_iff.mp hdrop x hx
  · rintro (hall | hnone)
    · rw [List.filter_eq_self.mpr hall]
      by_cases hle : l.length ≤ n
      · simp [List.drop_eq_nil_of_le hle]
      · have hfull : (l.take n).length = n := by
          rw [List.length_take]
          omega
        simp [hfull]
    · have hdrop : (l.drop n).filter q = [] := List.filter_eq_nil_iff.mpr fun x hx => by
        simp [hnone x hx]
      simp [hdrop]

/-- The stronger test holds as often as the weaker one only where they agree. -/
theorem countP_eq_iff {q' : α → Bool} (h : ∀ x∈l, q x = true → q' x = true) :
    l.countP q = l.countP q' ↔ ∀ x∈l, q' x = true → q x = true := by
  induction l with
  | nil => simp
  | cons x l ih =>
    obtain ⟨hx,hl⟩ := List.forall_mem_cons.mp h
    have hle : l.countP q ≤ l.countP q' := List.countP_mono_left hl
    rw [List.countP_cons,List.countP_cons,List.forall_mem_cons,← ih hl]
    cases hq : q x with
    | true => simp [hx hq]
    | false =>
      cases q' x with
      | true =>
        refine iff_of_false (fun he => ?_) (by simp)
        simp only [Bool.false_eq_true,if_false,if_true] at he
        omega
      | false => simp

/-- Two ways to look for the first answer along a list agree if and only if at the first element
where the better one answers the other one does too, or finds the same further on. -/
theorem findSome?_eq_iff {weak strong : α → Option β}
    (hweak : ∀ a b, weak a = some b → strong a = some b) :
    l.findSome? weak = l.findSome? strong ↔
      ∀ above x below, l = above++x::below → (∀ a∈above, strong a = none) →
        ∀ b, strong x = some b → weak x = none → below.findSome? weak = some b := by
  induction l with
  | nil => simp
  | cons a l ih =>
    cases hs : strong a with
    | none =>
      have hw : weak a = none := by
        by_contra hne
        obtain ⟨b,hb⟩ := Option.ne_none_iff_exists'.mp hne
        simp [hweak a b hb] at hs
      rw [List.findSome?_cons,List.findSome?_cons,hs,hw,ih]
      constructor
      · intro h above x below hl habove b hb hwx
        cases above with
        | nil =>
          obtain ⟨rfl,rfl⟩ := List.cons_eq_cons.mp hl
          simp [hs] at hb
        | cons c above =>
          obtain ⟨rfl,rfl⟩ := List.cons_eq_cons.mp hl
          exact h above x below rfl (fun f hf => habove f (List.mem_cons_of_mem _ hf)) b hb hwx
      · intro h above x below hl habove
        refine h (a::above) x below (by rw [hl]; rfl) fun f hf => ?_
        rcases List.mem_cons.mp hf with rfl | hf
        · exact hs
        · exact habove f hf
    | some b =>
      rw [List.findSome?_cons,List.findSome?_cons,hs]
      constructor
      · intro h above x below hl habove b' hb' hwx
        cases above with
        | nil =>
          obtain ⟨rfl,rfl⟩ := List.cons_eq_cons.mp hl
          rw [hwx] at h
          rw [← hb',hs]
          exact h
        | cons c above =>
          obtain ⟨rfl,-⟩ := List.cons_eq_cons.mp hl
          simp [habove a (by simp)] at hs
      · intro h
        cases hw : weak a with
        | some b' => exact (hweak a b' hw).symm.trans hs
        | none => exact h [] a l rfl (by simp) b hs hw

end WorkflowyMcp
