import Mathlib.Data.List.Infix

/-! Where a word stands in a text that is put together with separators. -/
namespace WorkflowyMcp
variable {α : Type} {c : α} {w u v : List α}

/-- A word without the separator is on one side of it. -/
theorem infix_append_cons (hc : c∉w) : w <:+: u++c::v ↔ w <:+: u ∨ w <:+: v := by
  constructor
  · intro h
    rcases List.infix_append_iff_ne_nil.mp h with h | h | ⟨w₁,w₂,-,hne,rfl,-,hpre⟩
    · exact .inl h
    · rcases List.infix_cons_iff.mp h with hpre | h
      · cases w with
        | nil => exact .inl List.nil_infix
        | cons d w =>
          obtain ⟨rfl,-⟩ := List.cons_prefix_cons.mp hpre
          exact absurd List.mem_cons_self hc
      · exact .inr h
    · obtain ⟨d,w₂,rfl⟩ := List.exists_cons_of_ne_nil hne
      obtain ⟨rfl,-⟩ := List.cons_prefix_cons.mp hpre
      exact absurd (List.mem_append_right w₁ List.mem_cons_self) hc
  · rintro (h | h)
    · exact h.trans (List.prefix_append u (c::v)).isInfix
    · exact h.trans ((List.suffix_cons c v).trans (List.suffix_append u _)).isInfix

/-- A word in a joined text is in one of its parts. -/
theorem infix_intercalate {ws : List (List α)} (hc : c∉w) (hw : w≠[]) :
    w <:+: [c].intercalate ws ↔ ∃ x∈ws, w <:+: x := by
  induction ws with
  | nil => simp [List.intercalate,hw]
  | cons x ws ih =>
    cases ws with
    | nil => simp [List.intercalate]
    | cons y ws =>
      rw [List.intercalate_cons_cons,List.append_assoc,List.singleton_append,
        infix_append_cons hc,ih]
      simp

/-- A word that starts otherwise is behind the first letter. -/
theorem infix_cons_iff_of_head {d : α} (hd : d≠c) : d::w <:+: c::v ↔ d::w <:+: v := by
  rw [List.infix_cons_iff,List.cons_prefix_cons]
  exact ⟨fun h => h.resolve_left fun h => hd h.1,.inr⟩

/-- A letter that stands nowhere else in a text starts its word at its one place. -/
theorem infix_cons_iff_of_notMem (hc : c∉v) : c::w <:+: c::v ↔ w <+: v := by
  rw [List.infix_cons_iff,List.cons_prefix_cons]
  constructor
  · rintro (⟨-,h⟩ | h)
    · exact h
    · exact absurd (h.subset List.mem_cons_self) hc
  · exact fun h => .inl ⟨rfl,h⟩

/-- A text lacks a word with a letter that it lacks. -/
theorem not_infix_of_mem (hw : c∈w) (hv : c∉v) : ¬w <:+: v := fun h => hv (h.subset hw)

end WorkflowyMcp
