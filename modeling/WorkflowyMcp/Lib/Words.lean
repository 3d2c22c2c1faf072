import Mathlib.Data.List.DropRight
import Mathlib.Data.List.Forall2
import Mathlib.Tactic.Common

/-! The words of a text, its longest runs of word characters, and what leaves them alone. -/
namespace WorkflowyMcp
variable {α : Type} {isWord : α → Bool} {a b cs : List α} {c : α}

def words (isWord : α → Bool) (cs : List α) : List (List α) :=
  (cs.splitOnP fun c => !isWord c).filter (!·.isEmpty)

@[simp] theorem words_nil : words isWord [] = [] := by simp [words]

theorem words_append_sep (hc : isWord c = false) :
    words isWord (a++c::b) = words isWord a++words isWord b := by
  rw [words,List.splitOnP_append_cons _ _ (by simpa using hc),List.filter_append]
  rfl

theorem words_cons_sep (hc : isWord c = false) : words isWord (c::b) = words isWord b := by
  simpa using words_append_sep (a := []) hc (b := b)

/-- Text without words before a text. -/
theorem words_append_right (ha : ∀ c∈a, isWord c = false) :
    words isWord (a++b) = words isWord b := by
  induction a with
  | nil => rfl
  | cons c a ih =>
    obtain ⟨hc,ha⟩ := List.forall_mem_cons.mp ha
    rw [List.cons_append,words_cons_sep hc,ih ha]

theorem words_of_none (ha : ∀ c∈a, isWord c = false) : words isWord a = [] := by
  simpa using words_append_right (b := []) ha

/-- And behind it. -/
theorem words_append_left (hb : ∀ c∈b, isWord c = false) :
    words isWord (a++b) = words isWord a := by
  cases b with
  | nil => simp
  | cons c b =>
    obtain ⟨hc,hb⟩ := List.forall_mem_cons.mp hb
    rw [words_append_sep hc,words_of_none hb,List.append_nil]

theorem words_dropWhile {p : α → Bool} (hp : ∀ c, p c = true → isWord c = false) (cs : List α) :
    words isWord (cs.dropWhile p) = words isWord cs := by
  conv_rhs => rw [← List.takeWhile_append_dropWhile (p := p) (l := cs)]
  exact (words_append_right fun c hc => hp c (List.mem_takeWhile_imp hc)).symm

theorem words_rdropWhile {p : α → Bool} (hp : ∀ c, p c = true → isWord c = false) (cs : List α) :
    words isWord (cs.rdropWhile p) = words isWord cs := by
  conv_rhs => rw [← List.rdropWhile_append_rtakeWhile (p := p) (l := cs)]
  exact (words_append_left fun c hc => hp c (List.mem_rtakeWhile_imp hc)).symm

theorem words_intercalate (hc : isWord c = false) (ls : List (List α)) :
    words isWord ([c].intercalate ls) = ls.flatMap (words isWord) := by
  induction ls with
  | nil => simp
  | cons l ls ih =>
    cases ls with
    | nil => simp
    | cons m ls =>
      rw [List.intercalate_cons_cons,List.append_assoc,List.singleton_append,words_append_sep hc,ih]
      rfl

theorem mem_intercalate {sep l : List α} {ls : List (List α)} (hl : l∈ls) (hc : c∈l) :
    c∈sep.intercalate ls := by
  induction ls with
  | nil => cases hl
  | cons m ls ih =>
    cases ls with
    | nil =>
      obtain rfl := List.mem_singleton.mp hl
      rwa [List.intercalate_singleton]
    | cons n ls =>
      rw [List.intercalate_cons_cons,List.append_assoc,List.mem_append]
      rcases List.mem_cons.mp hl with rfl | hl
      · exact .inl hc
      · exact .inr (List.mem_append_right sep (ih hl))

theorem mem_of_mem_splitOn [DecidableEq α] {l : List α} (hl : l∈cs.splitOn c) {d : α} (hd : d∈l) :
    d∈cs := by
  have hcs : [c].intercalate (cs.splitOn c) = cs := List.intercalate_splitOn c
  rw [← hcs]
  exact mem_intercalate hl hd

theorem words_splitOn [DecidableEq α] (hc : isWord c = false) (cs : List α) :
    (cs.splitOn c).flatMap (words isWord) = words isWord cs := by
  rw [← words_intercalate hc,List.intercalate_splitOn]

/-- Lists that hold one another's parts. -/
theorem flatten_sublist {as bs : List (List α)} (h : List.Forall₂ List.Sublist as bs) :
    as.flatten.Sublist bs.flatten := by
  induction h with
  | nil => exact .refl _
  | cons hab _ ih =>
    rw [List.flatten_cons,List.flatten_cons]
    exact hab.append ih

/-- Parts that are cut can not add up to the whole. -/
theorem eq_of_flatten_sublist {as bs : List (List α)} (h : List.Forall₂ List.Sublist bs as)
    (hflat : as.flatten.Sublist bs.flatten) : as = bs := by
  have heq : as.flatten = bs.flatten := hflat.antisymm (flatten_sublist h)
  clear hflat
  induction h with
  | nil => rfl
  | @cons b a bs as hab hrest ih =>
    rw [List.flatten_cons,List.flatten_cons] at heq
    have hlen := congrArg List.length heq
    have hle := hab.length_le
    have hle' := (flatten_sublist hrest).length_le
    rw [List.length_append,List.length_append] at hlen
    obtain rfl := hab.eq_of_length (by omega)
    rw [ih (List.append_cancel_left heq)]

end WorkflowyMcp
