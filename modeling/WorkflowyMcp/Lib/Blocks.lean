import Mathlib.Data.List.Nodup

/-! Blocks laid end to end when some of them are missing: the first entries of what is there are
the first entries of the whole exactly when no gap lies before them. -/
namespace WorkflowyMcp.Blocks
variable {α β : Type} (f : β → List α) (here : β → Bool)

/-- The entries of the blocks that are here. -/
def held (bs : List β) : List α := (bs.filter here).flatMap f

/- Where a block that is not empty is missing and the blocks before it hold less than `r`
   entries, the blocks after it hold none. -/
def Gapless (r : Nat) (bs : List β) : Prop :=
  ∀ pre b post, bs = pre++b::post → here b = false → f b≠[] → (held f here pre).length < r →
    held f here post = []

variable {f : β → List α} {here : β → Bool} {r : Nat} {b : β} {bs : List β}

theorem held_cons_of_here (h : here b = true) : held f here (b::bs) = f b++held f here bs := by
  simp [held,h]

theorem held_cons_of_missing (h : here b = false) : held f here (b::bs) = held f here bs := by
  simp [held,h]

theorem held_append (bs cs : List β) :
    held f here (bs++cs) = held f here bs++held f here cs := by
  simp [held]

theorem held_sublist (bs : List β) : (held f here bs).Sublist (bs.flatMap f) := by
  induction bs with
  | nil => exact .refl _
  | cons b bs ih =>
    rw [List.flatMap_cons]
    cases h : here b with
    | true =>
      rw [held_cons_of_here h]
      exact ih.append_left (f b)
    | false =>
      rw [held_cons_of_missing h]
      exact ih.trans (List.sublist_append_right (f b) _)

theorem gapless_cons_of_here (h : here b = true) :
    Gapless f here r (b::bs) ↔ Gapless f here (r-(f b).length) bs := by
  constructor
  · intro hg pre c post hbs hc hne hlt
    refine hg (b::pre) c post (by rw [hbs]; rfl) hc hne ?_
    rw [held_cons_of_here h,List.length_append]
    omega
  · intro hg pre c post hbs hc hne hlt
    cases pre with
    | nil =>
      obtain ⟨rfl,-⟩ := List.cons.inj hbs
      rw [h] at hc
      cases hc
    | cons d pre =>
      obtain ⟨rfl,htail⟩ := List.cons.inj hbs
      rw [held_cons_of_here h,List.length_append] at hlt
      exact hg pre c post htail hc hne (by omega)

theorem gapless_cons_of_empty (h : here b = false) (hb : f b = []) :
    Gapless f here r (b::bs) ↔ Gapless f here r bs := by
  constructor
  · intro hg pre c post hbs hc hne hlt
    refine hg (b::pre) c post (by rw [hbs]; rfl) hc hne ?_
    rwa [held_cons_of_missing h]
  · intro hg pre c post hbs hc hne hlt
    cases pre with
    | nil =>
      obtain ⟨rfl,-⟩ := List.cons.inj hbs
      exact absurd hb hne
    | cons d pre =>
      obtain ⟨rfl,htail⟩ := List.cons.inj hbs
      rw [held_cons_of_missing h] at hlt
      exact hg pre c post htail hc hne hlt

/-- The first gap leaves no room behind it. -/
theorem gapless_cons_of_gap (h : here b = false) (hb : f b≠[]) :
    Gapless f here r (b::bs) ↔ (held f here bs).take r = [] := by
  rw [List.take_eq_nil_iff]
  constructor
  · intro hg
    by_cases hr : r = 0
    · exact .inl hr
    · exact .inr (hg [] b bs rfl h hb (Nat.pos_of_ne_zero hr))
  · intro hnone pre c post hbs hc hne hlt
    cases pre with
    | nil =>
      obtain ⟨-,rfl⟩ := List.cons.inj hbs
      exact hnone.resolve_left (by omega)
    | cons d pre =>
      obtain ⟨rfl,htail⟩ := List.cons.inj hbs
      have hnil := hnone.resolve_left (by omega)
      have htail : bs = pre++c::post := htail
      rw [htail,held_append,List.append_eq_nil_iff,held_cons_of_missing hc] at hnil
      exact hnil.2

theorem take_append_prefix_iff {xs ys zs : List α} :
    (xs++ys).take r <+: xs++zs ↔ ys.take (r-xs.length) <+: zs := by
  rw [List.take_append]
  by_cases hr : r ≤ xs.length
  · have hzero : r-xs.length = 0 := by omega
    rw [hzero]
    simpa using (List.take_prefix r xs).trans (List.prefix_append xs zs)
  · rw [List.take_of_length_le (by omega),List.prefix_append_right_inj]

/-- What is here, up to `r` entries, opens the whole exactly when there is no gap. -/
theorem take_held_prefix_iff (hnodup : (bs.flatMap f).Nodup) :
    (held f here bs).take r <+: bs.flatMap f ↔ Gapless f here r bs := by
  induction bs generalizing r with
  | nil => simp [held,Gapless]
  | cons b bs ih =>
    rw [List.flatMap_cons,List.nodup_append'] at hnodup
    obtain ⟨-,hbs,hdisjoint⟩ := hnodup
    rw [List.flatMap_cons]
    cases h : here b with
    | true => rw [held_cons_of_here h,gapless_cons_of_here h,take_append_prefix_iff,ih hbs]
    | false =>
      rw [held_cons_of_missing h]
      by_cases hb : f b = []
      · rw [gapless_cons_of_empty h hb,hb,List.nil_append,ih hbs]
      rw [gapless_cons_of_gap h hb]
      constructor
      · intro hp
        by_contra hne
        obtain ⟨a,as,htake⟩ := List.exists_cons_of_ne_nil hne
        obtain ⟨c,cs,hblock⟩ := List.exists_cons_of_ne_nil hb
        rw [htake,hblock,List.cons_append,List.cons_prefix_cons] at hp
        have ha : a∈bs.flatMap f := (held_sublist bs).subset
          (List.mem_of_mem_take (htake ▸ List.mem_cons_self))
        exact hdisjoint (by rw [hblock,hp.1]; exact List.mem_cons_self) ha
      · intro hnil
        rw [hnil]
        exact List.nil_prefix

end WorkflowyMcp.Blocks
