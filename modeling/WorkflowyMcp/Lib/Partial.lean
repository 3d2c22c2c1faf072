import Mathlib.Data.List.Basic
import Mathlib.Data.List.Forall2
import Mathlib.Tactic.Common

/-! Lists of partial results: all of them, or none. -/
namespace WorkflowyMcp
variable {α β γ : Type} {f : α → Option β} {l : List α}

theorem isSome_mapM : (l.mapM f).isSome ↔ ∀ a∈l, (f a).isSome := by
  induction l with
  | nil => simp
  | cons a l ih =>
    rw [List.mapM_cons,List.forall_mem_cons,← ih]
    cases f a <;> cases l.mapM f <;> simp

theorem mapM_eq_some_iff {r : List β} :
    l.mapM f = some r ↔ List.Forall₂ (fun a b => f a = some b) l r := by
  induction l generalizing r with
  | nil => cases r <;> simp
  | cons a l ih =>
    rw [List.mapM_cons]
    cases ha : f a with
    | none => cases r <;> simp [ha]
    | some b =>
      cases hl : l.mapM f with
      | none => cases r <;> simp [← ih,hl]
      | some bs => cases r <;> simp [← ih,hl,ha]

/-- What is read off the results is what is read off the elements. -/
theorem map_of_mapM {r : List β} (h : l.mapM f = some r) {k : β → γ} {g : α → γ}
    (hk : ∀ a b, f a = some b → k b = g a) : r.map k = l.map g := by
  induction l generalizing r with
  | nil =>
    obtain rfl : [] = r := by simpa using h
    rfl
  | cons a l ih =>
    rw [List.mapM_cons] at h
    cases ha : f a with
    | none => simp [ha] at h
    | some b =>
      cases hl : l.mapM f with
      | none => simp [ha,hl] at h
      | some bs =>
        obtain rfl : b::bs = r := by simpa [ha,hl] using h
        rw [List.map_cons,List.map_cons,hk a b ha,ih hl]

/-- And so it is where each element goes with its position. -/
theorem map_of_zipIdx_mapM {f : α × Nat → Option β} {r : List β} (h : l.zipIdx.mapM f = some r)
    {k : β → γ} {g : α → γ} (hk : ∀ a i b, f (a,i) = some b → k b = g a) : r.map k = l.map g := by
  rw [map_of_mapM h fun x b => hk x.1 x.2 b]
  calc
    l.zipIdx.map (fun x => g x.1) = (l.zipIdx.map Prod.fst).map g := by
      rw [List.map_map]
      rfl
    _ = l.map g := by rw [List.zipIdx_map_fst]

theorem length_of_mapM {r : List β} (h : l.mapM f = some r) : r.length = l.length := by
  have hmap := map_of_mapM h (k := fun _ => ()) (g := fun _ => ()) fun _ _ _ => rfl
  simpa using congrArg List.length hmap

theorem mapM_mono {g : α → Option β} {r : List β} (hfg : ∀ a∈l, ∀ b, f a = some b → g a = some b)
    (h : l.mapM f = some r) : l.mapM g = some r := by
  induction l generalizing r with
  | nil => simpa using h
  | cons a l ih =>
    obtain ⟨ha,hl⟩ := List.forall_mem_cons.mp hfg
    rw [List.mapM_cons] at h ⊢
    cases hfa : f a with
    | none => simp [hfa] at h
    | some b =>
      cases hr : l.mapM f with
      | none => simp [hfa,hr] at h
      | some bs => simpa [hfa,hr,ha b hfa,ih hl hr] using h

theorem mapM_map {r : List β} (g : β → γ) (h : l.mapM f = some r) :
    l.mapM (fun a => (f a).map g) = some (r.map g) := by
  induction l generalizing r with
  | nil =>
    obtain rfl : [] = r := by simpa using h
    simp
  | cons a l ih =>
    rw [List.mapM_cons] at h ⊢
    cases ha : f a with
    | none => simp [ha] at h
    | some b =>
      cases hl : l.mapM f with
      | none => simp [ha,hl] at h
      | some bs =>
        obtain rfl : b::bs = r := by simpa [ha,hl] using h
        simp [ih hl]

theorem mapM_append_eq_some {l' : List α} {r : List β} :
    (l++l').mapM f = some r ↔ ∃ s t, l.mapM f = some s ∧ l'.mapM f = some t ∧ r = s++t := by
  rw [List.mapM_append]
  cases l.mapM f <;> cases l'.mapM f <;> simp [eq_comm]

theorem mapM_cons_eq_some {a : α} {r : List β} :
    (a::l).mapM f = some r ↔ ∃ b s, f a = some b ∧ l.mapM f = some s ∧ r = b::s := by
  rw [List.mapM_cons]
  cases f a <;> cases l.mapM f <;> simp [eq_comm]

/-- Where each result of one function has a related result of another, so do the lists. -/
theorem mapM_rel {g : α → Option γ} {R : α → β → γ → Prop}
    (hfg : ∀ a∈l, ∀ b, f a = some b → ∃ c, g a = some c ∧ R a b c) {bs : List β}
    (h : l.mapM f = some bs) :
    ∃ cs, l.mapM g = some cs ∧ List.Forall₂ (fun b c => ∃ a∈l, R a b c) bs cs := by
  induction l generalizing bs with
  | nil =>
    obtain rfl : [] = bs := by simpa using h
    exact ⟨[],by simp,.nil⟩
  | cons a l ih =>
    obtain ⟨ha,hl⟩ := List.forall_mem_cons.mp hfg
    obtain ⟨b,bs,hb,hbs,rfl⟩ := mapM_cons_eq_some.mp h
    obtain ⟨c,hc,hrel⟩ := ha b hb
    obtain ⟨cs,hcs,hrels⟩ := ih hl hbs
    refine ⟨c::cs,mapM_cons_eq_some.mpr ⟨c,cs,hc,hcs,rfl⟩,
      .cons ⟨a,List.mem_cons_self,hrel⟩ (hrels.imp fun b c hr => ?_)⟩
    obtain ⟨a',ha',hr⟩ := hr
    exact ⟨a',List.mem_cons_of_mem a ha',hr⟩

/-- A list of texts is read in one way where each of them is and none looks like what comes
behind the list. -/
theorem mapM_split {α' : Type} {text : α → Option (List β)} {tree : α → Option γ}
    {text' : α' → Option (List β)} {tree' : α' → Option γ} {stop : List β} {l : List α}
    {l' : List α'} {ss ss' : List (List β)} {ts ts' : List γ} {y y' : List β}
    (hsplit : ∀ x x' s s' t t' y y', text x = some s → tree x = some t → text' x' = some s' →
      tree' x' = some t' → s++y = s'++y' → t = t' ∧ y = y')
    (hstop : ∀ x s y z, text x = some s → s++y≠stop++z)
    (hstop' : ∀ x s y z, text' x = some s → s++y≠stop++z)
    (hss : l.mapM text = some ss) (hts : l.mapM tree = some ts)
    (hss' : l'.mapM text' = some ss') (hts' : l'.mapM tree' = some ts')
    (h : ss.flatten++(stop++y) = ss'.flatten++(stop++y')) : ts = ts' ∧ y = y' := by
  induction l generalizing l' ss ss' ts ts' with
  | nil =>
    have hnil : ss = [] := by simpa [eq_comm] using hss
    have hnone : ts = [] := by simpa [eq_comm] using hts
    subst hnil hnone
    cases l' with
    | nil =>
      have hnil : ss' = [] := by simpa [eq_comm] using hss'
      have hnone : ts' = [] := by simpa [eq_comm] using hts'
      subst hnil hnone
      exact ⟨rfl,List.append_cancel_left (List.append_cancel_left h)⟩
    | cons x' l' =>
      obtain ⟨s',rest',hs',-,hcons⟩ := mapM_cons_eq_some.mp hss'
      rw [hcons,List.flatten_cons,List.append_assoc] at h
      exact absurd h.symm (hstop' x' s' _ _ hs')
  | cons x l ih =>
    obtain ⟨s,rest,hs,hrest,hcons⟩ := mapM_cons_eq_some.mp hss
    obtain ⟨t,trees,ht,htrees,rfl⟩ := mapM_cons_eq_some.mp hts
    rw [hcons,List.flatten_cons,List.append_assoc] at h
    cases l' with
    | nil =>
      have hnil : ss' = [] := by simpa [eq_comm] using hss'
      rw [hnil] at h
      exact absurd h (hstop x s _ _ hs)
    | cons x' l' =>
      obtain ⟨s',rest',hs',hrest',hcons'⟩ := mapM_cons_eq_some.mp hss'
      obtain ⟨t',trees',ht',htrees',rfl⟩ := mapM_cons_eq_some.mp hts'
      rw [hcons',List.flatten_cons,List.append_assoc] at h
      obtain ⟨rfl,h⟩ := hsplit x x' s s' t t' _ _ hs ht hs' ht' h
      obtain ⟨rfl,hy⟩ := ih hrest htrees hrest' htrees' h
      exact ⟨rfl,hy⟩

end WorkflowyMcp
