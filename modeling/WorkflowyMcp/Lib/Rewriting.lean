import Mathlib.Data.List.Infix
import Mathlib.Tactic.Common

/-! Replacing the matches of a pattern in a text, from left to right and without overlap, and
texts in which some characters stand as codes. -/
namespace WorkflowyMcp.Rewriting
variable {α β : Type}

/- `m` gives the length of the match at the head of a text and what is put in its place;
   `skip` more characters belong to the last match. -/
def rewriteFrom (m : List α → Option (Nat × List α)) : Nat → List α → List α
  | _,[] => []
  | skip+1,_::cs => rewriteFrom m skip cs
  | 0,c::cs =>
    match m (c::cs) with
    | some (n,new) => new++rewriteFrom m (n-1) cs
    | none => c::rewriteFrom m 0 cs

abbrev rewrite (m : List α → Option (Nat × List α)) (cs : List α) : List α := rewriteFrom m 0 cs

section rewrite
variable {m : List α → Option (Nat × List α)}

theorem rewriteFrom_eq (skip : Nat) (cs : List α) :
    rewriteFrom m skip cs = rewrite m (cs.drop skip) := by
  induction cs generalizing skip with
  | nil => cases skip <;> rfl
  | cons c cs ih =>
    cases skip with
    | zero => rfl
    | succ skip => exact ih skip

theorem rewrite_match {c : α} {cs new : List α} {n : Nat} (h : m (c::cs) = some (n+1,new)) :
    rewrite m (c::cs) = new++rewrite m (cs.drop n) := by
  rw [← rewriteFrom_eq]
  simp only [rewrite,rewriteFrom,h,Nat.add_sub_cancel]

theorem rewrite_none {c : α} {cs : List α} (h : m (c::cs) = none) :
    rewrite m (c::cs) = c::rewrite m cs := by
  simp only [rewrite,rewriteFrom,h]

/-- A part in which no match starts stays. -/
theorem rewrite_part {w y : List α} (h : ∀ v, v <:+ w → v≠[] → m (v++y) = none) :
    rewrite m (w++y) = w++rewrite m y := by
  induction w with
  | nil => rfl
  | cons c w ih =>
    have hc : m (c::(w++y)) = none := h (c::w) List.suffix_rfl (by simp)
    have hw : ∀ v, v <:+ w → v≠[] → m (v++y) = none := fun v hv =>
      h v (hv.trans (List.suffix_cons c w))
    rw [List.cons_append,rewrite_none hc,ih hw,List.cons_append]

theorem rewrite_of_none {w : List α} (h : ∀ v, v <:+ w → v≠[] → m v = none) :
    rewrite m w = w := by
  have hpart := rewrite_part (m := m) (w := w) (y := []) (by simpa using h)
  simpa [rewrite,rewriteFrom] using hpart

end rewrite

variable [DecidableEq α]

def occurrence (pat new cs : List α) : Option (Nat × List α) :=
  if pat <+: cs then some (pat.length,new) else none

def replace (pat new cs : List α) : List α := rewrite (occurrence pat new) cs

@[simp] theorem replace_nil (pat new : List α) : replace pat new [] = [] := rfl

theorem replace_pat {pat : List α} (hne : pat≠[]) (new y : List α) :
    replace pat new (pat++y) = new++replace pat new y := by
  obtain ⟨c,w,rfl⟩ := List.exists_cons_of_ne_nil hne
  have hmatch : occurrence (c::w) new (c::(w++y)) = some (w.length+1,new) :=
    if_pos (List.prefix_append (c::w) y)
  rw [replace,List.cons_append,rewrite_match hmatch,List.drop_left,replace]

/-- No occurrence of the pattern starts in the text, whatever follows it. -/
def Inert (pat w : List α) : Prop := ∀ v, v <:+ w → v≠[] → ¬v <+: pat ∧ ¬pat <+: v

theorem Inert.replace {pat w : List α} (h : Inert pat w) (new y : List α) :
    replace pat new (w++y) = w++replace pat new y := by
  refine rewrite_part fun v hv hne => if_neg fun hpre => ?_
  obtain ⟨hleft,hright⟩ := h v hv hne
  exact (List.prefix_or_prefix_of_prefix (List.prefix_append v y) hpre).elim hleft hright

/-- Replacing in a text that is put together from parts, each the pattern itself or inert. -/
theorem replace_flatMap {pat new : List α} (hne : pat≠[]) {e e' : β → List α} {s : List β}
    (h : ∀ b∈s, e b = pat ∧ e' b = new ∨ Inert pat (e b) ∧ e' b = e b) :
    replace pat new (s.flatMap e) = s.flatMap e' := by
  induction s with
  | nil => rfl
  | cons b s ih =>
    obtain ⟨hb,hs⟩ := List.forall_mem_cons.mp h
    rw [List.flatMap_cons,List.flatMap_cons,← ih hs]
    obtain ⟨he,he'⟩ | ⟨hinert,he'⟩ := hb
    · rw [he,he',replace_pat hne]
    · rw [he',hinert.replace]

omit [DecidableEq α] in
theorem inert_of_head {x : α} {pat w : List α} (hx : pat.head? = some x) (hw : x∉w) :
    Inert pat w := by
  obtain ⟨p,rfl⟩ := List.head?_eq_some_iff.mp hx
  intro v hv hne
  obtain ⟨c,v',rfl⟩ := List.exists_cons_of_ne_nil hne
  have hc : c≠x := by
    rintro rfl
    exact hw (hv.subset List.mem_cons_self)
  exact ⟨fun h => hc (List.cons_prefix_cons.mp h).1,fun h => hc (List.cons_prefix_cons.mp h).1.symm⟩

theorem replace_of_not_mem {x : α} {pat w : List α} (hx : pat.head? = some x) (hw : x∉w)
    (new : List α) : replace pat new w = w := by
  have h := (inert_of_head hx hw).replace new []
  simpa using h

/-- Replacing one character. -/
theorem replace_singleton (x : α) (new s : List α) :
    replace [x] new s = s.flatMap fun a => if a = x then new else [a] := by
  have hself : s = s.flatMap fun a => [a] := by simp
  conv_lhs => rw [hself]
  refine replace_flatMap (by simp) fun a _ => ?_
  by_cases ha : a = x
  · left
    simp [ha]
  · right
    exact ⟨inert_of_head (x := x) rfl (by simpa using Ne.symm ha),by simp [ha]⟩

section codes
variable {marker : α} {code : α → List α} {special : List α}

/-- The text with the special characters as their codes. -/
def encode (code : α → List α) (special : List α) (s : List α) : List α :=
  s.flatMap fun a => if a∈special then code a else [a]

/-- Each code starts with the marker, which stands nowhere else in it, and none starts with
another one. -/
structure Codes (marker : α) (code : α → List α) (special : List α) : Prop where
  marked : ∀ a∈special, (code a).head? = some marker ∧ marker∉(code a).tail
  apart : ∀ a∈special, ∀ b∈special, code a <+: code b → a = b

@[simp] theorem encode_nil (code : α → List α) (s : List α) : encode code [] s = s := by
  simp [encode]

theorem encode_singleton {a : α} : encode code special [a] = if a∈special then code a else [a] := by
  simp [encode]

/-- The characters are replaced one after the other, by codes that hold none of the later
ones. -/
theorem foldl_replace (h : special.Pairwise fun a b => a≠b ∧ b∉code a) (s : List α) :
    special.foldl (fun t a => replace [a] (code a) t) s = encode code special s := by
  induction special generalizing s with
  | nil => simp
  | cons a special ih =>
    obtain ⟨hlater,hrest⟩ := List.pairwise_cons.mp h
    rw [List.foldl_cons,ih hrest,replace_singleton,encode,encode,List.flatMap_assoc]
    refine List.flatMap_congr fun b _ => ?_
    by_cases hb : b = a
    · subst hb
      have hcode : (code b).flatMap (fun c => if c∈special then code c else [c]) =
          (code b).flatMap fun c => [c] :=
        List.flatMap_congr fun c hc => if_neg fun hmem => (hlater c hmem).2 hc
      simp [hcode]
    · simp [hb]

omit [DecidableEq α] in
theorem Codes.inert_code (h : Codes marker code special) {pat : List α}
    (hpat : pat.head? = some marker) {a : α} (ha : a∈special) (hleft : ¬code a <+: pat)
    (hright : ¬pat <+: code a) : Inert pat (code a) := by
  obtain ⟨hhead,htail⟩ := h.marked a ha
  obtain ⟨w,hw⟩ := List.head?_eq_some_iff.mp hhead
  rw [hw] at hleft hright htail ⊢
  intro v hv hne
  rcases List.suffix_cons_iff.mp hv with rfl | hv
  · exact ⟨hleft,hright⟩
  · exact inert_of_head hpat htail v hv hne

/-- One code is read back. The marker has a code that is still unread. -/
theorem Codes.replace_code (h : Codes marker code special) (hmarker : marker∈special) {a : α}
    (ha : a∈special) (s : List α) : replace (code a) [a] (encode code special s) =
      encode code (special.filter (· ≠ a)) s := by
  have hhead := (h.marked a ha).1
  refine replace_flatMap (fun hnil => by simp [hnil] at hhead) fun b _ => ?_
  by_cases hb : b = a
  · left
    simp [hb,ha]
  right
  by_cases hmem : b∈special
  · refine ⟨?_,by simp [hb,hmem]⟩
    rw [if_pos hmem]
    exact h.inert_code hhead hmem (fun hpre => hb (h.apart b hmem a ha hpre))
      fun hpre => hb (h.apart a ha b hmem hpre).symm
  · refine ⟨?_,by simp [hmem]⟩
    rw [if_neg hmem]
    refine inert_of_head hhead ?_
    rw [List.mem_singleton]
    rintro rfl
    exact hmem hmarker

/-- A text that is no code and marked like one does not occur. -/
theorem Codes.replace_foreign (h : Codes marker code special) (hmarker : marker∈special)
    {pat : List α} (hpat : pat.head? = some marker)
    (hforeign : ∀ a∈special, ¬code a <+: pat ∧ ¬pat <+: code a) (new s : List α) :
    replace pat new (encode code special s) = encode code special s := by
  refine replace_flatMap (fun hnil => by simp [hnil] at hpat) fun b _ => Or.inr ⟨?_,rfl⟩
  by_cases hmem : b∈special
  · rw [if_pos hmem]
    exact h.inert_code hpat hmem (hforeign b hmem).1 (hforeign b hmem).2
  · rw [if_neg hmem]
    refine inert_of_head hpat ?_
    rw [List.mem_singleton]
    rintro rfl
    exact hmem hmarker

omit [DecidableEq α] in
theorem Codes.mono (h : Codes marker code special) {left : List α} (hsub : left ⊆ special) :
    Codes marker code left :=
  ⟨fun a ha => h.marked a (hsub ha),fun a ha b hb => h.apart a (hsub ha) b (hsub hb)⟩

theorem encode_cons (code : α → List α) (special : List α) (a : α) (s : List α) :
    encode code special (a::s) = encode code special [a]++encode code special s := by
  simp [encode]

theorem Codes.encode_ne_nil (h : Codes marker code special) (a : α) :
    encode code special [a]≠[] := by
  rw [encode_singleton]
  split
  · rename_i ha
    exact fun hnil => by simpa [hnil] using (h.marked a ha).1
  · exact List.cons_ne_nil a []

theorem Codes.head_encode (h : Codes marker code special) (a : α) (w : List α) :
    (encode code special [a]++w).head? = some (if a∈special then marker else a) := by
  rw [List.head?_append_of_ne_nil _ (h.encode_ne_nil a),encode_singleton]
  split
  · rename_i ha
    exact (h.marked a ha).1
  · rfl

/-- One character at a time an encoded text is read in one way. The marker is a character that
has a code. -/
theorem Codes.encode_inj (h : Codes marker code special) (hmarker : marker∈special)
    {s t : List α} (hst : encode code special s = encode code special t) : s = t := by
  induction s generalizing t with
  | nil =>
    cases t with
    | nil => rfl
    | cons b t =>
      rw [encode_cons] at hst
      exact absurd (List.append_eq_nil_iff.mp hst.symm).1 (h.encode_ne_nil b)
  | cons a s ih =>
    cases t with
    | nil =>
      rw [encode_cons] at hst
      exact absurd (List.append_eq_nil_iff.mp hst).1 (h.encode_ne_nil a)
    | cons b t =>
      rw [encode_cons _ _ a,encode_cons _ _ b] at hst
      have hab : a = b := by
        have hhead := congrArg List.head? hst
        rw [h.head_encode,h.head_encode,Option.some.injEq] at hhead
        by_cases ha : a∈special
        · by_cases hb : b∈special
          · rw [encode_singleton,encode_singleton,if_pos ha,if_pos hb] at hst
            have hpre : code a <+: code b++encode code special t := hst ▸ List.prefix_append _ _
            rcases List.prefix_or_prefix_of_prefix hpre (List.prefix_append _ _) with hab | hba
            · exact h.apart a ha b hb hab
            · exact (h.apart b hb a ha hba).symm
          · rw [if_pos ha,if_neg hb] at hhead
            exact absurd (hhead ▸ hmarker) hb
        · by_cases hb : b∈special
          · rw [if_neg ha,if_pos hb] at hhead
            exact absurd (hhead ▸ hmarker) ha
          · simpa [ha,hb] using hhead
      subst hab
      rw [ih (List.append_cancel_left hst)]

end codes

/-- The first mark ends what is before it. -/
theorem split_at_mark {mark : α} {a b r s : List α} (ha : mark∉a) (hb : mark∉b)
    (h : a++mark::r = b++mark::s) : a = b ∧ r = s := by
  have hleft {c t : List α} (hc : mark∉c) : (c++mark::t).takeWhile (· ≠ mark) = c := by
    rw [List.takeWhile_append_of_pos fun x hx => by simpa using fun he : x = mark => hc (he ▸ hx)]
    simp
  have hab : a = b := by rw [← hleft (t := r) ha,h,hleft hb]
  subst hab
  exact ⟨rfl,(List.cons.inj (List.append_cancel_left h)).2⟩

end WorkflowyMcp.Rewriting
