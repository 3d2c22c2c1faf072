import WorkflowyMcp.Transaction
import WorkflowyMcp.ClientEffects

/-! Replaying inverses over views of the store: which transactions are undone.
No requests here; the programs are connected to these relations elsewhere. -/
namespace WorkflowyMcp.Transaction
open Client (Rewrites)

/- An operation other than a delete that succeeded: its inverse, and the view it
   leads to. -/
inductive Applied (v : View) (op : TxnOp) : TxnInverse → View → Prop
  | create {c p f} (hop : op.op = "create") (hc : v c = none)
      (hchild : ∀ y g, v y = some g → g.parentId ≠ some c) :
      Applied v op (.DeleteCreated c p) (Function.update v c (some f))
  | edit {x f} (hop : op.op = "edit") (hid : op.nodeId = some x) (hx : v x = some f) :
      Applied v op (.RestoreEdit x (some f.name) f.description)
        (Function.update v x (some (f.write op.name op.description none)))
  | move {x p pr f} (hop : op.op = "move") (hid : op.nodeId = some x) (hx : v x = some f) :
      Applied v op (.UnMove x f.parentId pr) (Function.update v x (some (f.moved p)))
  | completion {x b f} (hop : op.op = "complete" ∨ op.op = "uncomplete")
      (hid : op.nodeId = some x) (hx : v x = some f) :
      Applied v op (.RestoreCompletion x f.completed)
        (Function.update v x (some (f.write none none (some b))))

/-- An inverse that succeeded. -/
inductive Undone (v : View) : TxnInverse → View → Prop
  | deleteCreated {c p v'} (h : v.Deleted c v') : Undone v (.DeleteCreated c p) v'
  | restoreEdit {x n d v'} (h : Rewrites x (·.write n d none) v v') :
      Undone v (.RestoreEdit x n d) v'
  | unMove {x p pr v'} (h : Rewrites x (·.moved p) v v') : Undone v (.UnMove x (some p) pr) v'
  | skipMove {x pr} : Undone v (.UnMove x none pr) v
  | restoreCompletion {x b v'} (h : Rewrites x (·.write none none (some b)) v v') :
      Undone v (.RestoreCompletion x b) v'

/-- The operations applied so far and their inverses, the latest inverse first. -/
inductive Forward (v0 : View) : List TxnOp → List TxnInverse → View → Prop
  | nil : Forward v0 [] [] v0
  | snoc {ops invs v op inv v'} (h : Forward v0 ops invs v) (hop : Applied v op inv v') :
      Forward v0 (ops++[op]) (inv::invs) v'

def Undo : List TxnInverse → View → View → Prop
  | [],v,v' => v' = v
  | inv::queue,v,v' => ∃ w, Undone v inv w ∧ Undo queue w v'

def TxnInverse.target : TxnInverse → String
  | .DeleteCreated x _ | .RestoreEdit x _ _ | .UnMove x _ _ | .RestoreCompletion x _ => x

def TxnInverse.restore : TxnInverse → Facts → Facts
  | .RestoreEdit _ n d => Facts.write n d none
  | .UnMove _ (some p) _ => Facts.moved p
  | .RestoreCompletion _ b => Facts.write none none (some b)
  | _ => id

def IsEdit (x : String) (op : TxnOp) : Prop := op.op = "edit" ∧ op.nodeId = some x

section steps
variable {v v' : View} {op : TxnOp} {inv : TxnInverse} {x y : String}

theorem ne_of_absent {f : Facts} (hx : v x = some f) (hy : v y = none) : y≠x := by
  rintro rfl
  simp [hx] at hy

/-- What an operation can do to a node that exists. -/
theorem Applied.at (h : Applied v op inv v') {f : Facts} (hy : v y = some f) :
    v' y = some f ∨
    (IsEdit y op ∧ v' y = some (f.write op.name op.description none)) ∨
    (op.op = "move" ∧ op.nodeId = some y ∧ ∃ p, v' y = some (f.moved p)) ∨
    ∃ b, v' y = some (f.write none none (some b)) := by
  cases h with
  | create hop hc hchild =>
    rename_i c p g
    have hne : y≠c := (ne_of_absent hy hc).symm
    exact .inl (by simpa [hne] using hy)
  | edit hop hid hx =>
    rename_i x g
    by_cases hyx : y = x
    · subst hyx
      obtain rfl : g = f := by simpa [hx] using hy
      exact .inr (.inl ⟨⟨hop,hid⟩,by simp⟩)
    · exact .inl (by simpa [hyx] using hy)
  | move hop hid hx =>
    rename_i x p pr g
    by_cases hyx : y = x
    · subst hyx
      obtain rfl : g = f := by simpa [hx] using hy
      exact .inr (.inr (.inl ⟨hop,hid,p,by simp⟩))
    · exact .inl (by simpa [hyx] using hy)
  | completion hop hid hx =>
    rename_i x b g
    by_cases hyx : y = x
    · subst hyx
      obtain rfl : g = f := by simpa [hx] using hy
      exact .inr (.inr (.inr ⟨b,by simp⟩))
    · exact .inl (by simpa [hyx] using hy)

/-- Only a create makes a node, and its inverse deletes it. -/
theorem Applied.new (h : Applied v op inv v') (hy : v y = none) (hy' : (v' y).isSome) :
    ∃ p, inv = .DeleteCreated y p := by
  have hold : ∀ {x a f}, v x = some f → (Function.update v x a y).isSome → False := by
    intro x a f hx hs
    simp [ne_of_absent hx hy,hy] at hs
  cases h with
  | create hop hc hchild =>
    rename_i c p f
    by_cases hyc : y = c
    · exact ⟨p,by rw [hyc]⟩
    · simp [hyc,hy] at hy'
  | edit hop hid hx => exact (hold hx hy').elim
  | move hop hid hx => exact (hold hx hy').elim
  | completion hop hid hx => exact (hold hx hy').elim

theorem Rewrites.at {x : String} {g : Facts → Facts} (h : Rewrites x g v v') (y : String) :
    v' y = v y ∨ (x = y ∧ ∃ f, v y = some f ∧ v' y = some (g f)) := by
  obtain ⟨f,hf,rfl⟩ := h
  by_cases hy : y = x
  · subst hy
    exact .inr ⟨rfl,f,hf,by simp⟩
  · exact .inl (by simp [hy])

/-- What an inverse can do to a node: nothing, remove it, or restore its own target. -/
theorem Undone.at (h : Undone v inv v') (y : String) :
    v' y = none ∨ v' y = v y ∨
      (inv.target = y ∧ ∃ f, v y = some f ∧ v' y = some (inv.restore f)) := by
  cases h with
  | deleteCreated h =>
    rcases h.others y with hn | he
    · exact .inl hn
    · exact .inr (.inl he)
  | restoreEdit h => exact .inr (Rewrites.at h y)
  | unMove h => exact .inr (Rewrites.at h y)
  | skipMove => exact .inr (.inl rfl)
  | restoreCompletion h => exact .inr (Rewrites.at h y)

end steps

/-- A property of a node's facts that no write takes away. -/
structure Stable (Q : Facts → Prop) : Prop where
  write : ∀ f n d c, Q f → Q (Facts.write n d c f)
  moved : ∀ f p, Q f → Q (Facts.moved p f)

theorem stable_true : Stable fun _ => True := ⟨fun _ _ _ _ h => h,fun _ _ h => h⟩

theorem stable_parent : Stable fun f => f.parentId.isSome :=
  ⟨fun _ _ _ _ h => h,fun _ _ _ => rfl⟩

theorem stable_description : Stable fun f => f.description.isSome := by
  refine ⟨fun f n d c h => ?_,fun _ _ h => h⟩
  cases d <;> simp [Facts.write,h]

section runs
variable {v0 v w s s' : View} {ops : List TxnOp} {invs : List TxnInverse} {x y : String}
  {Q : Facts → Prop}

theorem Stable.applied (hQ : Stable Q) {op : TxnOp} {inv : TxnInverse} (h : Applied v op inv w)
    {f : Facts} (hy : v y = some f) (hf : Q f) : ∃ g, w y = some g ∧ Q g := by
  rcases h.at hy with h1 | ⟨-,h1⟩ | ⟨-,-,p,h1⟩ | ⟨b,h1⟩
  · exact ⟨_,h1,hf⟩
  · exact ⟨_,h1,hQ.write _ _ _ _ hf⟩
  · exact ⟨_,h1,hQ.moved _ _ hf⟩
  · exact ⟨_,h1,hQ.write _ _ _ _ hf⟩

theorem Stable.restore (hQ : Stable Q) (inv : TxnInverse) {f : Facts} (hf : Q f) :
    Q (inv.restore f) := by
  cases inv with
  | DeleteCreated x p => exact hf
  | RestoreEdit x n d => exact hQ.write _ _ _ _ hf
  | UnMove x p pr =>
    cases p with
    | none => exact hf
    | some p => exact hQ.moved _ _ hf
  | RestoreCompletion x b => exact hQ.write _ _ _ _ hf

theorem Forward.keeps (hQ : Stable Q) (h : Forward v0 ops invs w) {f : Facts}
    (hy : v0 y = some f) (hf : Q f) : ∃ g, w y = some g ∧ Q g := by
  induction h with
  | nil => exact ⟨f,hy,hf⟩
  | snoc h hop ih =>
    obtain ⟨g,hg,hQg⟩ := ih
    exact hQ.applied hop hg hQg

/-- What one operation establishes on a node stays to the end. -/
theorem Forward.establishes (hQ : Stable Q) (h : Forward v0 ops invs w) {op : TxnOp}
    (hmem : op∈ops) (hy : (v0 y).isSome)
    (hop : ∀ v inv v' f, Applied v op inv v' → v y = some f → ∃ g, v' y = some g ∧ Q g) :
    ∃ g, w y = some g ∧ Q g := by
  induction h with
  | nil => simp at hmem
  | snoc h happ ih =>
    rcases List.mem_append.mp hmem with hm | hm
    · obtain ⟨g,hg,hQg⟩ := ih hm
      exact hQ.applied happ hg hQg
    · obtain ⟨f0,hf0⟩ := Option.isSome_iff_exists.mp hy
      obtain ⟨f,hf,-⟩ := h.keeps stable_true hf0 trivial
      obtain rfl := List.mem_singleton.mp hm
      exact hop _ _ _ f happ hf

theorem Forward.keeps_name (h : Forward v0 ops invs w) {f : Facts} (hy : v0 y = some f)
    (hno : ∀ op∈ops, ¬IsEdit y op) : ∃ g, w y = some g ∧ g.name = f.name := by
  induction h with
  | nil => exact ⟨f,hy,rfl⟩
  | snoc h hop ih =>
    obtain ⟨g,hg,hn⟩ := ih fun op hop => hno op (by simp [hop])
    rcases hop.at hg with h1 | ⟨he,-⟩ | ⟨-,-,p,h1⟩ | ⟨b,h1⟩
    · exact ⟨_,h1,hn⟩
    · exact absurd he (hno _ (by simp))
    · exact ⟨_,h1,hn⟩
    · exact ⟨_,h1,hn⟩

/-- Nodes that the transaction created wait for their deletion. -/
theorem Forward.created (h : Forward v0 ops invs w) (hy : v0 y = none) (hw : (w y).isSome) :
    ∃ p, TxnInverse.DeleteCreated y p∈invs := by
  induction h with
  | nil => simp [hy] at hw
  | snoc h hop ih =>
    rename_i ops invs v op inv v'
    cases hv : v y with
    | none =>
      obtain ⟨p,rfl⟩ := hop.new hv hw
      exact ⟨p,by simp⟩
    | some f =>
      obtain ⟨p,hp⟩ := ih (by simp [hv])
      exact ⟨p,by simp [hp]⟩

theorem Undo.keeps (hQ : ∀ inv∈invs, inv.target = y → ∀ f, Q f → Q (inv.restore f))
    (h : Undo invs s s') (hy : ∀ f, s y = some f → Q f) : ∀ f, s' y = some f → Q f := by
  induction invs generalizing s with
  | nil =>
    cases h
    exact hy
  | cons inv queue ih =>
    obtain ⟨w,hw,hrest⟩ := h
    refine ih (fun inv hinv => hQ inv (by simp [hinv])) hrest fun f hf => ?_
    rcases hw.at y with h1 | h1 | ⟨ht,g,hg,h1⟩
    · simp [h1] at hf
    · exact hy f (h1 ▸ hf)
    · obtain rfl : inv.restore g = f := by simpa [h1] using hf
      exact hQ inv (by simp) ht g (hy g hg)

/-- A deletion that succeeds later finds its node present all the while. -/
theorem Undo.present (h : Undo invs s s') {p : Option String}
    (hmem : TxnInverse.DeleteCreated y p∈invs) : (s y).isSome := by
  induction invs generalizing s with
  | nil => simp at hmem
  | cons inv queue ih =>
    obtain ⟨w,hw,hrest⟩ := h
    rcases List.mem_cons.mp hmem with rfl | hm
    · cases hw with
      | deleteCreated h => exact h.present
    · have hwy := ih hrest hm
      rcases hw.at y with h1 | h1 | ⟨-,g,hg,-⟩
      · simp [h1] at hwy
      · rwa [h1] at hwy
      · simp [hg]

/-- Equal facts, the names only where they are known to agree. -/
structure Alike (names : Prop) (f g : Facts) : Prop where
  name : names → f.name = g.name
  description : f.description = g.description
  completed : f.completed = g.completed
  parentId : f.parentId = g.parentId

theorem Alike.refl (names : Prop) (f : Facts) : Alike names f f := ⟨fun _ => rfl,rfl,rfl,rfl⟩

theorem Alike.eq {f g : Facts} (h : Alike True f g) : f = g := by
  cases f
  cases g
  simpa using ⟨h.name trivial,h.description,h.completed,h.parentId⟩

/- The view `s` reached by undoing follows the view `w` the operations passed
   through: on the nodes of `v0`, the name of the node `loose` left aside, and in
   that it holds no node that `w` lacks. -/
structure Tracks (v0 : View) (loose : Option String) (w s : View) : Prop where
  old : ∀ y f0, v0 y = some f0 → ∃ f g, w y = some f ∧ s y = some g ∧ Alike (loose≠some y) f g
  new : ∀ y, w y = none → s y = none

theorem Tracks.eq_start (h : Tracks v0 none v0 s) : s = v0 := by
  funext y
  cases hy : v0 y with
  | none => exact h.new y hy
  | some f0 =>
    obtain ⟨f,g,hf,hg,ha⟩ := h.old y f0 hy
    rw [hg,← hy,hf,Alike.eq ⟨fun _ => ha.name (by simp),ha.description,ha.completed,ha.parentId⟩]

/-- Both views are rewritten at `x`, backwards to `f` and to `b`. -/
theorem Tracks.rewrite {loose loose' : Option String} {f a g b : Facts}
    (h : Tracks v0 loose (Function.update w x (some a)) s) (hw : w x = some f) (hs : s x = some g)
    (hl : ∀ y, y≠x → loose' ≠ some y → loose ≠ some y)
    (hx : (v0 x).isSome → Alike (loose≠some x) a g → Alike (loose'≠some x) f b) :
    Tracks v0 loose' w (Function.update s x (some b)) := by
  constructor
  · intro y f0 hy
    obtain ⟨f1,g1,hf1,hg1,ha⟩ := h.old y f0 hy
    by_cases hyx : y = x
    · subst hyx
      obtain rfl : a = f1 := by simpa using hf1
      obtain rfl : g = g1 := by simpa [hs] using hg1
      exact ⟨f,b,hw,by simp,hx (by simp [hy]) ha⟩
    · refine ⟨f1,g1,by simpa [hyx] using hf1,by simpa [hyx] using hg1,?_⟩
      exact ⟨fun hn => ha.name (hl y hyx hn),ha.description,ha.completed,ha.parentId⟩
  · intro y hy
    have hyx : y≠x := ne_of_absent hw hy
    have := h.new y (by simpa [hyx] using hy)
    simpa [hyx] using this

/- Moves and edits that can be undone: the node had a parent to return to, or a
   description to write back, before the transaction. -/
structure Reversible (v0 : View) (ops : List TxnOp) : Prop where
  move : ∀ op∈ops, op.op = "move" → ∀ x f, op.nodeId = some x → v0 x = some f →
    f.parentId.isSome
  edit : ∀ op∈ops, op.op = "edit" → op.description.isSome → ∀ x f, op.nodeId = some x →
    v0 x = some f → f.description.isSome

/-- Deleting a created node takes nothing else along: a child would be a created
node whose own deletion still has to succeed. -/
theorem Tracks.deleted {loose : Option String} {c : String} {f : Facts} {s1 : View}
    (hf : Forward v0 ops invs w) (hc : w c = none)
    (hchild : ∀ y g, w y = some g → g.parentId ≠ some c)
    (ht : Tracks v0 loose (Function.update w c (some f)) s) (hd : s.Deleted c s1)
    (hpres : ∀ y, v0 y = none → (w y).isSome → (s1 y).isSome) : Tracks v0 loose w s1 := by
  have hold : ∀ y f0, v0 y = some f0 → y≠c := by
    rintro y f0 hy rfl
    obtain ⟨g,hg,-⟩ := hf.keeps stable_true hy trivial
    simp [hc] at hg
  have hleaf : ∀ y, y≠c → s1 y = s y := by
    refine hd.leaf fun y g hyc hg hp => ?_
    have hgone := hd.children y g hg hp
    cases hy : v0 y with
    | some f0 =>
      obtain ⟨f1,g1,hf1,hg1,ha⟩ := ht.old y f0 hy
      obtain rfl : g = g1 := by simpa [hg] using hg1
      exact hchild y f1 (by simpa [hyc] using hf1) (ha.parentId.trans hp)
    | none =>
      cases hw : w y with
      | none => simp [ht.new y (by simpa [hyc] using hw)] at hg
      | some f1 => simpa [hgone] using hpres y hy (by simp [hw])
  constructor
  · intro y f0 hy
    have hyc := hold y f0 hy
    rw [hleaf y hyc]
    simpa [hyc] using ht.old y f0 hy
  · intro y hy
    by_cases hyc : y = c
    · rw [hyc,hd.gone]
    · rw [hleaf y hyc]
      exact ht.new y (by simpa [hyc] using hy)

/-- Restoring an edit leads back across it, and settles the name left aside. -/
theorem Tracks.undone_edit {loose : Option String} {op : TxnOp} {f : Facts} {s1 : View}
    (hf : Forward v0 ops invs w) (hop : op.op = "edit") (hid : op.nodeId = some x)
    (hx : w x = some f) (hrev : Reversible v0 (ops++[op]))
    (ht : Tracks v0 loose (Function.update w x (some (f.write op.name op.description none))) s)
    (hd : Rewrites x (·.write (some f.name) f.description none) s s1) :
    Tracks v0 (if loose = some x then none else loose) w s1 := by
  obtain ⟨g,hg,rfl⟩ := hd
  refine ht.rewrite hx hg ?_ ?_
  · intro y hyx hl he
    subst he
    simp at hl
    exact hyx hl
  · intro hv ha
    refine ⟨fun _ => rfl,?_,ha.completed,ha.parentId⟩
    -- without a description to write back the edit must not have set one
    obtain ⟨f0,hf0⟩ := Option.isSome_iff_exists.mp hv
    have hdesc := ha.description
    cases hfd : f.description with
    | some d => simp [Facts.write]
    | none =>
      have hnone : op.description = none := by
        by_contra hne
        have h0 := hrev.edit op (by simp) hop (Option.isSome_iff_ne_none.mpr hne) x f0 hid hf0
        obtain ⟨f1,hf1,hs1⟩ := hf.keeps stable_description hf0 h0
        obtain rfl : f = f1 := by simpa [hx] using hf1
        simp [hfd] at hs1
      simpa [Facts.write,hfd,hnone] using hdesc

/-- Moving back leads back across a move; a move from the root, whose inverse is skipped,
can only have been of a node the transaction made. -/
theorem Tracks.undone_move {loose : Option String} {op : TxnOp} {f : Facts} {p : String}
    {pr : Option Int} {s1 : View} (hf : Forward v0 ops invs w) (hop : op.op = "move")
    (hid : op.nodeId = some x) (hx : w x = some f) (hrev : Reversible v0 (ops++[op]))
    (ht : Tracks v0 loose (Function.update w x (some (f.moved p))) s)
    (hd : Undone s (.UnMove x f.parentId pr) s1) : Tracks v0 loose w s1 := by
  cases hp : f.parentId with
  | none =>
    rw [hp] at hd
    cases hd
    constructor
    · intro y f0 hy
      have hyx : y≠x := by
        rintro rfl
        have h0 := hrev.move op (by simp) hop y f0 hid hy
        obtain ⟨f1,hf1,hs1⟩ := hf.keeps stable_parent hy h0
        obtain rfl : f = f1 := by simpa [hx] using hf1
        simp [hp] at hs1
      simpa [hyx] using ht.old y f0 hy
    · intro y hy
      exact ht.new y (by simpa [ne_of_absent hx hy] using hy)
  | some q =>
    rw [hp] at hd
    cases hd with
    | unMove hd =>
      obtain ⟨g,hg,rfl⟩ := hd
      refine ht.rewrite hx hg (fun _ _ h => h) fun _ ha => ?_
      exact ⟨ha.name,ha.description,ha.completed,hp⟩

theorem Tracks.undone_completion {loose : Option String} {f : Facts} {b : Bool} {s1 : View}
    (hx : w x = some f) (ht : Tracks v0 loose (Function.update w x (some (f.write none none (some b)))) s)
    (hd : Rewrites x (·.write none none (some f.completed)) s s1) : Tracks v0 loose w s1 := by
  obtain ⟨g,hg,rfl⟩ := hd
  refine ht.rewrite hx hg (fun _ _ h => h) fun _ ha => ?_
  exact ⟨ha.name,ha.description,rfl,ha.parentId⟩

/-- One inverse leads back across the operation it belongs to. -/
theorem Tracks.undone {loose : Option String} {op : TxnOp} {inv : TxnInverse} {w' s1 : View}
    (hf : Forward v0 ops invs w) (hop : Applied w op inv w')
    (hrev : Reversible v0 (ops++[op])) (ht : Tracks v0 loose w' s) (hd : Undone s inv s1)
    (hpres : ∀ y, v0 y = none → (w y).isSome → (s1 y).isSome) :
    ∃ loose', Tracks v0 loose' w s1 ∧ ∀ x, loose' = some x → loose = some x ∧ ¬IsEdit x op := by
  have hkept (hne : op.op ≠ "edit") (y : String) (hy : loose = some y) :
      loose = some y ∧ ¬IsEdit y op := ⟨hy,fun he => hne he.1⟩
  cases hop with
  | create hop hc hchild =>
    cases hd with
    | deleteCreated hd => exact ⟨loose,ht.deleted hf hc hchild hd hpres,hkept (by simp [hop])⟩
  | edit hop hid hx =>
    rename_i x f
    cases hd with
    | restoreEdit hd =>
      refine ⟨_,ht.undone_edit hf hop hid hx hrev hd,fun y hy => ?_⟩
      by_cases hl : loose = some x
      · simp [hl] at hy
      · simp only [hl,if_false] at hy
        refine ⟨hy,fun he => hl ?_⟩
        have hxy : x = y := by simpa [hid] using he.2
        rw [hxy,hy]
  | move hop hid hx => exact ⟨loose,ht.undone_move hf hop hid hx hrev hd,hkept (by simp [hop])⟩
  | completion hop hid hx =>
    cases hd with
    | restoreCompletion hd =>
      refine ⟨loose,ht.undone_completion hx hd,hkept ?_⟩
      rcases hop with hop | hop <;> simp [hop]

/-- Undoing all of a reversible transaction leads back to the start, from any view
that is off by the name of a node some operation edits. -/
theorem Tracks.undo (loose : Option String) (hf : Forward v0 ops invs w)
    (hrev : Reversible v0 ops) (ht : Tracks v0 loose w s)
    (hl : ∀ x, loose = some x → ∃ op∈ops, IsEdit x op) (hu : Undo invs s s') : s' = v0 := by
  induction hf generalizing s loose with
  | nil =>
    obtain rfl : s' = s := hu
    cases loose with
    | none => exact ht.eq_start
    | some x => simpa using hl x rfl
  | snoc hf hop ih =>
    rename_i ops invs w op inv w'
    obtain ⟨s1,hd,hrest⟩ := hu
    have hpres : ∀ y, v0 y = none → (w y).isSome → (s1 y).isSome := fun y hy hw => by
      obtain ⟨p,hp⟩ := hf.created hy hw
      exact hrest.present hp
    obtain ⟨loose',ht',hl'⟩ := ht.undone hf hop hrev hd hpres
    refine ih loose' ⟨fun op ho => hrev.move op (by simp [ho]),fun op ho => hrev.edit op (by simp [ho])⟩
      ht' (fun x hx => ?_) hrest
    obtain ⟨hx',hno⟩ := hl' x hx
    obtain ⟨op',hmem,he⟩ := hl x hx'
    rcases List.mem_append.mp hmem with hm | hm
    · exact ⟨op',hm,he⟩
    · obtain rfl := List.mem_singleton.mp hm
      exact absurd he hno

theorem Applied.establishes_parent {op : TxnOp} {inv : TxnInverse} (h : Applied v op inv w)
    (hop : op.op = "move") (hid : op.nodeId = some x) :
    ∃ g, w x = some g ∧ g.parentId.isSome := by
  cases h with
  | create hop' => simp [hop] at hop'
  | edit hop' => simp [hop] at hop'
  | move _ hid' hx =>
    obtain rfl : _ = x := by simpa [hid'] using hid
    exact ⟨_,Function.update_self ..,rfl⟩
  | completion hop' => simp [hop] at hop'

theorem Applied.establishes_description {op : TxnOp} {inv : TxnInverse} (h : Applied v op inv w)
    (hop : op.op = "edit") (hid : op.nodeId = some x) (hd : op.description.isSome) :
    ∃ g, w x = some g ∧ g.description.isSome := by
  cases h with
  | create hop' => simp [hop] at hop'
  | edit _ hid' hx =>
    obtain rfl : _ = x := by simpa [hid'] using hid
    obtain ⟨d,hd⟩ := Option.isSome_iff_exists.mp hd
    exact ⟨_,Function.update_self ..,by simp [Facts.write,hd]⟩
  | move hop' => simp [hop] at hop'
  | completion hop' => simp [hop] at hop'

/-- A stable property that some operation gave a node is still there after undoing. -/
theorem Forward.survives (hQ : Stable Q) (hf : Forward v0 ops invs w)
    (hs : ∀ y f, w y = some f → Q f → ∃ g, s y = some g ∧ Q g) (hu : Undo invs s s')
    {op : TxnOp} (hmem : op∈ops) {f : Facts} (hx : v0 x = some f)
    (hop : ∀ v inv v', Applied v op inv v' → ∃ g, v' x = some g ∧ Q g) (he : s' = v0) : Q f := by
  obtain ⟨g,hg,hQg⟩ := hf.establishes hQ hmem (by simp [hx]) fun v inv v' _ h _ => hop v inv v' h
  obtain ⟨g1,hg1,hQg1⟩ := hs x g hg hQg
  refine hu.keeps (fun inv _ _ f => hQ.restore inv) (fun f1 hf1 => ?_) f (he ▸ hx)
  obtain rfl : g1 = f1 := by simpa [hg1] using hf1
  exact hQg1

theorem Forward.reversible (hf : Forward v0 ops invs w)
    (hs : ∀ Q, Stable Q → ∀ y f, w y = some f → Q f → ∃ g, s y = some g ∧ Q g)
    (hu : Undo invs s s') (he : s' = v0) : Reversible v0 ops := by
  constructor
  · intro op hmem hop x f hid hx
    exact hf.survives stable_parent (hs _ stable_parent) hu hmem hx
      (fun _ _ _ h => h.establishes_parent hop hid) he
  · intro op hmem hop hd x f hid hx
    exact hf.survives stable_description (hs _ stable_description) hu hmem hx
      (fun _ _ _ h => h.establishes_description hop hid hd) he

theorem Forward.tracks (hf : Forward v0 ops invs w) : Tracks v0 none w w := by
  refine ⟨fun y f0 hy => ?_,fun _ h => h⟩
  obtain ⟨f,hw,-⟩ := hf.keeps stable_true hy trivial
  exact ⟨f,f,hw,hw,Alike.refl _ f⟩

/-- A view that is off at one node still tracks, as far as the facts there are alike. -/
theorem Forward.tracks_update (hf : Forward v0 ops invs w) {loose : Option String} {f b : Facts}
    (hx : w x = some f) (hb : (v0 x).isSome → Alike (loose≠some x) f b) :
    Tracks v0 loose w (Function.update w x (some b)) := by
  constructor
  · intro y f0 hy
    obtain ⟨g,hg,-⟩ := hf.keeps stable_true hy trivial
    by_cases hyx : y = x
    · subst hyx
      exact ⟨f,b,hx,Function.update_self ..,hb (by simp [hy])⟩
    · exact ⟨g,g,hg,by simpa [hyx] using hg,Alike.refl _ g⟩
  · intro y hy
    simpa [ne_of_absent hx hy] using hy

/-- Undoing what was applied leads back to the start exactly if it was reversible. -/
theorem Forward.undo_iff (hf : Forward v0 ops invs w) (hu : Undo invs w s') :
    s' = v0 ↔ Reversible v0 ops :=
  ⟨hf.reversible (fun _ _ _ f hy hQ => ⟨f,hy,hQ⟩) hu,
    fun hrev => Tracks.undo none hf hrev hf.tracks (by simp) hu⟩

theorem Forward.restoreEdit (hf : Forward v0 ops invs w) {n d : Option String}
    (hmem : TxnInverse.RestoreEdit x n d∈invs) : ∃ op∈ops, IsEdit x op := by
  induction hf with
  | nil => simp at hmem
  | snoc hf hop ih =>
    rcases List.mem_cons.mp hmem with rfl | hm
    · cases hop with
      | edit hop hid hx => exact ⟨_,by simp,hop,hid⟩
    · obtain ⟨op,ho,he⟩ := ih hm
      exact ⟨op,by simp [ho],he⟩

/-- With no inverse of an edit of the node among them, the inverses keep its name. -/
theorem Undo.keeps_name (hf : Forward v0 ops invs w) (hno : ∀ op∈ops, ¬IsEdit x op) {n : String}
    (hu : Undo invs s s') (hs : ∀ g, s x = some g → g.name = n) :
      ∀ g, s' x = some g → g.name = n := by
  refine hu.keeps (fun inv hmem ht g hg => ?_) hs
  cases inv with
  | DeleteCreated y p => exact hg
  | RestoreEdit y m d =>
    obtain rfl : y = x := ht
    obtain ⟨op,ho,hedit⟩ := hf.restoreEdit hmem
    exact absurd hedit (hno op ho)
  | UnMove y p pr => cases p <;> exact hg
  | RestoreCompletion y b => exact hg

/-- A name written on top by a half-applied edit goes away with the undoing exactly if it
changed nothing, or an earlier edit of the same node writes the old name back. -/
theorem Forward.undo_half_iff (hf : Forward v0 ops invs w) {n : String}
    (hs : Rewrites x (·.write (some n) none none) w s) (hu : Undo invs s s') :
    s' = v0 ↔ Reversible v0 ops ∧ ∀ f, v0 x = some f → n = f.name ∨ ∃ op∈ops, IsEdit x op := by
  obtain ⟨f,hfx,rfl⟩ := hs
  constructor
  · intro he
    refine ⟨hf.reversible (fun Q hQ y g hg hQg => ?_) hu he,fun f0 hf0 => ?_⟩
    · by_cases hy : y = x
      · subst hy
        obtain rfl : f = g := by simpa [hfx] using hg
        exact ⟨_,Function.update_self ..,hQ.write _ _ _ _ hQg⟩
      · exact ⟨g,by simpa [hy] using hg,hQg⟩
    · by_contra hne
      push Not at hne
      have hlanded : ∀ g, Function.update w x (some (f.write (some n) none none)) x = some g →
          g.name = n := by
        intro g hg
        obtain rfl : f.write (some n) none none = g := by simpa using hg
        rfl
      exact hne.1 (Undo.keeps_name hf hne.2 hu hlanded f0 (he ▸ hf0)).symm
  · rintro ⟨hrev,hname⟩
    by_cases hedit : ∃ op∈ops, IsEdit x op
    · refine Tracks.undo (some x) hf hrev (hf.tracks_update hfx fun _ => ?_)
        (fun y hy => by cases hy; exact hedit) hu
      exact ⟨fun h => absurd rfl h,rfl,rfl,rfl⟩
    · -- nothing edits the node, so it still bears the name that landed
      push Not at hedit
      refine Tracks.undo none hf hrev (hf.tracks_update hfx fun hv => ?_) (by simp) hu
      obtain ⟨f0,hf0⟩ := Option.isSome_iff_exists.mp hv
      obtain ⟨g,hg,hn⟩ := hf.keeps_name hf0 hedit
      obtain rfl : f = g := by simpa [hfx] using hg
      have hnf : n = f.name := by
        rcases hname f0 hf0 with h | ⟨op,ho,he⟩
        · rw [h,hn]
        · exact absurd he (hedit op ho)
      have hsame : f.write (some n) none none = f := by simp [Facts.write,hnf]
      simpa only [hsame] using Alike.refl _ f

end runs

end WorkflowyMcp.Transaction
