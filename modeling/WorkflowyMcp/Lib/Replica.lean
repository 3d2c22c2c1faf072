import Mathlib.Data.Set.Insert
import Mathlib.Logic.Function.Basic

/-! Copies of a keyed map that meet in one shared register. A replica keeps what it
observed, remembers what it forgot, adopts from the register what it has no opinion on,
and publishes the part of its map it does not withhold. -/
namespace WorkflowyMcp

structure Replica (K V : Type) where
  mem : K → Option V
  dead : Set K

namespace Replica
variable {K V : Type}

@[ext] theorem ext {r s : Replica K V} (hmem : ∀ k, r.mem k = s.mem k)
    (hdead : ∀ k, k∈r.dead ↔ k∈s.dead) : r=s := by
  obtain ⟨rm,rd⟩ := r
  obtain ⟨sm,sd⟩ := s
  obtain rfl : rm=sm := funext hmem
  obtain rfl : rd=sd := Set.ext hdead
  rfl

def put [DecidableEq K] (r : Replica K V) (k : K) (v : V) : Replica K V :=
  { r with mem := Function.update r.mem k (some v) }

/-- Only a key the replica holds leaves a mark behind. -/
def forget [DecidableEq K] (r : Replica K V) (k : K) : Replica K V :=
  ⟨Function.update r.mem k none,{j | j∈r.dead ∨ j=k ∧ r.mem k ≠ none}⟩

open Classical in
noncomputable def adopt (r : Replica K V) (file : K → Option V) : Replica K V :=
  { r with mem := fun k => (r.mem k).or (if k∈r.dead then none else file k) }

open Classical in
noncomputable def publish (r : Replica K V) (withheld : Set K) : K → Option V :=
  fun k => if k∈withheld then none else r.mem k

variable {r : Replica K V} {file : K → Option V} {withheld : Set K} {k : K} {v : V}

@[simp] theorem dead_adopt : (r.adopt file).dead = r.dead := rfl

theorem mem_adopt_of_mem (h : r.mem k = some v) : (r.adopt file).mem k = some v := by
  simp [adopt,h]

theorem mem_adopt_of_dead (h : k∈r.dead) : (r.adopt file).mem k = r.mem k := by
  simp [adopt,h]

theorem mem_adopt_of_new (h : r.mem k = none) (hd : k∉r.dead) :
    (r.adopt file).mem k = file k := by
  simp [adopt,h,hd]

theorem mem_adopt_eq_some :
    (r.adopt file).mem k = some v ↔
      r.mem k = some v ∨ r.mem k = none ∧ k∉r.dead ∧ file k = some v := by
  cases hm : r.mem k with
  | some w => simp [adopt,hm]
  | none =>
    by_cases hd : k∈r.dead
    · simp [adopt,hm,hd]
    · simp [adopt,hm,hd]

theorem mem_adopt_eq_none :
    (r.adopt file).mem k = none ↔ r.mem k = none ∧ (k∈r.dead ∨ file k = none) := by
  cases hm : r.mem k with
  | some w => simp [adopt,hm]
  | none =>
    by_cases hd : k∈r.dead
    · simp [adopt,hm,hd]
    · simp [adopt,hm,hd]

theorem publish_eq_some :
    r.publish withheld k = some v ↔ k∉withheld ∧ r.mem k = some v := by
  by_cases h : k∈withheld
  · simp [publish,h]
  · simp [publish,h]

theorem publish_eq_none :
    r.publish withheld k = none ↔ k∈withheld ∨ r.mem k = none := by
  by_cases h : k∈withheld
  · simp [publish,h]
  · simp [publish,h]

/-- What an exchange leaves in the register was the replica's own, or was there. -/
theorem exchange_origin (h : (r.adopt file).publish withheld k = some v) :
    r.mem k = some v ∨ r.mem k = none ∧ file k = some v := by
  rcases mem_adopt_eq_some.mp (publish_eq_some.mp h).2 with hm | ⟨hm,-,hf⟩
  · exact .inl hm
  · exact .inr ⟨hm,hf⟩

/-- An exchange loses no key of the register but those withheld or buried. -/
theorem exchange_keeps (hf : file k ≠ none) (hd : k∉r.dead) (hw : k∉withheld) :
    (r.adopt file).publish withheld k ≠ none := by
  intro hn
  rcases publish_eq_none.mp hn with h | h
  · exact hw h
  · exact (mem_adopt_eq_none.mp h).2.elim hd hf

end Replica
end WorkflowyMcp
