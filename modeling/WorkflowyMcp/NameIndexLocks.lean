import WorkflowyMcp.Lib.Locks
import WorkflowyMcp.NameIndex

/-! The locks of the name index: which ones each operation takes and in which order. The branches
that the contents decide are left open. -/
namespace WorkflowyMcp.NameIndex

inductive IndexLock where
  | byName | byId | byShortHash | byPrefixHash | tombstones
deriving DecidableEq, Repr

instance : Fintype IndexLock where
  elems := {.byName,.byId,.byShortHash,.byPrefixHash,.tombstones}
  complete l := by cases l <;> decide

def IndexLock.rank : IndexLock → Nat
  | .byName => 0
  | .byId => 1
  | .byShortHash => 2
  | .byPrefixHash => 3
  | .tombstones => 4

/- `lookup` stands for all scans of the entries, `size` for both reads of the size, and
   `forgetTombstones` for the end of a save. -/
inductive LockingOp where
  | ingest (isEmpty : Bool)
  | invalidateNode (wasPresent : Bool)
  | clear (wasPopulated : Bool)
  | lookupEntryById (found : Bool)
  | mergeFromDisk (readable adopts : Bool)
  | snapshot
  | resolveShortHash (isHex : Bool) (len : Nat)
  | lookup
  | size
  | forgetTombstones
deriving DecidableEq, Repr

namespace LockingOp
open Locks

/-- Take a lock, and release it after what is done under it. -/
def hold (l : IndexLock) (m : Mode) (inner : List (Action IndexLock)) : List (Action IndexLock) :=
  .acquire l m::inner++[.release l]

def writeMaps : List (Action IndexLock) :=
  hold .byName .write (hold .byId .write (hold .byShortHash .write (hold .byPrefixHash .write [])))

def program : LockingOp → List (Action IndexLock)
  | .ingest isEmpty => if isEmpty then [] else writeMaps
  | .invalidateNode wasPresent =>
    writeMaps++if wasPresent then hold .tombstones .write [] else []
  | .clear wasPopulated =>
    hold .byId .write
      ((if wasPopulated then hold .tombstones .write [] else [])++hold .byName .write [])++
    hold .byShortHash .write []++hold .byPrefixHash .write []
  | .lookupEntryById found => hold .byId .read []++if found then hold .byName .read [] else []
  | .mergeFromDisk readable adopts =>
    if readable then
      hold .byId .read (hold .tombstones .read [])++if adopts then writeMaps else []
    else []
  | .snapshot | .lookup => hold .byName .read []
  | .resolveShortHash isHex len =>
    if !isHex then []
    else if len = SHORT_HASH_LEN_URL then hold .byShortHash .read []
    else if len = SHORT_HASH_LEN_PREFIX then hold .byPrefixHash .read []
    else []
  | .size => hold .byId .read []
  | .forgetTombstones => hold .tombstones .write []

theorem rank_injective : Function.Injective IndexLock.rank := by decide

theorem resolveShortHash_program (isHex : Bool) (len : Nat) :
    program (.resolveShortHash isHex len) = [] ∨
      ∃ l, program (.resolveShortHash isHex len) = hold l .read [] := by
  dsimp only [program]
  split
  · exact .inl rfl
  · split
    · exact .inr ⟨_,rfl⟩
    · split
      · exact .inr ⟨_,rfl⟩
      · exact .inl rfl

/-- Every operation but `clear` takes the locks in the order of their ranks, and `clear` takes
`by_name` under `by_id`. -/
theorem ranked_program (op : LockingOp) :
    Ranked IndexLock.rank .byName .byId (fun _ => none) op.program ∧
      after (fun _ => none) op.program = fun _ => none := by
  cases op with
  | ingest b | invalidateNode b | clear b | lookupEntryById b => cases b <;> decide
  | mergeFromDisk b c => cases b <;> cases c <;> decide
  | snapshot | lookup | size | forgetTombstones => decide
  | resolveShortHash b len =>
    rcases resolveShortHash_program b len with h | ⟨l,h⟩
    · rw [h]
      decide
    · rw [h]
      cases l <;> decide

section threads
variable {T : Type} [DecidableEq T] [Fintype T]

/-- Threads about to run their operations one after another. -/
def threads (ops : T → List LockingOp) : T → Thread IndexLock :=
  start fun t => (ops t).flatMap program

/-- As long as no `clear` comes between `by_id` and `by_name` while a write of the maps is between
`by_name` and `by_id`, no threads deadlock. -/
theorem deadlock_free_of_apart (ops : T → List LockingOp) (ts : List T)
    (h : Runs.Meets step (Apart .byName .byId) (threads ops) ts) :
    Runs.Always step (fun s => ∀ D, ¬Deadlocked s D) (threads ops) ts := by
  have horderly : Orderly IndexLock.rank .byName .byId (threads ops) :=
    ⟨fun t => ranked_flatMap (ops t) (fun op => (ranked_program op).1)
        fun op => (ranked_program op).2,
      fun _ _ _ hc => absurd hc crosses_start⟩
  exact never_deadlocked horderly rank_injective rfl h

end threads

/-- One thread ingests while the other clears a populated index. -/
def ingestAndClear (t : Bool) : List LockingOp := if t then [.clear true] else [.ingest false]

theorem deadlock_free_in_turn :
    Runs.Always step (fun s => ∀ D, ¬Deadlocked s D) (threads ingestAndClear)
      (List.replicate 8 false++List.replicate 10 true) :=
  deadlock_free_of_apart ingestAndClear _ (by decide)

/-- `ingest` holds `by_name` and waits for `by_id`, `clear` holds `by_id` and waits for
`by_name`. -/
theorem ingest_clear_deadlock :
    Deadlocked (Runs.run step (threads ingestAndClear) [false,true,true,true]) {false,true} := by
  decide

end LockingOp
end WorkflowyMcp.NameIndex
