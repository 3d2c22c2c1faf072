import WorkflowyMcp.Lib.KeyMap
import WorkflowyMcp.Lib.Runs
import WorkflowyMcp.Lib.StableSort
import Mathlib.Data.Finset.Card

/-! The answers of past creates by their idempotency key: what has expired goes on every call,
what is too much goes oldest first, and which of equally old entries goes is left to the map. -/
namespace WorkflowyMcp

structure IdempotencyEntry where
  itemId : String
  name : String
  parentId : Option String
  recordedUnixMs : Nat
deriving DecidableEq, Repr

structure IdempotencyHit where
  itemId : String
  name : String
  parentId : Option String
  ageMs : Nat
deriving DecidableEq, Repr

structure IdempotencyStore where
  inner : KeyMap String IdempotencyEntry
  ttlMs : Nat
  maxEntries : Nat

/-- The order in which a hash map hands out its entries. -/
structure IterOrder (α : Type) where
  order : List α → List α
  perm : ∀ xs, (order xs).Perm xs

namespace IdempotencyStore

def new (ttlMs maxEntries : Nat) : IdempotencyStore where
  inner := ∅
  ttlMs := ttlMs
  maxEntries := maxEntries

def pruneExpired (s : IdempotencyStore) (map : KeyMap String IdempotencyEntry) (nowMs : Nat) :
    KeyMap String IdempotencyEntry :=
  map.retain fun _ e => nowMs-e.recordedUnixMs < s.ttlMs

def byAge (iter : IterOrder (String×Nat)) (map : KeyMap String IdempotencyEntry) :
    List (String×Nat) :=
  sortByKey (·.2) (iter.order (map.entries.map fun e => (e.1,e.2.recordedUnixMs)))

/-- Oldest first, until the map is under the cap. -/
def enforceCap (s : IdempotencyStore) (iter : IterOrder (String×Nat))
    (map : KeyMap String IdempotencyEntry) : KeyMap String IdempotencyEntry :=
  if map.keys.length ≤ s.maxEntries then map
  else
    let toRemove := map.keys.length-s.maxEntries
    map.eraseAll (((byAge iter map).take toRemove).map (·.1))

def check (s : IdempotencyStore) (key : String) (nowMs : Nat) :
    Option IdempotencyHit × IdempotencyStore :=
  let map := s.pruneExpired s.inner nowMs
  ((map.lookup key).map fun e =>
    ⟨e.itemId,e.name,e.parentId,nowMs-e.recordedUnixMs⟩,{ s with inner := map })

def record (s : IdempotencyStore) (key itemId name : String) (parentId : Option String)
    (nowMs : Nat) (iter : IterOrder (String×Nat)) : IdempotencyStore :=
  let map := s.inner.insert key ⟨itemId,name,parentId,nowMs⟩
  { s with inner := s.enforceCap iter (s.pruneExpired map nowMs) }

def len (s : IdempotencyStore) : Nat := s.inner.keys.length

inductive Call where
  | check (key : String) (nowMs : Nat)
  | record (key itemId name : String) (parentId : Option String) (nowMs : Nat)
      (iter : IterOrder (String×Nat))

def Call.nowMs : Call → Nat
  | .check _ nowMs => nowMs
  | .record _ _ _ _ nowMs _ => nowMs

def Call.recorded : Call → Option String
  | .check .. => none
  | .record key .. => some key

def perform (s : IdempotencyStore) : Call → IdempotencyStore
  | .check key nowMs => (s.check key nowMs).2
  | .record key itemId name parentId nowMs iter => s.record key itemId name parentId nowMs iter

@[simp] theorem perform_ttlMs (s : IdempotencyStore) (c : Call) :
    (s.perform c).ttlMs = s.ttlMs := by cases c <;> rfl

@[simp] theorem perform_maxEntries (s : IdempotencyStore) (c : Call) :
    (s.perform c).maxEntries = s.maxEntries := by cases c <;> rfl

/-- The other entries that a record of `key` finds unexpired. -/
def others (s : IdempotencyStore) (key : String) (nowMs : Nat) :
    KeyMap String IdempotencyEntry :=
  s.pruneExpired (s.inner.erase key) nowMs

/-- A record that overflows the cap finds one entry older than every other, its own included. -/
def Untied (s : IdempotencyStore) : Call → Prop
  | .check .. => True
  | .record key _ _ _ nowMs _ => s.maxEntries ≤ (s.others key nowMs).keys.length →
      ∃ k e, (s.others key nowMs).lookup k = some e ∧ e.recordedUnixMs < nowMs ∧
        ∀ j f, (s.others key nowMs).lookup j = some f → j≠k → e.recordedUnixMs < f.recordedUnixMs

section eviction
variable (iter : IterOrder (String×Nat)) (map : KeyMap String IdempotencyEntry)

theorem byAge_perm :
    (byAge iter map).Perm (map.entries.map fun e => (e.1,e.2.recordedUnixMs)) :=
  (sortByKey_perm _).trans (iter.perm _)

theorem keys_byAge : ((byAge iter map).map (·.1)).Perm map.keys := by
  have hkeys := (byAge_perm iter map).map (·.1)
  rw [List.map_map] at hkeys
  exact hkeys

theorem mem_byAge {map : KeyMap String IdempotencyEntry} {k : String} {ts : Nat} :
    (k,ts)∈byAge iter map ↔ ∃ e, map.lookup k = some e ∧ e.recordedUnixMs = ts := by
  rw [(byAge_perm iter map).mem_iff,List.mem_map]
  constructor
  · rintro ⟨⟨j,e⟩,he,hk⟩
    obtain ⟨rfl,rfl⟩ := Prod.mk.inj hk
    exact ⟨e,AList.mem_lookup_iff.mpr he,rfl⟩
  · rintro ⟨e,he,rfl⟩
    exact ⟨⟨k,e⟩,AList.mem_lookup_iff.mp he,rfl⟩

theorem len_enforceCap (s : IdempotencyStore) :
    (s.enforceCap iter map).keys.length ≤ s.maxEntries := by
  unfold enforceCap
  split
  · assumption
  · have hkeys := keys_byAge iter map
    have hlen : (byAge iter map).length = map.keys.length := by simpa using hkeys.length_eq
    have hsub : (((byAge iter map).take (map.keys.length-s.maxEntries)).map (·.1)).Sublist
        ((byAge iter map).map (·.1)) := (List.take_sublist _ _).map _
    rw [KeyMap.length_keys_eraseAll (hsub.nodup (hkeys.nodup_iff.mpr map.keys_nodup))
      fun k hk => hkeys.mem_iff.mp (hsub.subset hk)]
    rw [List.length_map,List.length_take,hlen]
    omega

theorem lookup_enforceCap {s : IdempotencyStore} {map : KeyMap String IdempotencyEntry}
    {j : String} {f : IdempotencyEntry} (h : (s.enforceCap iter map).lookup j = some f) :
    map.lookup j = some f := by
  unfold enforceCap at h
  split at h
  · exact h
  · rw [KeyMap.lookup_eraseAll] at h
    split at h
    · cases h
    · exact h

/-- One entry too many, and one that is older than the rest: that one goes. -/
theorem enforceCap_oldest {s : IdempotencyStore} {map : KeyMap String IdempotencyEntry}
    (hlen : map.keys.length = s.maxEntries+1) {k : String} {e : IdempotencyEntry}
    (hk : map.lookup k = some e)
    (hold : ∀ j f, map.lookup j = some f → j≠k → e.recordedUnixMs < f.recordedUnixMs) :
    s.enforceCap iter map = map.erase k := by
  have hmem : (k,e.recordedUnixMs)∈byAge iter map := (mem_byAge iter).mpr ⟨e,hk,rfl⟩
  have hsorted : (byAge iter map).Pairwise fun a b => a.2 ≤ b.2 := sortByKey_sorted _
  obtain ⟨⟨j,ts⟩,rest,hby⟩ := List.exists_cons_of_ne_nil (List.ne_nil_of_mem hmem)
  have hj : j = k := by
    by_contra hne
    obtain ⟨f,hf,hts⟩ := (mem_byAge iter).mp (hby ▸ List.mem_cons_self : (j,ts)∈byAge iter map)
    have hle : ts ≤ e.recordedUnixMs := by
      rw [hby] at hmem hsorted
      rcases List.mem_cons.mp hmem with h | h
      · exact absurd (Prod.mk.inj h).1.symm hne
      · exact (List.pairwise_cons.mp hsorted).1 _ h
    have := hold j f hf hne
    omega
  have hover : ¬map.keys.length ≤ s.maxEntries := by omega
  have hone : map.keys.length-s.maxEntries = 1 := by omega
  simp only [enforceCap,if_neg hover,hone,hby,List.take_succ_cons,List.take_zero,List.map_cons,
    List.map_nil,hj]
  rfl

end eviction

section record
variable {s : IdempotencyStore} {key itemId name : String} {parentId : Option String}
  {nowMs : Nat} {iter : IterOrder (String×Nat)}

theorem len_perform (c : Call) (hlen : s.len ≤ s.maxEntries) :
    (s.perform c).len ≤ (s.perform c).maxEntries := by
  cases c with
  | check key nowMs =>
    have hfilter : (s.pruneExpired s.inner nowMs).entries.length ≤ s.inner.entries.length :=
      List.length_filter_le _ _
    simp only [perform,check,len,AList.keys,List.keys,List.length_map] at *
    omega
  | record key itemId name parentId nowMs iter => exact len_enforceCap iter _ s

theorem lookup_others (j : String) : (s.others key nowMs).lookup j =
    (if j=key then none else s.inner.lookup j).filter
      fun e => nowMs-e.recordedUnixMs < s.ttlMs := by
  simp [others,pruneExpired]

/-- What a record leaves for the cap: its own entry before the unexpired others. -/
theorem keys_pruned (httl : 0 < s.ttlMs) :
    (s.pruneExpired (s.inner.insert key ⟨itemId,name,parentId,nowMs⟩) nowMs).keys =
      key::(s.others key nowMs).keys := by
  simp only [AList.keys,List.keys,pruneExpired,KeyMap.retain,others,KeyMap.entries_insert]
  rw [List.filter_cons_of_pos (by simpa using httl)]
  rfl

theorem lookup_pruned (httl : 0 < s.ttlMs) (j : String) :
    (s.pruneExpired (s.inner.insert key ⟨itemId,name,parentId,nowMs⟩) nowMs).lookup j =
      if j=key then some ⟨itemId,name,parentId,nowMs⟩ else (s.others key nowMs).lookup j := by
  by_cases hj : j=key <;> simp [pruneExpired,others,hj,httl]

theorem len_others (hlen : s.len ≤ s.maxEntries) :
    (s.others key nowMs).keys.length ≤ s.maxEntries := by
  have hfilter : (s.others key nowMs).entries.length ≤ (s.inner.erase key).entries.length :=
    List.length_filter_le _ _
  have herase : (s.inner.erase key).keys.length ≤ s.inner.keys.length := by
    rw [AList.keys_erase]
    exact (List.erase_sublist).length_le
  simp only [len,AList.keys,List.keys,List.length_map] at *
  omega

/-- A record keeps the unexpired others, or all of them but the oldest. -/
theorem lookup_record (httl : 0 < s.ttlMs) (hlen : s.len ≤ s.maxEntries)
    (huntied : s.Untied (.record key itemId name parentId nowMs iter)) :
    (∀ j, (s.record key itemId name parentId nowMs iter).inner.lookup j =
      if j=key then some ⟨itemId,name,parentId,nowMs⟩ else (s.others key nowMs).lookup j) ∨
    (s.others key nowMs).keys.length = s.maxEntries ∧
    ∃ k e, (s.others key nowMs).lookup k = some e ∧ k≠key ∧
      (∀ j f, (s.others key nowMs).lookup j = some f → j≠k →
        e.recordedUnixMs < f.recordedUnixMs) ∧
      ∀ j, (s.record key itemId name parentId nowMs iter).inner.lookup j =
        if j=k then none else
          if j=key then some ⟨itemId,name,parentId,nowMs⟩ else (s.others key nowMs).lookup j := by
  have hkeys : (s.pruneExpired (s.inner.insert key ⟨itemId,name,parentId,nowMs⟩) nowMs).keys =
    key::(s.others key nowMs).keys := keys_pruned httl
  have hothers : (s.others key nowMs).keys.length ≤ s.maxEntries := len_others hlen
  by_cases hfull : s.maxEntries ≤ (s.others key nowMs).keys.length
  · obtain ⟨k,e,hk,hnow,hold⟩ := huntied hfull
    have hne : k≠key := by
      rintro rfl
      simp [lookup_others] at hk
    refine .inr ⟨by omega,k,e,hk,hne,hold,fun j => ?_⟩
    have hcap : s.enforceCap iter
        (s.pruneExpired (s.inner.insert key ⟨itemId,name,parentId,nowMs⟩) nowMs) =
        (s.pruneExpired (s.inner.insert key ⟨itemId,name,parentId,nowMs⟩) nowMs).erase k := by
      refine enforceCap_oldest iter (e := e) ?_ ?_ fun i f hf hik => ?_
      · rw [hkeys,List.length_cons]
        omega
      · rw [lookup_pruned httl,if_neg hne,hk]
      · rw [lookup_pruned httl] at hf
        by_cases hi : i=key
        · rw [if_pos hi] at hf
          obtain rfl := Option.some.inj hf
          exact hnow
        · rw [if_neg hi] at hf
          exact hold i f hf hik
    simp only [record,hcap,KeyMap.lookup_erase_ite,lookup_pruned httl]
  · refine .inl fun j => ?_
    have hfits : (s.pruneExpired (s.inner.insert key ⟨itemId,name,parentId,nowMs⟩)
        nowMs).keys.length ≤ s.maxEntries := by
      rw [hkeys,List.length_cons]
      omega
    simp only [record,enforceCap,if_pos hfits,lookup_pruned httl]

end record

/-- `k` holds `e`, and of the other entries those not recorded since are no younger. -/
structure Held (k : String) (e : IdempotencyEntry) (since : List String)
    (s : IdempotencyStore) : Prop where
  held : s.inner.lookup k = some e
  older : ∀ j f, s.inner.lookup j = some f → j≠k → j∉since → f.recordedUnixMs ≤ e.recordedUnixMs

section run
variable {s : IdempotencyStore} {k : String} {e : IdempotencyEntry} {since : List String}

theorem Held.check (h : Held k e since s) {key : String} {nowMs : Nat}
    (hfresh : nowMs-e.recordedUnixMs < s.ttlMs) : Held k e since (s.check key nowMs).2 where
  held := by simp [IdempotencyStore.check,pruneExpired,h.held,hfresh]
  older j f hf := by
    have hf : s.inner.lookup j = some f := by
      simp only [IdempotencyStore.check,pruneExpired,KeyMap.lookup_retain,
        Option.filter_eq_some_iff] at hf
      exact hf.1
    exact h.older j f hf

/-- Where every other entry is younger than that of `k`, all of them were recorded since. -/
theorem length_others_le {key : String} {nowMs : Nat} (hk : (s.others key nowMs).lookup k = some e)
    (holder : ∀ j f, (s.others key nowMs).lookup j = some f → j≠k → j∉since →
      f.recordedUnixMs ≤ e.recordedUnixMs)
    (hold : ∀ j f, (s.others key nowMs).lookup j = some f → j≠k →
      e.recordedUnixMs < f.recordedUnixMs) :
    (s.others key nowMs).keys.length ≤ (since++[key]).toFinset.card := by
  have hsub : key::(s.others key nowMs).keys.erase k⊆since++[key] := by
    intro j hj
    rcases List.mem_cons.mp hj with rfl | hj
    · simp
    · obtain ⟨hjk,hj⟩ := ((s.others key nowMs).keys_nodup.mem_erase_iff).mp hj
      have hsome := AList.lookup_isSome.mpr (AList.mem_keys.mpr hj)
      obtain ⟨f,hf⟩ := Option.isSome_iff_exists.mp hsome
      by_contra hj
      have hlt := hold j f hf hjk
      have hle := holder j f hf hjk fun hmem => hj (List.mem_append_left _ hmem)
      omega
  have hnodup : (key::(s.others key nowMs).keys.erase k).Nodup := by
    refine List.nodup_cons.mpr ⟨fun hmem => ?_,(s.others key nowMs).keys_nodup.erase k⟩
    have hkey := AList.lookup_isSome.mpr (AList.mem_keys.mpr (List.mem_of_mem_erase hmem))
    simp [lookup_others] at hkey
  have hcard : (key::(s.others key nowMs).keys.erase k).length ≤ (since++[key]).toFinset.card := by
    rw [← List.toFinset_card_of_nodup hnodup]
    exact Finset.card_le_card fun j hj => List.mem_toFinset.mpr (hsub (List.mem_toFinset.mp hj))
  have hmem : k∈(s.others key nowMs).keys :=
    AList.mem_keys.mp (AList.lookup_isSome.mp (by rw [hk]; rfl))
  have hpos := List.length_pos_of_mem hmem
  rw [List.length_cons,List.length_erase_of_mem hmem] at hcard
  omega

/-- An evicted `k` would be older than a full store of entries recorded since. -/
theorem Held.record (h : Held k e since s) (httl : 0 < s.ttlMs) (hlen : s.len ≤ s.maxEntries)
    {key itemId name : String} {parentId : Option String} {nowMs : Nat}
    {iter : IterOrder (String×Nat)} (hne : k≠key) (hfresh : nowMs-e.recordedUnixMs < s.ttlMs)
    (hfew : (since++[key]).toFinset.card < s.maxEntries)
    (huntied : s.Untied (.record key itemId name parentId nowMs iter)) :
    Held k e (since++[key]) (s.record key itemId name parentId nowMs iter) := by
  have hk : (s.others key nowMs).lookup k = some e := by
    rw [lookup_others,if_neg hne,h.held]
    simp [hfresh]
  have holder (j : String) (f : IdempotencyEntry) (hf : (s.others key nowMs).lookup j = some f)
      (hjk : j≠k) (hj : j∉since) : f.recordedUnixMs ≤ e.recordedUnixMs := by
    rw [lookup_others,Option.filter_eq_some_iff] at hf
    obtain ⟨hf,-⟩ := hf
    split at hf
    · cases hf
    · exact h.older j f hf hjk hj
  rcases lookup_record httl hlen huntied with hrec | ⟨hfull,k',e',hk',hk'key,hold,hrec⟩
  · refine ⟨by rw [hrec,if_neg hne,hk],fun j f hf hjk hj => ?_⟩
    simp only [List.mem_append,List.mem_singleton,not_or] at hj
    rw [hrec,if_neg hj.2] at hf
    exact holder j f hf hjk hj.1
  · have hkept : k≠k' := by
      rintro rfl
      obtain rfl : e' = e := Option.some.inj (hk'.symm.trans hk)
      have hcard := length_others_le hk holder hold
      omega
    refine ⟨by rw [hrec,if_neg hkept,if_neg hne,hk],fun j f hf hjk hj => ?_⟩
    simp only [List.mem_append,List.mem_singleton,not_or] at hj
    rw [hrec] at hf
    split at hf
    · cases hf
    · rw [if_neg hj.2] at hf
      exact holder j f hf hjk hj.1

/-- An entry that a call leaves was there before, or is as old as the call. -/
theorem perform_lookup {c : Call} {j : String} {f : IdempotencyEntry}
    (h : (s.perform c).inner.lookup j = some f) :
    s.inner.lookup j = some f ∨ f.recordedUnixMs = c.nowMs := by
  cases c with
  | check key nowMs =>
    simp only [perform,IdempotencyStore.check,pruneExpired,KeyMap.lookup_retain,
      Option.filter_eq_some_iff] at h
    exact .inl h.1
  | record key itemId name parentId nowMs iter =>
    have h := lookup_enforceCap iter h
    simp only [pruneExpired,KeyMap.lookup_retain,KeyMap.lookup_insert_ite,
      Option.filter_eq_some_iff] at h
    obtain ⟨h,-⟩ := h
    split at h
    · obtain rfl := Option.some.inj h
      exact .inr rfl
    · exact .inl h

theorem held_record (httl : 0 < s.ttlMs) (hlen : s.len ≤ s.maxEntries)
    {key itemId name : String} {parentId : Option String} {nowMs : Nat}
    {iter : IterOrder (String×Nat)}
    (huntied : s.Untied (.record key itemId name parentId nowMs iter))
    (hclock : ∀ j f, s.inner.lookup j = some f → f.recordedUnixMs ≤ nowMs) :
    Held key ⟨itemId,name,parentId,nowMs⟩ [] (s.record key itemId name parentId nowMs iter) where
  held := by
    rcases lookup_record httl hlen huntied with hrec | ⟨-,k',e',-,hne,-,hrec⟩
    · simp [hrec]
    · simp [hrec,hne.symm]
  older j f hf hj _ := by
    rcases perform_lookup (c := .record key itemId name parentId nowMs iter) hf with hf | hf
    · exact hclock j f hf
    · exact hf.le

theorem held_run {calls : List Call} (h : Held k e since s) (httl : 0 < s.ttlMs)
    (hlen : s.len ≤ s.maxEntries) (hmeets : Runs.Meets perform Untied s calls)
    (hfresh : ∀ c∈calls, c.nowMs-e.recordedUnixMs < s.ttlMs)
    (hk : k∉calls.filterMap Call.recorded)
    (hfew : (since++calls.filterMap Call.recorded).toFinset.card < s.maxEntries) :
    Held k e (since++calls.filterMap Call.recorded) (Runs.run perform s calls) := by
  induction calls generalizing s since with
  | nil => simpa using h
  | cons c calls ih =>
    have hnow := hfresh c List.mem_cons_self
    have hrest := fun c hc => hfresh c (List.mem_cons_of_mem _ hc)
    cases c with
    | check key nowMs =>
      exact ih (h.check hnow) httl (len_perform (.check key nowMs) hlen) hmeets.2 hrest hk hfew
    | record key itemId name parentId nowMs iter =>
      have hcons : since++(Call.record key itemId name parentId nowMs iter::calls).filterMap
          Call.recorded = (since++[key])++calls.filterMap Call.recorded := by
        simp [Call.recorded]
      have hk : k∉key::calls.filterMap Call.recorded := hk
      rw [List.mem_cons,not_or] at hk
      rw [hcons] at hfew ⊢
      have hstep : (since++[key]).toFinset.card < s.maxEntries := by
        refine lt_of_le_of_lt (Finset.card_le_card fun j hj => ?_) hfew
        simp only [List.mem_toFinset,List.mem_append] at hj ⊢
        exact .inl hj
      exact ih (h.record httl hlen hk.1 hnow hstep hmeets.1) httl (len_perform _ hlen)
        hmeets.2 hrest hk.2 hfew

/-- No entry is younger than the clock. -/
theorem recorded_le {nowMs : Nat} {calls : List Call} (hnow : ∀ c∈calls, c.nowMs ≤ nowMs)
    (hs : ∀ j f, s.inner.lookup j = some f → f.recordedUnixMs ≤ nowMs) :
    ∀ j f, (Runs.run perform s calls).inner.lookup j = some f → f.recordedUnixMs ≤ nowMs := by
  induction calls generalizing s with
  | nil => exact hs
  | cons c calls ih =>
    refine ih (fun c hc => hnow c (List.mem_cons_of_mem _ hc)) fun j f hf => ?_
    rcases perform_lookup hf with hf | hf
    · exact hs j f hf
    · exact hf ▸ hnow c List.mem_cons_self

end run

/-- What a record stored is what a check gets, until it expires, is recorded again or has a
full store of other keys recorded after it. -/
def Remembers (s : IdempotencyStore) (calls : List Call) (nowMs : Nat) : Prop :=
  ∀ pre key itemId name parentId t iter post,
    calls = pre++Call.record key itemId name parentId t iter::post →
    nowMs < t+s.ttlMs → key∉post.filterMap Call.recorded →
    (post.filterMap Call.recorded).toFinset.card < s.maxEntries →
    ((Runs.run perform s calls).check key nowMs).1 = some ⟨itemId,name,parentId,nowMs-t⟩

theorem run_ttlMs (s : IdempotencyStore) (calls : List Call) :
    (Runs.run perform s calls).ttlMs = s.ttlMs :=
  Runs.run_keeps (I := fun s' : IdempotencyStore => s'.ttlMs = s.ttlMs)
    (fun s' c h => by simpa using h) rfl calls

theorem run_maxEntries (s : IdempotencyStore) (calls : List Call) :
    (Runs.run perform s calls).maxEntries = s.maxEntries :=
  Runs.run_keeps (I := fun s' : IdempotencyStore => s'.maxEntries = s.maxEntries)
    (fun s' c h => by simpa using h) rfl calls

theorem run_len {s : IdempotencyStore} (hlen : s.len ≤ s.maxEntries) (calls : List Call) :
    (Runs.run perform s calls).len ≤ (Runs.run perform s calls).maxEntries :=
  Runs.run_keeps (I := fun s : IdempotencyStore => s.len ≤ s.maxEntries)
    (fun _ c h => len_perform c h) hlen calls

theorem check_ageMs {s : IdempotencyStore} {key : String} {nowMs : Nat} {hit : IdempotencyHit}
    (h : (s.check key nowMs).1 = some hit) : hit.ageMs < s.ttlMs := by
  simp only [check,pruneExpired,KeyMap.lookup_retain,Option.map_eq_some_iff,
    Option.filter_eq_some_iff,decide_eq_true_eq] at h
  obtain ⟨e,⟨-,hage⟩,rfl⟩ := h
  exact hage

theorem len_new (ttlMs maxEntries : Nat) :
    (new ttlMs maxEntries).len ≤ (new ttlMs maxEntries).maxEntries :=
  Nat.zero_le _

theorem check_of_held {s : IdempotencyStore} {key : String} {e : IdempotencyEntry} {nowMs : Nat}
    (h : s.inner.lookup key = some e) (hage : nowMs-e.recordedUnixMs < s.ttlMs) :
    (s.check key nowMs).1 = some ⟨e.itemId,e.name,e.parentId,nowMs-e.recordedUnixMs⟩ := by
  simp [check,pruneExpired,h,hage]

theorem check_run {ttlMs maxEntries nowMs : Nat} {calls : List Call} (httl : 0 < ttlMs)
    (hclock : (calls.map Call.nowMs++[nowMs]).Pairwise (·≤·))
    (hmeets : Runs.Meets perform Untied (new ttlMs maxEntries) calls) :
    Remembers (new ttlMs maxEntries) calls nowMs := by
  rintro pre key itemId name parentId t iter post rfl hnow hkey hfew
  obtain ⟨hpre,hrecord,hpost⟩ := Runs.meets_append.mp hmeets
  have hage {nowMs' : Nat} (h : nowMs' ≤ nowMs) : nowMs'-t < ttlMs := by
    simp only [new] at hnow
    omega
  have hend : ∀ c∈post, c.nowMs ≤ nowMs := fun c hc =>
    (List.pairwise_append.mp hclock).2.2 _ (List.mem_map_of_mem (by simp [hc])) _ (by simp)
  have hstart : ∀ c∈pre, c.nowMs ≤ t := by
    intro c hc
    have hcalls := (List.pairwise_append.mp hclock).1
    rw [List.map_append] at hcalls
    exact (List.pairwise_append.mp hcalls).2.2 _ (List.mem_map_of_mem hc) t (by simp [Call.nowMs])
  set s := Runs.run perform (new ttlMs maxEntries) pre with hs
  have hsttl : s.ttlMs = ttlMs := run_ttlMs _ pre
  have hslen : s.len ≤ s.maxEntries := run_len (len_new ttlMs maxEntries) pre
  have hheld : Held key ⟨itemId,name,parentId,t⟩ [] (s.record key itemId name parentId t iter) :=
    held_record (by omega) hslen hrecord (recorded_le hstart (by simp [new]))
  have hfew : ([]++post.filterMap Call.recorded).toFinset.card < s.maxEntries := by
    rw [hs,run_maxEntries]
    exact hfew
  have hcap := len_perform (.record key itemId name parentId t iter) hslen
  have hrun := held_run hheld (hsttl ▸ httl) hcap hpost
    (fun c hc => hsttl ▸ hage (hend c hc)) hkey hfew
  rw [Runs.run_append,Runs.run_cons]
  refine check_of_held hrun.held ?_
  rw [run_ttlMs]
  exact hsttl ▸ hage le_rfl

/-- The claims of the store on every run: it stays under the cap, answers nothing that has
expired, and answers what it recorded as long as each eviction has one oldest entry. -/
theorem remembers_untied {ttlMs maxEntries nowMs : Nat} {calls : List Call} (httl : 0 < ttlMs)
    (hclock : (calls.map Call.nowMs++[nowMs]).Pairwise (·≤·)) :
    (Runs.run perform (new ttlMs maxEntries) calls).len ≤ maxEntries ∧
    (∀ key hit, ((Runs.run perform (new ttlMs maxEntries) calls).check key nowMs).1 = some hit →
      hit.ageMs < ttlMs) ∧
    (Runs.Meets perform Untied (new ttlMs maxEntries) calls →
      Remembers (new ttlMs maxEntries) calls nowMs) := by
  refine ⟨?_,fun key hit h => ?_,check_run httl hclock⟩
  · have hlen := run_len (len_new ttlMs maxEntries) calls
    rwa [run_maxEntries] at hlen
  · have hage := check_ageMs h
    rwa [run_ttlMs] at hage

def asStored : IterOrder (String×Nat) := ⟨id,List.Perm.refl⟩

theorem newest_kept : ((Runs.run perform (new 1000 1) [.record "a" "1" "" none 5 asStored,
    .record "b" "2" "" none 6 asStored]).check "b" 7).1 = some ⟨"2","",none,1⟩ := by
  have hmeets : Runs.Meets perform Untied (new 1000 1) [.record "a" "1" "" none 5 asStored,
      .record "b" "2" "" none 6 asStored] := by
    refine ⟨fun h => absurd h (by decide),fun _ => ?_,trivial⟩
    refine ⟨"a",⟨"1","",none,5⟩,by decide,by decide,fun j f hf hj => ?_⟩
    have hmem := List.mem_singleton.mp (AList.mem_lookup_iff.mp hf)
    exact absurd (congrArg Sigma.fst hmem) hj
  exact (remembers_untied (by decide) (by decide)).2.2 hmeets
    [.record "a" "1" "" none 5 asStored] "b" "2" "" none 6 asStored [] rfl (by decide) (by decide)
    (by decide)

/-- Four creates in one millisecond: the fourth is as old as the others, and goes. -/
theorem newest_evicted : ¬Remembers (new 1000 3)
    (["a","b","c","d"].map fun k => Call.record k k "" none 5 asStored) 6 := by
  intro h
  have h := h (["a","b","c"].map fun k => Call.record k k "" none 5 asStored) "d" "d" "" none 5
    asStored [] rfl (by decide) (by decide) (by decide)
  exact absurd h (by decide)

end IdempotencyStore
end WorkflowyMcp
