import Mathlib.Data.List.Nodup
import Mathlib.Tactic.Common

/-!
# Insertion-ordered dictionaries

A dictionary that remembers the order its keys were first stored in, as an
association list with distinct keys. Storing a present key keeps its place;
`touch` moves a key to the end; `keepLast` drops the oldest entries.

* `get?_set`, `get?_pop`, `get?_touch`: what a lookup sees after an update.
* `get?_keepLast`: eviction loses entries, it never changes one.
* `mem_entries_iff`: lookups and the entry list say the same.
-/

namespace OmniJsonDb

/-- A dictionary in insertion order. -/
structure OrdDict (κ : Type*) (α : Type*) where
  entries : List (κ × α)
  nodup : (entries.map Prod.fst).Nodup

namespace OrdDict

variable {κ α : Type*}

/-- The empty dictionary. -/
def empty : OrdDict κ α := ⟨[], List.nodup_nil⟩

@[ext] theorem ext {d d' : OrdDict κ α} (h : d.entries = d'.entries) : d = d' := by
  cases d; cases d'; cases h; rfl

def size (d : OrdDict κ α) : ℕ := d.entries.length

/-- The keys, oldest first. -/
def keys (d : OrdDict κ α) : List κ := d.entries.map Prod.fst

theorem nodup_keys (d : OrdDict κ α) : d.keys.Nodup := d.nodup

/-- The `n` youngest entries. -/
def keepLast (d : OrdDict κ α) (n : ℕ) : OrdDict κ α where
  entries := d.entries.drop (d.entries.length - n)
  nodup := by rw [List.map_drop]; exact d.nodup.sublist (List.drop_sublist _ _)

/-- All entries but the oldest. -/
def popFirst (d : OrdDict κ α) : OrdDict κ α where
  entries := d.entries.tail
  nodup := by rw [List.map_tail]; exact d.nodup.sublist (List.tail_sublist _)

/-- The entries whose key satisfies `p`. -/
def restrict (d : OrdDict κ α) (p : κ → Bool) : OrdDict κ α where
  entries := d.entries.filter fun e => p e.1
  nodup := d.nodup.sublist ((List.filter_sublist (l := d.entries)).map _)

variable [DecidableEq κ]

def get? (d : OrdDict κ α) (k : κ) : Option α :=
  (d.entries.find? fun e => e.1 = k).map Prod.snd

def contains (d : OrdDict κ α) (k : κ) : Bool := (d.get? k).isSome

/-- Remove `k`. -/
def pop (d : OrdDict κ α) (k : κ) : OrdDict κ α := d.restrict (fun x => x ≠ k)

/-- The entries with `k` bound to `a`: in place when present, else at the end. -/
def setEntries (k : κ) (a : α) : List (κ × α) → List (κ × α)
  | [] => [(k, a)]
  | e :: es => if e.1 = k then (k, a) :: es else e :: setEntries k a es

theorem mem_map_setEntries (k : κ) (a : α) (l : List (κ × α)) (x : κ) :
    x ∈ (setEntries k a l).map Prod.fst ↔ x = k ∨ x ∈ l.map Prod.fst := by
  induction l with
  | nil => simp [setEntries]
  | cons e es ih =>
    unfold setEntries
    split
    · rename_i h; simp [h]
    · simp only [List.map_cons, List.mem_cons, ih]; tauto

theorem nodup_setEntries (k : κ) (a : α) (l : List (κ × α)) (h : (l.map Prod.fst).Nodup) :
    ((setEntries k a l).map Prod.fst).Nodup := by
  induction l with
  | nil => simp [setEntries]
  | cons e es ih =>
    rw [List.map_cons, List.nodup_cons] at h
    unfold setEntries
    split
    · rename_i hk; subst hk; exact List.nodup_cons.2 h
    · rename_i hk
      rw [List.map_cons, List.nodup_cons, mem_map_setEntries]
      exact ⟨by rintro (h' | h'); exacts [hk h', h.1 h'], ih h.2⟩

/-- `d[k] = a`. -/
def set (d : OrdDict κ α) (k : κ) (a : α) : OrdDict κ α :=
  ⟨setEntries k a d.entries, nodup_setEntries k a d.entries d.nodup⟩

/-- Move `k` to the end, if it is there. -/
def touch (d : OrdDict κ α) (k : κ) : OrdDict κ α :=
  match d.get? k with
  | some a => (d.pop k).set k a
  | none => d

/-! ## Lookups -/

@[simp] theorem get?_empty (k : κ) : (empty : OrdDict κ α).get? k = none := rfl

/-- A lookup finds exactly the entries of the list. -/
theorem mem_entries_iff {d : OrdDict κ α} {k : κ} {a : α} :
    (k, a) ∈ d.entries ↔ d.get? k = some a := by
  obtain ⟨l, hl⟩ := d
  unfold get?
  induction l with
  | nil => simp
  | cons e es ih =>
    rw [List.map_cons, List.nodup_cons] at hl
    simp only [List.mem_cons, List.find?_cons]
    by_cases hk : e.1 = k
    · subst hk
      have : (e.1, a) ∉ es := fun h => hl.1 (List.mem_map.2 ⟨_, h, rfl⟩)
      obtain ⟨e1, e2⟩ := e
      simp_all [eq_comm]
    · have : (k, a) ≠ e := by rintro rfl; exact hk rfl
      simp [hk, this, ih hl.2]

theorem get?_eq_none_iff {d : OrdDict κ α} {k : κ} : d.get? k = none ↔ k ∉ d.keys := by
  rw [Option.eq_none_iff_forall_ne_some]
  constructor
  · intro h hk
    obtain ⟨⟨k', a⟩, hm, rfl⟩ := List.mem_map.1 hk
    exact h a (mem_entries_iff.1 hm)
  · intro h a ha
    exact h (List.mem_map.2 ⟨(k, a), mem_entries_iff.2 ha, rfl⟩)

theorem mem_keys_iff {d : OrdDict κ α} {k : κ} : k ∈ d.keys ↔ ∃ a, d.get? k = some a := by
  constructor
  · intro h
    obtain ⟨⟨k', a⟩, hm, rfl⟩ := List.mem_map.1 h
    exact ⟨a, mem_entries_iff.1 hm⟩
  · rintro ⟨a, ha⟩
    exact List.mem_map.2 ⟨(k, a), mem_entries_iff.2 ha, rfl⟩

@[simp] theorem contains_iff {d : OrdDict κ α} {k : κ} :
    d.contains k = true ↔ ∃ a, d.get? k = some a := by
  unfold contains; rw [Option.isSome_iff_exists]

theorem get?_restrict (d : OrdDict κ α) (p : κ → Bool) (k : κ) :
    (d.restrict p).get? k = if p k then d.get? k else none := by
  ext a
  rw [← mem_entries_iff]
  simp only [restrict, List.mem_filter, mem_entries_iff]
  by_cases h : p k <;> simp [h]

theorem get?_pop (d : OrdDict κ α) (k x : κ) :
    (d.pop k).get? x = if x = k then none else d.get? x := by
  rw [pop, get?_restrict]
  by_cases h : x = k <;> simp [h]

theorem get?_set (d : OrdDict κ α) (k : κ) (a : α) (x : κ) :
    (d.set k a).get? x = if x = k then some a else d.get? x := by
  obtain ⟨l, hl⟩ := d
  unfold set get?
  simp only
  induction l with
  | nil => by_cases h : k = x <;> simp [setEntries, h, eq_comm]
  | cons e es ih =>
    rw [List.map_cons, List.nodup_cons] at hl
    unfold setEntries
    have ih := ih hl.2
    by_cases hk : e.1 = k
    · rw [if_pos hk, List.find?_cons, List.find?_cons]
      by_cases hx : k = x
      · simp [hx]
      · simp [hk, hx, Ne.symm hx]
    · rw [if_neg hk, List.find?_cons, List.find?_cons]
      by_cases hx : e.1 = x
      · subst hx; simp [hk]
      · simp [hx, ih]

theorem get?_touch (d : OrdDict κ α) (k x : κ) : (d.touch k).get? x = d.get? x := by
  unfold touch
  split
  · rename_i a h
    rw [get?_set, get?_pop]
    split <;> simp_all
  · rfl

/-- Storing what is there already changes nothing. -/
theorem set_of_get? {d : OrdDict κ α} {k : κ} {a : α} (h : d.get? k = some a) : d.set k a = d := by
  obtain ⟨l, hl⟩ := d
  apply ext
  rw [← mem_entries_iff] at h
  simp only [set] at h ⊢
  induction l with
  | nil => cases h
  | cons e es ih =>
    rw [List.map_cons, List.nodup_cons] at hl
    unfold setEntries
    rcases List.mem_cons.1 h with rfl | h'
    · rw [if_pos rfl]
    · rw [if_neg, ih hl.2 h']
      rintro rfl
      exact hl.1 (List.mem_map.2 ⟨_, h', rfl⟩)

/-- A new key is the last one. -/
theorem keys_set (d : OrdDict κ α) (k : κ) (a : α) :
    (d.set k a).keys = if d.contains k then d.keys else d.keys ++ [k] := by
  obtain ⟨l, hl⟩ := d
  unfold set keys contains get?
  simp only
  induction l with
  | nil => simp [setEntries]
  | cons e es ih =>
    rw [List.map_cons, List.nodup_cons] at hl
    unfold setEntries
    by_cases hk : e.1 = k
    · simp [hk]
    · rw [if_neg hk, List.map_cons, ih hl.2]
      simp only [List.find?_cons, hk, decide_false, List.map_cons]
      split <;> rfl

theorem keys_pop (d : OrdDict κ α) (k : κ) : (d.pop k).keys = d.keys.filter (· ≠ k) := by
  unfold pop restrict keys
  simp only [List.filter_map]
  rfl

/-- A new key is one more. -/
theorem size_set (d : OrdDict κ α) (k : κ) (a : α) :
    (d.set k a).size = if d.get? k = none then d.size + 1 else d.size := by
  obtain ⟨l, hl⟩ := d
  unfold set size get?
  simp only
  induction l with
  | nil => simp [setEntries]
  | cons e es ih =>
    rw [List.map_cons, List.nodup_cons] at hl
    unfold setEntries
    by_cases hk : e.1 = k
    · simp [hk]
    · rw [if_neg hk, List.length_cons, ih hl.2, List.find?_cons]
      simp only [hk, decide_false, List.length_cons]
      split <;> rfl

theorem size_eq_zero_iff {d : OrdDict κ α} : d.size = 0 ↔ ∀ k, d.get? k = none := by
  unfold size
  rw [List.length_eq_zero_iff]
  constructor
  · intro h k
    unfold get?
    simp [h]
  · intro h
    rw [List.eq_nil_iff_forall_not_mem]
    intro e he
    have := mem_entries_iff.1 he
    simp [h] at this

/-- Where there is one entry, there is no other. -/
theorem get?_of_size_one {d : OrdDict κ α} {k x : κ} {a : α} (h : d.size = 1) (hk : d.get? k = some a)
    (hx : x ≠ k) : d.get? x = none := by
  have hpop : (d.pop k).size = 0 := by
    have hset : ((d.pop k).set k a).size = d.size := by
      obtain ⟨l, hl⟩ := d
      obtain ⟨e, rfl⟩ : ∃ e, l = [e] := List.length_eq_one_iff.1 h
      rw [← mem_entries_iff] at hk
      obtain rfl := List.mem_singleton.1 hk
      simp [pop, restrict, set, setEntries, size]
    rw [size_set, get?_pop, if_pos rfl, if_pos rfl] at hset
    omega
  have := size_eq_zero_iff.1 hpop x
  rwa [get?_pop, if_neg hx] at this

/-- Eviction loses entries, it never changes one. -/
theorem get?_keepLast {d : OrdDict κ α} {n : ℕ} {k : κ} {a : α}
    (h : (d.keepLast n).get? k = some a) : d.get? k = some a := by
  rw [← mem_entries_iff] at h ⊢
  exact List.mem_of_mem_drop h

theorem get?_popFirst {d : OrdDict κ α} {k : κ} {a : α}
    (h : d.popFirst.get? k = some a) : d.get? k = some a := by
  rw [← mem_entries_iff] at h ⊢
  exact List.mem_of_mem_tail h

theorem get?_pop_some {d : OrdDict κ α} {k x : κ} {a : α} (h : (d.pop k).get? x = some a) :
    x ≠ k ∧ d.get? x = some a := by
  rw [get?_pop] at h
  split at h <;> simp_all

end OrdDict

end OmniJsonDb
