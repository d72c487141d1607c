import Mathlib.Data.Finset.Card
import Mathlib.Data.Finset.Image
import OmniJsonDb.Lib.Raising
import OmniJsonDb.Model.GroupBy

/-!
# Grouping neither loses nor mixes rows

Groups are found by `==` where the group key can be hashed, and by its text where it cannot. So
rows fall into groups by their keys, except that a key without a hash may share its text with
something it is not equal to, or be equal to something with another text. Inside a group the values
that are no dictionaries go under the name `_val`, which a field may have too, and a requested field
is renamed once when its name is used already, without a look at whether the new name is used as well.

* `Grouped`, `FieldsExact`, `OwnEntries`: what grouping keeps apart.
* `KeysFaithful`, `SpecFaithful`: where the shared names do no harm.
* `groupedByRules_iff`: the one is the other.
-/

namespace OmniJsonDb

/-! ## Equality of values that can be hashed -/

namespace PyVal

/-- What `==` looks at of a value that is no container. -/
inductive AtomKey where
  | none
  | num (n : Num)
  | str (s : List Char)
  | bytes (b : Bytes)
  | date (d : ℕ)
  | datetime (n : Num)
  | jdb (mem : Bool) (path : Key)
  | obj (id : ℕ)

/-- NaN is not equal to anything. -/
def numKey : Num → Option AtomKey
  | .nan => Option.none
  | n => some (.num n)

def atomKey : PyVal → Option AtomKey
  | none => some .none
  | bool b => some (.num (.fin (if b then 2 ^ 1074 else 0)))
  | int i => some (.num (.fin (i * 2 ^ 1074)))
  | float bits => numKey (floatNum bits)
  | str s => some (.str s)
  | bytes b | bytearray b => some (.bytes b)
  | date d => some (.date d)
  | datetime ts => some (.datetime (floatNum ts))
  | jdb mem path => some (.jdb mem path)
  | obj id => some (.obj id)
  | list _ | tuple _ | set _ | dict _ => Option.none

theorem Num.eq_iff (m n : Num) : m.eq n = true ↔ ∃ k, numKey m = some k ∧ numKey n = some k := by
  cases m <;> cases n <;> simp [Num.eq, numKey, eq_comm]

theorem numKey_eq_num {n : Num} {k : AtomKey} (h : numKey n = some k) : k = .num n := by
  cases n <;> simp [numKey] at h <;> exact h.symm

theorem atomKey_of_numOf {a : PyVal} {n : Num} (h : numOf a = some n) : atomKey a = numKey n := by
  cases a <;> simp only [numOf, reduceCtorEq, Option.some.injEq] at h <;> subst h <;> rfl

theorem atomKey_ne_num {a : PyVal} (h : numOf a = Option.none) (n : Num) : atomKey a ≠ some (.num n) := by
  cases a <;> simp only [numOf, reduceCtorEq] at h <;> simp [atomKey]

/-- Two values are equal when they look the same. -/
theorem atomEq_iff (a b : PyVal) : atomEq a b = true ↔ ∃ k, atomKey a = some k ∧ atomKey b = some k := by
  cases ha : numOf a with
  | some m =>
    cases hb : numOf b with
    | some n =>
      unfold atomEq
      rw [ha, hb, atomKey_of_numOf ha, atomKey_of_numOf hb]
      exact Num.eq_iff m n
    | none =>
      have hno : atomEq a b = false := by
        unfold atomEq
        rw [ha, hb]
        cases a <;> simp only [numOf, reduceCtorEq] at ha <;> rfl
      rw [hno, atomKey_of_numOf ha]
      refine iff_of_false (by decide) ?_
      rintro ⟨k, hk, hk'⟩
      rw [numKey_eq_num hk] at hk'
      exact atomKey_ne_num hb m hk'
  | none =>
    cases hb : numOf b with
    | some n =>
      have hno : atomEq a b = false := by
        unfold atomEq
        rw [ha, hb]
        cases b <;> simp only [numOf, reduceCtorEq] at hb <;> cases a <;> rfl
      rw [hno, atomKey_of_numOf hb]
      refine iff_of_false (by decide) ?_
      rintro ⟨k, hk, hk'⟩
      rw [numKey_eq_num hk'] at hk
      exact atomKey_ne_num ha n hk
    | none =>
      unfold atomEq
      rw [ha, hb]
      cases a <;> simp only [numOf, reduceCtorEq] at ha <;> cases b <;> simp only [numOf, reduceCtorEq] at hb <;>
        simp only [atomKey, reduceCtorEq, false_and, and_false, exists_false, Bool.false_eq_true, Option.some.injEq,
          exists_eq_left', decide_eq_true_eq, Bool.and_eq_true, AtomKey.str.injEq, AtomKey.bytes.injEq,
          AtomKey.date.injEq, AtomKey.datetime.injEq, AtomKey.jdb.injEq, AtomKey.obj.injEq]
      all_goals first | exact eq_comm | exact and_congr eq_comm eq_comm

/-- What `==` looks at of a value that can be hashed. -/
inductive HashKey where
  | atom (k : AtomKey)
  | tuple (ks : List HashKey)

mutual

def hashKey : PyVal → Option HashKey
  | tuple xs => (hashKeys xs).map .tuple
  | v => (atomKey v).map .atom

def hashKeys : List PyVal → Option (List HashKey)
  | [] => some []
  | x :: xs =>
    match hashKey x, hashKeys xs with
    | some k, some ks => some (k :: ks)
    | _, _ => Option.none

end

theorem hashKey_atom {a : PyVal} (h : ∀ xs, a ≠ tuple xs) : hashKey a = (atomKey a).map .atom := by
  unfold hashKey
  split
  · exact absurd rfl (h _)
  · rfl

theorem pyEq_atom {a b : PyVal} (ha : a.hashable = true) (hb : b.hashable = true)
    (h : (∀ xs, a ≠ tuple xs) ∨ ∀ ys, b ≠ tuple ys) : pyEq a b = atomEq a b := by
  unfold pyEq
  split
  · cases ha
  · rcases h with h | h
    · exact absurd rfl (h _)
    · exact absurd rfl (h _)
  · cases ha
  · cases ha
  · rfl

theorem hashKey_tuple_iff {xs : List PyVal} {k : HashKey} :
    hashKey (tuple xs) = some k ↔ ∃ ks, hashKeys xs = some ks ∧ k = .tuple ks := by
  rw [hashKey, Option.map_eq_some_iff]
  exact exists_congr fun ks => and_congr_right fun _ => eq_comm

/-- A tuple and something else are never equal. -/
theorem not_both_keys {xs : List PyVal} {b : PyVal} (hb : ∀ ys, b ≠ tuple ys) {k : HashKey}
    (h : hashKey (tuple xs) = some k) : hashKey b ≠ some k := by
  obtain ⟨ks, -, rfl⟩ := hashKey_tuple_iff.1 h
  rw [hashKey_atom hb]
  simp

theorem atomKey_tuple (xs : List PyVal) : atomKey (tuple xs) = Option.none := rfl

theorem pyEq_iff_atom {a b : PyVal} (h : ∀ xs, a ≠ tuple xs) (ha : a.hashable = true) (hb : b.hashable = true) :
    pyEq a b = true ↔ ∃ k, hashKey a = some k ∧ hashKey b = some k := by
  rw [pyEq_atom ha hb (.inl h), atomEq_iff]
  by_cases hys : ∃ ys, b = tuple ys
  · obtain ⟨ys, rfl⟩ := hys
    rw [atomKey_tuple]
    refine iff_of_false (by simp) ?_
    rintro ⟨k, hx, hy⟩
    exact not_both_keys h hy hx
  · rw [hashKey_atom h, hashKey_atom fun ys hc => hys ⟨ys, hc⟩]
    constructor
    · rintro ⟨k, hx, hy⟩
      exact ⟨.atom k, by rw [hx]; rfl, by rw [hy]; rfl⟩
    · rintro ⟨k, hx, hy⟩
      obtain ⟨k₁, hk₁, rfl⟩ := Option.map_eq_some_iff.1 hx
      obtain ⟨k₂, hk₂, heq⟩ := Option.map_eq_some_iff.1 hy
      injection heq with heq
      exact ⟨k₁, hk₁, heq ▸ hk₂⟩

theorem hashKeys_cons {x : PyVal} {xs : List PyVal} {ks : List HashKey} :
    hashKeys (x :: xs) = some ks ↔ ∃ k ks', hashKey x = some k ∧ hashKeys xs = some ks' ∧ ks = k :: ks' := by
  rw [hashKeys]
  constructor
  · intro h
    split at h
    · rename_i k ks' hk hks
      exact ⟨k, ks', hk, hks, (Option.some.inj h).symm⟩
    · cases h
  · rintro ⟨k, ks', hk, hks, rfl⟩
    rw [hk, hks]

mutual

/-- **Equality of values that can be hashed** is looking the same. -/
theorem pyEq_iff (a b : PyVal) (ha : a.hashable = true) (hb : b.hashable = true) :
    pyEq a b = true ↔ ∃ k, hashKey a = some k ∧ hashKey b = some k := by
  match a with
  | tuple xs =>
    by_cases hys : ∃ ys, b = tuple ys
    · obtain ⟨ys, rfl⟩ := hys
      have h := pyEqAll_iff xs ys ha hb
      rw [pyEq, h]
      constructor
      · rintro ⟨ks, hx, hy⟩
        exact ⟨.tuple ks, hashKey_tuple_iff.2 ⟨ks, hx, rfl⟩, hashKey_tuple_iff.2 ⟨ks, hy, rfl⟩⟩
      · rintro ⟨k, hx, hy⟩
        obtain ⟨ks, hks, rfl⟩ := hashKey_tuple_iff.1 hx
        obtain ⟨ks', hks', heq⟩ := hashKey_tuple_iff.1 hy
        injection heq with heq
        exact ⟨ks, hks, heq ▸ hks'⟩
    · have hys' : ∀ ys, b ≠ tuple ys := fun ys hc => hys ⟨ys, hc⟩
      rw [pyEq_atom ha hb (.inr hys'), atomEq_iff, atomKey_tuple]
      refine iff_of_false (by simp) ?_
      rintro ⟨k, hx, hy⟩
      exact not_both_keys hys' hx hy
  | none | bool _ | int _ | float _ | str _ | bytes _ | bytearray _ | list _ | set _ | dict _ | date _ | datetime _
  | jdb _ _ | obj _ => exact pyEq_iff_atom (fun xs hc => by cases hc) ha hb

theorem pyEqAll_iff (xs ys : List PyVal) (hx : hashableAll xs = true) (hy : hashableAll ys = true) :
    pyEqAll xs ys = true ↔ ∃ ks, hashKeys xs = some ks ∧ hashKeys ys = some ks := by
  match xs, ys with
  | [], [] => exact iff_of_true (by rw [pyEqAll]) ⟨[], rfl, rfl⟩
  | [], y :: ys =>
    refine iff_of_false (by simp [pyEqAll]) ?_
    rintro ⟨ks, hks, hks'⟩
    obtain ⟨k, ks', -, -, rfl⟩ := hashKeys_cons.1 hks'
    cases hks
  | x :: xs, [] =>
    refine iff_of_false (by simp [pyEqAll]) ?_
    rintro ⟨ks, hks, hks'⟩
    obtain ⟨k, ks', -, -, rfl⟩ := hashKeys_cons.1 hks
    cases hks'
  | x :: xs, y :: ys =>
    obtain ⟨hx₁, hx₂⟩ := Bool.and_eq_true_iff.1 hx
    obtain ⟨hy₁, hy₂⟩ := Bool.and_eq_true_iff.1 hy
    rw [pyEqAll, Bool.and_eq_true, pyEq_iff x y hx₁ hy₁, pyEqAll_iff xs ys hx₂ hy₂]
    constructor
    · rintro ⟨⟨k, hk, hk'⟩, ks, hks, hks'⟩
      exact ⟨k :: ks, hashKeys_cons.2 ⟨k, ks, hk, hks, rfl⟩, hashKeys_cons.2 ⟨k, ks, hk', hks', rfl⟩⟩
    · rintro ⟨ks, h, h'⟩
      obtain ⟨k, ks₁, hk, hks, rfl⟩ := hashKeys_cons.1 h
      obtain ⟨k', ks₂, hk', hks', heq⟩ := hashKeys_cons.1 h'
      injection heq with h₁ h₂
      exact ⟨⟨k, hk, h₁ ▸ hk'⟩, ks₁, hks, h₂ ▸ hks'⟩

end

/-- Equality is symmetric and transitive on what can be hashed. -/
theorem per_pyEq : Buckets.Per pyEq fun v => v.hashable = true where
  symm := by
    intro a b ha hb h
    obtain ⟨k, hk, hk'⟩ := (pyEq_iff a b ha hb).1 h
    exact (pyEq_iff b a hb ha).2 ⟨k, hk', hk⟩
  trans := by
    intro a b c ha hb hc h h'
    obtain ⟨k, hk, hk'⟩ := (pyEq_iff a b ha hb).1 h
    obtain ⟨k', hk₁, hk₂⟩ := (pyEq_iff b c hb hc).1 h'
    obtain rfl := Option.some.inj (hk'.symm.trans hk₁)
    exact (pyEq_iff a c ha hc).2 ⟨k, hk, hk₂⟩

theorem pyEq_str (s : List Char) (v : PyVal) : pyEq (str s) v = true ↔ v = str s := by
  cases v <;> simp [pyEq, atomEq, numOf, eq_comm]

end PyVal

namespace GroupEnv

open PyVal (pyEq)
open Raising

variable (e : GroupEnv)

/-! ## Groups -/

theorem hashable_groupIdent (g : PyVal) : (e.groupIdent g).hashable = true := by
  unfold groupIdent
  split
  · assumption
  · rfl

/-- The rows are parted by their group keys: nothing is lost, groups come in the order of their first
rows, rows in their own, and two rows share a group just when their keys are equal. -/
structure Grouped (keyed : List (PyVal × DataRow)) (groups : List (PyVal × List DataRow)) : Prop where
  perm : (groups.flatMap Prod.snd).Perm (keyed.map Prod.snd)
  order : ∀ g ∈ groups, g.2.Sublist (keyed.map Prod.snd)
  first : (groups.filterMap fun g => g.2.head?).Sublist (keyed.map Prod.snd)
  same : ∀ x ∈ keyed, ∀ y ∈ keyed, x ≠ y → ((∃ g ∈ groups, x.2 ∈ g.2 ∧ y.2 ∈ g.2) ↔ pyEq x.1 y.1 = true)

/-- Two keys that cannot be hashed have the same text when they are equal and only then, and a key that can
is the text of one that cannot when they are equal and only then. -/
structure KeysFaithful (keyed : List (PyVal × DataRow)) : Prop where
  texts : ∀ x ∈ keyed, ∀ y ∈ keyed, x ≠ y → x.1.hashable = false → y.1.hashable = false →
    (e.str x.1 = e.str y.1 ↔ pyEq x.1 y.1 = true)
  text : ∀ x ∈ keyed, ∀ y ∈ keyed, x.1.hashable = false → y.1.hashable = true →
    (y.1 = .str (e.str x.1) ↔ pyEq x.1 y.1 = true) ∧ (y.1 = .str (e.str x.1) ↔ pyEq y.1 x.1 = true)

/-- A key with a hash is found by another key's text when it is that text. -/
theorem pyEq_text {g : PyVal} (hash : g.hashable = true) (s : List Char) :
    (pyEq (.str s) g = true ↔ g = .str s) ∧ (pyEq g (.str s) = true ↔ g = .str s) := by
  have hsym : pyEq g (.str s) = true ↔ pyEq (.str s) g = true :=
    ⟨PyVal.per_pyEq.symm hash rfl, PyVal.per_pyEq.symm rfl hash⟩
  have hleft : pyEq (.str s) g = true ↔ g = .str s := PyVal.pyEq_str s g
  exact ⟨hleft, hsym.trans hleft⟩

theorem keysFaithful_iff {keyed : List (PyVal × DataRow)} : e.KeysFaithful keyed ↔
    ∀ x ∈ keyed, ∀ y ∈ keyed, x ≠ y → ¬ (x.1.hashable = true ∧ y.1.hashable = true) →
      (pyEq (e.groupIdent x.1) (e.groupIdent y.1) = true ↔ pyEq x.1 y.1 = true) := by
  have hident : ∀ {g : PyVal}, g.hashable = true → e.groupIdent g = g := fun h => if_pos h
  have htext : ∀ {g : PyVal}, g.hashable = false → e.groupIdent g = .str (e.str g) :=
    fun h => if_neg (Bool.eq_false_iff.1 h)
  have hstr : ∀ a b : PyVal, pyEq (.str (e.str a)) (.str (e.str b)) = true ↔ e.str a = e.str b := by
    intro a b
    rw [PyVal.pyEq_str, PyVal.str.injEq]
    exact eq_comm
  constructor
  · intro h x hx y hy hne hno
    cases hhx : x.1.hashable with
    | true =>
      have hhy : y.1.hashable = false := Bool.eq_false_iff.2 fun hc => hno ⟨hhx, hc⟩
      rw [hident hhx, htext hhy, (pyEq_text hhx _).2]
      exact (h.text y hy x hx hhy hhx).2
    | false =>
      cases hhy : y.1.hashable with
      | true =>
        rw [hident hhy, htext hhx, (pyEq_text hhy _).1]
        exact (h.text x hx y hy hhx hhy).1
      | false =>
        rw [htext hhx, htext hhy, hstr]
        exact h.texts x hx y hy hne hhx hhy
  · intro h
    constructor
    · intro x hx y hy hne hhx hhy
      have hxy := h x hx y hy hne fun hc => Bool.false_ne_true (hhx.symm.trans hc.1)
      rwa [htext hhx, htext hhy, hstr] at hxy
    · intro x hx y hy hhx hhy
      have hne : x ≠ y := fun hc => Bool.false_ne_true (hhx.symm.trans (hc ▸ hhy))
      have hxy := h x hx y hy hne fun hc => Bool.false_ne_true (hhx.symm.trans hc.1)
      have hyx := h y hy x hx hne.symm fun hc => Bool.false_ne_true (hhx.symm.trans hc.2)
      rw [hident hhy, htext hhx, (pyEq_text hhy _).1] at hxy
      rw [hident hhy, htext hhx, (pyEq_text hhy _).2] at hyx
      exact ⟨hxy, hyx⟩

variable {keyed : List (PyVal × DataRow)}

/-- The rows with what they are found by. -/
def tagged (keyed : List (PyVal × DataRow)) : List (PyVal × PyVal × DataRow) :=
  keyed.map fun x => (e.groupIdent x.1, x)

theorem groupRows_eq : e.groupRows keyed =
    (Buckets.collect pyEq ((e.tagged keyed).map fun t => (t.1, t))).map fun b => (b.1, b.2.map fun t => t.2.2) := by
  rw [← Buckets.collect_map]
  simp only [groupRows, tagged, List.map_map]
  rfl

theorem parted_tagged : Buckets.Parted pyEq (e.tagged keyed)
    (Buckets.collect pyEq ((e.tagged keyed).map fun t => (t.1, t))) := by
  refine Buckets.collect_parted PyVal.per_pyEq _ ?_
  intro t ht
  obtain ⟨x, -, rfl⟩ := List.mem_map.1 ht
  exact e.hashable_groupIdent x.1

/-- **Sharing a group** is being found by the same. -/
theorem share_iff (hrows : ∀ x ∈ keyed, ∀ y ∈ keyed, x.2 = y.2 → x = y) {x y : PyVal × DataRow} (hx : x ∈ keyed)
    (hy : y ∈ keyed) (hne : x ≠ y) : (∃ g ∈ e.groupRows keyed, x.2 ∈ g.2 ∧ y.2 ∈ g.2) ↔
      pyEq (e.groupIdent x.1) (e.groupIdent y.1) = true := by
  have hp := @parted_tagged e keyed
  have hhash : ∀ t ∈ e.tagged keyed, t.1.hashable = true := by
    intro t ht
    obtain ⟨z, -, rfl⟩ := List.mem_map.1 ht
    exact e.hashable_groupIdent z.1
  have htag : ∀ z ∈ keyed, (e.groupIdent z.1, z) ∈ e.tagged keyed := fun z hz => List.mem_map.2 ⟨z, hz, rfl⟩
  -- a row names its tagged row, for the key is the row's
  have hmem : ∀ b ∈ Buckets.collect pyEq ((e.tagged keyed).map fun t => (t.1, t)), ∀ z ∈ keyed,
      z.2 ∈ b.2.map (fun t => t.2.2) ↔ (e.groupIdent z.1, z) ∈ b.2 := by
    intro b hb z hz
    constructor
    · intro h
      obtain ⟨t, ht, heq⟩ := List.mem_map.1 h
      obtain ⟨w, hw, rfl⟩ := List.mem_map.1 (hp.mem_items hb ht)
      obtain rfl := hrows w hw z hz heq
      exact ht
    · exact fun h => List.mem_map.2 ⟨_, h, rfl⟩
  rw [← hp.same_iff PyVal.per_pyEq hhash (htag x hx) (htag y hy) fun hc => hne (congrArg Prod.snd hc), e.groupRows_eq]
  constructor
  · rintro ⟨g, hg, hxg, hyg⟩
    obtain ⟨b, hb, rfl⟩ := List.mem_map.1 hg
    exact ⟨b, hb, (hmem b hb x hx).1 hxg, (hmem b hb y hy).1 hyg⟩
  · rintro ⟨b, hb, hxb, hyb⟩
    exact ⟨_, List.mem_map.2 ⟨b, hb, rfl⟩, (hmem b hb x hx).2 hxb, (hmem b hb y hy).2 hyb⟩

/-- **Rows are parted by their keys** just when the texts of the keys tell them apart. -/
theorem grouped_iff (hrows : ∀ x ∈ keyed, ∀ y ∈ keyed, x.2 = y.2 → x = y) :
    Grouped keyed (e.groupRows keyed) ↔ e.KeysFaithful keyed := by
  have hp := @parted_tagged e keyed
  have hsnd : (e.tagged keyed).map (fun t => t.2.2) = keyed.map Prod.snd := by
    simp only [tagged, List.map_map]
    rfl
  rw [e.keysFaithful_iff]
  constructor
  · intro h x hx y hy hne _
    rw [← e.share_iff hrows hx hy hne]
    exact h.same x hx y hy hne
  · intro h
    refine ⟨?_, ?_, ?_, ?_⟩
    · have hflat : (e.groupRows keyed).flatMap Prod.snd =
          ((Buckets.collect pyEq ((e.tagged keyed).map fun t => (t.1, t))).flatMap Prod.snd).map fun t => t.2.2 := by
        rw [e.groupRows_eq, List.flatMap_map, List.map_flatMap]
      rw [hflat, ← hsnd]
      exact hp.perm.map _
    · intro g hg
      rw [e.groupRows_eq] at hg
      obtain ⟨b, hb, rfl⟩ := List.mem_map.1 hg
      rw [← hsnd]
      exact (hp.sub b hb).map _
    · have hheads : (e.groupRows keyed).filterMap (fun g => g.2.head?) =
          ((Buckets.collect pyEq ((e.tagged keyed).map fun t => (t.1, t))).filterMap fun b => b.2.head?).map
            fun t => t.2.2 := by
        rw [e.groupRows_eq, List.filterMap_map, List.map_filterMap]
        refine List.filterMap_congr fun b _ => ?_
        simp only [Function.comp_apply, List.head?_map]
      rw [hheads, ← hsnd]
      exact hp.heads.map _
    · intro x hx y hy hne
      rw [e.share_iff hrows hx hy hne]
      by_cases hh : x.1.hashable = true ∧ y.1.hashable = true
      · unfold groupIdent
        rw [if_pos hh.1, if_pos hh.2]
      · exact h x hx y hy hne hh

/-! ## What raises -/

/-- A transform raises `err`. -/
def Raises (err : PyErr) : Prop := ∃ op v, e.transform op v = .error err

variable {e} {err : PyErr}

theorem descend_error {parts : Path} {v : PyVal} (h : e.descend parts v = .error err) : e.Raises err := by
  induction parts generalizing v with
  | nil => cases h
  | cons part rest ih =>
    unfold descend at h
    split at h
    · split at h
      · rename_i heq
        exact ⟨part, v, heq.trans h⟩
      · cases h
      · exact ih h
    · split at h
      · split at h
        · cases h
        · exact ih h
      · split at h
        · cases h
        · split at h
          · cases h
          · exact ih h
      · split at h
        · cases h
        · split at h
          · cases h
          · exact ih h
      · cases h

/-- A path raises only what a transform on it does. -/
theorem resolveGroupPath_error {parts : Path} {row : DataRow} (h : e.resolveGroupPath parts row = .error err) :
    e.Raises err := by
  unfold resolveGroupPath at h
  split at h
  · cases h
  · split at h
    · exact descend_error h
    · split at h
      · exact descend_error h
      · split at h
        · exact descend_error h
        · split at h
          · split at h
            · rename_i heq
              exact ⟨_, _, heq.trans h⟩
            · cases h
            · exact descend_error h
          · split at h
            · split at h
              · cases h
              · exact descend_error h
            · cases h

theorem groupKey_error {keys : List Path} {row : DataRow} (h : e.groupKey keys row = .error err) : e.Raises err := by
  unfold groupKey at h
  cases hm : keys.mapM fun parts => (e.resolveGroupPath parts row).map fun v => v.getD .none with
  | error err' =>
    rw [hm] at h
    obtain rfl : err' = err := Except.error.inj h
    obtain ⟨parts, -, hparts⟩ := mapM_error hm
    exact resolveGroupPath_error (map_error hparts)
  | ok gs => rw [hm] at h; cases h

theorem keyRows_error {keys : List Path} {rows : List DataRow} (h : e.keyRows keys rows = .error err) :
    e.Raises err := by
  obtain ⟨row, -, hrow⟩ := mapM_error h
  exact groupKey_error (map_error hrow)

theorem aggregate_error {op : Option (List Char)} {items : List PyVal} (h : e.aggregate op items = .error err) :
    e.Raises err := by
  unfold aggregate at h
  split at h
  · cases h
  · exact ⟨_, _, map_error h⟩

theorem fieldValue_error {f : FieldSpec} {rows : List DataRow} (h : e.fieldValue f rows = .error err) :
    e.Raises err := by
  unfold fieldValue at h
  cases hm : rows.mapM (e.resolveGroupPath f.path) with
  | error err' =>
    rw [hm] at h
    obtain rfl : err' = err := Except.error.inj h
    obtain ⟨row, -, hrow⟩ := mapM_error hm
    exact resolveGroupPath_error hrow
  | ok items =>
    rw [hm] at h
    exact aggregate_error h

theorem explicitFields_error {rows : List DataRow} {fs : List FieldSpec} {gout : OrdDict (List Char) PyVal}
    (h : e.explicitFields rows fs gout = .error err) : e.Raises err := by
  induction fs generalizing gout with
  | nil => cases h
  | cons f fs ih =>
    rw [explicitFields] at h
    split at h
    · rename_i heq
      obtain rfl := Except.error.inj h
      exact fieldValue_error heq
    · exact ih h

theorem groupRow_error {p : ParsedGroup} {gval : PyVal} {rows : List DataRow} (h : e.groupRow p gval rows = .error err) :
    e.Raises err := by
  unfold groupRow at h
  cases hf : p.fields with
  | none =>
    rw [hf] at h
    simp only at h
    cases hv : e.autoValue (excludedRoots p.keys) p.op rows with
    | error err' =>
      rw [hv] at h
      obtain rfl : err' = err := Except.error.inj h
      obtain ⟨f, -, hagg⟩ := mapM_error (map_error hv)
      exact aggregate_error (map_error hagg)
    | ok v => rw [hv] at h; cases h
  | some fs =>
    rw [hf] at h
    simp only at h
    cases hv : e.explicitValue fs rows with
    | error err' =>
      rw [hv] at h
      obtain rfl : err' = err := Except.error.inj h
      exact explicitFields_error (map_error hv)
    | ok v => rw [hv] at h; cases h

/-- **Grouping raises** only what a transform does. -/
theorem groupedByRules_error {p : ParsedGroup} {rows : List DataRow} (h : e.groupedByRules rows p = .error err) :
    e.Raises err := by
  unfold groupedByRules at h
  split at h
  · cases h
  · cases hk : e.keyRows p.keys rows with
    | error err' =>
      rw [hk] at h
      obtain rfl : err' = err := Except.error.inj h
      exact keyRows_error hk
    | ok keyed =>
      rw [hk] at h
      obtain ⟨g, -, hg⟩ := mapM_error h
      exact groupRow_error hg

variable (e)

/-! ## Keys of rows -/

theorem groupedByRules_keyRows {keys : List Path} {rows : List DataRow} (h : e.keyRows keys rows = .ok keyed) :
    keyed.map Prod.snd = rows ∧ ∀ x ∈ keyed, e.groupKey keys x.2 = .ok x.1 := by
  have hall : List.Forall₂ (fun row x => x.2 = row ∧ e.groupKey keys x.2 = .ok x.1) rows keyed := by
    refine (mapM_ok h).imp ?_
    intro row x hx
    cases hg : e.groupKey keys row with
    | error err' => rw [hg] at hx; cases hx
    | ok g =>
      rw [hg] at hx
      obtain rfl : (g, row) = x := Except.ok.inj hx
      exact ⟨rfl, hg⟩
  clear h
  induction hall with
  | nil => exact ⟨rfl, fun x hx => absurd hx List.not_mem_nil⟩
  | cons hx _ ih =>
    refine ⟨by rw [List.map_cons, hx.1, ih.1], ?_⟩
    intro y hy
    rcases List.mem_cons.1 hy with rfl | hy
    · exact hx.2
    · exact ih.2 y hy

/-- A row has one key. -/
theorem key_unique {keys : List Path} {rows : List DataRow} (h : e.keyRows keys rows = .ok keyed) :
    ∀ x ∈ keyed, ∀ y ∈ keyed, x.2 = y.2 → x = y := by
  intro x hx y hy hxy
  have hkeys := (e.groupedByRules_keyRows h).2
  have := (hkeys x hx).symm.trans (hxy ▸ hkeys y hy)
  exact Prod.ext (Except.ok.inj this) hxy

end GroupEnv

/-! ## Fields that are collected -/

open PyVal (pyEq)
open Raising

namespace DataRow

/-- The values of a field. -/
def valuesOf (fk : PyVal) (row : DataRow) : List PyVal :=
  match row.val with
  | .dict kvs => (kvs.filter fun kv => pyEq kv.1 fk).map Prod.snd
  | _ => []

/-- The value, where it is no dictionary. -/
def bare (row : DataRow) : List PyVal :=
  match row.val with
  | .dict _ => []
  | v => [v]

end DataRow

/-- The lists are the values of the fields over the rows, and the values that have no fields. -/
structure FieldsExact (excluded : List (List Char)) (rows : List DataRow) : Prop where
  field : ∀ fk, fk.hashable = true → GroupEnv.isExcluded excluded fk = false → rows.flatMap (DataRow.valuesOf fk) ≠ [] →
    Buckets.lookup pyEq fk (GroupEnv.autoFields excluded rows) = some (rows.flatMap (DataRow.valuesOf fk))
  rest : rows.flatMap DataRow.bare ≠ [] →
    Buckets.lookup pyEq (.str VAL_FIELD) (GroupEnv.autoFields excluded rows) = some (rows.flatMap DataRow.bare)

/-- The value of a group shows `w` under a name: it is itself what is made of `_val` where that is the only
name, else a dictionary. -/
def Shows (names : List PyVal) (v fk w : PyVal) : Prop :=
  (names = [.str VAL_FIELD] ∧ fk = .str VAL_FIELD ∧ v = w) ∨
    names ≠ [.str VAL_FIELD] ∧ ∃ entries, v = .dict entries ∧
      (entries.find? fun entry => pyEq entry.1 fk).map Prod.snd = some w

/-- The value of a group shows what is made of the collected lists, and those are exact. -/
structure AutoExact (e : GroupEnv) (op : Option (List Char)) (excluded : List (List Char)) (rows : List DataRow)
    (v : PyVal) : Prop where
  lists : FieldsExact excluded rows
  shows : ∀ fk vs, Buckets.lookup pyEq fk (GroupEnv.autoFields excluded rows) = some vs →
    ∃ w, e.aggregate op vs = .ok w ∧ Shows ((GroupEnv.autoFields excluded rows).map Prod.fst) v fk w
  nothing : GroupEnv.autoFields excluded rows = [] → v = .none

/-- Not both a field named `_val` that is collected and a value without fields. -/
def FieldsApart (excluded : List (List Char)) (rows : List DataRow) : Prop :=
  VAL_FIELD ∈ excluded ∨ (∀ row ∈ rows, row.valuesOf (.str VAL_FIELD) = []) ∨ ∀ row ∈ rows, row.bare = []

/-- The keys of dictionaries can be hashed. -/
def FieldsHashable (rows : List DataRow) : Prop :=
  ∀ row ∈ rows, ∀ kvs, row.val = .dict kvs → ∀ kv ∈ kvs, kv.1.hashable = true

namespace GroupEnv

theorem hashable_rowFields {excluded : List (List Char)} {rows : List DataRow} (hkeys : FieldsHashable rows) :
    ∀ x ∈ rows.flatMap (rowFields excluded), x.1.hashable = true := by
  intro x hx
  obtain ⟨row, hrow, hx⟩ := List.mem_flatMap.1 hx
  unfold rowFields at hx
  split at hx
  · rename_i kvs hkvs
    exact hkeys row hrow kvs hkvs x (List.mem_filter.1 hx).1
  · rw [List.mem_singleton.1 hx]
    rfl

/-- A field with the name of one that is collected is collected. -/
theorem isExcluded_congr {excluded : List (List Char)} {a b : PyVal} (ha : a.hashable = true) (hb : b.hashable = true)
    (h : pyEq a b = true) : isExcluded excluded a = isExcluded excluded b := by
  cases a with
  | str s => rw [(PyVal.pyEq_str s b).1 h]
  | _ =>
    cases b with
    | str t =>
      have := (PyVal.pyEq_str t _).1 (PyVal.per_pyEq.symm ha hb h)
      cases this
    | _ => rfl

theorem valuesOf_dict {row : DataRow} {kvs : List (PyVal × PyVal)} (h : row.val = .dict kvs) (fk : PyVal) :
    row.valuesOf fk = (kvs.filter fun kv => pyEq kv.1 fk).map Prod.snd := by
  unfold DataRow.valuesOf
  rw [h]

theorem bare_dict {row : DataRow} {kvs : List (PyVal × PyVal)} (h : row.val = .dict kvs) : row.bare = [] := by
  unfold DataRow.bare
  rw [h]

theorem valuesOf_bare {row : DataRow} (h : ∀ kvs, row.val ≠ .dict kvs) (fk : PyVal) : row.valuesOf fk = [] := by
  unfold DataRow.valuesOf
  split
  · exact absurd ‹_› (h _)
  · rfl

theorem bare_eq {row : DataRow} (h : ∀ kvs, row.val ≠ .dict kvs) : row.bare = [row.val] := by
  unfold DataRow.bare
  split
  · exact absurd ‹_› (h _)
  · rfl

/-- What a field collects of a row. -/
theorem filter_rowFields {excluded : List (List Char)} {row : DataRow} {fk : PyVal} (hfk : fk.hashable = true)
    (hrow : ∀ kvs, row.val = .dict kvs → ∀ kv ∈ kvs, kv.1.hashable = true) :
    ((rowFields excluded row).filter fun x => pyEq x.1 fk).map Prod.snd =
      (if isExcluded excluded fk then [] else row.valuesOf fk) ++ if pyEq (.str VAL_FIELD) fk then row.bare else [] := by
  unfold rowFields
  split
  · rename_i kvs hkvs
    have hsame : ∀ kv ∈ kvs, pyEq kv.1 fk = true → isExcluded excluded kv.1 = isExcluded excluded fk :=
      fun kv hkv h => isExcluded_congr (hrow kvs hkvs kv hkv) hfk h
    rw [bare_dict hkvs, valuesOf_dict hkvs, List.filter_filter, ite_self, List.append_nil]
    split
    · rename_i hex
      rw [List.filter_eq_nil_iff.2, List.map_nil]
      intro kv hkv hc
      obtain ⟨heq, hno⟩ := Bool.and_eq_true_iff.1 hc
      rw [hsame kv hkv heq, hex] at hno
      cases hno
    · rename_i hex
      congr 1
      refine List.filter_congr fun kv hkv => ?_
      by_cases heq : pyEq kv.1 fk = true
      · simp [heq, hsame kv hkv heq, hex]
      · simp [heq]
  · rename_i v hv
    rw [bare_eq hv, valuesOf_bare hv, ite_self, List.nil_append]
    by_cases hval : pyEq (.str VAL_FIELD) fk = true
    · simp [hval]
    · simp [hval]

/-- What a field collects of a group. -/
theorem filter_fields {excluded : List (List Char)} {rows : List DataRow} {fk : PyVal} (hfk : fk.hashable = true)
    (hkeys : FieldsHashable rows) :
    ((rows.flatMap (rowFields excluded)).filter fun x => pyEq x.1 fk).map Prod.snd =
      rows.flatMap fun row => (if isExcluded excluded fk then [] else row.valuesOf fk) ++
        if pyEq (.str VAL_FIELD) fk then row.bare else [] := by
  rw [List.filter_flatMap, List.map_flatMap]
  exact List.flatMap_congr fun row hrow => filter_rowFields hfk (hkeys row hrow)

theorem lookup_autoFields {excluded : List (List Char)} {rows : List DataRow} {fk : PyVal} (hfk : fk.hashable = true)
    (hkeys : FieldsHashable rows) {vs : List PyVal} (hvs : vs ≠ []) :
    Buckets.lookup pyEq fk (autoFields excluded rows) = some vs ↔
      (rows.flatMap fun row => (if isExcluded excluded fk then [] else row.valuesOf fk) ++
        if pyEq (.str VAL_FIELD) fk then row.bare else []) = vs := by
  rw [autoFields, Buckets.lookup_collect PyVal.per_pyEq hfk _ (hashable_rowFields hkeys), filter_fields hfk hkeys]
  cases rows.flatMap fun row => (if isExcluded excluded fk then [] else row.valuesOf fk) ++
    if pyEq (.str VAL_FIELD) fk then row.bare else [] with
  | nil => exact iff_of_false (by simp) fun hc => hvs hc.symm
  | cons a as => exact ⟨fun h => Option.some.inj h, fun h => congrArg some h⟩

theorem isExcluded_val (excluded : List (List Char)) :
    isExcluded excluded (.str VAL_FIELD) = true ↔ VAL_FIELD ∈ excluded := by
  unfold isExcluded
  exact decide_eq_true_iff

/-- **The collected lists are exact** just when nothing else comes under `_val`. -/
theorem fieldsExact_iff {excluded : List (List Char)} {rows : List DataRow} (hkeys : FieldsHashable rows) :
    FieldsExact excluded rows ↔ FieldsApart excluded rows := by
  have hval : pyEq (.str VAL_FIELD) (.str VAL_FIELD) = true := (PyVal.pyEq_str _ _).2 rfl
  constructor
  · intro h
    by_cases hex : VAL_FIELD ∈ excluded
    · exact .inl hex
    · have hno : isExcluded excluded (.str VAL_FIELD) = false := by
        rw [← Bool.not_eq_true, isExcluded_val]
        exact hex
      by_cases hbare : rows.flatMap DataRow.bare = []
      · exact .inr (.inr (List.flatMap_eq_nil_iff.1 hbare))
      · -- the list of `_val` is both the bare values and all of them
        refine .inr (.inl (List.flatMap_eq_nil_iff.1 ?_))
        have hboth := (lookup_autoFields rfl hkeys hbare).1 (h.rest hbare)
        by_contra hvs
        have hvals := (lookup_autoFields rfl hkeys hvs).1 (h.field _ rfl hno hvs)
        rw [hno] at hboth hvals
        simp only [Bool.false_eq_true, if_false, hval, if_true] at hboth hvals
        have hlen : (rows.flatMap fun row => row.valuesOf (.str VAL_FIELD) ++ row.bare).length =
            (rows.flatMap (DataRow.valuesOf (.str VAL_FIELD))).length + (rows.flatMap DataRow.bare).length := by
          clear hboth hvals hvs hbare hkeys h
          induction rows with
          | nil => rfl
          | cons row rows ih =>
            simp only [List.flatMap_cons, List.length_append, ih]
            omega
        have hpos := List.length_pos_iff.2 hbare
        rw [hvals] at hlen
        omega
  · intro h
    refine ⟨?_, ?_⟩
    · intro fk hfk hno hvs
      rw [lookup_autoFields hfk hkeys hvs]
      refine List.flatMap_congr fun row hrow => ?_
      rw [hno]
      by_cases hv : pyEq (.str VAL_FIELD) fk = true
      · obtain rfl := (PyVal.pyEq_str _ _).1 hv
        rcases h with h | h | h
        · rw [(isExcluded_val excluded).2 h] at hno
          cases hno
        · exact absurd (List.flatMap_eq_nil_iff.2 h) hvs
        · simp [h row hrow]
      · simp [hv]
    · intro hbare
      rw [lookup_autoFields rfl hkeys hbare]
      refine List.flatMap_congr fun row hrow => ?_
      rw [if_pos hval]
      rcases h with h | h | h
      · simp [(isExcluded_val excluded).2 h]
      · simp [h row hrow]
      · exact absurd (List.flatMap_eq_nil_iff.2 h) hbare

/-- The entries of a group, one for each collected list. -/
theorem lookup_entries {e : GroupEnv} {op : Option (List Char)} {fields : List (PyVal × List PyVal)}
    {entries : List (PyVal × PyVal)}
    (h : List.Forall₂ (fun f en => (e.aggregate op f.2).map (fun v => (f.1, v)) = .ok en) fields entries) :
    entries.map Prod.fst = fields.map Prod.fst ∧ ∀ fk vs, Buckets.lookup pyEq fk fields = some vs →
      ∃ w, e.aggregate op vs = .ok w ∧
        (entries.find? fun entry => pyEq entry.1 fk).map Prod.snd = some w := by
  induction h with
  | nil => exact ⟨rfl, fun fk vs hl => by cases hl⟩
  | @cons f en fields entries hf _ ih =>
    obtain ⟨w, hw, rfl⟩ : ∃ w, e.aggregate op f.2 = .ok w ∧ en = (f.1, w) := by
      cases hagg : e.aggregate op f.2 with
      | error err =>
        rw [hagg] at hf
        cases hf
      | ok w =>
        rw [hagg] at hf
        exact ⟨w, rfl, (Except.ok.inj hf).symm⟩
    refine ⟨congrArg (f.1 :: ·) ih.1, fun fk vs hl => ?_⟩
    unfold Buckets.lookup at hl
    rw [List.find?_cons]
    by_cases hsame : pyEq f.1 fk = true
    · rw [if_pos hsame] at hl
      obtain rfl := Option.some.inj hl
      exact ⟨w, hw, by simp [hsame]⟩
    · rw [if_neg hsame] at hl
      obtain ⟨w', hw', hfind⟩ := ih.2 fk vs hl
      exact ⟨w', hw', by simpa [hsame] using hfind⟩

/-- Entries make a dictionary, but for a single one under `_val`. -/
theorem wrapFields_dict {entries : List (PyVal × PyVal)} (hval : entries.map Prod.fst ≠ [.str VAL_FIELD])
    (hne : entries ≠ []) : wrapFields entries = .dict entries := by
  unfold wrapFields
  split
  · exact absurd rfl hne
  · rename_i name v
    split
    · rename_i hname
      exact absurd (by rw [hname]; rfl) hval
    · rfl
  · rfl

/-- What comes of the collected lists is shown under their names. -/
theorem autoValue_shows {e : GroupEnv} {op : Option (List Char)} {excluded : List (List Char)} {rows : List DataRow}
    {v : PyVal} (h : e.autoValue excluded op rows = .ok v) :
    (∀ fk vs, Buckets.lookup pyEq fk (autoFields excluded rows) = some vs →
      ∃ w, e.aggregate op vs = .ok w ∧ Shows ((autoFields excluded rows).map Prod.fst) v fk w) ∧
    (autoFields excluded rows = [] → v = .none) := by
  unfold autoValue at h
  cases hrun : (autoFields excluded rows).mapM fun f => (e.aggregate op f.2).map fun v => (f.1, v) with
  | error err =>
    rw [hrun] at h
    cases h
  | ok entries =>
    rw [hrun] at h
    obtain rfl := Except.ok.inj h
    obtain ⟨hnames, hlook⟩ := lookup_entries (mapM_ok hrun)
    refine ⟨fun fk vs hl => ?_, fun hnil => ?_⟩
    · obtain ⟨w, hw, hentry⟩ := hlook fk vs hl
      refine ⟨w, hw, ?_⟩
      rw [← hnames]
      by_cases hval : entries.map Prod.fst = [.str VAL_FIELD]
      · obtain ⟨⟨name, v⟩, rfl, hname⟩ := List.map_eq_singleton_iff.1 hval
        obtain rfl : name = .str VAL_FIELD := hname
        by_cases hfk : pyEq (.str VAL_FIELD) fk = true
        · refine .inl ⟨rfl, (PyVal.pyEq_str _ _).1 hfk, ?_⟩
          simpa [hfk, wrapFields] using hentry
        · simp [hfk] at hentry
      · refine .inr ⟨hval, entries, wrapFields_dict hval ?_, hentry⟩
        rintro rfl
        cases hentry
    · rw [hnil, List.map_nil, List.map_eq_nil_iff] at hnames
      rw [hnames]
      rfl

end GroupEnv

/-! ## Fields that are asked for -/

namespace FieldSpec

/-- The name a field is given where the one without operators is used already. -/
def renamed (f : FieldSpec) : List Char := baseName f.path ++ '.' :: f.op.getD GROUP_LIST_OP

end FieldSpec

/-- Each field has an entry of its own in what comes out. -/
structure OwnEntries (e : GroupEnv) (fs : List FieldSpec) (rows : List DataRow) (gout : OrdDict (List Char) PyVal) :
    Prop where
  size : gout.size = fs.dedup.length
  entry : ∀ f ∈ fs, ∃ v, e.fieldValue f rows = .ok v ∧ gout.get? f.name = some v

/-- No field finds both of its names used, unless by itself. -/
def NamesFree (fs : List FieldSpec) : Prop :=
  ∀ pre f post, fs = pre ++ f :: post → baseName f.path ∈ pre.map FieldSpec.name →
    f.renamed ∈ pre.map FieldSpec.name → ⟨f.path, f.op, f.renamed⟩ ∈ pre

/-- A field is named as the loop comes to it. -/
theorem nameFields_name {used : List (List Char)} {specs : List Path} {pre post : List FieldSpec} {f : FieldSpec}
    (h : nameFields used specs = pre ++ f :: post) :
    f.name = if baseName f.path ∈ pre.map FieldSpec.name ++ used then f.renamed else baseName f.path := by
  induction specs generalizing used pre with
  | nil => simp [nameFields] at h
  | cons parts rest ih =>
    rw [nameFields] at h
    cases pre with
    | nil =>
      injection h with hf _
      rw [← hf]
      rfl
    | cons g pre =>
      injection h with hg hrest
      rw [ih hrest]
      have hmem : baseName f.path ∈ pre.map FieldSpec.name ++ fieldName used parts :: used ↔
          baseName f.path ∈ (g :: pre).map FieldSpec.name ++ used := by
        rw [← hg, List.map_cons, List.cons_append, List.perm_middle.mem_iff]
      simp only [hmem]

/-- Fields of one name are one field. -/
def NamesApart (fs : List FieldSpec) : Prop := ∀ f ∈ fs, ∀ g ∈ fs, f.name = g.name → f = g

theorem namesApart_iff (specs : List Path) : NamesApart (nameFields [] specs) ↔ NamesFree (nameFields [] specs) := by
  constructor
  · intro h pre f post heq hbase hname
    have hf := nameFields_name heq
    rw [List.append_nil, if_pos hbase] at hf
    obtain ⟨g, hg, hgf⟩ := List.mem_map.1 hname
    have hgf' : g = f :=
      h g (heq ▸ List.mem_append_left _ hg) f (heq ▸ List.mem_append_right _ (List.mem_cons_self ..)) (hgf.trans hf.symm)
    rw [← hf]
    exact hgf' ▸ hg
  · intro h
    -- the fields that are named already
    have hpre : ∀ pre post, nameFields [] specs = pre ++ post → NamesApart pre := by
      intro pre
      induction pre using List.reverseRecOn with
      | nil => exact fun post _ f hf => absurd hf List.not_mem_nil
      | append_singleton pre g ih =>
        intro post heq
        rw [List.append_assoc, List.singleton_append] at heq
        have hpre := ih _ heq
        have hg := nameFields_name heq
        rw [List.append_nil] at hg
        -- a field before `g` of its name
        have hback : ∀ f ∈ pre, f.name = g.name → f = g := by
          intro f hf hfg
          have hused : g.name ∈ pre.map FieldSpec.name := List.mem_map.2 ⟨f, hf, hfg⟩
          by_cases hbase : baseName g.path ∈ pre.map FieldSpec.name
          · rw [if_pos hbase] at hg
            have hmem := h pre g post heq hbase (hg ▸ hused)
            rw [← hg] at hmem
            exact hpre f hf g hmem hfg
          · rw [if_neg hbase] at hg
            exact absurd (hg ▸ hused) hbase
        intro f hf k hk hfk
        rcases List.mem_append.1 hf with hf' | hf'
        · rcases List.mem_append.1 hk with hk' | hk'
          · exact hpre f hf' k hk' hfk
          · rw [List.mem_singleton.1 hk'] at hfk ⊢
            exact hback f hf' hfk
        · rw [List.mem_singleton.1 hf'] at hfk ⊢
          rcases List.mem_append.1 hk with hk' | hk'
          · exact (hback k hk' hfk.symm).symm
          · exact (List.mem_singleton.1 hk').symm
    exact hpre _ [] (List.append_nil _).symm

namespace GroupEnv

variable {e : GroupEnv} {rows : List DataRow} {fs : List FieldSpec} {gout gout' : OrdDict (List Char) PyVal}

/-- **The entries of a group**: the fields' names, each with the value of a field of that name. -/
theorem get?_explicitFields (h : e.explicitFields rows fs gout = .ok gout') :
    (∀ f ∈ fs, ∃ v, e.fieldValue f rows = .ok v) ∧ (∀ n, n ∈ gout'.keys ↔ n ∈ gout.keys ∨ n ∈ fs.map FieldSpec.name) ∧
      ∀ n v, gout'.get? n = some v → gout.get? n = some v ∨ ∃ f ∈ fs, f.name = n ∧ e.fieldValue f rows = .ok v := by
  induction fs generalizing gout with
  | nil =>
    obtain rfl : gout = gout' := Except.ok.inj h
    exact ⟨fun f hf => absurd hf List.not_mem_nil, fun n => by simp, fun n v hv => .inl hv⟩
  | cons f fs ih =>
    rw [explicitFields] at h
    split at h
    · cases h
    · rename_i v hv
      obtain ⟨hvals, hkeys, hget⟩ := ih h
      refine ⟨List.forall_mem_cons.2 ⟨⟨v, hv⟩, hvals⟩, ?_, ?_⟩
      · intro n
        have hset : n ∈ (gout.set f.name v).keys ↔ n ∈ gout.keys ∨ n = f.name := by
          rw [OrdDict.mem_keys_iff, OrdDict.mem_keys_iff]
          simp only [OrdDict.get?_set]
          by_cases hn : n = f.name <;> simp [hn]
        rw [hkeys, hset, List.map_cons, List.mem_cons, or_assoc]
      · intro n w hw
        rcases hget n w hw with hin | ⟨g, hg, hname, hval⟩
        · rw [OrdDict.get?_set] at hin
          split at hin
          · rename_i hn
            exact .inr ⟨f, List.mem_cons_self .., hn.symm, hv.trans (congrArg _ (Option.some.inj hin))⟩
          · exact .inl hin
        · exact .inr ⟨g, List.mem_cons_of_mem _ hg, hname, hval⟩

theorem size_explicitFields (h : e.explicitFields rows fs OrdDict.empty = .ok gout) :
    gout.size = (fs.map FieldSpec.name).dedup.length := by
  have hkeys := (get?_explicitFields h).2.1
  have hperm : gout.keys.Perm (fs.map FieldSpec.name).dedup := by
    refine (List.perm_ext_iff_of_nodup gout.nodup_keys (List.nodup_dedup _)).2 ?_
    intro n
    rw [hkeys, List.mem_dedup]
    simp [OrdDict.keys, OrdDict.empty]
  rw [← hperm.length_eq, OrdDict.keys, List.length_map]
  rfl

/-- Each field has an entry of its own just when the names tell them apart. -/
theorem ownEntries_iff (h : e.explicitFields rows fs OrdDict.empty = .ok gout) :
    OwnEntries e fs rows gout ↔ NamesApart fs := by
  obtain ⟨hvals, hkeys, hget⟩ := get?_explicitFields h
  have hcard : gout.size = fs.dedup.length ↔ NamesApart fs := by
    rw [size_explicitFields h, ← List.card_toFinset, ← List.card_toFinset]
    have himage : (fs.map FieldSpec.name).toFinset = fs.toFinset.image FieldSpec.name := by
      ext n
      simp
    rw [himage, Finset.card_image_iff]
    simp [Set.InjOn, NamesApart]
  constructor
  · exact fun hown => hcard.1 hown.size
  · intro hapart
    refine ⟨hcard.2 hapart, ?_⟩
    intro f hf
    obtain ⟨v, hv⟩ := OrdDict.mem_keys_iff.1 ((hkeys f.name).2 (.inr (List.mem_map.2 ⟨f, hf, rfl⟩)))
    rcases hget f.name v hv with hin | ⟨g, hg, hname, hval⟩
    · cases hin
    · obtain rfl := hapart g hg f hf hname
      exact ⟨v, hval, hv⟩

end GroupEnv

/-! ## What comes out -/

/-- The lists collected of a group, or its requested entries, are exact. -/
def GroupExact (e : GroupEnv) (p : ParsedGroup) (rows : List DataRow) (out : DataRow) : Prop :=
  match p.fields with
  | none => AutoExact e p.op (GroupEnv.excludedRoots p.keys) rows out.val
  | some fs => ∃ gout, e.explicitFields rows fs OrdDict.empty = .ok gout ∧ OwnEntries e fs rows gout ∧
      out.val = .dict (gout.entries.map fun kv => (.str kv.1, kv.2))

/-- One row for each group, with the group's key and exact values. -/
structure Split (e : GroupEnv) (p : ParsedGroup) (keyed : List (PyVal × DataRow)) (out : List DataRow) : Prop where
  groups : GroupEnv.Grouped keyed (e.groupRows keyed)
  rows : List.Forall₂ (fun g row => row.key = g.1 ∧ GroupExact e p g.2 row) (e.groupRows keyed) out

/-- Where fields are collected, no field `_val` meets a value without fields in a group; where fields are asked
for, none finds both of its names used by others. -/
def SpecFaithful (e : GroupEnv) (p : ParsedGroup) (keyed : List (PyVal × DataRow)) : Prop :=
  match p.fields with
  | none => ∀ x ∈ keyed, ∀ y ∈ keyed, pyEq (e.groupIdent x.1) (e.groupIdent y.1) = true →
      VAL_FIELD ∈ GroupEnv.excludedRoots p.keys ∨ x.2.valuesOf (.str VAL_FIELD) = [] ∨ y.2.bare = []
  | some fs => keyed = [] ∨ NamesFree fs

/-- What a spec is parsed to. -/
theorem parseGroupBy_ok {spec : GroupBy} {p : ParsedGroup} (h : parseGroupBy spec = .ok p) :
    p.keys ≠ [] ∧ ∀ fs, p.fields = some fs → ∃ specs, fs = nameFields [] specs := by
  unfold parseGroupBy at h
  split at h
  · obtain ⟨keys, -, h⟩ := bind_ok h
    obtain ⟨fields, -, h⟩ := bind_ok h
    split at h
    · cases h
    · obtain rfl := Except.ok.inj h
      exact ⟨‹_›, fun fs hfs => ⟨fields, (Option.some.inj hfs).symm⟩⟩
  · cases h
  · obtain ⟨parts, -, h⟩ := bind_ok h
    simp only at h
    split at h
    · cases h
    · obtain rfl := Except.ok.inj h
      exact ⟨‹_›, fun fs hfs => by cases hfs⟩
  · obtain ⟨parts, -, h⟩ := bind_ok h
    simp only at h
    split at h
    · cases h
    · obtain rfl := Except.ok.inj h
      exact ⟨List.cons_ne_nil _ _, fun fs hfs => by cases hfs⟩

/-- What makes one group exact. -/
def GroupFaithful (p : ParsedGroup) (rows : List DataRow) : Prop :=
  match p.fields with
  | none => FieldsApart (GroupEnv.excludedRoots p.keys) rows
  | some fs => NamesFree fs

theorem groupExact_iff {e : GroupEnv} {spec : GroupBy} {p : ParsedGroup} (hp : parseGroupBy spec = .ok p)
    {gval : PyVal} {rows : List DataRow} (hkeys : FieldsHashable rows) {row : DataRow}
    (h : e.groupRow p gval rows = .ok row) : row.key = gval ∧ (GroupExact e p rows row ↔ GroupFaithful p rows) := by
  unfold GroupEnv.groupRow at h
  unfold GroupExact GroupFaithful
  cases hf : p.fields with
  | none =>
    rw [hf] at h
    obtain ⟨gout, hgout, hrow⟩ := bind_ok h
    obtain rfl := Except.ok.inj hrow
    obtain ⟨hshows, hnothing⟩ := GroupEnv.autoValue_shows hgout
    exact ⟨rfl, fun hex => (GroupEnv.fieldsExact_iff hkeys).1 hex.lists,
      fun hapart => ⟨(GroupEnv.fieldsExact_iff hkeys).2 hapart, hshows, hnothing⟩⟩
  | some fs =>
    rw [hf] at h
    obtain ⟨gout, hgout, hrow⟩ := bind_ok h
    obtain rfl := Except.ok.inj hrow
    refine ⟨rfl, ?_⟩
    obtain ⟨specs, rfl⟩ := (parseGroupBy_ok hp).2 fs hf
    -- the run that gave the entries
    cases hrun : e.explicitFields rows (nameFields [] specs) OrdDict.empty with
    | error err =>
      simp only [GroupEnv.explicitValue, hrun] at hgout
      cases hgout
    | ok entries =>
      simp only [GroupEnv.explicitValue, hrun] at hgout
      obtain rfl := Except.ok.inj hgout
      have hown := (GroupEnv.ownEntries_iff hrun).trans (namesApart_iff specs)
      constructor
      · rintro ⟨entries', hrun', hown', -⟩
        obtain rfl := Except.ok.inj (hrun.symm.trans hrun')
        exact hown.1 hown'
      · exact fun hfree => ⟨entries, hrun, hown.2 hfree, rfl⟩

namespace GroupEnv

variable (e : GroupEnv) {keyed : List (PyVal × DataRow)}

theorem mem_keyed {g : PyVal × List DataRow} (hg : g ∈ e.groupRows keyed) {row : DataRow} (hrow : row ∈ g.2) :
    ∃ x ∈ keyed, x.2 = row := by
  rw [e.groupRows_eq] at hg
  obtain ⟨b, hb, rfl⟩ := List.mem_map.1 hg
  obtain ⟨t, ht, rfl⟩ := List.mem_map.1 hrow
  obtain ⟨x, hx, rfl⟩ := List.mem_map.1 (e.parted_tagged.mem_items hb ht)
  exact ⟨x, hx, rfl⟩

/-- Rows make groups. -/
theorem groupRows_eq_nil : e.groupRows keyed = [] ↔ keyed = [] := by
  constructor
  · intro h
    rw [e.groupRows_eq, List.map_eq_nil_iff] at h
    have hperm := (@parted_tagged e keyed).perm
    rw [h] at hperm
    exact List.map_eq_nil_iff.1 hperm.symm.eq_nil
  · rintro rfl
    rfl

end GroupEnv

/-- A row has no field or is one. -/
theorem valuesOf_or_bare (fk : PyVal) (row : DataRow) : row.valuesOf fk = [] ∨ row.bare = [] := by
  by_cases h : ∃ kvs, row.val = .dict kvs
  · obtain ⟨kvs, h⟩ := h
    exact .inr (GroupEnv.bare_dict h)
  · exact .inl (GroupEnv.valuesOf_bare (fun kvs hc => h ⟨kvs, hc⟩) fk)

/-- All groups are exact when no two rows of one group clash. -/
theorem specFaithful_iff (e : GroupEnv) (p : ParsedGroup) {keyed : List (PyVal × DataRow)}
    (hrows : ∀ x ∈ keyed, ∀ y ∈ keyed, x.2 = y.2 → x = y) :
    (∀ g ∈ e.groupRows keyed, GroupFaithful p g.2) ↔ SpecFaithful e p keyed := by
  unfold GroupFaithful SpecFaithful
  cases p.fields with
  | none =>
    constructor
    · intro h x hx y hy hsame
      by_cases hxy : x = y
      · subst hxy
        exact .inr (valuesOf_or_bare _ _)
      · obtain ⟨g, hg, hxg, hyg⟩ := (e.share_iff hrows hx hy hxy).2 hsame
        exact (h g hg).imp_right (Or.imp (fun hv => hv x.2 hxg) fun hb => hb y.2 hyg)
    · intro h g hg
      by_contra hno
      unfold FieldsApart at hno
      push Not at hno
      obtain ⟨hex, ⟨r, hr, hvals⟩, s, hs, hbare⟩ := hno
      obtain ⟨x, hx, rfl⟩ := e.mem_keyed hg hr
      obtain ⟨y, hy, rfl⟩ := e.mem_keyed hg hs
      have hne : x ≠ y := by
        rintro rfl
        exact (valuesOf_or_bare _ _).elim hvals hbare
      rcases h x hx y hy ((e.share_iff hrows hx hy hne).1 ⟨g, hg, hr, hs⟩) with hc | hc | hc
      · exact hex hc
      · exact hvals hc
      · exact hbare hc
  | some fs =>
    constructor
    · intro h
      by_cases hk : keyed = []
      · exact .inl hk
      · obtain ⟨g, hg⟩ := List.exists_mem_of_ne_nil _ (e.groupRows_eq_nil.not.2 hk)
        exact .inr (h g hg)
    · rintro (rfl | h) g hg
      · cases hg
      · exact h

/-- A relation that each pair decides for itself. -/
theorem forall₂_iff_forall {α β : Type} {R S : α → β → Prop} {C : α → Prop} {as : List α} {bs : List β}
    (h : List.Forall₂ R as bs) (hiff : ∀ a ∈ as, ∀ b, R a b → (S a b ↔ C a)) :
    List.Forall₂ S as bs ↔ ∀ a ∈ as, C a := by
  induction h with
  | nil => exact ⟨fun _ a ha => absurd ha List.not_mem_nil, fun _ => .nil⟩
  | cons hab _ ih =>
    have ih := ih fun a ha => hiff a (List.mem_cons_of_mem _ ha)
    rw [List.forall₂_cons, List.forall_mem_cons, ih, hiff _ (List.mem_cons_self ..) _ hab]

/-- **Grouping keeps all data apart** just when the keys without a hash are told apart by their texts, no field
`_val` meets a bare value, and no field finds both its names used. It raises only what a transform does. -/
theorem groupedByRules_iff {e : GroupEnv} {spec : GroupBy} {p : ParsedGroup} (hp : parseGroupBy spec = .ok p)
    {rows : List DataRow} (hkeys : FieldsHashable rows) :
    (∃ err, e.groupedByRules rows p = .error err ∧ e.Raises err) ∨
      ∃ keyed out, e.keyRows p.keys rows = .ok keyed ∧ e.groupedByRules rows p = .ok out ∧
        (Split e p keyed out ↔ e.KeysFaithful keyed ∧ SpecFaithful e p keyed) := by
  cases hout : e.groupedByRules rows p with
  | error err => exact .inl ⟨err, rfl, GroupEnv.groupedByRules_error hout⟩
  | ok out =>
    -- without rows there is nothing to group
    have hrun : ∃ keyed, e.keyRows p.keys rows = .ok keyed ∧
        List.Forall₂ (fun g row => e.groupRow p g.1 g.2 = .ok row) (e.groupRows keyed) out := by
      unfold GroupEnv.groupedByRules at hout
      split at hout
      · rename_i hno
        obtain rfl := hno.resolve_left (parseGroupBy_ok hp).1
        obtain rfl := Except.ok.inj hout
        exact ⟨[], rfl, .nil⟩
      · obtain ⟨keyed, hkeyed, hout⟩ := bind_ok hout
        exact ⟨keyed, hkeyed, mapM_ok hout⟩
    obtain ⟨keyed, hkeyed, hrun⟩ := hrun
    have hrows := e.key_unique hkeyed
    have hexact : List.Forall₂ (fun g row => row.key = g.1 ∧ GroupExact e p g.2 row) (e.groupRows keyed) out ↔
        SpecFaithful e p keyed := by
      rw [← specFaithful_iff e p hrows]
      refine forall₂_iff_forall hrun ?_
      intro g hg row hrow
      have hsub : FieldsHashable g.2 := by
        intro r hr
        obtain ⟨x, hx, rfl⟩ := e.mem_keyed hg hr
        refine hkeys x.2 ?_
        rw [← (e.groupedByRules_keyRows hkeyed).1]
        exact List.mem_map.2 ⟨x, hx, rfl⟩
      obtain ⟨hkey, hiff⟩ := groupExact_iff hp hsub hrow
      rw [hiff]
      exact and_iff_right hkey
    refine .inr ⟨keyed, out, hkeyed, rfl, ?_⟩
    rw [← hexact, ← e.grouped_iff hrows]
    exact ⟨fun h => ⟨h.groups, h.rows⟩, fun h => ⟨h.1, h.2⟩⟩

/-- Transforms of whole numbers and of lists of one. -/
def oneEnv : GroupEnv where
  transform _ v :=
    match v with
    | .list (x :: _) => .ok (some x)
    | v => .ok (some v)
  str _ := []

/-- A row with a category and a price. -/
def priceRow (cat : String) (price : ℤ) : DataRow :=
  ⟨.str "k".toList, .dict [(.str "cat".toList, .str cat.toList), (.str "price".toList, .int price)], 0, 0, 0⟩

theorem fieldsHashable_priceRow (rows : List (String × ℤ)) :
    FieldsHashable (rows.map fun x => priceRow x.1 x.2) := by
  intro row hrow kvs hkvs kv hkv
  obtain ⟨x, -, rfl⟩ := List.mem_map.1 hrow
  obtain rfl := PyVal.dict.inj hkvs
  rcases List.mem_cons.1 hkv with rfl | hkv
  · rfl
  · rw [List.mem_singleton.1 hkv]
    rfl

/-- Prices by category. -/
theorem groupedByRules_cats : ∃ p keyed out, parseGroupBy (.list [.path "cat".toList]) = .ok p ∧
    oneEnv.keyRows p.keys ([("a", 3), ("b", 4), ("a", 5)].map fun x => priceRow x.1 x.2) = .ok keyed ∧
    oneEnv.groupedByRules ([("a", 3), ("b", 4), ("a", 5)].map fun x => priceRow x.1 x.2) p = .ok out ∧
    Split oneEnv p keyed out := by
  have hparse : parseGroupBy (.list [.path "cat".toList]) = .ok ⟨[["cat".toList]], none, none⟩ := rfl
  rcases groupedByRules_iff (e := oneEnv) hparse (fieldsHashable_priceRow [("a", 3), ("b", 4), ("a", 5)]) with
    ⟨err, -, op, v, hraise⟩ | ⟨keyed, out, hkeyed, hout, hiff⟩
  · -- no transform raises
    simp only [oneEnv] at hraise
    split at hraise <;> cases hraise
  · refine ⟨_, keyed, out, hparse, hkeyed, hout, ?_⟩
    have hall : oneEnv.keyRows [["cat".toList]] ([("a", 3), ("b", 4), ("a", 5)].map fun x => priceRow x.1 x.2) =
        .ok (([("a", 3), ("b", 4), ("a", 5)] : List (String × ℤ)).map fun x =>
          (.str x.1.toList, priceRow x.1 x.2)) := rfl
    obtain rfl := Except.ok.inj (hall.symm.trans hkeyed)
    refine hiff.2 ⟨?_, ?_⟩
    · -- every key is a text
      constructor
      · intro x hx y _ _ hno
        obtain ⟨u, -, rfl⟩ := List.mem_map.1 hx
        cases hno
      · intro x hx y _ hno
        obtain ⟨u, -, rfl⟩ := List.mem_map.1 hx
        cases hno
    · intro x _ y hy _
      obtain ⟨w, -, rfl⟩ := List.mem_map.1 hy
      exact .inr (.inr rfl)

/-- Of three requested fields only two come out. -/
theorem groupedByRules_drops : ∃ p keyed out,
    parseGroupBy (.dict [(.one (.path "cat".toList), .inr [.path "price.$abs.$max".toList,
      .path "price.$ceil.$max".toList, .path "price.$floor.$max".toList])]) = .ok p ∧
    oneEnv.keyRows p.keys ([("a", 3)].map fun x => priceRow x.1 x.2) = .ok keyed ∧
    oneEnv.groupedByRules ([("a", 3)].map fun x => priceRow x.1 x.2) p = .ok out ∧ ¬ Split oneEnv p keyed out := by
  refine ⟨_, _, _, rfl, rfl, rfl, ?_⟩
  intro h
  obtain ⟨hrow, -⟩ := List.forall₂_cons.1 h.rows
  obtain ⟨-, gout, hgout, hown, -⟩ := hrow
  obtain rfl := Except.ok.inj hgout
  exact absurd hown.size (by decide)

end OmniJsonDb
