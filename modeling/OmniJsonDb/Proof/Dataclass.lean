import OmniJsonDb.Proof.Readings

/-!
# Dataclasses there and back

`Conforms` says which values an annotation allows, `Survives` which of them come back when they
are encoded and decoded by it.

* `Survives`: conditions on the value and the annotation; where a stored value is read again they are
  those of `Reading`.
* `back_iff`: a value that conforms comes back exactly when it survives.
-/

namespace OmniJsonDb

namespace Dataclass

open Fuel

variable {e : Env}

/-! ## What conforms, and what survives -/

/-- The members of a set: each can be hashed, no two are equal. -/
def SetLike (e : Env) (xs : List Val) : Prop :=
  (∀ x ∈ xs, e.hashable x = true) ∧ xs.Pairwise fun y x => e.eq y x = false

/-- The items of a dictionary: each key can be hashed, no two are equal. -/
def DictLike (e : Env) (kvs : List (Val × Val)) : Prop := SetLike e (kvs.map Prod.fst)

/-- **The value is one that the annotation allows**, as type checkers read it. -/
inductive Conforms (e : Env) : Hint → Val → Prop
  | any (v : Val) : Conforms e .any v
  | noneType : Conforms e .noneType .none
  | bool (b : Bool) : Conforms e .bool (.bool b)
  | int (i : ℤ) : Conforms e .int (.int i)
  | intBool (b : Bool) : Conforms e .int (.bool b)
  | float (bits : BitVec 64) : Conforms e .float (.float bits)
  | str (s : List Char) : Conforms e .str (.str s)
  | bytes (b : Bytes) : Conforms e .bytes (.bytes b)
  | std (t : StdType) (id : ℕ) : Conforms e (.std t) (.std t id)
  | dateDatetime (id : ℕ) : Conforms e (.std .date) (.std .datetime id)
  | strEnum {c : ℕ} (m : ℕ) (v : Val) (h : e.mixin c = .str) : Conforms e .str (.enum c m v)
  | intEnum {c : ℕ} (m : ℕ) (v : Val) (h : e.mixin c = .int) : Conforms e .int (.enum c m v)
  | enum (c m : ℕ) (v : Val) : Conforms e (.enum c) (.enum c m v)
  | inst {cls : ℕ} {vs : List Val} (hlen : (e.classes cls).fields.length = vs.length)
      (h : ∀ p ∈ (e.classes cls).fields.zip vs, Conforms e p.1.hint p.2) : Conforms e (.inst cls) (.inst cls vs)
  | list {h : Hint} {xs : List Val} (hxs : ∀ x ∈ xs, Conforms e h x) : Conforms e (.list h) (.list xs)
  | tupleOf {h : Hint} {xs : List Val} (hxs : ∀ x ∈ xs, Conforms e h x) : Conforms e (.tupleOf h) (.tuple xs)
  | tuple {hs : List Hint} {xs : List Val} (hlen : xs.length = hs.length)
      (hxs : ∀ p ∈ xs.zip hs, Conforms e p.2 p.1) : Conforms e (.tuple hs) (.tuple xs)
  | set {h : Hint} {xs : List Val} (hset : SetLike e xs) (hxs : ∀ x ∈ xs, Conforms e h x) : Conforms e (.set h) (.set xs)
  | frozenset {h : Hint} {xs : List Val} (hset : SetLike e xs) (hxs : ∀ x ∈ xs, Conforms e h x) :
      Conforms e (.frozenset h) (.frozenset xs)
  | dict {kh vh : Hint} {kvs : List (Val × Val)} (hdict : DictLike e kvs) (hk : ∀ kv ∈ kvs, Conforms e kh kv.1)
      (hv : ∀ kv ∈ kvs, Conforms e vh kv.2) : Conforms e (.dict kh vh) (.dict kvs)
  | union {h : Hint} {hs : List Hint} {v : Val} (hmem : h ∈ hs) (hv : Conforms e h v) : Conforms e (.union hs) v

/-- **The value comes back.** A value of the annotated type itself does, and a container with its
parts; the conditions are on members of an `Enum`, on the members of sets and the keys of
dictionaries, and on unions. -/
inductive Survives (e : Env) : Hint → Val → Prop
  | none (h : Hint) : Survives e h .none
  | any {v : Val} (hv : encode e v = .ok v) : Survives e .any v
  | bool (b : Bool) : Survives e .bool (.bool b)
  | int (i : ℤ) : Survives e .int (.int i)
  | intBool (b : Bool) : Survives e .int (.bool b)
  | float (bits : BitVec 64) : Survives e .float (.float bits)
  | str (s : List Char) : Survives e .str (.str s)
  | bytes (b : Bytes) : Survives e .bytes (.bytes b)
  /-- The type parses its own text. -/
  | std {t t' : StdType} {id : ℕ} (h : e.parse t (.str (stdText e t' id)) = .ok (.std t' id)) :
      Survives e (.std t) (.std t' id)
  /-- The class is called on the encoding of the member's value, which is not `None`. -/
  | enum {c m : ℕ} {value w : Val} (hw : encode e value = .ok w) (hne : w ≠ .none)
      (hcall : e.enum c w = .ok (.enum c m value)) : Survives e (.enum c) (.enum c m value)
  | inst {cls : ℕ} {vs : List Val} (h : ∀ p ∈ (e.classes cls).fields.zip vs, Survives e p.1.hint p.2) :
      Survives e (.inst cls) (.inst cls vs)
  | list {h : Hint} {xs : List Val} (hxs : ∀ x ∈ xs, Survives e h x) : Survives e (.list h) (.list xs)
  | tupleOf {h : Hint} {xs : List Val} (hxs : ∀ x ∈ xs, Survives e h x) : Survives e (.tupleOf h) (.tuple xs)
  | tuple {hs : List Hint} {xs : List Val} (hxs : ∀ p ∈ xs.zip hs, Survives e p.2 p.1) : Survives e (.tuple hs) (.tuple xs)
  /-- The encodings can be hashed, and no two are equal. -/
  | set {h : Hint} {xs : List Val} (hset : ∀ ys, encodeAll e xs = .ok ys → SetLike e ys)
      (hxs : ∀ x ∈ xs, Survives e h x) : Survives e (.set h) (.set xs)
  | frozenset {h : Hint} {xs : List Val} (hset : ∀ ys, encodeAll e xs = .ok ys → SetLike e ys)
      (hxs : ∀ x ∈ xs, Survives e h x) : Survives e (.frozenset h) (.frozenset xs)
  /-- A key comes back from what it is stored as, and no two are stored as the same. -/
  | dict {kh vh : Hint} {kvs : List (Val × Val)} (hkeys : SetLike e (kvs.map fun kv => encodeKey e kv.1))
      (hk : ∀ kv ∈ kvs, Reads e (encodeKey e kv.1) kh kv.1) (hv : ∀ kv ∈ kvs, Survives e vh kv.2) :
      Survives e (.dict kh vh) (.dict kvs)
  /-- The members in front refuse the encoding, and the next one reads it as the value. -/
  | union {hs : List Hint} {v w : Val} (hw : encode e v = .ok w) (ht : Taken (Reads e w) (Refused e w) w hs v) :
      Survives e (.union hs) v

/-- Encoded, then decoded by the annotation, the value is there again. -/
def Back (e : Env) (h : Hint) (v : Val) : Prop := ∃ w, encode e v = .ok w ∧ Gives e w h v

/-! ## Sets and dictionaries that are as they are listed -/

theorem addAll_append {acc xs : List Val} (hh : ∀ x ∈ xs, e.hashable x = true)
    (hacc : ∀ y ∈ acc, ∀ x ∈ xs, e.eq y x = false) (hxs : xs.Pairwise fun y x => e.eq y x = false) :
    addAll e acc xs = .ok (acc ++ xs) := by
  induction xs generalizing acc with
  | nil => rw [addAll, List.append_nil]
  | cons x xs ih =>
    obtain ⟨hx, hxs⟩ := List.pairwise_cons.1 hxs
    have hany : acc.any (fun y => e.eq y x) = false := by
      rw [List.any_eq_false]
      intro y hy
      rw [hacc y hy x (List.mem_cons_self ..)]
      simp
    rw [addAll, if_pos (hh x (List.mem_cons_self ..)), hany]
    rw [if_neg (by simp), ih (fun z hz => hh z (List.mem_cons_of_mem _ hz)) ?_ hxs, List.append_assoc]
    · rfl
    · intro y hy z hz
      rcases List.mem_append.1 hy with hy | hy
      · exact hacc y hy z (List.mem_cons_of_mem _ hz)
      · rw [List.mem_singleton.1 hy]
        exact hx z hz

theorem addAll_length {acc xs ys : List Val} (h : addAll e acc xs = .ok ys) : ys.length ≤ acc.length + xs.length := by
  induction xs generalizing acc with
  | nil =>
    cases h
    exact Nat.le_add_right ..
  | cons x xs ih =>
    rw [addAll] at h
    split at h
    · have hle := ih h
      rw [List.length_cons]
      split at hle
      · omega
      · rw [List.length_append, List.length_singleton] at hle
        omega
    · cases h

/-- When none of them is dropped, they were apart. -/
theorem addAll_full {acc xs ys : List Val} (h : addAll e acc xs = .ok ys) (hlen : acc.length + xs.length ≤ ys.length) :
    ys = acc ++ xs ∧ (∀ x ∈ xs, e.hashable x = true) ∧ (∀ y ∈ acc, ∀ x ∈ xs, e.eq y x = false) ∧
      xs.Pairwise fun y x => e.eq y x = false := by
  induction xs generalizing acc with
  | nil =>
    cases h
    simp
  | cons x xs ih =>
    rw [addAll] at h
    split at h
    · rename_i hhash
      rw [List.length_cons] at hlen
      split at h
      · have := addAll_length h
        omega
      · rename_i hany
        have hany : ∀ y ∈ acc, e.eq y x = false := by
          intro y hy
          by_contra hne
          exact hany (List.any_eq_true.2 ⟨y, hy, by simpa using hne⟩)
        obtain ⟨rfl, hh, happ, hpair⟩ := ih h (by rw [List.length_append, List.length_singleton]; omega)
        refine ⟨by rw [List.append_assoc]; rfl, ?_, ?_, ?_⟩
        · intro z hz
          rcases List.mem_cons.1 hz with rfl | hz
          · exact hhash
          · exact hh z hz
        · intro y hy z hz
          rcases List.mem_cons.1 hz with rfl | hz
          · exact hany y hy
          · exact happ y (List.mem_append_left _ hy) z hz
        · refine List.pairwise_cons.2 ⟨?_, hpair⟩
          intro z hz
          exact happ x (List.mem_append_right _ (List.mem_singleton_self x)) z hz
    · cases h

theorem SetLike.addAll {xs : List Val} (h : SetLike e xs) : addAll e [] xs = .ok xs :=
  addAll_append h.1 (by simp) h.2

theorem setLike_of_addAll {xs ys : List Val} (h : Dataclass.addAll e [] xs = .ok ys) (hlen : xs.length ≤ ys.length) :
    ys = xs ∧ SetLike e xs := by
  obtain ⟨hys, hh, -, hpair⟩ := addAll_full h (by simpa using hlen)
  exact ⟨hys, hh, hpair⟩

theorem setItem_new {key val : Val} {kvs : List (Val × Val)} (h : ∀ kv ∈ kvs, e.eq kv.1 key = false) :
    setItem e key val kvs = kvs ++ [(key, val)] := by
  induction kvs with
  | nil => rfl
  | cons kv kvs ih =>
    obtain ⟨k, v⟩ := kv
    have hk : e.eq k key = false := h (k, v) (List.mem_cons_self ..)
    rw [setItem, hk, if_neg (by simp), ih fun kv hkv => h kv (List.mem_cons_of_mem _ hkv)]
    rfl

theorem setItem_old {key val : Val} {kvs : List (Val × Val)} (h : ∃ kv ∈ kvs, e.eq kv.1 key = true) :
    (setItem e key val kvs).length = kvs.length := by
  induction kvs with
  | nil => simp at h
  | cons kv kvs ih =>
    obtain ⟨k, v⟩ := kv
    rw [setItem]
    split
    · rfl
    · rename_i hk
      obtain ⟨kv, hkv, heq⟩ := h
      rcases List.mem_cons.1 hkv with rfl | hkv
      · exact absurd heq hk
      · rw [List.length_cons, List.length_cons, ih ⟨kv, hkv, heq⟩]

theorem setItem_length {key val : Val} {kvs : List (Val × Val)} : (setItem e key val kvs).length ≤ kvs.length + 1 := by
  by_cases h : ∃ kv ∈ kvs, e.eq kv.1 key = true
  · rw [setItem_old h]
    exact Nat.le_succ _
  · rw [setItem_new, List.length_append, List.length_singleton]
    intro kv hkv
    by_contra hne
    exact h ⟨kv, hkv, by simpa using hne⟩

theorem setItems_append {acc kvs : List (Val × Val)} (hh : ∀ kv ∈ kvs, e.hashable kv.1 = true)
    (hacc : ∀ a ∈ acc, ∀ kv ∈ kvs, e.eq a.1 kv.1 = false)
    (hkvs : kvs.Pairwise fun a kv => e.eq a.1 kv.1 = false) : setItems e acc kvs = .ok (acc ++ kvs) := by
  induction kvs generalizing acc with
  | nil => rw [setItems, List.append_nil]
  | cons kv kvs ih =>
    obtain ⟨k, v⟩ := kv
    obtain ⟨hk, hkvs⟩ := List.pairwise_cons.1 hkvs
    rw [setItems, if_pos (hh (k, v) (List.mem_cons_self ..)),
      setItem_new fun a ha => hacc a ha (k, v) (List.mem_cons_self ..)]
    rw [ih (fun z hz => hh z (List.mem_cons_of_mem _ hz)) ?_ hkvs, List.append_assoc]
    · rfl
    · intro a ha z hz
      rcases List.mem_append.1 ha with ha | ha
      · exact hacc a ha z (List.mem_cons_of_mem _ hz)
      · rw [List.mem_singleton.1 ha]
        exact hk z hz

theorem setItems_length {acc kvs items : List (Val × Val)} (h : setItems e acc kvs = .ok items) :
    items.length ≤ acc.length + kvs.length := by
  induction kvs generalizing acc with
  | nil =>
    cases h
    exact Nat.le_add_right ..
  | cons kv kvs ih =>
    obtain ⟨k, v⟩ := kv
    rw [setItems] at h
    split at h
    · have hle := ih h
      have hset : (setItem e k v acc).length ≤ acc.length + 1 := setItem_length
      rw [List.length_cons]
      omega
    · cases h

theorem setItems_full {acc kvs items : List (Val × Val)} (h : setItems e acc kvs = .ok items)
    (hlen : acc.length + kvs.length ≤ items.length) :
    items = acc ++ kvs ∧ (∀ kv ∈ kvs, e.hashable kv.1 = true) ∧ (∀ a ∈ acc, ∀ kv ∈ kvs, e.eq a.1 kv.1 = false) ∧
      kvs.Pairwise fun a kv => e.eq a.1 kv.1 = false := by
  induction kvs generalizing acc with
  | nil =>
    cases h
    simp
  | cons kv kvs ih =>
    obtain ⟨k, v⟩ := kv
    rw [setItems] at h
    split at h
    · rename_i hhash
      rw [List.length_cons] at hlen
      have hnew : ∀ a ∈ acc, e.eq a.1 k = false := by
        intro a ha
        by_contra hne
        have hle := setItems_length h
        rw [setItem_old ⟨a, ha, by simpa using hne⟩] at hle
        omega
      rw [setItem_new hnew] at h
      obtain ⟨rfl, hh, happ, hpair⟩ := ih h (by rw [List.length_append, List.length_singleton]; omega)
      refine ⟨by rw [List.append_assoc]; rfl, ?_, ?_, ?_⟩
      · intro z hz
        rcases List.mem_cons.1 hz with rfl | hz
        · exact hhash
        · exact hh z hz
      · intro a ha z hz
        rcases List.mem_cons.1 hz with rfl | hz
        · exact hnew a ha
        · exact happ a (List.mem_append_left _ ha) z hz
      · refine List.pairwise_cons.2 ⟨?_, hpair⟩
        intro z hz
        exact happ (k, v) (List.mem_append_right _ (List.mem_singleton_self _)) z hz
    · cases h

theorem dictLike_iff {kvs : List (Val × Val)} : DictLike e kvs ↔
    (∀ kv ∈ kvs, e.hashable kv.1 = true) ∧ kvs.Pairwise fun a kv => e.eq a.1 kv.1 = false := by
  rw [DictLike, SetLike, List.pairwise_map]
  simp

theorem DictLike.setItems {kvs : List (Val × Val)} (h : DictLike e kvs) : setItems e [] kvs = .ok kvs :=
  setItems_append (dictLike_iff.1 h).1 (by simp) (dictLike_iff.1 h).2

theorem dictLike_of_setItems {kvs items : List (Val × Val)} (h : Dataclass.setItems e [] kvs = .ok items)
    (hlen : kvs.length ≤ items.length) : items = kvs ∧ DictLike e kvs := by
  obtain ⟨hitems, hh, -, hpair⟩ := setItems_full h (by simpa using hlen)
  exact ⟨hitems, dictLike_iff.2 ⟨hh, hpair⟩⟩

/-! ## Encoding, part by part -/

theorem encodeAll_iff {xs ys : List Val} : encodeAll e xs = .ok ys ↔ List.Forall₂ (fun x y => encode e x = .ok y) xs ys := by
  induction xs generalizing ys with
  | nil =>
    rw [encodeAll, List.forall₂_nil_left_iff]
    exact ⟨fun h => (Except.ok.inj h).symm, fun h => congrArg _ h.symm⟩
  | cons x xs ih =>
    rw [List.forall₂_cons_left_iff, encodeAll]
    cases hx : encode e x with
    | error err =>
      constructor
      · intro h
        cases h
      · rintro ⟨y, ys, h, -⟩
        cases h
    | ok y =>
      change (do return y :: (← encodeAll e xs)) = Except.ok ys ↔ _
      rw [Raising.map_eq_ok]
      simp only [ih]
      grind

theorem encodeAll_of_forall {xs : List Val} (h : ∀ x ∈ xs, ∃ y, encode e x = .ok y) : ∃ ys, encodeAll e xs = .ok ys := by
  simp only [encodeAll_iff]
  induction xs with
  | nil => exact ⟨[], .nil⟩
  | cons x xs ih =>
    obtain ⟨⟨y, hy⟩, hxs⟩ := List.forall_mem_cons.1 h
    obtain ⟨ys, hys⟩ := ih hxs
    exact ⟨y :: ys, .cons hy hys⟩

theorem encodeItems_iff {kvs items : List (Val × Val)} : encodeItems e kvs = .ok items ↔
    List.Forall₂ (fun kv it => it.1 = encodeKey e kv.1 ∧ encode e kv.2 = .ok it.2) kvs items := by
  induction kvs generalizing items with
  | nil =>
    rw [encodeItems, List.forall₂_nil_left_iff]
    exact ⟨fun h => (Except.ok.inj h).symm, fun h => congrArg _ h.symm⟩
  | cons kv kvs ih =>
    obtain ⟨k, v⟩ := kv
    rw [List.forall₂_cons_left_iff, encodeItems]
    cases hv : encode e v with
    | error err =>
      constructor
      · intro h
        cases h
      · rintro ⟨y, ys, ⟨-, h⟩, -⟩
        cases h
    | ok w =>
      change (do return (encodeKey e k, w) :: (← encodeItems e kvs)) = Except.ok items ↔ _
      rw [Raising.map_eq_ok]
      simp only [ih]
      grind

/-- What is encoded is no member of an `Enum`. -/
theorem encode_ne_enum : ∀ (v : Val) (c m : ℕ) (x : Val), encode e v ≠ .ok (.enum c m x)
  | .enum _ _ value, c, m, x => by
    rw [encode]
    exact encode_ne_enum value c m x
  | .inst cls fields, c, m, x => by
    rw [encode]
    intro h
    obtain ⟨ys, -, hys⟩ := Raising.map_eq_ok.1 h
    cases hys
  | .dict kvs, c, m, x => by
    rw [encode]
    cases encodeItems e kvs with
    | error err => exact fun h => nomatch h
    | ok items =>
      intro h
      obtain ⟨ys, -, hys⟩ := Raising.map_eq_ok.1 h
      cases hys
  | .list xs, c, m, x | .tuple xs, c, m, x => by
    rw [encode]
    intro h
    obtain ⟨ys, -, hys⟩ := Raising.map_eq_ok.1 h
    cases hys
  | .set xs, c, m, x | .frozenset xs, c, m, x => by
    rw [encode]
    cases encodeAll e xs with
    | error err => exact fun h => nomatch h
    | ok ys =>
      intro h
      obtain ⟨zs, -, hzs⟩ := Raising.map_eq_ok.1 h
      cases hzs
  | .std t id, c, m, x => by rw [encode]; simp
  | .none, c, m, x | .bool _, c, m, x | .int _, c, m, x | .float _, c, m, x | .str _, c, m, x | .bytes _, c, m, x => by
    rw [encode]
    simp

/-! ## Containers -/

theorem back_all {xs : List Val} {h : Hint} :
    (∃ ys, encodeAll e xs = .ok ys ∧ List.Forall₂ (fun y x => Gives e y h x) ys xs) ↔ ∀ x ∈ xs, Back e h x := by
  simp only [encodeAll_iff]
  induction xs with
  | nil =>
    constructor
    · simp
    · intro _
      exact ⟨[], .nil, .nil⟩
  | cons x xs ih =>
    rw [List.forall_mem_cons, ← ih]
    constructor
    · rintro ⟨ys, henc, hgive⟩
      cases henc with
      | cons hx hxs =>
        cases hgive with
        | cons hy hys => exact ⟨⟨_, hx, hy⟩, _, hxs, hys⟩
    · rintro ⟨⟨y, hx, hy⟩, ys, hxs, hys⟩
      exact ⟨y :: ys, .cons hx hxs, .cons hy hys⟩

theorem back_zip {xs : List Val} {hs : List Hint} (hlen : xs.length = hs.length) :
    (∃ ys, encodeAll e xs = .ok ys ∧ List.Forall₂ (fun (p : Val × Hint) x => Gives e p.1 p.2 x) (ys.zip hs) xs) ↔
      ∀ p ∈ xs.zip hs, Back e p.2 p.1 := by
  simp only [encodeAll_iff]
  induction xs generalizing hs with
  | nil =>
    constructor
    · simp
    · intro _
      exact ⟨[], .nil, .nil⟩
  | cons x xs ih =>
    cases hs with
    | nil => simp at hlen
    | cons h hs =>
      rw [List.zip_cons_cons, List.forall_mem_cons, ← ih (by simpa using hlen)]
      constructor
      · rintro ⟨ys, henc, hgive⟩
        cases henc with
        | cons hx hxs =>
          cases hgive with
          | cons hy hys => exact ⟨⟨_, hx, hy⟩, _, hxs, hys⟩
      · rintro ⟨⟨y, hx, hy⟩, ys, hxs, hys⟩
        exact ⟨y :: ys, .cons hx hxs, .cons hy hys⟩

/-- A set comes back when its members do and their encodings stay apart: none may be lost. -/
theorem back_members {xs : List Val} {h : Hint} (hset : SetLike e xs) :
    (∃ ys zs us, encodeAll e xs = .ok ys ∧ addAll e [] ys = .ok zs ∧ List.Forall₂ (fun z u => Gives e z h u) zs us ∧
      addAll e [] us = .ok xs) ↔ (∀ ys, encodeAll e xs = .ok ys → SetLike e ys) ∧ ∀ x ∈ xs, Back e h x := by
  constructor
  · rintro ⟨ys, zs, us, henc, hadd, hgive, hback⟩
    have hlen₁ := (encodeAll_iff.1 henc).length_eq
    have hlen₂ := addAll_length hadd
    have hlen₃ := hgive.length_eq
    have hlen₄ := addAll_length hback
    simp only [List.length_nil, Nat.zero_add] at hlen₂ hlen₄
    obtain ⟨rfl, hys⟩ := setLike_of_addAll hadd (by omega)
    obtain ⟨rfl, -⟩ := setLike_of_addAll hback (by omega)
    refine ⟨?_, back_all.1 ⟨_, henc, hgive⟩⟩
    intro ys' henc'
    rw [Except.ok.inj (henc'.symm.trans henc)]
    exact hys
  · rintro ⟨hapart, hall⟩
    obtain ⟨ys, henc, hgive⟩ := back_all.2 hall
    exact ⟨ys, ys, xs, henc, (hapart ys henc).addAll, hgive, hset.addAll⟩

theorem back_items {kvs : List (Val × Val)} {kh vh : Hint} :
    (∃ items, encodeItems e kvs = .ok items ∧
      List.Forall₂ (fun it kv => Gives e it.1 kh kv.1 ∧ Gives e it.2 vh kv.2) items kvs) ↔
      (∀ kv ∈ kvs, Gives e (encodeKey e kv.1) kh kv.1) ∧ ∀ kv ∈ kvs, Back e vh kv.2 := by
  simp only [encodeItems_iff]
  induction kvs with
  | nil =>
    constructor
    · simp
    · intro _
      exact ⟨[], .nil, .nil⟩
  | cons kv kvs ih =>
    rw [List.forall_mem_cons, List.forall_mem_cons]
    constructor
    · rintro ⟨items, henc, hgive⟩
      cases henc with
      | cons hkv hkvs =>
        cases hgive with
        | cons hit hits =>
          obtain ⟨hk, hv⟩ := ih.1 ⟨_, hkvs, hits⟩
          rw [hkv.1] at hit
          exact ⟨⟨hit.1, hk⟩, ⟨_, hkv.2, hit.2⟩, hv⟩
    · rintro ⟨⟨hk, hks⟩, ⟨w, hw, hv⟩, hvs⟩
      obtain ⟨items, hitems, hgive⟩ := ih.2 ⟨hks, hvs⟩
      exact ⟨(encodeKey e kv.1, w) :: items, .cons ⟨rfl, hw⟩ hitems, .cons ⟨hk, hv⟩ hgive⟩

theorem encodeItems_keys {kvs items : List (Val × Val)} (h : encodeItems e kvs = .ok items) :
    items.map Prod.fst = kvs.map fun kv => encodeKey e kv.1 := by
  rw [encodeItems_iff] at h
  induction h with
  | nil => rfl
  | cons hkv _ ih => rw [List.map_cons, List.map_cons, hkv.1, ih]

theorem back_dict {kvs : List (Val × Val)} {kh vh : Hint} (hdict : DictLike e kvs) :
    Back e (.dict kh vh) (.dict kvs) ↔ SetLike e (kvs.map fun kv => encodeKey e kv.1) ∧
      (∀ kv ∈ kvs, Gives e (encodeKey e kv.1) kh kv.1) ∧ ∀ kv ∈ kvs, Back e vh kv.2 := by
  rw [← back_items]
  constructor
  · rintro ⟨w, henc, hgive⟩
    rw [encode] at henc
    obtain ⟨items, hitems, henc⟩ := Raising.bind_eq_ok.1 henc
    obtain ⟨zs, hzs, rfl⟩ := Raising.map_eq_ok.1 henc
    obtain ⟨outs, us, houts, hus, hkvs⟩ := gives_dict.1 hgive
    obtain rfl : kvs = us := by injection hkvs
    have hlen₁ := (encodeItems_iff.1 hitems).length_eq
    have hlen₂ := setItems_length hzs
    have hlen₃ := houts.length_eq
    have hlen₄ := setItems_length hus
    simp only [List.length_nil, Nat.zero_add] at hlen₂ hlen₄
    obtain ⟨rfl, hlike⟩ := dictLike_of_setItems hzs (by omega)
    obtain ⟨rfl, -⟩ := dictLike_of_setItems hus (by omega)
    rw [DictLike, encodeItems_keys hitems] at hlike
    exact ⟨hlike, zs, hitems, houts⟩
  · rintro ⟨hlike, items, hitems, hgive⟩
    rw [← encodeItems_keys hitems] at hlike
    refine ⟨.dict items, ?_, gives_dict.2 ⟨kvs, kvs, hgive, hdict.setItems, rfl⟩⟩
    rw [encode, hitems]
    change (do return Val.dict (← setItems e [] items)) = _
    rw [DictLike.setItems hlike]
    rfl

/-! ## Instances -/

/-- The fields of an instance by their names. -/
def namesOf (fs : List Field) : List Val := fs.map fun f => .str f.name

theorem getItem_zip {fs : List Field} {ws : List Val} (hnd : (fs.map Field.name).Nodup) (hlen : fs.length = ws.length) :
    List.Forall₂ (fun f w => getItem e f.name ((namesOf fs).zip ws) = some w) fs ws := by
  -- behind other fields of other names
  have hpre : ∀ pre : List (Val × Val), (∀ kv ∈ pre, ∃ n, kv.1 = .str n ∧ n ∉ fs.map Field.name) →
      List.Forall₂ (fun f w => getItem e f.name (pre ++ (namesOf fs).zip ws) = some w) fs ws := by
    induction fs generalizing ws with
    | nil =>
      intro pre _
      cases ws with
      | nil => exact .nil
      | cons w ws => simp at hlen
    | cons f fs ih =>
      intro pre hpre
      cases ws with
      | nil => simp at hlen
      | cons w ws =>
        rw [List.map_cons, List.nodup_cons] at hnd
        have hskip : ∀ kv ∈ pre, e.eq kv.1 (.str f.name) = false := by
          intro kv hkv
          obtain ⟨n, hn, hnot⟩ := hpre kv hkv
          rw [hn, e.eq_str, decide_eq_false_iff_not]
          rintro rfl
          exact hnot (List.mem_cons_self ..)
        refine .cons ?_ ?_
        · have hnone : pre.find? (fun kv => e.eq kv.1 (.str f.name)) = none := by
            rw [List.find?_eq_none]
            intro kv hkv
            simp [hskip kv hkv]
          rw [getItem, List.find?_append, hnone]
          simp [namesOf, e.eq_str]
        · have hnext := ih hnd.2 (by simpa using hlen) (pre ++ [(.str f.name, w)]) (by
            intro kv hkv
            rcases List.mem_append.1 hkv with hkv | hkv
            · obtain ⟨n, hn, hnot⟩ := hpre kv hkv
              exact ⟨n, hn, fun hmem => hnot (List.mem_cons_of_mem _ hmem)⟩
            · rw [List.mem_singleton.1 hkv]
              exact ⟨f.name, rfl, hnd.1⟩)
          rw [List.append_assoc] at hnext
          exact hnext
  exact hpre [] (by simp)

theorem returns_buildField {kvs : List (Val × Val)} {f : Field} {w v : Val} (h : getItem e f.name kvs = some w) :
    Returns (fun n => buildField e (decode e n) kvs f) v ↔ Gives e w f.hint v := by
  simp only [buildField, h]
  rfl

theorem back_fields {fs : List Field} {vs : List Val} (hlen : fs.length = vs.length) :
    (∃ ws, encodeAll e vs = .ok ws ∧ List.Forall₂ (fun (p : Field × Val) v => Gives e p.2 p.1.hint v) (fs.zip ws) vs) ↔
      ∀ p ∈ fs.zip vs, Back e p.1.hint p.2 := by
  simp only [encodeAll_iff]
  induction vs generalizing fs with
  | nil =>
    constructor
    · simp
    · intro _
      refine ⟨[], .nil, ?_⟩
      rw [List.zip_nil_right]
      exact .nil
  | cons v vs ih =>
    cases fs with
    | nil => simp at hlen
    | cons f fs =>
      rw [List.zip_cons_cons, List.forall_mem_cons, ← ih (by simpa using hlen)]
      constructor
      · rintro ⟨ws, henc, hgive⟩
        cases henc with
        | cons hv hvs =>
          cases hgive with
          | cons hw hws => exact ⟨⟨_, hv, hw⟩, _, hvs, hws⟩
      · rintro ⟨⟨w, hv, hw⟩, ws, hvs, hws⟩
        exact ⟨w :: ws, .cons hv hvs, .cons hw hws⟩

/-- Field by field, the stored values are looked up by name. -/
theorem build_iff {fs : List Field} (hnd : (fs.map Field.name).Nodup) {ws vs : List Val} (hlen : fs.length = ws.length) :
    List.Forall₂ (fun f v => Returns (fun n => buildField e (decode e n) ((namesOf fs).zip ws) f) v) fs vs ↔
      List.Forall₂ (fun (p : Field × Val) v => Gives e p.2 p.1.hint v) (fs.zip ws) vs := by
  have hget := getItem_zip (e := e) hnd hlen
  generalize (namesOf fs).zip ws = kvs at hget ⊢
  clear hlen hnd
  induction hget generalizing vs with
  | nil => rw [List.zip_nil_right, List.forall₂_nil_left_iff, List.forall₂_nil_left_iff]
  | cons hf _ ih =>
    rw [List.zip_cons_cons, List.forall₂_cons_left_iff, List.forall₂_cons_left_iff]
    simp only [returns_buildField hf, ih]

theorem back_inst {cls : ℕ} {vs : List Val} (hlen : (e.classes cls).fields.length = vs.length) :
    Back e (.inst cls) (.inst cls vs) ↔ ∀ p ∈ (e.classes cls).fields.zip vs, Back e p.1.hint p.2 := by
  rw [← back_fields hlen]
  constructor
  · rintro ⟨w, henc, hgive⟩
    rw [encode] at henc
    obtain ⟨ws, hws, rfl⟩ := Raising.map_eq_ok.1 henc
    obtain ⟨us, hus, heq⟩ := gives_inst.1 hgive
    obtain rfl : vs = us := by injection heq
    have hlen' := (encodeAll_iff.1 hws).length_eq
    exact ⟨ws, hws, (build_iff (e.classes cls).nodup (by omega)).1 hus⟩
  · rintro ⟨ws, hws, hgive⟩
    have hlen' := (encodeAll_iff.1 hws).length_eq
    refine ⟨.dict ((namesOf (e.classes cls).fields).zip ws), ?_, ?_⟩
    · rw [encode, hws]
      rfl
    · exact gives_inst.2 ⟨vs, (build_iff (e.classes cls).nodup (by omega)).2 hgive, rfl⟩

/-! ## Sequences -/

theorem back_list {h : Hint} {xs : List Val} : Back e (.list h) (.list xs) ↔ ∀ x ∈ xs, Back e h x := by
  rw [← back_all]
  constructor
  · rintro ⟨w, hw, hgive⟩
    rw [encode] at hw
    obtain ⟨ys, hys, rfl⟩ := Raising.map_eq_ok.1 hw
    obtain ⟨zs, hzs, heq⟩ := (gives_list (by simp) rfl).1 hgive
    obtain rfl : xs = zs := by injection heq
    exact ⟨ys, hys, hzs⟩
  · rintro ⟨ys, hys, hgive⟩
    refine ⟨.list ys, ?_, (gives_list (by simp) rfl).2 ⟨xs, hgive, rfl⟩⟩
    rw [encode, hys]
    rfl

theorem back_tupleOf {h : Hint} {xs : List Val} : Back e (.tupleOf h) (.tuple xs) ↔ ∀ x ∈ xs, Back e h x := by
  rw [← back_all]
  constructor
  · rintro ⟨w, hw, hgive⟩
    rw [encode] at hw
    obtain ⟨ys, hys, rfl⟩ := Raising.map_eq_ok.1 hw
    obtain ⟨zs, hzs, heq⟩ := (gives_tupleOf (by simp) rfl).1 hgive
    obtain rfl : xs = zs := by injection heq
    exact ⟨ys, hys, hzs⟩
  · rintro ⟨ys, hys, hgive⟩
    refine ⟨.list ys, ?_, (gives_tupleOf (by simp) rfl).2 ⟨xs, hgive, rfl⟩⟩
    rw [encode, hys]
    rfl

theorem back_tuple {hs : List Hint} {xs : List Val} (hlen : xs.length = hs.length) :
    Back e (.tuple hs) (.tuple xs) ↔ ∀ p ∈ xs.zip hs, Back e p.2 p.1 := by
  cases hs with
  | nil =>
    obtain rfl : xs = [] := List.length_eq_zero_iff.1 hlen
    constructor
    · simp
    · intro _
      exact ⟨.list [], by rw [encode, encodeAll]; rfl, 1, rfl⟩
  | cons h hs =>
    rw [← back_zip hlen]
    constructor
    · rintro ⟨w, hw, hgive⟩
      rw [encode] at hw
      obtain ⟨ys, hys, rfl⟩ := Raising.map_eq_ok.1 hw
      obtain ⟨zs, hzs, heq⟩ := (gives_tuple (by simp) (by simp) rfl).1 hgive
      obtain rfl : xs = zs := by injection heq
      exact ⟨ys, hys, hzs⟩
    · rintro ⟨ys, hys, hgive⟩
      refine ⟨.list ys, ?_, (gives_tuple (by simp) (by simp) rfl).2 ⟨xs, hgive, rfl⟩⟩
      rw [encode, hys]
      rfl

theorem back_set {h : Hint} {xs : List Val} (hset : SetLike e xs) :
    Back e (.set h) (.set xs) ↔ (∀ ys, encodeAll e xs = .ok ys → SetLike e ys) ∧ ∀ x ∈ xs, Back e h x := by
  rw [← back_members hset]
  constructor
  · rintro ⟨w, hw, hgive⟩
    rw [encode] at hw
    obtain ⟨ys, hys, hw⟩ := Raising.bind_eq_ok.1 hw
    obtain ⟨zs, hzs, rfl⟩ := Raising.map_eq_ok.1 hw
    obtain ⟨us, us', hus, hadd, heq⟩ := (gives_set (by simp) rfl).1 hgive
    obtain rfl : xs = us' := by injection heq
    exact ⟨ys, zs, us, hys, hzs, hus, hadd⟩
  · rintro ⟨ys, zs, us, hys, hzs, hus, hadd⟩
    refine ⟨.set zs, ?_, (gives_set (by simp) rfl).2 ⟨us, xs, hus, hadd, rfl⟩⟩
    rw [encode, hys]
    change (do return Val.set (← addAll e [] ys)) = _
    rw [hzs]
    rfl

theorem back_frozenset {h : Hint} {xs : List Val} (hset : SetLike e xs) :
    Back e (.frozenset h) (.frozenset xs) ↔
      (∀ ys, encodeAll e xs = .ok ys → SetLike e ys) ∧ ∀ x ∈ xs, Back e h x := by
  rw [← back_members hset]
  constructor
  · rintro ⟨w, hw, hgive⟩
    rw [encode] at hw
    obtain ⟨ys, hys, hw⟩ := Raising.bind_eq_ok.1 hw
    obtain ⟨zs, hzs, rfl⟩ := Raising.map_eq_ok.1 hw
    obtain ⟨us, us', hus, hadd, heq⟩ := (gives_frozenset (by simp) rfl).1 hgive
    obtain rfl : xs = us' := by injection heq
    exact ⟨ys, zs, us, hys, hzs, hus, hadd⟩
  · rintro ⟨ys, zs, us, hys, hzs, hus, hadd⟩
    refine ⟨.set zs, ?_, (gives_frozenset (by simp) rfl).2 ⟨us, xs, hus, hadd, rfl⟩⟩
    rw [encode, hys]
    change (do return Val.set (← addAll e [] ys)) = _
    rw [hzs]
    rfl

/-! ## Values without parts -/

/-- A value that is stored as it is. -/
theorem back_plain {h : Hint} {v : Val} (henc : encode e v = .ok v) : Back e h v ↔ Gives e v h v := by
  constructor
  · rintro ⟨w, hw, hgive⟩
    rwa [← Except.ok.inj (henc.symm.trans hw)] at hgive
  · intro hgive
    exact ⟨v, henc, hgive⟩

/-- `bool` and the other plain types give back what they are stored as. -/
theorem back_scalar {h : Hint} {v : Val} (henc : encode e v = .ok v) (hv : v ≠ .none) (hh : h.Scalar)
    (hdec : decodeScalar e v h = .ok v) : Back e h v :=
  (back_plain henc).2 ((gives_scalar hv h hh).2 hdec)

theorem back_none (h : Hint) : Back e h .none := ⟨.none, by rw [encode], gives_none.2 rfl⟩

theorem back_std {t t' : StdType} {id : ℕ} :
    Back e (.std t) (.std t' id) ↔ e.parse t (.str (stdText e t' id)) = .ok (.std t' id) := by
  have hgive : Gives e (.str (stdText e t' id)) (.std t) (.std t' id) ↔
      e.parse t (.str (stdText e t' id)) = .ok (.std t' id) := gives_scalar (by simp) (.std t) trivial
  rw [← hgive]
  constructor
  · rintro ⟨w, hw, hgive⟩
    rw [encode] at hw
    rwa [← Except.ok.inj hw] at hgive
  · intro hgive
    exact ⟨_, by rw [encode], hgive⟩

/-- Only `None` comes from `None`. -/
theorem Back.exists_ne_none {h : Hint} {v : Val} (hb : Back e h v) (hv : v ≠ .none) :
    ∃ w, encode e v = .ok w ∧ w ≠ .none ∧ Gives e w h v := by
  obtain ⟨w, hw, hgive⟩ := hb
  refine ⟨w, hw, ?_, hgive⟩
  rintro rfl
  exact hv (gives_none.1 hgive)

theorem back_enum {c m : ℕ} {value : Val} : Back e (.enum c) (.enum c m value) ↔
    ∃ w, encode e value = .ok w ∧ w ≠ .none ∧ e.enum c w = .ok (.enum c m value) := by
  constructor
  · intro hb
    obtain ⟨w, hw, hne, hgive⟩ := hb.exists_ne_none (by simp)
    rw [encode] at hw
    exact ⟨w, hw, hne, (gives_scalar hne (.enum c) trivial).1 hgive⟩
  · rintro ⟨w, hw, hne, hcall⟩
    refine ⟨w, ?_, (gives_scalar hne (.enum c) trivial).2 hcall⟩
    rw [encode]
    exact hw

/-- `int` makes an `int`, or leaves what is there. -/
theorem decodeNumber_toInt {w v : Val} (h : decodeNumber e.toInt w = .ok v) : v = w ∨ ∃ i, v = .int i := by
  unfold decodeNumber at h
  split at h
  · exact .inl (Except.ok.inj h).symm
  · split at h
    · rename_i u hu
      obtain ⟨i, rfl⟩ := e.isInt w u hu
      exact .inr ⟨i, (Except.ok.inj h).symm⟩
    · exact .inl (Except.ok.inj h).symm
    · exact .inl (Except.ok.inj h).symm
    · cases h

/-- A member of an `Enum` that is also a `str` or an `int` is stored as its value, and stays that. -/
theorem not_back_mixin {c m : ℕ} {value : Val} : ¬ Back e .str (.enum c m value) ∧ ¬ Back e .int (.enum c m value) := by
  have hnot : ∀ w, encode e (.enum c m value) = .ok w → w ≠ .enum c m value := by
    rintro w hw rfl
    exact encode_ne_enum _ _ _ _ hw
  constructor
  · intro hb
    obtain ⟨w, hw, hne, hgive⟩ := hb.exists_ne_none (by simp)
    have hdec : decodeScalar e w .str = .ok (.enum c m value) := (gives_scalar hne .str trivial).1 hgive
    have hwv : w = .enum c m value := by
      cases w
      case str => exact Except.ok.inj hdec
      case enum c' m' v' =>
        rw [decodeScalar] at hdec
        split at hdec
        · exact Except.ok.inj hdec
        · cases hdec
      all_goals cases hdec
    exact hnot w hw hwv
  · intro hb
    obtain ⟨w, hw, hne, hgive⟩ := hb.exists_ne_none (by simp)
    have hdec : decodeNumber e.toInt w = .ok (.enum c m value) := (gives_scalar hne .int trivial).1 hgive
    rcases decodeNumber_toInt hdec with hwv | ⟨i, hi⟩
    · exact hnot w hw hwv.symm
    · cases hi

/-! ## There and back -/

/-- **A value that conforms comes back exactly when it survives.** -/
theorem back_iff {h : Hint} {v : Val} (hc : Conforms e h v) : Back e h v ↔ Survives e h v := by
  induction hc with
  | any v =>
    constructor
    · rintro ⟨w, hw, hgive⟩
      by_cases hne : w = .none
      · subst hne
        obtain rfl := gives_none.1 hgive
        exact .none _
      · have hv : w = v := Except.ok.inj ((gives_scalar hne .any trivial).1 hgive)
        subst hv
        exact .any hw
    · intro hs
      cases hs with
      | none => exact back_none _
      | any hv =>
        by_cases hne : v = .none
        · subst hne
          exact back_none _
        · exact back_scalar hv hne trivial rfl
  | noneType => exact ⟨fun _ => .none _, fun _ => back_none _⟩
  | bool b =>
    refine ⟨fun _ => .bool b, fun _ => back_scalar (by rw [encode]) (by simp) trivial ?_⟩
    rw [decodeScalar, e.truthy_bool]
  | int i =>
    refine ⟨fun _ => .int i, fun _ => back_scalar (by rw [encode]) (by simp) trivial ?_⟩
    simp only [decodeScalar, decodeNumber, e.toInt_int]
  | intBool b =>
    refine ⟨fun _ => .intBool b, fun _ => back_scalar (by rw [encode]) (by simp) trivial ?_⟩
    simp only [decodeScalar, decodeNumber]
  | float bits =>
    refine ⟨fun _ => .float bits, fun _ => back_scalar (by rw [encode]) (by simp) trivial ?_⟩
    simp only [decodeScalar, decodeNumber, e.toFloat_float]
  | str s => exact ⟨fun _ => .str s, fun _ => back_scalar (by rw [encode]) (by simp) trivial rfl⟩
  | bytes b => exact ⟨fun _ => .bytes b, fun _ => back_scalar (by rw [encode]) (by simp) trivial rfl⟩
  | std t id =>
    rw [back_std]
    constructor
    · exact .std
    · intro hs
      cases hs with
      | std h => exact h
  | dateDatetime id =>
    rw [back_std]
    constructor
    · exact .std
    · intro hs
      cases hs with
      | std h => exact h
  | strEnum m v h =>
    constructor
    · intro hb
      exact absurd hb not_back_mixin.1
    · intro hs
      cases hs
  | intEnum m v h =>
    constructor
    · intro hb
      exact absurd hb not_back_mixin.2
    · intro hs
      cases hs
  | enum c m v =>
    rw [back_enum]
    constructor
    · rintro ⟨w, hw, hne, hcall⟩
      exact .enum hw hne hcall
    · intro hs
      cases hs with
      | enum hw hne hcall => exact ⟨_, hw, hne, hcall⟩
  | inst hlen _ ih =>
    rw [back_inst hlen]
    constructor
    · intro hb
      exact .inst fun p hp => (ih p hp).1 (hb p hp)
    · intro hs
      cases hs with
      | inst h => exact fun p hp => (ih p hp).2 (h p hp)
  | list _ ih =>
    rw [back_list]
    constructor
    · intro hb
      exact .list fun x hx => (ih x hx).1 (hb x hx)
    · intro hs
      cases hs with
      | list hxs => exact fun x hx => (ih x hx).2 (hxs x hx)
  | tupleOf _ ih =>
    rw [back_tupleOf]
    constructor
    · intro hb
      exact .tupleOf fun x hx => (ih x hx).1 (hb x hx)
    · intro hs
      cases hs with
      | tupleOf hxs => exact fun x hx => (ih x hx).2 (hxs x hx)
  | tuple hlen _ ih =>
    rw [back_tuple hlen]
    constructor
    · intro hb
      exact .tuple fun p hp => (ih p hp).1 (hb p hp)
    · intro hs
      cases hs with
      | tuple hxs => exact fun p hp => (ih p hp).2 (hxs p hp)
  | set hset _ ih =>
    rw [back_set hset]
    constructor
    · rintro ⟨hapart, hb⟩
      exact .set hapart fun x hx => (ih x hx).1 (hb x hx)
    · intro hs
      cases hs with
      | set hapart hxs => exact ⟨hapart, fun x hx => (ih x hx).2 (hxs x hx)⟩
  | frozenset hset _ ih =>
    rw [back_frozenset hset]
    constructor
    · rintro ⟨hapart, hb⟩
      exact .frozenset hapart fun x hx => (ih x hx).1 (hb x hx)
    · intro hs
      cases hs with
      | frozenset hapart hxs => exact ⟨hapart, fun x hx => (ih x hx).2 (hxs x hx)⟩
  | dict hdict _ _ _ ihv =>
    rw [back_dict hdict]
    constructor
    · rintro ⟨hkeys, hk, hv⟩
      exact .dict hkeys (fun kv hkv => gives_iff.1 (hk kv hkv)) fun kv hkv => (ihv kv hkv).1 (hv kv hkv)
    · intro hs
      cases hs with
      | dict hkeys hk hv =>
        exact ⟨hkeys, fun kv hkv => gives_iff.2 (hk kv hkv), fun kv hkv => (ihv kv hkv).2 (hv kv hkv)⟩
  | @union h hs v hmem hv _ =>
    by_cases hne : v = .none
    · subst hne
      exact ⟨fun _ => .none _, fun _ => back_none _⟩
    · constructor
      · intro hb
        obtain ⟨w, hw, hwne, hgive⟩ := hb.exists_ne_none hne
        exact .union hw (taken_iff.1 ((gives_union hwne).1 hgive))
      · intro hs
        cases hs with
        | none => exact absurd rfl hne
        | @union _ _ w hw ht =>
          rw [← taken_iff] at ht
          have hwne : w ≠ .none := by
            rintro rfl
            exact hne (taken_none ht)
          exact ⟨w, hw, (gives_union hwne).2 ht⟩

end Dataclass

end OmniJsonDb
