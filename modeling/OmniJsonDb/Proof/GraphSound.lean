import Mathlib.Logic.Function.Basic
import OmniJsonDb.Proof.GraphIndex

/-!
# A store in order

What reading calls find under each key and that they leave the records alone, and what a call
that writes does to one key, unless it raises.

* `Sound`: the cache agrees, what is stored can be decoded, and what is there had room.
* `wp_read`: a record that the graph derives.
* `wp_listAt`: the list of a node.
* `Sets`, `Drops`: one record is put or deleted.
* `wp_addEntry`, `wp_removeEntry`: one entry of a list.
-/

namespace OmniJsonDb

namespace Graph

open Exec

variable {P C : Type} {cfg : Config P C} {db db' db'' : Db P C} {key : Key} {id : NodeId} {v w d : Val P}
  {o : Bool}

/-- What a look under each key finds. -/
abbrev Look (P : Type) := Key → Option (Val P)

/-- A store in order. -/
structure Sound (cfg : Config P C) (db : Db P C) : Prop where
  coherent : Coherent cfg db
  loads : ∀ key data, db.table.get? key = some data → ∃ v, cfg.loads data = .ok v
  takes : ∀ key, db.holds key = true → cfg.takes key = true

theorem Sound.get?_eq_none (hs : Sound cfg db) (h : db.look cfg key = none) : db.table.get? key = none := by
  by_contra hne
  obtain ⟨data, hdata⟩ := Option.ne_none_iff_exists'.1 hne
  obtain ⟨v, hv⟩ := hs.loads key data hdata
  rw [look_of_get? hdata hv] at h
  cases h

theorem holds_iff : db.holds key = true ↔ ∃ data, db.table.get? key = some data := OrdDict.contains_iff

theorem mem_keys : key ∈ db.table.keys ↔ db.holds key = true := by
  rw [OrdDict.mem_keys_iff]
  exact OrdDict.contains_iff.symm

theorem Sound.holds_iff_look (hs : Sound cfg db) : db.holds key = true ↔ (db.look cfg key).isSome = true := by
  rw [holds_iff, Option.isSome_iff_exists]
  constructor
  · rintro ⟨data, hdata⟩
    obtain ⟨v, hv⟩ := hs.loads key data hdata
    exact ⟨v, look_of_get? hdata hv⟩
  · rintro ⟨v, hv⟩
    obtain ⟨data, hdata, -⟩ := get?_of_look hv
    exact ⟨data, hdata⟩

/-- A store in order whose records are the same. -/
structure Same (cfg : Config P C) (db db' : Db P C) : Prop where
  sound : Sound cfg db'
  table : db'.table = db.table
  rows : db'.rows = db.rows

theorem Same.look (h : Same cfg db db') : db'.look cfg = db.look cfg := look_of_table h.table

theorem Same.holds (h : Same cfg db db') : db'.holds = db.holds := by
  funext key
  unfold Db.holds
  rw [h.table]

theorem Same.refl (hs : Sound cfg db) : Same cfg db db := ⟨hs, rfl, rfl⟩

theorem Same.trans (h : Same cfg db db') (h' : Same cfg db' db'') : Same cfg db db'' :=
  ⟨h'.sound, h'.table.trans h.table, h'.rows.trans h.rows⟩

theorem Sound.same (hs : Sound cfg db) (hc : Coherent cfg db') (ht : db'.table = db.table) (hr : db'.rows = db.rows) :
    Same cfg db db' := by
  refine ⟨⟨hc, ?_, ?_⟩, ht, hr⟩
  · rw [ht]
    exact hs.loads
  · intro key hk
    unfold Db.holds at hk
    rw [ht] at hk
    exact hs.takes key hk

/-! ## Reading -/

/-- **A derived record is read.** -/
theorem wp_read (hs : Sound cfg db) (hd : Derived key) : Wp (fRead cfg key d) db
    (fun v db' => v = (db.look cfg key).getD d ∧ Same cfg db db') fun _ _ => False := by
  have hg : db.Gives cfg key d ((db.look cfg key).getD d) := by
    cases hl : db.look cfg key with
    | some v => exact .inl hl
    | none => exact .inr ⟨hs.get?_eq_none hl, rfl⟩
  refine wp_mono (wp_gives hs.coherent hd hg) ?_ fun _ _ h => h
  rintro v db' ⟨rfl, hq⟩
  exact ⟨rfl, hs.same hq.coherent hq.table hq.rows⟩

/-- Any record can be read. -/
theorem wp_readAny (hs : Sound cfg db) (hd : ¬ Derived key) : Wp (fRead cfg key d) db
    (fun _ db' => Same cfg db db') fun _ _ => False := by
  refine wp_mono wp_fRead ?_ ?_
  · rintro v db' ⟨h, -⟩
    exact hs.same (hs.coherent.reads h fun hk => absurd hk hd) h.table h.rows
  · rintro _ _ ⟨-, data, e, hdata, he⟩
    obtain ⟨v, hv⟩ := hs.loads key data hdata
    rw [hv] at he
    cases he

/-- The list of a node. -/
def ListAt (look : Look P) (id : NodeId) (es : List (List Char)) : Prop :=
  look (adjKey id) = some (.adj es) ∨ look (adjKey id) = none ∧ es = []

theorem wp_listAt {es : List (List Char)} (hs : Sound cfg db) (hl : ListAt (db.look cfg) id es) :
    Wp (fGetAdj cfg id) db (fun es' db' => es' = es ∧ Same cfg db db') fun _ _ => False := by
  unfold fGetAdj
  rw [wp_bind]
  refine wp_mono (wp_read hs derived_adjKey) ?_ fun _ _ h => h
  rintro _ db' ⟨rfl, h⟩
  rcases hl with hl | ⟨hl, rfl⟩
  · rw [hl]
    exact ⟨rfl, h⟩
  · rw [hl]
    exact ⟨rfl, h⟩

/-! ## Writing -/

/-- A store in order where `v` has been put under `key`. -/
structure Sets (cfg : Config P C) (key : Key) (v : Val P) (db db' : Db P C) : Prop where
  sound : Sound cfg db'
  look : db'.look cfg = Function.update (db.look cfg) key (some v)

/-- A store in order where what was under `key` is gone. -/
structure Drops (cfg : Config P C) (key : Key) (db db' : Db P C) : Prop where
  sound : Sound cfg db'
  keys : db'.table.keys = db.table.keys.filter (· ≠ key)
  look : db'.look cfg = Function.update (db.look cfg) key none

theorem Put.sets (hs : Sound cfg db) (ht : cfg.takes key = true) (h : Put cfg key v db db') (hc : Coherent cfg db') :
    Sets cfg key v db db' where
  sound := by
    refine ⟨hc, ?_, ?_⟩
    · intro k data hdata
      by_cases hk : k = key
      · subst hk
        obtain ⟨data', hdata', hv⟩ := get?_of_look h.here
        obtain rfl := Option.some.inj (hdata.symm.trans hdata')
        exact ⟨v, hv⟩
      · rw [h.other k hk] at hdata
        exact hs.loads k data hdata
    · intro k hk
      by_cases hkey : k = key
      · rw [hkey]
        exact ht
      · refine hs.takes k ?_
        rw [holds_iff] at hk ⊢
        rwa [h.other k hkey] at hk
  look := by
    funext k
    by_cases hk : k = key
    · subst hk
      rw [h.here, Function.update_self]
    · rw [look_other (h.other k hk), Function.update_of_ne hk]

/-- There is no room for the key. -/
theorem wp_untaken [DecidableEq C] {Q : Bool → Db P C → Prop} (ht : cfg.takes key = false) :
    Wp (fWrite cfg key v o) db Q fun _ db' => db' = db := by
  unfold fWrite
  rw [wp_ite, ht]
  exact ⟨fun _ => rfl, fun hno => absurd rfl hno⟩

/-- **A derived record is written** where there is room for its key. -/
theorem wp_set [DecidableEq C] (hs : Sound cfg db) (hd : Derived key) (hv : v.Plain) (hst : Storable cfg v)
    (ht : cfg.takes key = true) :
    Wp (fWrite cfg key v o) db (fun _ db' => Sets cfg key v db db') fun _ _ => False := by
  refine wp_mono (wp_put hd hv hst ht (hs.coherent.but key) fun _ => hs.coherent) ?_ fun _ _ h => h
  rintro _ db' ⟨h, hc⟩
  exact h.sets hs ht hc

/-- **Properties are written**, or the write is refused and nothing changes. -/
theorem wp_setProps [DecidableEq C] (law : Lawful cfg) (hs : Sound cfg db) (hd : ¬ Derived key) :
    Wp (fWrite cfg key v o) db
      (fun b db' => (b = true ∧ ∃ w, Sets cfg key w db db') ∨ (b = false ∧ db.holds key = true ∧ Same cfg db db'))
      fun _ db' => db' = db ∧ (cfg.takes key = false ∨ ∃ e, cfg.dumps v = .error e) := by
  refine wp_mono wp_fWrite ?_ fun _ _ h => h
  rintro b db' ⟨h, -⟩
  have hc : Coherent cfg db' := hs.coherent.besides h hd
  cases b with
  | true =>
    obtain ⟨data, hdata, htable, hrows⟩ := h.wrote rfl
    obtain ⟨w, hw⟩ := law.loads v data hdata
    refine .inl ⟨rfl, w, Put.sets hs h.takes ⟨look_of_get? (show _ = some data from ?_) hw, ?_, ?_, hrows⟩ hc⟩
    · rw [htable, OrdDict.get?_set, if_pos rfl]
    · intro k hk
      rw [htable, OrdDict.get?_set, if_neg hk]
    · rw [htable]
      exact OrdDict.keys_set _ _ _
  | false =>
    obtain ⟨hin, htable, hrows, -⟩ := h.left rfl
    exact .inr ⟨rfl, hin, hs.same hc htable hrows⟩

/-- A list that was read is edited and written, unless there is no room for its key. -/
theorem wp_edit [DecidableEq C] (hs : Sound cfg db) (hd : Derived key) (hv : v.Plain) (hst : Storable cfg v) :
    Wp (do editCached key v; let _ ← fWrite cfg key v true) db
      (fun _ db' => Sets cfg key v db db') fun _ _ => cfg.takes key = false := by
  rw [wp_bind]
  refine wp_mono (wp_editCached hs.coherent) ?_ fun _ _ h => h.elim
  rintro _ db₁ ⟨htable, hrows, hc⟩
  rw [wp_bind]
  cases ht : cfg.takes key with
  | false => exact wp_mono (wp_untaken ht) (fun _ _ h => h) fun _ _ _ => rfl
  | true =>
    refine wp_mono (wp_put hd hv hst ht hc fun h => by cases h) ?_ fun _ _ h => h.elim
    rintro _ db' ⟨h, hc'⟩
    rw [wp_ret]
    have hholds : db₁.holds = db.holds := by
      funext k
      unfold Db.holds
      rw [htable]
    refine Put.sets hs ht ⟨h.here, ?_, ?_, ?_⟩ hc'
    · rw [← htable]
      exact h.other
    · rw [← htable, ← hholds]
      exact h.keys
    · rw [← hrows, ← hholds]
      exact h.rows

theorem Deleted.drops (hs : Sound cfg db) (h : Deleted key db db') : Drops cfg key db db' := by
  have hget : ∀ k, db'.table.get? k = if k = key then none else db.table.get? k := by
    intro k
    rw [h.table, OrdDict.get?_pop]
  refine ⟨⟨hs.coherent.deleted h, ?_, ?_⟩, by rw [h.table, OrdDict.keys_pop], ?_⟩
  · intro k data hdata
    rw [hget] at hdata
    split at hdata
    · cases hdata
    · exact hs.loads k data hdata
  · intro k hk
    rw [holds_iff] at hk
    obtain ⟨data, hdata⟩ := hk
    rw [hget] at hdata
    split at hdata
    · cases hdata
    · exact hs.takes k (holds_iff.2 ⟨data, hdata⟩)
  · funext k
    unfold Db.look
    rw [hget]
    by_cases hkey : k = key
    · subst hkey
      simp
    · rw [if_neg hkey, Function.update_of_ne hkey]

/-- **A record that is there is deleted.** -/
theorem wp_drop {r : Bool} (hs : Sound cfg db) (hk : db.holds key = true) :
    Wp (fDelete cfg key r) db (fun _ db' => Drops cfg key db db') fun _ _ => False := by
  obtain ⟨data, hdata⟩ := holds_iff.1 hk
  exact wp_mono (wp_fDelete hdata fun _ => hs.loads key data hdata) (fun _ _ h => h.drops hs) fun _ _ h => h

/-! ## Lists -/

theorem wp_readAdj {es : List (List Char)} (hs : Sound cfg db) (hl : ListAt (db.look cfg) id es) :
    Wp (readAdj cfg id) db (fun es' db' => es' = es ∧ Same cfg db db') fun _ _ => False := by
  unfold readAdj
  rw [wp_bind, wp_get, wp_ite]
  constructor
  · intro _
    exact wp_listAt hs hl
  · intro hno
    rw [wp_ret]
    rcases hl with hl | ⟨-, rfl⟩
    · exact absurd (hs.holds_iff_look.2 (by rw [hl]; rfl)) hno
    · exact ⟨rfl, Same.refl hs⟩

/-- **An entry that is not there is appended**, unless there is no room for the key of the list. -/
theorem wp_addEntry [DecidableEq C] (law : Lawful cfg) {es : List (List Char)} {entry : List Char} (hs : Sound cfg db)
    (hl : ListAt (db.look cfg) id es) (hno : entry ∉ es) :
    Wp (addEntry cfg id entry) db (fun _ db' => Sets cfg (adjKey id) (.adj (es ++ [entry])) db db')
      fun _ _ => cfg.takes (adjKey id) = false := by
  unfold addEntry
  rw [wp_bind]
  refine wp_mono (wp_readAdj hs hl) ?_ fun _ _ h => h.elim
  rintro _ db₁ ⟨rfl, h⟩
  rw [if_pos hno]
  refine wp_mono (wp_edit h.sound derived_adjKey trivial (law.adj _)) ?_ fun _ _ h => h
  intro _ db' h'
  exact ⟨h'.sound, by rw [h'.look, h.look]⟩

/-- **An entry that is there is removed.** -/
theorem wp_removeEntry [DecidableEq C] (law : Lawful cfg) {es : List (List Char)} {entry : List Char} (hs : Sound cfg db)
    (hl : ListAt (db.look cfg) id es) (hin : entry ∈ es) :
    Wp (removeEntry cfg id entry) db (fun _ db' => Sets cfg (adjKey id) (.adj (es.erase entry)) db db')
      fun _ _ => False := by
  unfold removeEntry
  rw [wp_bind]
  refine wp_mono (wp_readAdj hs hl) ?_ fun _ _ h => h.elim
  rintro _ db₁ ⟨rfl, h⟩
  rw [if_pos hin]
  refine wp_mono (wp_edit h.sound derived_adjKey trivial (law.adj _)) ?_ ?_
  · intro _ db' h'
    exact ⟨h'.sound, by rw [h'.look, h.look]⟩
  · -- the list is there, so there was room for its key
    intro _ _ ht
    have hheld : db.holds (adjKey id) = true := by
      rw [hs.holds_iff_look]
      rcases hl with hl | ⟨-, rfl⟩
      · rw [hl]
        rfl
      · exact absurd hin List.not_mem_nil
    rw [hs.takes _ hheld] at ht
    cases ht

/-! ## Counters -/

/-- A counter. -/
def NumAt (look : Look P) (key : Key) (n : ℕ) : Prop := look key = some (.num n) ∨ look key = none ∧ n = 0

theorem wp_readNumAt (hs : Sound cfg db) (hk : IsCounter key) {n : ℕ} (hn : NumAt (db.look cfg) key n) :
    Wp (readNum cfg key) db (fun m db' => m = n ∧ Same cfg db db') fun _ _ => False := by
  unfold readNum
  rw [wp_bind]
  refine wp_mono (wp_read hs hk.derived) ?_ fun _ _ h => h
  rintro _ db' ⟨rfl, h⟩
  rcases hn with hn | ⟨hn, rfl⟩
  · rw [hn]
    exact ⟨rfl, h⟩
  · rw [hn]
    exact ⟨rfl, h⟩

/-- A counter is written. -/
theorem wp_storeNum [DecidableEq C] (law : Lawful cfg) (hs : Sound cfg db) (hk : IsCounter key) (n : ℕ) :
    Wp (writeNum cfg key n) db (fun _ db' => Sets cfg key (.num n) db db') fun _ _ => False := by
  refine wp_mono (wp_setNum law hk n hs.coherent) ?_ fun _ _ h => h
  rintro _ db' ⟨h, hc⟩
  exact h.sets hs (law.counters key hk) hc

/-- **A counter is changed.** -/
theorem wp_count [DecidableEq C] (law : Lawful cfg) (hs : Sound cfg db) (hk : IsCounter key) {n m : ℕ} {f : ℤ → ℤ}
    (hn : NumAt (db.look cfg) key n) (hf : f n = m) : Wp (do let n ← readNum cfg key; writeNum cfg key (f n)) db
      (fun _ db' => Sets cfg key (.num m) db db') fun _ _ => False := by
  rw [wp_bind]
  refine wp_mono (wp_readNumAt hs hk hn) ?_ fun _ _ h => h
  rintro _ db₁ ⟨rfl, h₁⟩
  rw [hf]
  refine wp_mono (wp_storeNum law h₁.sound hk m) ?_ fun _ _ h => h
  intro _ db₂ h₂
  exact ⟨h₂.sound, by rw [h₂.look, h₁.look]⟩

theorem wp_raiseNum [DecidableEq C] (law : Lawful cfg) (hs : Sound cfg db) (hk : IsCounter key) {n : ℕ}
    (hn : NumAt (db.look cfg) key n) : Wp (raiseNum cfg key) db
      (fun _ db' => Sets cfg key (.num (n + 1 : ℕ)) db db') fun _ _ => False :=
  wp_count law hs hk hn (f := fun n => max n 0 + 1) (by omega)

theorem wp_lowerNum [DecidableEq C] (law : Lawful cfg) (hs : Sound cfg db) (hk : IsCounter key) {n : ℕ}
    (hn : NumAt (db.look cfg) key n) : Wp (lowerNum cfg key) db
      (fun _ db' => Sets cfg key (.num (n - 1 : ℕ)) db db') fun _ _ => False :=
  wp_count law hs hk hn (f := fun n => max 0 (n - 1)) (by omega)

end Graph

end OmniJsonDb
