import OmniJsonDb.Proof.GraphKeys

/-!
# The store under the graph

One record is read, written or deleted: what is stored, what is remembered, and what stays.

* `wp_fRead`, `wp_fWrite`, `wp_fDelete`: any record.
* `Coherent`: of the records the graph derives, what is remembered is what is stored.
* `wp_derived`, `wp_put`: a derived record is read and written.
-/

namespace OmniJsonDb

namespace Graph

open Exec

variable {P C : Type} {cfg : Config P C} {db db' : Db P C} {key : Key} {v w d : Val P} {data : C}
  {o : Bool} {p : Key → Prop}

/-- What is stored under a key, decoded. -/
def Db.look (cfg : Config P C) (db : Db P C) (key : Key) : Option (Val P) :=
  (db.table.get? key).bind fun data => (cfg.loads data).toOption

theorem look_of_table (h : db'.table = db.table) : db'.look cfg = db.look cfg := by
  funext key
  unfold Db.look
  rw [h]

theorem look_of_get? (h : db.table.get? key = some data) (hl : cfg.loads data = .ok v) : db.look cfg key = some v := by
  unfold Db.look
  rw [h, Option.bind_some, hl]
  rfl

theorem look_of_none (h : db.table.get? key = none) : db.look cfg key = none := by
  unfold Db.look
  rw [h]
  rfl

/-! ## What is remembered -/

/-- The same records; what is remembered is what was, or `v` under `key`. -/
structure Reads (cfg : Config P C) (key : Key) (v : Val P) (db db' : Db P C) : Prop where
  table : db'.table = db.table
  rows : db'.rows = db.rows
  cache : ∀ k w, db'.cache.get? k = some w → db.cache.get? k = some w ∨ cfg.cacheLimit ≠ 0 ∧ k = key ∧ w = v

/-- The same records; under `key` nothing but `v` is remembered. -/
structure Recalls (cfg : Config P C) (key : Key) (v : Val P) (db db' : Db P C) : Prop where
  table : db'.table = db.table
  rows : db'.rows = db.rows
  off : cfg.cacheLimit = 0 → db'.cache = db.cache
  here : cfg.cacheLimit ≠ 0 → ∀ w, db'.cache.get? key = some w → w = v
  other : cfg.cacheLimit ≠ 0 → ∀ k, k ≠ key → ∀ w, db'.cache.get? k = some w → db.cache.get? k = some w

theorem Recalls.reads (h : Recalls cfg key v db db') : Reads cfg key v db db' where
  table := h.table
  rows := h.rows
  cache k w hw := by
    by_cases hl : cfg.cacheLimit = 0
    · exact .inl (h.off hl ▸ hw)
    · by_cases hk : k = key
      · subst hk
        exact .inr ⟨hl, rfl, h.here hl w hw⟩
      · exact .inl (h.other hl k hk w hw)

theorem Reads.refl : Reads cfg key v db db := ⟨rfl, rfl, fun _ _ hw => .inl hw⟩

theorem Reads.touch : Reads cfg key v db { db with cache := db.cache.touch key } where
  table := rfl
  rows := rfl
  cache k w hw := .inl (by rwa [OrdDict.get?_touch] at hw)

theorem wp_updateCache : Wp (updateCache cfg key v) db (fun _ db' => Recalls cfg key v db db') fun _ _ => False := by
  unfold updateCache
  rw [wp_ite]
  constructor
  · intro hl
    exact ⟨rfl, rfl, fun _ => rfl, fun h => absurd hl h, fun h => absurd hl h⟩
  · intro hl
    rw [wp_modify]
    refine ⟨rfl, rfl, fun h => absurd h hl, ?_, ?_⟩
    · intro _ w hw
      rw [OrdDict.get?_touch, OrdDict.get?_set, if_pos rfl] at hw
      exact (Option.some.inj hw).symm
    · intro _ k hk w hw
      rw [OrdDict.get?_touch, OrdDict.get?_set, if_neg hk] at hw
      -- what is evicted is not remembered
      split at hw
      · exact OrdDict.get?_popFirst hw
      · exact hw

/-- Decoding: what is remembered, or what is stored. -/
theorem wp_decode : Wp (decode cfg key data) db
    (fun v db' => Reads cfg key v db db' ∧ (db.cache.get? key = some v ∨ cfg.loads data = .ok v))
    (fun _ db' => db' = db ∧ ∃ e, cfg.loads data = .error e) := by
  unfold decode
  rw [wp_bind, wp_get]
  split
  · rename_i v hv
    rw [wp_bind, wp_modify, wp_ret]
    refine ⟨Reads.touch, .inl ?_⟩
    split at hv
    · cases hv
    · exact hv
  · rw [wp_bind, wp_lift]
    constructor
    · intro v hv
      rw [wp_bind]
      refine wp_mono wp_updateCache ?_ fun _ _ h => h.elim
      intro _ db' h
      exact ⟨h.reads, .inr hv⟩
    · intro e he
      exact ⟨rfl, e, he⟩

/-- **A record is read.** -/
theorem wp_fRead : Wp (fRead cfg key d) db
    (fun v db' => Reads cfg key v db db' ∧
      (db.cache.get? key = some v ∨ db.look cfg key = some v ∨ db.table.get? key = none ∧ v = d ∧ db' = db))
    (fun _ db' => db' = db ∧ ∃ data e, db.table.get? key = some data ∧ cfg.loads data = .error e) := by
  unfold fRead
  rw [wp_bind, wp_get]
  split
  · rename_i v hv
    rw [wp_bind, wp_modify, wp_ret]
    exact ⟨Reads.touch, .inl hv⟩
  · split
    · rename_i hk
      rw [wp_ret]
      exact ⟨Reads.refl, .inr (.inr ⟨hk, rfl, rfl⟩)⟩
    · rename_i data hk
      refine wp_mono wp_decode ?_ ?_
      · rintro v db' ⟨h, hv⟩
        refine ⟨h, ?_⟩
        rcases hv with hv | hv
        · exact .inl hv
        · exact .inr (.inl (look_of_get? hk hv))
      · rintro _ db' ⟨h, e, he⟩
        exact ⟨h, data, e, hk, he⟩

/-! ## Writing -/

/-- What a write that returns has done. -/
structure Stored (cfg : Config P C) (key : Key) (v : Val P) (db : Db P C) (b : Bool) (db' : Db P C) : Prop where
  takes : cfg.takes key = true
  /-- It stored `v`. -/
  wrote : b = true → ∃ data, cfg.dumps v = .ok data ∧ db'.table = db.table.set key data ∧
    db'.rows = if db.holds key then db.rows else db.rows ++ [key]
  /-- It left a record that is `v` already. -/
  left : b = false → db.holds key = true ∧ db'.table = db.table ∧ db'.rows = db.rows ∧
    ((∃ w, db.cache.get? key = some w ∧ w.same cfg v = true) ∨
      ∃ data, db.table.get? key = some data ∧ cfg.dumps v = .ok data)
  off : cfg.cacheLimit = 0 → db'.cache = db.cache
  here : cfg.cacheLimit ≠ 0 → ∀ w, db'.cache.get? key = some w → w = v ∨ b = false ∧ db.cache.get? key = some w
  other : cfg.cacheLimit ≠ 0 → ∀ k, k ≠ key → ∀ w, db'.cache.get? k = some w → db.cache.get? k = some w

theorem cachedSame_eq_true (h : cachedSame cfg db key v o = some true) :
    o = false ∧ ∃ w, db.cache.get? key = some w ∧ w.same cfg v = true := by
  unfold cachedSame at h
  split at h
  · cases h
  · rename_i ho
    rw [Option.map_eq_some_iff] at h
    exact ⟨by simpa using (not_or.1 ho).1, h⟩

/-- **A record is written**, or the write is refused and nothing changes. -/
theorem wp_fWrite [DecidableEq C] : Wp (fWrite cfg key v o) db (fun b db' => Stored cfg key v db b db' ∧ (o = true → b = true))
    (fun _ db' => db' = db ∧ (cfg.takes key = false ∨ ∃ e, cfg.dumps v = .error e)) := by
  unfold fWrite
  rw [wp_ite]
  constructor
  · intro ht
    exact ⟨rfl, .inl (by simpa using ht)⟩
  · intro ht
    have ht : cfg.takes key = true := by simpa using ht
    rw [wp_bind, wp_get]
    split
    · rename_i old hold
      have hin : db.holds key = true := by
        unfold Db.holds
        exact OrdDict.contains_iff.2 ⟨old, hold⟩
      split
      · rename_i hsame
        obtain ⟨ho, w, hw, hwv⟩ := cachedSame_eq_true hsame
        rw [wp_bind, wp_modify, wp_ret]
        refine ⟨⟨ht, fun h => (by cases h), fun _ => ⟨hin, rfl, rfl, .inl ⟨w, hw, hwv⟩⟩, ?_, ?_, ?_⟩, ?_⟩
        · intro hl
          unfold cachedSame at hsame
          rw [if_pos (.inr hl)] at hsame
          cases hsame
        · intro _ w' hw'
          rw [OrdDict.get?_touch] at hw'
          exact .inr ⟨rfl, hw'⟩
        · intro _ k _ w' hw'
          rwa [OrdDict.get?_touch] at hw'
        · intro ho'
          rw [ho] at ho'
          cases ho'
      · rw [wp_bind, wp_lift]
        constructor
        · intro data hdata
          rw [wp_ite]
          constructor
          · intro hkeep
            simp only [Bool.and_eq_true, decide_eq_true_eq] at hkeep
            obtain ⟨⟨ho, -⟩, rfl⟩ := hkeep
            rw [wp_bind]
            refine wp_mono wp_updateCache ?_ fun _ _ h => h.elim
            intro _ db' h
            refine ⟨⟨ht, fun hb => (by cases hb), fun _ => ⟨hin, h.table, h.rows, .inr ⟨_, hold, hdata⟩⟩, h.off, ?_,
              h.other⟩, ?_⟩
            · intro hl w hw
              exact .inl (h.here hl w hw)
            · intro ho'
              rw [ho'] at ho
              cases ho
          · intro _
            rw [wp_bind, wp_modify, wp_bind]
            refine wp_mono wp_updateCache ?_ fun _ _ h => h.elim
            intro _ db' h
            refine ⟨⟨ht, fun _ => ⟨data, hdata, h.table, ?_⟩, fun hb => (by cases hb), h.off, ?_, h.other⟩, fun _ => rfl⟩
            · rw [if_pos hin]
              exact h.rows
            · intro hl w hw
              exact .inl (h.here hl w hw)
        · intro e he
          exact ⟨rfl, .inr ⟨e, he⟩⟩
    · rename_i hnone
      have hout : db.holds key = false := by
        unfold Db.holds OrdDict.contains
        rw [hnone]
        rfl
      rw [wp_bind, wp_lift]
      constructor
      · intro data hdata
        rw [wp_bind]
        refine wp_mono wp_updateCache ?_ fun _ _ h => h.elim
        intro _ db' h
        rw [wp_bind, wp_modify, wp_ret]
        refine ⟨⟨ht, fun _ => ⟨data, hdata, ?_, ?_⟩, fun hb => (by cases hb), h.off, ?_, h.other⟩, fun _ => rfl⟩
        · rw [h.table]
        · rw [hout, h.rows]
          rfl
        · intro hl w hw
          exact .inl (h.here hl w hw)
      · intro e he
        exact ⟨rfl, .inr ⟨e, he⟩⟩

/-! ## Deleting -/

/-- What a deletion has done. -/
structure Deleted (key : Key) (db db' : Db P C) : Prop where
  table : db'.table = db.table.pop key
  rows : db'.rows = dropRow db.rows key
  cache : db'.cache = db.cache.pop key

/-- **A record is deleted.** -/
theorem wp_fDelete {r : Bool} (hk : db.table.get? key = some data) (hl : r = true → ∃ v, cfg.loads data = .ok v) :
    Wp (fDelete cfg key r) db (fun _ db' => Deleted key db db') fun _ _ => False := by
  unfold fDelete
  rw [wp_bind, wp_modify, wp_bind, wp_get]
  simp only [hk]
  cases r with
  | false =>
    simp only [wp_bind, wp_ret, wp_modify, Bool.false_eq_true, if_false]
    exact ⟨rfl, rfl, rfl⟩
  | true =>
    obtain ⟨v, hv⟩ := hl rfl
    simp only [wp_bind, wp_map, if_true, wp_lift, hv]
    constructor
    · intro a _
      exact ⟨rfl, rfl, rfl⟩
    · intro e he
      cases he

/-! ## Records the graph derives -/

/-- Adjacency lists and counters. -/
def Derived (key : Key) : Prop := key.head? = some 'X' ∨ key.head? = some '#'

instance : Decidable (Derived key) := by unfold Derived; infer_instance

/-- What the graph derives is never a property. -/
def Val.Plain : Val P → Prop
  | .props _ => False
  | .adj _ => True
  | .num _ => True

theorem Val.same_eq (hv : v.Plain) (h : w.same cfg v = true) : w = v := by
  cases v with
  | props _ => exact hv.elim
  | adj b =>
    cases w with
    | adj a => simpa [Val.same] using h
    | _ => simp [Val.same] at h
  | num n =>
    cases w with
    | num m => simpa [Val.same] using h
    | _ => simp [Val.same] at h

/-- Of the records in `p`, what is remembered is what is stored. -/
structure CoherentOn (cfg : Config P C) (p : Key → Prop) (db : Db P C) : Prop where
  off : cfg.cacheLimit = 0 → ∀ k, db.cache.get? k = none
  on : ∀ k, p k → ∀ v, db.cache.get? k = some v → db.look cfg k = some v

/-- The cache agrees with the store on what the graph derives. -/
abbrev Coherent (cfg : Config P C) (db : Db P C) : Prop := CoherentOn cfg Derived db

/-- All but what is being edited. -/
abbrev CoherentBut (cfg : Config P C) (key : Key) (db : Db P C) : Prop := CoherentOn cfg (fun k => Derived k ∧ k ≠ key) db

theorem Coherent.but (h : Coherent cfg db) (key : Key) : CoherentBut cfg key db :=
  ⟨h.off, fun k hk => h.on k hk.1⟩

/-- Reading keeps the cache in agreement. -/
theorem CoherentOn.reads (hc : CoherentOn cfg p db) (h : Reads cfg key v db db')
    (hv : p key → db.look cfg key = some v) : CoherentOn cfg p db' where
  off hl k := by
    rw [Option.eq_none_iff_forall_ne_some]
    intro w hw
    rcases h.cache k w hw with hw | ⟨hl', -⟩
    · rw [hc.off hl k] at hw
      cases hw
    · exact hl' hl
  on k hk w hw := by
    rw [look_of_table h.table]
    rcases h.cache k w hw with hw | ⟨-, rfl, rfl⟩
    · exact hc.on k hk w hw
    · exact hv hk

/-- What a read gives: what is stored, or the default. -/
def Db.Gives (cfg : Config P C) (db : Db P C) (key : Key) (d v : Val P) : Prop :=
  db.look cfg key = some v ∨ db.table.get? key = none ∧ v = d

theorem Db.Gives.unique (h : db.Gives cfg key d v) (h' : db.Gives cfg key d w) : v = w := by
  rcases h with h | ⟨hnone, rfl⟩ <;> rcases h' with h' | ⟨hnone', rfl⟩
  · rw [h] at h'
    exact Option.some.inj h'
  · rw [look_of_none hnone'] at h
    cases h
  · rw [look_of_none hnone] at h'
    cases h'
  · rfl

/-- The same records, and a cache that agrees with them. -/
structure Quiet (cfg : Config P C) (db db' : Db P C) : Prop where
  table : db'.table = db.table
  rows : db'.rows = db.rows
  coherent : Coherent cfg db'

/-- **A derived record is read.** -/
theorem wp_gives (hc : Coherent cfg db) (hd : Derived key) (hv : db.Gives cfg key d v) : Wp (fRead cfg key d) db
    (fun v' db' => v' = v ∧ Quiet cfg db db') fun _ _ => False := by
  refine wp_mono wp_fRead ?_ ?_
  · rintro v' db' ⟨h, hv'⟩
    have hlook : db.table.get? key = none ∧ v' = d ∧ db' = db ∨ db.look cfg key = some v' := by
      rcases hv' with hv' | hv' | hv'
      · exact .inr (hc.on key hd v' hv')
      · exact .inr hv'
      · exact .inl hv'
    rcases hlook with ⟨hnone, rfl, rfl⟩ | hlook
    · refine ⟨?_, rfl, rfl, hc⟩
      rcases hv with hv | ⟨-, rfl⟩
      · rw [look_of_none hnone] at hv
        cases hv
      · rfl
    · refine ⟨?_, h.table, h.rows, hc.reads h fun _ => hlook⟩
      rcases hv with hv | ⟨hnone, -⟩
      · rw [hlook] at hv
        exact Option.some.inj hv
      · rw [look_of_none hnone] at hlook
        cases hlook
  · rintro _ db' ⟨-, data, e, hk, he⟩
    exfalso
    rcases hv with hv | ⟨hnone, -⟩
    · unfold Db.look at hv
      rw [hk, Option.bind_some, he] at hv
      cases hv
    · rw [hk] at hnone
      cases hnone

/-- A counter that reads as `n`. -/
abbrev Db.Counts (cfg : Config P C) (db : Db P C) (key : Key) (n : ℤ) : Prop := db.Gives cfg key (.num 0) (.num n)

/-- A node whose list reads as `entries`. -/
abbrev Db.Lists (cfg : Config P C) (db : Db P C) (id : NodeId) (entries : List (List Char)) : Prop :=
  db.Gives cfg (adjKey id) (.adj []) (.adj entries)

theorem derived_adjKey {id : NodeId} : Derived (adjKey id) := .inl rfl

theorem wp_fGetAdj {id : NodeId} {entries : List (List Char)} (hc : Coherent cfg db) (hl : db.Lists cfg id entries) :
    Wp (fGetAdj cfg id) db (fun es db' => es = entries ∧ Quiet cfg db db') fun _ _ => False := by
  unfold fGetAdj
  rw [wp_bind]
  refine wp_mono (wp_gives hc derived_adjKey hl) ?_ fun _ _ h => h
  rintro _ db' ⟨rfl, h⟩
  exact ⟨rfl, h⟩

/-- A value is coded and comes back. -/
def Storable (cfg : Config P C) (v : Val P) : Prop := ∃ data, cfg.dumps v = .ok data ∧ cfg.loads data = .ok v

/-- `v` is under `key`, and nothing else has changed. -/
structure Put (cfg : Config P C) (key : Key) (v : Val P) (db db' : Db P C) : Prop where
  here : db'.look cfg key = some v
  other : ∀ k, k ≠ key → db'.table.get? k = db.table.get? k
  keys : db'.table.keys = if db.holds key then db.table.keys else db.table.keys ++ [key]
  rows : db'.rows = if db.holds key then db.rows else db.rows ++ [key]

theorem look_other {k : Key} (h : db'.table.get? k = db.table.get? k) : db'.look cfg k = db.look cfg k := by
  unfold Db.look
  rw [h]

/-- What is remembered after a write that stored what it should. -/
theorem CoherentOn.stored {b : Bool} (hc : CoherentBut cfg key db) (h : Stored cfg key v db b db')
    (hb : b = false → ∀ w, db.cache.get? key = some w → w = v) (hp : Put cfg key v db db') : Coherent cfg db' where
  off hl k := by rw [h.off hl]; exact hc.off hl k
  on k hk w hw := by
    by_cases hl : cfg.cacheLimit = 0
    · rw [h.off hl, hc.off hl k] at hw
      cases hw
    · by_cases hkey : k = key
      · subst hkey
        rcases h.here hl w hw with rfl | ⟨hbf, hold⟩
        · exact hp.here
        · rw [hb hbf w hold]
          exact hp.here
      · rw [look_other (hp.other k hkey)]
        exact hc.on k ⟨hk, hkey⟩ w (h.other hl k hkey w hw)

/-- **A derived record is written**: it is there, and nothing else has changed. -/
theorem wp_put [DecidableEq C] (hd : Derived key) (hv : v.Plain) (hs : Storable cfg v) (ht : cfg.takes key = true)
    (hc : CoherentBut cfg key db) (ho : o = false → Coherent cfg db) : Wp (fWrite cfg key v o) db
    (fun _ db' => Put cfg key v db db' ∧ Coherent cfg db') fun _ _ => False := by
  obtain ⟨data, hdumps, hloads⟩ := hs
  refine wp_mono wp_fWrite ?_ ?_
  · rintro b db' ⟨h, hob⟩
    cases b with
    | true =>
      obtain ⟨data', hdata', htable, hrows⟩ := h.wrote rfl
      obtain rfl : data = data' := by
        rw [hdumps] at hdata'
        exact Except.ok.inj hdata'
      have hp : Put cfg key v db db' := by
        refine ⟨look_of_get? (show _ = some data from ?_) hloads, ?_, ?_, hrows⟩
        · rw [htable, OrdDict.get?_set, if_pos rfl]
        · intro k hk
          rw [htable, OrdDict.get?_set, if_neg hk]
        · rw [htable]
          exact OrdDict.keys_set _ _ _
      exact ⟨hp, hc.stored h (fun hb => by cases hb) hp⟩
    | false =>
      obtain ⟨hin, htable, hrows, hsame⟩ := h.left rfl
      have ho' : o = false := by
        cases o with
        | false => rfl
        | true => cases hob rfl
      have hc' := ho ho'
      have hlook : db.look cfg key = some v := by
        rcases hsame with ⟨w, hw, hwv⟩ | ⟨data', hdata', hdumps'⟩
        · obtain rfl := Val.same_eq hv hwv
          exact hc'.on key hd w hw
        · rw [hdumps] at hdumps'
          obtain rfl := Except.ok.inj hdumps'
          exact look_of_get? hdata' hloads
      have hp : Put cfg key v db db' := by
        refine ⟨?_, ?_, ?_, ?_⟩
        · rw [look_of_table htable]
          exact hlook
        · intro k _
          rw [htable]
        · rw [if_pos hin, htable]
        · rw [if_pos hin, hrows]
      refine ⟨hp, hc.stored h (fun _ w hw => ?_) hp⟩
      have := hc'.on key hd w hw
      rw [hlook] at this
      exact (Option.some.inj this).symm
  · rintro _ db' ⟨-, h⟩
    rcases h with h | ⟨e, h⟩
    · rw [h] at ht
      cases ht
    · rw [hdumps] at h
      cases h

theorem wp_writeNum [DecidableEq C] {n : ℤ} (hd : Derived key) (hs : Storable cfg (.num n)) (ht : cfg.takes key = true)
    (hc : Coherent cfg db) : Wp (writeNum cfg key n) db (fun _ db' => Put cfg key (.num n) db db' ∧ Coherent cfg db')
      fun _ _ => False := by
  unfold writeNum
  rw [wp_map]
  exact wp_put hd trivial hs ht (hc.but key) fun _ => hc

/-- Deleting keeps the cache in agreement. -/
theorem CoherentOn.deleted (hc : CoherentOn cfg p db) (h : Deleted key db db') : CoherentOn cfg p db' where
  off hl k := by
    rw [h.cache, OrdDict.get?_pop]
    split
    · rfl
    · exact hc.off hl k
  on k hk w hw := by
    rw [h.cache] at hw
    obtain ⟨hne, hw⟩ := OrdDict.get?_pop_some hw
    have hsame : db'.table.get? k = db.table.get? k := by
      rw [h.table, OrdDict.get?_pop, if_neg hne]
    rw [look_other hsame]
    exact hc.on k hk w hw

/-- Writing something else keeps it too. -/
theorem CoherentOn.besides {b : Bool} (hc : Coherent cfg db) (h : Stored cfg key v db b db') (hd : ¬ Derived key) :
    Coherent cfg db' where
  off hl k := by rw [h.off hl]; exact hc.off hl k
  on k hk w hw := by
    have hne : k ≠ key := fun hkey => hd (hkey ▸ hk)
    have hsame : db'.table.get? k = db.table.get? k := by
      cases b with
      | true =>
        obtain ⟨data, -, htable, -⟩ := h.wrote rfl
        rw [htable, OrdDict.get?_set, if_neg hne]
      | false => rw [(h.left rfl).2.1]
    rw [look_other hsame]
    by_cases hl : cfg.cacheLimit = 0
    · rw [h.off hl, hc.off hl k] at hw
      cases hw
    · exact hc.on k hk w (h.other hl k hne w hw)

/-- An edit of what is remembered leaves the rest in agreement. -/
theorem wp_editCached (hc : Coherent cfg db) : Wp (editCached key v) db
    (fun _ db' => db'.table = db.table ∧ db'.rows = db.rows ∧ CoherentBut cfg key db') fun _ _ => False := by
  unfold editCached
  rw [wp_modify]
  split
  · rename_i hin
    refine ⟨rfl, rfl, ?_, ?_⟩
    · intro hl
      obtain ⟨w, hw⟩ := OrdDict.contains_iff.1 hin
      rw [hc.off hl key] at hw
      cases hw
    · intro k hk w hw
      rw [OrdDict.get?_set, if_neg hk.2] at hw
      exact hc.on k hk.1 w hw
  · exact ⟨rfl, rfl, hc.but key⟩

/-! ## What the store is good for -/

/-- The three counters' keys. -/
def IsCounter (key : Key) : Prop := key = N_NODES ∨ key = N_EDGES ∨ key = N_DIRECTED

theorem IsCounter.derived (hk : IsCounter key) : Derived key := by
  rcases hk with rfl | rfl | rfl <;> exact .inr rfl

/-- Lists of entries and natural numbers are coded and come back, and what is coded can be decoded.
There is room for the list of a node that has room, for the ends of an edge that has room, and for
the counters. -/
structure Lawful (cfg : Config P C) : Prop where
  adj : ∀ entries, Storable cfg (.adj entries)
  num : ∀ n : ℕ, Storable cfg (.num n)
  loads : ∀ v data, cfg.dumps v = .ok data → ∃ w, cfg.loads data = .ok w
  list : ∀ id, cfg.takes (nodeKey id) = true → cfg.takes (adjKey id) = true
  ends : ∀ key u d v, edgeOf key = some (u, d, v) → cfg.takes key = true →
    cfg.takes (nodeKey u) = true ∧ cfg.takes (nodeKey v) = true
  counters : ∀ key, IsCounter key → cfg.takes key = true

/-- A counter is set. -/
theorem wp_setNum [DecidableEq C] (law : Lawful cfg) (hk : IsCounter key) (n : ℕ) (hc : Coherent cfg db) :
    Wp (writeNum cfg key n) db (fun _ db' => Put cfg key (.num n) db db' ∧ Coherent cfg db') fun _ _ => False :=
  wp_writeNum hk.derived (law.num n) (law.counters key hk) hc

/-- A store that keeps values as they are; properties are sets of numbers. -/
def asIs : Config (List ℕ) (Val (List ℕ)) where
  empty := []
  isDict _ := true
  merge old new := old ++ new.filter (· ∉ old)
  same a b := a = b
  dumps v := .ok v
  loads data := .ok data
  takes _ := true
  cacheLimit := 0

theorem asIs_lawful : Lawful asIs where
  adj _ := ⟨_, rfl, rfl⟩
  num _ := ⟨_, rfl, rfl⟩
  loads _ data _ := ⟨data, rfl⟩
  list _ _ := rfl
  ends _ _ _ _ _ _ := ⟨rfl, rfl⟩
  counters _ _ := rfl

end Graph

end OmniJsonDb
