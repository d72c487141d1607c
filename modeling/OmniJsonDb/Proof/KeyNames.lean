import OmniJsonDb.Proof.Index

/-!
# The key `write_key` stores

* `encodeKey_key`: when the row that is encoded has the key that was given.
* `readKey_putKey`, `keyIter_putKey`: what was put is read back under its name.
* `storesKey_iff`: when `write_key` returns and the row has the key it was given.
-/

namespace OmniJsonDb

namespace JIo

variable {cfg : Config} {io : JIo} {r : ℕ} {a : KeyArgs}

/-! ## Encoding -/

theorem key_of_packRow {row : Row} {k : KeyRec} (h : packRow row = .ok k) : (unpackRow k).key = row.key := by
  unfold packRow at h
  split at h
  · cases h
  · cases h
    rfl

/-- A key that is cut is another one, unless it is empty. -/
theorem stripKey_key {table : OrdDict Key (ℕ × ℕ)} {row row' : Row} {excess n : ℕ} {k : KeyRec} (hpos : 0 < excess)
    (h : stripKey cfg table row excess = .ok (row', k, n)) :
    (unpackRow k).key = row'.key ∧ (row'.key = row.key ↔ row.key = []) := by
  have hcut : ∀ m, (row.key.take (row.key.length - excess)).take m = row.key ↔ row.key = [] := by
    intro m
    constructor
    · intro he
      have hlen := congrArg List.length he
      rw [List.length_take, List.length_take] at hlen
      exact List.length_eq_zero_iff.1 (by omega)
    · intro he
      simp [he]
  have hfirst : row.key.take (row.key.length - excess) = row.key ↔ row.key = [] := by
    have := hcut row.key.length
    rwa [List.take_of_length_le (by rw [List.length_take]; omega)] at this
  unfold stripKey at h
  simp only at h
  split at h
  · cases h
  · rename_i k₁ n₁ h₁
    split at h
    · cases h
      exact ⟨key_of_packRow (cfg.keyDumps_pack _ _ _ h₁), hfirst⟩
    · split at h
      · cases h
      · rename_i k₂ n₂ h₂
        split at h
        · cases h
          exact ⟨key_of_packRow (cfg.keyDumps_pack _ _ _ h₂), hcut 1⟩
        · cases h

/-- The row fits an index of the greatest width, or the one there is; or there is nothing to cut. -/
def KeyFits (io : JIo) (a : KeyArgs) (n : ℕ) : Prop := n + 1 ≤ max MAX_INDEX_SIZE io.indexSize ∨ a.key = []

/-- A row that fits is encoded as it is. -/
theorem encodeKey_fits {k : KeyRec} {n : ℕ} (hk : cfg.keyDumps (normal io.now io.cnt.syncId a) = .ok (k, n))
    (hf : KeyFits io a n) : io.encodeKey cfg a = .ok (normal io.now io.cnt.syncId a, k, n) := by
  unfold encodeKey
  simp only [hk]
  by_cases hlong : MAX_INDEX_SIZE < n + 1 ∧ io.indexSize < n + 1
  · have hnil : a.key = [] := hf.resolve_left (by omega)
    have hrow : ({ normal io.now io.cnt.syncId a with key := [] } : Row) = normal io.now io.cnt.syncId a := by
      unfold normal
      simp only [hnil]
    have hcut : (normal io.now io.cnt.syncId a).key.take ((normal io.now io.cnt.syncId a).key.length -
        (n + 1 - io.indexSize)) = [] := by
      have hkey : (normal io.now io.cnt.syncId a).key = [] := hnil
      rw [hkey, List.take_nil]
    rw [if_pos hlong]
    unfold stripKey
    simp only [hcut, hrow, hk]
    rw [if_pos (.inr trivial)]
  · rw [if_neg hlong]

/-- **The row that is encoded**: it is stored under its key, which is the one that was given only if
the row fits. -/
theorem encodeKey_key {row : Row} {k : KeyRec} {n : ℕ} (h : io.encodeKey cfg a = .ok (row, k, n)) :
    (unpackRow k).key = row.key ∧ ∃ k₀ n₀, cfg.keyDumps (normal io.now io.cnt.syncId a) = .ok (k₀, n₀) ∧
      (row.key = a.key → KeyFits io a n₀) := by
  unfold encodeKey at h
  simp only at h
  split at h
  · cases h
  · rename_i k₀ n₀ hk
    split at h
    · obtain ⟨hkey, hcut⟩ := stripKey_key (by omega) h
      exact ⟨hkey, k₀, n₀, hk, fun he => .inr (hcut.1 he)⟩
    · cases h
      refine ⟨key_of_packRow (cfg.keyDumps_pack _ _ _ hk), k, n, hk, fun _ => .inl ?_⟩
      omega

/-! ## Writing -/

/-- The index before it grows: a line not written yet is filled. -/
def filled (io : JIo) (r : ℕ) : JIo := if io.cnt.nLines ≤ r + 1 then io.putRec r emptyRec else io

/-- The index can be made wide enough for `n` bytes: `resize_keys` returns. -/
def Widens (cfg : Config) (io : JIo) (r n : ℕ) : Prop :=
  io.indexSize < n + 1 → ∃ io', (resizeKeys cfg (n + 1)).run (io.filled r) = (.ok (), io')

/-- **What `write_key` does**, in one step. -/
theorem run_writeKey (cfg : Config) (io : JIo) (r : ℕ) (a : KeyArgs) : (writeKey cfg r a).run io =
    match io.encodeKey cfg a with
    | .error e => (.error e, io)
    | .ok (row, k, n) =>
      match if io.indexSize < n + 1 then (resizeKeys cfg (n + 1)).run (io.filled r) else (.ok (), io) with
      | (.error e, io₁) => (.error e, io₁)
      | (.ok (), io₁) => (.ok (putKey r row k io₁).indexSize, putKey r row k io₁) := by
  unfold writeKey Exec.run filled
  simp only [Bind.bind, Exec.bind, Exec.get, Exec.lift]
  cases io.encodeKey cfg a with
  | error e => rfl
  | ok e =>
    obtain ⟨row, k, n⟩ := e
    simp only
    by_cases hn : io.indexSize < n + 1
    · by_cases hl : io.cnt.nLines ≤ r + 1
      · simp only [if_pos hn, if_pos hl]
        rcases hres : resizeKeys cfg (n + 1) (io.putRec r emptyRec) with ⟨e | u, io₁⟩
        · simp only [Exec.bind, Exec.modify, hres]
        · simp only [Exec.bind, Exec.modify, hres]
          rfl
      · simp only [if_pos hn, if_neg hl]
        rcases hres : resizeKeys cfg (n + 1) io with ⟨e | u, io₁⟩
        · simp only [Exec.bind, hres]
        · simp only [Exec.bind, Exec.modify, hres]
          rfl
    · simp only [if_neg hn]
      rfl

/-- Reading keeps the counters. -/
theorem cnt_readKey (c : Counters) (r : ℕ) : Exec.Maintains (fun io : JIo => io.cnt = c) (readKey r) := by
  unfold readKey
  refine .bind (.modify fun _ h => h) fun _ => .bind .get fun io₁ => ?_
  split
  · exact .bind (.modify fun _ h => h) fun _ => .pure _
  · refine .bind (.lift _) fun _ => .bind (.modify fun io₂ h => ?_) fun _ => .pure _
    split <;> exact h

theorem cnt_readKeys (c : Counters) (m : ℕ) : ∀ r, Exec.Maintains (fun io : JIo => io.cnt = c) (readKeys r m) := by
  induction m with
  | zero => exact fun _ => .pure _
  | succ m ih => exact fun r => .bind (cnt_readKey c r) fun _ => .bind (ih (r + 1)) fun _ => .pure _

/-- So does rewriting the index at another width. -/
theorem cnt_resizeKeys (c : Counters) (size : ℕ) :
    Exec.Maintains (fun io : JIo => io.cnt = c) (resizeKeys cfg size) := by
  unfold resizeKeys
  refine .bind .get fun io => .ite (.pure _) ?_
  refine .bind (cnt_readKeys c _ 0) fun rows => .bind (.lift _) fun ks => .bind (.modify fun _ h => h) fun _ => ?_
  exact .modify fun _ h => h

/-- Where it returns, the rows have the new width. -/
theorem wp_resizeKeys_width (size : ℕ) (io : JIo) :
    Exec.Wp (resizeKeys cfg size) io (fun _ io' => io'.indexSize = align8 size) fun _ _ => True := by
  unfold resizeKeys
  rw [Exec.wp_bind, Exec.wp_get, Exec.wp_ite]
  constructor
  · intro heq
    exact heq.symm
  · intro _
    rw [Exec.wp_bind]
    refine Exec.wp_mono (Exec.wp_of_run (fun _ _ _ => trivial) fun _ _ _ => trivial) (fun rows io₁ _ => ?_)
      fun _ _ _ => trivial
    rw [Exec.wp_bind, Exec.wp_lift]
    exact ⟨fun ks _ => rfl, fun _ _ => trivial⟩

theorem align8_le_block {n : ℕ} : align8 n ≤ 2 ^ 22 ↔ n ≤ 2 ^ 22 := by
  unfold align8
  split <;> omega

/-! ## Reading back -/

/-- The row `r` has the name `key`, whether it is read by itself or with the others. -/
def KeyStored (io : JIo) (r : ℕ) (key : Key) : Prop :=
  (∃ row io', (readKey r).run io = (.ok row, io') ∧ row.key = key) ∧
    (io.keyIter r (r + 1)).map (fun e => (e.1, e.2.key)) = [(r, key)]

theorem cnt_putKey (r : ℕ) (row : Row) (k : KeyRec) (io : JIo) : (putKey r row k io).cnt = io.cnt := by
  unfold putKey
  simp only
  split
  · rfl
  · split <;> rfl

theorem rows_putKey (r : ℕ) (row : Row) (k : KeyRec) (io : JIo) : (putKey r row k io).files.rows r = k := by
  have hput : ((io.forget r).putRec r k).files.rows r = k := by simp [putRec]
  unfold putKey
  simp only
  split
  · exact hput
  · split <;> exact hput

/-- Of a row that was put only itself is remembered. -/
theorem keyRows_putKey {row row' : Row} {k : KeyRec} (h : (putKey r row k io).keyRows.get? r = some row') :
    row' = row := by
  have hforget : ((io.forget r).putRec r k).keyRows.get? r = none := by
    change (io.keyRows.pop r).get? r = none
    rw [OrdDict.get?_pop, if_pos rfl]
  unfold putKey at h
  simp only at h
  split at h
  · have hset := OrdDict.get?_keepLast h
    rw [OrdDict.get?_set, if_pos rfl] at hset
    exact (Option.some.inj hset).symm
  · split at h
    · exact absurd (hforget.symm.trans h) (by simp)
    · exact absurd (hforget.symm.trans h) (by simp)

/-- **What was put is read back under its name**, unless a row is wider than a block. -/
theorem keyStored_putKey {row : Row} {k : KeyRec} (hr : r < io.cnt.nLines) (hk : (unpackRow k).key = row.key)
    (key : Key) : KeyStored (putKey r row k io) r key ↔ row.key = key ∧ io.indexSize ≤ 2 ^ 22 := by
  have hlines : r < (putKey r row k io).cnt.nLines := by
    rw [cnt_putKey]
    exact hr
  have hread : Exec.Wp (readKey r) (putKey r row k io) (fun row' _ => row'.key = row.key) fun _ _ => False := by
    unfold readKey
    simp only [Exec.wp_bind, Exec.wp_modify, Exec.wp_get]
    split
    · rename_i info hinfo
      rw [keyRows_putKey hinfo]
      rfl
    · simp only [Exec.wp_bind, Exec.wp_lift, stored?, if_pos hlines]
      refine ⟨fun info hinfo => ?_, fun e he => by cases he⟩
      cases hinfo
      rw [rows_putKey]
      exact hk
  obtain ⟨row', io', hrun, hkey⟩ := hread.returns
  have hone : min (r + 1) (putKey r row k io).cnt.nLines - r = 1 := by omega
  have hiter : ((putKey r row k io).keyIter r (r + 1)).map (fun e => (e.1, e.2.key)) =
      if 2 ^ 22 < io.indexSize then [] else [(r, row.key)] := by
    unfold keyIter
    rw [indexSize_putKey, hone, List.range'_one]
    split
    · rfl
    · rw [List.map_map, List.map_singleton]
      simp only [Function.comp_apply, rows_putKey, hk]
  unfold KeyStored
  rw [hiter]
  by_cases hwide : 2 ^ 22 < io.indexSize
  · rw [if_pos hwide]
    constructor
    · rintro ⟨-, h⟩
      cases h
    · rintro ⟨-, h⟩
      omega
  · rw [if_neg hwide]
    constructor
    · rintro ⟨-, h⟩
      exact ⟨by simpa using h, by omega⟩
    · rintro ⟨rfl, -⟩
      exact ⟨⟨row', io', hrun, hkey⟩, rfl⟩

/-! ## The key that was given -/

/-- `write_key` returns, and the row has the key it was given. -/
def StoresKey (cfg : Config) (io : JIo) (r : ℕ) (a : KeyArgs) : Prop :=
  ∃ n io', (writeKey cfg r a).run io = (.ok n, io') ∧ KeyStored io' r a.key

/-- Once the row is encoded: its key must be the given one, the index must become wide enough, and no
wider than a block. -/
theorem storesKey_of_encodeKey (hr : r < io.cnt.nLines) {row : Row} {k : KeyRec} {n : ℕ}
    (henc : io.encodeKey cfg a = .ok (row, k, n)) :
    StoresKey cfg io r a ↔ row.key = a.key ∧ Widens cfg io r n ∧ max io.indexSize (n + 1) ≤ 2 ^ 22 := by
  have hkey := (encodeKey_key henc).1
  have hfilled : (io.filled r).cnt = io.cnt := by
    unfold filled
    split <;> rfl
  have hcnt : ((resizeKeys cfg (n + 1)).run (io.filled r)).2.cnt = io.cnt :=
    cnt_resizeKeys io.cnt (n + 1) _ hfilled
  -- whatever became of the index, it still lists the row
  have hput : ∀ io₁ : JIo, io₁.cnt = io.cnt →
      (KeyStored (putKey r row k io₁) r a.key ↔ row.key = a.key ∧ io₁.indexSize ≤ 2 ^ 22) := by
    intro io₁ h₁
    rw [keyStored_putKey (by rw [h₁]; exact hr) hkey]
  unfold StoresKey Widens
  rw [run_writeKey, henc]
  by_cases hn : io.indexSize < n + 1
  · simp only [if_pos hn]
    rcases hres : (resizeKeys cfg (n + 1)).run (io.filled r) with ⟨e | u, io₁⟩
    · constructor
      · rintro ⟨m, io', h, -⟩
        cases h
      · rintro ⟨-, h, -⟩
        obtain ⟨io', h'⟩ := h hn
        cases h'
    · rw [hres] at hcnt
      have hwidth : io₁.indexSize = align8 (n + 1) := (wp_resizeKeys_width (n + 1) (io.filled r)).ok hres
      have hroom : io₁.indexSize ≤ 2 ^ 22 ↔ max io.indexSize (n + 1) ≤ 2 ^ 22 := by
        rw [hwidth, align8_le_block, Nat.max_eq_right hn.le]
      constructor
      · rintro ⟨m, io', h, hst⟩
        cases h
        obtain ⟨he, hle⟩ := (hput io₁ hcnt).1 hst
        exact ⟨he, fun _ => ⟨io₁, rfl⟩, hroom.1 hle⟩
      · rintro ⟨he, -, hle⟩
        exact ⟨_, _, rfl, (hput io₁ hcnt).2 ⟨he, hroom.2 hle⟩⟩
  · simp only [if_neg hn]
    rw [Nat.max_eq_left (by omega)]
    constructor
    · rintro ⟨m, io', h, hst⟩
      cases h
      obtain ⟨he, hle⟩ := (hput io rfl).1 hst
      exact ⟨he, fun h => absurd h hn, hle⟩
    · rintro ⟨he, -, hle⟩
      exact ⟨_, _, rfl, (hput io rfl).2 ⟨he, hle⟩⟩

/-- **`write_key` stores the key it was given** just when the codec takes the row, the row fits an
index of the greatest width (or the one there is), unless the key is empty, the index can be made wide
enough for it, and neither the index nor the row is wider than the 4 MB block of `KEY_iter`. -/
theorem storesKey_iff (cfg : Config) (io : JIo) (r : ℕ) (a : KeyArgs) (hr : r < io.cnt.nLines) :
    StoresKey cfg io r a ↔ ∃ k n, cfg.keyDumps (normal io.now io.cnt.syncId a) = .ok (k, n) ∧
      KeyFits io a n ∧ Widens cfg io r n ∧ max io.indexSize (n + 1) ≤ 2 ^ 22 := by
  constructor
  · intro h
    cases henc : io.encodeKey cfg a with
    | error e =>
      obtain ⟨n, io', hrun, -⟩ := h
      rw [run_writeKey, henc] at hrun
      cases hrun
    | ok e =>
      obtain ⟨row, k, n⟩ := e
      obtain ⟨he, hw⟩ := (storesKey_of_encodeKey hr henc).1 h
      obtain ⟨-, k₀, n₀, hk, hfit⟩ := encodeKey_key henc
      have hf := hfit he
      rw [encodeKey_fits hk hf] at henc
      cases henc
      exact ⟨k, n, hk, hf, hw⟩
  · rintro ⟨k, n, hk, hf, hw⟩
    exact (storesKey_of_encodeKey hr (encodeKey_fits hk hf)).2 ⟨rfl, hw⟩

/-- An index of one row. -/
def oneRow (indexSize : ℕ) (keyTable : OrdDict Key (ℕ × ℕ)) : JIo :=
  { (JDb.init jsonCfg).io with cnt := { nRecords := 1, nLines := 1 }, indexSize := indexSize, keyTable := keyTable }

theorem storesKey_short : StoresKey jsonCfg (oneRow 128 OrdDict.empty) 0
    { key := "A".toList, fileId := 3, offset := 5, rowSize := 0 } :=
  (storesKey_iff jsonCfg _ 0 _ (by decide)).2 ⟨_, _, rfl, .inl (by decide), fun h => absurd h (by decide), by decide⟩

/-- Three records: a long key, for which the index grew; a key of one character, and one that begins
with it. -/
def wideCalls : List Label :=
  [({}, .opened), writeCall (List.replicate 7900 'a') (.int 5) 0, writeCall ['漢'] (.int 6) 0,
    writeCall (List.replicate 2301 '漢') (.int 7) 0]

/-- **A key of 2800 characters**, 8400 bytes: nothing is left of it. In an index that has grown, where
both what would be left of it and its first character are in use, the write never returns. -/
theorem storesKey_fails :
    ¬ StoresKey jsonCfg (oneRow 128 OrdDict.empty) 0 { key := longKey, fileId := 3, offset := 5, rowSize := 0 } ∧
    ∃ db, Runs (Step jsonCfg) (JDb.init jsonCfg) wideCalls db ∧
      ∃ db', ((writeCall longKey (.int 5) 0).2.exec jsonCfg {}).run db = (.error .hang, db') := by
  constructor
  · have henc : ((oneRow 128 OrdDict.empty).encodeKey jsonCfg
        { key := longKey, fileId := 3, offset := 5, rowSize := 0 }).toOption.any (fun e => e.1.key = []) = true := by
      decide +kernel
    obtain ⟨⟨row, k, n⟩, he, hnil⟩ := (Option.any_eq_true _ _).1 henc
    have hok : (oneRow 128 OrdDict.empty).encodeKey jsonCfg
        { key := longKey, fileId := 3, offset := 5, rowSize := 0 } = .ok (row, k, n) := by
      revert he
      cases (oneRow 128 OrdDict.empty).encodeKey jsonCfg { key := longKey, fileId := 3, offset := 5, rowSize := 0 } with
      | error e => intro he; cases he
      | ok e => intro he; cases he; rfl
    rw [storesKey_of_encodeKey (by decide) hok, of_decide_eq_true hnil]
    rintro ⟨h, -⟩
    cases h
  · obtain ⟨db, hr, h⟩ := exists_runs jsonCfg (JDb.init jsonCfg) wideCalls
      (P := fun db => decide (Exec.raised (((writeCall longKey (.int 5) 0).2.exec jsonCfg {}).run db) = some .hang))
      (by decide +kernel)
    exact ⟨db, hr, Exec.eq_of_raised (of_decide_eq_true h)⟩

end JIo

end OmniJsonDb
