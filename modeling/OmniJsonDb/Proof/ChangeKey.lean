import OmniJsonDb.Model.ChangeKey
import OmniJsonDb.Proof.KeyRows
import OmniJsonDb.Proof.Resize

/-!
# The KEY file in another codec

The rows are read twice: once to measure them, once to move them. What the second pass reads is
what the file holds of a row, or what was remembered of it.

* `run_measureRows`: the first pass, and the cache it leaves.
* `changeKey_lossless`: when each row decodes as before.
* `survives_of_coherent`, `carries_of_coherent`: each does when what is remembered is what is stored.
-/

namespace OmniJsonDb

namespace KeyFile

variable {c c' : RowCodec} {kf : KeyFile} {w : ℕ}

/-! ## The first pass -/

variable (c c' kf) in
/-- How wide the new rows are once the rows before `k` have been measured. -/
def measured : ℕ → Except Err ℕ
  | 0 => .ok MIN_INDEX_SIZE
  | k + 1 =>
    match measured k with
    | .error e => .error e
    | .ok size =>
      match kf.readsAt c k with
      | .error e => .error e
      | .ok row => widen c' kf.now size row

/-- What the row after is measured with. -/
theorem measured_succ {k : ℕ} (h : kf.measured c c' (k + 1) = .ok w) :
    ∃ size row, kf.measured c c' k = .ok size ∧ kf.readsAt c k = .ok row ∧ widen c' kf.now size row = .ok w := by
  rw [measured] at h
  split at h
  · cases h
  · rename_i size hsize
    split at h
    · cases h
    · rename_i row hrow
      exact ⟨size, row, hsize, hrow, h⟩

theorem measured_le {k n : ℕ} (hk : k ≤ n) (h : kf.measured c c' n = .ok w) :
    ∃ size, kf.measured c c' k = .ok size := by
  induction n generalizing w with
  | zero =>
    obtain rfl : k = 0 := by omega
    exact ⟨w, h⟩
  | succ n ih =>
    rcases Nat.lt_or_ge n k with hlt | hle
    · obtain rfl : k = n + 1 := by omega
      exact ⟨w, h⟩
    · obtain ⟨size, _, hsize, -⟩ := measured_succ h
      exact ih hle hsize

/-- The file once the rows before `k` have been read. -/
def seen (c : RowCodec) (kf : KeyFile) (k : ℕ) : KeyFile := { kf with keyRows := kf.cacheAt c k }

/-- The file is read once more as it stands, from the cache that the first pass leaves. -/
abbrev scanned (c : RowCodec) (kf : KeyFile) : KeyFile := kf.seen c kf.cnt.nLines

theorem readKey_seen {k : ℕ} {row : Row} (h : kf.readsAt c k = .ok row) :
    (readKey c k).run (kf.seen c k) = (.ok row, kf.seen c (k + 1)) := by
  have hrun := @readKey_run c (kf.seen c k) k
  have hst : (kf.seen c k).stored c k = kf.stored c k := rfl
  rw [hst] at hrun
  rw [hrun]
  exact Prod.ext h rfl

/-- **The first pass** returns the width and leaves the rows it has read in the cache. -/
theorem wp_measureRows {n : ℕ} (hw : kf.measured c c' n = .ok w) (m : ℕ) : ∀ r size, r + m = n →
    kf.measured c c' r = .ok size →
    Exec.Wp (measureRows c c' m r size) (kf.seen c r) (fun w' kf' => w' = w ∧ kf' = kf.seen c n)
      (fun _ _ => False) := by
  induction m with
  | zero =>
    intro r size hr hsize
    obtain rfl : r = n := by omega
    exact ⟨Except.ok.inj (hsize.symm.trans hw), rfl⟩
  | succ m ih =>
    intro r size hr hsize
    obtain ⟨next, hnext⟩ := measured_le (k := r + 1) (by omega) hw
    obtain ⟨size', row, hsize', hrow, hwiden⟩ := measured_succ hnext
    obtain rfl := Except.ok.inj (hsize.symm.trans hsize')
    have hread : Exec.Wp (readKey c r) (kf.seen c r) (fun a kf' => a = row ∧ kf' = kf.seen c (r + 1))
        (fun _ _ => False) := by
      refine Exec.wp_of_run ?_ ?_
      all_goals
        intro a kf' h
        rw [readKey_seen hrow] at h
        obtain ⟨ha, hkf⟩ := Prod.mk.inj h
      · exact ⟨(Except.ok.inj ha).symm, hkf.symm⟩
      · cases ha
    unfold measureRows
    simp only [Exec.wp_bind, Exec.wp_get]
    refine Exec.wp_mono hread ?_ fun _ _ h => h
    rintro _ _ ⟨rfl, rfl⟩
    rw [Exec.wp_lift, show (kf.seen c (r + 1)).now = kf.now from rfl, hwiden]
    refine ⟨fun a ha => ?_, fun e he => by cases he⟩
    obtain rfl := Except.ok.inj ha
    exact ih (r + 1) next (by omega) hnext

/-! ## Both passes -/

variable (c c') in
/-- The bytes of the new file that row `k` becomes: what the second pass reads, encoded anew. -/
def recoded (kf : KeyFile) (w k : ℕ) : Except Err Bytes := (kf.scanned c).becomes (c.into c' w) w k

/-- **The file in the other codec**: every row is what the second pass made of it. -/
theorem wp_convert (hpos : 0 < kf.indexSize) (hfile : pos kf.indexSize kf.cnt.nLines ≤ kf.file.size)
    (hw : kf.measured c c' kf.cnt.nLines = .ok w)
    (hrows : ∀ i, i < kf.cnt.nLines → ∃ data, kf.recoded c c' w i = .ok data)
    (hhead : (c'.head kf.cnt w).length < HEADER_SIZE) (hn : pos w kf.cnt.nLines < 2 ^ 63) :
    Exec.Wp (convert c c') kf (fun _ kf' => Rewritten (c.into c' w) (kf.scanned c) w kf') (fun _ _ => False) := by
  unfold convert
  simp only [Exec.wp_bind, Exec.wp_get]
  have hfirst := wp_measureRows hw kf.cnt.nLines 0 MIN_INDEX_SIZE (by omega) rfl
  refine Exec.wp_mono hfirst ?_ fun _ _ h => h
  intro w' kf₁ h₁
  obtain ⟨hw', hkf₁⟩ := h₁
  subst hkf₁
  rw [hw']
  have hsecond := @wp_rewrite (c.into c' w) (kf.scanned c) _ hfile hrows hpos hn hhead
  simp only [Exec.wp_bind] at hsecond
  exact hsecond

variable (c c') in
/-- **A row is carried over**: what the second pass reads as row `k`, encoded by the new codec,
decodes to what the stored row does. -/
def Carries (kf : KeyFile) (w k : ℕ) : Prop := ∃ data, kf.recoded c c' w k = .ok data ∧ c'.loads data = kf.stored c k

instance (kf : KeyFile) (w k : ℕ) : Decidable (kf.Carries c c' w k) :=
  match h : kf.recoded c c' w k with
  | .ok data => decidable_of_iff (c'.loads data = kf.stored c k)
      ⟨fun hs => ⟨data, h, hs⟩, fun ⟨_, hd, hs⟩ => Except.ok.inj (h.symm.trans hd) ▸ hs⟩
  | .error _ => isFalse fun ⟨_, hd, _⟩ => nomatch h.symm.trans hd

/-- The new file decodes to what the second pass encoded. -/
theorem Rewritten.stored_into {kf' : KeyFile} (h : Rewritten (c.into c' w) (kf.scanned c) w kf') {i : ℕ}
    (hi : i < kf.cnt.nLines) {data : Bytes} (hd : kf.recoded c c' w i = .ok data) :
    kf'.stored c' i = c'.loads data := by
  have hin : pos w i + w ≤ kf'.file.size := by
    rw [← pos_succ]
    exact (pos_mono hi).trans h.len
  unfold KeyFile.stored
  rw [h.width, readInto_eq (becomes_length hd).2 hin]
  exact congrArg c'.loads (Except.ok.inj ((h.rows i hi).symm.trans hd))

/-- **Every row decodes as before** just when every row is carried over. -/
theorem Rewritten.lossless_iff {kf' : KeyFile} (h : Rewritten (c.into c' w) (kf.scanned c) w kf')
    (hrows : ∀ i, i < kf.cnt.nLines → ∃ data, kf.recoded c c' w i = .ok data) :
    (∀ i, i < kf.cnt.nLines → kf'.stored c' i = kf.stored c i) ↔
      ∀ i, i < kf.cnt.nLines → kf.Carries c c' w i := by
  constructor
  · intro hall i hi
    obtain ⟨data, hd⟩ := hrows i hi
    exact ⟨data, hd, (h.stored_into hi hd).symm.trans (hall i hi)⟩
  · intro hall i hi
    obtain ⟨data, hd, hback⟩ := hall i hi
    exact (h.stored_into hi hd).trans hback

/-! ## A coherent cache -/

variable (c) in
/-- What is remembered is what is stored. -/
def Coherent (kf : KeyFile) : Prop := ∀ k info, kf.keyRows.get? k = some info → kf.stored c k = .ok info

/-- **Reading keeps the cache coherent.** -/
theorem Coherent.seen (h : kf.Coherent c) (n : ℕ) : (kf.seen c n).Coherent c := by
  induction n with
  | zero => exact h
  | succ n ih =>
    intro k info hk
    have hst : ∀ k, (kf.seen c (n + 1)).stored c k = (kf.seen c n).stored c k := fun _ => rfl
    rw [hst]
    change (served (kf.cacheAt c n) kf.cnt.nRecords n (kf.stored c n)).2.get? k = some info at hk
    unfold served at hk
    split at hk
    · rw [OrdDict.get?_touch] at hk
      exact ih k info hk
    · split at hk
      · exact ih k info hk
      · rename_i row hrow
        split at hk
        · have hset := OrdDict.get?_keepLast hk
          rw [OrdDict.get?_set] at hset
          by_cases hkn : k = n
          · subst hkn
            rw [if_pos rfl] at hset
            obtain rfl := Option.some.inj hset
            exact hrow
          · rw [if_neg hkn] at hset
            exact ih k info hset
        · exact ih k info hk

/-- What is read from a coherent cache is what is stored. -/
theorem Coherent.readsAt (h : kf.Coherent c) (k : ℕ) : kf.readsAt c k = kf.stored c k := by
  have hseen := h.seen k
  unfold KeyFile.readsAt served
  split
  · rename_i info hinfo
    exact (hseen k info hinfo).symm
  · cases kf.stored c k <;> rfl

/-- **A coherent row survives another width** when the codec takes it and reads it back. -/
theorem survives_of_coherent (h : kf.Coherent c) {size k : ℕ} {row : Row} {data : Bytes}
    (hst : kf.stored c k = .ok row) (hd : c.dumps (normal kf.now 0 row.args) = .ok data) (hlt : data.length < size)
    (hback : c.loads (padRow data size) = .ok row) : kf.Survives c size k := by
  have hread : kf.readsAt c k = .ok row := (h.readsAt k).trans hst
  have henc : encodeAt c kf.now size row = .ok (padRow data size) := by
    unfold encodeAt
    rw [hd]
    simp only
    rw [if_neg (by omega)]
  refine ⟨padRow data size, ?_, hback.trans hst.symm⟩
  unfold becomes
  rw [hread]
  exact henc

/-- A row that the codec takes and reads back, in rows that are wide enough. -/
def Recodes (c' : RowCodec) (now : ℕ) (row : Row) : Prop :=
  ∃ data, c'.dumps (normal now 0 row.args) = .ok data ∧ data.length < MAX_INDEX_SIZE ∧
    ∀ size, data.length < size → c'.loads (padRow data size) = .ok row

theorem dumpsCut_of_lt {row : Row} {data : Bytes} (h : c'.dumps row = .ok data) (hlen : data.length < MAX_INDEX_SIZE)
    (size : ℕ) : c'.dumpsCut size row = .ok data := by
  unfold RowCodec.dumpsCut
  simp only [h]
  rw [if_neg (by omega)]

/-- The width after a row: wide enough for it, and no row gets wider than any may be. -/
theorem widen_of_lt {now size : ℕ} {row : Row} {data : Bytes} (h : c'.dumps (normal now 0 row.args) = .ok data)
    (hlen : data.length < MAX_INDEX_SIZE) (hsize : size ≤ MAX_INDEX_SIZE) :
    ∃ next, widen c' now size row = .ok next ∧ size ≤ next ∧ data.length < next ∧ next ≤ MAX_INDEX_SIZE := by
  unfold widen
  simp only [dumpsCut_of_lt h hlen size]
  refine ⟨_, rfl, ?_⟩
  unfold MAX_INDEX_SIZE at *
  unfold JIo.align8
  split
  · split <;> omega
  · omega

/-- **A coherent file is measured**: the width takes every row. -/
theorem measured_of_coherent (h : kf.Coherent c) {n : ℕ}
    (hrows : ∀ k, k < n → ∃ row, kf.stored c k = .ok row ∧ Recodes c' kf.now row) :
    ∃ w, kf.measured c c' n = .ok w ∧ w ≤ MAX_INDEX_SIZE ∧
      ∀ k, k < n → ∃ row data, kf.stored c k = .ok row ∧ c'.dumps (normal kf.now 0 row.args) = .ok data ∧
        data.length < MAX_INDEX_SIZE ∧ data.length < w ∧
        ∀ size, data.length < size → c'.loads (padRow data size) = .ok row := by
  induction n with
  | zero => exact ⟨MIN_INDEX_SIZE, rfl, by decide, fun k hk => absurd hk (Nat.not_lt_zero k)⟩
  | succ n ih =>
    obtain ⟨w, hw, hle, hall⟩ := ih fun k hk => hrows k (by omega)
    obtain ⟨row, hst, data, hd, hmax, hback⟩ := hrows n (by omega)
    obtain ⟨next, hnext, hmono, hlt, hnextle⟩ := widen_of_lt hd hmax hle
    refine ⟨next, ?_, hnextle, fun k hk => ?_⟩
    · rw [measured]
      simp only [hw, h.readsAt, hst]
      exact hnext
    · rcases Nat.lt_succ_iff_lt_or_eq.1 hk with hk | rfl
      · obtain ⟨row, data, hst, hd, hmax, hlt, hback⟩ := hall k hk
        exact ⟨row, data, hst, hd, hmax, by omega, hback⟩
      · exact ⟨row, data, hst, hd, hmax, hlt, hback⟩

/-- **Every row is carried over** when what is remembered is what is stored, and the new codec
takes every row and reads it back. -/
theorem carries_of_coherent (h : kf.Coherent c)
    (hrows : ∀ k, k < kf.cnt.nLines → ∃ row, kf.stored c k = .ok row ∧ Recodes c' kf.now row) :
    ∃ w, kf.measured c c' kf.cnt.nLines = .ok w ∧ w ≤ MAX_INDEX_SIZE ∧
      ∀ k, k < kf.cnt.nLines → kf.Carries c c' w k := by
  obtain ⟨w, hw, hle, hall⟩ := measured_of_coherent h hrows
  refine ⟨w, hw, hle, fun k hk => ?_⟩
  obtain ⟨row, data, hst, hd, hmax, hlt, hback⟩ := hall k hk
  refine ⟨padRow data w, ?_, (hback w hlt).trans hst.symm⟩
  have hread : (kf.scanned c).readsAt (c.into c' w) k = .ok row := by
    have hcoh : (kf.scanned c).Coherent (c.into c' w) := h.seen kf.cnt.nLines
    exact (hcoh.readsAt k).trans hst
  have henc : encodeAt (c.into c' w) kf.now w row = .ok (padRow data w) := by
    unfold encodeAt
    have hcut : (c.into c' w).dumps (normal kf.now 0 row.args) = .ok data := dumpsCut_of_lt hd hmax w
    rw [hcut]
    simp only
    rw [if_neg (by omega)]
  unfold recoded becomes
  rw [hread]
  exact henc

end KeyFile

/-! ## `change_KEY` -/

open KeyFile in
/-- **`change_KEY`**: for a file that holds `nLines` rows, whatever the two codecs and widths, every
row is what was made of it as the untouched file had it, and decodes as before just when it is
carried over; counters and key table stay. -/
theorem KeyHandle.changeKey_lossless (codecs : KeyType → Layout → RowCodec) (db : KeyHandle) (keyType : KeyType)
    {apiVer : Option ℤ} {ver : Layout} (hver : apiVer.elim (some db.apiVer) Layout.ofApi = some ver) {w : ℕ}
    (hpos : 0 < db.keyFile.indexSize)
    (hfile : pos db.keyFile.indexSize db.keyFile.cnt.nLines ≤ db.keyFile.file.size)
    (hw : db.keyFile.measured (codecs db.keyType db.apiVer) (codecs keyType ver) db.keyFile.cnt.nLines = .ok w)
    (hrows : ∀ i, i < db.keyFile.cnt.nLines →
      ∃ data, db.keyFile.recoded (codecs db.keyType db.apiVer) (codecs keyType ver) w i = .ok data)
    (hhead : ((codecs keyType ver).head db.keyFile.cnt w).length < HEADER_SIZE)
    (hn : pos w db.keyFile.cnt.nLines < 2 ^ 63) :
    ∃ changed db', (KeyHandle.changeKey codecs keyType apiVer).run db = (.ok changed, db') ∧
      db'.keyType = keyType ∧ db'.apiVer = ver ∧ db'.keyFile.cnt = db.keyFile.cnt ∧ db'.keyTable = db.keyTable ∧
      (changed = true → db'.keyFile.indexSize = w ∧ ∀ i, i < db.keyFile.cnt.nLines →
        db.keyFile.recoded (codecs db.keyType db.apiVer) (codecs keyType ver) w i =
          .ok (db'.keyFile.file.read (pos w i) w)) ∧
      ((∀ i, i < db.keyFile.cnt.nLines →
          db'.keyFile.stored (codecs keyType ver) i = db.keyFile.stored (codecs db.keyType db.apiVer) i) ↔
        (ver = db.apiVer ∧ keyType = db.keyType) ∨
          ∀ i, i < db.keyFile.cnt.nLines →
            db.keyFile.Carries (codecs db.keyType db.apiVer) (codecs keyType ver) w i) := by
  by_cases hsame : ver = db.apiVer ∧ keyType = db.keyType
  · -- nothing changes
    have hwp : Exec.Wp (KeyHandle.changeKey codecs keyType apiVer) db (fun changed db' => changed = false ∧ db' = db)
        (fun _ _ => False) := by
      unfold KeyHandle.changeKey
      simp only [Exec.wp_bind, Exec.wp_get, hver, if_pos hsame, Exec.wp_ret, and_self]
    obtain ⟨_, _, hrun, rfl, rfl⟩ := hwp.returns
    obtain ⟨rfl, rfl⟩ := hsame
    exact ⟨false, _, hrun, rfl, rfl, rfl, rfl, fun h => absurd h Bool.false_ne_true, fun _ => .inl ⟨rfl, rfl⟩, fun _ _ _ => rfl⟩
  · have hwp : Exec.Wp (KeyHandle.changeKey codecs keyType apiVer) db (fun changed db' =>
        Rewritten ((codecs db.keyType db.apiVer).into (codecs keyType ver) w)
          (db.keyFile.scanned (codecs db.keyType db.apiVer)) w db'.keyFile ∧
        db' = { db with keyFile := db'.keyFile, keyType := keyType, apiVer := ver }) (fun _ _ => False) := by
      unfold KeyHandle.changeKey
      simp only [Exec.wp_bind, Exec.wp_get, hver, if_neg hsame, Exec.wp_zoom, Exec.wp_modify, Exec.wp_ret]
      refine Exec.wp_mono (wp_convert hpos hfile hw hrows hhead hn) ?_ fun _ _ h => h
      intro _ kf' h
      exact ⟨h, trivial⟩
    obtain ⟨changed, db', hrun, hout, hrest⟩ := hwp.returns
    refine ⟨changed, db', hrun, ?_, ?_, hout.cnt, ?_, fun _ => ⟨hout.width, hout.rows⟩, ?_⟩
    · rw [hrest]
    · rw [hrest]
    · rw [hrest]
    · rw [hout.lossless_iff hrows, or_iff_right hsame]

/-! ## Text rows -/

/-- A row of what `KEY_loads` returns, where no number is negative. -/
def KeyInfo.row (r : KeyInfo ℤ) : Except Err Row :=
  if [r.fileId, r.offset, r.rowSize, r.valSize, r.ver, r.flags].all (fun n => decide (0 ≤ n)) then
    .ok { key := toChars r.key, fileId := r.fileId.toNat, offset := r.offset.toNat, rowSize := r.rowSize.toNat
          valSize := r.valSize.toNat, ver := r.ver.toNat, flags := r.flags.toNat, cdays := r.cdays
          mdays := r.mdays, ttl := r.ttl }
  else .error .value

/-- A built-in codec on rows. -/
def KeyCodec.rows (k : KeyCodec) (l : Layout) : RowCodec :=
  ⟨fun r => k.dumps l r.keyInfo, fun data => k.loads l data >>= KeyInfo.row, fun _ _ => []⟩

/-- The text codec, and JSON in the last layout. -/
def textCodecs : KeyType → Layout → RowCodec
  | .L, l => KeyCodec.L.rows l
  | _, _ => KeyFile.jsonRows

/-- A handle on a JSON file of one line, once its row has been written. -/
def jsonHandle (a : KeyArgs) : KeyHandle := ⟨KeyFile.written a, .J, .v2, OrdDict.empty⟩

theorem changeKey_plain : ∃ changed db', (KeyHandle.changeKey textCodecs .L none).run (jsonHandle KeyFile.todayArgs)
      = (.ok changed, db') ∧
    db'.keyFile.stored (textCodecs .L .v2) 0 = (jsonHandle KeyFile.todayArgs).keyFile.stored (textCodecs .J .v2) 0 := by
  have hlines : (jsonHandle KeyFile.todayArgs).keyFile.cnt.nLines = 1 := by decide +kernel
  have hrow : ∀ i, i < (jsonHandle KeyFile.todayArgs).keyFile.cnt.nLines →
      (jsonHandle KeyFile.todayArgs).keyFile.Carries (textCodecs .J .v2) (textCodecs .L .v2) 64 i := by
    intro i hi
    obtain rfl : i = 0 := by omega
    decide +kernel
  have hver : (none : Option ℤ).elim (some (jsonHandle KeyFile.todayArgs).apiVer) Layout.ofApi = some .v2 := rfl
  obtain ⟨changed, db', hrun, -, -, -, -, -, hrows⟩ := KeyHandle.changeKey_lossless textCodecs
    (jsonHandle KeyFile.todayArgs) .L hver (w := 64) (by decide +kernel) (by decide +kernel)
    (by decide +kernel) (fun i hi => (hrow i hi).imp fun _ h => h.1) (by decide +kernel) (by decide +kernel)
  exact ⟨changed, db', hrun, hrows.2 (.inr hrow) 0 (by omega)⟩

/-- **A remembered row that is not the stored one** is what the other codec is given. -/
theorem changeKey_fails : ∃ db', (KeyHandle.changeKey textCodecs .L none).run
      (jsonHandle { KeyFile.todayArgs with cdays := some 80000 }) = (.ok true, db') ∧
    db'.keyFile.stored (textCodecs .L .v2) 0 ≠
      (jsonHandle { KeyFile.todayArgs with cdays := some 80000 }).keyFile.stored (textCodecs .J .v2) 0 := by
  have hrun : ((KeyHandle.changeKey textCodecs .L none).run
      (jsonHandle { KeyFile.todayArgs with cdays := some 80000 })).1 = .ok true := by
    decide +kernel
  exact ⟨_, Prod.ext hrun rfl, by decide +kernel⟩

end OmniJsonDb
