import OmniJsonDb.Proof.Index

/-!
# Version stamps of the rows

Every row carries the session counter of the time it was written. What the engine does to
the stamps does not depend on what the rows say, nor on whether the caches are right.

* `Stamped`: every row below the last line, and every row remembered, has a version below
  a bound, up to the rows that are being written.
* `Stamped.wp_readKey`, `wp_copyKey`, `wp_writeKey`, `wp_resizeKeys`: what each engine
  operation does to it.
-/

namespace OmniJsonDb

/-! ## Dictionaries -/

namespace OrdDict

variable {κ α : Type*}

theorem size_keepLast_le (d : OrdDict κ α) (n : ℕ) : (d.keepLast n).size ≤ n := by
  unfold keepLast size
  simp only [List.length_drop]
  omega

theorem size_restrict_le (d : OrdDict κ α) (p : κ → Bool) : (d.restrict p).size ≤ d.size :=
  List.length_filter_le _ _

variable [DecidableEq κ]

theorem size_touch_le (d : OrdDict κ α) (k : κ) : (d.touch k).size ≤ d.size := by
  unfold touch
  split
  · rename_i a h
    have hk : (d.pop k).get? k = none := by rw [get?_pop]; simp
    rw [size_set, if_pos hk]
    -- the entry that moves to the end was one of those that were there
    have hlt : (d.pop k).size < d.size := by
      have hm := mem_entries_iff.2 h
      unfold pop restrict size
      exact List.length_filter_lt_length_iff_exists.2 ⟨_, hm, by simp⟩
    omega
  · exact le_rfl

end OrdDict

namespace JIo

variable {cfg : Config} {io io' : JIo} {c c' : Counters} {P Q : Set ℕ} {b b' : ℕ}

/-! ## The stamps of an index -/

/-- Every stored row outside `P` has a version below `b`, and so has every live row that is
remembered; `c` are the counters. -/
structure Stamped (c : Counters) (P : Set ℕ) (b : ℕ) (io : JIo) : Prop where
  cnt : io.cnt = c
  stored : ∀ r, r < c.nLines → r ∉ P → (io.row r).ver < b
  cached : ∀ r row, io.keyRows.get? r = some row → r ∉ P → r < c.nRecords ∧ row.ver < b
  few : io.keyRows.size ≤ TOTAL_KEY_ROWS

namespace Stamped

theorem mono (h : io.Stamped c P b) (hP : P ⊆ Q) (hb : b ≤ b') : io.Stamped c Q b' where
  cnt := h.cnt
  stored r hr hQ := lt_of_lt_of_le (h.stored r hr fun hp => hQ (hP hp)) hb
  cached r row hr hQ := by
    obtain ⟨h₁, h₂⟩ := h.cached r row hr fun hp => hQ (hP hp)
    exact ⟨h₁, lt_of_lt_of_le h₂ hb⟩
  few := h.few

/-- Only rows, cached rows and counters matter; the live region may grow, the lines may
become fewer. -/
theorem recount (h : io.Stamped c P b) (hrows : io'.files.rows = io.files.rows)
    (hcache : io'.keyRows = io.keyRows) (hcnt : io'.cnt = c') (hn : c.nRecords ≤ c'.nRecords)
    (hl : c'.nLines ≤ c.nLines) : io'.Stamped c' P b where
  cnt := hcnt
  stored r hr hP := by
    have hrow : io'.row r = io.row r := by unfold row; rw [hrows]
    rw [hrow]
    exact h.stored r (lt_of_lt_of_le hr hl) hP
  cached r row hr hP := by
    rw [hcache] at hr
    obtain ⟨h₁, h₂⟩ := h.cached r row hr hP
    exact ⟨lt_of_lt_of_le h₁ hn, h₂⟩
  few := hcache ▸ h.few

/-- What neither the rows nor the counters show. -/
theorem same (h : io.Stamped c P b) (hrows : io'.files.rows = io.files.rows)
    (hcache : io'.keyRows = io.keyRows) (hcnt : io'.cnt = io.cnt) : io'.Stamped c P b :=
  h.recount hrows hcache (hcnt.trans h.cnt) le_rfl le_rfl

/-- A line more, which is not written yet. -/
theorem line (h : io.Stamped c P b) (hcnt : io'.cnt = { c with nLines := c.nLines + 1 })
    (hrows : io'.files.rows = io.files.rows) (hcache : io'.keyRows = io.keyRows) :
    io'.Stamped { c with nLines := c.nLines + 1 } (insert c.nLines P) b where
  cnt := hcnt
  stored r hr hP := by
    have hrow : io'.row r = io.row r := by unfold row; rw [hrows]
    rw [hrow]
    simp only [Set.mem_insert_iff, not_or] at hP
    refine h.stored r ?_ hP.2
    have hr : r < c.nLines + 1 := hr
    omega
  cached r row hr hP := by
    rw [hcache] at hr
    exact h.cached r row hr fun hp => hP (Set.mem_insert_of_mem _ hp)
  few := hcache ▸ h.few

/-- A line more, which was written before. -/
theorem fillLine {m : ℕ} (h : io.Stamped { c with nLines := m } ∅ b) (hv : (io.row m).ver < b)
    (hcnt : io'.cnt = { c with nLines := m + 1 }) (hrows : io'.files.rows = io.files.rows)
    (hcache : io'.keyRows = io.keyRows) : io'.Stamped { c with nLines := m + 1 } ∅ b where
  cnt := hcnt
  stored r hr hP := by
    have hrow : io'.row r = io.row r := by unfold row; rw [hrows]
    rw [hrow]
    by_cases hrm : r = m
    · exact hrm ▸ hv
    · have hr : r < m + 1 := hr
      exact h.stored r (show r < m by omega) hP
  cached r row hr := h.cached r row (hcache ▸ hr)
  few := hcache ▸ h.few

/-- The live region loses its last row, of which nothing is known from then on. -/
theorem shrink (h : io.Stamped c ∅ b) (hcnt : io'.cnt = { c with nRecords := c.nRecords - 1 })
    (hrows : io'.files.rows = io.files.rows) (hcache : io'.keyRows = io.keyRows) :
    io'.Stamped { c with nRecords := c.nRecords - 1 } {c.nRecords - 1} b where
  cnt := hcnt
  stored r hr hP := by
    have hrow : io'.row r = io.row r := by unfold row; rw [hrows]
    rw [hrow]
    exact h.stored r hr (Set.notMem_empty r)
  cached r row hr hP := by
    rw [hcache] at hr
    obtain ⟨h₁, h₂⟩ := h.cached r row hr (Set.notMem_empty r)
    rw [Set.mem_singleton_iff] at hP
    have hlt : r < c.nRecords - 1 := by omega
    exact ⟨hlt, h₂⟩
  few := hcache ▸ h.few

/-- A live row is remembered. -/
theorem remember (h : io.Stamped c P b) {r : ℕ} {row : Row} (hr : r < c.nRecords)
    (hv : r ∉ P → row.ver < b) : (io.rememberKey r row).Stamped c P b where
  cnt := h.cnt
  stored := h.stored
  cached x row' hx hP := by
    rcases get?_rememberKey hx with ⟨rfl, rfl⟩ | hx
    · exact ⟨hr, hv hP⟩
    · exact h.cached x row' hx hP
  few := OrdDict.size_keepLast_le _ _

/-! ## Reading -/

/-- **Reading a row.** -/
theorem wp_readKey (h : io.Stamped c P b) (r : ℕ) :
    Exec.Wp (readKey r) io
      (fun row io' => io'.Stamped c P b ∧ (r ∉ P → r < max c.nRecords c.nLines ∧ row.ver < b))
      (fun _ io' => io'.Stamped c P b) := by
  have hc := h.cnt
  subst hc
  unfold readKey
  simp only [Exec.wp_bind, Exec.wp_modify, Exec.wp_get]
  have h₁ : JIo.Stamped io.cnt P b { io with deadRows := io.deadRows.pop r } := h.same rfl rfl rfl
  split
  · rename_i row hr
    simp only [Exec.wp_bind, Exec.wp_modify, Exec.wp_ret]
    have hr : io.keyRows.get? r = some row := hr
    refine ⟨⟨rfl, h.stored, fun x row' hx hP => ?_, ?_⟩, fun hP => ?_⟩
    · have hx : (io.keyRows.touch r).get? x = some row' := hx
      rw [OrdDict.get?_touch] at hx
      exact h.cached x row' hx hP
    · exact (OrdDict.size_touch_le _ _).trans h.few
    · obtain ⟨hlive, hv⟩ := h.cached r row hr hP
      exact ⟨lt_of_lt_of_le hlive (le_max_left _ _), hv⟩
  · simp only [Exec.wp_bind, Exec.wp_lift, stored?]
    split
    · rename_i hlines
      refine ⟨fun row hrow => ?_, fun e he => by cases he⟩
      have hv : r ∉ P → row.ver < b := by cases hrow; exact h.stored r hlines
      have hmax : r < max io.cnt.nRecords io.cnt.nLines := lt_of_lt_of_le hlines (le_max_right _ _)
      simp only [Exec.wp_modify, Exec.wp_ret]
      refine ⟨?_, fun hP => ⟨hmax, hv hP⟩⟩
      split
      · rename_i hlive
        exact h₁.remember hlive hv
      · exact h₁.same rfl rfl rfl
    · exact ⟨fun row hrow => (by cases hrow), fun e _ => h₁⟩

theorem maintains_readKey (r : ℕ) : Exec.Maintains (Stamped c P b) (readKey r) := by
  intro io h
  have hw := h.wp_readKey r
  unfold Exec.Wp at hw
  split at hw
  · rename_i hrun; rw [hrun]; exact hw.1
  · rename_i hrun; rw [hrun]; exact hw

/-- Reading a row leaves the files alone. -/
theorem files_readKey (f : Files) (r : ℕ) : Exec.Maintains (fun io : JIo => io.files = f) (readKey r) := by
  unfold readKey
  refine .bind (.modify fun _ h => h) fun _ => .bind .get fun io₁ => ?_
  split
  · exact .bind (.modify fun _ h => h) fun _ => .pure _
  · refine .bind (.lift _) fun _ => .bind (.modify fun io₂ h => ?_) fun _ => .pure _
    split <;> exact h

/-- Reading a stretch of rows. -/
theorem wp_readKeys (m : ℕ) : ∀ (r : ℕ) (io : JIo), io.Stamped c P b → Exec.Wp (readKeys r m) io
    (fun rows io' => io'.Stamped c P b ∧ io'.files = io.files ∧ rows.length = m ∧
      ∀ i row, rows[i]? = some row → r + i ∉ P → row.ver < b)
    (fun _ io' => io'.Stamped c P b) := by
  induction m with
  | zero =>
    intro r io h
    exact ⟨h, rfl, rfl, fun i row hi => by cases hi⟩
  | succ m ih =>
    intro r io h
    unfold readKeys
    simp only [Exec.wp_bind, Exec.wp_ret]
    refine Exec.wp_mono (Exec.wp_and (h.wp_readKey r) ((files_readKey io.files r).wp rfl)) ?_ fun _ _ h' => h'.1
    rintro row io₁ ⟨⟨h₁, hv⟩, hf₁⟩
    refine Exec.wp_mono (ih (r + 1) io₁ h₁) ?_ fun _ _ h' => h'
    rintro rows io₂ ⟨h₂, hf₂, hlen, hvs⟩
    refine ⟨h₂, hf₂.trans hf₁, congrArg Nat.succ hlen, ?_⟩
    rintro (_ | i) row' hi hP
    · cases hi
      exact (hv hP).2
    · exact hvs i row' hi (by rwa [show r + 1 + i = r + (i + 1) by omega])

/-! ## Writing -/

/-- A row is stored, and what was remembered of it is forgotten. -/
theorem putRec (h : io.Stamped c P b) (r : ℕ) {k : KeyRec} (hk : (unpackRow k).ver < b) :
    ((io.forget r).putRec r k).Stamped c (P \ {r}) b where
  cnt := h.cnt
  stored x hx hP := by
    by_cases hxr : x = r
    · subst hxr
      simpa [JIo.row, JIo.putRec] using hk
    · have hrow : ((io.forget r).putRec r k).row x = io.row x := by
        simp [JIo.row, JIo.putRec, JIo.forget, hxr]
      rw [hrow]
      exact h.stored x hx fun hp => hP ⟨hp, hxr⟩
  cached x row hx hP := by
    obtain ⟨hxr, hx⟩ := OrdDict.get?_pop_some hx
    exact h.cached x row hx fun hp => hP ⟨hp, hxr⟩
  few := (OrdDict.size_restrict_le _ _).trans h.few

/-- **Copying a row.** -/
theorem wp_copyKey (h : io.Stamped c P b) {src : ℕ} (dst : ℕ) (hs : (io.row src).ver < b)
    {E : Err → JIo → Prop} :
    Exec.Wp (copyKey src dst) io (fun row io' => io'.Stamped c (P \ {dst}) b ∧ row.ver < b) E := by
  unfold copyKey
  rw [Exec.wp_modifyGet]
  exact ⟨h.putRec dst hs, hs⟩

/-- The line behind the last one is filled. -/
theorem fill (h : io.Stamped c P b) (hb : 0 < b) (r : ℕ) : (io.putRec r emptyRec).Stamped c P b where
  cnt := h.cnt
  stored x hx hP := by
    by_cases hxr : x = r
    · subst hxr
      have hrow : (io.putRec x emptyRec).row x = unpackRow emptyRec := by simp [JIo.row, JIo.putRec]
      rw [hrow]
      exact hb
    · have hrow : (io.putRec r emptyRec).row x = io.row x := by simp [JIo.row, JIo.putRec, hxr]
      rw [hrow]
      exact h.stored x hx hP
  cached := h.cached
  few := h.few

theorem wp_writeHeader (h : io.Stamped c P b) {E : Err → JIo → Prop} :
    Exec.Wp writeHeader io (fun _ io' => io'.Stamped c P b) E := by
  unfold writeHeader
  rw [Exec.wp_modify]
  exact h.same rfl rfl rfl

end Stamped

/-- Encoding rows again keeps their versions. -/
theorem reencode_ver (now size : ℕ) : ∀ {rows : List Row} {ks : List KeyRec},
    reencode cfg now size rows = .ok ks → ks.map (fun k => (unpackRow k).ver) = rows.map fun row => row.ver := by
  intro rows
  induction rows with
  | nil => intro ks h; cases h; rfl
  | cons row rows ih =>
    intro ks h
    rw [reencode] at h
    split at h
    · cases h
    · rename_i k n hk
      split at h
      · cases h
      · split at h
        · cases h
        · rename_i ks' hks
          cases h
          have hcore := unpackRow_core (cfg.keyDumps_pack _ _ _ hk)
          have hver : (unpackRow k).ver = row.ver := by
            rw [show (unpackRow k).ver = (unpackRow k).toCore.ver from rfl, hcore]
            rfl
          rw [List.map_cons, List.map_cons, hver, ih hks]

/-- A row cut short keeps its version. -/
theorem stripKey_ver {table : OrdDict Key (ℕ × ℕ)} {row row' : Row} {excess n : ℕ} {k : KeyRec}
    (h : stripKey cfg table row excess = .ok (row', k, n)) :
    row'.ver = row.ver ∧ (unpackRow k).ver = row.ver := by
  have hver : ∀ {r : Row} {k' : KeyRec} {m : ℕ}, cfg.keyDumps r = .ok (k', m) → (unpackRow k').ver = r.ver := by
    intro r k' m hk
    exact congrArg (fun s : Core => s.ver) (unpackRow_core (cfg.keyDumps_pack _ _ _ hk))
  unfold stripKey at h
  extract_lets row₁ row₂ at h
  split at h
  · cases h
  · rename_i k₁ n₁ hk₁
    split at h
    · simp only [Except.ok.injEq, Prod.mk.injEq] at h
      obtain ⟨rfl, rfl, rfl⟩ := h
      exact ⟨rfl, (hver hk₁ : _ = row₁.ver)⟩
    · split at h
      · cases h
      · rename_i k₂ n₂ hk₂
        split at h
        · simp only [Except.ok.injEq, Prod.mk.injEq] at h
          obtain ⟨rfl, rfl, rfl⟩ := h
          exact ⟨rfl, (hver hk₂ : _ = row₂.ver)⟩
        · cases h

/-- The row `write_key` encodes has the version it was given, or the session counter. -/
theorem encodeKey_ver {a : KeyArgs} {row : Row} {k : KeyRec} {n : ℕ} (h : io.encodeKey cfg a = .ok (row, k, n)) :
    row.ver = a.ver.getD io.cnt.syncId ∧ (unpackRow k).ver = a.ver.getD io.cnt.syncId := by
  unfold encodeKey at h
  simp only at h
  split at h
  · cases h
  · rename_i k₁ n₁ hk
    split at h
    · exact stripKey_ver h
    · cases h
      exact ⟨rfl, congrArg (fun s : Core => s.ver) (unpackRow_core (cfg.keyDumps_pack _ _ _ hk))⟩

namespace Stamped

/-- The rows of an index that is rewritten. -/
theorem rows_of_reencode (h : io.Stamped c P b) {rows : List Row} {ks : List KeyRec}
    (hvs : ∀ i row, rows[i]? = some row → 0 + i ∉ P → row.ver < b)
    (hks : ks.map (fun k => (unpackRow k).ver) = rows.map fun row => row.ver) (r : ℕ) (hr : r < c.nLines)
    (hP : r ∉ P) : (unpackRow ((ks[r]?).getD (io.files.rows r))).ver < b := by
  have hget := congrArg (fun l => l[r]?) hks
  simp only [List.getElem?_map] at hget
  cases hk : ks[r]? with
  | none => exact h.stored r hr hP
  | some k =>
    rw [hk] at hget
    cases hrow : rows[r]? with
    | none => rw [hrow] at hget; cases hget
    | some row =>
      rw [hrow] at hget
      simp only [Option.map_some, Option.some.injEq] at hget
      rw [Option.getD_some, hget]
      exact hvs r row hrow (by rwa [Nat.zero_add])

/-- **Rewriting the index at another width.** -/
theorem wp_resizeKeys (h : io.Stamped c P b) (size : ℕ) :
    Exec.Wp (resizeKeys cfg size) io (fun _ io' => io'.Stamped c P b) (fun _ _ => True) := by
  unfold resizeKeys
  simp only [Exec.wp_bind, Exec.wp_get]
  split
  · exact h
  · simp only [Exec.wp_bind]
    refine Exec.wp_mono (wp_readKeys io.cnt.nLines 0 io h) ?_ fun _ _ _ => trivial
    rintro rows io₁ ⟨h₁, -, -, hvs⟩
    rw [Exec.wp_lift]
    refine ⟨fun ks hks => ?_, fun _ _ => trivial⟩
    simp only [Exec.wp_modify]
    refine wp_writeHeader ?_
    exact ⟨h₁.cnt, h₁.rows_of_reencode hvs (reencode_ver _ _ hks), h₁.cached, h₁.few⟩

/-- **Writing a row** with a version below the bound. -/
theorem wp_writeKey (h : io.Stamped c P b) (hb : c.syncId < b) (r : ℕ) {a : KeyArgs}
    (ha : ∀ v, a.ver = some v → v < b) :
    Exec.Wp (writeKey cfg r a) io (fun _ io' => io'.Stamped c (P \ {r}) b ∧ (io'.row r).ver < b)
      (fun _ _ => True) := by
  have hlt : a.ver.getD io.cnt.syncId < b := by
    cases hv : a.ver with
    | none => rw [h.cnt]; exact hb
    | some v => exact ha v hv
  have last {io' : JIo} {row : Row} {k : KeyRec} (h' : io'.Stamped c P b) (hrow : row.ver < b)
      (hk : (unpackRow k).ver < b) : (putKey r row k io').Stamped c (P \ {r}) b ∧
        ((putKey r row k io').row r).ver < b := by
    have hput : ((io'.forget r).putRec r k).Stamped c (P \ {r}) b := h'.putRec r hk
    have hver : (((io'.forget r).putRec r k).row r).ver < b := by simpa [JIo.row, JIo.putRec] using hk
    unfold putKey
    simp only
    split
    · rename_i hlive
      rw [hput.cnt] at hlive
      exact ⟨hput.remember hlive fun _ => hrow, hver⟩
    · split
      · exact ⟨hput.same rfl rfl rfl, hver⟩
      · exact ⟨hput, hver⟩
  unfold writeKey
  simp only [Exec.wp_bind, Exec.wp_get, Exec.wp_lift]
  refine ⟨?_, fun _ _ => trivial⟩
  rintro ⟨row, k, n⟩ henc
  obtain ⟨hrow, hk⟩ := encodeKey_ver henc
  have hrow : row.ver < b := hrow ▸ hlt
  have hk : (unpackRow k).ver < b := hk ▸ hlt
  have hpos : 0 < b := by omega
  split
  · -- the index is rewritten wider first
    have grow {io₁ : JIo} (h₁ : io₁.Stamped c P b) :
        Exec.Wp (resizeKeys cfg (n + 1)) io₁
          (fun _ io₂ => (putKey r row k io₂).Stamped c (P \ {r}) b ∧ ((putKey r row k io₂).row r).ver < b)
          (fun _ _ => True) :=
      Exec.wp_mono (h₁.wp_resizeKeys _) (fun _ _ h₂ => last h₂ hrow hk) fun _ _ h' => h'
    split
    · simp only [Exec.wp_bind, Exec.wp_modify, Exec.wp_get, Exec.wp_ret]
      exact grow (h.fill hpos r)
    · simp only [Exec.wp_bind, Exec.wp_modify, Exec.wp_get, Exec.wp_ret]
      exact grow h
  · simp only [Exec.wp_modify, Exec.wp_get, Exec.wp_ret, Exec.wp_bind]
    exact last h hrow hk

end Stamped

/-- After `resize_keys` the rows are as wide as it was asked. -/
theorem resizeKeys_wide (size : ℕ) (io : JIo) :
    Exec.Wp (resizeKeys cfg size) io (fun _ io' => size ≤ io'.indexSize) (fun _ _ => True) := by
  unfold resizeKeys
  rw [Exec.wp_bind, Exec.wp_get]
  extract_lets size'
  split
  · rename_i hs
    have hle : size ≤ size' := le_align8 size
    rw [hs] at hle
    exact hle
  · rw [Exec.wp_bind]
    refine Exec.wp_of_run (fun rows io₁ _ => ?_) fun _ _ _ => trivial
    rw [Exec.wp_bind, Exec.wp_lift]
    refine ⟨fun ks _ => ?_, fun _ _ => trivial⟩
    exact le_align8 size

/-- `write_key` never writes nothing. -/
theorem writeKey_pos (r : ℕ) (a : KeyArgs) (io : JIo) :
    Exec.Wp (writeKey cfg r a) io (fun size _ => 0 < size) (fun _ _ => True) := by
  unfold writeKey
  simp only [Exec.wp_bind, Exec.wp_get, Exec.wp_lift]
  refine ⟨?_, fun _ _ => trivial⟩
  rintro ⟨row, k, n⟩ -
  have hput : ∀ io₁ : JIo, n + 1 ≤ io₁.indexSize → 0 < (putKey r row k io₁).indexSize := by
    intro io₁ h₁
    rw [indexSize_putKey]
    omega
  have hwide : ∀ io₁ : JIo, Exec.Wp (resizeKeys cfg (n + 1)) io₁
      (fun _ io₂ => 0 < (putKey r row k io₂).indexSize) (fun _ _ => True) := fun io₁ =>
    Exec.wp_mono (resizeKeys_wide (n + 1) io₁) (fun _ io₂ h₂ => hput io₂ h₂) fun _ _ h' => h'
  split
  · split
    · simp only [Exec.wp_bind, Exec.wp_modify, Exec.wp_get, Exec.wp_ret]
      exact hwide _
    · simp only [Exec.wp_bind, Exec.wp_modify, Exec.wp_get, Exec.wp_ret]
      exact hwide _
  · rename_i hn
    simp only [Exec.wp_modify, Exec.wp_get, Exec.wp_ret, Exec.wp_bind]
    exact hput io (Nat.le_of_not_lt hn)

end JIo

end OmniJsonDb
