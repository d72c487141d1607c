import OmniJsonDb.Lib.Exec
import OmniJsonDb.Model.Resize

/-!
# The KEY file at another width

Every row is read before it is overwritten, whatever the two widths are; so the new file
holds what the engine read, encoded again.

* `le_tableSize`: the look-ahead is long enough.
* `wp_moveRows`: the loop, by the rows read and written so far.
* `wp_rewrite`: the whole pass.
* `resizeKeys_lossless`: when each row decodes as before.
-/

namespace OmniJsonDb

/-! ## The quotient -/

theorem div_le_roundEven (a b : ℕ) : a / b ≤ roundEven a b := by
  unfold roundEven
  simp only
  split <;> omega

/-- The rounded quotient is no less than the whole part of the exact one. -/
theorem div_le_intDiv {a b : ℕ} (h : a / b < 2 ^ 53) : a / b ≤ intDiv a b := by
  have he : Nat.log2 (a / b) ≤ 52 := by
    rcases Nat.eq_zero_or_pos (a / b) with h0 | h0
    · rw [h0]; decide
    · exact Nat.le_of_lt_succ ((Nat.log2_lt (Nat.ne_of_gt h0)).2 h)
  unfold intDiv
  simp only [he, if_true]
  obtain ⟨s, hs⟩ : ∃ s, s = 52 - (a / b).log2 := ⟨_, rfl⟩
  rw [← hs, Nat.le_div_iff_mul_le (Nat.two_pow_pos s)]
  refine le_trans ?_ (div_le_roundEven _ b)
  rcases Nat.eq_zero_or_pos b with rfl | hb
  · simp
  · rw [Nat.le_div_iff_mul_le hb]
    calc a / b * 2 ^ s * b = a / b * b * 2 ^ s := by rw [Nat.mul_right_comm]
      _ ≤ a * 2 ^ s := Nat.mul_le_mul_right _ (Nat.div_mul_le_self a b)

/-- A quotient of more than 53 bits loses less than one part in `2 ^ 52`. -/
theorem div_le_intDiv_add {a b : ℕ} (h : 2 ^ 53 ≤ a / b) : a / b ≤ intDiv a b + a / b / 2 ^ 52 := by
  have h0 : a / b ≠ 0 := by omega
  have he : 53 ≤ Nat.log2 (a / b) := (Nat.le_log2 h0).2 h
  unfold intDiv
  simp only [show ¬ (a / b).log2 ≤ 52 by omega, if_false]
  have hle : 2 ^ (a / b).log2 ≤ a / b := Nat.log2_self_le h0
  obtain ⟨s, hs⟩ : ∃ s, (a / b).log2 = s + 52 := ⟨_, (Nat.sub_add_cancel (by omega)).symm⟩
  rw [hs] at hle ⊢
  rw [Nat.add_sub_cancel]
  have hround := Nat.mul_le_mul_right (2 ^ s) (div_le_roundEven a (b * 2 ^ s))
  have hpart : 2 ^ s ≤ a / b / 2 ^ 52 := by
    rw [Nat.le_div_iff_mul_le (by decide), ← pow_add]
    exact hle
  rw [← Nat.div_div_eq_div_mul] at hround
  have := Nat.lt_div_mul_add (a := a / b) (Nat.two_pow_pos s)
  omega

namespace KeyFile

open JIo (align8)

variable {c : RowCodec} {kf kf₀ : KeyFile} {size : ℕ}

/-- The rows read ahead make up for the growth of all rows, in a file that `seek` can address. -/
theorem growth_le {n g old : ℕ} (hpos : 0 < old) (hg : 0 < g) (hn : n * g < 2 ^ 63) :
    n * g ≤ (intDiv (n * g) old + 8) * (old + g) := by
  obtain ⟨q, hq⟩ : ∃ q, q = n * g / old := ⟨_, rfl⟩
  obtain ⟨t, ht⟩ : ∃ t, t = intDiv (n * g) old := ⟨_, rfl⟩
  have hlt : n * g < (q + 1) * old := hq ▸ Nat.lt_mul_of_div_lt (Nat.lt_succ_self _) hpos
  rw [← ht]
  have hexpand : (t + 8) * (old + g) = t * old + t * g + 8 * (old + g) := by
    rw [Nat.add_mul, Nat.mul_add]
  have hq1 : (q + 1) * old = q * old + old := by rw [Nat.add_mul, Nat.one_mul]
  rcases Nat.lt_or_ge q (2 ^ 53) with hs | hs
  · have hle : q ≤ t := by rw [hq, ht]; exact div_le_intDiv (hq ▸ hs)
    have := Nat.mul_le_mul_right old hle
    omega
  · -- rows are short when there are so many of them
    have hle : q ≤ t + q / 2 ^ 52 := by rw [ht, hq]; exact div_le_intDiv_add (hq ▸ hs)
    have hold : old < 2 ^ 10 := by
      by_contra hge
      have h₁ : q * old ≤ n * g := hq ▸ Nat.div_mul_le_self _ _
      have h₂ : 2 ^ 53 * 2 ^ 10 ≤ q * old := Nat.mul_le_mul hs (by omega)
      omega
    have h₁ := Nat.mul_le_mul_right old hle
    have h₂ : q / 2 ^ 52 * old ≤ q / 2 ^ 52 * 2 ^ 10 := Nat.mul_le_mul_left _ (by omega)
    have h₃ : t ≤ t * g := Nat.le_mul_of_pos_right _ hg
    have h₄ : (t + q / 2 ^ 52) * old = t * old + q / 2 ^ 52 * old := Nat.add_mul ..
    omega

/-- **The look-ahead is long enough**: what is written never reaches a row that is not read. -/
theorem le_tableSize (hn : pos size kf.cnt.nLines < 2 ^ 63)
    (hpos : 0 < kf.indexSize) {d : ℕ} (hd : d + kf.tableSize size + 1 < kf.cnt.nLines) :
    (d + 1) * size ≤ (d + kf.tableSize size + 1) * kf.indexSize := by
  unfold tableSize at hd ⊢
  split
  · rename_i hlt
    rw [if_pos hlt] at hd
    obtain ⟨g, hg⟩ : ∃ g, g = size - kf.indexSize := ⟨_, rfl⟩
    have hsize : size = kf.indexSize + g := by omega
    have hng : kf.cnt.nLines * g < 2 ^ 63 := by
      have := Nat.mul_le_mul_left kf.cnt.nLines (show g ≤ size by omega)
      unfold pos at hn
      omega
    rw [← hg] at hd ⊢
    have hall := growth_le hpos (by omega) hng
    obtain ⟨t, ht⟩ : ∃ t, t = intDiv (kf.cnt.nLines * g) kf.indexSize + 8 := ⟨_, rfl⟩
    rw [← ht] at hd hall ⊢
    have hmin : min kf.cnt.nLines t = t := by omega
    rw [hmin] at hd ⊢
    have hlast : (d + 1 + t) * g ≤ kf.cnt.nLines * g := Nat.mul_le_mul_right g (by omega)
    rw [Nat.add_mul] at hlast
    rw [Nat.mul_add] at hall
    calc (d + 1) * size = (d + 1) * kf.indexSize + (d + 1) * g := by rw [hsize, Nat.mul_add]
      _ ≤ (d + 1) * kf.indexSize + t * kf.indexSize := by omega
      _ = (d + t + 1) * kf.indexSize := by rw [← Nat.add_mul]; congr 1; omega
  · rename_i hlt
    exact Nat.mul_le_mul (by omega) (by omega)

/-! ## Reading through the cache -/

/-- What `read_key` serves, and the cache after it. -/
def served (rows : OrdDict ℕ Row) (nRecords r : ℕ) (st : Except Err Row) :
    Except Err Row × OrdDict ℕ Row :=
  match rows.get? r with
  | some info => (.ok info, rows.touch r)
  | none =>
    match st with
    | .error e => (.error e, rows)
    | .ok info => (.ok info, if r < nRecords then (rows.set r info).keepLast TOTAL_KEY_ROWS else rows)

theorem readKey_run (r : ℕ) : (readKey c r).run kf =
    ((served kf.keyRows kf.cnt.nRecords r (kf.stored c r)).1,
      { kf with keyRows := (served kf.keyRows kf.cnt.nRecords r (kf.stored c r)).2 }) := by
  unfold readKey served Exec.run
  change Exec.bind Exec.get _ kf = _
  simp only [Exec.bind, Exec.get]
  cases hr : kf.keyRows.get? r with
  | some info => rfl
  | none =>
    cases hs : kf.stored c r with
    | error e =>
      change Exec.bind (Exec.lift _) _ kf = _
      simp only [Exec.bind, Exec.lift]
    | ok info =>
      change Exec.bind (Exec.lift _) _ kf = _
      simp only [Exec.bind, Exec.lift]
      change Exec.bind (Exec.modify _) _ kf = _
      simp only [Exec.bind, Exec.modify]
      split <;> rfl

variable (c) in
/-- The cache once the rows before `k` have been read in order. -/
def cacheAt (kf : KeyFile) : ℕ → OrdDict ℕ Row
  | 0 => kf.keyRows
  | k + 1 => (served (cacheAt kf k) kf.cnt.nRecords k (kf.stored c k)).2

variable (c) in
/-- **What the engine reads** as row `k` when it reads all rows in order: the remembered row,
else the stored one. -/
def readsAt (kf : KeyFile) (k : ℕ) : Except Err Row :=
  (served (kf.cacheAt c k) kf.cnt.nRecords k (kf.stored c k)).1

variable (c) in
/-- The bytes of the new file that row `k` becomes. -/
def becomes (kf : KeyFile) (size k : ℕ) : Except Err Bytes :=
  match kf.readsAt c k with
  | .error e => .error e
  | .ok row => encodeAt c kf.now size row

theorem becomes_length {k : ℕ} {data : Bytes} (h : kf.becomes c size k = .ok data) :
    data.length = size ∧ 0 < size := by
  unfold becomes at h
  split at h
  · cases h
  · unfold encodeAt at h
    split at h
    · cases h
    · split at h
      · cases h
      · cases h
        simp only [padRow, List.length_append, List.length_replicate, List.length_singleton]
        omega

/-- A row that lies in the file whole. -/
theorem readInto_eq {f : ByteFile} {off n : ℕ} (hn : 0 < n) (h : off + n ≤ f.size) :
    readInto f off n = f.read off n := by
  have hlen : (f.read off n).length = n := by rw [ByteFile.length_read]; omega
  unfold readInto
  simp only
  rw [if_neg (by intro h0; rw [h0] at hlen; simp at hlen; omega), hlen, Nat.sub_self, List.replicate_zero,
    List.append_nil]

theorem pos_succ (size r : ℕ) : pos size (r + 1) = pos size r + size := by
  unfold pos; rw [Nat.succ_mul]; omega

theorem pos_mono {size r s : ℕ} (h : r ≤ s) : pos size r ≤ pos size s :=
  Nat.add_le_add_left (Nat.mul_le_mul_right size h) _

/-! ## The loop -/

/-- The rows before `src` have been read, the rows before `dst` written. -/
structure Moving (c : RowCodec) (kf₀ : KeyFile) (size src dst : ℕ) (table : Table) (kf : KeyFile) : Prop where
  rest : kf = { kf₀ with file := kf.file, keyRows := kf₀.cacheAt c src }
  len : kf₀.file.size ≤ kf.file.size
  unread : ∀ j, src ≤ j → j < kf₀.cnt.nLines →
    kf.file.read (pos kf₀.indexSize j) kf₀.indexSize = kf₀.file.read (pos kf₀.indexSize j) kf₀.indexSize
  table : ∀ j, dst ≤ j → j < src → ∃ row, kf₀.readsAt c j = .ok row ∧ table.get? j = some row
  written : ∀ i, i < dst → pos size (i + 1) ≤ kf.file.size ∧
    kf₀.becomes c size i = .ok (kf.file.read (pos size i) size)

section Loop

variable {src dst : ℕ} {table : Table} (hfile : pos kf₀.indexSize kf₀.cnt.nLines ≤ kf₀.file.size)
  (hrows : ∀ i, i < kf₀.cnt.nLines → ∃ data, kf₀.becomes c size i = .ok data)
include hfile hrows

/-- Reading one more row. -/
theorem Moving.read (hpos : 0 < kf₀.indexSize) (h : Moving c kf₀ size src dst table kf)
    (hsrc : src < kf₀.cnt.nLines) :
    Exec.Wp (readKey c src) kf (fun row kf' => Moving c kf₀ size (src + 1) dst (table.set src row) kf')
      (fun _ _ => False) := by
  have hin : pos kf₀.indexSize src + kf₀.indexSize ≤ kf₀.file.size := by
    rw [← pos_succ]
    exact (pos_mono hsrc).trans hfile
  have hst : kf.stored c src = kf₀.stored c src := by
    unfold stored
    rw [h.rest]
    simp only
    rw [readInto_eq hpos (hin.trans h.len), readInto_eq hpos hin, h.unread src le_rfl hsrc]
  have hcache : kf.keyRows = kf₀.cacheAt c src := by rw [h.rest]
  have hcnt : kf.cnt = kf₀.cnt := by rw [h.rest]
  obtain ⟨row, hrow⟩ : ∃ row, kf₀.readsAt c src = .ok row := by
    obtain ⟨data, hd⟩ := hrows src hsrc
    unfold becomes at hd
    split at hd
    · cases hd
    · rename_i row hrow
      exact ⟨row, hrow⟩
  refine Exec.wp_of_run ?_ ?_
  all_goals
    intro a kf' hrun
    rw [readKey_run, hst, hcache, hcnt] at hrun
    obtain ⟨ha, rfl⟩ := Prod.mk.inj hrun
    have ha := (show kf₀.readsAt c src = _ from ha).symm.trans hrow
  · obtain rfl := Except.ok.inj ha
    refine ⟨?_, h.len, fun j hj hjn => h.unread j (by omega) hjn, fun j hj hjs => ?_, h.written⟩
    · rw [h.rest]; rfl
    · rw [OrdDict.get?_set]
      by_cases hjr : j = src
      · subst hjr
        exact ⟨a, hrow, if_pos rfl⟩
      · rw [if_neg hjr]
        exact h.table j hj (by omega)
  · cases ha

/-- **Writing the next row**, where it does not reach a row that is not read. -/
theorem Moving.write (h : Moving c kf₀ size src dst table kf) (hdst : dst < src) (hsrc : src ≤ kf₀.cnt.nLines)
    (hreach : src < kf₀.cnt.nLines → (dst + 1) * size ≤ src * kf₀.indexSize) {row : Row}
    (hrow : table.get? dst = some row) :
    Exec.Wp (writeKey c size dst row) kf
      (fun _ kf' => Moving c kf₀ size src (dst + 1) (table.pop dst) kf') (fun _ _ => False) := by
  obtain ⟨row', hreads, hget⟩ := h.table dst le_rfl hdst
  obtain rfl := Option.some.inj (hrow.symm.trans hget)
  obtain ⟨data, hdata⟩ := hrows dst (by omega)
  have hlen := (becomes_length hdata).1
  have henc : encodeAt c kf.now size row = .ok data := by
    unfold becomes at hdata
    rw [hreads] at hdata
    rw [h.rest]
    exact hdata
  unfold writeKey
  simp only [Exec.wp_bind, Exec.wp_get, Exec.wp_lift, henc, Exec.wp_modify]
  refine ⟨fun a ha => ?_, fun e he => by cases he⟩
  obtain rfl := Except.ok.inj ha
  have hends : pos size (dst + 1) = pos size dst + data.length := by rw [pos_succ, hlen]
  refine ⟨?_, h.len.trans (ByteFile.size_le_write ..), fun j hj hjn => ?_, fun j hj hjs => ?_, fun i hi => ?_⟩
  · rw [h.rest]
  · -- a row that is not read lies behind what is written
    rw [← h.unread j hj hjn]
    refine ByteFile.read_write_of_disjoint _ ?_ (.inr ?_)
    · rw [← pos_succ]
      exact ((pos_mono (by omega)).trans hfile).trans h.len
    · rw [← hends]
      have := hreach (by omega)
      have hj' : src * kf₀.indexSize ≤ j * kf₀.indexSize := Nat.mul_le_mul_right _ hj
      unfold pos
      omega
  · obtain ⟨row', hr, hg⟩ := h.table j (by omega) hjs
    refine ⟨row', hr, ?_⟩
    rw [OrdDict.get?_pop, if_neg (by omega)]
    exact hg
  · rcases Nat.lt_succ_iff_lt_or_eq.1 hi with hi | rfl
    · obtain ⟨hsz, hw⟩ := h.written i hi
      refine ⟨hsz.trans (ByteFile.size_le_write ..), hw.trans (congrArg _ (Eq.symm ?_))⟩
      refine ByteFile.read_write_of_disjoint _ ?_ (.inl ?_)
      · rw [← pos_succ]; exact hsz
      · rw [← pos_succ]; exact pos_mono hi
    · refine ⟨?_, hdata.trans (congrArg _ (Eq.symm ?_))⟩
      · rw [hends]; exact ByteFile.end_le_write ..
      · have := ByteFile.read_write_self kf.file (pos size i) data
        rwa [hlen] at this

/-- Reading ahead. -/
theorem wp_fillTable (hpos : 0 < kf₀.indexSize) (m : ℕ) : ∀ (src : ℕ) (table : Table) (kf : KeyFile),
    Moving c kf₀ size src 0 table kf → src + m ≤ kf₀.cnt.nLines →
    Exec.Wp (fillTable c m src table) kf (fun table' kf' => Moving c kf₀ size (src + m) 0 table' kf')
      (fun _ _ => False) := by
  induction m with
  | zero => intro src table kf h _; exact h
  | succ m ih =>
    intro src table kf h hm
    unfold fillTable
    rw [Exec.wp_bind]
    refine Exec.wp_mono (h.read hfile hrows hpos (by omega)) ?_ fun _ _ h' => h'
    intro row kf₁ h₁
    have := ih (src + 1) _ kf₁ h₁ (by omega)
    rwa [show src + 1 + m = src + (m + 1) by omega] at this

/-- **A round** writes the row that has been read, and goes on behind it. -/
theorem Moving.put (h : Moving c kf₀ size src dst table kf) (hdst : dst < src) (hsrc : src ≤ kf₀.cnt.nLines)
    (hreach : src < kf₀.cnt.nLines → (dst + 1) * size ≤ src * kf₀.indexSize) {rest : KeyM Unit}
    {Q : Unit → KeyFile → Prop}
    (hrest : ∀ kf₁, Moving c kf₀ size src (dst + 1) (table.pop dst) kf₁ → Exec.Wp rest kf₁ Q fun _ _ => False) :
    Exec.Wp (match table.get? dst with
      | none => pure ()
      | some row => do
        writeKey c size dst row
        rest) kf Q (fun _ _ => False) := by
  obtain ⟨row, -, hrow⟩ := h.table dst le_rfl hdst
  rw [hrow]
  simp only [Exec.wp_bind]
  refine Exec.wp_mono (h.write hfile hrows hdst hsrc hreach hrow) ?_ fun _ _ h' => h'
  exact fun _ kf₁ h₁ => hrest kf₁ h₁

/-- **The loop** writes every row. -/
theorem wp_moveRows (hpos : 0 < kf₀.indexSize)
    (hn : pos size kf₀.cnt.nLines < 2 ^ 63) (m : ℕ) :
    ∀ (dst : ℕ) (table : Table) (kf : KeyFile), dst + m = kf₀.cnt.nLines →
    Moving c kf₀ size (min kf₀.cnt.nLines (dst + kf₀.tableSize size)) dst table kf →
    Exec.Wp (moveRows c size m (min kf₀.cnt.nLines (dst + kf₀.tableSize size)) dst table) kf
      (fun _ kf' => ∃ table', Moving c kf₀ size kf₀.cnt.nLines kf₀.cnt.nLines table' kf')
      (fun _ _ => False) := by
  induction m with
  | zero =>
    intro dst table kf hm h
    obtain rfl : dst = kf₀.cnt.nLines := by omega
    rw [Nat.min_eq_left (Nat.le_add_right _ _)] at h
    exact ⟨table, h⟩
  | succ m ih =>
    intro dst table kf hm h
    obtain ⟨t, ht⟩ : ∃ t, t = kf₀.tableSize size := ⟨_, rfl⟩
    rw [← ht] at h ih ⊢
    have hcnt : kf.cnt = kf₀.cnt := by rw [h.rest]
    -- the row that is written has been read, and the ones not read are out of reach
    have hput (table : Table) (kf : KeyFile)
        (h : Moving c kf₀ size (min kf₀.cnt.nLines (dst + 1 + t)) dst table kf) :=
      h.put hfile hrows (by omega) (Nat.min_le_left _ _) (fun hlt => by
        have hlt' : dst + t + 1 < kf₀.cnt.nLines := by omega
        rw [show min kf₀.cnt.nLines (dst + 1 + t) = dst + t + 1 by omega, ht]
        exact le_tableSize hn hpos (by omega)) fun kf₁ h₁ => ih (dst + 1) _ kf₁ (by omega) h₁
    unfold moveRows
    simp only [Exec.wp_bind, Exec.wp_get, hcnt]
    split
    · rename_i hlt
      simp only [Exec.wp_bind, Exec.wp_ret]
      refine Exec.wp_mono (h.read hfile hrows hpos hlt) ?_ fun _ _ h' => h'
      intro row kf₁ h₁
      rw [show min kf₀.cnt.nLines (dst + t) + 1 = min kf₀.cnt.nLines (dst + 1 + t) by omega] at h₁ ⊢
      exact hput _ kf₁ h₁
    · rename_i hge
      rw [Exec.wp_bind, Exec.wp_ret]
      dsimp only
      rw [show min kf₀.cnt.nLines (dst + t) = min kf₀.cnt.nLines (dst + 1 + t) by omega] at h ⊢
      exact hput _ kf h

end Loop

/-! ## The whole file -/

/-- The file at its new width: every row is what the old one became. -/
structure Rewritten (c : RowCodec) (kf : KeyFile) (size : ℕ) (kf' : KeyFile) : Prop where
  width : kf'.indexSize = size
  cnt : kf'.cnt = kf.cnt
  len : pos size kf.cnt.nLines ≤ kf'.file.size
  rows : ∀ i, i < kf.cnt.nLines → kf.becomes c size i = .ok (kf'.file.read (pos size i) size)

theorem Rewritten.stored {kf' : KeyFile} (h : Rewritten c kf size kf') {i : ℕ} (hi : i < kf.cnt.nLines)
    {data : Bytes} (hd : kf.becomes c size i = .ok data) : kf'.stored c i = c.loads data := by
  have hin : pos size i + size ≤ kf'.file.size := by
    rw [← pos_succ]
    exact (pos_mono hi).trans h.len
  unfold KeyFile.stored
  rw [h.width, readInto_eq (becomes_length hd).2 hin]
  exact congrArg c.loads (Except.ok.inj ((h.rows i hi).symm.trans hd))

/-- The header leaves the rows alone. -/
theorem wp_writeHeader {table : Table} (h : Moving c kf₀ size kf₀.cnt.nLines kf₀.cnt.nLines table kf)
    (hhead : (c.head kf₀.cnt size).length < HEADER_SIZE) :
    Exec.Wp (writeHeader c)
      { kf with file := kf.file.truncate (pos size kf.cnt.nLines), indexSize := size }
      (fun _ kf' => Rewritten c kf₀ size kf') (fun _ _ => False) := by
  have hcnt : kf.cnt = kf₀.cnt := by rw [h.rest]
  have hlen : (padRow (c.head kf₀.cnt size) HEADER_SIZE).length = HEADER_SIZE := by
    simp only [padRow, List.length_append, List.length_replicate, List.length_singleton]
    omega
  unfold writeHeader
  simp only [Exec.wp_bind, Exec.wp_get, hcnt]
  rw [if_neg (by omega), Exec.wp_modify]
  obtain ⟨f, hf⟩ : ∃ f, f = (kf.file.truncate (pos size kf₀.cnt.nLines)).write 0
    (padRow (c.head kf₀.cnt size) HEADER_SIZE) := ⟨_, rfl⟩
  have hsize : pos size kf₀.cnt.nLines ≤ f.size := by
    rw [hf]
    exact ByteFile.size_le_write (kf.file.truncate _) ..
  -- the rows are behind the header, and before the end of the file
  have hread : ∀ i, i < kf₀.cnt.nLines → f.read (pos size i) size = kf.file.read (pos size i) size := by
    intro i hi
    have hend : pos size i + size ≤ pos size kf₀.cnt.nLines := by
      rw [← pos_succ]; exact pos_mono hi
    rw [hf, ByteFile.read_write_of_disjoint _ hend (.inr ?_), ByteFile.read_truncate _ ?_ hend]
    · rw [← pos_succ]; exact (h.written i hi).1
    · rw [hlen]; exact Nat.le_add_right _ _
  rw [← hf]
  split
  · refine ⟨rfl, rfl, hsize.trans (ByteFile.size_le_write ..), fun i hi => ?_⟩
    have hend : pos size i + size ≤ f.size := by
      rw [← pos_succ]; exact (pos_mono hi).trans hsize
    rw [(h.written i hi).2, ← hread i hi]
    exact congrArg _ (ByteFile.read_write_of_disjoint _ hend (.inl hend)).symm
  · refine ⟨rfl, rfl, hsize, fun i hi => ?_⟩
    rw [(h.written i hi).2, ← hread i hi]

/-- **Reading and writing all rows**: whatever the width, every row becomes what was read of it. -/
theorem wp_rewrite (hfile : pos kf.indexSize kf.cnt.nLines ≤ kf.file.size)
    (hrows : ∀ i, i < kf.cnt.nLines → ∃ data, kf.becomes c size i = .ok data) (hpos : 0 < kf.indexSize)
    (hn : pos size kf.cnt.nLines < 2 ^ 63) (hhead : (c.head kf.cnt size).length < HEADER_SIZE) :
    Exec.Wp (do
      let table ← fillTable c (kf.tableSize size) 0 OrdDict.empty
      moveRows c size kf.cnt.nLines (kf.tableSize size) 0 table
      Exec.modify fun kf => { kf with file := kf.file.truncate (pos size kf.cnt.nLines), indexSize := size }
      writeHeader c) kf (fun _ kf' => Rewritten c kf size kf') fun _ _ => False := by
  have hT : kf.tableSize size ≤ kf.cnt.nLines := by
    unfold tableSize; split <;> omega
  have hstart : Moving c kf size 0 0 OrdDict.empty kf :=
    ⟨rfl, le_rfl, fun _ _ _ => rfl, fun _ _ h => absurd h (Nat.not_lt_zero _), fun _ h => absurd h (Nat.not_lt_zero _)⟩
  rw [Exec.wp_bind]
  refine Exec.wp_mono (wp_fillTable hfile hrows hpos (kf.tableSize size) 0 OrdDict.empty kf hstart (by omega)) ?_
    fun _ _ h' => h'
  intro table kf₁ h₁
  have hmin : min kf.cnt.nLines (0 + kf.tableSize size) = kf.tableSize size := by omega
  have hmove := wp_moveRows hfile hrows hpos hn kf.cnt.nLines 0 table kf₁ (by omega)
    (by rw [hmin]; rwa [Nat.zero_add] at h₁)
  rw [hmin] at hmove
  rw [Exec.wp_bind]
  refine Exec.wp_mono hmove ?_ fun _ _ h' => h'
  rintro _ kf₂ ⟨table', h₂⟩
  rw [Exec.wp_bind, Exec.wp_modify]
  exact wp_writeHeader h₂ hhead

variable (c) in
/-- **A row survives**: what the engine reads as row `k`, encoded for the new width, decodes to
what the stored row does. -/
def Survives (kf : KeyFile) (size k : ℕ) : Prop :=
  ∃ data, kf.becomes c size k = .ok data ∧ c.loads data = kf.stored c k

instance (kf : KeyFile) (size k : ℕ) : Decidable (kf.Survives c size k) :=
  match h : kf.becomes c size k with
  | .ok data => decidable_of_iff (c.loads data = kf.stored c k)
      ⟨fun hs => ⟨data, h, hs⟩, fun ⟨_, hd, hs⟩ => Except.ok.inj (h.symm.trans hd) ▸ hs⟩
  | .error _ => isFalse fun ⟨_, hd, _⟩ => nomatch h.symm.trans hd

variable (c kf size) in
/-- **Rewriting the KEY file at another width**: for a file that holds `nLines` rows, whatever the
two widths, every row decodes as before just when it survives being read and encoded again. -/
theorem resizeKeys_lossless (hpos : 0 < kf.indexSize) (hfile : pos kf.indexSize kf.cnt.nLines ≤ kf.file.size)
    (hrows : ∀ i, i < kf.cnt.nLines → ∃ data, kf.becomes c (align8 size) i = .ok data)
    (hhead : (c.head kf.cnt (align8 size)).length < HEADER_SIZE)
    (hn : pos (align8 size) kf.cnt.nLines < 2 ^ 63) :
    ∃ kf', (resizeKeys c size).run kf = (.ok (), kf') ∧ kf'.indexSize = align8 size ∧ kf'.cnt = kf.cnt ∧
      ((∀ i, i < kf.cnt.nLines → kf'.stored c i = kf.stored c i) ↔
        kf.indexSize = align8 size ∨ ∀ i, i < kf.cnt.nLines → kf.Survives c (align8 size) i) := by
  obtain ⟨w, hw⟩ : ∃ w, w = align8 size := ⟨_, rfl⟩
  rw [← hw] at hrows hhead hn ⊢
  have hwp : Exec.Wp (resizeKeys c size) kf
      (fun _ kf' => kf.indexSize = w ∧ kf' = kf ∨ kf.indexSize ≠ w ∧ Rewritten c kf w kf') fun _ _ => False := by
    unfold resizeKeys
    simp only [Exec.wp_bind, Exec.wp_get, ← hw]
    split
    · rename_i hsame
      exact .inl ⟨hsame.symm, rfl⟩
    · rename_i hsame
      exact Exec.wp_mono (wp_rewrite hfile hrows hpos hn hhead) (fun _ _ h => .inr ⟨Ne.symm hsame, h⟩) fun _ _ h => h
  obtain ⟨⟨⟩, kf', hrun, hout⟩ := hwp.returns
  refine ⟨kf', hrun, ?_⟩
  rcases hout with ⟨hsame, rfl⟩ | ⟨hsame, hout⟩
  · exact ⟨hsame, rfl, fun _ => .inl hsame, fun _ _ _ => rfl⟩
  · refine ⟨hout.width, hout.cnt, ?_⟩
    have hst : ∀ i, i < kf.cnt.nLines → ∃ data, kf.becomes c w i = .ok data ∧ kf'.stored c i = c.loads data := by
      intro i hi
      obtain ⟨data, hd⟩ := hrows i hi
      exact ⟨data, hd, hout.stored hi hd⟩
    constructor
    · intro h
      refine .inr fun i hi => ?_
      obtain ⟨data, hd, hs⟩ := hst i hi
      exact ⟨data, hd, hs.symm.trans (h i hi)⟩
    · rintro (h | h) i hi
      · exact absurd h hsame
      · obtain ⟨data, hd, hs⟩ := hst i hi
        obtain ⟨data', hd', hs'⟩ := h i hi
        obtain rfl := Except.ok.inj (hd.symm.trans hd')
        exact hs.trans hs'

/-! ## JSON rows -/

/-- `KEY_dumps` of the JSON codec, of a key without escapes. -/
def jsonDumps (r : Row) : Except Err Bytes :=
  match packRow r with
  | .error e => .error e
  | .ok k => .ok (['[', '"'] ++ k.key ++ ['"'] ++
      ([k.fileId, k.offset, k.rowSize, k.valSize, k.ver, k.days, k.flags].flatMap fun n => ',' :: Nat.toDigits 10 n)
        ++ [']'] |>.map fun ch => ch.toNat.toUInt8)

/-- The numbers that follow commas, up to the bracket. -/
def jsonNums : List ℕ → Bytes → Except Err (List ℕ)
  | ns, 44 :: rest => jsonNums (0 :: ns) rest
  | ns, 93 :: _ => .ok ns.reverse
  | n :: ns, b :: rest => jsonNums ((n * 10 + (b.toNat - 48)) :: ns) rest
  | _, _ => .error .value

/-- `KEY_loads` of the JSON codec, of a key without escapes. -/
def jsonLoads (data : Bytes) : Except Err Row :=
  let text := data.drop 2
  let key := text.takeWhile (· ≠ 34)
  match jsonNums [] (text.drop (key.length + 1)) with
  | .ok [fileId, offset, rowSize, valSize, ver, days, flags] =>
    .ok (unpackRow ⟨key.map fun b => Char.ofNat b.toNat, fileId, offset, rowSize, valSize, ver, days, flags⟩)
  | _ => .error .value

def jsonRows : RowCodec := ⟨jsonDumps, jsonLoads, fun _ _ => []⟩

/-- A file of one line, of rows of 80 bytes, on day 20000. -/
def oneRow : KeyFile where
  file := ByteFile.empty
  indexSize := 80
  cnt := { nRecords := 1, nLines := 1, syncId := 1 }
  fileSize := 0
  now := 20000 * MIN_OF_DAY
  keyRows := OrdDict.empty

/-- The file once its row has been written. -/
def written (a : KeyArgs) : KeyFile := ((putKey jsonRows 0 a).run oneRow).2

/-- A record of today. -/
def todayArgs : KeyArgs := { key := ['A'], fileId := 3, offset := 5, rowSize := 0, ttl := .days 5 }

theorem resizeKeys_plain : ∃ kf', (resizeKeys jsonRows 90).run (written todayArgs) = (.ok (), kf') ∧
    kf'.stored jsonRows 0 = (written todayArgs).stored jsonRows 0 := by
  have hlines : (written todayArgs).cnt.nLines = 1 := by decide +kernel
  have hrow : ∀ i, i < (written todayArgs).cnt.nLines →
      (written todayArgs).Survives jsonRows (align8 90) i := by
    intro i hi
    obtain rfl : i = 0 := by omega
    decide +kernel
  obtain ⟨kf', hrun, -, -, hrows⟩ := resizeKeys_lossless jsonRows (written todayArgs) 90
    (by decide +kernel) (by decide +kernel) (fun i hi => (hrow i hi).imp fun _ h => h.1) (by decide +kernel)
    (by decide +kernel)
  exact ⟨kf', hrun, hrows.2 (.inr hrow) 0 (by omega)⟩

/-- **A remembered row that is not the stored one**: created after today and changed today, it is
encoded from the cache; the stored date of the change is another one. -/
theorem resizeKeys_fails : ∃ kf', (resizeKeys jsonRows 90).run
      (written { todayArgs with cdays := some 80000 }) = (.ok (), kf') ∧
    kf'.stored jsonRows 0 ≠ (written { todayArgs with cdays := some 80000 }).stored jsonRows 0 := by
  have hrun : ((resizeKeys jsonRows 90).run (written { todayArgs with cdays := some 80000 })).1 = .ok () := by
    decide +kernel
  exact ⟨_, Prod.ext hrun rfl, by decide +kernel⟩

end KeyFile

end OmniJsonDb
