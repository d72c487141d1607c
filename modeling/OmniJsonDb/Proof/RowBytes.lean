import OmniJsonDb.Proof.Index
import OmniJsonDb.Proof.KeyRows

/-!
# Stored rows as bytes

The engine over a built-in codec, in any of the three layouts: what its stored fields are as bytes,
and which rows these bytes give back.

* `KeyRec.bytes`: the bytes of a stored row.
* `Config.coded`: the engine whose rows are such bytes.
* `Kept`: the stored rows whose bytes give back what `unpackRow` does.
-/

namespace OmniJsonDb

variable {c : KeyCodec} {l : Layout} {r : Row} {k : KeyRec}

/-! ## The bytes of a stored row -/

/-- The stored fields behind the key, as the layout has them. -/
def Layout.fields (l : Layout) (k : KeyRec) : List ℕ :=
  let marked := k.days ||| ((k.flags &&& KEY_FLAG_MASK) <<< KEY_FLAG_SHIFT)
  match l with
  | v0 => [k.fileId, k.offset, k.rowSize ||| (k.valSize <<< 32), k.ver, marked]
  | v1 => [k.fileId, k.offset, k.rowSize, k.valSize, k.ver, marked]
  | v2 => [k.fileId, k.offset, k.rowSize, k.valSize, k.ver, k.days, k.flags]

/-- What a codec makes of a key and the numbers behind it. -/
def KeyCodec.encode (c : KeyCodec) (l : Layout) (key : List CodePoint) (ns : List ℕ) : Except Err Bytes :=
  match c with
  | J json => json.dumps key ns
  | S msgpack => do
    let info ← msgpack.dumps key ns
    if 0xFF < info.length >>> 8 then .error .value
    else return [0xCD, UInt8.ofNat (info.length >>> 8), UInt8.ofNat (info.length &&& 0xFF)] ++ info
  | M marshal => marshal.dumps key ns
  | L => do
    let texts ← ns.mapM natText
    utf8Bytes (key ++ JIoKEY_L.tail l texts)

/-- **The bytes of a stored row**, in front of their padding. -/
def KeyRec.bytes (c : KeyCodec) (l : Layout) (k : KeyRec) : Except Err Bytes :=
  c.encode l (k.key.map toPoint) (l.fields k)

theorem KeyCodec.dumps_eq (r : KeyInfo ℕ) : c.dumps l r = l.packed r >>= c.encode l r.key := by
  cases c <;> rfl

theorem Layout.length_fields (k : KeyRec) : (l.fields k).length + 1 = l.width := by
  cases l <;> rfl

/-- What is packed is what the layouts store. -/
theorem Layout.packed_keyInfo (h : packRow r = .ok k) : l.packed r.keyInfo = .ok (l.fields k) := by
  unfold packRow at h
  unfold packed Row.keyInfo
  split at h
  · cases h
  · rename_i d hd
    cases h
    simp only [hd]
    cases l <;> rfl

theorem key_packRow (h : packRow r = .ok k) : k.key = r.key := by
  unfold packRow at h
  split at h
  · cases h
  · cases h
    rfl

/-- **`KEY_dumps`** gives the bytes of what is stored. -/
theorem dumps_packRow (h : packRow r = .ok k) : c.dumps l r.keyInfo = k.bytes c l := by
  rw [KeyCodec.dumps_eq, Layout.packed_keyInfo h, KeyRec.bytes, key_packRow h]
  rfl

/-! ## Rows that the layouts give back -/

/-- **What a layout has no room for**: in `v0` the sizes share a number, and `v0` and `v1` derive the group
bit of a row from its type id. -/
def Layout.Keeps (l : Layout) (r : Row) : Prop := (l = .v0 → r.rowSize < 2 ^ 32) ∧ (l ≠ .v2 → ¬ r.keyInfo.Nameless)

instance (l : Layout) : DecidablePred l.Keeps := fun r => by
  unfold Layout.Keeps KeyInfo.Nameless
  infer_instance

/-- A lifetime that `write_key` leaves as it is, and that can be packed, is one of `conv_ttl`. -/
theorem conv_of_dayField {c m d : ℕ} {ttl : Ttl} (ht : ttl.clamp = ttl) (hd : dayField c m ttl = .ok d) : ttl.Conv := by
  cases ttl with
  | days n =>
    refine .days ?_
    by_contra hn
    unfold Ttl.clamp at ht
    unfold MAX_TTL_DAYS MIN_OF_DAY at *
    rw [Ttl.len_days, if_neg (by omega), if_neg (by omega)] at ht
    cases ht
    exact hn (le_refl _)
  | mins n =>
    have hpos : n ≠ 0 := by
      rintro rfl
      cases ht
    by_cases hn : n < MIN_OF_DAY
    · exact .mins (Nat.pos_of_ne_zero hpos) hn
    · -- a `float` of a day and more cannot be shifted
      have hsub : (Ttl.mins n).subDay = false := by
        unfold Ttl.subDay
        rw [Ttl.len_mins, Bool.and_eq_false_iff, decide_eq_false_iff_not, decide_eq_false_iff_not]
        exact .inr hn
      unfold dayField at hd
      rw [Ttl.len_mins, if_neg hpos, hsub, if_neg (by decide), ht] at hd
      cases hd

theorem dayField_packRow (h : packRow r = .ok k) :
    dayField r.cdays r.mdays r.ttl = .ok k.days ∧ k.flags = r.flags ∧ k.fileId = r.fileId ∧ k.offset = r.offset ∧
      k.rowSize = r.rowSize ∧ k.valSize = r.valSize ∧ k.ver = r.ver := by
  unfold packRow at h
  split at h
  · cases h
  · rename_i d hd
    cases h
    exact ⟨hd, rfl, rfl, rfl, rfl, rfl, rfl⟩

/-- **Every layout decodes what it stores**, as `unpackRow` does. -/
theorem Layout.unpacked_fields (hs : r.Settled) (hd : r.DatesFit) (hl : l.Keeps r) (h : packRow r = .ok k) :
    l.unpacked r.keyInfo.key ((l.fields k).map Nat.cast) = .ok r.keyInfo.toInt := by
  obtain ⟨ht, hc, -, -, he⟩ := hs.spec
  obtain ⟨hday, hflags, hid, hoffset, hrow, hval, hver⟩ := dayField_packRow h
  have hlt : k.days < 2 ^ 48 := dayField_lt hc hd.2 (conv_of_dayField ht hday) hday
  have hnormal : normalFlags r.args = r.flags := congrArg (fun r : Row => r.flags) hs
  have hmask : r.flags ≤ KEY_FLAG_MASK := by
    rw [← hnormal]
    exact normalFlags_le _
  have hdates : unpackDays k.days (has r.flags EXPIRE) = (r.cdays, r.mdays, r.ttl) := by
    rw [unpackDays_eq, ← hflags, ← unpackRow_dates, unpackRow_packRow hs hd h]
  have hmarked : l ≠ .v2 → r.keyInfo.Marked := by
    intro hl' hgroup hsize
    by_cases hkey : r.key = []
    · by_contra hg
      have hnil : r.keyInfo.key = [] := by rw [Row.keyInfo, hkey, List.map_nil]
      exact hl.2 hl' ⟨hnil, hgroup, hsize, by simpa using hg⟩
    · change has r.flags GROUP = true
      rw [← hnormal]
      exact has_group_normalFlags hkey hgroup hsize
  have hnumbers : l = .v0 → r.rowSize < 2 ^ 32 := hl.1
  have hfields : l.fields k = l.numbers r.keyInfo k.days := by
    have hmark : k.days ||| ((r.flags &&& KEY_FLAG_MASK) <<< KEY_FLAG_SHIFT) = withFlags k.days r.flags := by
      rw [and_mask_of_le 16 (by decide) hmask, KEY_FLAG_SHIFT, or_shiftLeft _ hlt, withFlags]
    unfold fields numbers Row.keyInfo
    simp only [hflags, hid, hoffset, hrow, hval, hver, hmark]
    cases l with
    | v0 => simp only [or_shiftLeft r.valSize (hnumbers rfl)]
    | v1 => rfl
    | v2 => rfl
  rw [hfields]
  exact unpacked_numbers (r := r.keyInfo) hnumbers hmask hmarked hlt hdates

/-- The stored row is one that is settled, whose dates fit, that the layout keeps and the codec takes. -/
def KeyRec.Kept (c : KeyCodec) (l : Layout) (k : KeyRec) : Prop :=
  ∃ r, packRow r = .ok k ∧ r.Settled ∧ r.DatesFit ∧ l.Keeps r ∧ ∃ bs, k.bytes c l = .ok bs

/-- **The bytes of such a row decode to it**, whatever they are padded to. -/
theorem KeyRec.Kept.loads (hk : k.Kept c l) (hc : c.Sound) : ∃ bs, k.bytes c l = .ok bs ∧
    ∀ size, c.loads l (KeyFile.padRow bs size) = .ok (unpackRow k).keyInfo.toInt := by
  obtain ⟨r, hpack, hs, hd, hl, bs, hbs⟩ := hk
  refine ⟨bs, hbs, ?_⟩
  intro size
  have hdumps : c.dumps l r.keyInfo = .ok bs := (dumps_packRow hpack).trans hbs
  rw [KeyCodec.loads_packed hc (Layout.packed_keyInfo hpack) (Layout.length_fields k) hdumps,
    Layout.unpacked_fields hs hd hl hpack, unpackRow_packRow hs hd hpack]

/-- The empty row is kept when the codec takes it. -/
theorem kept_empty (h : ∃ bs, JIo.emptyRec.bytes c l = .ok bs) : JIo.emptyRec.Kept c l := by
  refine ⟨unpackRow JIo.emptyRec, by decide +kernel, by decide +kernel, by decide +kernel, ?_, h⟩
  exact ⟨fun _ => by decide, fun _ hn => absurd hn.2.1 (by decide)⟩

/-! ## The engine over a codec -/

/-- **The configuration whose rows are encoded** by a built-in codec, in a layout. -/
def Config.coded (cfg : Config) (c : KeyCodec) (l : Layout) : Config :=
  { cfg with
    keyDumps := fun r => match packRow r with
      | .error e => .error e
      | .ok k => match c.dumps l r.keyInfo with
        | .error _ => .error .value
        | .ok bs => .ok (k, bs.length)
    keyDumps_pack := by
      intro r k n h
      split at h
      · cases h
      · split at h
        · cases h
        · cases h
          assumption
    keyDumps_error := by
      intro r h
      split at h
      · rename_i e he
        cases h
        cases packRow_error he
      · split at h <;> cases h }

variable {cfg : Config} {n : ℕ}

theorem coded_ok (h : (cfg.coded c l).keyDumps r = .ok (k, n)) :
    packRow r = .ok k ∧ ∃ bs, k.bytes c l = .ok bs ∧ n = bs.length := by
  have hpack : packRow r = .ok k := (cfg.coded c l).keyDumps_pack _ _ _ h
  refine ⟨hpack, ?_⟩
  simp only [Config.coded, hpack] at h
  split at h
  · cases h
  · rename_i bs hbs
    cases h
    exact ⟨bs, (dumps_packRow hpack).symm.trans hbs, rfl⟩

/-- A row that survives, in a layout that keeps it. -/
def storing (cfg : Config) (l : Layout) (r : Row) (k : KeyRec) (n : ℕ) : Bool :=
  surviving cfg r k n && decide (l.Keeps r)

/-- What the engine encodes of such rows is kept. -/
theorem kept_of_storing (h : ((cfg.coded c l).refusing (storing (cfg.coded c l) l)).keyDumps r = .ok (k, n)) :
    k.Kept c l := by
  obtain ⟨hd, hs⟩ := refusing_ok h
  obtain ⟨hpack, bs, hbs, -⟩ := coded_ok hd
  rw [storing, Bool.and_eq_true, decide_eq_true_eq] at hs
  obtain ⟨-, hset, hfit⟩ := of_decide_eq_true hs.1
  exact ⟨r, hpack, hset, hfit, hs.2, bs, hbs⟩

/-! ## Every stored row -/

namespace JIo

/-- What holds of every stored row. -/
def AllStored (P : KeyRec → Prop) (io : JIo) : Prop := ∀ r, P (io.files.rows r)

variable {P : KeyRec → Prop} {io : JIo}

theorem AllStored.putRec (h : io.AllStored P) (r : ℕ) (hk : P k) : (io.putRec r k).AllStored P := by
  intro s
  change P (Function.update io.files.rows r k s)
  by_cases hs : s = r
  · subst hs
    rwa [Function.update_self]
  · rw [Function.update_of_ne hs]
    exact h s

/-- Rows encoded again. -/
theorem reencode_all (hP : ∀ r k n, cfg.keyDumps r = .ok (k, n) → P k) {now size : ℕ} {rows : List Row} {ks : List KeyRec}
    (h : reencode cfg now size rows = .ok ks) : ∀ k ∈ ks, P k := by
  induction rows generalizing ks with
  | nil =>
    cases h
    simp
  | cons row rows ih =>
    rw [reencode] at h
    split at h
    · cases h
    · rename_i k n hk
      split at h
      · cases h
      · split at h
        · cases h
        · rename_i ks' hks
          cases h
          exact List.forall_mem_cons.2 ⟨hP _ _ _ hk, ih hks⟩

/-- The row that `write_key` ends up with was encoded. -/
theorem encodeKey_all (hP : ∀ r k n, cfg.keyDumps r = .ok (k, n) → P k) {a : KeyArgs} {row : Row}
    (h : io.encodeKey cfg a = .ok (row, k, n)) : P k := by
  unfold encodeKey stripKey at h
  grind

theorem allStored_readKey (r : ℕ) : Exec.Maintains (AllStored P) (readKey r) := by
  unfold readKey
  refine .bind (.modify fun _ h => h) fun _ => .bind .get fun io₁ => ?_
  split
  · exact .bind (.modify fun _ h => h) fun _ => .pure _
  · refine .bind (.lift _) fun _ => .bind (.modify fun io₂ h => ?_) fun _ => .pure _
    split <;> exact h

theorem allStored_readKeys (m : ℕ) : ∀ r, Exec.Maintains (AllStored P) (readKeys r m) := by
  induction m with
  | zero => exact fun _ => .pure _
  | succ m ih => exact fun r => .bind (allStored_readKey r) fun _ => .bind (ih (r + 1)) fun _ => .pure _

/-- Rewriting the index at another width. -/
theorem wp_resizeKeys_all (hP : ∀ r k n, cfg.keyDumps r = .ok (k, n) → P k) (size : ℕ) (h : io.AllStored P) :
    Exec.Wp (resizeKeys cfg size) io (fun _ io' => io'.AllStored P) fun _ _ => True := by
  unfold resizeKeys
  rw [Exec.wp_bind, Exec.wp_get, Exec.wp_ite]
  refine ⟨fun _ => h, ?_⟩
  intro _
  rw [Exec.wp_bind]
  refine Exec.wp_mono ((allStored_readKeys _ 0).wp h) (fun rows io₁ h₁ => ?_) fun _ _ _ => trivial
  rw [Exec.wp_bind, Exec.wp_lift]
  refine ⟨fun ks hks => ?_, fun _ _ => trivial⟩
  rw [Exec.wp_bind, Exec.wp_modify]
  intro r
  change P ((ks[r]?).getD (io₁.files.rows r))
  cases hr : ks[r]? with
  | none => exact h₁ r
  | some k => exact reencode_all hP hks k (List.mem_of_getElem? hr)

/-- **Writing a row.** -/
theorem wp_writeKey_all (hP : ∀ r k n, cfg.keyDumps r = .ok (k, n) → P k) (hempty : P emptyRec) (r : ℕ) (a : KeyArgs)
    (h : io.AllStored P) : Exec.Wp (writeKey cfg r a) io (fun _ io' => io'.AllStored P) fun _ _ => True := by
  have hput : ∀ (row : Row) (k : KeyRec) (io' : JIo), P k → io'.AllStored P → (putKey r row k io').AllStored P := by
    intro row k io' hk h'
    have hrec : ((io'.forget r).putRec r k).AllStored P := AllStored.putRec h' r hk
    unfold putKey
    dsimp only
    split
    · exact hrec
    · split <;> exact hrec
  rw [writeKey, Exec.wp_bind, Exec.wp_get, Exec.wp_bind, Exec.wp_lift]
  refine ⟨?_, fun _ _ => trivial⟩
  intro e he
  obtain ⟨row, k, n⟩ := e
  have hk : P k := encodeKey_all hP he
  have grow : ∀ {io₁ : JIo}, io₁.AllStored P → Exec.Wp (resizeKeys cfg (n + 1)) io₁
      (fun _ io₂ => (putKey r row k io₂).AllStored P) fun _ _ => True := fun h₁ =>
    Exec.wp_mono (wp_resizeKeys_all hP (n + 1) h₁) (fun _ io₂ h₂ => hput row k io₂ hk h₂) fun _ _ h' => h'
  dsimp only
  split
  · split
    · simp only [Exec.wp_bind, Exec.wp_modify, Exec.wp_get, Exec.wp_ret]
      exact grow (h.putRec r hempty)
    · simp only [Exec.wp_bind, Exec.wp_modify, Exec.wp_get, Exec.wp_ret]
      exact grow h
  · simp only [Exec.wp_bind, Exec.wp_modify, Exec.wp_get, Exec.wp_ret]
    exact hput row k io hk h

end JIo

end OmniJsonDb
