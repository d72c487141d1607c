import OmniJsonDb.Proof.Slots

/-!
# The value that was written

A record that was just written holds the value it was given, as far as the codec tells values
apart.

* `encodeRow_str`: an encoded string decodes to itself.
* `Holds`: a record that was just written; `Stores.holds`, `addAt_holds`, `Appends.holds`.
* `storedValue_of_content`: a record that is kept keeps its value.
-/

namespace OmniJsonDb

/-! ## Strings -/

/-- What an encoded value decodes to. -/
def Enc.decode (c : ValCodec) : Enc → Except Err PyVal
  | .head typeId typeVal typeSize => decodeRow c typeId typeVal typeSize
  | .value data => c.readValue data.length data

/-- The codec gives every string back. -/
structure ValCodec.Lossless (c : ValCodec) : Prop where
  loads : ∀ s data, c.dumps (.str s) = .ok data → c.loads data = .ok (.str s)
  unzip : ∀ ts data, c.unzip (c.zip ts data) = .ok data

variable {c : ValCodec}

/-- Up to eight bytes in the row itself. -/
theorem decode_short {data : Bytes} (hpos : 0 < data.length) (h : data.length ≤ 8) :
    decodeRow c 0x08 (leNat (c.pad0 data 8)) data.length = c.loads data := by
  have hlen : (c.pad0 data 8).length = 8 := by
    unfold ValCodec.pad0
    rw [List.length_append, List.length_replicate]
    omega
  unfold decodeRow
  rw [leBytes_leNat hlen]
  simp only [show (0x08 : ℕ) ≠ 0 by decide, false_and, if_false, show (0x08 : ℕ) ≠ 1 by decide,
    show (0x08 : ℕ) ≠ 2 by decide, show (0x08 : ℕ) ≠ 3 by decide, show (0x08 : ℕ) ≠ 4 by decide, true_or,
    if_true, hpos]
  congr 1
  unfold ValCodec.pad0
  rw [List.take_append_of_le_length le_rfl, List.take_length]

/-- Up to fifteen bytes in the row itself; a sixteenth tells that they are there. -/
theorem decode_long {data : Bytes} (hpos : 0 < data.length) (h : data.length ≤ 15) :
    decodeRow c (leNat ((c.pad0 data 15 ++ [1]).drop 8)) (leNat ((c.pad0 data 15 ++ [1]).take 8)) data.length =
      c.loads data := by
  have hlen : (c.pad0 data 15).length = 15 := by
    unfold ValCodec.pad0
    rw [List.length_append, List.length_replicate]
    omega
  obtain ⟨bs, hbs⟩ : ∃ bs, bs = c.pad0 data 15 := ⟨_, rfl⟩
  rw [← hbs] at hlen ⊢
  have hlo : ((bs ++ [1]).take 8).length = 8 := by
    rw [List.length_take, List.length_append, hlen]
    rfl
  have hhi : ((bs ++ [1]).drop 8).length = 8 := by
    rw [List.length_drop, List.length_append, hlen]
    rfl
  -- the last byte sets bit 56, which tells the layout
  have hbit : leNat ((bs ++ [1]).drop 8) / 2 ^ 56 = 1 := by
    have hdrop : (bs ++ [1]).drop 8 = bs.drop 8 ++ [1] := List.drop_append_of_le_length (by omega)
    have hseven : (bs.drop 8).length = 7 := by rw [List.length_drop, hlen]
    have hlt := leNat_lt (bs.drop 8)
    rw [hdrop, leNat_append, hseven, show leNat [1] = 1 by decide]
    rw [hseven] at hlt
    omega
  obtain ⟨hi, hhi'⟩ : ∃ hi, hi = leNat ((bs ++ [1]).drop 8) := ⟨_, rfl⟩
  have hlarge : 2 ^ 56 ≤ hi := by omega
  have hhas : has hi 0x0100000000000000 = true := by
    rw [show (0x0100000000000000 : ℕ) = 2 ^ 56 by decide, has_eq_testBit, Nat.testBit_eq_decide_div_mod_eq, hhi',
      hbit]
    rfl
  rw [← hhi']
  unfold decodeRow
  simp only [show hi ≠ 0 by omega, false_and, if_false, show hi ≠ 1 by omega, show hi ≠ 2 by omega,
    show hi ≠ 3 by omega, show hi ≠ 4 by omega, show hi ≠ 8 by omega, show hi ≠ 9 by omega, false_or, hhas, if_true,
    hpos]
  rw [hhi', leBytes_leNat hlo, leBytes_leNat hhi, List.take_append_drop, hbs]
  congr 1
  unfold ValCodec.pad0
  rw [List.append_assoc, List.take_append_of_le_length le_rfl, List.take_length]

/-- **An encoded string** decodes to itself. -/
theorem encodeRow_str (hc : c.Lossless) {wide : Bool} {isGroup : Key → Key → Bool} {ts : ℕ} {key s : Key}
    {enc : Enc} (h : encodeRow c wide isGroup ts key (.str s) = .ok enc) : enc.decode c = .ok (.str s) := by
  cases s with
  | nil =>
    cases h
    rfl
  | cons x s =>
    unfold encodeRow at h
    simp only [emptyCode] at h
    split at h
    · cases h
    · rename_i data hd
      have hpos : 0 < data.length := List.length_pos_of_ne_nil (c.dumps_ne _ _ hd)
      have hloads := hc.loads _ _ hd
      cases h
      unfold encodeBytes
      split
      · rename_i hs
        exact (decode_short hpos hs.2).trans hloads
      · split
        · rename_i hs
          exact (decode_long hpos hs.2).trans hloads
        · unfold Enc.decode ValCodec.readValue
          cases hz : c.noZip with
          | true =>
            simp only [hpos, if_true]
            exact hloads
          | false =>
            have hz : c.zip ts data ≠ [] := c.zip_ne ts data (c.dumps_ne _ _ hd)
            have hzpos : 0 < (c.zip ts data).length := List.length_pos_of_ne_nil hz
            simp only [hzpos, if_true, hz, if_false, hc.unzip, Bool.false_eq_true]
            exact hloads

namespace JDb

variable {γ : Type} {V : RowView γ} {cfg : Config} {v v' v₁ : DbView γ} {key : Key} {flags : ℕ}

open DbView (Takes)

/-! ## Reading back -/

/-- A value only depends on the slot's fields that name it, and on the VAL files. -/
theorem storedValue_congr {s t : Slot} (hs : s.SameValue t) (hv : v'.vals = v.vals) :
    storedValue c v' s = storedValue c v t := by
  obtain ⟨h₁, h₂, h₃, h₄⟩ := hs
  unfold storedValue DbView.val
  rw [h₁, h₂, h₃, h₄, hv]

/-- A value that is written is read back. -/
theorem storedValue_write (w : DbView γ) (f off n x : ℕ) (k : Key) {data : Bytes} (rest : Bytes) (hdata : data ≠ [])
    (hn : n ≠ 0) : storedValue c (w.write f off (data ++ rest)) ⟨k, f, off, n, data.length, x⟩ =
      (Enc.value data).decode c := by
  have hpos : 0 < data.length := List.length_pos_of_ne_nil hdata
  unfold storedValue DbView.write DbView.val Enc.decode
  simp only [hn, if_false, hpos, if_true, Function.update_self, Option.getD_some]
  rw [ByteFile.read_write_append]

/-- The space taken for a value holds it. -/
theorem Takes.stored {enc : Enc} {sp : Space} (ht : Takes V cfg key flags v enc sp v₁) {k : Key} {x : ℕ} :
    storedValue cfg.val v₁ ⟨k, sp.fileId, sp.offset, sp.rowSize, sp.valSize, x⟩ = enc.decode cfg.val := by
  cases ht with
  | headNew => rfl
  | headDead => rfl
  | @valueNew data f pad hdata =>
    have hpos : 0 < data.length := List.length_pos_of_ne_nil hdata
    exact storedValue_write _ f (v.fileEnd f) (data.length + pad) x k _ hdata (by omega)
  | @valueDead data d f off n w hdata hr =>
    have hpos : 0 < data.length := List.length_pos_of_ne_nil hdata
    have hle : data.length ≤ n := hr.le
    have := storedValue_write (c := cfg.val) w f off n x k [] hdata (by omega)
    rwa [List.append_nil] at this

/-- A record was just written: it holds the encoded value, and what is recorded beside it. -/
structure Holds (V : RowView γ) (cfg : Config) (key : Key) (enc : Enc) (m : Meta) (v v' : DbView γ) (r : ℕ) :
    Prop where
  at_ : v'.At key r
  row : ∃ (w : DbView γ) (sp : Space), w.now = v.now ∧ w.cnt.syncId = v.cnt.syncId ∧ v'.rows r = w.new V (Space.args sp key m)
  stored : storedValue cfg.val v' (v'.slot V r) = enc.decode cfg.val

theorem Holds.of_row {enc : Enc} {m : Meta} {r : ℕ} {w : DbView γ} (sp : Space) (hat : v'.At key r)
    (hnow : w.now = v.now) (hsync : w.cnt.syncId = v.cnt.syncId) (hr : v'.rows r = w.new V (sp.args key m))
    (hs : ∀ x, storedValue cfg.val v' ⟨key, sp.fileId, sp.offset, sp.rowSize, sp.valSize, x⟩ =
      enc.decode cfg.val) : Holds V cfg key enc m v v' r := by
  refine ⟨hat, ⟨w, sp, hnow, hsync, hr⟩, ?_⟩
  have hslot : v'.slot V r = ⟨key, sp.fileId, sp.offset, sp.rowSize, sp.valSize, w.cnt.syncId⟩ := by
    unfold DbView.slot
    rw [hr, DbView.slot_new]
    rfl
  rw [hslot]
  exact hs _

/-- A value that replaces another one is held. -/
theorem Stores.holds {row : ℕ} {old : Row} {m : Meta} {enc : Enc} (h : v.Keyed V) (hrow : v.At key row)
    (hne : ∀ data, enc = .value data → data ≠ []) (hs : Stores V cfg key row old m flags v enc v') :
    Holds V cfg key enc m v v' row := by
  cases hs with
  | head t x s =>
    refine .of_row (w := v) ⟨0, 0, t, x, 0, s⟩ hrow rfl rfl (Function.update_self ..) fun _ => ?_
    rfl
  | @value data hpos hle =>
    refine .of_row (w := v.write old.fileId old.offset data)
      ⟨0, 0, old.fileId, old.offset, old.rowSize, data.length⟩ hrow rfl rfl (Function.update_self ..) fun x => ?_
    have := storedValue_write (c := cfg.val) v old.fileId old.offset old.rowSize x key [] (hne data rfl) (by omega)
    rw [List.append_nil] at this
    exact (storedValue_congr ⟨rfl, rfl, rfl, rfl⟩ rfl).trans this
  | @park _ sp v₁ ht =>
    obtain ⟨hf, hn, hd, hl⟩ := ht.frame h.le
    refine .of_row (w := v₁) sp ⟨?_, ?_⟩ hf.now hf.syncId ?_ fun x => ?_
    · exact (congrArg (fun t => (t.get? key).map Prod.fst) hf.keyTable).trans hrow.1
    · exact lt_of_lt_of_eq hrow.2 hf.nRecords.symm
    · rw [DbView.rows_parkAt, if_pos rfl]
    · exact (storedValue_congr ⟨rfl, rfl, rfl, rfl⟩ rfl).trans (Takes.stored ht (x := x))

/-- A record that is added is held. -/
theorem addAt_holds {m : Meta} {enc : Enc} {sp : Space} (h : v.Keyed V) (ht : Takes V cfg key flags v enc sp v₁) :
    Holds V cfg key enc m v (v₁.addAt V key enc m flags sp) v.cnt.nRecords := by
  obtain ⟨hf, hn, hd, hl⟩ := ht.frame h.le
  refine .of_row (w := v₁) sp ⟨?_, ?_⟩ hf.now hf.syncId ?_ fun x => ?_
  · rw [← hf.nRecords]
    simp only [DbView.rowOf, DbView.addAt, DbView.rowOf_set, if_true]
  · rw [← hf.nRecords]
    exact Nat.lt_succ_self _
  · rw [DbView.rows_addAt V key flags v₁ enc m (hf.nRecords ▸ hn) hd, if_pos hf.nRecords.symm]
  · exact (storedValue_congr ⟨rfl, rfl, rfl, rfl⟩ rfl).trans (Takes.stored ht (x := x))

/-- A record that is appended is held. -/
theorem Appends.holds {env : Env} {val : PyVal} {ttl : TtlArg} {keyFlags : FlagArg}
    (ha : Appends V cfg env key val ttl keyFlags v v') :
    ∃ wide enc, encodeRow cfg.val wide cfg.isGroup env.ts key val = .ok enc ∧
      Holds V cfg key enc (newMeta val none none ttl keyFlags) v v' v.cnt.nRecords := by
  have hat : ∀ {w : DbView γ} {enc : Enc} {m : Meta} {sp : Space}, w.cnt.nRecords = v.cnt.nRecords →
      (w.appendAt V key enc m sp).At key v.cnt.nRecords := by
    intro w enc m sp hn
    rw [← hn]
    refine ⟨?_, Nat.lt_succ_self _⟩
    simp only [DbView.rowOf, DbView.appendAt, DbView.rowOf_set, if_true]
  cases ha with
  | @head wide t x s hnew henc =>
    refine ⟨wide, _, henc, .of_row (w := v.appendRoom) ⟨0, 0, t, x, 0, s⟩ (hat rfl) rfl rfl ?_ fun _ => rfl⟩
    rw [DbView.rows_appendAt]
    exact if_pos rfl
  | @value wide data f pad hnew henc hf =>
    have hdata := encodeRow_value_ne henc
    have hpos : 0 < data.length := List.length_pos_of_ne_nil hdata
    refine ⟨wide, _, henc, .of_row
      (w := v.appendRoom.write f (v.fileEnd f) (data ++ List.replicate pad cfg.val.padByte))
      ⟨0, 0, f, v.fileEnd f, data.length + pad, data.length⟩ (hat rfl) rfl rfl ?_ fun x => ?_⟩
    · rw [DbView.rows_appendAt]
      exact if_pos rfl
    · exact (storedValue_congr ⟨rfl, rfl, rfl, rfl⟩ rfl).trans
        (storedValue_write _ f (v.fileEnd f) (data.length + pad) x key _ hdata (by omega))

/-- A value that `f_write` says it has stored, and did not compare, is held. -/
theorem Wrote.holds {env : Env} {val : PyVal} {a : WriteArgs} (h : v.Keyed V) (ha : a.overwrite = true)
    (hw : Wrote V cfg env key val a v true v') :
    ∃ wide enc m u r, encodeRow cfg.val wide cfg.isGroup env.ts key (asStored val) = .ok enc ∧
      Holds V cfg key enc m u v' r := by
  cases hw with
  | @existing row mdays old enc wide checked _ v₁ _ hrow hold _ hch ht henc ho =>
    have hch : checked = true := hch ha
    obtain ⟨now, -, hnow⟩ := timeOf_clock v (popTransientFlags a.keyFlags).1 env (a.split cfg).mdays old
      ((a.split cfg).ttl.toTtl.getD old.ttl)
    rw [ht] at hnow
    dsimp only at hnow
    subst hnow
    have hg' : ({ v with now := now } : DbView γ).Keyed V := ⟨h.le, h.table⟩
    have hrow' : ({ v with now := now } : DbView γ).At key row := hrow
    obtain ⟨m, hm⟩ : ∃ m, m = rowMeta (asStored val) (a.split cfg) (popTransientFlags a.keyFlags).1
      (popTransientFlags a.keyFlags).2 old mdays := ⟨_, rfl⟩
    rw [← hm] at ho
    have hmark : DbView.Effects V cfg key 0 { v with now := now } (markAs key row m.flags old.flags { v with now := now }) :=
      markAs_effects hrow'
    cases ho with
    | same hcmp => rw [hch] at hcmp; cases hcmp
    | stored _ hs =>
      refine ⟨wide, enc, m, _, row, henc, hs.holds (DbView.Effects.keyed hg' hmark) (markAs_at hrow') ?_⟩
      rintro data rfl
      exact encodeRow_value_ne henc
  | new hnew henc ht => exact ⟨_, _, _, _, _, henc, addAt_holds h ht⟩

/-! ## What stays -/

/-- The value a slot names, from the bytes of its extent. -/
def valueOf (c : ValCodec) (s : Slot) (b : Bytes) : Except Err PyVal :=
  if s.rowSize = 0 then decodeRow c s.fileId s.offset s.valSize
  else c.readValue s.valSize (b.take (if 0 < s.valSize then s.valSize else s.rowSize))

theorem storedValue_eq {s : Slot} (h : s.rowSize = 0 ∨ s.valSize ≤ s.rowSize) :
    storedValue c v s = valueOf c s (v.bytesAt (JIo.place s)) := by
  unfold storedValue valueOf
  split
  · rfl
  · rename_i hne
    have hle : (if 0 < s.valSize then s.valSize else s.rowSize) ≤ s.rowSize := by
      split
      · exact h.resolve_left hne
      · exact le_rfl
    exact congrArg (c.readValue s.valSize) (ByteFile.take_read _ hle).symm

/-- **A record that is kept keeps its value.** -/
theorem storedValue_of_content {k : Key} {r r' : ℕ} (hs : Sized V v) (hle : v.cnt.nRecords ≤ v.cnt.nLines)
    (hr : v.At k r) (hr' : v'.rowOf k = some r') (h : v'.content V k = v.content V k) :
    v'.rows r' = v.rows r ∧ storedValue c v' (v'.slot V r') = storedValue c v (v.slot V r) := by
  rw [DbView.content_at hr', DbView.content_at hr.1, Option.some.injEq, Prod.mk.injEq] at h
  obtain ⟨hrows, hbytes⟩ := h
  have hslot : v'.slot V r' = v.slot V r := congrArg V.slot hrows
  have hfits := hs r (lt_of_lt_of_le hr.2 hle)
  have hfits' : (v'.slot V r').rowSize = 0 ∨ (v'.slot V r').valSize ≤ (v'.slot V r').rowSize := by
    rw [hslot]
    exact hfits
  refine ⟨hrows, ?_⟩
  rw [storedValue_eq hfits, storedValue_eq hfits', hslot]
  unfold DbView.place at hbytes
  rw [hslot] at hbytes
  rw [hbytes]

end JDb

end OmniJsonDb
