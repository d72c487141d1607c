import OmniJsonDb.Proof.KeyFlags
import OmniJsonDb.Proof.Kept
import OmniJsonDb.Proof.RowCache

/-!
# Metadata that a write is given

`f_write` takes days, a lifetime and flags beside the value. An equal value is found in the cache,
in the row or in the VAL file, and each of the three decides for itself what is still written.

* `Landed`: what was given is what the row has.
* `wp_fWrite_row`: a write that is not refused ends at the cache, or rewrites the row.
* `landed_iff`: over all runs, when the metadata lands.
* `landed_fails`: a creation day that is given with the value the record has.
-/

namespace OmniJsonDb

namespace JDb

variable {cfg : Config} {db db' : JDb} {env : Env} {key : Key} {val : PyVal} {a : WriteArgs} {r : ℕ} {old : Row}

/-! ## What is given -/

namespace WriteArgs

/-- The creation day that is given. -/
def created (a : WriteArgs) : Option ℕ := (splitDates a.cdays a.mdays).1

/-- The modification time that is given, in minutes. -/
def modified (a : WriteArgs) : Option ℕ := (splitDates a.cdays a.mdays).2

/-- The flag bits for this call alone. -/
def transient (a : WriteArgs) : ℕ := (popTransientFlags a.keyFlags).1

/-- The flags to be stored. -/
def lasting (a : WriteArgs) : FlagArg := (popTransientFlags a.keyFlags).2

/-- The lifetime a record ends up with. -/
def newTtl (a : WriteArgs) (old : Row) : Ttl := a.ttl.toTtl.getD old.ttl

/-- The flags a record ends up with. -/
def rowFlags (a : WriteArgs) (val : PyVal) (old : Row) : ℕ :=
  newFlags a.lasting a.transient old (a.newTtl old) (asStored val)

end WriteArgs

/-- **The metadata has landed**: the row has the days, the lifetime and the flags that were given. -/
structure Landed (a : WriteArgs) (old row : Row) : Prop where
  cdays : ∀ c, a.created = some c → row.cdays = c
  mdays : ∀ m, a.modified = some m → row.mday = m / MIN_OF_DAY
  ttl : ∀ t, a.ttl.toTtl = some t → row.ttl.len = t.len
  flags : a.lasting ≠ .none →
    row.flags &&& WRITABLE_FLAG_MASK = a.lasting.apply old.flags &&& WRITABLE_FLAG_MASK

/-- The days that are given are in order, and a row has room for them. -/
structure InRange (a : WriteArgs) (old : Row) : Prop where
  cdays : ∀ c, a.created = some c → c ≤ SUB_DAY_MASK
  mdays : ∀ m, a.modified = some m → a.created.getD old.cdays ≤ m / MIN_OF_DAY

/-- Read the value of a row. -/
def readValueAt (cfg : Config) (env : Env) (key : Key) (r : ℕ) : DbM PyVal := do
  let info ← onIo (JIo.readKey r)
  decodeValue cfg env key info.toCore false true

/-- **The write is not refused**: no `EXCL`, the record is not locked, and a record that only
grows is extended. -/
structure Admitted (cfg : Config) (env : Env) (db : JDb) (key : Key) (val : PyVal) (a : WriteArgs) (r : ℕ) :
    Prop where
  excl : has a.transient EXCL = false
  lock : ∀ row kflags, db.io.keyTable.get? key = some (row, kflags) → has kflags READ_ONLY = true →
    has a.transient UNLOCK = true
  append : has (db.io.row r).flags APPEND_ONLY = true → has a.transient UNLOCK = false →
    Exec.Wp (readValueAt cfg env key r) db (fun v _ => v.isValueExtension (asStored val) = true) fun _ _ => True

/-- The value is equal to the one in the cache. -/
def CacheHit (cfg : Config) (db : JDb) (key : Key) (val : PyVal) (a : WriteArgs) : Prop :=
  a.overwrite = false ∧ cfg.cacheLimit ≠ 0 ∧ ∃ v, db.cache.get? key = some v ∧ v.pyEq (asStored val) = true

/-- The values need not be compared: so the caller says, or the cache has another one. -/
def checkedFor (cfg : Config) (db : JDb) (key : Key) (a : WriteArgs) : Bool :=
  a.overwrite || (cfg.cacheLimit != 0 && (db.cache.get? key).isSome)

/-- The value is found in the row, or in the VAL file. -/
def Found (cfg : Config) (env : Env) (db : JDb) (key : Key) (val : PyVal) (a : WriteArgs) (old : Row) : Prop :=
  checkedFor cfg db key a = false ∧ ∃ enc,
    encodeRow cfg.val (db.io.wide cfg) cfg.isGroup env.ts key (asStored val) = .ok enc ∧
      holds cfg (db.view rowView) old enc = true

/-! ## From the call to the row -/

section Reach

variable (hc : cfg.Keeps rowView) (h : db.Good rowView cfg) (hrow : (db.view rowView).At key r)
  (hlink : has (db.io.row r).flags LINK = false) (ha : Admitted cfg env db key val a r)

/-- What a write does to the row of its key. -/
abbrev RowWritten (cfg : Config) (env : Env) (key : Key) (val : PyVal) (a : WriteArgs) (r : ℕ) (checked : Bool)
    (db : JDb) (b : Bool) (db' : JDb) : Prop :=
  db'.Good rowView cfg ∧ Rewrites rowView cfg env key (asStored val) (a.split cfg) a.transient a.lasting
    (a.flags.getD cfg.flags) (db.io.wide cfg) checked r (db.io.row r) (db.view rowView) b (db'.view rowView)

include hc h hrow hlink ha in
/-- Past the cache, the row is written. -/
theorem wp_look_row (onLink : PyVal → DbM Bool) (checked : Bool) :
    Exec.Wp (writeExisting.look cfg onLink env key (asStored val) (a.split cfg) a.transient a.lasting r
        (a.flags.getD cfg.flags) checked) db
      (fun b db' => RowWritten cfg env key val a r checked db b db') fun _ _ => True := by
  unfold writeExisting.look
  rw [Exec.wp_bind]
  have hread := Exec.wp_and (wp_readKey h r) ((passive_readKey (I := LineSize db.io.indexSize) r).wp rfl)
  -- the value that is there is read in the state the row was read in
  have hgrow : Exec.Wp (onIo (JIo.readKey r)) db (fun info db₁ => has (db.io.row r).flags APPEND_ONLY = true →
      has a.transient UNLOCK = false → Exec.Wp (decodeValue cfg env key info.toCore false true) db₁
        (fun v _ => v.isValueExtension (asStored val) = true) fun _ _ => True) fun _ _ => True := by
    by_cases happ : has (db.io.row r).flags APPEND_ONLY = true ∧ has a.transient UNLOCK = false
    · have hext := ha.append happ.1 happ.2
      unfold readValueAt at hext
      rw [Exec.wp_bind] at hext
      exact Exec.wp_mono hext (fun _ _ h' _ _ => h') fun _ _ h' => h'
    · exact Exec.wp_of_run (fun _ _ _ h₁ h₂ => absurd ⟨h₁, h₂⟩ happ) fun _ _ _ => trivial
  refine Exec.wp_mono (Exec.wp_and hread hgrow) ?_ fun _ _ _ => trivial
  rintro info db₁ ⟨⟨⟨⟨hinfo, -⟩, hq⟩, hsize⟩, hext⟩
  have hknown := (h.known (h.lt_lines hrow.2) hinfo).quiet hq
  have hinfo : info = db.io.row r := hinfo
  subst hinfo
  have finish : ∀ (ok : Bool) (db₂ : JDb), Quiet rowView cfg db db₂ → LineSize db.io.indexSize db₂ → ok = true →
      Exec.Wp (if ok = true then writeRow cfg env key (asStored val) (a.split cfg) a.transient a.lasting r
        (db.io.row r) (a.flags.getD cfg.flags) checked else pure false) db₂
        (fun b db' => RowWritten cfg env key val a r checked db b db') fun _ _ => True := by
    intro ok db₂ hq₂ hs₂ hok
    rw [if_pos hok]
    have hrow₂ : (db₂.view rowView).At key r := by rw [hq₂.view]; exact hrow
    have hold₂ : rowView.proj (db.io.row r) = (db₂.view rowView).rows r := by rw [hq₂.view]; rfl
    have hw : Exec.Wp (writeRow cfg env key (asStored val) (a.split cfg) a.transient a.lasting r (db.io.row r)
        (a.flags.getD cfg.flags) checked) db₂ (fun b db' => db'.Good rowView cfg ∧ Rewrites rowView cfg env key
          (asStored val) (a.split cfg) a.transient a.lasting (a.flags.getD cfg.flags) (db₂.io.wide cfg) checked r
          (db.io.row r) (db₂.view rowView) b (db'.view rowView)) fun _ _ => True :=
      wp_rewrite hc hq₂.good env hrow₂ hold₂ checked
    rw [hs₂.wide, hq₂.view] at hw
    exact hw
  rw [hlink, Bool.false_and, if_neg (by decide), Bool.false_and, if_neg (by decide)]
  extract_lets write
  split
  · rename_i hgrows
    rw [Bool.and_eq_true, Bool.not_eq_true'] at hgrows
    rw [Exec.wp_bind]
    refine Exec.wp_mono (Exec.wp_and (Exec.wp_and (reads_decodeValue hq.good env key hknown false true)
      ((passive_decodeValue (I := LineSize db.io.indexSize) env key (db.io.row r).toCore false true).wp hsize))
      (hext hgrows.1 hgrows.2)) ?_ fun _ _ _ => trivial
    rintro v db₂ ⟨⟨hq₂, hs₂⟩, hv⟩
    exact finish _ db₂ (hq.trans hq₂) hs₂ hv
  · exact finish true db₁ hq hsize rfl

include hc h hrow hlink ha in
/-- **A write that is not refused** ends at the cache, or rewrites the row. -/
theorem wp_fWrite_row :
    Exec.Wp (fWrite cfg env key val a) db
      (fun b db' => CacheHit cfg db key val a ∧ db'.view rowView = db.view rowView ∨
        ¬ CacheHit cfg db key val a ∧ RowWritten cfg env key val a r (checkedFor cfg db key a) db b db')
      fun _ _ => True := by
  obtain ⟨kflags, hget⟩ : ∃ kflags, db.io.keyTable.get? key = some (r, kflags) := by
    obtain ⟨⟨row, kflags⟩, hget, hr⟩ := Option.map_eq_some_iff.1 (show (db.io.keyTable.get? key).map Prod.fst = some r
      from hrow.1)
    obtain rfl : row = r := hr
    exact ⟨kflags, hget⟩
  unfold fWrite fWriteWith
  extract_lets val' flags
  have hval : val' = asStored val := by unfold asStored; rfl
  split
  · trivial
  · split
    · trivial
    · split
      rename_i cdays mdays hdates
      split
      rename_i transient keyFlags hpop
      extract_lets a'
      have ha' : a' = a.split cfg := by unfold WriteArgs.split; rw [hdates]
      have htransient : transient = a.transient := by unfold WriteArgs.transient; rw [hpop]
      have hlasting : keyFlags = a.lasting := by unfold WriteArgs.lasting; rw [hpop]
      rw [Exec.wp_bind, Exec.wp_get, hget]
      dsimp only
      rw [hval, ha', htransient, hlasting]
      unfold writeExisting
      extract_lets locked
      have hopen : (has a.transient EXCL || locked kflags) = false := by
        have := ha.lock r kflags hget
        rw [ha.excl, Bool.false_or]
        simp only [locked]
        cases h₁ : has kflags READ_ONLY <;> cases h₂ : has a.transient UNLOCK <;> simp [h₁, h₂] at this ⊢
      rw [hopen, if_neg (by decide), Exec.wp_bind, Exec.wp_get]
      have hover : (a.split cfg).overwrite = a.overwrite := rfl
      have hlook := wp_look_row hc h hrow hlink ha
      rw [hover]
      split
      · rename_i v hv
        split at hv
        · rename_i hcond
          rw [Bool.and_eq_true, Bool.not_eq_true', bne_iff_ne] at hcond
          split
          · rename_i heq
            rw [Exec.wp_bind]
            refine Exec.wp_mono (reads_cacheTouch h key) ?_ fun _ _ _ => trivial
            intro _ db₁ hq
            exact .inl ⟨⟨hcond.1, hcond.2, v, hv, heq⟩, hq.view⟩
          · rename_i hne
            have hchecked : checkedFor cfg db key a = true := by
              unfold checkedFor
              rw [hv, Bool.or_eq_true, Bool.and_eq_true, bne_iff_ne]
              exact .inr ⟨hcond.2, rfl⟩
            refine Exec.wp_mono (hlook _ true) (fun b db₁ hw => .inr ⟨?_, hchecked ▸ hw⟩) fun _ _ _ => trivial
            rintro ⟨-, -, v', hv', heq⟩
            obtain rfl : v' = v := Option.some.inj (hv'.symm.trans hv)
            exact hne heq
        · cases hv
      · rename_i hv
        have hmiss : ¬ CacheHit cfg db key val a ∧ checkedFor cfg db key a = a.overwrite := by
          unfold CacheHit checkedFor
          cases ho : a.overwrite with
          | true => simp
          | false =>
            by_cases hl : cfg.cacheLimit = 0
            · simp [hl]
            · rw [ho, if_pos (by simp [hl])] at hv
              simp [hv]
        refine Exec.wp_mono (hlook _ a.overwrite) (fun b db₁ hw => .inr ⟨hmiss.1, ?_⟩) fun _ _ _ => trivial
        rw [hmiss.2]
        exact hw

end Reach

/-! ## Flags and lifetimes of a row that is written -/

theorem normalFlags_writable (x : KeyArgs) :
    normalFlags x &&& WRITABLE_FLAG_MASK = x.flags &&& WRITABLE_FLAG_MASK := by
  have hsub : KEPT_FLAG_MASK &&& WRITABLE_FLAG_MASK = WRITABLE_FLAG_MASK := by decide
  have hkept := congrArg (fun f => f &&& WRITABLE_FLAG_MASK) (normalFlags_kept x)
  simpa only [and_and_of_sub _ hsub] using hkept

/-- Bits that are not for a caller to write make no difference to those that are. -/
theorem or_and_writable {f g : ℕ} (hg : g &&& WRITABLE_FLAG_MASK = 0) :
    (f ||| g) &&& WRITABLE_FLAG_MASK = f &&& WRITABLE_FLAG_MASK := by
  rw [Nat.and_or_distrib_right, hg, Nat.or_zero]

theorem ite_and_writable {p : Prop} [Decidable p] {g : ℕ} (hg : g &&& WRITABLE_FLAG_MASK = 0) :
    (if p then g else 0) &&& WRITABLE_FLAG_MASK = 0 := by
  split
  · exact hg
  · exact Nat.zero_and _

theorem and_and_writable {m : ℕ} (f : ℕ) (hm : m &&& WRITABLE_FLAG_MASK = 0) :
    f &&& m &&& WRITABLE_FLAG_MASK = 0 := by
  rw [Nat.and_assoc, hm, Nat.and_zero]

theorem rowFlags_writable (a : WriteArgs) (val : PyVal) (old : Row) :
    a.rowFlags val old &&& WRITABLE_FLAG_MASK = a.lasting.apply old.flags &&& WRITABLE_FLAG_MASK := by
  unfold WriteArgs.rowFlags newFlags
  rw [or_and_writable (ite_and_writable (by decide)), or_and_writable
    (ite_and_writable (and_and_writable _ (by decide))), or_and_writable (ite_and_writable (by decide)),
    and_and_of_sub _ (by decide)]

theorem keptFlags_writable (f : ℕ) (old : Row) (ttl : Ttl) :
    keptFlags (.int f) old ttl &&& WRITABLE_FLAG_MASK = f &&& WRITABLE_FLAG_MASK := by
  unfold keptFlags
  rw [or_and_writable (ite_and_writable (by decide)), or_and_writable (and_and_writable _ (by decide)),
    and_and_of_sub _ (by decide)]
  rfl

/-- A lifetime that was normalised is not cut. -/
theorem clamp_toTtl {x : TtlArg} {t : Ttl} (h : x.toTtl = some t) : t.clamp.len = t.len := by
  have hle : t.len ≤ MAX_TTL_DAYS * MIN_OF_DAY := by
    cases x with
    | int n =>
      rw [TtlArg.toTtl] at h
      split at h
      · cases h
      · obtain rfl := Option.some.inj h
        exact Nat.mul_le_mul_right _ (min_le_right _ _)
    | span micros =>
      rw [TtlArg.toTtl, convTtl] at h
      split at h
      · cases h
      · split at h
        · obtain rfl := Option.some.inj h
          exact Nat.zero_le _
        · dsimp only at h
          split at h
          · obtain rfl := Option.some.inj h
            exact (min_le_right _ _).trans (by decide)
          · obtain rfl := Option.some.inj h
            exact Nat.mul_le_mul_right _ (min_le_right _ _)
  unfold Ttl.clamp
  split
  · rename_i h0
    rw [h0]
    rfl
  · split
    · rfl
    · have hmax : (Ttl.days MAX_TTL_DAYS).len = MAX_TTL_DAYS * MIN_OF_DAY := rfl
      omega

/-- A lifetime handed on is the one that was given. -/
theorem givenTtl_len {t : Ttl} (h : a.ttl.toTtl = some t) :
    (givenTtl (some (ttlArg (a.newTtl old))) old).len = t.len ∧
      (givenTtl (some (ttlArg (a.newTtl old))) old).clamp.len = t.len := by
  have hnew : a.newTtl old = t := by unfold WriteArgs.newTtl; rw [h]; rfl
  have hlen := ttlArg_len h
  rw [hnew]
  unfold givenTtl
  dsimp only
  refine ⟨hlen, ?_⟩
  cases hback : (ttlArg t).toTtl with
  | none => rw [hback] at hlen; exact hlen
  | some u => rw [hback] at hlen; exact (clamp_toTtl hback).trans hlen

/-! ## The row that is written -/

/-- **A row written with what was given** has it. -/
theorem landed_normal {x : KeyArgs} {c : ℕ} (hg : InRange a old) (now sync : ℕ) (hx : x.cdays = some c)
    (hc : ∀ c', a.created = some c' → c = c')
    (hm : ∀ m, a.modified = some m → x.mdays = some m ∧ c ≤ m / MIN_OF_DAY)
    (ht : ∀ t, a.ttl.toTtl = some t → x.ttl.clamp.len = t.len)
    (hf : x.flags &&& WRITABLE_FLAG_MASK = a.lasting.apply old.flags &&& WRITABLE_FLAG_MASK) :
    Landed a old (normal now sync x) where
  cdays c' hgiven := by
    have hmask : c' &&& SUB_DAY_MASK = c' := and_mask_of_le 22 (by decide) (hg.cdays c' hgiven)
    have hcd : (normal now sync x).cdays = c &&& SUB_DAY_MASK := by unfold normal; rw [hx]
    rw [hcd, hc c' hgiven, hmask]
  mdays m hgiven := by
    obtain ⟨hmx, hle⟩ := hm m hgiven
    have hmask : c &&& SUB_DAY_MASK ≤ m / MIN_OF_DAY := Nat.and_le_left.trans hle
    have hmd : (normal now sync x).mdays = max ((c &&& SUB_DAY_MASK) * MIN_OF_DAY)
        (if x.ttl.clamp.subDay then m else m / MIN_OF_DAY * MIN_OF_DAY) := by unfold normal; rw [hx, hmx]
    unfold Row.mday
    rw [hmd]
    unfold MIN_OF_DAY at hmask ⊢
    split <;> omega
  ttl := ht
  flags _ := (normalFlags_writable x).trans hf

/-- What is left alone when the value is found: the creation day, and the modification day of a
record that neither gets other flags nor another lifetime, nor has one. -/
structure LeftAlone (a : WriteArgs) (val : PyVal) (old : Row) : Prop where
  cdays : ∀ c, a.created = some c → old.cdays = c
  mdays : ∀ m, a.modified = some m → old.mday = m / MIN_OF_DAY ∨ a.rowFlags val old ≠ old.flags ∨
    (a.newTtl old).len ≠ old.ttl.len ∨ (a.newTtl old).pos = true

section Rows

variable {v v' : DbView Row} {m : Meta} {mdays flags : ℕ} {enc : Enc} {b checked wide : Bool}

theorem Stores.at_ (hle : v.cnt.nRecords ≤ v.cnt.nLines) (hrow : v.At key r) (h : Stores rowView cfg key r old m flags v enc v') :
    v'.At key r ∧ ∃ now sync sp, v'.rows r = normal now sync (Space.args sp key m) := by
  cases h with
  | head t x s => exact ⟨hrow, _, _, _, Function.update_self ..⟩
  | value => exact ⟨hrow, _, _, _, Function.update_self ..⟩
  | @park _ sp v₁ ht =>
    obtain ⟨hs, -⟩ := ht.frame hle
    have hlive : v₁.At key r := by
      refine ⟨?_, by rw [hs.nRecords]; exact hrow.2⟩
      unfold DbView.rowOf
      rw [hs.keyTable]
      exact hrow.1
    refine ⟨hlive, v₁.now, v₁.cnt.syncId, sp, ?_⟩
    rw [DbView.rows_parkAt, if_pos rfl]
    rfl

/-- **A value that is stored** brings its metadata with it. -/
theorem Stores.landed (hle : v.cnt.nRecords ≤ v.cnt.nLines) (hrow : v.At key r) (hg : InRange a old)
    (hmd : ∀ m, a.modified = some m → mdays = m)
    (h : Stores rowView cfg key r old (rowMeta (asStored val) (a.split cfg) a.transient a.lasting old mdays) flags v
      enc v') : Landed a old (v'.rows r) := by
  obtain ⟨-, now, sync, sp, hnew⟩ := h.at_ hle hrow
  rw [hnew]
  refine landed_normal hg now sync (c := a.created.getD old.cdays) rfl ?_ ?_ ?_ ?_
  · intro c hc
    rw [hc]
    rfl
  · intro m hm
    exact ⟨congrArg some (hmd m hm), hg.mdays m hm⟩
  · intro t ht
    have hnew : (a.split cfg).ttl.toTtl.getD old.ttl = t := by
      change a.ttl.toTtl.getD old.ttl = t
      rw [ht]; rfl
    change ((a.split cfg).ttl.toTtl.getD old.ttl).clamp.len = t.len
    rw [hnew]
    exact clamp_toTtl ht
  · exact rowFlags_writable a val old

/-- **A value that is found**: what is left alone must be what is given. -/
theorem Renews.landed_exact (hrow : v.At key r) (hold : v.rows r = old) (hs : old.Settled) (hg : InRange a old)
    (hmd : ∀ m, a.modified = some m → mdays = m)
    (h : Renews rowView key old (rowMeta (asStored val) (a.split cfg) a.transient a.lasting old mdays) mdays v b v') :
    v'.At key r ∧ (Landed a old (v'.rows r) ↔ LeftAlone a val old) := by
  have hflags : (rowMeta (asStored val) (a.split cfg) a.transient a.lasting old mdays).flags = a.rowFlags val old := rfl
  have httl : (rowMeta (asStored val) (a.split cfg) a.transient a.lasting old mdays).ttl = a.newTtl old := rfl
  have hkept : ∀ ttl, keptFlags (.int (a.rowFlags val old)) old ttl &&& WRITABLE_FLAG_MASK =
      a.lasting.apply old.flags &&& WRITABLE_FLAG_MASK :=
    fun ttl => (keptFlags_writable _ old ttl).trans (rowFlags_writable a val old)
  unfold Renews at h
  rw [hflags, httl] at h
  split at h
  · rename_i hchanged
    -- the row is written anew, but for its creation day
    have hleft : ∀ row : Row, row.cdays = old.cdays → Landed a old row → LeftAlone a val old := by
      intro row hrow hl
      refine ⟨fun c hc => hrow.symm.trans (hl.cdays c hc), fun m hm => .inr ?_⟩
      rcases hchanged with h₁ | h₁ | h₁
      exacts [.inl h₁, .inr (.inl h₁), .inr (.inr h₁.1)]
    cases h with
    | missing hno =>
      rw [hrow.1] at hno
      cases hno
    | @same row' old' hrow' hold' hf ht hm =>
      obtain rfl : row' = r := Option.some.inj (hrow'.1.symm.trans hrow.1)
      obtain rfl : old' = old := (show old' = v.rows row' from hold').trans hold
      rw [hold]
      refine ⟨hrow, hleft old' rfl, fun hl => ⟨hl.cdays, fun m hgiven => ?_, fun t hgiven => ?_, fun _ => ?_⟩⟩
      · have hsame : mdays = old'.mdays := hm
        unfold Row.mday
        rw [← hsame, hmd m hgiven]
      · rw [← ht]
        exact (givenTtl_len hgiven).1
      · exact (congrArg (fun f => f &&& WRITABLE_FLAG_MASK) hf).trans (hkept _)
    | @written row' old' hrow' hold' =>
      obtain rfl : row' = r := Option.some.inj (hrow'.1.symm.trans hrow.1)
      obtain rfl : old' = old := (show old' = v.rows row' from hold').trans hold
      have hnew : (((v.put row' (v.new rowView (flagArgs key (.int (a.rowFlags val old'))
          (some (ttlArg (a.newTtl old'))) (some mdays) old'))).sync.setTable key row'
          (keptFlags (.int (a.rowFlags val old')) old' (givenTtl (some (ttlArg (a.newTtl old'))) old')))).rows row' =
          normal v.now v.cnt.syncId (flagArgs key (.int (a.rowFlags val old'))
            (some (ttlArg (a.newTtl old'))) (some mdays) old') := Function.update_self ..
      have hcd : old'.cdays &&& SUB_DAY_MASK = old'.cdays := and_mask_of_le 22 (by decide) hs.spec.2.1
      refine ⟨⟨?_, hrow.2⟩, ?_⟩
      · rw [DbView.rowOf, DbView.setTable, DbView.rowOf_set, if_pos rfl]
      rw [hnew]
      refine ⟨hleft _ hcd, fun hl => ?_⟩
      refine landed_normal hg _ _ (c := old'.cdays) rfl hl.cdays ?_ ?_ ?_
      · intro m hm
        refine ⟨congrArg some (hmd m hm), ?_⟩
        have hle := hg.mdays m hm
        cases hc : a.created with
        | none => rw [hc] at hle; exact hle
        | some c => rw [hc] at hle; rw [hl.cdays c hc]; exact hle
      · intro t ht
        exact (givenTtl_len ht).2
      · exact hkept _
  · rename_i hsame
    obtain ⟨-, rfl⟩ := h
    rw [hold]
    push Not at hsame
    obtain ⟨hf, ht, hm⟩ := hsame
    refine ⟨hrow, fun hl => ⟨hl.cdays, fun m hgiven => .inl (hl.mdays m hgiven)⟩, fun hl => ⟨hl.cdays, ?_, ?_, ?_⟩⟩
    · intro m hgiven
      rcases hl.mdays m hgiven with h₁ | h₁ | h₁ | h₁
      · exact h₁
      · exact absurd hf h₁
      · exact absurd ht h₁
      · unfold Row.mday
        rw [← hm h₁, hmd m hgiven]
    · intro t hgiven
      have hnew : a.newTtl old = t := by unfold WriteArgs.newTtl; rw [hgiven]; rfl
      rw [← ht, hnew]
    · intro _
      rw [← rowFlags_writable a val old, hf]

/-- The comparison looks at the VAL files only. -/
theorem holds_congr {γ : Type} {v v' : DbView γ} (hv : v'.vals = v.vals) (cfg : Config) (old : Row) (enc : Enc) :
    holds cfg v' old enc = holds cfg v old enc := by
  cases enc with
  | head => rfl
  | value data => unfold holds DbView.val; rw [hv]

/-- **A record that is rewritten** has what was given, unless its value was found and something
that is left alone then is given. -/
theorem Rewrites.landed_exact (hle : v.cnt.nRecords ≤ v.cnt.nLines) (hrow : v.At key r) (hold : v.rows r = old)
    (hs : old.Settled) (hg : InRange a old)
    (h : Rewrites rowView cfg env key (asStored val) (a.split cfg) a.transient a.lasting flags wide checked r old v b v') :
    v'.At key r ∧ (Landed a old (v'.rows r) ↔ (checked = false ∧ ∃ enc,
      encodeRow cfg.val wide cfg.isGroup env.ts key (asStored val) = .ok enc ∧ holds cfg v old enc = true) →
        LeftAlone a val old) := by
  obtain ⟨mdays, v₁, enc, ht, henc, ho⟩ := h
  have hmd : ∀ m, a.modified = some m → mdays = m := by
    intro m hm
    have hm : (a.split cfg).mdays = some m := hm
    unfold timeOf at ht
    rw [hm] at ht
    exact (congrArg Prod.fst ht).symm
  obtain ⟨now, -, hclock⟩ := timeOf_clock v a.transient env (a.split cfg).mdays old ((a.split cfg).ttl.toTtl.getD old.ttl)
  rw [ht] at hclock
  have hclock : v₁ = { v with now := now } := hclock
  obtain ⟨w, hw⟩ : ∃ w, w = markAs key r (rowMeta (asStored val) (a.split cfg) a.transient a.lasting old mdays).flags
    old.flags v₁ := ⟨_, rfl⟩
  rw [← hw] at ho
  have hrow₁ : w.At key r := by rw [hw]; refine markAs_at ?_; rw [hclock]; exact hrow
  have hold₁ : w.rows r = old := by rw [hw, rows_markAs, hclock]; exact hold
  have hsame : w.vals = v.vals ∧ w.cnt = v.cnt := by
    rw [hw, hclock]
    unfold markAs
    split <;> exact ⟨rfl, rfl⟩
  have hholds : holds cfg w old enc = holds cfg v old enc := holds_congr hsame.1 cfg old enc
  have hle₁ : w.cnt.nRecords ≤ w.cnt.nLines := by rw [hsame.2]; exact hle
  cases ho with
  | same hch hfound hr =>
    obtain ⟨hat, hiff⟩ := hr.landed_exact hrow₁ hold₁ hs hg hmd
    refine ⟨hat, hiff.trans ⟨fun hl _ => hl, fun hl => hl ⟨hch, enc, henc, hholds ▸ hfound⟩⟩⟩
  | stored hno hst =>
    refine ⟨(hst.at_ hle₁ hrow₁).1, fun _ hfound => ?_, fun _ => hst.landed hle₁ hrow₁ hg hmd⟩
    obtain ⟨hch, enc', henc', hfound⟩ := hfound
    obtain rfl : enc' = enc := Except.ok.inj (henc'.symm.trans henc)
    rcases hno with hno | hno
    · rw [hch] at hno
      cases hno
    · rw [hholds, hfound] at hno
      cases hno

end Rows

/-! ## Over whole runs -/

variable {tr : List Label}

/-- **When metadata lands**: after any run of calls that write no row the codec does not give back,
for every live record that is no link and every write that is not refused, what was given is what
the record has just when nothing is left alone that is given: nothing of it is new when the cache
has the value, neither the creation day is, nor the modification day of a record that gets no other
flags or lifetime and has none, when the value is found. -/
theorem landed_iff (hr : Runs (CleanStep cfg (surviving cfg)) (JDb.init cfg) tr db) (hlive : LiveAt db key r)
    (hlink : has (db.io.row r).flags LINK = false) (hg : InRange a (db.io.row r))
    (ha : Admitted cfg env db key val a r) (hs : CleanStep cfg (surviving cfg) db (env, .write key val a) db') :
    (∃ r', LiveAt db' key r' ∧ Landed a (db.io.row r) (db'.io.row r')) ↔
      (CacheHit cfg db key val a → Landed a (db.io.row r) (db.io.row r)) ∧
      (¬ CacheHit cfg db key val a → Found cfg env db key val a (db.io.row r) →
        LeftAlone a val (db.io.row r)) := by
  have h := good_of_runs keeps_surviving hr
  have hrow : (db.view rowView).At key r := h.index.keyed.at_ hlive
  have hsettled : (db.io.row r).Settled := h.ok.fixed r
  obtain ⟨ret, hrun⟩ := hs.step.accepted hs.accepted
  have ha' : Admitted (cfg.refusing (surviving cfg)) env db key val a r := ⟨ha.excl, ha.lock, ha.append⟩
  have hw : Exec.Wp (Call.exec (cfg.refusing (surviving cfg)) env (.write key val a)) db (fun _ db' =>
      CacheHit cfg db key val a ∧ db'.view rowView = db.view rowView ∨
        ¬ CacheHit cfg db key val a ∧ ∃ b, RowWritten (cfg.refusing (surviving cfg)) env key val a r
          (checkedFor cfg db key a) db b db') fun _ _ => True := by
    refine Exec.wp_map.2 (Exec.wp_mono (wp_fWrite_row keeps_surviving h hrow hlink ha') ?_ fun _ _ h' => h')
    rintro b db₁ (h' | ⟨hno, h'⟩)
    exacts [.inl h', .inr ⟨hno, b, h'⟩]
  rcases hw.ok hrun with ⟨hhit, hv⟩ | ⟨hno, b, -, hw⟩
  · -- the cache has the value: the row is the one that was there
    have hrows : db'.io.row r = db.io.row r := congrArg (fun v : DbView Row => v.rows r) hv
    have hlive' : ∀ r', LiveAt db' key r' ↔ r' = r := by
      intro r'
      change (db'.view rowView).rowOf key = some r' ↔ _
      rw [hv, hrow.1, Option.some_inj]
      exact eq_comm
    constructor
    · rintro ⟨r', hr', hl⟩
      rw [(hlive' r').1 hr', hrows] at hl
      exact ⟨fun _ => hl, fun hno => absurd hhit hno⟩
    · rintro ⟨hl, -⟩
      exact ⟨r, (hlive' r).2 rfl, hrows ▸ hl hhit⟩
  · obtain ⟨hat, hiff⟩ := hw.landed_exact h.index.keyed.le hrow rfl hsettled hg
    have hiff : Landed a (db.io.row r) (db'.io.row r) ↔
        (Found cfg env db key val a (db.io.row r) → LeftAlone a val (db.io.row r)) := hiff
    have hat : LiveAt db' key r := hat.1
    constructor
    · rintro ⟨r', hr', hl⟩
      obtain rfl : r' = r := Option.some.inj (hr'.symm.trans hat)
      exact ⟨fun hhit => absurd hhit hno, fun _ => hiff.1 hl⟩
    · rintro ⟨-, hl⟩
      exact ⟨r, hat, hiff.2 (hl hno)⟩

/-- Days for a record, with a lifetime and flags. -/
def dated (ttl : TtlArg) (keyFlags : FlagArg) : WriteArgs :=
  { cdays := some 3, mdays := some (7 * MIN_OF_DAY), ttl := ttl, flags := some 0, keyFlags := keyFlags }

theorem dated_inRange (ttl : TtlArg) (keyFlags : FlagArg) (old : Row) : InRange (dated ttl keyFlags) old where
  cdays c h := by
    obtain rfl : 3 = c := Option.some.inj h
    decide
  mdays m h := by
    obtain rfl : 7 * MIN_OF_DAY = m := Option.some.inj h
    change 3 ≤ 7 * MIN_OF_DAY / MIN_OF_DAY
    decide

/-- A record that is not locked, and a call on it. -/
theorem exists_written (l : Label) (hp : l.2.plain = true) {P : JDb → JDb → Bool}
    (h : (runCalls (jsonCfg.refusing (surviving jsonCfg)) [({}, .opened), writeCall ['K'] (.int 5) 0] (init jsonCfg)).any
      (fun db => decide (db.io.keyTable.get? ['K'] = some (0, 0) ∧ (db.io.row 0).flags = 0) &&
        match (l.2.exec (jsonCfg.refusing (surviving jsonCfg)) l.1).run db with
        | (.ok _, db') => P db db'
        | (.error _, _) => false) = true) :
    ∃ db db', Runs (CleanStep jsonCfg (surviving jsonCfg)) (init jsonCfg)
        [({}, .opened), writeCall ['K'] (.int 5) 0] db ∧
      db.io.keyTable.get? ['K'] = some (0, 0) ∧ (db.io.row 0).flags = 0 ∧
      CleanStep jsonCfg (surviving jsonCfg) db l db' ∧ P db db' = true := by
  obtain ⟨db, hr, h⟩ := exists_cleanRuns jsonCfg (init jsonCfg) (surviving jsonCfg) _ (by decide) h
  rw [Bool.and_eq_true, decide_eq_true_eq] at h
  obtain ⟨⟨hget, hflags⟩, h⟩ := h
  split at h
  · rename_i ret db' hrun
    exact ⟨db, db', hr, hget, hflags, .of_run hp hrun, h⟩
  · cases h

theorem admitted_plain {db : JDb} {val : PyVal} {a : WriteArgs} (hexcl : has a.transient EXCL = false)
    (hget : db.io.keyTable.get? ['K'] = some (0, 0)) (hflags : (db.io.row 0).flags = 0) :
    Admitted jsonCfg {} db ['K'] val a 0 where
  excl := hexcl
  lock row kflags h hro := by
    rw [hget] at h
    cases h
    exact absurd hro (by decide)
  append h := by
    rw [hflags] at h
    exact absurd h (by decide)

/-- Metadata that comes with another value. -/
theorem landed_plain : ∃ db db', Runs (CleanStep jsonCfg (surviving jsonCfg)) (init jsonCfg)
      [({}, .opened), writeCall ['K'] (.int 5) 0] db ∧
    CleanStep jsonCfg (surviving jsonCfg) db ({}, .write ['K'] (.int 6) (dated (.int 5) (.str "+h".toList))) db' ∧
    ∃ r', LiveAt db' ['K'] r' ∧ Landed (dated (.int 5) (.str "+h".toList)) (db.io.row 0) (db'.io.row r') := by
  obtain ⟨db, db', hr, hget, hflags, hs, h⟩ := exists_written
    ({}, .write ['K'] (.int 6) (dated (.int 5) (.str "+h".toList))) (by decide)
    (P := fun db _ => decide ((db.io.row 0).offset = 5)) (by decide +kernel)
  have hlive : LiveAt db ['K'] 0 := congrArg (Option.map Prod.fst) hget
  refine ⟨db, db', hr, hs, (landed_iff hr hlive (by rw [hflags]; rfl) (dated_inRange _ _ _)
    (admitted_plain (by decide) hget hflags) hs).2 ⟨fun hhit => absurd rfl hhit.2.1, ?_⟩⟩
  rintro - ⟨-, enc, henc, hfound⟩
  -- the row has the header of another number
  have h6 : enc = .head 3 6 0 := (Except.ok.inj henc).symm
  rw [h6] at hfound
  have hoff := (of_decide_eq_true hfound).2.2.1
  rw [of_decide_eq_true h] at hoff
  cases hoff

/-- **Metadata that is swallowed**: days that are given with the value the record has. -/
theorem landed_fails : ∃ db db', Runs (CleanStep jsonCfg (surviving jsonCfg)) (init jsonCfg)
      [({}, .opened), writeCall ['K'] (.int 5) 0] db ∧
    LiveAt db ['K'] 0 ∧ has (db.io.row 0).flags LINK = false ∧
    InRange (dated (.int (-1)) .none) (db.io.row 0) ∧
    Admitted jsonCfg {} db ['K'] (.int 5) (dated (.int (-1)) .none) 0 ∧
    CleanStep jsonCfg (surviving jsonCfg) db ({}, .write ['K'] (.int 5) (dated (.int (-1)) .none)) db' ∧
    ¬ ∃ r', LiveAt db' ['K'] r' ∧ Landed (dated (.int (-1)) .none) (db.io.row 0) (db'.io.row r') := by
  obtain ⟨db, db', hr, hget, hflags, hs, h⟩ := exists_written
    ({}, .write ['K'] (.int 5) (dated (.int (-1)) .none)) (by decide)
    (P := fun _ db' => decide ((db'.io.keyTable.get? ['K']).map Prod.fst = some 0 ∧ (db'.io.row 0).cdays = 0))
    (by decide +kernel)
  obtain ⟨hlive', hcd⟩ := of_decide_eq_true h
  refine ⟨db, db', hr, congrArg (Option.map Prod.fst) hget, by rw [hflags]; rfl, dated_inRange _ _ _,
    admitted_plain (by decide) hget hflags, hs, ?_⟩
  rintro ⟨r', hr', hl⟩
  obtain rfl : 0 = r' := Option.some.inj (hlive'.symm.trans hr')
  have hday := hl.cdays 3 rfl
  rw [hcd] at hday
  cases hday

end JDb

end OmniJsonDb
