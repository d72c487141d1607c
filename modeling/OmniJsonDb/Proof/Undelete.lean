import OmniJsonDb.Lib.Segment
import OmniJsonDb.Proof.KeyNames
import OmniJsonDb.Proof.Links
import OmniJsonDb.Proof.Newest
import OmniJsonDb.Proof.RowCache

/-!
# Deleting a record and undeleting it

`f_delete` parks the version of a record, `f_undelete` brings the first parked version of the
key back. Whether that is the one that was just parked depends on where it went, and on how
far the search goes.

* `wp_fDelete_search`: how far the search goes once a record was deleted.
* `Deletes.deadRow`: the dead rows once a record was deleted.
* `Undeletes.parked`: the dead rows once it was undeleted.
* `deleteUndone_iff`: when the two calls undo each other.
-/

namespace OmniJsonDb

open Exec (Maintains)

/-! ## The header -/

namespace JIo

variable {cfg : Config} {io : JIo} {c p : Counters} {z : ℕ}

/-- The counters, those of the last header, and the length of a line. -/
structure Heads (c p : Counters) (z : ℕ) (io : JIo) : Prop where
  cnt : io.cnt = c
  prev : io.prev = p
  indexSize : io.indexSize = z

theorem Heads.maintains_readKey (r : ℕ) : Maintains (Heads c p z) (readKey r) := by
  have hkeep : ∀ {io io' : JIo}, io.Heads c p z → io'.cnt = io.cnt → io'.prev = io.prev →
      io'.indexSize = io.indexSize → io'.Heads c p z := fun h h₁ h₂ h₃ =>
    ⟨h₁.trans h.cnt, h₂.trans h.prev, h₃.trans h.indexSize⟩
  unfold readKey
  refine .bind (.modify fun _ h => hkeep h rfl rfl rfl) fun _ => .bind .get fun io => ?_
  split
  · exact .bind (.modify fun _ h => hkeep h rfl rfl rfl) fun _ => .pure _
  · refine .bind (.lift _) fun _ => .bind (.modify fun io' h => ?_) fun _ => .pure _
    split
    · exact hkeep h rfl rfl rfl
    · exact hkeep h rfl rfl rfl

theorem Heads.maintains_readKeys (m : ℕ) : ∀ r, Maintains (Heads c p z) (readKeys r m) := by
  induction m with
  | zero => exact fun _ => .pure _
  | succ m ih =>
    intro r
    unfold readKeys
    exact .bind (maintains_readKey r) fun _ => .bind (ih (r + 1)) fun _ => .pure _

/-- Rewriting the index at another width ends with a header. -/
theorem wp_resizeKeys_prev {size : ℕ} (hsize : io.indexSize < size) :
    Exec.Wp (resizeKeys cfg size) io (fun _ io' => io'.prev.nLines = io.cnt.nLines) fun _ _ => True := by
  have hle := le_align8 size
  unfold resizeKeys
  rw [Exec.wp_bind, Exec.wp_get]
  dsimp only
  rw [if_neg (by omega), Exec.wp_bind]
  have hread := (Heads.maintains_readKeys io.cnt.nLines 0).wp (s := io) ⟨rfl, rfl, rfl⟩
  refine Exec.wp_mono hread ?_ fun _ _ _ => trivial
  intro rows io₁ h₁
  rw [Exec.wp_bind, Exec.wp_lift]
  refine ⟨fun ks _ => ?_, fun _ _ => trivial⟩
  unfold writeHeader
  rw [Exec.wp_bind, Exec.wp_modify, Exec.wp_modify]
  exact congrArg Counters.nLines h₁.cnt

/-- How wide the lines are once a row of `n` bytes was written. -/
def widthFor (z n : ℕ) : ℕ := if z < n + 1 then align8 (n + 1) else z

/-- **Writing a row** writes a header just when the row is too wide for the index, which is made wider. -/
theorem wp_writeKey_prev (r : ℕ) (a : KeyArgs) :
    Exec.Wp (writeKey cfg r a) io (fun _ io' => ∃ row k n, io.encodeKey cfg a = .ok (row, k, n) ∧
      io'.prev.nLines = (if io.indexSize < n + 1 then io.cnt.nLines else io.prev.nLines) ∧
      io'.indexSize = widthFor io.indexSize n) fun _ _ => True := by
  unfold writeKey
  rw [Exec.wp_bind, Exec.wp_get, Exec.wp_bind, Exec.wp_lift]
  refine ⟨?_, fun _ _ => trivial⟩
  rintro ⟨row, k, n⟩ he
  dsimp only
  -- the row is stored
  have hstore : ∀ io₁ : JIo,
      io₁.prev.nLines = (if io.indexSize < n + 1 then io.cnt.nLines else io.prev.nLines) →
      io₁.indexSize = widthFor io.indexSize n →
      Exec.Wp (do
        Exec.modify fun io =>
          let io := (io.forget r).putRec r k
          if r < io.cnt.nRecords then io.rememberKey r row
          else if io.cnt.nRecords + 1 ≤ r then io.rememberDead r (place row.toSlot)
          else io
        let io ← Exec.get
        pure io.indexSize : IoM ℕ) io₁ (fun _ io' => ∃ row k n, io.encodeKey cfg a = .ok (row, k, n) ∧
          io'.prev.nLines = (if io.indexSize < n + 1 then io.cnt.nLines else io.prev.nLines) ∧
          io'.indexSize = widthFor io.indexSize n)
        fun _ _ => True := by
    intro io₁ h₁ hw₁
    rw [Exec.wp_bind, Exec.wp_modify, Exec.wp_bind, Exec.wp_get, Exec.wp_ret]
    refine ⟨row, k, n, he, ?_⟩
    rw [← h₁, ← hw₁]
    dsimp only
    split
    · exact ⟨rfl, rfl⟩
    · split
      · exact ⟨rfl, rfl⟩
      · exact ⟨rfl, rfl⟩
  unfold widthFor at hstore ⊢
  split
  · rename_i hwide
    rw [if_pos hwide, if_pos hwide] at hstore
    have hresize : ∀ io₁ : JIo, io₁.indexSize = io.indexSize → io₁.cnt = io.cnt →
        Exec.Wp (resizeKeys cfg (n + 1)) io₁
          (fun _ io' => io'.prev.nLines = io.cnt.nLines ∧ io'.indexSize = align8 (n + 1)) fun _ _ => True := by
      intro io₁ hz hc
      have hw := @wp_resizeKeys_prev cfg io₁ (n + 1) (by omega)
      rw [hc] at hw
      exact Exec.wp_mono (Exec.wp_and hw (wp_resizeKeys_width (n + 1) io₁)) (fun _ _ h' => h') fun _ _ _ => trivial
    split
    · rw [Exec.wp_bind, Exec.wp_modify, Exec.wp_bind]
      exact Exec.wp_mono (hresize _ rfl rfl) (fun _ io' h' => hstore io' h'.1 h'.2) fun _ _ _ => trivial
    · rw [Exec.wp_bind]
      exact Exec.wp_mono (hresize _ rfl rfl) (fun _ io' h' => hstore io' h'.1 h'.2) fun _ _ _ => trivial
  · rename_i hwide
    rw [if_neg hwide, if_neg hwide] at hstore
    exact hstore io rfl rfl

/-- A row that survives is not shortened. -/
theorem encodeKey_surviving {a : KeyArgs} {row : Row} {k : KeyRec} {n : ℕ} (hz : cfg.initIndexSize ≤ io.indexSize)
    (h : io.encodeKey (cfg.refusing (surviving cfg)) a = .ok (row, k, n)) :
    cfg.keyDumps (normal io.now io.cnt.syncId a) = .ok (k, n) ∧
      n + 1 ≤ max MAX_INDEX_SIZE io.indexSize := by
  unfold encodeKey at h
  dsimp only at h
  split at h
  · cases h
  · rename_i k' n' hk
    obtain ⟨hd, hs⟩ := refusing_ok hk
    have hfit : n' + 1 ≤ max MAX_INDEX_SIZE cfg.initIndexSize := (of_decide_eq_true hs).1
    rw [if_neg (by omega)] at h
    cases h
    exact ⟨hd, by omega⟩

end JIo

/-! ## Flags and dates that come back -/

section Flags

variable {r info : Row} {a : KeyArgs} {i : ℕ}

theorem testBit_keyMask (i : ℕ) : KEY_FLAG_MASK.testBit i = decide (i < 16) := Nat.testBit_two_pow_sub_one 16 i

theorem testBit_userMask (i : ℕ) : USER_FLAG_MASK.testBit i = (decide (i < 16) && !decide (i = 2)) := by
  unfold USER_FLAG_MASK
  rw [testBit_clear, testBit_keyMask, show GROUP = 2 ^ 2 by decide, Nat.testBit_two_pow]
  simp only [eq_comm]

/-- The row is the marker of a group that belongs to the database. -/
def OwnGroup (fileId rowSize : ℕ) : Prop := fileId = 0x10 ∧ rowSize = 0

instance (fileId rowSize : ℕ) : Decidable (OwnGroup fileId rowSize) := by unfold OwnGroup; infer_instance

theorem testBit_ownGroup (f n i : ℕ) : (if f = 0x10 ∧ n = 0 then GROUP else 0).testBit i =
    (decide (i = 2) && decide (OwnGroup f n)) := by
  by_cases h : OwnGroup f n
  · have h' : f = 0x10 ∧ n = 0 := h
    rw [if_pos h', show GROUP = 2 ^ 2 by decide, Nat.testBit_two_pow, decide_eq_true h, Bool.and_true]
    simp only [eq_comm]
  · have h' : ¬ (f = 0x10 ∧ n = 0) := h
    rw [if_neg h', Nat.zero_testBit, decide_eq_false h, Bool.and_false]

/-- **The flags `write_key` records**, bit by bit: the group bit follows the value, the expire bit the
lifetime. -/
theorem testBit_normalFlags (hk : a.key ≠ []) (i : ℕ) : (normalFlags a).testBit i =
    if i = 7 then a.ttl.clamp.pos
    else (a.flags.testBit i && decide (i < 16)) || (decide (i = 2) && decide (OwnGroup a.fileId a.rowSize)) := by
  have hgroup : (if a.key ≠ [] ∧ a.fileId = 0x10 ∧ a.rowSize = 0 then GROUP else 0).testBit i =
      (decide (i = 2) && decide (OwnGroup a.fileId a.rowSize)) := by
    rw [← testBit_ownGroup]
    simp only [hk, ne_eq, not_false_eq_true, true_and]
  have hbase : ((a.flags &&& KEY_FLAG_MASK) |||
      (if a.key ≠ [] ∧ a.fileId = 0x10 ∧ a.rowSize = 0 then GROUP else 0)).testBit i =
      ((a.flags.testBit i && decide (i < 16)) || (decide (i = 2) && decide (OwnGroup a.fileId a.rowSize))) := by
    rw [Nat.testBit_or, Nat.testBit_and, testBit_keyMask, hgroup]
  unfold normalFlags
  dsimp only
  by_cases hi : i = 7
  · subst hi
    have hexp : EXPIRE.testBit 7 = true := by decide
    rw [if_pos rfl]
    split
    · rename_i hp
      rw [Nat.testBit_or, hexp, Bool.or_true, hp]
    · rename_i hp
      rw [testBit_clear, hexp, Bool.not_true, Bool.and_false]
      exact ((Bool.not_eq_true _).mp hp).symm
  · have hexp : EXPIRE.testBit i = false := by
      rw [show EXPIRE = 2 ^ 7 by decide, Nat.testBit_two_pow]
      exact decide_eq_false (Ne.symm hi)
    rw [if_neg hi]
    split
    · rw [Nat.testBit_or, hexp, Bool.or_false, hbase]
    · rw [testBit_clear, hexp, Bool.not_false, Bool.and_true, hbase]

theorem testBit_undoFlags (info : Row) (user i : ℕ) : (JDb.undoFlags info user).testBit i =
    (user.testBit i || (decide (i = 2) && decide (OwnGroup info.fileId info.rowSize))) := by
  unfold JDb.undoFlags
  rw [Nat.testBit_or, testBit_ownGroup]

/-- The flags of a row that `write_key` would not change. -/
theorem Row.Settled.testBit (h : r.Settled) (hk : r.key ≠ []) (i : ℕ) : r.flags.testBit i =
    if i = 7 then r.ttl.pos
    else (r.flags.testBit i && decide (i < 16)) || (decide (i = 2) && decide (OwnGroup r.fileId r.rowSize)) := by
  have hflags : normalFlags r.args = r.flags := congrArg (fun r : Row => r.flags) h
  have hbits := testBit_normalFlags (a := r.args) hk i
  rw [hflags] at hbits
  have hclamp : r.args.ttl.clamp = r.ttl := h.spec.1
  rw [hclamp] at hbits
  exact hbits

/-- The flags an undo gives a row are the ones that are recorded. -/
theorem normalFlags_undo (h : info.Settled) {key : Key} (hk : key ≠ []) (hik : info.key = key) :
    normalFlags { info.args with
      key := key, ver := none, flags := JDb.undoFlags info (info.flags &&& USER_FLAG_MASK) } =
      JDb.undoFlags info (info.flags &&& USER_FLAG_MASK) := by
  subst hik
  refine Nat.eq_of_testBit_eq fun i => ?_
  have hi := h.testBit hk i
  have hclamp : info.ttl.clamp = info.ttl := h.spec.1
  rw [testBit_normalFlags hk, testBit_undoFlags, Nat.testBit_and, testBit_userMask]
  change (if i = 7 then info.ttl.clamp.pos else _ || (_ && decide (OwnGroup info.fileId info.rowSize))) = _
  rw [hclamp]
  by_cases h7 : i = 7
  · subst h7
    rw [if_pos rfl] at hi ⊢
    rw [hi]
    simp
  · rw [if_neg h7]
    by_cases h2 : i = 2
    · subst h2
      simp
    · simp [h2]

/-- **The flags of a record that was deleted and undeleted** are what they were, unless it is a group of
another database. -/
theorem undoFlags_parked (h : r.Settled) (hk : r.key ≠ []) (now sync : ℕ) :
    JDb.undoFlags (normal now sync (JDb.parked r.key r)) ((normal now sync (JDb.parked r.key r)).flags &&& USER_FLAG_MASK) =
      r.flags ↔ (has r.flags GROUP = true → OwnGroup r.fileId r.rowSize) := by
  have hbit : ∀ i, (JDb.undoFlags (normal now sync (JDb.parked r.key r))
      ((normal now sync (JDb.parked r.key r)).flags &&& USER_FLAG_MASK)).testBit i =
      if i = 2 then decide (OwnGroup r.fileId r.rowSize) else r.flags.testBit i := by
    intro i
    have hi := h.testBit hk i
    have hclamp : r.ttl.clamp = r.ttl := h.spec.1
    rw [testBit_undoFlags, Nat.testBit_and, testBit_userMask]
    change ((normalFlags (JDb.parked r.key r)).testBit i && _ || (_ && decide (OwnGroup r.fileId r.rowSize))) = _
    rw [testBit_normalFlags (a := JDb.parked r.key r) hk]
    change ((if i = 7 then r.ttl.clamp.pos else ((r.flags &&& USER_FLAG_MASK).testBit i && _) || _) && _ || _) = _
    rw [hclamp, Nat.testBit_and, testBit_userMask]
    by_cases h2 : i = 2
    · subst h2
      simp
    · rw [if_neg h2]
      by_cases h7 : i = 7
      · subst h7
        rw [if_pos rfl] at hi ⊢
        rw [hi]
        simp
      · rw [if_neg h7] at hi ⊢
        rw [hi]
        simp [h2]
  rw [show GROUP = 2 ^ 2 by decide, has_eq_testBit]
  constructor
  · intro he hg
    have hb := hbit 2
    rw [he, hg, if_pos rfl] at hb
    exact of_decide_eq_true hb.symm
  · intro hg
    refine Nat.eq_of_testBit_eq fun i => ?_
    rw [hbit]
    split
    · rename_i h2
      subst h2
      have hi := h.testBit hk 2
      by_cases hown : OwnGroup r.fileId r.rowSize
      · rw [hi, decide_eq_true hown]
        simp
      · rw [decide_eq_false hown]
        exact ((Bool.not_eq_true _).mp (mt hg hown)).symm
    · rfl

/-- Dates and lifetime of a row that `write_key` would not change are recorded as they are. -/
theorem Row.Settled.dates (h : r.Settled) (now sync : ℕ) (hc : a.cdays = some r.cdays) (hm : a.mdays = some r.mdays)
    (ht : a.ttl = r.ttl) : (normal now sync a).cdays = r.cdays ∧ (normal now sync a).mdays = r.mdays ∧
      (normal now sync a).ttl = r.ttl := by
  have hc' : (normal 0 0 r.args).cdays = r.cdays := congrArg Row.cdays h
  have hm' : (normal 0 0 r.args).mdays = r.mdays := congrArg Row.mdays h
  have ht' : (normal 0 0 r.args).ttl = r.ttl := congrArg Row.ttl h
  unfold normal at hc' hm' ht' ⊢
  dsimp only at hc' hm' ht' ⊢
  rw [hc, hm, ht]
  exact ⟨hc', hm', ht'⟩

end Flags

namespace JDb

variable {cfg : Config} {db db' db₁ db₂ : JDb} {c p : Counters} {z : ℕ} {key : Key} {r : ℕ}

abbrev Headed (c p : Counters) (z : ℕ) (db : JDb) : Prop := db.io.Heads c p z

instance : Passive (Headed c p z) where
  readKey r := .zoom (fun _ h => h) (fun _ _ h _ => h) (JIo.Heads.maintains_readKey r)
  same h hs := ⟨hs.cnt.trans h.cnt, hs.prev.trans h.prev, hs.indexSize.trans h.indexSize⟩

/-- The lines that a header lists, and how wide they are, once the row `a` was written. -/
def ListedBy (cfg : Config) (c p : Counters) (z : ℕ) (a : KeyArgs) (io' : JIo) : Prop :=
  ∃ io row k n, JIo.Heads c p z io ∧ io.encodeKey cfg a = .ok (row, k, n) ∧
    io'.prev.nLines = (if z < n + 1 then c.nLines else p.nLines) ∧ io'.indexSize = JIo.widthFor z n

/-- Of the writes of a deletion only that of the parked version can end with a header. -/
theorem wp_removeRow_prev (h : Headed c p z db) (key : Key) (row : ℕ) (old : Row) (flags : ℕ) :
    Exec.Wp (fDelete.removeRow cfg key row old flags) db
      (fun _ db' => ListedBy cfg { c with nRecords := c.nRecords - 1 } p z (parked key old) db'.io)
      fun _ _ => True := by
  unfold fDelete.removeRow
  rw [Exec.wp_bind, Exec.wp_get]
  extract_lets n deadH recT tail popKey rest
  set c₁ : Counters := { c with nRecords := c.nRecords - 1 } with hc₁
  have hcopy : ∀ (src dst : ℕ) (db₂ : JDb), Headed c₁ p z db₂ → Exec.Wp (onIo (JIo.copyKey src dst)) db₂
      (fun _ db' => Headed c₁ p z db') fun _ _ => True := by
    intro src dst db₂ h₂
    unfold onIo JIo.copyKey
    rw [Exec.wp_zoom, Exec.wp_modifyGet]
    exact ⟨h₂.cnt, h₂.prev, h₂.indexSize⟩
  -- the version is parked, and what follows writes no header
  have hpark : ∀ moved db₂, Headed c₁ p z db₂ → Exec.Wp (rest moved) db₂
      (fun _ db' => ListedBy cfg c₁ p z (parked key old) db'.io) fun _ _ => True := by
    intro moved db₂ h₂
    unfold rest
    extract_lets park
    have hwrite : ∀ db₃, Headed c₁ p z db₃ → Exec.Wp (park ()) db₃
        (fun _ db' => ListedBy cfg c₁ p z (parked key old) db'.io) fun _ _ => True := by
      intro db₃ h₃
      unfold park onIo
      rw [Exec.wp_bind, Exec.wp_zoom]
      refine Exec.wp_mono (JIo.wp_writeKey_prev _ _) ?_ fun _ _ _ => trivial
      rintro _ io₄ ⟨row', k, n', he, hm⟩
      rw [h₃.indexSize, h₃.cnt, h₃.prev] at hm
      have hl : ListedBy cfg c₁ p z (parked key old) io₄ := ⟨_, row', k, n', h₃, he, hm⟩
      unfold modifyIo
      rw [Exec.wp_bind, Exec.wp_modify]
      cases moved with
      | none => exact hl
      | some r => exact hl
    split
    · rw [Exec.wp_bind]
      exact Exec.wp_mono (hcopy _ _ db₂ h₂) (fun _ db₃ h₃ => hwrite db₃ h₃) fun _ _ _ => trivial
    · exact hwrite db₂ h₂
  unfold modifyIo
  rw [Exec.wp_bind, Exec.wp_modify]
  have h₁ : Headed c₁ p z { db with io := { db.io with
      groups := db.io.groups.pop key
      cnt := { db.io.cnt with nRecords := recT } } } := by
    refine ⟨?_, h.prev, h.indexSize⟩
    simp only [recT, n, hc₁, ← h.cnt]
  split
  · rw [Exec.wp_bind, Exec.wp_modify, Exec.wp_bind]
    refine Exec.wp_mono (hcopy _ _ _ ⟨h₁.cnt, h₁.prev, h₁.indexSize⟩) ?_ fun _ _ _ => trivial
    intro r db₂ h₂
    rw [Exec.wp_bind, Exec.wp_ret]
    exact hpark (some r) db₂ h₂
  · rw [Exec.wp_bind, Exec.wp_ret]
    exact hpark none _ h₁

/-- A record that is not locked is deleted, and how far a search goes then. -/
theorem wp_fDelete_search (h : db.Good rowView cfg) (hlive : LiveAt db key r)
    (hlock : has (db.io.row r).flags DELETE_LOCK_MASK = false) (env : Env) (readValue : Bool)
    (flags : Option ℕ) (keyFlags : FlagArg) :
    Exec.Wp (fDelete cfg env key readValue none flags keyFlags) db
      (fun d db' => d ≠ .locked ∧ ListedBy cfg { db.io.cnt with nRecords := db.io.cnt.nRecords - 1 } db.io.prev
        db.io.indexSize (parked (db.io.row r).key (db.io.row r)) db'.io) fun _ _ => True := by
  unfold fDelete
  rw [Exec.wp_bind]
  have hhead : Headed db.io.cnt db.io.prev db.io.indexSize db := ⟨rfl, rfl, rfl⟩
  refine Exec.wp_mono (Exec.wp_and (reads_cachePop h key) ((passive_cachePop key).wp hhead)) ?_
    fun _ _ _ => trivial
  rintro _ db₁ ⟨hq₁, h₁⟩
  rw [Exec.wp_bind, Exec.wp_get]
  extract_lets rest
  -- from the row on
  have hfound : Exec.Wp (rest r) db₁ (fun d db' => d ≠ .locked ∧
      ListedBy cfg { db.io.cnt with nRecords := db.io.cnt.nRecords - 1 } db.io.prev db.io.indexSize
        (parked (db.io.row r).key (db.io.row r)) db'.io) fun _ _ => True := by
    unfold rest
    split
    rename_i transient kf hpop
    rw [Exec.wp_bind]
    refine Exec.wp_mono (Exec.wp_and (wp_readKey hq₁.good r) ((passive_readKey r).wp h₁)) ?_ fun _ _ _ => trivial
    rintro old db₂ ⟨⟨⟨hold, -⟩, -⟩, h₂⟩
    rw [hq₁.view] at hold
    obtain rfl : old = db.io.row r := hold
    rw [hlock, Bool.false_and, if_neg Bool.false_ne_true]
    have hremove : ∀ (val : Option PyVal) (db₃ : JDb), Headed db.io.cnt db.io.prev db.io.indexSize db₃ →
        Exec.Wp (do
          fDelete.removeRow cfg (db.io.row r).key r (db.io.row r) (flags.getD cfg.flags)
          pure (Deleted.gone val)) db₃ (fun d db' => d ≠ .locked ∧
            ListedBy cfg { db.io.cnt with nRecords := db.io.cnt.nRecords - 1 } db.io.prev db.io.indexSize
              (parked (db.io.row r).key (db.io.row r)) db'.io) fun _ _ => True := by
      intro val db₃ h₃
      rw [Exec.wp_bind]
      refine Exec.wp_mono (wp_removeRow_prev h₃ _ r _ _) ?_ fun _ _ _ => trivial
      intro _ db₄ h₄
      rw [Exec.wp_ret]
      exact ⟨(fun hd => nomatch hd), h₄⟩
    split
    · trivial
    · extract_lets key'
      rw [Exec.wp_bind, Exec.wp_get]
      extract_lets isGroup
      split
      · rw [Exec.wp_bind]
        refine Exec.wp_mono ((passive_decodeValue env key' _ _ _).wp h₂) ?_ fun _ _ _ => trivial
        intro val db₃ h₃
        rw [Exec.wp_bind, Exec.wp_ret]
        exact hremove (some val) db₃ h₃
      · rw [Exec.wp_bind, Exec.wp_ret]
        exact hremove none db₂ h₂
  have hget : ∃ f, db₁.io.keyTable.get? key = some (r, f) := by
    have hrow : (db₁.view rowView).rowOf key = some r := by
      rw [hq₁.view]
      exact hlive
    obtain ⟨⟨r', f⟩, hf, rfl⟩ := Option.map_eq_some_iff.1 hrow
    exact ⟨f, hf⟩
  obtain ⟨f, hget⟩ := hget
  split
  · rename_i hrow
    cases hrow
  · rw [hget, Exec.wp_bind, Exec.wp_ret]
    exact hfound

/-- **The search of an undelete** is all that decides whether it restores a record. -/
theorem wp_fUndelete_search (hkey : key ≠ []) (hnew : db.io.keyTable.contains key = false) (flags : Option ℕ) :
    Exec.Wp (fUndelete cfg key none flags) db
      (fun o _ => o.isSome = (findRow db.io key db.io.cnt.nRecords db.io.prev.nLines).isSome) fun _ _ => True := by
  unfold fUndelete
  rw [if_neg hkey, Exec.wp_bind]
  unfold cachePop
  rw [Exec.wp_modify, Exec.wp_bind, Exec.wp_get, if_neg (by rw [hnew]; exact Bool.false_ne_true), Exec.wp_bind]
  unfold undoRow
  rw [Exec.wp_bind, Exec.wp_get, Exec.wp_ret]
  -- the search looks at the index only, and the entry of the key in the value cache is no part of it
  have hfind : ∀ cache, findRow ({ db with cache := cache } : JDb).io key db.io.cnt.nRecords db.io.prev.nLines =
      findRow db.io key db.io.cnt.nRecords db.io.prev.nLines := fun _ => rfl
  rw [hfind]
  split
  · rename_i hnone
    rw [hnone]
    rfl
  · rename_i d info hsome
    rw [hsome, Exec.wp_bind, Exec.wp_get]
    extract_lets n h info' finish room
    have hfinish : ∀ db', Exec.Wp (finish ()) db' (fun o _ => o.isSome = true) fun _ _ => True := by
      intro db'
      unfold finish
      refine Exec.wp_skip fun _ _ => Exec.wp_skip fun _ _ => ?_
      extract_lets kf
      exact Exec.wp_skip fun _ _ => Exec.wp_skip fun _ _ => Exec.wp_skip fun _ _ => rfl
    have hroom : ∀ db', Exec.Wp (room ()) db' (fun o _ => o.isSome = true) fun _ _ => True := by
      intro db'
      unfold room
      split
      · exact Exec.wp_skip fun _ db₃ => hfinish db₃
      · exact hfinish db'
    split
    · refine Exec.wp_skip fun _ db₂ => ?_
      split
      · exact Exec.wp_skip fun _ db₃ => hroom db₃
      · exact hroom db₂
    · refine Exec.wp_skip fun _ db₂ => ?_
      split
      · exact Exec.wp_skip fun _ db₃ => hfinish db₃
      · exact hfinish db₂

/-! ## The dead rows -/

/-- The value a row names. -/
def storedAt (c : ValCodec) (db : JDb) (r : ℕ) : Except Err PyVal :=
  storedValue c (db.view rowView) (db.io.row r).toSlot

/-- The rows that are not live: parked versions, and what is free. -/
def parkedRows (db : JDb) : Multiset Row := segment db.io.row db.io.nRecords db.io.nLines

/-- The version that a deletion of row `r` parks. -/
def parkedVersion (db : JDb) (r : ℕ) : Row :=
  normal db.io.now db.io.cnt.syncId (parked (db.io.row r).key (db.io.row r))

/-- What the dead row `x` is once row `r` was deleted. -/
def deadRow (db : JDb) (r flags x : ℕ) : Row :=
  if (db.view rowView).toTail (db.io.row r).key flags then
    if x = (db.view rowView).safeEnd - 1 then db.parkedVersion r
    else if x = db.io.nRecords - 1 then db.io.row ((db.view rowView).safeEnd - 1)
    else db.io.row x
  else if x = db.io.nRecords - 1 then db.parkedVersion r
  else db.io.row x

/-- The line that a search for parked versions ends at once row `r` was deleted: the number of lines in
the last header, which the deletion writes when the parked version makes the index wider. -/
def searchEnd (cfg : Config) (db : JDb) (r : ℕ) : ℕ :=
  match cfg.keyDumps (db.parkedVersion r) with
  | .ok (_, n) => if db.io.indexSize < n + 1 then db.io.nLines else db.io.prev.nLines
  | .error _ => db.io.prev.nLines

theorem ListedBy.searchEnd {io' : JIo} {n : ℕ} (hz : cfg.initIndexSize ≤ db.io.indexSize)
    (h : ListedBy (cfg.refusing (surviving cfg)) { db.io.cnt with nRecords := n } db.io.prev db.io.indexSize
      (parked (db.io.row r).key (db.io.row r)) io') :
    io'.prev.nLines = searchEnd cfg db r ∧ (io'.indexSize ≤ 2 ^ 22 ↔ db.io.indexSize ≤ 2 ^ 22) := by
  obtain ⟨io, row, k, n, hh, he, hl, hw⟩ := h
  obtain ⟨hk, hfit⟩ := JIo.encodeKey_surviving (by rw [hh.indexSize]; exact hz) he
  have hnow : normal io.now io.cnt.syncId (parked (db.io.row r).key (db.io.row r)) = db.parkedVersion r := by
    rw [hh.cnt]
    rfl
  rw [hnow] at hk
  constructor
  · rw [hl]
    unfold JDb.searchEnd
    rw [hk]
    rfl
  · rw [hw]
    unfold JIo.widthFor
    split
    · -- a row that was made wider fits the greatest width
      rw [hh.indexSize] at hfit
      have hmax : MAX_INDEX_SIZE ≤ 2 ^ 22 := by decide
      rw [JIo.align8_le_block]
      omega
    · rfl

/-- A record that is not locked is gone after its deletion. -/
theorem Deletes.view_eq {v' : DbView Row} {d : Deleted} {flags : ℕ} (hlive : LiveAt db key r) (hd : d ≠ .locked)
    (h : Deletes rowView key none flags (db.view rowView) d v') :
    v' = (db.view rowView).deleteAt rowView (db.io.row r).key r (db.io.row r) flags
      (db.io.row (db.io.nRecords - 1)).flags := by
  cases h with
  | locked => exact absurd rfl hd
  | @gone row old moved val hrow hold hmoved hkey =>
    have hkey : old.key = key := by
      rcases hkey with ⟨-, hg⟩ | hkey
      · cases hg
      · exact hkey
    have hr : row = r := by
      have hat := hrow.1
      rw [hkey] at hat
      exact Option.some.inj (hat.symm.trans hlive)
    subst hr
    obtain rfl : old = db.io.row row := hold
    obtain rfl : moved = db.io.row (db.io.nRecords - 1) := hmoved
    rfl

section Deleted

variable {flags kf : ℕ} (h : (db.view rowView).Keyed rowView) (hr : r < db.io.nRecords)
  (hv : db₁.view rowView = (db.view rowView).deleteAt rowView (db.io.row r).key r (db.io.row r) flags kf)

include h hr hv

theorem row_deleted {x : ℕ} (hx : db.io.nRecords - 1 ≤ x) : db₁.io.row x = db.deadRow r flags x := by
  have hrows : db₁.io.row x = ((db.view rowView).deleteAt rowView (db.io.row r).key r (db.io.row r) flags kf).rows x :=
    congrArg (fun v => v.rows x) hv
  have hsafe := (DbView.le_safeEnd h.le).1
  have hn : (db.view rowView).cnt.nRecords = db.io.nRecords := rfl
  have hn' : db.io.cnt.nRecords = db.io.nRecords := rfl
  rw [hn] at hsafe
  rw [hrows, DbView.rows_deleteAt, hn, if_neg (by omega : ¬ (x = r ∧ r < db.io.nRecords - 1)),
    if_neg (by omega : ¬ ((db.view rowView).safeEnd - 1 = r ∧ r < db.io.nRecords - 1))]
  rfl

/-- **Deleting a record** adds its version to the dead rows. -/
theorem segment_deleted : segment db₁.io.row (db.io.nRecords - 1) db.io.nLines =
    db.parkedVersion r ::ₘ db.parkedRows := by
  have hsafe := DbView.le_safeEnd h.le
  have hn : (db.view rowView).cnt.nRecords = db.io.nRecords := rfl
  have hl : (db.view rowView).cnt.nLines = db.io.nLines := rfl
  rw [hn, hl] at hsafe
  have hrow : ∀ x, db.io.nRecords - 1 ≤ x → db₁.io.row x = db.deadRow r flags x := fun x hx =>
    row_deleted h hr hv hx
  have hle : db.io.nRecords ≤ db.io.nLines := h.le
  rw [segment_cons (by omega), Nat.sub_add_cancel (by omega), hrow _ le_rfl]
  by_cases htail : (db.view rowView).toTail (db.io.row r).key flags
  · -- the last safe row gave way to it
    have hne : (db.view rowView).safeEnd ≠ db.io.nRecords := htail.1
    have hset := segment_set (f := db.io.row) (a := db.io.nRecords) (b := db.io.nLines)
      (d := (db.view rowView).safeEnd - 1)
      (g := Function.update db.io.row ((db.view rowView).safeEnd - 1) (db.parkedVersion r)) (by omega) (by omega)
      fun x hx => Function.update_of_ne hx _ _
    rw [Function.update_self] at hset
    unfold parkedRows
    rw [← hset]
    unfold deadRow
    rw [if_pos htail, if_neg (by omega), if_pos rfl]
    refine congrArg _ (segment_congr fun x hx hxl => ?_)
    rw [hrow x (by omega), Function.update_apply]
    unfold deadRow
    rw [if_pos htail, if_neg (by omega : x ≠ db.io.nRecords - 1)]
  · unfold deadRow
    rw [if_neg htail, if_pos rfl]
    refine congrArg _ (segment_congr fun x hx hxl => ?_)
    rw [hrow x (by omega)]
    unfold deadRow
    rw [if_neg htail, if_neg (by omega)]

end Deleted

section Undeleted

variable {flags kf d : ℕ} {info : Row} (hle : db.io.nRecords ≤ db.io.nLines) (hd : db.io.nRecords ≤ d)
  (hv : db'.view rowView = ((db.view rowView).undeleteRoom key flags d).undeleteAt rowView key info kf)

include hle hd hv

theorem cnt_undeleted : db'.io.nRecords = db.io.nRecords + 1 ∧ db'.io.nLines = db.io.nLines := by
  have hcnt : db'.io.cnt = (((db.view rowView).undeleteRoom key flags d).undeleteAt rowView key info kf).cnt :=
    congrArg (fun v => v.cnt) hv
  have hroom := (DbView.undeleteRoom_frame (v := db.view rowView) key flags hle hd).1
  unfold JIo.nRecords JIo.nLines
  rw [hcnt]
  change ((db.view rowView).undeleteRoom key flags d).cnt.nRecords + 1 = (db.view rowView).cnt.nRecords + 1 ∧
    ((db.view rowView).undeleteRoom key flags d).cnt.nLines = (db.view rowView).cnt.nLines
  rw [hroom]
  exact ⟨rfl, rfl⟩

theorem row_undeleted : db'.io.row db.io.nRecords =
    normal db.io.now db.io.cnt.syncId { info.args with key := key, ver := none, flags := kf } := by
  obtain ⟨hcnt, -, hnow, -⟩ := DbView.undeleteRoom_frame (v := db.view rowView) key flags hle hd
  have hrow : db'.io.row db.io.nRecords =
      (((db.view rowView).undeleteRoom key flags d).undeleteAt rowView key info kf).rows db.io.nRecords :=
    congrArg (fun v => v.rows db.io.nRecords) hv
  have hn : (db.view rowView).cnt.nRecords = db.io.nRecords := rfl
  rw [hrow, DbView.rows_undeleteAt, hcnt, hn, if_pos rfl]
  unfold DbView.new
  rw [hcnt, hnow]
  rfl

/-- **Undeleting a record** takes the version that was found out of the dead rows. -/
theorem segment_undeleted (hdl : d < db.io.nLines) :
    db.io.row d ::ₘ db'.parkedRows = segment db.io.row db.io.nRecords db.io.nLines := by
  have hcnt := (DbView.undeleteRoom_frame (v := db.view rowView) key flags hle hd).1
  have hn : (db.view rowView).cnt.nRecords = db.io.nRecords := rfl
  have hhead := (DbView.le_undoHead (v := db.view rowView) flags hle).1
  rw [hn] at hhead
  obtain ⟨hn', hl'⟩ := cnt_undeleted hle hd hv
  have hrows : ∀ x, db.io.nRecords < x → db'.io.row x =
      if (db.view rowView).undoHead flags ≤ d ∧ x = (db.view rowView).undoHead flags then db.io.row db.io.nRecords
      else if (db.view rowView).undoHead flags ≤ d ∧ x = d then db.io.row ((db.view rowView).undoHead flags)
      else if x = d then db.io.row db.io.nRecords else db.io.row x := by
    intro x hx
    have hrow : db'.io.row x =
        (((db.view rowView).undeleteRoom key flags d).undeleteAt rowView key info kf).rows x :=
      congrArg (fun v => v.rows x) hv
    rw [hrow, DbView.rows_undeleteAt, hcnt, hn, if_neg (by omega)]
    exact DbView.rows_undeleteRoom key flags hle hd (by rw [hn]; omega)
  unfold parkedRows
  rw [hn', hl']
  by_cases hh : (db.view rowView).undoHead flags ≤ d
  · refine segment_shift hd hdl hhead hh fun x hx hxl => ?_
    rw [hrows x hx]
    simp only [hh, true_and]
    split
    · rfl
    · split
      · rfl
      · rfl
  · -- the version lies in the safe region: the first dead row takes its place
    refine segment_shift hd hdl le_rfl hd fun x hx hxl => ?_
    rw [hrows x hx, if_neg (by omega), if_neg (by omega), if_neg (by omega : x ≠ db.io.nRecords)]

end Undeleted

/-! ## Deleting and undeleting -/

/-- The rows agree on all but the place of the value and the version. -/
structure SameRecord (a b : Row) : Prop where
  key : a.key = b.key
  cdays : a.cdays = b.cdays
  mdays : a.mdays = b.mdays
  ttl : a.ttl = b.ttl
  flags : a.flags = b.flags

/-- **The deletion of row `r` is undone**: the key has a record with the same value, dates, lifetime and
flags, in its row and in the key table, every other record is the one it was, and no parked version is
lost. -/
structure DeleteUndone (c : ValCodec) (key : Key) (r : ℕ) (db db' : JDb) : Prop where
  record : ∃ r', r' < db'.io.nRecords ∧ db'.io.keyTable.get? key = some (r', (db.io.row r).flags) ∧
    SameRecord (db'.io.row r') (db.io.row r) ∧ storedAt c db' r' = storedAt c db r
  others : ∀ k s f, k ≠ key → db.io.keyTable.get? k = some (s, f) →
    ∃ s', db'.io.keyTable.get? k = some (s', f) ∧ db'.io.row s' = db.io.row s ∧ storedAt c db' s' = storedAt c db s
  parked : db.parkedRows ≤ db'.parkedRows

/-- **What makes the deletion of row `r` undone**: the key is not empty, a block of the search has room for
a row, the first dead row of the key that the search gets to holds the version that was parked, a record
that is flagged a group is one of this database, and the record that fills the hole has its flags in the
key table. -/
structure Undeletable (cfg : Config) (db : JDb) (r flags : ℕ) : Prop where
  named : (db.io.row r).key ≠ []
  block : db.io.indexSize ≤ 2 ^ 22
  found : ∃ x, db.io.nRecords - 1 ≤ x ∧ x < searchEnd cfg db r ∧ db.deadRow r flags x = db.parkedVersion r ∧
    ∀ y, db.io.nRecords - 1 ≤ y → y < x → (db.deadRow r flags y).key ≠ (db.io.row r).key
  group : has (db.io.row r).flags GROUP = true → OwnGroup (db.io.row r).fileId (db.io.row r).rowSize
  filler : r < db.io.nRecords - 1 →
    ∀ f, db.io.keyTable.get? (db.io.row (db.io.nRecords - 1)).key = some (db.io.nRecords - 1, f) →
      f = (db.io.row (db.io.nRecords - 1)).flags

theorem findRow_isSome {io : JIo} {start stop : ℕ} : (findRow io key start stop).isSome = true ↔
    io.indexSize ≤ 2 ^ 22 ∧ ∃ x, start ≤ x ∧ x < stop ∧ x < io.cnt.nLines ∧ (io.row x).key = key := by
  unfold findRow JIo.keyIter
  rw [List.find?_isSome]
  by_cases hwide : 2 ^ 22 < io.indexSize
  · rw [if_pos hwide]
    constructor
    · rintro ⟨e, hm, -⟩
      cases hm
    · rintro ⟨hle, -⟩
      omega
  rw [if_neg hwide]
  constructor
  · rintro ⟨⟨x, row⟩, hm, hk⟩
    obtain ⟨y, hy, he⟩ := List.mem_map.1 hm
    cases he
    have hy := List.mem_range'_1.1 hy
    exact ⟨by omega, x, hy.1, by omega, by omega, of_decide_eq_true hk⟩
  · rintro ⟨-, x, h₁, h₂, h₃, hk⟩
    refine ⟨(x, io.row x), List.mem_map.2 ⟨x, ?_, rfl⟩, decide_eq_true hk⟩
    rw [List.mem_range'_1]
    omega

/-- The parked version is in one of the lines. -/
theorem exists_deadRow (hle : db.io.nRecords ≤ db.io.nLines) (hr : r < db.io.nRecords) (flags : ℕ) :
    ∃ t, db.io.nRecords - 1 ≤ t ∧ t < db.io.nLines ∧ db.deadRow r flags t = db.parkedVersion r := by
  unfold deadRow
  by_cases htail : (db.view rowView).toTail (db.io.row r).key flags
  · have hsafe := DbView.le_safeEnd (v := db.view rowView) hle
    have hn : (db.view rowView).cnt.nRecords = db.io.nRecords := rfl
    have hl : (db.view rowView).cnt.nLines = db.io.nLines := rfl
    refine ⟨(db.view rowView).safeEnd - 1, by omega, by omega, ?_⟩
    rw [if_pos htail, if_pos rfl]
  · refine ⟨db.io.nRecords - 1, le_rfl, by omega, ?_⟩
    rw [if_neg htail, if_pos rfl]

/-- A row's flags fit the key table. -/
theorem flags_and_mask {row : Row} (h : row.Settled) : row.flags &&& KEY_FLAG_MASK = row.flags := by
  have hflags : normalFlags row.args = row.flags := congrArg (fun r : Row => r.flags) h
  have hle := normalFlags_le row.args
  rw [hflags] at hle
  exact and_mask_of_le 16 (by decide) hle

section Steps

variable {env : Env} {flags : Option ℕ}

/-- What a clean deletion of a record that is not locked does. -/
theorem delete_done (hg : db.Good rowView (cfg.refusing (surviving cfg))) (hlive : LiveAt db key r)
    (hlock : has (db.io.row r).flags DELETE_LOCK_MASK = false) {readValue : Bool} {kf : FlagArg}
    (hs : CleanStep cfg (surviving cfg) db (env, .delete key readValue none flags kf) db₁) :
    db₁.Good rowView (cfg.refusing (surviving cfg)) ∧ (db₁.io.prev.nLines = searchEnd cfg db r ∧
      (db₁.io.indexSize ≤ 2 ^ 22 ↔ db.io.indexSize ≤ 2 ^ 22)) ∧
      db₁.view rowView = (db.view rowView).deleteAt rowView (db.io.row r).key r (db.io.row r)
        (flags.getD cfg.flags) (db.io.row (db.io.nRecords - 1)).flags := by
  obtain ⟨ret, hrun⟩ := hs.step.accepted hs.accepted
  have hdel := wp_fDelete keeps_surviving hg env key readValue none flags kf fun _ _ h => nomatch h
  have hsearch := wp_fDelete_search hg hlive hlock env readValue flags kf
  have hw : Exec.Wp (Call.exec (cfg.refusing (surviving cfg)) env (.delete key readValue none flags kf)) db
      (fun _ db₁ => db₁.Good rowView (cfg.refusing (surviving cfg)) ∧
        (db₁.io.prev.nLines = searchEnd cfg db r ∧ (db₁.io.indexSize ≤ 2 ^ 22 ↔ db.io.indexSize ≤ 2 ^ 22)) ∧
        db₁.view rowView = (db.view rowView).deleteAt rowView (db.io.row r).key r (db.io.row r)
          (flags.getD cfg.flags) (db.io.row (db.io.nRecords - 1)).flags) fun _ _ => True := by
    refine Exec.wp_map.2 (Exec.wp_mono (Exec.wp_and hdel hsearch) ?_ fun _ _ _ => trivial)
    rintro d db₂ ⟨⟨hg₂, hd⟩, hne, hl⟩
    exact ⟨hg₂, ListedBy.searchEnd hg.ok.wide hl, Deletes.view_eq hlive hne hd⟩
  exact hw.ok hrun

/-- What a clean undelete of a key that is not live does. -/
theorem undelete_done (hg : db.Good rowView (cfg.refusing (surviving cfg)))
    (hnew : (db.view rowView).rowOf key = none)
    (hs : CleanStep cfg (surviving cfg) db (env, .undelete key none flags) db') :
    db'.Good rowView (cfg.refusing (surviving cfg)) ∧ ∃ o,
      Undeletes rowView key none (flags.getD cfg.flags) (db.view rowView) o (db'.view rowView) ∧
      (key ≠ [] → o.isSome = (findRow db.io key db.io.cnt.nRecords db.io.prev.nLines).isSome) := by
  obtain ⟨ret, hrun⟩ := hs.step.accepted hs.accepted
  have hcontains : db.io.keyTable.contains key = false := by
    rw [← Bool.not_eq_true, contains_iff_rowOf (V := rowView), not_not]
    exact hnew
  have hund := wp_fUndelete keeps_surviving hg key none flags
  have hsearch : Exec.Wp (fUndelete (cfg.refusing (surviving cfg)) key none flags) db
      (fun o _ => key ≠ [] → o.isSome = (findRow db.io key db.io.cnt.nRecords db.io.prev.nLines).isSome)
      fun _ _ => True := by
    by_cases hkey : key = []
    · exact Exec.wp_mono (Exec.wp_trivial _ _) (fun _ _ _ h => absurd hkey h) fun _ _ h => h
    · exact Exec.wp_mono (wp_fUndelete_search hkey hcontains flags) (fun _ _ h _ => h) fun _ _ h => h
  have hw : Exec.Wp (Call.exec (cfg.refusing (surviving cfg)) env (.undelete key none flags)) db
      (fun _ db' => db'.Good rowView (cfg.refusing (surviving cfg)) ∧ ∃ o,
        Undeletes rowView key none (flags.getD cfg.flags) (db.view rowView) o (db'.view rowView) ∧
        (key ≠ [] → o.isSome = (findRow db.io key db.io.cnt.nRecords db.io.prev.nLines).isSome))
      fun _ _ => True := by
    refine Exec.wp_map.2 (Exec.wp_mono (Exec.wp_and hund hsearch) ?_ fun _ _ _ => trivial)
    rintro o db₂ ⟨⟨hg₂, hu⟩, ho⟩
    exact ⟨hg₂, o, hu, ho⟩
  exact hw.ok hrun

end Steps

section Both

variable {flags₁ flags₂ d kf mf : ℕ} {info : Row} (h : (db.view rowView).Good rowView) (hrow : (db.view rowView).At key r)
  (hkey : (db.io.row r).key = key)
  (hv₁ : db₁.view rowView = (db.view rowView).deleteAt rowView (db.io.row r).key r (db.io.row r) flags₁ mf)
  (hd : db₁.io.nRecords ≤ d)
  (hv₂ : db'.view rowView = ((db₁.view rowView).undeleteRoom key flags₂ d).undeleteAt rowView key info kf)

include hv₁ in
theorem cnt_deleted : db₁.io.nRecords = db.io.nRecords - 1 ∧ db₁.io.nLines = db.io.nLines := by
  have hcnt : db₁.io.cnt =
      ((db.view rowView).deleteAt rowView (db.io.row r).key r (db.io.row r) flags₁ mf).cnt :=
    congrArg (fun v => v.cnt) hv₁
  unfold JIo.nRecords JIo.nLines
  rw [hcnt]
  exact ⟨rfl, rfl⟩

include h hrow hv₁ in
theorem keyed_deleted : (db₁.view rowView).Keyed rowView := by
  have hk := h.keyed.key_at hrow
  have hk : (db.io.row r).key = key := hk
  rw [hv₁, hk]
  exact DbView.deleteAt_keyed h.keyed hrow

include hv₁ hv₂ in
theorem vals_both : db'.io.files.vals = db.io.files.vals := by
  have hvals : db'.io.files.vals =
      (((db₁.view rowView).undeleteRoom key flags₂ d).undeleteAt rowView key info kf).vals :=
    congrArg (fun v => v.vals) hv₂
  have hvals₁ : db₁.io.files.vals =
      ((db.view rowView).deleteAt rowView (db.io.row r).key r (db.io.row r) flags₁ mf).vals :=
    congrArg (fun v => v.vals) hv₁
  rw [hvals]
  change ((db₁.view rowView).undeleteRoom key flags₂ d).vals = _
  rw [vals_undeleteRoom]
  exact hvals₁

include h hrow hkey hv₁ hd hv₂ in
/-- The key table after both calls: the record that filled the hole has the flags of its row. -/
theorem table_both (k : Key) : db'.io.keyTable.get? k =
    if k = key then some (db.io.nRecords - 1, kf &&& KEY_FLAG_MASK)
    else if r < db.io.nRecords - 1 ∧ k = (db.io.row (db.io.nRecords - 1)).key then some (r, mf &&& KEY_FLAG_MASK)
    else db.io.keyTable.get? k := by
  have hle : db₁.io.nRecords ≤ db₁.io.nLines := (keyed_deleted h hrow hv₁).le
  obtain ⟨hcnt, htable, -⟩ := DbView.undeleteRoom_frame (v := db₁.view rowView) key flags₂ hle hd
  have ht : db'.io.keyTable =
      (((db₁.view rowView).undeleteRoom key flags₂ d).undeleteAt rowView key info kf).keyTable :=
    congrArg (fun v => v.keyTable) hv₂
  have ht₁ : db₁.io.keyTable =
      ((db.view rowView).deleteAt rowView (db.io.row r).key r (db.io.row r) flags₁ mf).keyTable :=
    congrArg (fun v => v.keyTable) hv₁
  have hset : db'.io.keyTable = db₁.io.keyTable.set key (db.io.nRecords - 1, kf &&& KEY_FLAG_MASK) := by
    rw [ht]
    unfold DbView.undeleteAt
    simp only
    rw [htable, hcnt, ← (cnt_deleted hv₁).1]
    rfl
  rw [hset, OrdDict.get?_set]
  split
  · rfl
  · rename_i hne
    rw [ht₁, hkey]
    unfold DbView.deleteAt
    simp only
    have hn : (db.view rowView).cnt.nRecords = db.io.nRecords := rfl
    rw [hn]
    by_cases hlt : r < db.io.nRecords - 1
    · rw [if_pos hlt, OrdDict.get?_pop, if_neg hne, OrdDict.get?_set, OrdDict.get?_pop, if_neg hne]
      simp only [hlt, true_and]
      rfl
    · rw [if_neg hlt, OrdDict.get?_pop, if_neg hne, if_neg fun h' => hlt h'.1]
      rfl

include h hrow hkey hv₁ hd hv₂ in
/-- **Every other record** is the one it was. -/
theorem others_both {k : Key} {s f : ℕ} (hk : k ≠ key) (hs : db.io.keyTable.get? k = some (s, f)) :
    ∃ s' f', db'.io.keyTable.get? k = some (s', f') ∧ db'.io.row s' = db.io.row s := by
  have hat : (db.view rowView).rowOf k = some s := congrArg (Option.map Prod.fst) hs
  have hrec₂ := congrArg (fun v => v.record k) hv₂
  rw [DbView.undeleteAt_record (keyed_deleted h hrow hv₁) hd hk, hv₁, hkey, DbView.deleteAt_record h.keyed hrow hk,
    DbView.record_at hat] at hrec₂
  cases hs' : db'.io.keyTable.get? k with
  | none =>
    have hnone : (db'.view rowView).rowOf k = none := congrArg (Option.map Prod.fst) hs'
    rw [DbView.record_none.2 hnone] at hrec₂
    cases hrec₂
  | some e =>
    obtain ⟨s', f'⟩ := e
    have hat' : (db'.view rowView).rowOf k = some s' := congrArg (Option.map Prod.fst) hs'
    rw [DbView.record_at hat'] at hrec₂
    exact ⟨s', f', rfl, Option.some.inj hrec₂⟩

include h hrow hv₁ hd hv₂ in
/-- What the two calls make of the dead rows. -/
theorem parked_both (hdl : d < db₁.io.nLines) :
    db₁.io.row d ::ₘ db'.parkedRows = db.parkedVersion r ::ₘ db.parkedRows := by
  obtain ⟨hn, hl⟩ := cnt_deleted hv₁
  have hle : db₁.io.nRecords ≤ db₁.io.nLines := (keyed_deleted h hrow hv₁).le
  rw [segment_undeleted hle hd hv₂ hdl, hn, hl]
  exact segment_deleted h.keyed hrow.2 hv₁

end Both

/-- The dead row `d` was brought back once row `r` was deleted, and what became of the other rows. -/
structure BroughtFrom (cfg : Config) (key : Key) (r flags d : ℕ) (db db' : JDb) : Prop where
  named : key ≠ []
  keyed_row : (db.io.row r).key = key
  lt : r < db.io.nRecords
  keyed : (db.view rowView).Keyed rowView
  settled : ∀ x, (db.io.row x).Settled
  block : db.io.indexSize ≤ 2 ^ 22
  le : db.io.nRecords - 1 ≤ d
  reached : d < searchEnd cfg db r
  holds : (db.deadRow r flags d).key = key
  first : ∀ y, db.io.nRecords - 1 ≤ y → y < d → (db.deadRow r flags y).key ≠ key
  live : db.io.nRecords - 1 < db'.io.nRecords
  row : ∃ now sync, db'.io.row (db.io.nRecords - 1) = normal now sync { (db.deadRow r flags d).args with
    key := key, ver := none
    flags := undoFlags (db.deadRow r flags d) ((db.deadRow r flags d).flags &&& USER_FLAG_MASK) }
  recorded : (db'.io.row (db.io.nRecords - 1)).flags =
    undoFlags (db.deadRow r flags d) ((db.deadRow r flags d).flags &&& USER_FLAG_MASK)
  table : ∀ k, db'.io.keyTable.get? k =
    if k = key then some (db.io.nRecords - 1, (db'.io.row (db.io.nRecords - 1)).flags)
    else if r < db.io.nRecords - 1 ∧ k = (db.io.row (db.io.nRecords - 1)).key then
      some (r, (db.io.row (db.io.nRecords - 1)).flags)
    else db.io.keyTable.get? k
  others : ∀ k s f, k ≠ key → db.io.keyTable.get? k = some (s, f) →
    ∃ s' f', db'.io.keyTable.get? k = some (s', f') ∧ db'.io.row s' = db.io.row s
  parked : db.deadRow r flags d ::ₘ db'.parkedRows = db.parkedVersion r ::ₘ db.parkedRows
  vals : db'.io.files.vals = db.io.files.vals

namespace BroughtFrom

variable {flags d : ℕ} (h : BroughtFrom cfg key r flags d db db')

include h

/-- The flags come back with the version that was parked, unless it is a group of another database. -/
theorem flags_iff (he : db.deadRow r flags d = db.parkedVersion r) :
    (db'.io.row (db.io.nRecords - 1)).flags = (db.io.row r).flags ↔
      (has (db.io.row r).flags GROUP = true → OwnGroup (db.io.row r).fileId (db.io.row r).rowSize) := by
  rw [h.recorded, he]
  exact undoFlags_parked (h.settled r) (by rw [h.keyed_row]; exact h.named) _ _

/-- No version is lost just when the one that came back is the one that was parked. -/
theorem parked_iff : db.parkedRows ≤ db'.parkedRows ↔ db.deadRow r flags d = db.parkedVersion r := by
  have hparked := h.parked
  constructor
  · intro hle
    have hcard := congrArg Multiset.card hparked
    rw [Multiset.card_cons, Multiset.card_cons] at hcard
    rw [Multiset.eq_of_le_of_card_le hle (by omega), Multiset.cons_inj_left] at hparked
    exact hparked
  · intro he
    rw [he, Multiset.cons_inj_right] at hparked
    exact le_of_eq hparked.symm

/-- The last live record is another one. -/
theorem last_ne (hlast : r < db.io.nRecords - 1) : (db.io.row (db.io.nRecords - 1)).key ≠ key := by
  intro he
  have hn : db.io.nRecords - 1 < (db.view rowView).cnt.nRecords := by
    change _ < db.io.nRecords
    omega
  have := h.keyed.inj hn h.lt (he.trans h.keyed_row.symm)
  omega

theorem undeletable {c : ValCodec} (hu : DeleteUndone c key r db db') : Undeletable cfg db r flags := by
  have he := h.parked_iff.1 hu.parked
  obtain ⟨r', -, hget, hsame, -⟩ := hu.record
  rw [h.table, if_pos rfl, Option.some.injEq, Prod.mk.injEq] at hget
  refine ⟨by rw [h.keyed_row]; exact h.named, h.block, ⟨d, h.le, h.reached, he, ?_⟩, (h.flags_iff he).1 hget.2, fun hlast f hf => ?_⟩
  · rw [h.keyed_row]
    exact h.first
  · obtain ⟨s', hget', -⟩ := hu.others _ _ f (h.last_ne hlast) hf
    rw [h.table, if_neg (h.last_ne hlast), if_pos ⟨hlast, rfl⟩, Option.some.injEq, Prod.mk.injEq] at hget'
    exact hget'.2.symm

theorem undone {c : ValCodec} (hc : Undeletable cfg db r flags) : DeleteUndone c key r db db' := by
  obtain ⟨x, hx, -, hxp, hxf⟩ := hc.found
  -- both are the first row of the key
  have hxd : x = d := by
    rcases Nat.lt_trichotomy x d with hlt | heq | hlt
    · refine absurd ?_ (h.first x hx hlt)
      rw [hxp]
      exact h.keyed_row
    · exact heq
    · refine absurd ?_ (hxf d h.le hlt)
      rw [h.holds, h.keyed_row]
  subst hxd
  have hflags := (h.flags_iff hxp).2 hc.group
  obtain ⟨now, sync, hrow⟩ := h.row
  rw [hxp] at hrow
  refine ⟨⟨db.io.nRecords - 1, h.live, ?_, ?_, ?_⟩, fun k s f hk hs => ?_, h.parked_iff.2 hxp⟩
  · rw [h.table, if_pos rfl, hflags]
  · -- dates and lifetime went through two rows
    have hp := (h.settled r).dates (a := JDb.parked (db.io.row r).key (db.io.row r)) db.io.now db.io.cnt.syncId rfl rfl rfl
    have hdates := (h.settled r).dates (a := { (db.parkedVersion r).args with
      key := key, ver := none
      flags := undoFlags (db.parkedVersion r) ((db.parkedVersion r).flags &&& USER_FLAG_MASK) })
      now sync (congrArg some hp.1) (congrArg some hp.2.1) hp.2.2
    rw [hrow] at hflags ⊢
    exact ⟨h.keyed_row.symm, hdates.1, hdates.2.1, hdates.2.2, hflags⟩
  · refine storedValue_congr ?_ h.vals
    rw [hrow]
    exact ⟨rfl, rfl, rfl, rfl⟩
  · obtain ⟨s', f', hget, hrows⟩ := h.others k s f hk hs
    have hf : f' = f := by
      rw [h.table, if_neg hk] at hget
      by_cases hlast : r < db.io.nRecords - 1 ∧ k = (db.io.row (db.io.nRecords - 1)).key
      · -- the record that filled the hole
        rw [if_pos hlast, Option.some.injEq, Prod.mk.injEq] at hget
        have hs' : s = db.io.nRecords - 1 := by
          obtain ⟨hsn, hsk⟩ := (h.keyed.table k s).1 (congrArg (Option.map Prod.fst) hs)
          have hn : db.io.nRecords - 1 < (db.view rowView).cnt.nRecords := by
            change _ < db.io.nRecords
            omega
          exact h.keyed.inj hsn hn (hsk.trans hlast.2)
        rw [hlast.2, hs'] at hs
        rw [← hget.2]
        exact (hc.filler hlast.1 f hs).symm
      · rw [if_neg hlast, hs, Option.some.injEq, Prod.mk.injEq] at hget
        exact hget.2.symm
    subst hf
    refine ⟨s', hget, hrows, ?_⟩
    unfold storedAt
    rw [hrows]
    exact storedValue_congr ⟨rfl, rfl, rfl, rfl⟩ h.vals

end BroughtFrom

/-- **When a deletion is undone**: after any run whose rows survive, for every live record that is not
locked. -/
theorem deleteUndone_iff {cfg : Config} {tr : List Label} {db db₁ db' : JDb} {key : Key} {r : ℕ}
    (hr : Runs (CleanStep cfg (surviving cfg)) (JDb.init cfg) tr db) (hlive : LiveAt db key r)
    (hlock : has (db.io.row r).flags DELETE_LOCK_MASK = false) {env₁ env₂ : Env} {readValue : Bool}
    {flags₁ flags₂ : Option ℕ} {keyFlags : FlagArg}
    (hdel : CleanStep cfg (surviving cfg) db (env₁, .delete key readValue none flags₁ keyFlags) db₁)
    (hund : CleanStep cfg (surviving cfg) db₁ (env₂, .undelete key none flags₂) db') :
    DeleteUndone cfg.val key r db db' ↔ Undeletable cfg db r (flags₁.getD cfg.flags) := by
  have hg := good_of_runs keeps_surviving hr
  have hrow : (db.view rowView).At key r := hg.index.keyed.at_ hlive
  have hkey : (db.io.row r).key = key := hg.index.keyed.key_at hrow
  obtain ⟨hg₁, ⟨hend, hwidth⟩, hv₁⟩ := delete_done hg hlive hlock hdel
  obtain ⟨hn₁, hl₁⟩ := cnt_deleted hv₁
  have hle : db.io.nRecords ≤ db.io.nLines := hg.index.keyed.le
  have hlt : r < db.io.nRecords := hrow.2
  have hsettled : ∀ x, (db.io.row x).Settled := hg.ok.fixed
  have hgone : (db₁.view rowView).rowOf key = none := by
    rw [hv₁, DbView.rowOf_deleteAt, hkey, if_pos rfl]
  obtain ⟨hg₂, o, hu, ho⟩ := undelete_done hg₁ hgone hund
  have hdead : ∀ x, db.io.nRecords - 1 ≤ x → db₁.io.row x = db.deadRow r (flags₁.getD cfg.flags) x :=
    fun x hx => row_deleted hg.index.keyed hlt hv₁ hx
  -- the search, told by the rows there were
  have hfind : (findRow db₁.io key db₁.io.cnt.nRecords db₁.io.prev.nLines).isSome = true ↔
      db.io.indexSize ≤ 2 ^ 22 ∧ ∃ x, db.io.nRecords - 1 ≤ x ∧ x < searchEnd cfg db r ∧ x < db.io.nLines ∧
        (db.deadRow r (flags₁.getD cfg.flags) x).key = key := by
    rw [findRow_isSome, hend, hwidth]
    change (_ ∧ ∃ x, db₁.io.nRecords ≤ x ∧ x < searchEnd cfg db r ∧ x < db₁.io.nLines ∧ _) ↔ _
    rw [hn₁, hl₁]
    refine and_congr_right fun _ => exists_congr fun x => and_congr_right fun hx => ?_
    rw [hdead x hx]
  generalize hv₂ : db'.view rowView = v' at hu
  cases hu with
  | none =>
    -- nothing was restored
    constructor
    · rintro ⟨⟨r', -, hget, -⟩, -, -⟩
      have hlive' : (db'.view rowView).rowOf key = some r' := congrArg (Option.map Prod.fst) hget
      rw [hv₂, hgone] at hlive'
      cases hlive'
    · intro hc
      obtain ⟨x, hx, hxe, hxp, hxf⟩ := hc.found
      obtain ⟨t, ht, htl, htp⟩ := exists_deadRow hle hlt (flags₁.getD cfg.flags)
      have hpkey : (db.parkedVersion r).key = (db.io.row r).key := rfl
      have hxl : x < db.io.nLines := by
        by_contra hcon
        exact hxf t ht (by omega) (by rw [htp, hpkey])
      have hsome := hfind.2 ⟨hc.block, x, hx, hxe, hxl, by rw [hxp, hpkey, hkey]⟩
      rw [← ho (by rw [← hkey]; exact hc.named)] at hsome
      cases hsome
  | @back d info hname _ hd hdl hinfo hik hfirst =>
    obtain rfl : info = db₁.io.row d := hinfo
    have hd : db₁.io.nRecords ≤ d := hd
    have hd' : db.io.nRecords - 1 ≤ d := by rw [← hn₁]; exact hd
    have hfirst : ∀ y, db.io.nRecords - 1 ≤ y → y < d →
        (db.deadRow r (flags₁.getD cfg.flags) y).key ≠ key := by
      intro y hy hyd
      rw [← hdead y hy]
      exact hfirst.2 y (by rw [← hn₁] at hy; exact hy) hyd
    obtain ⟨hblock, x, hx, hxe, -, hxk⟩ := hfind.1 (ho hname).symm
    have hdx : d ≤ x := by
      by_contra hcon
      exact hfirst x hx (by omega) hxk
    -- the row that is live again
    have hsettled' : ∀ x, (db'.io.row x).Settled := hg₂.ok.fixed
    have hrow' := row_undeleted hg₁.index.keyed.le hd hv₂
    have hrec : (db'.io.row db₁.io.nRecords).flags =
        undoFlags (db₁.io.row d) ((db₁.io.row d).flags &&& USER_FLAG_MASK) := by
      rw [hrow']
      exact normalFlags_undo (hg₁.ok.fixed d) hname hik
    have hlive' : db.io.nRecords - 1 < db'.io.nRecords := by
      rw [(cnt_undeleted hg₁.index.keyed.le hd hv₂).1, hn₁]
      omega
    have htable := table_both hg.index hrow hkey hv₁ hd hv₂
    rw [← hrec, flags_and_mask (hsettled' _), flags_and_mask (hsettled _), hn₁] at htable
    have hparked := parked_both hg.index hrow hv₁ hd hv₂ hdl
    rw [hdead d hd'] at hik hrow' hrec hparked
    rw [hn₁] at hrow' hrec
    have hb : BroughtFrom cfg key r (flags₁.getD cfg.flags) d db db' :=
      ⟨hname, hkey, hlt, hg.index.keyed, hsettled, hblock, hd', by omega, hik, hfirst, hlive', ⟨_, _, hrow'⟩, hrec, htable,
        fun _ _ _ hk hs => others_both hg.index hrow hkey hv₁ hd hv₂ hk hs, hparked, vals_both hv₁ hv₂⟩
    exact ⟨hb.undeletable, hb.undone⟩

/-- A call, as long as it returns. -/
def after (cfg : Config) (c : Call) (db : JDb) : Option JDb :=
  match (c.exec cfg {}).run db with
  | (.ok _, db') => some db'
  | (.error _, _) => none

theorem after_clean {cfg : Config} {p : Row → KeyRec → ℕ → Bool} {c₀ : Call} (hp : c₀.plain = true)
    (h : after (cfg.refusing p) c₀ db = some db') : CleanStep cfg p db ({}, c₀) db' := by
  unfold after at h
  split at h
  · rename_i ret db₂ hrun
    cases h
    exact .of_run hp hrun
  · cases h

/-- A record that was written in an earlier session. -/
def keptCalls : List Label := [({}, .opened), writeCall ['K'] (.int 1) 0, ({}, .closed), ({}, .opened)]

/-- A record of an earlier session, deleted and undeleted. -/
theorem deleteUndone_kept : ∃ db db₁ db', Runs (CleanStep jsonCfg (surviving jsonCfg)) (JDb.init jsonCfg) keptCalls db ∧
    CleanStep jsonCfg (surviving jsonCfg) db ({}, .delete ['K'] false none none .none) db₁ ∧
    CleanStep jsonCfg (surviving jsonCfg) db₁ ({}, .undelete ['K'] none none) db' ∧
    DeleteUndone jsonCfg.val ['K'] 0 db db' := by
  obtain ⟨db, hr, h⟩ := exists_cleanRuns jsonCfg (JDb.init jsonCfg) (surviving jsonCfg) keptCalls
    (P := fun db => decide (db.io.nRecords = 1 ∧ (db.io.keyTable.get? ['K']).map Prod.fst = some 0 ∧
        (db.io.row 0).key = ['K'] ∧ has (db.io.row 0).flags DELETE_LOCK_MASK = false ∧
        has (db.io.row 0).flags GROUP = false ∧ db.io.indexSize ≤ 2 ^ 22 ∧ 0 < searchEnd jsonCfg db 0 ∧
        db.deadRow 0 0 0 = db.parkedVersion 0) &&
      ((after (jsonCfg.refusing (surviving jsonCfg)) (.delete ['K'] false none none .none) db).bind
        (after (jsonCfg.refusing (surviving jsonCfg)) (.undelete ['K'] none none))).isSome)
    (by decide) (by decide +kernel)
  rw [Bool.and_eq_true, decide_eq_true_eq, Option.isSome_iff_exists] at h
  obtain ⟨⟨hn, hlive, hkey, hlock, hgroup, hblock, hend, hdead⟩, db', h⟩ := h
  obtain ⟨db₁, h₁, h₂⟩ := Option.bind_eq_some_iff.1 h
  have hdel := after_clean (by decide) h₁
  have hund := after_clean (by decide) h₂
  refine ⟨db, db₁, db', hr, hdel, hund, (deleteUndone_iff hr hlive hlock hdel hund).2 ⟨?_, hblock, ⟨0, ?_, hend, hdead, ?_⟩, ?_, ?_⟩⟩
  · rw [hkey]
    decide
  · omega
  · omega
  · rw [hgroup]
    intro hg
    cases hg
  · omega

/-- **A record that is not brought back**: it was written in the session that is still open, and its row is behind
the last line of the header. -/
theorem deleteUndone_fails : ∃ db db₁ db', Runs (Step jsonCfg) (JDb.init jsonCfg)
      [({}, .opened), writeCall ['K'] (.int 1) 0] db ∧ LiveAt db ['K'] 0 ∧
    has (db.io.row 0).flags DELETE_LOCK_MASK = false ∧
    Step jsonCfg db ({}, .delete ['K'] false none none .none) db₁ ∧
    Step jsonCfg db₁ ({}, .undelete ['K'] none none) db' ∧ ¬ DeleteUndone jsonCfg.val ['K'] 0 db db' := by
  obtain ⟨db, hr, h⟩ := exists_cleanRuns jsonCfg (JDb.init jsonCfg) (surviving jsonCfg)
    [({}, .opened), writeCall ['K'] (.int 1) 0]
    (P := fun db => decide ((db.io.keyTable.get? ['K']).map Prod.fst = some 0 ∧
        has (db.io.row 0).flags DELETE_LOCK_MASK = false) &&
      ((after (jsonCfg.refusing (surviving jsonCfg)) (.delete ['K'] false none none .none) db).bind
        (after (jsonCfg.refusing (surviving jsonCfg)) (.undelete ['K'] none none))).any fun (db' : JDb) =>
          (db'.io.keyTable.get? ['K']).isNone)
    (by decide) (by decide +kernel)
  rw [Bool.and_eq_true, decide_eq_true_eq] at h
  obtain ⟨⟨hlive, hlock⟩, h⟩ := h
  obtain ⟨db', h, hgone⟩ := (Option.any_eq_true _ _).1 h
  obtain ⟨db₁, h₁, h₂⟩ := Option.bind_eq_some_iff.1 h
  refine ⟨db, db₁, db', hr.mono fun _ _ _ hs => hs.step, hlive, hlock, (after_clean (by decide) h₁).step,
    (after_clean (by decide) h₂).step, ?_⟩
  rintro ⟨⟨r', -, hget, -⟩, -, -⟩
  rw [hget] at hgone
  cases hgone

end JDb

end OmniJsonDb
