import OmniJsonDb.Proof.Passive
import OmniJsonDb.Proof.Stamps

/-!
# Versions and the session counter

Rows are stamped before the counter is bumped. Between two calls every version is below
the counter, whatever the rows say and whether the caches are right.

* `Held`: the stamps inside a call; programs that stamp nothing keep it.
* `Settled`: the stamps between two calls.
* `Settled.fWrite`, `Settled.fDelete`, `Settled.fUndelete` and so on: every call keeps them.
-/

namespace OmniJsonDb

open Exec (Maintains)

namespace JDb

variable {cfg : Config} {db db' : JDb} {c : Counters} {P : Set ℕ} {b n : ℕ}

/-! ## Programs that stamp nothing -/

/-- The stamps of the handle's index. -/
abbrev Held (c : Counters) (P : Set ℕ) (b : ℕ) (db : JDb) : Prop := db.io.Stamped c P b

theorem held_onIo {α : Type} {x : IoM α} (h : Maintains (JIo.Stamped c P b) x) :
    Maintains (Held c P b) (onIo x) :=
  .zoom (fun _ h => h) (fun _ _ h _ => h) h

instance : Passive (Held c P b) where
  readKey r := held_onIo (JIo.Stamped.maintains_readKey r)
  same h hs := h.same hs.rows hs.keyRows hs.cnt

/-! ## Rows and lines -/

theorem bump_of_lt {n : ℕ} (h : n + 1 < 2 ^ 43) : bump n = n + 1 := by
  unfold bump
  exact Nat.and_two_pow_sub_one_of_lt_two_pow (n := 43) h

/-- The counters with another number of lines. -/
abbrev withLines (c : Counters) (m : ℕ) : Counters := { c with nLines := m }

theorem Held.writeKey (h : Held c P b db) (hb : c.syncId < b) (r : ℕ) {a : KeyArgs}
    (ha : ∀ v, a.ver = some v → v < b) :
    Exec.Wp (onIo (JIo.writeKey cfg r a)) db (fun _ db' => Held c (P \ {r}) b db') fun _ _ => True := by
  unfold onIo
  rw [Exec.wp_zoom]
  exact Exec.wp_mono (JIo.Stamped.wp_writeKey h hb r ha) (fun _ _ h' => h'.1) fun _ _ h' => h'

/-- A row that is not being written stays so. -/
theorem Held.writeRow (h : Held c ∅ b db) (hb : c.syncId < b) (r : ℕ) {a : KeyArgs}
    (ha : ∀ v, a.ver = some v → v < b) :
    Exec.Wp (onIo (JIo.writeKey cfg r a)) db (fun _ db' => Held c ∅ b db') fun _ _ => True := by
  have hw : Exec.Wp (onIo (JIo.writeKey cfg r a)) db (fun _ db' => Held c (∅ \ {r}) b db') fun _ _ => True :=
    h.writeKey hb r ha
  rwa [Set.empty_sdiff] at hw

theorem Held.copyKey (h : Held c P b db) {src : ℕ} (dst : ℕ) (hs : (db.io.row src).ver < b)
    {E : Err → JDb → Prop} :
    Exec.Wp (onIo (JIo.copyKey src dst)) db (fun row db' => Held c (P \ {dst}) b db' ∧ row.ver < b) E := by
  unfold onIo
  rw [Exec.wp_zoom]
  exact JIo.Stamped.wp_copyKey h dst hs

theorem Held.readKey (h : Held c P b db) (r : ℕ) :
    Exec.Wp (onIo (JIo.readKey r)) db
      (fun row db' => Held c P b db' ∧ (r ∉ P → r < max c.nRecords c.nLines ∧ row.ver < b))
      fun _ db' => Held c P b db' := by
  unfold onIo
  rw [Exec.wp_zoom]
  exact JIo.Stamped.wp_readKey h r

/-- A line more, which is not written yet. -/
theorem Held.line (h : Held c ∅ b db) (hcnt : db'.io.cnt = withLines db.io.cnt (db.io.cnt.nLines + 1))
    (hrows : db'.io.files.rows = db.io.files.rows) (hcache : db'.io.keyRows = db.io.keyRows) :
    Held (withLines c (c.nLines + 1)) {c.nLines} b db' := by
  rw [h.cnt] at hcnt
  have := JIo.Stamped.line h hcnt hrows hcache
  rwa [← Set.singleton_def] at this

/-- Cutting an extent in two: the rest is recorded in a row there is, or in a new one. -/
theorem Held.splitDead (h : Held c ∅ b db) (hb : c.syncId < b) (row : ℕ) (p : Place) (req : ℕ) (ext : Option ℕ) :
    Exec.Wp (JDb.splitDead cfg row p req ext) db
      (fun _ db' => ∃ m, c.nLines ≤ m ∧ Held (withLines c m) ∅ b db') fun _ _ => True := by
  have hzero : ∀ {v : ℕ}, some 0 = some v → v < b := by
    intro v hv
    cases hv
    omega
  unfold JDb.splitDead
  split
  · exact ⟨c.nLines, le_rfl, h⟩
  · rw [Exec.wp_bind, Exec.wp_get]
    extract_lets rest last
    have hlast : ∀ m db₁, c.nLines ≤ m → Held (withLines c m) ∅ b db₁ →
        Exec.Wp (last PUnit.unit) db₁ (fun _ db' => ∃ m, c.nLines ≤ m ∧ Held (withLines c m) ∅ b db')
          fun _ _ => True := by
      intro m db₁ hm h₁
      simp only [last]
      rw [Exec.wp_bind]
      refine Exec.wp_mono (h₁.writeRow hb row fun v hv => hzero hv) ?_ fun _ _ h' => h'
      intro _ db₂ h₂
      exact ⟨m, hm, h₂⟩
    split
    · rw [Exec.wp_bind]
      refine Exec.wp_mono (h.writeRow hb _ fun v hv => hzero hv) ?_ fun _ _ h' => h'
      exact fun _ db₁ h₁ => hlast c.nLines db₁ le_rfl h₁
    · unfold modifyIo
      rw [Exec.wp_bind, Exec.wp_modify, Exec.wp_bind]
      have hline : Held (withLines c (c.nLines + 1)) {c.nLines} b
          { db with io := { db.io with cnt := withLines db.io.cnt (db.io.cnt.nLines + 1) } } :=
        h.line rfl rfl rfl
      refine Exec.wp_mono (Held.writeKey hline hb _ fun v hv => hzero hv) ?_ fun _ _ h' => h'
      intro _ db₁ h₁
      rw [h.cnt, Set.sdiff_self] at h₁
      exact hlast _ db₁ (Nat.le_succ _) h₁

/-- What `_get_dead_row` leaves: the head it returns is not before the live rows, and the row
it offers not before the head. -/
def Offered (c : Counters) (b h : ℕ) (res : ℕ × Option (ℕ × Place)) (db : JDb) : Prop :=
  res.1 = h ∧ ∃ m, c.nLines ≤ m ∧ Held (withLines c m) ∅ b db ∧ ∀ d p, res.2 = some (d, p) → h ≤ d ∧ d < m

theorem Held.offered (h : Held c ∅ b db) (hb : c.syncId < b) {hd d req flags : ℕ} {p : Place} {ext : Option ℕ}
    (h₁ : hd ≤ d) (h₂ : d < c.nLines) :
    Exec.Wp (do
        let p ← if 0 < req ∧ has flags SPLIT then JDb.splitDead cfg d p req ext else pure p
        pure (hd, some (d, p)) : DbM (ℕ × Option (ℕ × Place))) db (Offered c b hd) fun _ _ => True := by
  have hoff : ∀ p' m db', c.nLines ≤ m → Held (withLines c m) ∅ b db' → Offered c b hd (hd, some (d, p')) db' := by
    intro p' m db' hm h'
    refine ⟨rfl, m, hm, h', fun x q hx => ?_⟩
    cases hx
    exact ⟨h₁, lt_of_lt_of_le h₂ hm⟩
  extract_lets
  split
  · rw [Exec.wp_bind]
    refine Exec.wp_mono (h.splitDead hb d p req ext) ?_ fun _ _ h' => h'
    rintro p' db' ⟨m, hm, h'⟩
    exact hoff p' m db' hm h'
  · exact hoff p c.nLines db le_rfl h

theorem Held.scan (h : Held c ∅ b db) (hb : c.syncId < b) (env : Env) (req flags : ℕ) (maxWsize : Option ℕ)
    {hd lines : ℕ} :
    Exec.Wp (JDb.getDeadRow.scan cfg env req flags maxWsize hd lines) db (Offered c b hd) fun _ _ => True := by
  have hnone : Offered c b hd (hd, Option.none) db := ⟨rfl, c.nLines, le_rfl, h, fun _ _ hx => by cases hx⟩
  unfold JDb.getDeadRow.scan
  extract_lets m
  split
  · exact hnone
  · rw [Exec.wp_bind, Exec.wp_get]
    extract_lets window start
    have hstart : hd ≤ start := Nat.le_add_right _ _
    split
    · exact hnone
    · rename_i d p ext hscan
      obtain ⟨⟨info, hm, -⟩, -, -⟩ := scanDead_some hscan
      obtain ⟨h₁, h₂, -⟩ := mem_keyIter (List.mem_reverse.1 hm)
      rw [h.cnt] at h₂
      exact h.offered hb (hstart.trans h₁) h₂

theorem Held.getDeadRow (h : Held c ∅ b db) (hb : c.syncId < b) (hle : c.nRecords ≤ c.nLines) (env : Env)
    (key : Key) (req flags : ℕ) (maxWsize : Option ℕ) :
    Exec.Wp (JDb.getDeadRow cfg env key req flags maxWsize) db
      (fun res db' => ∃ hd, c.nRecords ≤ hd ∧ hd ≤ c.nLines ∧ Offered c b hd res db') fun _ _ => True := by
  unfold JDb.getDeadRow
  rw [Exec.wp_bind, Exec.wp_get]
  extract_lets n lines hd search
  have hn : n = c.nRecords := congrArg Counters.nRecords h.cnt
  have hlines : lines = c.nLines := congrArg Counters.nLines h.cnt
  have hhd : c.nRecords ≤ hd ∧ hd ≤ c.nLines := by
    simp only [hd, hn, hlines]
    split <;> omega
  have hsearch : ∀ db₁, Held c ∅ b db₁ → Exec.Wp (search ()) db₁
      (fun res db' => ∃ hd, c.nRecords ≤ hd ∧ hd ≤ c.nLines ∧ Offered c b hd res db') fun _ _ => True := by
    intro db₁ h₁
    have hscan : ∀ db₂, Held c ∅ b db₂ → Exec.Wp (JDb.getDeadRow.scan cfg env req flags maxWsize hd lines) db₂
        (fun res db' => ∃ hd, c.nRecords ≤ hd ∧ hd ≤ c.nLines ∧ Offered c b hd res db') fun _ _ => True := by
      intro db₂ h₂
      refine Exec.wp_mono (h₂.scan hb env req flags maxWsize) ?_ fun _ _ h' => h'
      exact fun res db' h' => ⟨hd, hhd.1, hhd.2, h'⟩
    simp only [search]
    split
    · exact ⟨hd, hhd.1, hhd.2, rfl, c.nLines, le_rfl, h₁, fun _ _ hx => by cases hx⟩
    · rw [Exec.wp_bind]
      refine Exec.wp_mono ((passive_getDeadRow hd req).wp h₁) ?_ fun _ _ _ => trivial
      rintro (_ | ⟨row, p⟩) db₂ h₂
      · exact hscan db₂ h₂
      · dsimp only
        split
        · rename_i hrow
          refine Exec.wp_mono (h₂.offered hb hrow.1 (hlines ▸ hrow.2)) ?_ fun _ _ h' => h'
          exact fun res db' h' => ⟨hd, hhd.1, hhd.2, h'⟩
        · exact hscan db₂ h₂
  split
  · rw [Exec.wp_bind, Exec.wp_modify]
    exact hsearch _ (h.same rfl rfl rfl)
  · exact hsearch db h

/-! ## Space -/

theorem Held.newLine (h : Held c ∅ b db) {E : Err → JDb → Prop} :
    Exec.Wp newLine db (fun d db' => d = c.nLines ∧ Held (withLines c (c.nLines + 1)) {c.nLines} b db') E := by
  unfold JDb.newLine modifyIo
  rw [Exec.wp_bind, Exec.wp_get, Exec.wp_bind, Exec.wp_modify, Exec.wp_ret]
  exact ⟨congrArg Counters.nLines h.cnt, h.line rfl rfl rfl⟩

/-- A row for a value: it is not before the head of the dead region, nor behind the last
line, and need not carry a version yet. -/
def Spaced (c : Counters) (b : ℕ) (sp : Space) (db : JDb) : Prop :=
  ∃ m, c.nRecords ≤ sp.head ∧ sp.head ≤ sp.dead ∧ sp.dead < m ∧ c.nLines ≤ m ∧
    Held (withLines c m) {sp.dead} b db

theorem Held.takeSpace (h : Held c ∅ b db) (hb : c.syncId < b) (hle : c.nRecords ≤ c.nLines) (env : Env)
    (key : Key) (enc : Enc) (flags : ℕ) (maxWsize : Option ℕ) :
    Exec.Wp (takeSpace cfg env key enc flags maxWsize) db (Spaced c b) fun _ _ => True := by
  -- a row that was offered, and a new line
  have hold : ∀ {hd m d : ℕ} {db₁ : JDb} {t o s v : ℕ}, c.nRecords ≤ hd → c.nLines ≤ m → hd ≤ d → d < m →
      Held (withLines c m) ∅ b db₁ → Spaced c b ⟨hd, d, t, o, s, v⟩ db₁ := by
    intro hd m d db₁ t o s v h₁ h₂ h₃ h₄ h₅
    exact ⟨m, h₁, h₃, h₄, h₂, JIo.Stamped.mono h₅ (Set.empty_subset _) le_rfl⟩
  have hnew : ∀ {hd m : ℕ} {db₁ : JDb} {t o s v : ℕ}, c.nRecords ≤ hd → hd ≤ c.nLines → c.nLines ≤ m →
      Held (withLines c (m + 1)) {m} b db₁ → Spaced c b ⟨hd, m, t, o, s, v⟩ db₁ := by
    intro hd m db₁ t o s v h₁ h₂ h₃ h₄
    exact ⟨m + 1, h₁, h₂.trans h₃, Nat.lt_succ_self m, h₃.trans (Nat.le_succ m), h₄⟩
  unfold JDb.takeSpace
  split
  · rw [Exec.wp_bind]
    refine Exec.wp_mono (h.getDeadRow hb hle env key 0 flags maxWsize) ?_ fun _ _ h' => h'
    rintro ⟨hd, dead⟩ db₁ ⟨_, hn, hl, rfl, m, hm, h₁, hd₁⟩
    rcases dead with _ | ⟨row, p⟩
    · dsimp only
      rw [Exec.wp_bind]
      refine Exec.wp_mono (Held.newLine h₁ (E := fun _ _ => True)) ?_ fun _ _ h' => h'
      rintro _ db₂ ⟨rfl, h₂⟩
      exact hnew hn hl hm h₂
    · obtain ⟨h₂, h₃⟩ := hd₁ row p rfl
      exact hold hn hm h₂ h₃ h₁
  · rename_i data
    rw [Exec.wp_bind]
    refine Exec.wp_mono (h.getDeadRow hb hle env key data.length flags maxWsize) ?_ fun _ _ h' => h'
    rintro ⟨hd, dead⟩ db₁ ⟨_, hn, hl, rfl, m, hm, h₁, hd₁⟩
    rcases dead with _ | ⟨row, fileId, offset, rowSize⟩
    · dsimp only
      rw [Exec.wp_bind]
      refine Exec.wp_mono (Held.newLine h₁ (E := fun _ _ => True)) ?_ fun _ _ h' => h'
      rintro _ db₂ ⟨rfl, h₂⟩
      rw [Exec.wp_bind]
      refine Exec.wp_mono ((passive_getValFp Option.none _).wp h₂) ?_ fun _ _ _ => trivial
      rintro ⟨fileId, offset⟩ db₃ h₃
      rw [Exec.wp_bind]
      refine Exec.wp_mono ((passive_writeVal _ _ _).wp h₃) ?_ fun _ _ _ => trivial
      intro _ db₄ h₄
      exact hnew hn hl hm h₄
    · obtain ⟨h₂, h₃⟩ := hd₁ row _ rfl
      dsimp only
      rw [Exec.wp_bind]
      refine Exec.wp_mono ((passive_getValFp (some fileId) _).wp h₁) ?_ fun _ _ _ => trivial
      intro _ db₂ h₄
      rw [Exec.wp_bind]
      refine Exec.wp_mono ((passive_writeVal _ _ _).wp h₄) ?_ fun _ _ _ => trivial
      intro _ db₃ h₅
      exact hold hn hm h₂ h₃ h₅

/-- A row moves to a line that lacks a version; then no row but its own does. -/
theorem Held.copyUp {β : Type} {src dst : ℕ} (h : Held c {dst} b db) (h₁ : src ≤ dst) (h₂ : dst < c.nLines)
    {Q : β → JDb → Prop} {k : Unit → DbM β}
    (hk : ∀ db', Held c {src} b db' → Exec.Wp (k ()) db' Q fun _ _ => True) :
    Exec.Wp (if src < dst then do
        let _ ← onIo (JIo.copyKey src dst)
        k ()
      else k ()) db Q fun _ _ => True := by
  split
  · rename_i hlt
    rw [Exec.wp_bind]
    have hne : src ∉ ({dst} : Set ℕ) := by
      rw [Set.mem_singleton_iff]
      omega
    refine Exec.wp_mono (h.copyKey (E := fun _ _ => True) dst (h.stored src (lt_trans hlt h₂) hne)) ?_ fun _ _ h' => h'
    rintro _ db₁ ⟨h', -⟩
    exact hk db₁ (JIo.Stamped.mono h' (by simp) le_rfl)
  · have heq : src = dst := by omega
    exact hk db (heq ▸ h)

/-! ## Between two calls -/

/-- **Every version is below the session counter**, which can be bumped `n` times more before
it wraps. -/
structure Settled (n : ℕ) (db : JDb) : Prop where
  stamped : Held db.io.cnt ∅ db.io.cnt.syncId db
  le : db.io.cnt.nRecords ≤ db.io.cnt.nLines
  room : db.io.cnt.syncId + n < 2 ^ 43

/-- Inside a call rows may carry the session counter itself. -/
theorem Settled.held (h : Settled n db) : Held db.io.cnt ∅ (db.io.cnt.syncId + 1) db :=
  JIo.Stamped.mono h.stamped le_rfl (Nat.le_succ _)

theorem Settled.mono {m : ℕ} (h : Settled n db) (hm : m ≤ n) : Settled m db :=
  ⟨h.stamped, h.le, lt_of_le_of_lt (Nat.add_le_add_left hm _) h.room⟩

/-- What stamps nothing keeps it. -/
theorem Settled.of_held (h : Settled n db) (h' : Held db.io.cnt ∅ db.io.cnt.syncId db') : Settled n db' where
  stamped := by rw [h'.cnt]; exact h'
  le := by rw [h'.cnt]; exact h.le
  room := by rw [h'.cnt]; exact h.room

theorem Settled.wp {α : Type} (h : Settled n db) {x : DbM α}
    (hx : Maintains (Held db.io.cnt ∅ db.io.cnt.syncId) x) :
    Exec.Wp x db (fun _ db' => Settled n db') fun _ db' => Settled n db' :=
  Exec.wp_mono (hx.wp h.stamped) (fun _ _ h' => h.of_held h') fun _ _ h' => h.of_held h'

/-- Bumping the counter settles the rows that were written. -/
theorem Held.settle (h : Held c ∅ (c.syncId + 1) db) (f : Counters → Counters)
    (hrows : db'.io.files.rows = db.io.files.rows) (hcache : db'.io.keyRows = db.io.keyRows)
    (hcnt : db'.io.cnt = f db.io.cnt) (hs : (f c).syncId = bump c.syncId) (hn : c.nRecords ≤ (f c).nRecords)
    (hl : (f c).nLines = c.nLines) (hle : (f c).nRecords ≤ (f c).nLines) (hroom : c.syncId + (n + 1) < 2 ^ 43) :
    Settled n db' := by
  rw [h.cnt] at hcnt
  have hbump : bump c.syncId = c.syncId + 1 := bump_of_lt (by omega)
  rw [hbump] at hs
  have hst : Held (f c) ∅ (f c).syncId db' := by
    rw [hs]
    exact JIo.Stamped.recount h hrows hcache hcnt hn hl.le
  exact ⟨by rw [hcnt]; exact hst, by rw [hcnt]; exact hle, by rw [hcnt]; omega⟩

theorem Held.bumpSync (h : Held c ∅ (c.syncId + 1) db) (hle : c.nRecords ≤ c.nLines)
    (hroom : c.syncId + (n + 1) < 2 ^ 43) {E : Err → JDb → Prop} :
    Exec.Wp bumpSync db (fun _ db' => Settled n db') E := by
  unfold JDb.bumpSync modifyIo
  rw [Exec.wp_modify]
  exact h.settle (fun cnt => { cnt with syncId := bump cnt.syncId }) rfl rfl rfl rfl le_rfl rfl hle hroom

section Steps

variable {α β : Type} {k : α → DbM β} {Q : β → JDb → Prop}

/-- A step that stamps nothing. -/
theorem Held.step (h : Held c P b db) {x : DbM α} (hx : Maintains (Held c P b) x)
    (hk : ∀ a db', Held c P b db' → Exec.Wp (k a) db' Q fun _ _ => True) :
    Exec.Wp (x >>= k) db Q fun _ _ => True :=
  Exec.wp_bind.2 (Exec.wp_mono (hx.wp h) hk fun _ _ _ => trivial)

theorem Settled.step (h : Settled n db) {x : DbM α} (hx : Maintains (Held db.io.cnt ∅ db.io.cnt.syncId) x)
    (hk : ∀ a db', Settled n db' → Exec.Wp (k a) db' Q fun _ _ => True) :
    Exec.Wp (x >>= k) db Q fun _ _ => True :=
  Exec.wp_bind.2 (Exec.wp_mono (h.wp hx) hk fun _ _ _ => trivial)

theorem Settled.last (h : Settled n db) {x : DbM α} (hx : Maintains (Held db.io.cnt ∅ db.io.cnt.syncId) x) :
    Exec.Wp x db (fun _ db' => Settled n db') fun _ _ => True :=
  Exec.wp_mono (h.wp hx) (fun _ _ h' => h') fun _ _ _ => trivial

/-- A call that bumps the counter, and what follows. -/
theorem Settled.after {x : DbM α} (hx : Exec.Wp x db (fun _ db' => Settled n db') fun _ _ => True)
    (hk : ∀ a db', Settled n db' → Exec.Wp (k a) db' Q fun _ _ => True) :
    Exec.Wp (x >>= k) db Q fun _ _ => True :=
  Exec.wp_bind.2 (Exec.wp_mono hx hk fun _ _ _ => trivial)

/-- A row is read, which was written before the call. -/
theorem Settled.read (h : Settled n db) (r : ℕ) {k : Row → DbM β}
    (hk : ∀ row db', Settled n db' → db'.io.cnt = db.io.cnt → row.ver < db'.io.cnt.syncId →
      Exec.Wp (k row) db' Q fun _ _ => True) :
    Exec.Wp (onIo (JIo.readKey r) >>= k) db Q fun _ _ => True := by
  refine Exec.wp_bind.2 (Exec.wp_mono (h.stamped.readKey r) ?_ fun _ _ _ => trivial)
  rintro row db' ⟨h', hv⟩
  have hcnt := h'.cnt
  exact hk row db' (h.of_held h') hcnt (by rw [hcnt]; exact (hv (Set.notMem_empty r)).2)

/-- A row is written that has a version already. -/
theorem Held.put (h : Held c ∅ b db) (hb : c.syncId < b) (r : ℕ) {a : KeyArgs} {k : ℕ → DbM β}
    (ha : ∀ v, a.ver = some v → v < b)
    (hk : ∀ m db', Held c ∅ b db' → Exec.Wp (k m) db' Q fun _ _ => True) :
    Exec.Wp (onIo (JIo.writeKey cfg r a) >>= k) db Q fun _ _ => True :=
  Exec.wp_bind.2 (Exec.wp_mono (h.writeRow hb r ha) hk fun _ _ h' => h')

/-- One row is written, then the counter is bumped. -/
theorem Settled.rewrite (h : Settled (n + 1) db) (r : ℕ) {a : KeyArgs} {k : Unit → DbM β}
    (ha : ∀ v, a.ver = some v → v < db.io.cnt.syncId)
    (hk : ∀ u db', Settled n db' → Exec.Wp (k u) db' Q fun _ _ => True) :
    Exec.Wp (onIo (JIo.writeKey cfg r a) >>= fun _ => JDb.bumpSync >>= k) db Q fun _ _ => True := by
  refine h.held.put (Nat.lt_succ_self _) r (fun v hv => (ha v hv).trans (Nat.lt_succ_self _)) ?_
  intro _ db₁ h₁
  exact Settled.after (h₁.bumpSync h.le h.room) hk

end Steps

/-! ## `f_write` -/

theorem Settled.park (h : Settled (n + 1) db) (env : Env) (key : Key) (row : ℕ) (old : Row) (enc : Enc) (m : Meta)
    (flags : ℕ) (maxWsize : Option ℕ) :
    Exec.Wp (park cfg env key row old enc m flags maxWsize) db (fun _ db' => Settled n db') fun _ _ => True := by
  have hb : db.io.cnt.syncId < db.io.cnt.syncId + 1 := Nat.lt_succ_self _
  unfold JDb.park
  rw [Exec.wp_bind]
  refine Exec.wp_mono (h.held.takeSpace hb h.le env key enc flags maxWsize) ?_ fun _ _ h' => h'
  rintro sp db₁ ⟨l, h₁, h₂, h₃, h₄, h₅⟩
  extract_lets rest
  refine Held.copyUp h₅ h₂ h₃ fun db₂ h₆ => ?_
  simp only [rest]
  rw [Exec.wp_bind]
  refine Exec.wp_mono (Held.writeKey h₆ hb sp.head fun v hv => by cases hv) ?_ fun _ _ h' => h'
  intro _ db₃ h₇
  rw [Set.sdiff_self] at h₇
  rw [Exec.wp_bind]
  refine Exec.wp_mono (Held.writeRow h₇ hb row fun v hv => by cases hv) ?_ fun _ _ h' => h'
  intro _ db₄ h₈
  rw [Exec.wp_bind]
  refine Exec.wp_mono ((passive_noteExtent enc sp).wp h₈) ?_ fun _ _ _ => trivial
  intro _ db₅ h₉
  exact Held.bumpSync h₉ (h.le.trans h₄) h.room

theorem Settled.add (h : Settled (n + 1) db) (env : Env) (key : Key) (val : PyVal) (enc : Enc) (m : Meta)
    (flags : ℕ) (maxWsize : Option ℕ) :
    Exec.Wp (add cfg env key val enc m flags maxWsize) db (fun _ db' => Settled n db') fun _ _ => True := by
  have hb : db.io.cnt.syncId < db.io.cnt.syncId + 1 := Nat.lt_succ_self _
  have hroom := h.room
  unfold JDb.add
  rw [Exec.wp_bind]
  refine Exec.wp_mono (h.held.takeSpace hb h.le env key enc flags maxWsize) ?_ fun _ _ h' => h'
  rintro sp db₁ ⟨l, h₁, h₂, h₃, h₄, h₅⟩
  rw [Exec.wp_bind, Exec.wp_get]
  extract_lets n₀ rest₁ rest₂ rest₃
  have hn₀ : n₀ = (withLines db.io.cnt l).nRecords := congrArg Counters.nRecords h₅.cnt
  have hn₀ : n₀ = db.io.cnt.nRecords := hn₀
  -- the row of the new key is written, and the counters follow
  have hlast : ∀ db₂, Held (withLines db.io.cnt l) {n₀} (db.io.cnt.syncId + 1) db₂ →
      Exec.Wp (rest₂ ()) db₂ (fun _ db' => Settled n db') fun _ _ => True := by
    intro db₂ h₆
    simp only [rest₂]
    rw [Exec.wp_bind]
    refine Exec.wp_mono (Held.writeKey h₆ hb n₀ fun v hv => by cases hv) ?_ fun _ _ h' => h'
    intro _ db₃ h₇
    rw [Set.sdiff_self] at h₇
    rw [Exec.wp_bind]
    refine Exec.wp_mono ((passive_noteExtent enc sp).wp h₇) ?_ fun _ _ _ => trivial
    intro _ db₄ h₈
    have hcount : ∀ db₅, Held (withLines db.io.cnt l) ∅ (db.io.cnt.syncId + 1) db₅ →
        Exec.Wp (rest₁ ()) db₅ (fun _ db' => Settled n db') fun _ _ => True := by
      intro db₅ h₉
      simp only [rest₁]
      unfold modifyIo
      rw [Exec.wp_bind, Exec.wp_modify, Exec.wp_modify]
      have hlt : db.io.cnt.nRecords + 1 ≤ l := by omega
      exact h₉.settle (fun cnt => { cnt with nRecords := cnt.nRecords + 1, syncId := bump cnt.syncId })
        rfl rfl rfl rfl (Nat.le_succ _) rfl hlt hroom
    split
    · rw [Exec.wp_bind]
      refine Exec.wp_mono ((passive_updateCache key val m.flags).wp h₈) ?_ fun _ _ _ => trivial
      exact fun _ db₅ h₉ => hcount db₅ h₉
    · exact hcount db₄ h₈
  refine Held.copyUp h₅ h₂ h₃ fun db₂ h₆ => ?_
  exact Held.copyUp h₆ (by omega) (lt_of_le_of_lt h₂ h₃) hlast

theorem Settled.fWriteKeyFlags (h : Settled (n + 1) db) (key : Key) (newFlags : FlagArg) (ttl : Option TtlArg)
    (mdays : Option ℕ) :
    Exec.Wp (fWriteKeyFlags cfg key newFlags ttl mdays) db (fun _ db' => Settled n db') fun _ _ => True := by
  have hn : Settled n db := h.mono (Nat.le_succ n)
  unfold JDb.fWriteKeyFlags
  rw [Exec.wp_bind, Exec.wp_get]
  split
  · exact hn
  · split
    · exact hn
    · refine h.read _ fun old db₁ h₁ _ hv => ?_
      extract_lets newTtl newMdays kf
      split
      · refine h₁.rewrite _ ?_ fun _ db₂ h₂ => ?_
        · intro v hver
          cases hver
          exact hv
        · split
          · exact h₂.step (passive_cachePop key) fun _ db₃ h₃ => h₃.step (passive_tableSet _ _ _) fun _ _ h₄ => h₄
          · exact h₂.step (passive_tableSet _ _ _) fun _ _ h₃ => h₃
      · exact h₁.mono (Nat.le_succ n)

theorem Settled.writeSame (h : Settled (n + 1) db) (key : Key) (val : PyVal) (old : Row) (m : Meta) (mdays : ℕ) :
    Exec.Wp (writeSame cfg key val old m mdays) db (fun _ db' => Settled n db') fun _ _ => True := by
  unfold JDb.writeSame
  extract_lets rest
  have hrest : ∀ db₁, Settled (n + 1) db₁ →
      Exec.Wp (rest ()) db₁ (fun _ db' => Settled n db') fun _ _ => True := by
    intro db₁ h₁
    simp only [rest]
    split
    · exact h₁.fWriteKeyFlags _ _ _ _
    · exact h₁.mono (Nat.le_succ n)
  split
  · exact h.step (passive_updateCache _ _ _) fun _ db₁ h₁ => hrest db₁ h₁
  · exact hrest db h

theorem Settled.writeInPlace (h : Settled (n + 1) db) (key : Key) (row : ℕ) (sp : Space) (m : Meta) :
    Exec.Wp (writeInPlace cfg key row sp m) db (fun _ db' => Settled n db') fun _ _ => True := by
  unfold JDb.writeInPlace
  refine h.held.put (Nat.lt_succ_self _) row (fun v hv => by cases hv) ?_
  exact fun _ db₁ h₁ => h₁.bumpSync h.le h.room

theorem Settled.stored (h : Settled n db) (key : Key) (val : PyVal) (m : Meta) :
    Exec.Wp (writeOver.stored cfg key val m) db (fun _ db' => Settled n db') fun _ _ => True := by
  unfold JDb.writeOver.stored
  split
  · exact h.step (passive_updateCache _ _ _) fun _ _ h₁ => h₁
  · exact h

theorem Settled.writeOver (h : Settled (n + 1) db) (env : Env) (key : Key) (val : PyVal) (row : ℕ) (old : Row)
    (enc : Enc) (m : Meta) (mdays flags : ℕ) (maxWsize : Option ℕ) (checked : Bool) :
    Exec.Wp (writeOver cfg env key val row old enc m mdays flags maxWsize checked) db
      (fun _ db' => Settled n db') fun _ _ => True := by
  have hpark : ∀ db₁, Settled (n + 1) db₁ → Exec.Wp (do
      JDb.park cfg env key row old enc m flags maxWsize
      JDb.writeOver.stored cfg key val m) db₁ (fun _ db' => Settled n db') fun _ _ => True := by
    intro db₁ h₁
    exact Settled.after (h₁.park env key row old enc m flags maxWsize) fun _ db₂ h₂ => h₂.stored key val m
  have hplace : ∀ db₁ sp, Settled (n + 1) db₁ → Exec.Wp (do
      JDb.writeInPlace cfg key row sp m
      JDb.writeOver.stored cfg key val m) db₁ (fun _ db' => Settled n db') fun _ _ => True := by
    intro db₁ sp h₁
    exact Settled.after (h₁.writeInPlace key row sp m) fun _ db₂ h₂ => h₂.stored key val m
  unfold JDb.writeOver
  rw [Exec.wp_bind, Exec.wp_get]
  extract_lets inPlace
  split
  · rcases enc with ⟨t, x, sz⟩ | data
    · dsimp only
      split
      · exact h.writeSame key val old m mdays
      · split
        · exact hplace db _ h
        · exact hpark db h
    · exact hpark db h
  · rcases enc with ⟨t, x, sz⟩ | data
    · exact hpark db h
    · dsimp only
      have hdiff : ∀ db₁, Settled (n + 1) db₁ → Exec.Wp (do
          if data.length ≤ old.rowSize ∧ inPlace = true then
            let _ ← getValFp cfg (some old.fileId) cfg.minValueSize
            writeVal old.fileId old.offset data
            JDb.writeInPlace cfg key row ⟨0, 0, old.fileId, old.offset, old.rowSize, data.length⟩ m
          else JDb.park cfg env key row old (.value data) m flags maxWsize
          JDb.writeOver.stored cfg key val m) db₁ (fun _ db' => Settled n db') fun _ _ => True := by
        intro db₁ h₁
        split
        · refine h₁.step (passive_getValFp _ _) fun _ db₂ h₂ => h₂.step (passive_writeVal _ _ _) fun _ db₃ h₃ => ?_
          exact hplace db₃ _ h₃
        · exact hpark db₁ h₁
      split
      · refine h.step (passive_getValFp _ _) fun _ db₁ h₁ => ?_
        rw [Exec.wp_bind, Exec.wp_get, Exec.wp_bind, Exec.wp_ret]
        split
        · exact h₁.writeSame key val old m mdays
        · exact hdiff db₁ h₁
      · exact hdiff db h

theorem Settled.writeRow (h : Settled (n + 1) db) (env : Env) (key : Key) (val : PyVal) (a : WriteArgs)
    (transient : ℕ) (kf : FlagArg) (row : ℕ) (old : Row) (flags : ℕ) (checked : Bool) :
    Exec.Wp (writeRow cfg env key val a transient kf row old flags checked) db
      (fun _ db' => Settled n db') fun _ _ => True := by
  unfold JDb.writeRow
  extract_lets ttl kflags
  refine h.step (passive_newMdays _ _ _ _ _) fun mdays db₁ h₁ => ?_
  extract_lets rest
  refine h₁.step (passive_setGroup _ _) fun _ db₂ h₂ => ?_
  have hrest : ∀ db₃, Settled (n + 1) db₃ →
      Exec.Wp (rest ()) db₃ (fun _ db' => Settled n db') fun _ _ => True := by
    intro db₃ h₃
    simp only [rest]
    rw [Exec.wp_bind, Exec.wp_get]
    refine h₃.step (.lift _) fun enc db₄ h₄ => ?_
    exact h₄.writeOver _ _ _ _ _ _ _ _ _ _ _
  split
  · exact h₂.step (passive_tableSet _ _ _) fun _ db₃ h₃ => hrest db₃ h₃
  · exact hrest db₂ h₂

/-- What writing through a link does: it keeps the stamps as a write does. -/
def LinkSettles (n : ℕ) (onLink : PyVal → DbM Bool) : Prop :=
  ∀ target db, Settled (n + 1) db → Exec.Wp (onLink target) db (fun _ db' => Settled n db') fun _ _ => True

theorem Settled.look (h : Settled (n + 1) db) {onLink : PyVal → DbM Bool} (hl : LinkSettles n onLink) (env : Env)
    (key : Key) (val : PyVal) (a : WriteArgs) (transient : ℕ) (kf : FlagArg) (row flags : ℕ) (checked : Bool) :
    Exec.Wp (writeExisting.look cfg onLink env key val a transient kf row flags checked) db
      (fun _ db' => Settled n db') fun _ _ => True := by
  unfold JDb.writeExisting.look
  refine h.read row fun old db₁ h₁ _ _ => ?_
  split
  · exact h₁.step (passive_rowValue _) fun target db₂ h₂ => hl target db₂ h₂
  · split
    · trivial
    · have hwrite : ∀ ok db₂, Settled (n + 1) db₂ → Exec.Wp (
          if ok = true then JDb.writeRow cfg env key val a transient kf row old flags checked else pure false) db₂
          (fun _ db' => Settled n db') fun _ _ => True := by
        intro ok db₂ h₂
        split
        · exact h₂.writeRow _ _ _ _ _ _ _ _ _ _
        · exact h₂.mono (Nat.le_succ n)
      split
      · refine h₁.step (passive_decodeValue _ _ _ _ _) fun v db₂ h₂ => ?_
        exact hwrite _ db₂ h₂
      · exact hwrite true db₁ h₁

theorem Settled.writeExisting (h : Settled (n + 1) db) {onLink : PyVal → DbM Bool} (hl : LinkSettles n onLink)
    (env : Env) (key : Key) (val : PyVal) (a : WriteArgs) (transient : ℕ) (kf : FlagArg) (row kflags flags : ℕ) :
    Exec.Wp (writeExisting cfg onLink env key val a transient kf row kflags flags) db
      (fun _ db' => Settled n db') fun _ _ => True := by
  have hn : Settled n db := h.mono (Nat.le_succ n)
  unfold JDb.writeExisting
  extract_lets locked
  split
  · exact hn
  · rw [Exec.wp_bind, Exec.wp_get]
    split
    · split
      · exact hn.step (passive_cacheTouch _) fun _ _ h₁ => h₁
      · exact h.look hl _ _ _ _ _ _ _ _ _
    · exact h.look hl _ _ _ _ _ _ _ _ _

theorem Settled.writeNew (h : Settled (n + 1) db) (env : Env) (key : Key) (val : PyVal) (a : WriteArgs)
    (transient : ℕ) (kf : FlagArg) (flags : ℕ) :
    Exec.Wp (writeNew cfg env key val a transient kf flags) db (fun _ db' => Settled n db') fun _ _ => True := by
  unfold JDb.writeNew
  split
  · exact h.mono (Nat.le_succ n)
  · extract_lets ttl kflags
    refine h.step (passive_setGroup _ _) fun _ db₁ h₁ => ?_
    rw [Exec.wp_bind, Exec.wp_get]
    refine h₁.step (.lift _) fun enc db₂ h₂ => ?_
    exact Settled.after (h₂.add env key val enc _ flags _) fun _ _ h₃ => h₃

theorem Settled.fWriteWith (h : Settled (n + 1) db) {onLink : Key → PyVal → WriteArgs → PyVal → DbM Bool}
    (hl : ∀ key val a, LinkSettles n (onLink key val a)) (env : Env) (key : Key) (val : PyVal) (a : WriteArgs) :
    Exec.Wp (fWriteWith cfg onLink env key val a) db (fun _ db' => Settled n db') fun _ _ => True := by
  unfold JDb.fWriteWith
  extract_lets val' flags
  split
  · trivial
  · split
    · trivial
    · split
      split
      extract_lets a'
      rw [Exec.wp_bind, Exec.wp_get]
      split
      · exact h.writeExisting (hl _ _ _) _ _ _ _ _ _ _ _ _
      · exact h.writeNew _ _ _ _ _ _ _

theorem linkSettles (env : Env) (key : Key) (val : PyVal) (a : WriteArgs) :
    LinkSettles n (fLinkWrite cfg env key val a) := by
  intro target db h
  unfold fLinkWrite
  split
  · exact h.mono (Nat.le_succ n)
  · refine h.step (passive_fLinkStep _) fun s db₁ h₁ => ?_
    cases s with
    | group g => exact h₁.mono (Nat.le_succ n)
    | descend g =>
      have hlift := (h₁.mono (Nat.le_succ n)).wp (.lift env.childWrite)
      exact Exec.wp_mono hlift (fun _ _ h₂ => h₂) fun _ _ _ => trivial
    | value name row =>
      -- the leaf is never a link itself
      refine h₁.fWriteWith (fun _ _ _ _ _ _ => ?_) env name val a
      trivial

/-- **Writing** keeps the stamps below the counter. -/
theorem Settled.fWrite (h : Settled (n + 1) db) (env : Env) (key : Key) (val : PyVal) (a : WriteArgs) :
    Exec.Wp (fWrite cfg env key val a) db (fun _ db' => Settled n db') fun _ _ => True :=
  h.fWriteWith (fun _ _ _ => linkSettles env _ _ _) env key val a

theorem Settled.appendNew (h : Settled (n + 1) db) (env : Env) (key : Key) (val : PyVal) (ttl : TtlArg)
    (kf : FlagArg) :
    Exec.Wp (appendNew cfg env key val ttl kf) db (fun _ db' => Settled n db') fun _ _ => True := by
  have hb : db.io.cnt.syncId < db.io.cnt.syncId + 1 := Nat.lt_succ_self _
  have hroom := h.room
  have hle := h.le
  unfold JDb.appendNew
  rw [Exec.wp_bind, Exec.wp_get]
  extract_lets lines n₀ safe life kflags rest₁ rest₂
  have hsafe : n₀ ≤ safe ∧ safe ≤ lines := by
    simp only [safe, n₀, lines]
    omega
  -- the row of the new key is written, and the counters follow
  have hlast : ∀ db₁, Held (withLines db.io.cnt (lines + 1)) {n₀} (db.io.cnt.syncId + 1) db₁ →
      Exec.Wp (rest₁ ()) db₁ (fun _ db' => Settled n db') fun _ _ => True := by
    intro db₁ h₁
    refine Held.step h₁ (.lift _) fun enc db₂ h₂ => Held.step h₂ (passive_setGroup key val) fun _ db₃ h₃ => ?_
    extract_lets record
    have hrecord : ∀ sp db₄, Held (withLines db.io.cnt (lines + 1)) {n₀} (db.io.cnt.syncId + 1) db₄ →
        Exec.Wp (record sp) db₄ (fun _ db' => Settled n db') fun _ _ => True := by
      intro sp db₄ h₄
      simp only [record]
      rw [Exec.wp_bind]
      refine Exec.wp_mono (Held.writeKey h₄ hb n₀ fun v hv => by cases hv) ?_ fun _ _ h' => h'
      intro _ db₅ h₅
      rw [Set.sdiff_self] at h₅
      refine Held.step h₅ (passive_noteExtent enc sp) fun _ db₆ h₆ => ?_
      unfold modifyIo
      rw [Exec.wp_bind, Exec.wp_modify, Exec.wp_bind, Exec.wp_modify, Exec.wp_ret]
      have hlt : db.io.cnt.nRecords + 1 ≤ lines + 1 := by omega
      exact Held.settle h₆ (fun cnt => { cnt with nRecords := cnt.nRecords + 1, syncId := bump cnt.syncId })
        rfl rfl rfl rfl (Nat.le_succ _) rfl hlt hroom
    split
    · exact hrecord _ db₃ h₃
    · extract_lets size
      refine Held.step h₃ (passive_getValFp Option.none size) fun p db₄ h₄ => ?_
      exact Held.step h₄ (passive_writeVal _ _ _) fun _ db₅ h₅ => hrecord _ db₅ h₅
  unfold modifyIo
  rw [Exec.wp_bind, Exec.wp_modify]
  have hline : Held (withLines db.io.cnt (lines + 1)) {lines} (db.io.cnt.syncId + 1)
      { db with io := { db.io with cnt := withLines db.io.cnt (lines + 1) } } := h.held.line rfl rfl rfl
  refine Held.copyUp hline hsafe.2 (Nat.lt_succ_self lines) fun db₁ h₁ => ?_
  exact Held.copyUp h₁ hsafe.1 (Nat.lt_succ_of_le hsafe.2) hlast

theorem Settled.fAppend (h : Settled (n + 1) db) (env : Env) (key : Key) (val : PyVal) (ttl : TtlArg)
    (kf : FlagArg) :
    Exec.Wp (fAppend cfg env key val ttl kf) db (fun _ db' => Settled n db') fun _ _ => True := by
  unfold JDb.fAppend
  split
  · trivial
  · split
    · trivial
    · rw [Exec.wp_bind, Exec.wp_get]
      split
      · split
        split
        · exact h.mono (Nat.le_succ n)
        · exact h.fWrite env key val _
      · exact h.appendNew env key val ttl kf

/-! ## Deleting -/

/-- **The row copies of a deletion** leave no row without a version below the counter. -/
theorem Settled.removeRow (h : Settled (n + 1) db) (key : Key) (row : ℕ) (old : Row) (flags : ℕ) :
    Exec.Wp (fDelete.removeRow cfg key row old flags) db (fun _ db' => Settled n db') fun _ _ => True := by
  have hb : db.io.cnt.syncId < db.io.cnt.syncId + 1 := Nat.lt_succ_self _
  have hroom := h.room
  have hle := h.le
  unfold JDb.fDelete.removeRow
  rw [Exec.wp_bind, Exec.wp_get]
  extract_lets n₀ deadH recT tail popKey rest
  set c : Counters := { db.io.cnt with nRecords := recT } with hc
  -- the deleted version is parked, and the counters follow
  have hfinish : ∀ moved db₁, Held c {recT} (db.io.cnt.syncId + 1) db₁ →
      Exec.Wp (rest moved) db₁ (fun _ db' => Settled n db') fun _ _ => True := by
    intro moved db₁ h₁
    unfold rest
    extract_lets park
    have hpark : ∀ db₂, Held c (if tail = true then ∅ else {recT}) (db.io.cnt.syncId + 1) db₂ →
        Exec.Wp (park ()) db₂ (fun _ db' => Settled n db') fun _ _ => True := by
      intro db₂ h₂
      unfold park
      rw [Exec.wp_bind]
      refine Exec.wp_mono (h₂.writeKey hb _ fun v hv => by cases hv) ?_ fun _ _ h' => h'
      intro _ db₃ h₃
      have h₃ : Held c ∅ (c.syncId + 1) db₃ := by
        refine JIo.Stamped.mono h₃ ?_ le_rfl
        by_cases ht : tail = true <;> simp [ht]
      unfold modifyIo
      rw [Exec.wp_bind, Exec.wp_modify]
      have h₄ : Settled n { db₃ with io := { db₃.io with cnt := { db₃.io.cnt with
            swapId := if moved.isSome = true then bump db.io.cnt.swapId else db.io.cnt.swapId
            syncId := bump db₃.io.cnt.syncId
            remvId := bump db₃.io.cnt.remvId } } } := h₃.settle
        (fun cnt => { cnt with
          swapId := if moved.isSome = true then bump db.io.cnt.swapId else db.io.cnt.swapId
          syncId := bump cnt.syncId
          remvId := bump cnt.remvId }) rfl rfl rfl rfl le_rfl rfl ((Nat.sub_le _ _).trans hle) hroom
      cases moved with
      | none => exact h₄.last (passive_tablePop key)
      | some r => exact h₄.step (passive_tableSet _ _ _) fun _ _ h₅ => h₅.last (passive_tablePop key)
    by_cases ht : tail = true
    · rw [if_pos ht, Exec.wp_bind]
      -- the tail of the safe region is a line, and not the row that was given up
      have hne : deadH - 1 ≠ recT := by
        simp only [tail, Bool.and_eq_true, decide_eq_true_eq] at ht
        exact ht.1.1
      have hlt : deadH - 1 < c.nLines := by
        have hl : c.nLines = db.io.cnt.nLines := rfl
        simp only [deadH, recT] at hne ⊢
        omega
      have hver := h₁.stored _ hlt (by rwa [Set.mem_singleton_iff])
      refine Exec.wp_mono (h₁.copyKey (E := fun _ _ => True) recT hver) ?_ fun _ _ h' => h'
      rintro _ db₂ ⟨h₂, -⟩
      rw [Set.sdiff_self] at h₂
      exact hpark db₂ (by rw [if_pos ht]; exact h₂)
    · rw [if_neg ht]
      exact hpark db₁ (by rw [if_neg ht]; exact h₁)
  unfold modifyIo
  rw [Exec.wp_bind, Exec.wp_modify]
  have h₁ : Held c {recT} (db.io.cnt.syncId + 1) { db with io := { db.io with
      groups := db.io.groups.pop key
      cnt := { db.io.cnt with nRecords := recT } } } := JIo.Stamped.shrink h.held rfl rfl rfl
  split
  · rename_i hlt
    have hver : (db.io.row recT).ver < db.io.cnt.syncId + 1 :=
      h.held.stored recT (lt_of_lt_of_le (show recT < db.io.cnt.nRecords by omega) hle) (Set.notMem_empty _)
    rw [Exec.wp_bind, Exec.wp_modify, Exec.wp_bind]
    have h₂ : Held c {recT} (db.io.cnt.syncId + 1) { db with io := { db.io with
        groups := db.io.groups.pop key
        cnt := { db.io.cnt with nRecords := recT }
        keyTable := db.io.keyTable.pop key } } := h₁.same rfl rfl rfl
    refine Exec.wp_mono (h₂.copyKey (E := fun _ _ => True) row hver) ?_
      fun _ _ h' => h'
    rintro r db₃ ⟨h₃, -⟩
    exact hfinish (some r) db₃ (JIo.Stamped.mono h₃ Set.sdiff_subset le_rfl)
  · exact hfinish Option.none _ h₁

/-- A deletion that gets as far as its row copies does not say that the key is missing. -/
theorem removeRow_raises (key : Key) (row : ℕ) (old : Row) (flags : ℕ) :
    Exec.Wp (fDelete.removeRow cfg key row old flags) db (fun _ _ => True) fun e _ => e ≠ .key := by
  unfold fDelete.removeRow
  rw [Exec.wp_bind, Exec.wp_get]
  extract_lets n₀ deadH recT tail popKey rest
  have hfinish : ∀ moved db₁, Exec.Wp (rest moved) db₁ (fun _ _ => True) fun e _ => e ≠ .key := by
    intro moved db₁
    unfold rest
    extract_lets park
    have hpark : ∀ db₂, Exec.Wp (park ()) db₂ (fun _ _ => True) fun e _ => e ≠ .key := by
      intro db₂
      unfold park onIo
      rw [Exec.wp_bind, Exec.wp_zoom]
      refine Exec.wp_mono (@JIo.wp_writeKey_raises cfg db₂.io _ _) (fun _ _ _ => ?_) fun _ _ h' => h'
      cases moved <;> trivial
    split
    · exact hpark _
    · exact hpark _
  split
  · exact hfinish _ _
  · exact hfinish _ _

/-- `f_delete`; also when it finds no record. -/
theorem Settled.fDelete (h : Settled (n + 1) db) (env : Env) (key : Key) (readValue : Bool)
    (row flags : Option ℕ) (kf : FlagArg) :
    Exec.Wp (fDelete cfg env key readValue row flags kf) db (fun _ db' => Settled n db')
      fun e db' => e = .key → Settled n db' := by
  have hmono : ∀ {db₁ : JDb}, Settled (n + 1) db₁ → Settled n db₁ := fun h' => h'.mono (Nat.le_succ n)
  unfold JDb.fDelete
  rw [Exec.wp_bind]
  refine Exec.wp_mono (h.wp (passive_cachePop key)) ?_ fun _ _ h' _ => hmono h'
  intro _ db₁ h₁
  rw [Exec.wp_bind, Exec.wp_get]
  extract_lets rest
  have hrest : ∀ r, Exec.Wp (rest r) db₁ (fun _ db' => Settled n db') fun e db' => e = .key → Settled n db' := by
    intro r
    unfold rest
    split
    rw [Exec.wp_bind]
    refine Exec.wp_mono (h₁.wp (passive_readKey r)) ?_ fun _ _ h' _ => hmono h'
    intro old db₂ h₂
    have hremove : ∀ v db₃, Settled (n + 1) db₃ → Exec.Wp (do
        JDb.fDelete.removeRow cfg old.key r old (flags.getD cfg.flags)
        pure (Deleted.gone v)) db₃ (fun _ db' => Settled n db') fun e db' => e = .key → Settled n db' := by
      intro v db₃ h₃
      rw [Exec.wp_bind]
      refine Exec.wp_mono (Exec.wp_and (h₃.removeRow old.key r old (flags.getD cfg.flags))
        (removeRow_raises old.key r old (flags.getD cfg.flags))) (fun _ _ h' => h'.1) ?_
      rintro e _ ⟨-, he⟩ rfl
      exact absurd rfl he
    split
    · exact hmono h₂
    · split
      · exact fun _ => hmono h₂
      · rw [Exec.wp_bind, Exec.wp_get]
        extract_lets key' isGroup
        split
        · rw [Exec.wp_bind]
          refine Exec.wp_mono (h₂.wp (passive_decodeValue _ _ _ _ _)) ?_ fun _ _ h' _ => hmono h'
          exact fun v db₃ h₃ => hremove _ db₃ h₃
        · exact hremove _ db₂ h₂
  split
  · exact hrest _
  · split
    · exact hrest _
    · exact fun _ => hmono h₁

/-! ## Undoing -/

/-- The parked row an undo is about is a line, and not a live one unless it was asked for. -/
theorem Settled.undoRow (h : Settled n db) (key : Key) (row : Option ℕ) {E : Err → JDb → Prop}
    (hE : ∀ e db', Settled n db' → E e db') :
    Exec.Wp (undoRow key row) db (fun found db' => Settled n db' ∧ db'.io.cnt = db.io.cnt ∧
      ∀ d info, found = some (d, info) → d < db.io.cnt.nLines ∧ info.ver < db.io.cnt.syncId ∧
        (row = some d ∨ row = Option.none ∧ db.io.cnt.nRecords ≤ d)) E := by
  unfold JDb.undoRow
  split
  · rename_i r
    rw [Exec.wp_bind]
    refine Exec.wp_mono (h.stamped.readKey r) ?_ fun e db' h' => hE e db' (h.of_held h')
    rintro info db₁ ⟨h₁, hv⟩
    refine ⟨h.of_held h₁, h₁.cnt, fun d info' hd => ?_⟩
    split at hd
    · cases hd
      obtain ⟨hlt, hver⟩ := hv (Set.notMem_empty r)
      have hle := h.le
      exact ⟨by omega, hver, .inl rfl⟩
    · cases hd
  · rw [Exec.wp_bind, Exec.wp_get, Exec.wp_ret]
    refine ⟨h, rfl, fun d info hd => ?_⟩
    obtain ⟨h₁, h₂, rfl⟩ := mem_keyIter (List.mem_of_find?_eq_some hd)
    exact ⟨h₂, h.stamped.stored d h₂ (Set.notMem_empty d), .inr ⟨rfl, h₁⟩⟩

/-- A row is copied over another; no row lacks a version. -/
theorem Held.copyOver {β : Type} {src dst : ℕ} (h : Held c ∅ b db) (hs : src < dst → src < c.nLines)
    {Q : β → JDb → Prop} {k : Unit → DbM β}
    (hk : ∀ db', Held c ∅ b db' → Exec.Wp (k ()) db' Q fun _ _ => True) :
    Exec.Wp (if src < dst then do
        let _ ← onIo (JIo.copyKey src dst)
        k ()
      else k ()) db Q fun _ _ => True := by
  split
  · rename_i hlt
    rw [Exec.wp_bind]
    have hver := h.stored src (hs hlt) (Set.notMem_empty src)
    refine Exec.wp_mono (h.copyKey (E := fun _ _ => True) dst hver) ?_ fun _ _ h' => h'
    rintro _ db₁ ⟨h', -⟩
    exact hk db₁ (JIo.Stamped.mono h' Set.sdiff_subset le_rfl)
  · exact hk db h

/-- **`f_undelete`**, of a parked row. -/
theorem Settled.fUndelete (h : Settled (n + 1) db) (key : Key) (row flags : Option ℕ)
    (hrow : ∀ r, row = some r → db.io.keyTable.contains key = false → db.io.cnt.nRecords ≤ r) :
    Exec.Wp (fUndelete cfg key row flags) db (fun _ db' => Settled n db') fun _ _ => True := by
  have hmono : ∀ {db₁ : JDb}, Settled (n + 1) db₁ → Settled n db₁ := fun h' => h'.mono (Nat.le_succ n)
  have hroom := h.room
  unfold JDb.fUndelete
  split
  · exact hmono h
  · unfold JDb.cachePop
    rw [Exec.wp_bind, Exec.wp_modify, Exec.wp_bind, Exec.wp_get]
    have h₁ : Settled (n + 1) { db with cache := db.cache.pop key } := ⟨h.stamped.same rfl rfl rfl, h.le, h.room⟩
    split
    · exact hmono h₁
    · rename_i hnot
      rw [Exec.wp_bind]
      refine Exec.wp_mono (h₁.undoRow key row (E := fun _ _ => True) fun _ _ _ => trivial) ?_ fun _ _ h' => h'
      rintro (_ | ⟨d, info⟩) db₁ ⟨h₂, hcnt, hd⟩
      · exact hmono h₂
      · obtain ⟨hlt, hver, hwhich⟩ := hd d info rfl
        have hdead : db.io.cnt.nRecords ≤ d := by
          rcases hwhich with hr | ⟨-, hr⟩
          · exact hrow d hr (Bool.not_eq_true _ ▸ hnot)
          · exact hr
        have hcnt : db₁.io.cnt = db.io.cnt := hcnt
        have hlt : d < db.io.cnt.nLines := hlt
        extract_lets flags'
        rw [Exec.wp_bind, Exec.wp_get]
        extract_lets n₀ hd' base finish room
        have hn₀ : n₀ = db.io.cnt.nRecords := congrArg Counters.nRecords hcnt
        have hhd : n₀ ≤ hd' := by
          have hle := h.le
          have hl : db₁.io.cnt.nLines = db.io.cnt.nLines := congrArg Counters.nLines hcnt
          simp only [hd']
          split <;> omega
        have hheld := h₂.held
        rw [hcnt] at hheld
        -- the row is written anew at the end of the live region
        have hfinish : ∀ db₃, Held db.io.cnt ∅ (db.io.cnt.syncId + 1) db₃ →
            Exec.Wp (finish ()) db₃ (fun _ db' => Settled n db') fun _ _ => True := by
          intro db₃ h₃
          unfold finish
          refine Held.step h₃ (passive_cachePop key) fun _ db₄ h₄ =>
            Held.step h₄ (passive_undoGroup key info.toCore) fun g db₅ h₅ => ?_
          extract_lets kf
          refine Held.put h₅ (Nat.lt_succ_self _) n₀ (fun v hv => by cases hv) fun _ db₆ h₆ => ?_
          unfold modifyIo
          rw [Exec.wp_bind, Exec.wp_modify]
          have hlt : db.io.cnt.nRecords + 1 ≤ db.io.cnt.nLines := by omega
          have h₇ : Settled n { db₆ with io := { db₆.io with cnt := { db₆.io.cnt with
                nRecords := db₆.io.cnt.nRecords + 1
                syncId := bump db₆.io.cnt.syncId } } } := h₆.settle
            (fun cnt => { cnt with nRecords := cnt.nRecords + 1, syncId := bump cnt.syncId })
            rfl rfl rfl rfl (Nat.le_succ _) rfl hlt hroom
          exact h₇.step (passive_tableSet key n₀ kf) fun _ _ h₈ => h₈
        split
        · rename_i hle
          rw [Exec.wp_bind, Exec.wp_modify]
          have hsame : Held db.io.cnt ∅ (db.io.cnt.syncId + 1) (if has flags' REVERT = true then
              { db₁ with chgKeys := insert key db₁.chgKeys, safeLine := hd' + 1 }
            else { db₁ with safeLine := n₀ }) := by
            split <;> exact hheld.same rfl rfl rfl
          refine hsame.copyOver (fun hlt' => by omega) fun db₃ h₃ => ?_
          exact h₃.copyOver (fun _ => by omega) hfinish
        · rename_i hle
          rw [Exec.wp_bind, Exec.wp_modify]
          have hsame : Held db.io.cnt ∅ (db.io.cnt.syncId + 1) { db₁ with chgKeys := db₁.chgKeys.erase key } :=
            hheld.same rfl rfl rfl
          exact hsame.copyOver (fun _ => by omega) hfinish

/-- `f_unwrite`. -/
theorem Settled.fUnwrite (h : Settled (n + 1) db) (key : Key) (row : Option ℕ) :
    Exec.Wp (fUnwrite cfg key row) db (fun _ db' => Settled n db') fun _ _ => True := by
  have hmono : ∀ {db₁ : JDb}, Settled (n + 1) db₁ → Settled n db₁ := fun h' => h'.mono (Nat.le_succ n)
  unfold JDb.fUnwrite
  split
  · exact hmono h
  · refine h.step (passive_cachePop key) fun _ db₁ h₁ => ?_
    rw [Exec.wp_bind, Exec.wp_get]
    split
    · exact hmono h₁
    · split
      · exact hmono h₁
      · rw [Exec.wp_bind]
        refine Exec.wp_mono (h₁.undoRow key row (E := fun _ _ => True) fun _ _ _ => trivial) ?_ fun _ _ h' => h'
        rintro (_ | ⟨d, info⟩) db₂ ⟨h₂, -, -⟩
        · exact hmono h₂
        · dsimp only
          rw [Exec.wp_bind, Exec.wp_get]
          split
          · exact hmono h₂
          · rename_i r flags hr
            split
            · exact hmono h₂
            · refine h₂.read r fun old db₃ h₃ _ _ => ?_
              split
              · exact hmono h₃
              · refine h₃.step (passive_undoGroup key info.toCore) fun g db₄ h₄ => ?_
                refine h₄.held.put (Nat.lt_succ_self _) d (fun v hv => by cases hv) fun _ db₅ h₅ => ?_
                refine h₅.put (Nat.lt_succ_self _) r (fun v hv => by cases hv) fun _ db₆ h₆ => ?_
                refine Held.step h₆ (passive_tableSet _ _ _) fun _ db₇ h₇ => ?_
                refine Settled.after (h₇.bumpSync h₄.le h₄.room) fun _ db₈ h₈ => ?_
                exact h₈.step (passive_modify fun _ => ⟨rfl, rfl, rfl, rfl, rfl⟩) fun _ _ h₉ => h₉

/-- `f_rename`. -/
theorem Settled.fRename (h : Settled (n + 1) db) (key newKey : Key) :
    Exec.Wp (fRename cfg key newKey) db (fun _ db' => Settled n db') fun _ _ => True := by
  unfold JDb.fRename
  split
  · exact h.mono (Nat.le_succ n)
  · refine h.step (passive_cachePop key) fun _ db₁ h₁ => ?_
    rw [Exec.wp_bind, Exec.wp_get]
    split
    · trivial
    · split
      · trivial
      · rename_i row flags hrow
        refine h₁.read row fun old db₂ h₂ _ _ => ?_
        rw [Exec.wp_bind]
        have hpos : Exec.Wp (onIo (JIo.writeKey cfg row { old.args with key := newKey, ver := Option.none })) db₂
            (fun size _ => 0 < size) fun _ _ => True := by
          unfold onIo
          rw [Exec.wp_zoom]
          exact JIo.writeKey_pos _ _ _
        refine Exec.wp_mono (Exec.wp_and (h₂.held.writeRow (Nat.lt_succ_self _) row fun v hv => by cases hv) hpos)
          ?_ fun _ _ _ => trivial
        rintro size db₃ ⟨h₃, hsize⟩
        rw [if_pos hsize]
        unfold modifyIo
        rw [Exec.wp_bind, Exec.wp_modify]
        have h₄ : Settled n { db₃ with io := { db₃.io with cnt := { db₃.io.cnt with
              syncId := bump db₃.io.cnt.syncId
              swapId := bump db₃.io.cnt.swapId } } } := h₃.settle
          (fun cnt => { cnt with syncId := bump cnt.syncId, swapId := bump cnt.swapId })
          rfl rfl rfl rfl le_rfl rfl h₂.le h₂.room
        exact h₄.step (passive_modify fun _ => ⟨rfl, rfl, rfl, rfl, rfl⟩) fun _ _ h₅ => h₅

/-- `set_date`. -/
theorem Settled.setDate (h : Settled (n + 1) db) (key : Key) (cdate mdate : Option ℕ) (ttl : Option TtlArg) :
    Exec.Wp (setDate cfg key cdate mdate ttl) db (fun _ db' => Settled n db') fun _ _ => True := by
  have hmono : ∀ {db₁ : JDb}, Settled (n + 1) db₁ → Settled n db₁ := fun h' => h'.mono (Nat.le_succ n)
  unfold JDb.setDate
  split
  · exact hmono h
  · rw [Exec.wp_bind, Exec.wp_get]
    split
    · exact hmono h
    · rename_i row flags hrow
      split
      · exact hmono h
      · refine h.read row fun old db₁ h₁ _ _ => ?_
        extract_lets cdays mdays newTtl t
        split
        · trivial
        · split
          · refine h₁.held.put (Nat.lt_succ_self _) row (fun v hv => by cases hv) fun _ db₂ h₂ => ?_
            refine Held.step h₂ (passive_tableSet _ _ _) fun _ db₃ h₃ => ?_
            exact Settled.after (h₃.bumpSync h₁.le h₁.room) fun _ _ h₄ => h₄
          · exact hmono h₁

/-- `set_link`, which deletes a link it replaces, and writes twice. -/
theorem Settled.setLink (h : Settled (n + 3) db) (env : Env) (key target : Key) :
    Exec.Wp (setLink cfg env key target) db (fun _ db' => Settled n db') fun _ _ => True := by
  have hmono : ∀ {m : ℕ} {db₁ : JDb}, Settled (n + m) db₁ → Settled n db₁ := fun h' => h'.mono (Nat.le_add_right n _)
  unfold JDb.setLink
  split
  · trivial
  · refine h.step (passive_fLinkStep _) fun s db₁ h₁ => ?_
    extract_lets write look
    -- the target is written, and its row marked as a link
    have hrest : ∀ (oldFlags : ℕ) db₂, Settled (n + 2) db₂ →
        Exec.Wp (JDb.linkRest cfg env key target oldFlags) db₂ (fun _ db' => Settled n db') fun _ _ => True := by
      intro oldFlags db₂ h₂
      unfold JDb.linkRest
      refine h₂.step (passive_cachePop key) fun _ db₃ h₃ => ?_
      refine Settled.after (h₃.fWrite env key _ _) fun ok db₄ h₄ => ?_
      split
      · exact hmono h₄
      · rw [Exec.wp_bind, Exec.wp_get]
        split
        · trivial
        · rename_i row f hget
          refine h₄.read row fun old db₅ h₅ _ hv => ?_
          refine h₅.held.put (Nat.lt_succ_self _) row (fun v hver => ?_) fun _ db₆ h₆ => ?_
          · cases hver
            exact hv.trans (Nat.lt_succ_self _)
          · refine Held.step h₆ (passive_tableSet _ _ _) fun _ db₇ h₇ => ?_
            refine Settled.after (h₇.bumpSync h₅.le h₅.room) fun _ db₈ h₈ => ?_
            exact h₈.step (passive_cachePop key) fun _ _ h₉ => h₉
    have hwrite : ∀ p db₂, Settled (n + 3) db₂ →
        Exec.Wp (write p) db₂ (fun _ db' => Settled n db') fun _ _ => True := by
      rintro ⟨oldFlags, same⟩ db₂ h₂
      unfold write
      dsimp only
      split
      · exact hmono h₂
      · split
        · rw [Exec.wp_bind]
          refine Exec.wp_mono (h₂.fDelete env key false Option.none Option.none .none) ?_ fun _ _ _ => trivial
          exact fun _ db₃ h₃ => hrest oldFlags db₃ h₃
        · exact hrest oldFlags db₂ (h₂.mono (Nat.le_succ _))
    have hlook : ∀ db₂, Settled (n + 3) db₂ →
        Exec.Wp (look ()) db₂ (fun _ db' => Settled n db') fun _ _ => True := by
      intro db₂ h₂
      unfold look
      rw [Exec.wp_bind, Exec.wp_get]
      split
      · split
        · refine h₂.read _ fun old db₃ h₃ _ _ => ?_
          split
          · trivial
          · split
            · exact h₃.step (.pure _) hwrite
            · split
              · refine h₃.step (passive_rowValue _) fun v db₄ h₄ => ?_
                exact h₄.step (.pure _) hwrite
              · exact h₃.step (.pure _) hwrite
        · exact h₂.step (.pure _) hwrite
      · exact h₂.step (.pure _) hwrite
    split
    · exact h₁.step (.lift _) fun _ db₂ h₂ => hlook db₂ h₂
    · exact hlook db₁ h₁

/-! ## `unmodify`, `revert` -/

/-- Looking for a row returns one of the rows looked at. -/
theorem seekRow_le (key : Key) (version : Option ℕ) (m : ℕ) : ∀ (r : ℕ) (db : JDb),
    Exec.Wp (seekRow key version r m) db (fun found _ => ∀ d, found = some d → r ≤ d) fun _ _ => True := by
  induction m with
  | zero =>
    intro r db d hd
    cases hd
  | succ m ih =>
    intro r db
    unfold seekRow
    rw [Exec.wp_bind]
    refine Exec.wp_of_run (fun info db₁ _ => ?_) fun _ _ _ => trivial
    split
    · intro d hd
      cases hd
      exact le_rfl
    · refine Exec.wp_mono (ih (r + 1) db₁) (fun found _ h' d hd => ?_) fun _ _ h' => h'
      have := h' d hd
      omega

/-- `unmodify`. -/
theorem Settled.unmodify (h : Settled (n + 1) db) (key : Key) (version : Option ℕ) :
    Exec.Wp (unmodify cfg key version) db (fun _ db' => Settled n db') fun _ _ => True := by
  have hmono : ∀ {db₁ : JDb}, Settled (n + 1) db₁ → Settled n db₁ := fun h' => h'.mono (Nat.le_succ n)
  unfold JDb.unmodify
  rw [Exec.wp_bind, Exec.wp_get]
  extract_lets n₀
  split
  · exact hmono h
  · refine h.step (passive_seekRow _ _ _ _) fun found db₁ h₁ => ?_
    split
    · exact h₁.fUnwrite key _
    · exact hmono h₁

/-- `revert`: the row it finds is a parked one. -/
theorem Settled.revert (h : Settled (n + 1) db) (key : Key) (version : Option ℕ) :
    Exec.Wp (revert cfg key version) db (fun _ db' => Settled n db') fun _ _ => True := by
  have hmono : ∀ {db₁ : JDb}, Settled (n + 1) db₁ → Settled n db₁ := fun h' => h'.mono (Nat.le_succ n)
  unfold JDb.revert
  rw [Exec.wp_bind, Exec.wp_get]
  extract_lets n₀
  split
  · exact hmono h
  · rw [Exec.wp_bind]
    have hseek : Maintains (Held db.io.cnt ∅ db.io.cnt.syncId) (seekRow key version n₀ (db.io.cnt.nLines - n₀)) :=
      passive_seekRow _ _ _ _
    refine Exec.wp_mono (Exec.wp_and (hseek.wp h.stamped) (seekRow_le key version _ n₀ db)) ?_ fun _ _ _ => trivial
    rintro (_ | r) db₁ ⟨h₁, hr⟩
    · exact hmono (h.of_held h₁)
    · dsimp only
      split
      · exact (h.of_held h₁).fUnwrite key _
      · refine (h.of_held h₁).fUndelete key (some r) Option.none fun d hd _ => ?_
        cases hd
        rw [h₁.cnt]
        exact hr r rfl

/-! ## Sessions -/

theorem Settled.openSession (h : Settled n db) (env : Env) :
    Exec.Wp (openSession env) db (fun _ db' => Settled n db') fun _ _ => True :=
  h.last (passive_modify fun _ => ⟨rfl, rfl, rfl, rfl, rfl⟩)

/-- Every queued record that is dropped bumps the counter. -/
theorem Settled.dropQueued (env : Env) : ∀ (l : List (ℕ × Key)) {db : JDb}, Settled (n + l.length) db →
    Exec.Wp (dropQueued cfg env l) db (fun _ db' => Settled n db') fun _ _ => True := by
  intro l
  induction l with
  | nil => intro db h; exact h
  | cons e rest ih =>
    intro db h
    have h : Settled ((n + rest.length) + 1) db := h
    unfold JDb.dropQueued
    rw [Exec.wp_bind, Exec.wp_get]
    split
    · exact ih (h.mono (Nat.le_succ _))
    · rename_i row flags hrow
      have hdel : Exec.Wp (JDb.fDelete cfg env e.2 false (some row) Option.none (.int UNLOCK)) db
          (fun _ db' => Settled (n + rest.length) db') fun e db' => e = .key → Settled (n + rest.length) db' :=
        h.fDelete env e.2 false (some row) Option.none (.int UNLOCK)
      have hskip : Exec.Wp (JDb.dropQueued.skipMissing
          (JDb.fDelete cfg env e.2 false (some row) Option.none (.int UNLOCK))) db
          (fun _ db' => Settled (n + rest.length) db') fun _ _ => True := by
        unfold Exec.Wp Exec.run at hdel ⊢
        unfold JDb.dropQueued.skipMissing
        rcases hx : JDb.fDelete cfg env e.2 false (some row) Option.none (.int UNLOCK) db with ⟨err | d, db'⟩
        · rw [hx] at hdel
          cases err <;> first | exact hdel rfl | trivial
        · rw [hx] at hdel
          exact hdel
      exact Settled.after hskip fun _ db' h' => ih h'

/-- Closing a session forgets the rows that were remembered. -/
theorem Settled.closeSession (h : Settled (n + db.expired.length) db) (env : Env) :
    Exec.Wp (closeSession cfg env) db (fun _ db' => Settled n db') fun _ _ => True := by
  unfold JDb.closeSession
  rw [Exec.wp_bind, Exec.wp_get, Exec.wp_bind]
  have hlen : (db.expired.insertionSort (fun a b => expiredLe a b)).length = db.expired.length :=
    List.length_insertionSort _ _
  refine Exec.wp_mono (Settled.dropQueued env _ (hlen.symm ▸ h)) ?_ fun _ _ h' => h'
  intro _ db₁ h₁
  rw [Exec.wp_bind, Exec.wp_get]
  have hend : ∀ db₂, Settled n db₂ → Settled n { db₂ with chgKeys := ∅, fpDict := [], expired := [] } :=
    fun db₂ h₂ => ⟨h₂.stamped.same rfl rfl rfl, h₂.le, h₂.room⟩
  split
  · have hclear : ∀ cache, Settled n { db₁ with io := db₁.io.clearRows, cache := cache } := by
      intro cache
      refine ⟨⟨rfl, h₁.stamped.stored, fun r row hr _ => ?_, Nat.zero_le _⟩, h₁.le, h₁.room⟩
      cases hr
    rw [Exec.wp_bind, Exec.wp_modify]
    exact Settled.step (hclear _) (held_onIo (.modify fun _ h' => h'.same rfl rfl rfl)) fun _ db₂ h₂ => hend db₂ h₂
  · exact hend db₁ h₁

end JDb

end OmniJsonDb
