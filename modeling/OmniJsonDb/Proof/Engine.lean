import Mathlib.Order.BooleanAlgebra.Set
import OmniJsonDb.Model.JIo

/-!
# What the engine does to the index

An index is looked at row by row through a **row view**: the part of a row a proof is
about, which the codec must keep. Through it the two row caches, the stored encoding
and the width of the rows disappear, and each engine operation is one equation.

* `wp_readKey`: a row is read, nothing changes.
* `wp_writeKey`: one row changes, also when the whole index is rewritten wider.
* `wp_copyKey`: one row is copied over another.
* `wp_getDeadRow`: a dead row is offered as it is.
-/

namespace OmniJsonDb

/-! ## Row views -/

/-- A part of a row. `fixed` is what makes a row survive being read and encoded again. -/
structure RowView (γ : Type) where
  proj : Row → γ
  slot : γ → Slot
  slot_proj : ∀ r, slot (proj r) = r.toSlot
  fixed : γ → Prop
  fixed_empty : fixed (proj (unpackRow JIo.emptyRec))
  normal_fixed : ∀ now r, fixed (proj r) → proj (normal now 0 r.args) = proj r

/-- The codec encodes rows in at most `MAX_INDEX_SIZE` bytes, or as many as the index
started with, keeps the view of them, and takes only rows that survive. -/
def Config.Keeps {γ : Type} (cfg : Config) (V : RowView γ) : Prop :=
  ∀ r k n, cfg.keyDumps r = .ok (k, n) → n + 1 ≤ max MAX_INDEX_SIZE cfg.initIndexSize ∧
    V.proj (unpackRow k) = V.proj r ∧ V.fixed (V.proj r)

/-- The index as a view shows it, and the engine's state beside it. -/
@[ext] structure IoView (γ : Type) where
  rows : ℕ → γ
  cnt : Counters
  keyTable : OrdDict Key (ℕ × ℕ)
  fileTable : OrdDict ℕ ℕ
  vals : ℕ → Option ByteFile
  now : ℕ

/-- The view with row `r` set. -/
def IoView.put {γ : Type} (v : IoView γ) (r : ℕ) (g : γ) : IoView γ :=
  { v with rows := Function.update v.rows r g }

namespace JIo

variable {γ : Type} (V : RowView γ)

def view (io : JIo) : IoView γ where
  rows r := V.proj (unpackRow (io.files.rows r))
  cnt := io.cnt
  keyTable := io.keyTable
  fileTable := io.fileTable
  vals := io.files.vals
  now := io.now

/-- The caches agree with the file but for the rows of `S`, and every row can be encoded
again. -/
structure OkBut (cfg : Config) (S : Set ℕ) (io : JIo) : Prop where
  keyRows : ∀ r row, io.keyRows.get? r = some row →
    V.fixed (V.proj row) ∧ (r ∉ S → V.proj row = (io.view V).rows r)
  deadRows : ∀ r p, io.deadRows.get? r = some p → r ∉ S → p = place (V.slot ((io.view V).rows r))
  fixed : ∀ r, V.fixed ((io.view V).rows r)
  wide : cfg.initIndexSize ≤ io.indexSize
  known : ∀ r row, io.keyRows.get? r = some row → r < max io.cnt.nRecords io.cnt.nLines

/-- The caches agree with the file, and every row can be encoded again. -/
abbrev Ok (cfg : Config) (io : JIo) : Prop := OkBut V cfg ∅ io

variable {V} {cfg : Config} {S : Set ℕ} {io : JIo}

/-! ## Reading -/

/-- The part of the state that reading a row leaves alone. -/
structure SameFile (io io' : JIo) : Prop where
  files : io'.files = io.files
  rest : io' = { io with keyRows := io'.keyRows, deadRows := io'.deadRows }

theorem SameFile.refl (io : JIo) : SameFile io io := ⟨rfl, rfl⟩

theorem SameFile.trans {a b c : JIo} (h : SameFile a b) (h' : SameFile b c) : SameFile a c := by
  refine ⟨h'.files.trans h.files, ?_⟩
  rw [h'.rest, h.rest]

theorem SameFile.view {io' : JIo} (h : SameFile io io') : io'.view V = io.view V := by
  rw [h.rest]; rfl

/-- What may be forgotten or remembered without harm. -/
theorem OkBut.mono {io' : JIo} (h : OkBut V cfg S io) (hv : io'.view V = io.view V)
    (hw : io'.indexSize = io.indexSize)
    (hk : ∀ r row, io'.keyRows.get? r = some row → io.keyRows.get? r = some row ∨
      V.proj row = (io.view V).rows r ∧ r < max io.cnt.nRecords io.cnt.nLines)
    (hd : ∀ r p, io'.deadRows.get? r = some p →
      io.deadRows.get? r = some p ∨ p = place (V.slot ((io.view V).rows r))) : OkBut V cfg S io' where
  keyRows r row hr := by
    rw [hv]
    rcases hk r row hr with h' | ⟨h', -⟩
    exacts [h.keyRows r row h', ⟨h' ▸ h.fixed r, fun _ => h'⟩]
  deadRows r p hr hS := by
    rw [hv]
    rcases hd r p hr with h' | h'
    exacts [h.deadRows r p h' hS, h']
  fixed r := by rw [hv]; exact h.fixed r
  wide := hw ▸ h.wide
  known r row hr := by
    have hcnt : io'.cnt = io.cnt := congrArg IoView.cnt hv
    rw [hcnt]
    rcases hk r row hr with h' | ⟨-, h'⟩
    exacts [h.known r row h', h']

theorem get?_rememberKey {r x : ℕ} {row row' : Row}
    (h : (io.rememberKey r row).keyRows.get? x = some row') :
    (x = r ∧ row' = row) ∨ io.keyRows.get? x = some row' := by
  have h := OrdDict.get?_keepLast h
  rw [OrdDict.get?_set] at h
  split at h
  · rename_i hx; cases h; exact .inl ⟨hx, rfl⟩
  · exact .inr h

theorem get?_rememberDead {r x : ℕ} {p p' : Place}
    (h : (io.rememberDead r p).deadRows.get? x = some p') :
    (x = r ∧ p' = p) ∨ io.deadRows.get? x = some p' := by
  have h := OrdDict.get?_keepLast h
  rw [OrdDict.get?_set] at h
  split at h
  · rename_i hx; cases h; exact .inl ⟨hx, rfl⟩
  · exact .inr h

/-- Remembering a row as it is stored. -/
theorem OkBut.rememberKey (h : OkBut V cfg S io) {r : ℕ} {row : Row}
    (hr : V.proj row = (io.view V).rows r) (hlive : r < io.cnt.nRecords) :
    OkBut V cfg S (io.rememberKey r row) :=
  h.mono rfl rfl (fun x row' h' => by
    rcases get?_rememberKey h' with ⟨rfl, rfl⟩ | h'
    exacts [.inr ⟨hr, lt_of_lt_of_le hlive (le_max_left _ _)⟩, .inl h']) fun _ _ h' => .inl h'

theorem OkBut.rememberDead (h : OkBut V cfg S io) {r : ℕ} {p : Place}
    (hr : p = place (V.slot ((io.view V).rows r))) : OkBut V cfg S (io.rememberDead r p) :=
  h.mono rfl rfl (fun _ _ h' => .inl h') fun x p' h' => by
    rcases get?_rememberDead h' with ⟨rfl, rfl⟩ | h'
    exacts [.inr hr, .inl h']

/-- **Reading a row** returns it and changes nothing else. -/
theorem wp_readKeyBut (h : OkBut V cfg S io) (r : ℕ) :
    Exec.Wp (readKey r) io
      (fun row io' => (V.fixed (V.proj row) ∧ (r ∉ S → V.proj row = (io.view V).rows r)) ∧
        r < max io.cnt.nRecords io.cnt.nLines ∧ SameFile io io' ∧ OkBut V cfg S io')
      (fun e io' => e = .value ∧ io.cnt.nLines ≤ r ∧ SameFile io io' ∧ OkBut V cfg S io') := by
  unfold readKey
  simp only [Exec.wp_bind, Exec.wp_modify, Exec.wp_get]
  have h₁ : OkBut V cfg S { io with deadRows := io.deadRows.pop r } :=
    h.mono rfl rfl (fun _ _ h => .inl h) fun _ _ h' => .inl (OrdDict.get?_pop_some h').2
  split
  · rename_i row hr
    simp only [Exec.wp_bind, Exec.wp_modify, Exec.wp_ret]
    exact ⟨h.keyRows r row hr, h.known r row hr, ⟨rfl, rfl⟩, h₁.mono rfl rfl
      (fun _ _ h' => .inl (by rwa [OrdDict.get?_touch] at h')) fun _ _ h' => .inl h'⟩
  · simp only [Exec.wp_bind, Exec.wp_lift, stored?]
    split
    · rename_i hlines
      refine ⟨fun row hrow => ?_, fun e he => by cases he⟩
      cases hrow
      simp only [Exec.wp_modify, Exec.wp_ret]
      refine ⟨⟨h.fixed r, fun _ => rfl⟩, lt_of_lt_of_le hlines (le_max_right _ _), ?_⟩
      split
      · exact ⟨⟨rfl, rfl⟩, h₁.rememberKey rfl ‹_›⟩
      · exact ⟨⟨rfl, rfl⟩, h₁.rememberDead (congrArg place (V.slot_proj _).symm)⟩
    · refine ⟨fun row hrow => (by cases hrow), fun e he => ?_⟩
      cases he
      exact ⟨rfl, Nat.le_of_not_lt ‹_›, ⟨rfl, rfl⟩, h₁⟩

theorem wp_readKey (h : Ok V cfg io) (r : ℕ) :
    Exec.Wp (readKey r) io
      (fun row io' => V.proj row = (io.view V).rows r ∧ r < max io.cnt.nRecords io.cnt.nLines ∧
        SameFile io io' ∧ Ok V cfg io')
      (fun e io' => e = .value ∧ io.cnt.nLines ≤ r ∧ SameFile io io' ∧ Ok V cfg io') :=
  Exec.wp_mono (wp_readKeyBut h r) (fun _ _ h' => ⟨h'.1.2 (Set.notMem_empty r), h'.2⟩)
    fun _ _ h' => h'

/-- What is known of a row that was read from `r`. -/
def ReadFrom (V : RowView γ) (S : Set ℕ) (io : JIo) (row : Row) (r : ℕ) : Prop :=
  V.fixed (V.proj row) ∧ (r ∉ S → V.proj row = (io.view V).rows r)

/-- Reading a stretch of rows. -/
theorem wp_readKeys (m : ℕ) : ∀ (r : ℕ) (io : JIo), OkBut V cfg S io → Exec.Wp (readKeys r m) io
    (fun rows io' => List.Forall₂ (ReadFrom V S io) rows (List.range' r m) ∧
      SameFile io io' ∧ OkBut V cfg S io')
    (fun _ io' => SameFile io io' ∧ OkBut V cfg S io') := by
  induction m with
  | zero => intro r io h; exact ⟨.nil, .refl io, h⟩
  | succ m ih =>
    intro r io h
    unfold readKeys
    simp only [Exec.wp_bind, Exec.wp_ret]
    refine Exec.wp_mono (wp_readKeyBut h r) ?_ fun _ _ h' => h'.2.2
    rintro row io₁ ⟨hrow, -, hf, h₁⟩
    refine Exec.wp_mono (ih (r + 1) io₁ h₁) ?_ fun _ _ h' => ⟨hf.trans h'.1, h'.2⟩
    rintro rows io₂ ⟨hrows, hf₂, h₂⟩
    refine ⟨?_, hf.trans hf₂, h₂⟩
    rw [List.range'_succ]
    refine .cons hrow (hrows.imp fun row i h' => ?_)
    unfold ReadFrom at h' ⊢
    rwa [hf.view] at h'

/-! ## Writing -/

/-- Storing a row that nothing is remembered of. -/
theorem view_putRec (r : ℕ) (k : KeyRec) :
    (io.putRec r k).view V = (io.view V).put r (V.proj (unpackRow k)) := by
  unfold putRec view IoView.put
  simp only [IoView.mk.injEq, and_self, and_true]
  funext x
  by_cases h : x = r
  · subst h; simp
  · simp [h]

theorem view_forget (r : ℕ) : (io.forget r).view V = io.view V := rfl

/-- A row is stored and forgotten: from then on it can be trusted. -/
theorem OkBut.putRec (h : OkBut V cfg S io) (r : ℕ) (k : KeyRec) (hk : V.fixed (V.proj (unpackRow k))) :
    OkBut V cfg (S \ {r}) ((io.forget r).putRec r k) := by
  have hv : ((io.forget r).putRec r k).view V = _ := view_putRec r k
  have hne {x : ℕ} (hx : x ≠ r) : (((io.forget r).putRec r k).view V).rows x = (io.view V).rows x := by
    rw [hv]; exact Function.update_of_ne hx _ _
  refine ⟨fun x row hx => ?_, fun x p hx hS => ?_, fun x => ?_, h.wide,
    fun x row hx => h.known x row (OrdDict.get?_pop_some hx).2⟩
  · obtain ⟨hxr, hx⟩ := OrdDict.get?_pop_some hx
    rw [hne hxr]
    exact ⟨(h.keyRows x row hx).1, fun hS => (h.keyRows x row hx).2 fun hx' => hS ⟨hx', hxr⟩⟩
  · obtain ⟨hxr, hx⟩ := OrdDict.get?_pop_some hx
    rw [hne hxr]
    exact h.deadRows x p hx fun hx' => hS ⟨hx', hxr⟩
  · by_cases hxr : x = r
    · subst hxr; rw [hv]; simpa [IoView.put] using hk
    · rw [hne hxr]; exact h.fixed x

theorem Ok.putRec (h : Ok V cfg io) (r : ℕ) (k : KeyRec) (hk : V.fixed (V.proj (unpackRow k))) :
    Ok V cfg ((io.forget r).putRec r k) := by
  have := OkBut.putRec h r k hk
  rwa [Set.empty_sdiff] at this

theorem Ok.weaken (h : Ok V cfg io) (r : ℕ) : OkBut V cfg {r} io :=
  ⟨fun x row hx => ⟨(h.keyRows x row hx).1, fun _ => (h.keyRows x row hx).2 (Set.notMem_empty x)⟩,
    fun x p hx _ => h.deadRows x p hx (Set.notMem_empty x), h.fixed, h.wide, h.known⟩

/-- A row is filled behind the caches' back. -/
theorem Ok.fill (h : Ok V cfg io) (r : ℕ) : OkBut V cfg {r} (io.putRec r emptyRec) := by
  have hv : (io.putRec r emptyRec).view V = _ := view_putRec r emptyRec
  have hne {x : ℕ} (hx : x ∉ ({r} : Set ℕ)) :
      ((io.putRec r emptyRec).view V).rows x = (io.view V).rows x := by
    rw [hv]; exact Function.update_of_ne hx _ _
  refine ⟨fun x row hx => ⟨(h.keyRows x row hx).1, fun hS => ?_⟩, fun x p hx hS => ?_, fun x => ?_, h.wide,
    h.known⟩
  · rw [hne hS]; exact (h.keyRows x row hx).2 (Set.notMem_empty x)
  · rw [hne hS]; exact h.deadRows x p hx (Set.notMem_empty x)
  · by_cases hxr : x = r
    · subst hxr; rw [hv]; simpa [IoView.put] using V.fixed_empty
    · rw [hne hxr]; exact h.fixed x

/-- **Copying a row.** -/
theorem wp_copyKey (h : Ok V cfg io) (src dst : ℕ) {E : Err → JIo → Prop} :
    Exec.Wp (copyKey src dst) io
      (fun row io' => V.proj row = (io.view V).rows src ∧
        io'.view V = (io.view V).put dst ((io.view V).rows src) ∧ Ok V cfg io') E := by
  unfold copyKey
  rw [Exec.wp_modifyGet]
  exact ⟨rfl, view_putRec dst _, Ok.putRec h dst _ (h.fixed src)⟩

theorem wp_writeHeader (h : OkBut V cfg S io) {E : Err → JIo → Prop} :
    Exec.Wp writeHeader io (fun _ io' => io'.view V = io.view V ∧ OkBut V cfg S io' ∧
      io'.indexSize = io.indexSize) E := by
  unfold writeHeader
  rw [Exec.wp_modify]
  exact ⟨rfl, h.mono rfl rfl (fun _ _ h' => .inl h') fun _ _ h' => .inl h', rfl⟩

/-- Encoding rows again keeps the view of them. -/
theorem reencode_proj (hc : cfg.Keeps V) (now size : ℕ) : ∀ (rows : List Row) (ks : List KeyRec),
    reencode cfg now size rows = .ok ks → (∀ row ∈ rows, V.fixed (V.proj row)) →
    ks.map (fun k => V.proj (unpackRow k)) = rows.map V.proj := by
  intro rows
  induction rows with
  | nil => intro ks h _; cases h; rfl
  | cons row rows ih =>
    intro ks h hf
    rw [reencode] at h
    split at h
    · cases h
    · rename_i k n hk
      split at h
      · cases h
      · split at h
        · cases h
        · rename_i ks' hks
          cases h
          have hrow := V.normal_fixed now row (hf row (List.mem_cons_self ..))
          rw [List.map_cons, List.map_cons, (hc _ _ _ hk).2.1, hrow,
            ih ks' hks fun x hx => hf x (List.mem_cons_of_mem _ hx)]

theorem le_align8 (n : ℕ) : n ≤ align8 n := by unfold align8; split <;> omega

/-- Two views that agree but for row `r`. -/
def SameBut (r : ℕ) (v v' : IoView γ) : Prop := ∀ g, v'.put r g = v.put r g

theorem SameBut.of_rows {r : ℕ} {v v' : IoView γ} {f : ℕ → γ} (h : v' = { v with rows := f })
    (hf : ∀ x, x ≠ r → f x = v.rows x) : SameBut r v v' := by
  subst h
  intro g
  unfold IoView.put
  ext1 <;> try rfl
  funext x
  by_cases hx : x = r
  · subst hx; simp
  · simp [hx, hf x hx]

/-- **Rewriting the index wider** changes no row. -/
theorem wp_resizeKeys (hc : cfg.Keeps V) {x size : ℕ} (h : OkBut V cfg {x} io)
    (hsize : io.indexSize ≤ size) :
    Exec.Wp (resizeKeys cfg size) io
      (fun _ io' => SameBut x (io.view V) (io'.view V) ∧ OkBut V cfg {x} io' ∧ size ≤ io'.indexSize)
      (fun _ _ => True) := by
  unfold resizeKeys
  simp only [Exec.wp_bind, Exec.wp_get]
  split
  · rename_i hs
    exact ⟨fun _ => rfl, h, hs ▸ le_align8 size⟩
  · simp only [Exec.wp_bind]
    refine Exec.wp_mono (wp_readKeys io.cnt.nLines 0 io h) ?_ fun _ _ _ => trivial
    rintro rows io₁ ⟨hrows, hf, h₁⟩
    rw [Exec.wp_lift]
    refine ⟨fun ks hks => ?_, fun _ _ => trivial⟩
    simp only [Exec.wp_modify]
    have hks' : ks.map (fun k => V.proj (unpackRow k)) = rows.map V.proj := by
      refine reencode_proj hc _ _ rows ks hks fun row hrow => ?_
      obtain ⟨i, hi, rfl⟩ := List.getElem_of_mem hrow
      exact (hrows.get hi (hrows.length_eq ▸ hi)).1
    -- row `r` of the new file is the row read from `r`, or the old one past the last line
    have hrow : ∀ r, (∃ row, V.proj (unpackRow ((ks[r]?).getD (io₁.files.rows r))) = V.proj row ∧
        ReadFrom V {x} io row r) ∨ (ks[r]?).getD (io₁.files.rows r) = io.files.rows r := by
      intro r
      have hr := congrArg (fun l => l[r]?) hks'
      simp only [List.getElem?_map] at hr
      cases hk : ks[r]? with
      | none => exact .inr (by rw [hf.files]; rfl)
      | some k =>
        rw [hk] at hr
        cases hro : rows[r]? with
        | none => rw [hro] at hr; cases hr
        | some row =>
          rw [hro] at hr
          obtain ⟨hi, hrow⟩ := List.getElem?_eq_some_iff.1 hro
          have hread := hrows.get hi (hrows.length_eq ▸ hi)
          simp only [List.get_eq_getElem, hrow, List.getElem_range', zero_add, one_mul] at hread
          exact .inl ⟨row, by simpa using hr, hread⟩
    have hfix : ∀ r, V.fixed (V.proj (unpackRow ((ks[r]?).getD (io₁.files.rows r)))) := by
      intro r
      rcases hrow r with ⟨row, he, hr⟩ | he
      exacts [he ▸ hr.1, he ▸ h.fixed r]
    have hsame : ∀ r, r ∉ ({x} : Set ℕ) →
        V.proj (unpackRow ((ks[r]?).getD (io₁.files.rows r))) = (io.view V).rows r := by
      intro r hS
      rcases hrow r with ⟨row, he, hr⟩ | he
      exacts [he.trans (hr.2 hS), congrArg (fun k => V.proj (unpackRow k)) he]
    have hview : ∀ r, (io₁.view V).rows r = (io.view V).rows r := by intro r; rw [hf.view]
    refine Exec.wp_mono (@wp_writeHeader _ V cfg {x} _ ?_ fun _ _ => True) ?_
      fun _ _ h' => trivial
    · refine ⟨fun r row hr => ⟨(h₁.keyRows r row hr).1, fun hS => ?_⟩, fun r p hr hS => ?_, hfix,
        (h.wide.trans hsize).trans (le_align8 size), fun r row hr => h₁.known r row hr⟩
      · exact ((h₁.keyRows r row hr).2 hS).trans ((hview r).trans (hsame r hS).symm)
      · exact (h₁.deadRows r p hr hS).trans (congrArg (fun g => place (V.slot g))
          ((hview r).trans (hsame r hS).symm))
    · rintro _ io₂ ⟨hv₂, h₂, hs₂⟩
      refine ⟨?_, h₂, hs₂ ▸ le_align8 size⟩
      rw [hv₂, hf.rest]
      exact .of_rows rfl fun r hr => by have := hsame r hr; rwa [hf.files] at this

/-- Under a codec that keeps rows, no key is ever cut. -/
theorem encodeKey_ok (hc : cfg.Keeps V) (hw : cfg.initIndexSize ≤ io.indexSize) {a : KeyArgs}
    {row : Row} {k : KeyRec} {n : ℕ}
    (h : io.encodeKey cfg a = .ok (row, k, n)) :
    row = normal io.now io.cnt.syncId a ∧ V.proj (unpackRow k) = V.proj row ∧ V.fixed (V.proj row) := by
  unfold encodeKey at h
  simp only at h
  split at h
  · cases h
  · rename_i hk
    have := hc _ _ _ hk
    rw [if_neg (by omega)] at h
    cases h
    exact ⟨rfl, this.2⟩

/-- The last step of `write_key`: the row goes into an index wide enough for it. -/
def putKey (r : ℕ) (row : Row) (k : KeyRec) (io : JIo) : JIo :=
  let io := (io.forget r).putRec r k
  if r < io.cnt.nRecords then io.rememberKey r row
  else if io.cnt.nRecords + 1 ≤ r then io.rememberDead r (place row.toSlot)
  else io

theorem putKey_ok {io' : JIo} {r : ℕ} {row : Row} {k : KeyRec}
    (hs : SameBut r (io.view V) (io'.view V)) (h : OkBut V cfg {r} io')
    (hk : V.proj (unpackRow k) = V.proj row) (hf : V.fixed (V.proj row)) :
    (putKey r row k io').view V = (io.view V).put r (V.proj row) ∧ Ok V cfg (putKey r row k io') := by
  have h₁ : Ok V cfg ((io'.forget r).putRec r k) := by
    have := OkBut.putRec h r k (hk ▸ hf)
    rwa [Set.sdiff_self] at this
  have hv : ((io'.forget r).putRec r k).view V = (io.view V).put r (V.proj row) := by
    rw [view_putRec, view_forget, hk, hs]
  have hrow : V.proj row = (((io'.forget r).putRec r k).view V).rows r := by
    rw [hv]; simp [IoView.put]
  unfold putKey
  simp only
  split
  · exact ⟨hv, OkBut.rememberKey h₁ hrow ‹_›⟩
  · split
    · exact ⟨hv, OkBut.rememberDead h₁ (by rw [← hrow, V.slot_proj])⟩
    · exact ⟨hv, h₁⟩

theorem indexSize_putKey (r : ℕ) (row : Row) (k : KeyRec) (io : JIo) :
    (putKey r row k io).indexSize = io.indexSize := by
  unfold putKey
  simp only
  split
  · rfl
  · split <;> rfl

/-- **Writing a row.** Whatever has to move for it, one row of the view changes. -/
theorem wp_writeKey (hc : cfg.Keeps V) (h : Ok V cfg io) (r : ℕ) (a : KeyArgs) :
    Exec.Wp (writeKey cfg r a) io
      (fun n io' => io'.view V = (io.view V).put r (V.proj (normal io.now io.cnt.syncId a)) ∧
        Ok V cfg io' ∧ 0 < n)
      (fun _ _ => True) := by
  unfold writeKey
  simp only [Exec.wp_bind, Exec.wp_get, Exec.wp_lift]
  refine ⟨?_, fun _ _ => trivial⟩
  rintro ⟨row, k, n⟩ henc
  obtain ⟨rfl, hk, hfix⟩ := encodeKey_ok hc h.wide henc
  -- from an index that is wide enough and shows `io` up to row `r`, one step is left
  have last {io' : JIo} (hs : SameBut r (io.view V) (io'.view V)) (h' : OkBut V cfg {r} io')
      (hn : n + 1 ≤ io'.indexSize) :
      (putKey r (normal io.now io.cnt.syncId a) k io').view V =
          (io.view V).put r (V.proj (normal io.now io.cnt.syncId a)) ∧
        Ok V cfg (putKey r (normal io.now io.cnt.syncId a) k io') ∧
        0 < (putKey r (normal io.now io.cnt.syncId a) k io').indexSize := by
    obtain ⟨hv, hok⟩ := putKey_ok hs h' hk hfix
    exact ⟨hv, hok, by rw [indexSize_putKey]; omega⟩
  -- the index is rewritten wider first
  have grow {io₁ : JIo} (hs : SameBut r (io.view V) (io₁.view V)) (h₁ : OkBut V cfg {r} io₁)
      (hw : io₁.indexSize ≤ n + 1) :
      Exec.Wp (resizeKeys cfg (n + 1)) io₁
        (fun _ io₂ => (putKey r (normal io.now io.cnt.syncId a) k io₂).view V =
            (io.view V).put r (V.proj (normal io.now io.cnt.syncId a)) ∧
          Ok V cfg (putKey r (normal io.now io.cnt.syncId a) k io₂) ∧
          0 < (putKey r (normal io.now io.cnt.syncId a) k io₂).indexSize)
        (fun _ _ => True) := by
    refine Exec.wp_mono (wp_resizeKeys hc h₁ hw) ?_ fun _ _ h' => h'
    rintro _ io₂ ⟨hs₂, h₂, hn⟩
    exact last (fun g => (hs₂ g).trans (hs g)) h₂ hn
  split
  · rename_i hn
    split
    · -- row `r` is a line not written yet
      simp only [Exec.wp_bind, Exec.wp_modify, Exec.wp_get, Exec.wp_ret]
      exact grow (.of_rows (view_putRec r emptyRec) fun x hx => Function.update_of_ne hx _ _)
        (Ok.fill h r) (Nat.le_of_lt hn)
    · simp only [Exec.wp_bind, Exec.wp_modify, Exec.wp_get, Exec.wp_ret]
      exact grow (fun _ => rfl) (h.weaken r) (Nat.le_of_lt hn)
  · rename_i hn
    simp only [Exec.wp_bind, Exec.wp_modify, Exec.wp_get, Exec.wp_ret]
    exact last (fun _ => rfl) (h.weaken r) (Nat.le_of_not_lt hn)

/-! ## What is raised -/

theorem wp_readKey_raises (r : ℕ) : Exec.Wp (readKey r) io (fun _ _ => True) (fun e _ => e ≠ .key) := by
  unfold readKey
  simp only [Exec.wp_bind, Exec.wp_modify, Exec.wp_get]
  split
  · trivial
  · simp only [Exec.wp_bind, Exec.wp_lift, stored?]
    split
    · exact ⟨fun _ _ => trivial, fun e he => by cases he⟩
    · exact ⟨fun _ _ => trivial, fun e he => by cases he; exact Err.noConfusion⟩

theorem wp_readKeys_raises (m : ℕ) : ∀ (r : ℕ) (io : JIo),
    Exec.Wp (readKeys r m) io (fun _ _ => True) (fun e _ => e ≠ .key) := by
  induction m with
  | zero => intro r io; trivial
  | succ m ih =>
    intro r io
    unfold readKeys
    simp only [Exec.wp_bind, Exec.wp_ret]
    refine Exec.wp_mono (wp_readKey_raises r) (fun row io₁ _ => ?_) fun _ _ h => h
    exact Exec.wp_mono (ih (r + 1) io₁) (fun _ _ _ => trivial) fun _ _ h => h

theorem encodeKey_raises {a : KeyArgs} {e : Err} (h : io.encodeKey cfg a = .error e) : e ≠ .key := by
  have hd : ∀ {row : Row} {e : Err}, cfg.keyDumps row = .error e → e ≠ .key := by
    rintro row e h rfl; exact cfg.keyDumps_error row h
  unfold encodeKey stripKey at h
  simp only at h
  split at h
  · cases h; exact hd ‹_›
  · split at h
    · split at h
      · cases h; exact hd ‹_›
      · split at h
        · cases h
        · split at h
          · cases h; exact hd ‹_›
          · split at h
            · cases h
            · cases h; exact Err.noConfusion
    · cases h

theorem reencode_raises {now size : ℕ} {e : Err} : ∀ {rows : List Row},
    reencode cfg now size rows = .error e → e ≠ .key
  | [], h => by cases h
  | row :: rows, h => by
    rw [reencode] at h
    split at h
    · rename_i hd; cases h; rintro rfl; exact cfg.keyDumps_error _ hd
    · split at h
      · cases h; exact Err.noConfusion
      · split at h
        · cases h; exact reencode_raises ‹_›
        · cases h

/-- Writing a row never raises what a missing key does. -/
theorem wp_writeKey_raises (r : ℕ) (a : KeyArgs) :
    Exec.Wp (writeKey cfg r a) io (fun _ _ => True) (fun e _ => e ≠ .key) := by
  have hres : ∀ (size : ℕ) (io : JIo),
      Exec.Wp (resizeKeys cfg size) io (fun _ _ => True) (fun e _ => e ≠ .key) := by
    intro size io
    unfold resizeKeys
    simp only [Exec.wp_bind, Exec.wp_get]
    split
    · trivial
    · simp only [Exec.wp_bind]
      refine Exec.wp_mono (wp_readKeys_raises _ 0 io) (fun rows io₁ _ => ?_) fun _ _ h => h
      rw [Exec.wp_lift]
      refine ⟨fun ks hks => ?_, fun e he => reencode_raises he⟩
      simp only [Exec.wp_modify, writeHeader]
  unfold writeKey
  simp only [Exec.wp_bind, Exec.wp_get, Exec.wp_lift]
  refine ⟨?_, fun e he => encodeKey_raises he⟩
  rintro ⟨row, k, n⟩ henc
  have tail : ∀ io₁ : JIo, Exec.Wp (do
      Exec.modify fun io =>
        let io := (io.forget r).putRec r k
        if r < io.cnt.nRecords then io.rememberKey r row
        else if io.cnt.nRecords + 1 ≤ r then io.rememberDead r (place row.toSlot)
        else io
      let io ← Exec.get
      pure io.indexSize : IoM ℕ) io₁ (fun _ _ => True) (fun e _ => e ≠ .key) := fun _ => trivial
  split
  · split
    · simp only [Exec.wp_bind, Exec.wp_modify]
      exact Exec.wp_mono (hres _ _) (fun _ io₁ _ => tail io₁) fun _ _ h => h
    · simp only [Exec.wp_bind]
      exact Exec.wp_mono (hres _ _) (fun _ io₁ _ => tail io₁) fun _ _ h => h
  · exact tail io

/-! ## Dead rows -/

/-- An extent that may be taken for `req` bytes: an empty one for none. -/
def Fits (req : ℕ) (p : Place) : Prop := req ≤ p.2.2 ∧ (req = 0 → p.2.2 = 0)

theorem mem_deadMatches {minRow req : ℕ} {x : ℕ × Place} : ∀ {l : List (ℕ × Place)},
    x ∈ deadMatches minRow req l → x ∈ l ∧ minRow ≤ x.1 ∧ Fits req x.2
  | [], h => by cases h
  | (row, p) :: rest, h => by
    rw [deadMatches] at h
    split at h
    · rename_i hm
      rcases List.mem_cons.1 h with rfl | h
      · have h := hm.2
        exact ⟨List.mem_cons_self .., hm.1, by unfold Fits; dsimp only; omega⟩
      · split at h
        · cases h
        · obtain ⟨h₁, h₂⟩ := mem_deadMatches h
          exact ⟨List.mem_cons_of_mem _ h₁, h₂⟩
    · obtain ⟨h₁, h₂⟩ := mem_deadMatches h
      exact ⟨List.mem_cons_of_mem _ h₁, h₂⟩

theorem mem_of_deadMin {x : ℕ × Place} : ∀ {l : List (ℕ × Place)}, deadMin l = some x → x ∈ l
  | [], h => by cases h
  | y :: ys, h => by
    rw [deadMin] at h
    split at h
    · cases h; exact List.mem_cons_self ..
    · rename_i z hz
      cases h
      split
      exacts [List.mem_cons_self .., List.mem_cons_of_mem _ (mem_of_deadMin hz)]

theorem get?_foldl_pop {x : ℕ} {p : Place} : ∀ (rows : List ℕ) {d : OrdDict ℕ Place},
    (rows.foldl OrdDict.pop d).get? x = some p → d.get? x = some p
  | [], _, h => h
  | _ :: rows, _, h => (OrdDict.get?_pop_some (get?_foldl_pop rows h)).2

/-- **A remembered dead row** is offered with the extent it has in the file, and is
forgotten. -/
theorem wp_getDeadRow (h : Ok V cfg io) (minRow req : ℕ) {E : Err → JIo → Prop} :
    Exec.Wp (getDeadRow minRow req) io
      (fun res io' => io'.view V = io.view V ∧ Ok V cfg io' ∧ ∀ row p, res = some (row, p) →
        minRow ≤ row ∧ p = place (V.slot ((io.view V).rows row)) ∧ Fits req p) E := by
  unfold getDeadRow
  rw [Exec.wp_modifyGet]
  split
  · rename_i row p hmin
    obtain ⟨hmem, hrow, hfits⟩ := mem_deadMatches (mem_of_deadMin hmin)
    refine ⟨rfl, h.mono rfl rfl (fun _ _ h' => .inl h') fun x q hx =>
      .inl (get?_foldl_pop _ (OrdDict.get?_pop_some hx).2), ?_⟩
    rintro row' p' ⟨⟩
    exact ⟨hrow, h.deadRows row p (OrdDict.mem_entries_iff.1 hmem) (Set.notMem_empty row), hfits⟩
  · exact ⟨rfl, h.mono rfl rfl (fun _ _ h' => .inl h') fun x q hx => .inl (get?_foldl_pop _ hx),
      fun _ _ h' => by cases h'⟩

end JIo

end OmniJsonDb
