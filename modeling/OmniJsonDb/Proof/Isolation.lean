import Mathlib.Data.List.Basic
import OmniJsonDb.Lib.Machine
import OmniJsonDb.Model.LckServer

/-!
# Locks of a server and its connections

Beside the server stands the list of the locks granted and not given back. An unlock of a
connection takes one of its own off the list, the write locks first.

* `Audit.Isolated`: the lock bytes count this list, and no connection that has ended is on it.
* `Audit.Inv`, `Inv.step`: the invariant, through every step but the rogue ones.
-/

namespace OmniJsonDb

/-- A lock granted to a connection. -/
structure Grant where
  conn : ℕ
  path : GroupPath
  copy : Copy
  write : Bool
  deriving DecidableEq

namespace Grant

/-- The locks of a connection on a group. -/
def own (c : ℕ) (path : GroupPath) (g : Grant) : Bool := g.conn = c ∧ g.path = path

/-- The locks of a backend, to read or to write. -/
def on (b : ℕ) (write : Bool) (g : Grant) : Bool := g.copy.backend = b ∧ g.write = write

/-- Take one of the locks of a connection on a group off the list, one to write if there is one. -/
def giveBack (c : ℕ) (path : GroupPath) (gs : List Grant) : List Grant :=
  gs.eraseP fun g => g.own c path ∧ g.write = gs.any fun g => g.own c path && g.write

/-- What is taken off a list is counted once less. -/
theorem countP_eraseP {α : Type} {p : α → Bool} {l : List α} (h : ∃ x ∈ l, p x = true) :
    ∃ g ∈ l, p g = true ∧ ∀ q : α → Bool, (l.eraseP p).countP q + (if q g then 1 else 0) = l.countP q := by
  obtain ⟨x, hx, hp⟩ := h
  obtain ⟨g, l₁, l₂, -, hg, hl, he⟩ := List.exists_of_eraseP hx hp
  refine ⟨g, by rw [hl]; simp, hg, fun q => ?_⟩
  rw [he, hl]
  simp only [List.countP_append, List.countP_cons]
  omega

/-- Nothing to take off, or one of the connection's own: one to write if it has any. -/
theorem giveBack_cases (c : ℕ) (path : GroupPath) (gs : List Grant) :
    (gs.countP (own c path) = 0 ∧ giveBack c path gs = gs) ∨
      ∃ g ∈ gs, g.own c path = true ∧ (g.write = false → ∀ x ∈ gs, x.own c path = true → x.write = false) ∧
        ∀ q : Grant → Bool, (giveBack c path gs).countP q + (if q g then 1 else 0) = gs.countP q := by
  by_cases hex : ∃ g ∈ gs, g.own c path = true
  · have hw : ∃ g ∈ gs, (decide (g.own c path = true ∧
        g.write = gs.any fun g => g.own c path && g.write)) = true := by
      cases hw : gs.any fun g => g.own c path && g.write with
      | true =>
        obtain ⟨g, hg, hgw⟩ := List.any_eq_true.1 hw
        exact ⟨g, hg, by simpa using hgw⟩
      | false =>
        obtain ⟨g, hg, ho⟩ := hex
        have := List.any_eq_false.1 hw g hg
        exact ⟨g, hg, by simpa [ho] using this⟩
    obtain ⟨g, hg, hp, hq⟩ := countP_eraseP hw
    simp only [decide_eq_true_eq] at hp
    refine .inr ⟨g, hg, hp.1, fun hf x hx hxo => ?_, hq⟩
    rw [hf] at hp
    have := List.any_eq_false.1 hp.2.symm x hx
    simpa [hxo] using this
  · refine .inl ⟨?_, List.eraseP_of_forall_not fun g hg hp => hex ⟨g, hg, ?_⟩⟩
    · rw [List.countP_eq_zero]
      exact fun g hg ho => hex ⟨g, hg, ho⟩
    · simp only [decide_eq_true_eq] at hp
      exact hp.1

end Grant

open Grant

/-! ## Lock bytes and locks -/

/-- The lock bytes of every backend count the locks, and who writes has all of them. -/
structure Books (store : ℕ → LckFile) (gs : List Grant) : Prop where
  here : ∀ b, (store b).removed = false
  readers : ∀ b, (store b).readCnt = gs.countP (on b false)
  writers : ∀ b, (store b).writeCnt = gs.countP (on b true)
  zero : ∀ b, (store b).writeId = 0 ↔ (store b).writeCnt = 0
  owner : ∀ g ∈ gs, (store g.copy.backend).writeId ≠ 0 → g.copy.id = (store g.copy.backend).writeId

namespace Books

variable {store : ℕ → LckFile} {gs gs' : List Grant} {g : Grant} {f : LckFile} {c : ℕ} {path : GroupPath}
  {cp : Copy}

theorem writer (h : Books store gs) (hg : g ∈ gs) (hw : g.write = true) :
    (store g.copy.backend).writeId = g.copy.id ∧ (store g.copy.backend).writeId ≠ 0 := by
  have h0 : (store g.copy.backend).writeId ≠ 0 := fun h0 => by
    have := (h.zero _).1 h0
    rw [h.writers, List.countP_eq_zero] at this
    exact this g hg (by simp [on, hw])
  exact ⟨(h.owner g hg h0).symm, h0⟩

/-- Nobody holds anything where the counts are zero. -/
theorem none_on (h : Books store gs) {b : ℕ} (hr : (store b).readCnt = 0) (hw : (store b).writeId = 0) :
    ∀ g ∈ gs, g.copy.backend ≠ b := by
  intro g hg hb
  have hr := h.readers b ▸ hr
  have hw := h.writers b ▸ (h.zero b).1 hw
  rw [List.countP_eq_zero] at hr hw
  cases hgw : g.write with
  | true => exact hw g hg (by simp [on, hb, hgw])
  | false => exact hr g hg (by simp [on, hb, hgw])

/-- The lock bytes of one backend and its locks change together. -/
theorem update (h : Books store gs) {b : ℕ} (here : f.removed = false)
    (hr : f.readCnt = gs'.countP (on b false)) (hw : f.writeCnt = gs'.countP (on b true))
    (hz : f.writeId = 0 ↔ f.writeCnt = 0)
    (ho : ∀ g ∈ gs', g.copy.backend = b → f.writeId ≠ 0 → g.copy.id = f.writeId)
    (hc : ∀ b', b' ≠ b → ∀ w, gs'.countP (on b' w) = gs.countP (on b' w))
    (hs : ∀ g ∈ gs', g.copy.backend ≠ b → g ∈ gs) : Books (Function.update store b f) gs' := by
  refine ⟨fun b' => ?_, fun b' => ?_, fun b' => ?_, fun b' => ?_, fun g hg => ?_⟩
  · by_cases hb : b' = b
    · rw [hb, Function.update_self, here]
    · rw [Function.update_of_ne hb, h.here]
  · by_cases hb : b' = b
    · rw [hb, Function.update_self, hr]
    · rw [Function.update_of_ne hb, h.readers, hc b' hb]
  · by_cases hb : b' = b
    · rw [hb, Function.update_self, hw]
    · rw [Function.update_of_ne hb, h.writers, hc b' hb]
  · by_cases hb : b' = b
    · rw [hb, Function.update_self, hz]
    · rw [Function.update_of_ne hb, h.zero]
  · by_cases hb : g.copy.backend = b
    · rw [hb, Function.update_self]
      exact ho g hg hb
    · rw [Function.update_of_ne hb]
      exact h.owner g (hs g hg hb)

theorem countP_grant (w : Bool) (b : ℕ) (w' : Bool) : (⟨c, path, cp, w⟩ :: gs).countP (on b w') =
    gs.countP (on b w') + if cp.backend = b ∧ w = w' then 1 else 0 := by
  simp [List.countP_cons, on]

/-- A lock is granted. -/
theorem lock (h : Books store gs) {w : Bool} (hid : cp.id ≠ 0)
    (hl : (if w then (store cp.backend).wlock cp.id else (store cp.backend).rlock cp.id) = .ok f) :
    Books (Function.update store cp.backend f) (⟨c, path, cp, w⟩ :: gs) := by
  have hold : ∀ {id}, (store cp.backend).writeId = id → id ≠ 0 →
      ∀ g ∈ gs, g.copy.backend = cp.backend → g.copy.id = id := by
    rintro id rfl h0 g hg hb
    rw [← hb] at h0 ⊢
    exact h.owner g hg h0
  have hother : ∀ b', b' ≠ cp.backend → ∀ w', (⟨c, path, cp, w⟩ :: gs : List Grant).countP (on b' w') =
      gs.countP (on b' w') := fun b' hb w' => by
    rw [countP_grant, if_neg fun hc => hb hc.1.symm, Nat.add_zero]
  have hsub : ∀ g ∈ (⟨c, path, cp, w⟩ :: gs : List Grant), g.copy.backend ≠ cp.backend → g ∈ gs := by
    intro g hg hb
    rcases List.mem_cons.1 hg with rfl | hg
    · exact absurd rfl hb
    · exact hg
  have hz := h.zero cp.backend
  cases w with
  | false =>
    obtain ⟨hw, rfl⟩ := LckFile.rlock_ok (by simpa using hl)
    refine h.update (h.here _) ?_ ?_ hz (fun g hg hb h0 => ?_) hother hsub
    · rw [countP_grant, h.readers]
      simp
    · rw [countP_grant, h.writers]
      simp
    · rcases List.mem_cons.1 hg with rfl | hg
      · exact (hw.resolve_left h0).symm
      · exact hold rfl h0 g hg hb
  | true =>
    rcases LckFile.wlock_ok (by simpa using hl) with ⟨hw, rfl⟩ | ⟨-, hr, hw, rfl⟩
    · have h0 : (store cp.backend).writeId ≠ 0 := by rw [hw]; exact hid
      refine h.update (h.here _) ?_ ?_ ?_ (fun g hg hb _ => ?_) hother hsub
      · rw [countP_grant, h.readers]
        simp
      · rw [countP_grant, h.writers]
        simp
      · simp [h0]
      · rcases List.mem_cons.1 hg with rfl | hg
        · exact hw.symm
        · exact hold rfl h0 g hg hb
    · have hnone := h.none_on hr hw
      refine h.update (h.here _) ?_ ?_ ?_ (fun g hg hb _ => ?_) hother hsub
      · rw [countP_grant, h.readers]
        simp
      · rw [countP_grant, ← h.writers, hz.1 hw]
        simp
      · simp [hid]
      · rcases List.mem_cons.1 hg with rfl | hg
        · rfl
        · exact absurd hb (hnone g hg)

/-- A lock is given back: one to write, or by a copy that does not write. -/
theorem unlock (h : Books store gs) (hg : g ∈ gs) (hw : g.write = true ∨ (store g.copy.backend).writeId ≠ g.copy.id)
    (hq : ∀ q : Grant → Bool, gs'.countP q + (if q g then 1 else 0) = gs.countP q)
    (hs : ∀ x ∈ gs', x ∈ gs) :
    Books (Function.update store g.copy.backend ((store g.copy.backend).unlock g.copy.id)) gs' := by
  have hother : ∀ b', b' ≠ g.copy.backend → ∀ w', gs'.countP (on b' w') = gs.countP (on b' w') := by
    intro b' hb w'
    have := hq (on b' w')
    simpa [on, Ne.symm hb] using this
  have hr := hq (on g.copy.backend false)
  have hw' := hq (on g.copy.backend true)
  rw [← h.readers] at hr
  rw [← h.writers] at hw'
  have hz := h.zero g.copy.backend
  have hown : ∀ x ∈ gs', x.copy.backend = g.copy.backend → (store g.copy.backend).writeId ≠ 0 →
      x.copy.id = (store g.copy.backend).writeId := by
    intro x hx hb h0
    rw [← hb] at h0 ⊢
    exact h.owner x (hs x hx) h0
  cases hgw : g.write with
  | true =>
    obtain ⟨hid, h0⟩ := h.writer hg hgw
    simp only [on, hgw, decide_true, and_self, if_true, Bool.true_eq_false, and_false, decide_false,
      Bool.false_eq_true, if_false] at hr hw'
    unfold LckFile.unlock
    rw [if_pos hid]
    refine h.update (h.here _) ?_ ?_ ?_ (fun x hx hb h1 => ?_) hother fun x hx _ => hs x hx
    · dsimp only
      omega
    · dsimp only
      omega
    · dsimp only
      split
      · simp [*]
      · rename_i h1
        exact iff_of_false h0 h1
    · dsimp only at h1 ⊢
      split at h1
      · exact absurd rfl h1
      · rw [if_neg ‹_›]
        exact hown x hx hb h0
  | false =>
    have hid := hw.resolve_left (by simp [hgw])
    simp only [on, hgw, decide_true, and_self, if_true, Bool.false_eq_true, and_false, decide_false,
      if_false] at hr hw'
    unfold LckFile.unlock
    rw [if_neg hid]
    refine h.update (h.here _) ?_ ?_ hz (fun x hx hb h1 => hown x hx hb h1) hother fun x hx _ => hs x hx
    · dsimp only
      omega
    · dsimp only
      omega

/-- An unlock by a copy that does not write, where nobody reads. -/
theorem unlock_idle (h : Books store gs) (hr : (store cp.backend).readCnt = 0)
    (hw : (store cp.backend).writeId ≠ cp.id) :
    Books (Function.update store cp.backend ((store cp.backend).unlock cp.id)) gs := by
  have hu : (store cp.backend).unlock cp.id = store cp.backend := by
    unfold LckFile.unlock
    rw [if_neg hw]
    have : (store cp.backend).readCnt - 1 = (store cp.backend).readCnt := by omega
    rw [this]
  rwa [hu, Function.update_eq_self]

end Books

/-- A server, and the locks granted and not given back. -/
structure Audit where
  server : Server := {}
  grants : List Grant := []

namespace Audit

variable {a a' : Audit} {e : ServerEv} {c : ℕ} {path : GroupPath}

/-- The list after a step. -/
def book (a : Audit) : ServerEv → Option JErrCode → List Grant
  | .request c path (.rlock _) copy, some .okay =>
    ((a.server.copyOf c path copy).map fun cp => ⟨c, path, cp, false⟩).toList ++ a.grants
  | .request c path (.wlock _) copy, some .okay =>
    ((a.server.copyOf c path copy).map fun cp => ⟨c, path, cp, true⟩).toList ++ a.grants
  | .request c path .unlock _, some .okay => giveBack c path a.grants
  | .wake c, some .okay =>
    match (a.server.conn c).phase with
    | .waiting path write =>
      (((a.server.conn c).groupTable path).map fun cp => ⟨c, path, cp, write⟩).toList ++ a.grants
    | _ => a.grants
  | .teardown c, _ =>
    match (a.server.conn c).phase with
    | .closing ((path, n) :: _) =>
      if 0 < n ∧ ((a.server.conn c).groupTable path).isSome then giveBack c path a.grants else a.grants
    | _ => a.grants
  | _, _ => a.grants

def next (a : Audit) (e : ServerEv) : Option Audit :=
  (a.server.step e).map fun r => { server := r.2, grants := a.book e r.1 }

/-- A connection that has begun and not ended. -/
def Live (k : Conn) : Prop := k.phase ≠ .absent ∧ k.phase ≠ .ended

/-- An object id no live connection's copy has. -/
def Unused (s : Server) (id : ℕ) : Prop :=
  id ≠ 0 ∧ ∀ c path cp, Live (s.conn c) → (s.conn c).groupTable path = some cp → cp.id ≠ id

/-- The copies a step makes are new objects. -/
def Fresh (s : Server) : ServerEv → Prop
  | .connect _ root => Unused s root.id
  | .request c path _ (some cp) => (s.conn c).groupTable path = none → Unused s cp.id
  | _ => True

def Step (a : Audit) (e : ServerEv) (a' : Audit) : Prop := a.next e = some a' ∧ Fresh a.server e

/-- How many locks a connection has on a group. -/
def held (a : Audit) (c : ℕ) (path : GroupPath) : ℕ := a.grants.countP (own c path)

/-- An unlock by a connection that has no lock there while others read, or the end of a
connection with more locks than its `locker_table` counts. -/
def Rogue (a : Audit) : ServerEv → Prop
  | .request c path .unlock copy =>
    a.held c path = 0 ∧ ∃ cp, a.server.copyOf c path copy = some cp ∧ 0 < (a.server.store cp.backend).readCnt
  | .hangup c => ∃ path, (a.held c path : ℤ) ≠ max 0 ((a.server.conn c).locker path)
  | _ => False

/-- The lock bytes of every backend count the locks granted and not given back, and all of
these are of connections that have not ended. -/
structure Isolated (a : Audit) : Prop where
  readers : ∀ b, (a.server.store b).readCnt = a.grants.countP (on b false)
  writers : ∀ b, (a.server.store b).writeCnt = a.grants.countP (on b true)
  live : ∀ g ∈ a.grants, Live (a.server.conn g.conn)

/-! ## The invariant -/

/-- What a `finally` has still to release. -/
def due (rest : List (GroupPath × ℤ)) (path : GroupPath) : ℤ :=
  ((rest.find? fun e => e.1 = path).map Prod.snd).getD 0

/-- **The invariant of the server.** -/
structure Inv (a : Audit) : Prop where
  books : Books a.server.store a.grants
  place : ∀ g ∈ a.grants, Live (a.server.conn g.conn) ∧ (a.server.conn g.conn).groupTable g.path = some g.copy
  ids : ∀ c path cp, Live (a.server.conn c) → (a.server.conn c).groupTable path = some cp →
    cp.id ≠ 0 ∧ ∀ c' path' cp', Live (a.server.conn c') → (a.server.conn c').groupTable path' = some cp' →
      cp'.id = cp.id → c' = c ∧ path' = path
  closing : ∀ c rest, (a.server.conn c).phase = .closing rest →
    (rest.map Prod.fst).Nodup ∧ ∀ path, (a.held c path : ℤ) = max 0 (due rest path)

theorem inv_init : Inv {} where
  books := ⟨fun _ => rfl, fun _ => rfl, fun _ => rfl, fun _ => Iff.rfl, fun g hg => by cases hg⟩
  place g hg := by cases hg
  ids c path cp h := absurd rfl h.1
  closing c rest h := by cases h

theorem Inv.isolated (h : Inv a) : a.Isolated :=
  ⟨h.books.readers, h.books.writers, fun g hg => (h.place g hg).1⟩

theorem mem_of_held (h : 0 < a.held c path) : ∃ g ∈ a.grants, g.conn = c ∧ g.path = path := by
  obtain ⟨g, hg, ho⟩ := List.countP_pos_iff.1 h
  exact ⟨g, hg, by simpa [own] using ho⟩

/-- A connection changes: it keeps its copies, and makes at most the new one `cp` for `path`. -/
theorem Inv.setConn (h : Inv a) {k : Conn} (path : GroupPath) (cp : Copy)
    (hold : Live (a.server.conn c) → ∀ path' cp', (a.server.conn c).groupTable path' = some cp' →
      k.groupTable path' = some cp')
    (hnew : ∀ path' cp', Live k → k.groupTable path' = some cp' →
      (Live (a.server.conn c) ∧ (a.server.conn c).groupTable path' = some cp') ∨
        path' = path ∧ cp' = cp ∧ Unused a.server cp.id)
    (h0 : ¬ Live k → ∀ path, a.held c path = 0)
    (hc : ∀ rest, k.phase = .closing rest →
      (rest.map Prod.fst).Nodup ∧ ∀ path, (a.held c path : ℤ) = max 0 (due rest path)) :
    Inv { a with server := a.server.setConn c k } where
  books := h.books
  place g hg := by
    by_cases hgc : g.conn = c
    · have hlk : Live k := by
        by_contra hlk
        have := h0 hlk g.path
        rw [held, List.countP_eq_zero] at this
        exact this g hg (by simp [own, hgc])
      obtain ⟨hl, hgt⟩ := h.place g hg
      rw [hgc] at hl hgt
      simp only [Server.setConn, hgc, Function.update_self]
      exact ⟨hlk, hold hl _ _ hgt⟩
    · simp only [Server.setConn, Function.update_of_ne hgc]
      exact h.place g hg
  ids := by
    have hup : ∀ {c' path' cp'}, Live (Function.update a.server.conn c k c') →
        (Function.update a.server.conn c k c').groupTable path' = some cp' →
        (Live (a.server.conn c') ∧ (a.server.conn c').groupTable path' = some cp') ∨
          c' = c ∧ path' = path ∧ cp' = cp ∧ Unused a.server cp.id := by
      intro c' path' cp' hl' hg'
      by_cases hc' : c' = c
      · subst hc'
        rw [Function.update_self] at hl' hg'
        exact (hnew path' cp' hl' hg').imp_right fun hn => ⟨rfl, hn⟩
      · rw [Function.update_of_ne hc'] at hl' hg'
        exact .inl ⟨hl', hg'⟩
    intro c₁ path₁ cp₁ hl₁ hg₁
    rcases hup hl₁ hg₁ with ⟨ho₁, ht₁⟩ | ⟨rfl, rfl, rfl, hu⟩
    · refine ⟨(h.ids c₁ path₁ cp₁ ho₁ ht₁).1, fun c₂ path₂ cp₂ hl₂ hg₂ hid => ?_⟩
      rcases hup hl₂ hg₂ with ⟨ho₂, ht₂⟩ | ⟨rfl, rfl, rfl, hu⟩
      · exact (h.ids c₁ path₁ cp₁ ho₁ ht₁).2 c₂ path₂ cp₂ ho₂ ht₂ hid
      · exact absurd hid.symm (hu.2 c₁ path₁ cp₁ ho₁ ht₁)
    · refine ⟨hu.1, fun c₂ path₂ cp₂ hl₂ hg₂ hid => ?_⟩
      rcases hup hl₂ hg₂ with ⟨ho₂, ht₂⟩ | ⟨rfl, rfl, -, -⟩
      · exact absurd hid (hu.2 c₂ path₂ cp₂ ho₂ ht₂)
      · exact ⟨rfl, rfl⟩
  closing c' rest hr := by
    by_cases hc' : c' = c
    · rw [hc'] at hr ⊢
      exact hc rest (by simpa [Server.setConn] using hr)
    · simp only [Server.setConn, Function.update_of_ne hc'] at hr
      exact h.closing c' rest hr

/-- A connection goes on, with the copies it had. -/
theorem Inv.goto (h : Inv a) {k : Conn} (hk : k.groupTable = (a.server.conn c).groupTable)
    (hl : Live (a.server.conn c)) (h0 : ¬ Live k → ∀ path, a.held c path = 0)
    (hc : ∀ rest, k.phase = .closing rest →
      (rest.map Prod.fst).Nodup ∧ ∀ path, (a.held c path : ℤ) = max 0 (due rest path)) :
    Inv { a with server := a.server.setConn c k } :=
  h.setConn [] ⟨0, 0⟩ (fun _ path' cp' hg => by rw [hk]; exact hg)
    (fun path' cp' _ hg => .inl ⟨hl, by rw [← hk]; exact hg⟩) h0 hc

/-- The same, where the connection stays in its loop. -/
theorem Inv.stay (h : Inv a) {k : Conn} (hk : k.groupTable = (a.server.conn c).groupTable)
    (hl : Live (a.server.conn c)) (hp : Live k) (hc : ∀ rest, k.phase ≠ .closing rest) :
    Inv { a with server := a.server.setConn c k } :=
  h.goto hk hl (fun hn => absurd hp hn) fun rest hr => absurd hr (hc rest)

/-! ## Locks -/

variable {cp : Copy} {w : Bool}

/-- A lock is granted to a connection. -/
theorem Inv.grant (h : Inv a) {f : LckFile} (hl : Live (a.server.conn c))
    (hg : (a.server.conn c).groupTable path = some cp) (hc : ∀ rest, (a.server.conn c).phase ≠ .closing rest)
    (hf : a.server.tryLock cp w = .ok f) :
    Inv { server := a.server.setStore cp.backend f, grants := ⟨c, path, cp, w⟩ :: a.grants } where
  books := h.books.lock (h.ids c path cp hl hg).1 hf
  place g hg' := by
    rcases List.mem_cons.1 hg' with rfl | hg'
    · exact ⟨hl, hg⟩
    · exact h.place g hg'
  ids := h.ids
  closing c' rest hr := by
    have hcc : c' ≠ c := fun hcc => hc rest (hcc ▸ hr)
    obtain ⟨hn, hd⟩ := h.closing c' rest hr
    refine ⟨hn, fun path' => ?_⟩
    rw [← hd path']
    simp [held, own, Ne.symm hcc]

/-- **A lock command** keeps the invariant, with what it enters on the list. -/
theorem Inv.lock (block : Bool) (h : Inv a) (hl : Live (a.server.conn c)) (hg : (a.server.conn c).groupTable path = some cp)
    (hc : ∀ rest, (a.server.conn c).phase ≠ .closing rest) :
    Inv { server := (Server.lock c path cp w block a.server).2,
          grants := if (Server.lock c path cp w block a.server).1 = some .okay then ⟨c, path, cp, w⟩ :: a.grants
            else a.grants } := by
  have hstay : ∀ p : Phase, p ≠ .absent → p ≠ .ended → (∀ rest, p ≠ .closing rest) →
      Inv { a with server := a.server.setConn c ((a.server.conn c).goto p) } := fun p ha he hp =>
    h.stay rfl hl ⟨ha, he⟩ hp
  unfold Server.lock
  cases hf : a.server.tryLock cp w with
  | ok f =>
    have := (h.grant hl hg hc hf).stay (c := c) (k := ((a.server.conn c).count path 1).goto .serving) rfl hl
      ⟨by simp [Conn.goto], by simp [Conn.goto]⟩ (by simp [Conn.goto])
    simpa using this
  | error e =>
    cases e with
    | blocking =>
      cases block with
      | true => simpa using hstay (.waiting path w) (by simp) (by simp) (by simp)
      | false => simpa using hstay .serving (by simp) (by simp) (by simp)
    | closed => simpa using hstay .serving (by simp) (by simp) (by simp)
    | overflow => simpa using hstay .raised (by simp) (by simp) (by simp)

/-- **An unlock** takes one of the connection's own locks off the list, or nothing. -/
theorem Inv.giveBack (h : Inv a) (hl : Live (a.server.conn c)) (hg : (a.server.conn c).groupTable path = some cp)
    (h0 : a.held c path = 0 → (a.server.store cp.backend).readCnt = 0) :
    Books (a.server.unlock cp).store (Grant.giveBack c path a.grants) ∧
      (∀ x ∈ Grant.giveBack c path a.grants, x ∈ a.grants) ∧
      ∀ c' path', (Grant.giveBack c path a.grants).countP (own c' path') =
        a.held c' path' - if c' = c ∧ path' = path then 1 else 0 := by
  have hsub : ∀ x ∈ Grant.giveBack c path a.grants, x ∈ a.grants := fun x hx => List.mem_of_mem_eraseP hx
  -- the lock of whoever writes through this copy is the connection's own
  have hwriter : (a.server.store cp.backend).writeId = cp.id →
      ∃ g ∈ a.grants, g.own c path = true ∧ g.write = true := by
    intro hw
    have hne : (a.server.store cp.backend).writeCnt ≠ 0 := fun hz => by
      have := (h.books.zero cp.backend).2 hz
      exact (h.ids c path cp hl hg).1 (hw.symm.trans this)
    rw [h.books.writers] at hne
    obtain ⟨g, hgm, hgo⟩ := List.countP_pos_iff.1 (Nat.pos_of_ne_zero hne)
    simp only [on, decide_eq_true_eq] at hgo
    obtain ⟨hgl, hgt⟩ := h.place g hgm
    have hid : g.copy.id = cp.id := by
      rw [← (h.books.writer hgm hgo.2).1, hgo.1, hw]
    obtain ⟨hc, hp⟩ := (h.ids c path cp hl hg).2 _ _ _ hgl hgt hid
    exact ⟨g, hgm, by simp [own, hc, hp], hgo.2⟩
  rcases giveBack_cases c path a.grants with ⟨hn, he⟩ | ⟨g, hgm, hgo, hgw, hq⟩
  · refine ⟨?_, hsub, fun c' path' => ?_⟩
    · rw [he]
      refine h.books.unlock_idle (h0 hn) fun hw => ?_
      obtain ⟨x, hx, hxo, -⟩ := hwriter hw
      rw [List.countP_eq_zero] at hn
      exact hn x hx hxo
    · rw [he]
      split
      · rename_i hcp
        rw [hcp.1, hcp.2, held, hn]
      · rfl
  · obtain ⟨hgc, hgp⟩ : g.conn = c ∧ g.path = path := by simpa [own] using hgo
    have hcp : g.copy = cp := by
      have := (h.place g hgm).2
      rw [hgc, hgp, hg] at this
      exact (Option.some.inj this).symm
    refine ⟨?_, hsub, fun c' path' => ?_⟩
    · have := h.books.unlock hgm ?_ hq hsub
      · rw [hcp] at this
        exact this
      · cases hw : g.write with
        | true => exact .inl rfl
        | false =>
          refine .inr fun hid => ?_
          rw [hcp] at hid
          obtain ⟨x, hx, hxo, hxw⟩ := hwriter hid
          simp [hgw hw x hx hxo] at hxw
    · have := hq (own c' path')
      simp only [own, hgc, hgp, decide_eq_true_eq] at this
      simp only [held, @eq_comm _ c', @eq_comm _ path']
      omega

theorem Inv.release (h : Inv a) (hl : Live (a.server.conn c)) (hg : (a.server.conn c).groupTable path = some cp)
    (h0 : a.held c path = 0 → (a.server.store cp.backend).readCnt = 0)
    (hc : ∀ rest, (a.server.conn c).phase ≠ .closing rest) :
    Inv { server := a.server.unlock cp, grants := Grant.giveBack c path a.grants } := by
  obtain ⟨hb, hsub, hheld⟩ := h.giveBack hl hg h0
  refine ⟨hb, fun x hx => h.place x (hsub x hx), h.ids, fun c' rest hr => ?_⟩
  have hcc : c' ≠ c := fun hcc => hc rest (hcc ▸ hr)
  obtain ⟨hn, hd⟩ := h.closing c' rest hr
  refine ⟨hn, fun path' => ?_⟩
  rw [← hd path', held, hheld, if_neg fun hcp => hcc hcp.1, Nat.sub_zero]

/-! ## Steps -/

theorem book_rlock {block : Bool} (a : Audit) (copy : Option Copy) (hcp : a.server.copyOf c path copy = some cp)
    (r : Option JErrCode) : a.book (.request c path (.rlock block) copy) r =
      if r = some .okay then ⟨c, path, cp, false⟩ :: a.grants else a.grants := by
  rcases r with _ | r
  · rfl
  · cases r <;> simp [book, hcp]

theorem book_wlock {block : Bool} (a : Audit) (copy : Option Copy) (hcp : a.server.copyOf c path copy = some cp)
    (r : Option JErrCode) : a.book (.request c path (.wlock block) copy) r =
      if r = some .okay then ⟨c, path, cp, true⟩ :: a.grants else a.grants := by
  rcases r with _ | r
  · rfl
  · cases r <;> simp [book, hcp]

theorem book_wake (a : Audit) (hp : (a.server.conn c).phase = .waiting path w)
    (hg : (a.server.conn c).groupTable path = some cp) (r : Option JErrCode) :
    a.book (.wake c) r = if r = some .okay then ⟨c, path, cp, w⟩ :: a.grants else a.grants := by
  rcases r with _ | r
  · rfl
  · cases r <;> simp [book, hp, hg]

/-- The copy a request is about is there, or it is new. -/
theorem Inv.copyOf (h : Inv a) {cmd : LckCmd} {copy : Option Copy} {k : Conn} (hl : Live (a.server.conn c))
    (hc : ∀ rest, (a.server.conn c).phase ≠ .closing rest)
    (hf : Fresh a.server (.request c path cmd copy)) (hcp : a.server.copyOf c path copy = some cp)
    (hkg : k.groupTable = Function.update (a.server.conn c).groupTable path (some cp))
    (hkp : k.phase = (a.server.conn c).phase) : Inv { a with server := a.server.setConn c k } := by
  have hlk : Live k := by
    unfold Live
    rw [hkp]
    exact hl
  unfold Server.copyOf at hcp
  refine h.setConn path cp (fun _ path' cp' hg => ?_) (fun path' cp' _ hg => ?_) (fun hn => absurd hlk hn)
    fun rest hr => absurd (hkp.symm.trans hr) (hc rest)
  all_goals rw [hkg] at *
  · by_cases hp : path' = path
    · subst hp
      rw [hg] at hcp
      rw [Function.update_self, ← hcp]
    · rw [Function.update_of_ne hp, hg]
  · by_cases hp : path' = path
    · subst hp
      rw [Function.update_self] at hg
      cases hg
      cases ht : (a.server.conn c).groupTable path' with
      | some cp'' =>
        rw [ht] at hcp
        exact .inl ⟨hl, hcp⟩
      | none =>
        rw [ht] at hcp
        cases hcp
        exact .inr ⟨rfl, rfl, hf ht⟩
    · rw [Function.update_of_ne hp] at hg
      exact .inl ⟨hl, hg⟩

/-- A request. -/
theorem Inv.request (h : Inv a) {cmd : LckCmd} {copy : Option Copy} (hp : (a.server.conn c).phase = .serving)
    (hf : Fresh a.server (.request c path cmd copy)) (hr : ¬ a.Rogue (.request c path cmd copy)) :
    Inv { server := (Server.request c path cmd copy a.server).2,
          grants := a.book (.request c path cmd copy) (Server.request c path cmd copy a.server).1 } := by
  have hl : Live (a.server.conn c) := by simp [Live, hp]
  have hc : ∀ rest, (a.server.conn c).phase ≠ .closing rest := by simp [hp]
  unfold Server.request
  cases hcp : a.server.copyOf c path copy with
  | none => cases cmd <;> exact h
  | some cp =>
    obtain ⟨k, hk⟩ : ∃ k : Conn, k = { a.server.conn c with
      groupTable := Function.update (a.server.conn c).groupTable path (some cp) } := ⟨_, rfl⟩
    have h₁ := h.copyOf (k := k) hl hc hf hcp (by rw [hk]) (by rw [hk])
    have hk₁ : (a.server.setConn c k).conn c = k := by simp [Server.setConn]
    have hkp : k.phase = .serving := by rw [hk, hp]
    have hl₁ : Live ((a.server.setConn c k).conn c) := by simp [Live, hkp]
    have hc₁ : ∀ rest, ((a.server.setConn c k).conn c).phase ≠ .closing rest := by simp [hkp]
    have hg₁ : ((a.server.setConn c k).conn c).groupTable path = some cp := by
      rw [hk₁, hk]
      simp
    simp only [← hk]
    cases cmd with
    | rlock block =>
      simp only [book_rlock a copy hcp]
      exact h₁.lock _ hl₁ hg₁ hc₁
    | wlock block =>
      simp only [book_wlock a copy hcp]
      exact h₁.lock _ hl₁ hg₁ hc₁
    | unlock =>
      have h0 : a.held c path = 0 → (a.server.store cp.backend).readCnt = 0 := fun h0 => by
        by_contra hn
        exact hr ⟨h0, cp, hcp, Nat.pos_of_ne_zero hn⟩
      have := (h₁.release hl₁ hg₁ h0 hc₁).stay (c := c) (k := k.count path (-1)) ?_ hl₁ ?_ ?_
      · simp only [hk₁]
        exact this
      · simp [Server.unlock, Server.setStore, Conn.count]
      · simp [Live, Conn.count, hkp]
      · simp [Conn.count, hkp]

theorem due_cons (p : GroupPath) (n : ℤ) (rest : List (GroupPath × ℤ)) (path : GroupPath) :
    due ((p, n) :: rest) path = if p = path then n else due rest path := by
  unfold due
  rw [List.find?_cons]
  split
  · rename_i hp
    rw [decide_eq_true_iff] at hp
    rw [if_pos hp]
    rfl
  · rename_i hp
    rw [decide_eq_false_iff_not] at hp
    rw [if_neg hp]

theorem due_of_not_mem {rest : List (GroupPath × ℤ)} (h : path ∉ rest.map Prod.fst) : due rest path = 0 := by
  unfold due
  rw [List.find?_eq_none.2]
  · rfl
  · intro e he hp
    rw [decide_eq_true_iff] at hp
    exact h (List.mem_map.2 ⟨e, he, hp⟩)

/-- A turn of the `finally`. -/
theorem Inv.teardown (h : Inv a) {rest : List (GroupPath × ℤ)} (hp : (a.server.conn c).phase = .closing rest) :
    Inv { server := Server.teardown c rest a.server, grants := a.book (.teardown c) none } := by
  have hl : Live (a.server.conn c) := by simp [Live, hp]
  obtain ⟨hn, hd⟩ := h.closing c rest hp
  have hbook : a.book (.teardown c) none = match rest with
      | (path, n) :: _ =>
        if 0 < n ∧ ((a.server.conn c).groupTable path).isSome then Grant.giveBack c path a.grants else a.grants
      | [] => a.grants := by
    unfold book
    simp only [hp]
    cases rest <;> rfl
  rw [hbook]
  cases rest with
  | nil =>
    refine h.goto rfl hl (fun _ path => ?_) fun rest hr => by simp [Conn.goto] at hr
    have := hd path
    simpa [due] using this
  | cons e rest =>
    obtain ⟨p, n⟩ := e
    rw [List.map_cons, List.nodup_cons] at hn
    have hskip : a.held c p = 0 → Inv { a with server := a.server.setConn c ((a.server.conn c).goto (.closing rest)) } := by
      intro h0
      refine h.goto rfl hl (fun hnl => absurd ⟨by simp [Conn.goto], by simp [Conn.goto]⟩ hnl) fun rest' hr => ?_
      obtain rfl : rest = rest' := by simpa [Conn.goto] using hr
      refine ⟨hn.2, fun path => ?_⟩
      by_cases hpp : p = path
      · rw [← hpp, h0, due_of_not_mem hn.1]
        rfl
      · rw [hd, due_cons, if_neg hpp]
    have hdp : (a.held c p : ℤ) = max 0 n := by
      rw [hd, due_cons, if_pos rfl]
    unfold Server.teardown
    cases hg : (a.server.conn c).groupTable p with
    | none =>
      have h0 : a.held c p = 0 := by
        by_contra h0
        obtain ⟨g, hgm, rfl, rfl⟩ := mem_of_held (Nat.pos_of_ne_zero h0)
        have := (h.place g hgm).2
        rw [hg] at this
        cases this
      simpa [hg] using hskip h0
    | some cp =>
      by_cases hpos : 0 < n
      · -- out of the `finally` and back: the release is one of a connection in its loop
        obtain ⟨k, hk⟩ : ∃ k, k = (a.server.conn c).goto .serving := ⟨_, rfl⟩
        have hkp : k.phase = .serving := by rw [hk, Conn.goto_phase]
        have hkg : k.groupTable = (a.server.conn c).groupTable := by rw [hk, Conn.goto_groupTable]
        have hlk : Live k := by simp [Live, hkp]
        have h₁ := h.stay hkg hl hlk (by simp [hkp])
        have hl₁ : Live ((a.server.setConn c k).conn c) := by rwa [Server.setConn_self]
        have hg₁ : ((a.server.setConn c k).conn c).groupTable p = some cp := by
          rw [Server.setConn_self, hkg, hg]
        have h0 : held { a with server := a.server.setConn c k } c p = 0 →
            ((a.server.setConn c k).store cp.backend).readCnt = 0 := fun h0 => by
          have : a.held c p = 0 := h0
          omega
        have hheld : ∀ path, (Grant.giveBack c p a.grants).countP (own c path) =
            a.held c path - if c = c ∧ path = p then 1 else 0 := (h₁.giveBack hl₁ hg₁ h0).2.2 c
        have h₂ := h₁.release hl₁ hg₁ h0 (by rw [Server.setConn_self, hkp]; simp)
        have h₃ := h₂.goto (c := c) (k := (a.server.conn c).goto (.closing ((p, n - 1) :: rest))) ?_ hl₁
          (fun hnl => absurd ⟨by simp, by simp⟩ hnl) fun rest' hr => ?_
        · simp only [hg, hpos, Option.isSome_some, and_self, if_true]
          simpa only [Server.unlock_setConn, Server.setConn_setConn] using h₃
        · simp [Server.unlock_setConn, hkg]
        · obtain rfl : (p, n - 1) :: rest = rest' := by simpa using hr
          refine ⟨by rw [List.map_cons, List.nodup_cons]; exact hn, fun path => ?_⟩
          have hdp' := hd path
          rw [due_cons] at hdp' ⊢
          rw [held, hheld]
          by_cases hpp : p = path
          · subst hpp
            simp only [and_self, if_true] at hdp' ⊢
            omega
          · rw [if_neg fun hc => hpp hc.2.symm, if_neg hpp, Nat.sub_zero]
            rwa [if_neg hpp] at hdp'
      · have h0 : a.held c p = 0 := by omega
        simpa [hg, hpos] using hskip h0

/-- **Every step but a rogue one** keeps the invariant. -/
theorem Inv.step (h : Inv a) (hs : a.Step e a') (hr : ¬ a.Rogue e) : Inv a' := by
  obtain ⟨hs, hf⟩ := hs
  obtain ⟨⟨r, s⟩, hstep, rfl⟩ := Option.map_eq_some_iff.1 hs
  cases e with
  | connect c root =>
    simp only [Server.step, Option.ite_none_right_eq_some, Option.some.injEq, Prod.mk.injEq] at hstep
    obtain ⟨hp, rfl, rfl⟩ := hstep
    refine h.setConn [] root (fun hl => absurd hp hl.1) (fun path' cp' _ hg => ?_)
      (fun hn => absurd ⟨by simp, by simp⟩ hn) (by simp)
    dsimp only at hg
    split at hg
    · cases hg
      exact .inr ⟨‹_›, rfl, hf⟩
    · cases hg
  | request c path cmd copy =>
    simp only [Server.step, Option.ite_none_right_eq_some, Option.some.injEq] at hstep
    obtain ⟨hp, hstep⟩ := hstep
    have := h.request hp hf hr
    rw [hstep] at this
    exact this
  | wake c =>
    simp only [Server.step] at hstep
    split at hstep
    · rename_i path write hp
      obtain ⟨cp, hg, hstep⟩ := Option.map_eq_some_iff.1 hstep
      have := h.lock (w := write) true (by simp [Live, hp]) hg (by simp [hp])
      rw [hstep] at this
      simp only [book_wake a hp hg]
      exact this
    · cases hstep
  | hangup c =>
    simp only [Server.step, Option.ite_none_right_eq_some, Option.some.injEq, Prod.mk.injEq] at hstep
    obtain ⟨hp, rfl, rfl⟩ := hstep
    have hl : Live (a.server.conn c) := by rcases hp with hp | hp <;> simp [Live, hp]
    refine h.goto rfl hl (fun hn => absurd ⟨by simp [Conn.goto], by simp [Conn.goto]⟩ hn) fun rest hrest => ?_
    obtain rfl : (a.server.conn c).lockerTable.entries = rest := by simpa [Conn.goto] using hrest
    refine ⟨(a.server.conn c).lockerTable.nodup, fun path => ?_⟩
    by_contra hne
    exact hr ⟨path, hne⟩
  | teardown c =>
    simp only [Server.step] at hstep
    split at hstep
    · rename_i rest hp
      simp only [Option.some.injEq, Prod.mk.injEq] at hstep
      obtain ⟨rfl, rfl⟩ := hstep
      exact h.teardown hp
    · cases hstep

/-- Steps that are not rogue. -/
def Tame (a : Audit) (e : ServerEv) (a' : Audit) : Prop := a.Step e a' ∧ ¬ a.Rogue e

/-- The connection whose thread steps. -/
def actor : ServerEv → ℕ
  | .connect c _ | .request c _ _ _ | .wake c | .hangup c | .teardown c => c

theorem mem_giveBack {gs : List Grant} {g : Grant} (hg : g ∈ gs) (hc : g.conn ≠ c) :
    g ∈ Grant.giveBack c path gs := by
  refine (List.mem_eraseP_of_neg ?_).2 hg
  simp [own, hc]

/-- No step of a connection takes a lock of another off the list. -/
theorem mem_book {r : Option JErrCode} {g : Grant} (hg : g ∈ a.grants) (hc : g.conn ≠ actor e) :
    g ∈ a.book e r := by
  unfold book
  split
  · exact List.mem_append_right _ hg
  · exact List.mem_append_right _ hg
  · exact mem_giveBack hg hc
  · split
    · exact List.mem_append_right _ hg
    · exact hg
  · split
    · split
      · exact mem_giveBack hg hc
      · exact hg
    · exact hg
  · exact hg

/-- **Locks of connections are isolated** through every run without a rogue step: the lock bytes
count what was granted and not given back, by connections that have not ended, and no step of a
connection gives back a lock of another. -/
theorem tame_isolated {tr : List ServerEv} (hr : Runs Tame {} tr a) :
    a.Isolated ∧ ∀ e a', a.Tame e a' →
      a'.Isolated ∧ ∀ g ∈ a.grants, g.conn ≠ actor e → g ∈ a'.grants := by
  have h : Inv a := hr.invariant inv_init fun _ _ _ h hs => h.step hs.1 hs.2
  refine ⟨h.isolated, fun e a' hs => ⟨(h.step hs.1 hs.2).isolated, fun g hg hc => ?_⟩⟩
  obtain ⟨r, -, rfl⟩ := Option.map_eq_some_iff.1 hs.1.1
  exact mem_book hg hc

/-! ## Two connections -/

/-- The state after a step that can be taken. -/
def after (a : Audit) (e : ServerEv) : Audit := (a.next e).getD a

theorem step_after (hs : (a.next e).isSome = true) (hf : Fresh a.server e) : a.Step e (a.after e) := by
  obtain ⟨a', ha⟩ := Option.isSome_iff_exists.1 hs
  refine ⟨?_, hf⟩
  rw [after, ha]
  rfl

/-- A connection to the root backend. -/
def served (id : ℕ) : Conn where
  phase := .serving
  groupTable path := if path = [] then some ⟨0, id⟩ else none

theorem unused_of_served {s : Server} {id c₀ id₀ : ℕ} (h0 : id ≠ 0) (hid : id₀ ≠ id)
    (hs : s.conn = Function.update (fun _ => {}) c₀ (served id₀)) : Unused s id := by
  refine ⟨h0, fun c path cp hl hg => ?_⟩
  rw [hs] at hl hg
  by_cases hc : c = c₀
  · rw [hc, Function.update_self, served] at hg
    dsimp only at hg
    split at hg
    · cases hg
      exact hid
    · cases hg
  · rw [Function.update_of_ne hc] at hl
    exact absurd rfl hl.1

/-- Two connections join, and the first reads. -/
def reads : List ServerEv := [.connect 0 ⟨0, 1⟩, .connect 1 ⟨0, 2⟩, .request 0 [] (.rlock false) none]

def joined : Audit := (after {} (.connect 0 ⟨0, 1⟩)).after (.connect 1 ⟨0, 2⟩)

def read : Audit := joined.after (.request 0 [] (.rlock false) none)

theorem runs_reads : Runs Tame {} reads read := by
  have h₁ : Unused {} 1 := ⟨by decide, fun c path cp hl => absurd rfl hl.1⟩
  have h₂ : Unused (after {} (.connect 0 ⟨0, 1⟩)).server 2 :=
    unused_of_served (by decide) (by decide : (1 : ℕ) ≠ 2) rfl
  exact ((Runs.refl.tail ⟨step_after (by decide) h₁, id⟩).tail ⟨step_after (by decide) h₂, id⟩).tail
    ⟨step_after (by decide) trivial, id⟩

theorem tame_isolated_reads : read.Isolated ∧ (read.server.store 0).readCnt = 1 :=
  ⟨(tame_isolated runs_reads).1, by decide⟩

/-- The second unlocks, and the backend has no reader any more. -/
theorem unlock_takes_another : ∃ a, Runs Step {} (reads ++ [.request 1 [] .unlock none]) a ∧
    a.grants = [⟨0, [], ⟨0, 1⟩, false⟩] ∧ (a.server.store 0).readCnt = 0 ∧ ¬ a.Isolated := by
  have hr := (runs_reads.mono fun _ _ _ h => h.1).tail
    (step_after (e := .request 1 [] .unlock none) (by decide) trivial)
  refine ⟨_, hr, by decide, by decide, fun h => ?_⟩
  have h0 := h.readers 0
  revert h0
  decide

end Audit

end OmniJsonDb
