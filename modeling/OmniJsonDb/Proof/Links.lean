import OmniJsonDb.Proof.Newest
import OmniJsonDb.Proof.Touched
import OmniJsonDb.Proof.Values

/-!
# Links that never nest

A link's path names a record, and that record should be no link. `set_link` looks at the
path of the new link only; a record may become a link under the paths of others. The paths here
stay in this database: a path into a group is followed there.

* `Flat.touch`: what a change of one record has to respect.
* `flat_of_runs`: after every run that respects it, no path names a link.
* `links_nest`: two calls of `set_link` that nest links.
-/

namespace OmniJsonDb

namespace JDb

variable {cfg : Config} {db db' : JDb} {v v' v'' : DbView Kept} {key k : Key} {flags : ℕ} {env : Env}

open DbView (Effects)

/-! ## Links of a view -/

/-- The record of a key is a link. -/
def Linked (v : DbView Kept) (k : Key) : Prop := ∃ r, v.At k r ∧ has (v.rows r).flags LINK = true

/-- The record of a key is a link, and this its path. -/
def LinkTo (c : ValCodec) (v : DbView Kept) (k path : Key) : Prop :=
  ∃ r, v.At k r ∧ has (v.rows r).flags LINK = true ∧ storedValue c v (v.slot keptView r) = .ok (.str path)

/-- The path enters no group: it has one component. -/
def Direct (path : Key) : Prop := splitPath [] path = none

instance : DecidablePred Direct := fun path => inferInstanceAs (Decidable (splitPath [] path = none))

theorem Direct.pathHead {path : Key} (h : Direct path) : pathHead path = path := by
  unfold JDb.pathHead
  rw [show splitPath [] path = none from h]

/-- No path of a link enters a group, or names a link. -/
def Flat (c : ValCodec) (v : DbView Kept) : Prop := ∀ k path, LinkTo c v k path → Direct path ∧ ¬ Linked v path

variable {c : ValCodec}

theorem LinkTo.linked {path : Key} (h : LinkTo c v k path) : Linked v k := by
  obtain ⟨r, hr, hl, -⟩ := h
  exact ⟨r, hr, hl⟩

theorem linked_at {r : ℕ} (hr : v.At k r) : Linked v k ↔ has (v.rows r).flags LINK = true := by
  constructor
  · rintro ⟨x, hx, hl⟩
    obtain rfl : r = x := Option.some.inj (hr.1.symm.trans hx.1)
    exact hl
  · exact fun hl => ⟨r, hr, hl⟩

theorem linkTo_at {r : ℕ} {path : Key} (hr : v.At k r) : LinkTo c v k path ↔
    has (v.rows r).flags LINK = true ∧ storedValue c v (v.slot keptView r) = .ok (.str path) := by
  constructor
  · rintro ⟨x, hx, hl, hs⟩
    obtain rfl : r = x := Option.some.inj (hr.1.symm.trans hx.1)
    exact ⟨hl, hs⟩
  · exact fun ⟨hl, hs⟩ => ⟨r, hr, hl, hs⟩

theorem not_linked_of_none (h : v.rowOf k = none) : ¬ Linked v k := by
  rintro ⟨r, hr, -⟩
  rw [hr.1] at h
  cases h

/-- A link, as the calls see it. -/
theorem IsLink.linked (h : IsLink keptView k v) : Linked v k := by
  obtain ⟨r, old, hr, hold, hl⟩ := h
  refine ⟨r, hr, ?_⟩
  rw [← hold]
  exact (has_kept old (by decide)).trans hl

/-- What a record that is kept is, and where its path leads. -/
theorem link_of_content (hg : v.Good keptView) (hs : Sized keptView v)
    (hg' : v'.Good keptView) (h : v'.content keptView k = v.content keptView k) :
    (Linked v' k ↔ Linked v k) ∧ ∀ path, LinkTo c v' k path ↔ LinkTo c v k path := by
  cases hr : v.rowOf k with
  | none =>
    have hr' : v'.rowOf k = none := by
      rw [← DbView.content_none (V := keptView), h, DbView.content_none]
      exact hr
    have h₁ := not_linked_of_none hr
    have h₂ := not_linked_of_none hr'
    exact ⟨iff_of_false h₂ h₁, fun path => iff_of_false (fun hl => h₂ hl.linked) fun hl => h₁ hl.linked⟩
  | some r =>
    obtain ⟨r', hr'⟩ : ∃ r', v'.rowOf k = some r' := by
      rw [← Option.ne_none_iff_exists', ne_eq, ← DbView.content_none (V := keptView), h, DbView.content_none, hr]
      exact Option.some_ne_none r
    have hat := hg.keyed.at_ hr
    have hat' := hg'.keyed.at_ hr'
    obtain ⟨hrows, hval⟩ := storedValue_of_content (c := c) hs hg.keyed.le hat hr' h
    refine ⟨?_, fun path => ?_⟩
    · rw [linked_at hat, linked_at hat', hrows]
    · rw [linkTo_at hat, linkTo_at hat', hrows, hval]

/-- The path of a link other than that of `key` is `key`. -/
def Aimed (c : ValCodec) (v : DbView Kept) (key : Key) : Prop := ∃ k, k ≠ key ∧ LinkTo c v k key

/-- The path may be that of the link `key`: it enters no group, and names neither `key` nor a link. -/
def MayAim (v : DbView Kept) (key path : Key) : Prop := Direct path ∧ path ≠ key ∧ ¬ Linked v path

/-- **A change of one record** keeps links from nesting, when it makes a record a link only that
no other link aims at, and its path names no link. -/
theorem Flat.touch (hf : Flat c v) (hg : v.Good keptView) (hs : Sized keptView v) (hg' : v'.Good keptView)
    (hsame : ∀ k, k ≠ key → v'.content keptView k = v.content keptView k)
    (ha : Linked v' key → ¬ Aimed c v key) (hp : ∀ path, LinkTo c v' key path → MayAim v key path) : Flat c v' := by
  intro k path hk
  by_cases hkk : k = key
  · subst hkk
    obtain ⟨hdirect, hne, hn⟩ := hp path hk
    refine ⟨hdirect, ?_⟩
    rw [(link_of_content (c := c) hg hs hg' (hsame _ hne)).1]
    exact hn
  · have hk' : LinkTo c v k path := ((link_of_content hg hs hg' (hsame k hkk)).2 path).1 hk
    obtain ⟨hdirect, hn⟩ := hf k path hk'
    refine ⟨hdirect, ?_⟩
    by_cases hpath : path = key
    · subst hpath
      intro hl
      exact ha hl ⟨k, hkk, hk'⟩
    · rw [(link_of_content (c := c) hg hs hg' (hsame _ hpath)).1]
      exact hn

/-- The record is no link, or the one it was. -/
structure KeepsLink (c : ValCodec) (key : Key) (v v' : DbView Kept) : Prop where
  linked : Linked v' key → Linked v key
  path : ∀ p, LinkTo c v' key p → LinkTo c v key p

theorem KeepsLink.of_plain (h : ¬ Linked v' key) : KeepsLink c key v v' :=
  ⟨fun hl => absurd hl h, fun _ hl => absurd hl.linked h⟩

theorem KeepsLink.trans (h : KeepsLink c key v v') (h' : KeepsLink c key v' v'') : KeepsLink c key v v'' :=
  ⟨fun hl => h.linked (h'.linked hl), fun p hl => h.path p (h'.path p hl)⟩

theorem KeepsLink.of_row {r : ℕ} (hr : v.At key r) (hr' : v'.At key r)
    (hl : has (v'.rows r).flags LINK = has (v.rows r).flags LINK)
    (hs : (v'.slot keptView r).SameValue (v.slot keptView r)) (hv : v'.vals = v.vals) : KeepsLink c key v v' where
  linked := by
    rw [linked_at hr, linked_at hr', hl]
    exact id
  path p := by
    rw [linkTo_at hr, linkTo_at hr', hl, storedValue_congr hs hv]
    exact id

/-- A link that is kept is still flat, and so are all others. -/
theorem Flat.keeps (hf : Flat c v) (hg : v.Good keptView) (hs : Sized keptView v) (hg' : v'.Good keptView)
    (hsame : ∀ k, k ≠ key → v'.content keptView k = v.content keptView k) (hk : KeepsLink c key v v') :
    Flat c v' := by
  refine hf.touch hg hs hg' hsame (fun hl => ?_) fun path hl => ?_
  · rintro ⟨k, -, hkp⟩
    exact (hf k key hkp).2 (hk.linked hl)
  · have hl := hk.path path hl
    obtain ⟨hdirect, hn⟩ := hf key path hl
    refine ⟨hdirect, ?_, hn⟩
    rintro rfl
    exact hn hl.linked

/-! ## The link bit -/

theorem has_link (a : ℕ) : has a LINK = a.testBit 3 := by
  rw [show LINK = 2 ^ 3 by decide, has_eq_testBit]

theorem has_or_link (a b : ℕ) : has (a ||| b) LINK = (has a LINK || has b LINK) := by
  rw [has_link, has_link, has_link, Nat.testBit_or]

theorem has_and_link (a : ℕ) {m : ℕ} (h : m.testBit 3 = true) : has (a &&& m) LINK = has a LINK := by
  rw [has_link, has_link, Nat.testBit_and, h, Bool.and_true]

theorem not_has_and_link (a : ℕ) {m : ℕ} (h : m.testBit 3 = false) : has (a &&& m) LINK = false := by
  rw [has_link, Nat.testBit_and, h, Bool.and_false]

theorem has_ite_link (p : Prop) [Decidable p] (m : ℕ) :
    has (if p then m else 0) LINK = (decide p && has m LINK) := by
  split
  · rename_i h
    rw [decide_eq_true h, Bool.true_and]
  · rename_i h
    rw [decide_eq_false h]
    rfl

theorem not_has_link : has EXPIRE LINK = false ∧ has GROUP LINK = false := by decide

/-- What a caller says is no link stays none. -/
theorem keptFlags_link (newFlags : FlagArg) (old : Row) (ttl : Ttl) :
    has (keptFlags newFlags old ttl) LINK = has old.flags LINK := by
  unfold keptFlags
  rw [has_or_link, has_or_link, not_has_and_link _ (by decide), has_and_link _ (by decide), has_ite_link,
    not_has_link.1, Bool.and_false, Bool.false_or, Bool.or_false]

/-- The flags `f_write` gives an existing record: a link only when it was one, and is not followed. -/
theorem newFlags_link (keyFlags : FlagArg) (transient : ℕ) (old : Row) (ttl : Ttl) (val : PyVal) :
    has (newFlags keyFlags transient old ttl val) LINK = (has transient NO_FOLLOW && has old.flags LINK) := by
  unfold newFlags
  rw [has_or_link, has_or_link, has_or_link, not_has_and_link _ (by decide), has_ite_link, has_ite_link,
    has_ite_link, not_has_link.1, not_has_link.2, has_and_link _ (by decide), Bool.and_false, Bool.and_false,
    Bool.or_false, Bool.or_false, Bool.false_or, Bool.decide_eq_true]

/-- A new record is no link. -/
theorem newMeta_link (val : PyVal) (cdays mdays : Option ℕ) (ttl : TtlArg) (keyFlags : FlagArg) :
    has (newMeta val cdays mdays ttl keyFlags).flags LINK = false := by
  unfold newMeta
  rw [has_or_link, has_or_link, not_has_and_link _ (by decide), has_ite_link, has_ite_link, not_has_link.1,
    not_has_link.2, Bool.and_false, Bool.and_false]
  rfl

/-- The link bit of a row that is written. -/
theorem link_new (w : DbView Kept) (a : KeyArgs) : has (w.new keptView a).flags LINK = has a.flags LINK := by
  change has (normal w.now w.cnt.syncId a).kept.flags LINK = _
  rw [kept_normal]
  exact has_and_link _ (by decide)

theorem Holds.linked_iff {enc : Enc} {m : Meta} {r : ℕ} (h : Holds keptView cfg key enc m v v' r) :
    Linked v' key ↔ has m.flags LINK = true := by
  obtain ⟨w, sp, -, -, hrow⟩ := h.row
  rw [linked_at h.at_, hrow, link_new]
  rfl

theorem Holds.path {enc : Enc} {m : Meta} {r : ℕ} {p : Key} (h : Holds keptView cfg key enc m v v' r)
    (hp : LinkTo cfg.val v' key p) : enc.decode cfg.val = .ok (.str p) := by
  rw [linkTo_at h.at_, h.stored] at hp
  exact hp.2

/-! ## The calls, one by one -/

theorem Reflags.keepsLink {newFlags : FlagArg} {ttl : Option TtlArg} {mdays : Option ℕ} {b : Bool}
    (h : Reflags keptView key newFlags ttl mdays v b v') : KeepsLink c key v v' := by
  cases h with
  | missing => exact ⟨id, fun _ => id⟩
  | same => exact ⟨id, fun _ => id⟩
  | @written row old hrow hold =>
    have hslot := DbView.slot_eq hold
    have hrow' : ((v.put row (v.new keptView (flagArgs key newFlags ttl mdays old))).sync.setTable key row
        (keptFlags newFlags old (givenTtl ttl old))).rows row = v.new keptView (flagArgs key newFlags ttl mdays old) :=
      Function.update_self ..
    refine .of_row hrow ⟨?_, hrow.2⟩ ?_ ?_ rfl
    · rw [DbView.rowOf, DbView.setTable, DbView.rowOf_set, if_pos rfl]
    · rw [hrow', link_new, ← hold]
      exact (keptFlags_link newFlags old _).trans (has_kept old (by decide)).symm
    · rw [hslot]
      unfold DbView.slot
      rw [hrow', DbView.slot_new]
      exact ⟨rfl, rfl, rfl, rfl⟩

theorem Dates.keepsLink {cdate mdate : Option ℕ} {ttl : Option TtlArg} {b : Bool}
    (h : Dates keptView key cdate mdate ttl v b v') : KeepsLink c key v v' := by
  cases h with
  | same => exact ⟨id, fun _ => id⟩
  | @dated row old hrow hold =>
    have hslot := DbView.slot_eq hold
    have hrow' : ∀ f, ((v.put row (v.new keptView (dateArgs key cdate mdate ttl old))).sync.setTable key row f).rows row =
        v.new keptView (dateArgs key cdate mdate ttl old) := fun _ => Function.update_self ..
    refine .of_row hrow ⟨?_, hrow.2⟩ ?_ ?_ rfl
    · rw [DbView.rowOf, DbView.setTable, DbView.rowOf_set, if_pos rfl]
    · rw [hrow', link_new, ← hold]
      exact (has_kept old (by decide)).symm
    · rw [hslot]
      unfold DbView.slot
      rw [hrow', DbView.slot_new]
      exact ⟨rfl, rfl, rfl, rfl⟩

/-- **A record that is written** is no link, or the one it was, or a link with a new path. -/
theorem Writes.link {val : PyVal} {a : WriteArgs} {transient : ℕ} {keyFlags : FlagArg} {b : Bool}
    (hg : v.Keyed keptView) (h : Writes keptView cfg env key val a transient keyFlags flags v b v') :
    KeepsLink cfg.val key v v' ∨ Linked v key ∧ has transient NO_FOLLOW = true ∧
      ∃ s wide enc, val = .str s ∧ encodeRow cfg.val wide cfg.isGroup env.ts key val = .ok enc ∧
        ∀ p, LinkTo cfg.val v' key p → enc.decode cfg.val = .ok (.str p) := by
  cases h with
  | refused => exact .inl ⟨id, fun _ => id⟩
  | @existing row mdays old enc wide checked _ v₁ _ hrow hold hlink _ ht henc ho =>
    obtain ⟨now, -, hnow⟩ := timeOf_clock v transient env a.mdays old (a.ttl.toTtl.getD old.ttl)
    rw [ht] at hnow
    dsimp only at hnow
    subst hnow
    obtain ⟨m, hm⟩ : ∃ m, m = rowMeta val a transient keyFlags old mdays := ⟨_, rfl⟩
    rw [← hm] at ho
    obtain ⟨u, hu⟩ : ∃ u, u = markAs key row m.flags old.flags { v with now := now } := ⟨_, rfl⟩
    rw [← hu] at ho
    -- the flags in the table are no part of a link
    have hrowu : u.At key row := by
      rw [hu]
      exact markAs_at hrow
    have hrows : u.rows = v.rows := by
      rw [hu]
      exact rows_markAs
    have hvals : u.vals = v.vals := by
      rw [hu]
      unfold markAs
      split <;> rfl
    have hmark : KeepsLink cfg.val key v u := by
      refine .of_row hrow hrowu (by rw [hrows]) ?_ hvals
      unfold DbView.slot
      rw [hrows]
      exact ⟨rfl, rfl, rfl, rfl⟩
    have hku : u.Keyed keptView := by
      have hg' : ({ v with now := now } : DbView Kept).Keyed keptView := ⟨hg.le, hg.table⟩
      have hrow' : ({ v with now := now } : DbView Kept).At key row := hrow
      have hmark : Effects keptView cfg key 0 { v with now := now } u := by
        rw [hu]
        exact markAs_effects hrow'
      exact DbView.Effects.keyed hg' hmark
    have hlinked : has (v.rows row).flags LINK = has old.flags LINK := by
      rw [← hold]
      exact has_kept old (by decide)
    cases ho with
    | same _ _ hr =>
      left
      refine hmark.trans ?_
      unfold Renews at hr
      split at hr
      · exact hr.keepsLink
      · rw [hr.2]
        exact ⟨id, fun _ => id⟩
    | stored _ hs =>
      have hne : ∀ data, enc = .value data → data ≠ [] := by
        rintro data rfl
        exact encodeRow_value_ne henc
      have hholds := hs.holds hku hrowu hne
      by_cases hl : has old.flags LINK = true
      · right
        obtain ⟨hfollow, s, hval⟩ := hlink hl
        refine ⟨⟨row, hrow, hlinked.trans hl⟩, hfollow, s, wide, enc, hval, henc, fun p => hholds.path⟩
      · left
        refine .of_plain ?_
        rw [hholds.linked_iff, hm]
        unfold rowMeta
        rw [newFlags_link, Bool.not_eq_true _ |>.mp hl, Bool.and_false]
        exact Bool.false_ne_true
  | new hnew henc ht =>
    left
    refine .of_plain ?_
    rw [(addAt_holds hg ht).linked_iff, newMeta_link]
    exact Bool.false_ne_true

/-- The value `f_write` is given is a path that may be that of the link `key`. -/
def MayRetarget (v : DbView Kept) (key : Key) (val : PyVal) (a : WriteArgs) : Prop :=
  has (popTransientFlags a.keyFlags).1 NO_FOLLOW = true → Linked v key → ∀ path, val = .str path → MayAim v key path

/-- What is kept between two calls. -/
structure FlatGood (c : ValCodec) (v : DbView Kept) : Prop where
  good : v.Good keptView
  sized : Sized keptView v
  flat : Flat c v

theorem Wrote.flat {val : PyVal} {a : WriteArgs} {b : Bool} (hc : cfg.val.Lossless) (h : FlatGood cfg.val v)
    (hw : Wrote keptView cfg env key val a v b v') (ha : MayRetarget v key val a) : FlatGood cfg.val v' := by
  have hg' := Moved.good h.good hw.moved
  have hsame := (hw.leaves h.good).content
  refine ⟨hg', Moved.sized h.good h.sized hw.moved, ?_⟩
  rcases Writes.link h.good.keyed hw with hk | ⟨hl, hfollow, s, wide, enc, hval, henc, hp⟩
  · exact h.flat.keeps h.good h.sized hg' hsame hk
  · have hval₀ : val = .str s := by
      cases val <;> first | cases hval; rfl | cases hval
    rw [hval] at henc
    refine h.flat.touch h.good h.sized hg' hsame (fun _ => ?_) fun path hpath => ?_
    · rintro ⟨k, -, hkp⟩
      exact (h.flat k key hkp).2 hl
    · have := (hp path hpath).symm.trans (encodeRow_str hc henc)
      cases this
      exact ha hfollow hl s hval₀

/-- Behind a link there is no other: its record is written as any other is. -/
theorem WroteLink.flat {val path : PyVal} {a : WriteArgs} {b : Bool} (hc : cfg.val.Lossless)
    (h : FlatGood cfg.val v) (hw : WroteLink keptView cfg env val a path v b v') : FlatGood cfg.val v' := by
  rcases hw with rfl | ⟨name, rfl, hhead, ⟨t, r, info, ht, hrow, hinfo, hl⟩, hw⟩
  · exact h
  · cases ht
    refine hw.flat hc h fun _ hlinked => ?_
    rw [hhead] at hrow
    rw [linked_at hrow, ← hinfo] at hlinked
    exact absurd ((has_kept info (by decide)).symm.trans hlinked) (by rw [hl]; decide)

theorem WroteAny.flat {val : PyVal} {a : WriteArgs} {b : Bool} (hc : cfg.val.Lossless) (h : FlatGood cfg.val v)
    (hw : WroteAny keptView cfg env key val a v b v') (ha : MayRetarget v key val a) : FlatGood cfg.val v' := by
  rcases hw with hw | ⟨path, -, hw⟩
  · exact hw.flat hc h ha
  · exact hw.flat hc h

/-- A change of one record that is no link afterwards, or the one it was. -/
theorem FlatGood.keeps (h : FlatGood c v) (hm : Moved keptView cfg v v')
    (hsame : ∀ k, k ≠ key → v'.content keptView k = v.content keptView k) (hk : KeepsLink c key v v') :
    FlatGood c v' :=
  ⟨Moved.good h.good hm, Moved.sized h.good h.sized hm,
    h.flat.keeps h.good h.sized (Moved.good h.good hm) hsame hk⟩

theorem Appends.flat {val : PyVal} {ttl : TtlArg} {keyFlags : FlagArg} (h : FlatGood cfg.val v)
    (ha : Appends keptView cfg env key val ttl keyFlags v v') : FlatGood cfg.val v' := by
  obtain ⟨wide, enc, -, hholds⟩ := ha.holds
  refine h.keeps (moved_of_effects ha.effects) (fun k hk => ha.effects.content h.good hk) (.of_plain ?_)
  rw [hholds.linked_iff, newMeta_link]
  exact Bool.false_ne_true

theorem Deletes.flat {given : Option ℕ} {d : Deleted} (h : FlatGood c v)
    (hd : Deletes keptView key given flags v d v') : FlatGood c v' := by
  have hm := hd.moved jsonCfg
  cases hd with
  | locked => exact h
  | @gone row old moved val hrow hold hmoved hkey =>
    have hsame : ∀ k, k ≠ old.key → (v.deleteAt keptView old.key row old flags moved.flags).content keptView k =
        v.content keptView k := fun k hk =>
      DbView.content_of_vals rfl (DbView.deleteAt_record h.good.keyed hrow hk)
    refine h.keeps hm hsame (.of_plain (not_linked_of_none ?_))
    rw [DbView.rowOf_deleteAt, if_pos rfl]

/-! ## Undoing and renaming -/

/-- The version in row `d` may be the live one of `key` again: when it is a link, no other link
aims at `key`, and its own path may be that of a link. -/
def MayReturn (c : ValCodec) (v : DbView Kept) (key : Key) (d : ℕ) : Prop :=
  has (v.rows d).flags LINK = true → ¬ Aimed c v key ∧
    ∀ path, storedValue c v (v.slot keptView d) = .ok (.str path) → MayAim v key path

/-- A version that was parked is live again. -/
theorem FlatGood.returns {r d : ℕ} (h : FlatGood c v) (hm : Moved keptView cfg v v')
    (hsame : ∀ k, k ≠ key → v'.content keptView k = v.content keptView k) (hr : v'.At key r)
    (hl : has (v'.rows r).flags LINK = has (v.rows d).flags LINK)
    (hs : (v'.slot keptView r).SameValue (v.slot keptView d)) (hv : v'.vals = v.vals)
    (ha : MayReturn c v key d) : FlatGood c v' := by
  refine ⟨Moved.good h.good hm, Moved.sized h.good h.sized hm, ?_⟩
  refine h.flat.touch h.good h.sized (Moved.good h.good hm) hsame (fun hlinked => ?_) fun path hpath => ?_
  · rw [linked_at hr, hl] at hlinked
    exact (ha hlinked).1
  · rw [linkTo_at hr, hl, storedValue_congr hs hv] at hpath
    exact (ha hpath.1).2 path hpath.2

theorem undoFlags_link (info : Row) (user : ℕ) : has (undoFlags info user) LINK = has user LINK := by
  unfold undoFlags
  rw [has_or_link, has_ite_link, not_has_link.2, Bool.and_false, Bool.or_false]

/-- The versions an undo of `key` may bring back. -/
def Undoable (v : DbView Kept) (key : Key) (row : Option ℕ) (d : ℕ) : Prop :=
  v.cnt.nRecords ≤ d ∧ d < v.cnt.nLines ∧ (v.slot keptView d).key = key ∧ UndoOf keptView key row v d

theorem Undeletes.flat {row : Option ℕ} {o : Option Restored} (h : FlatGood c v)
    (hu : Undeletes keptView key row flags v o v')
    (ha : v.rowOf key = Option.none → ∀ d, Undoable v key row d → MayReturn c v key d) : FlatGood c v' := by
  have hm := moved_of_effects (hu.effects jsonCfg)
  have hsame : ∀ k, k ≠ key → v'.content keptView k = v.content keptView k :=
    fun k hk => (hu.effects jsonCfg).content h.good hk
  cases hu with
  | none => exact h
  | @back d info hname hnew hd hlt hinfo hik hgiven =>
    have hslot := DbView.slot_eq hinfo
    have hkey : (v.slot keptView d).key = key := by
      rw [hslot]
      exact hik
    obtain ⟨w, hw⟩ : ∃ w, w = v.undeleteRoom key flags d := ⟨_, rfl⟩
    have hvals : w.vals = v.vals := by
      rw [hw]
      exact vals_undeleteRoom v flags
    rw [← hw] at hm hsame ⊢
    have hrow := (DbView.rows_undeleteAt keptView key w info
      (undoFlags info (info.flags &&& USER_FLAG_MASK)) w.cnt.nRecords).trans (if_pos rfl)
    refine h.returns (r := w.cnt.nRecords) (d := d) hm hsame ⟨?_, Nat.lt_succ_self _⟩ ?_ ?_ hvals
      (ha hnew d ⟨hd, hlt, hkey, hgiven⟩)
    · simp only [DbView.rowOf, DbView.undeleteAt, DbView.rowOf_set, if_true]
    · rw [hrow, link_new, ← hinfo]
      refine (undoFlags_link _ _).trans ?_
      rw [has_and_link _ (by decide)]
      exact (has_kept info (by decide)).symm
    · rw [hslot]
      unfold DbView.slot
      rw [hrow, DbView.slot_new]
      exact ⟨rfl, rfl, rfl, rfl⟩

theorem Unwrites.flat {row : Option ℕ} {o : Option Restored} (h : FlatGood c v)
    (hu : Unwrites keptView key row v o v')
    (ha : v.rowOf key ≠ Option.none → ∀ d, Undoable v key row d → MayReturn c v key d) : FlatGood c v' := by
  have hm := moved_of_effects (hu.effects jsonCfg 0)
  have hsame : ∀ k, k ≠ key → v'.content keptView k = v.content keptView k :=
    fun k hk => (hu.effects jsonCfg 0).content h.good hk
  cases hu with
  | none => exact h
  | @back r d old info hname hrow hold hlock hd hlt hinfo hik hgiven =>
    have hslot := DbView.slot_eq hinfo
    have hkey : (v.slot keptView d).key = key := by
      rw [hslot]
      exact hik
    have hlive : v.rowOf key ≠ Option.none := by
      rw [hrow.1]
      exact Option.some_ne_none r
    obtain ⟨kf, hkf⟩ : ∃ kf, kf = undoFlags info (clear (old.flags &&& USER_FLAG_MASK) PAYLOAD_FLAG_MASK |||
      (info.flags &&& PAYLOAD_FLAG_MASK)) := ⟨_, rfl⟩
    dsimp only at hm hsame ⊢
    rw [← hkf] at hm hsame ⊢
    have hrow' : ∀ f, ((v.unwriteAt keptView key r d old info kf).setTable key r f).rows r =
        v.new keptView { info.args with key := key, ver := Option.none, flags := kf } := fun f =>
      (DbView.rows_unwriteAt v r).trans (if_pos rfl)
    refine h.returns (r := r) (d := d) hm hsame ⟨?_, hrow.2⟩ ?_ ?_ rfl (ha hlive d ⟨hd, hlt, hkey, hgiven⟩)
    · rw [DbView.rowOf, DbView.setTable, DbView.rowOf_set, if_pos rfl]
    · rw [hrow', link_new, ← hinfo]
      change has kf LINK = _
      rw [hkf, undoFlags_link, has_or_link, has_and_link _ (by decide), has_link (clear _ _), testBit_clear]
      rw [show PAYLOAD_FLAG_MASK.testBit 3 = true by decide, Bool.not_true, Bool.and_false, Bool.false_or]
      exact (has_kept info (by decide)).symm
    · rw [hslot]
      unfold DbView.slot
      rw [hrow', DbView.slot_new]
      exact ⟨rfl, rfl, rfl, rfl⟩

/-- A link may get the name `newKey`: no link aims at it. -/
def MayRename (c : ValCodec) (v : DbView Kept) (key newKey : Key) : Prop := Linked v key → ∀ k, ¬ LinkTo c v k newKey

theorem Renames.flat {newKey : Key} {b : Bool} (h : FlatGood c v) (hr : Renames keptView key newKey v b v')
    (ha : MayRename c v key newKey) : FlatGood c v' := by
  have hm : Moved keptView jsonCfg v v' := hr.moved
  have hg' := Moved.good h.good hm
  refine ⟨hg', Moved.sized h.good h.sized hm, ?_⟩
  have hleaves : Leaves keptView {} _ v v' := hr.leaves h.good
  have hsame := hleaves.content
  cases hr with
  | same => exact h.flat
  | @renamed row old hrow hnew hold =>
    have hne : key ≠ newKey := by
      rintro rfl
      rw [hrow.1] at hnew
      cases hnew
    have hgone : ¬ Linked (v.renameAt keptView key newKey row old) key := by
      refine not_linked_of_none ?_
      simp only [DbView.rowOf, DbView.renameAt, DbView.rowOf_set, DbView.rowOf_pop, hne, if_false, if_true]
    -- the record under its new name
    have hrow' : (v.renameAt keptView key newKey row old).rows row =
        v.new keptView { old.args with key := newKey, ver := none } := Function.update_self ..
    have hat : (v.renameAt keptView key newKey row old).At newKey row := by
      refine ⟨?_, hrow.2⟩
      simp only [DbView.rowOf, DbView.renameAt, DbView.rowOf_set, if_true]
    have hl : has ((v.renameAt keptView key newKey row old).rows row).flags LINK = has (v.rows row).flags LINK := by
      rw [hrow', link_new, ← hold]
      exact (has_kept old (by decide)).symm
    have hs : ((v.renameAt keptView key newKey row old).slot keptView row).SameValue (v.slot keptView row) := by
      rw [DbView.slot_eq hold]
      unfold DbView.slot
      rw [hrow', DbView.slot_new]
      exact ⟨rfl, rfl, rfl, rfl⟩
    have hlinked : Linked (v.renameAt keptView key newKey row old) newKey ↔ Linked v key := by
      rw [linked_at hat, linked_at hrow, hl]
    have hvals : (v.renameAt keptView key newKey row old).vals = v.vals := rfl
    have hpath : ∀ path, LinkTo c (v.renameAt keptView key newKey row old) newKey path ↔ LinkTo c v key path := by
      intro path
      rw [linkTo_at hat, linkTo_at hrow, hl, storedValue_congr hs hvals]
    intro k path hk
    have hk' : ∃ k', LinkTo c v k' path := by
      by_cases h₁ : k = newKey
      · subst h₁
        exact ⟨key, (hpath path).1 hk⟩
      · have h₂ : k ≠ key := by
          rintro rfl
          exact hgone hk.linked
        have hkeep := link_of_content (c := c) h.good h.sized hg' (hsame k fun h' => h'.elim h₂ h₁)
        exact ⟨k, (hkeep.2 path).1 hk⟩
    obtain ⟨k', hk'⟩ := hk'
    obtain ⟨hdirect, hn⟩ := h.flat k' path hk'
    refine ⟨hdirect, ?_⟩
    intro hlk
    by_cases h₁ : path = newKey
    · subst h₁
      exact ha (hlinked.1 hlk) k' hk'
    · have h₂ : path ≠ key := by
        rintro rfl
        exact hgone hlk
      have hkeep := link_of_content (c := c) h.good h.sized hg' (hsame path fun h' => h'.elim h₂ h₁)
      exact hn (hkeep.1.1 hlk)

/-! ## New links -/

/-- A record that is a link already stays the one it is. -/
theorem Relinks.keepsLink (h : Relinks keptView key v v') (hl : Linked v key) : KeepsLink c key v v' := by
  cases h with
  | @link row old hrow hold =>
    have hrow' : ∀ f, (((v.put row (v.new keptView (linkArgs key old))).setTable key row f).sync).rows row =
        v.new keptView (linkArgs key old) := fun _ => Function.update_self ..
    refine .of_row hrow ⟨?_, hrow.2⟩ ?_ ?_ rfl
    · rw [DbView.rowOf, DbView.sync, DbView.setTable, DbView.rowOf_set, if_pos rfl]
    · rw [linked_at hrow] at hl
      rw [hrow', link_new, hl]
      exact (has_or_link _ _).trans (by rw [show has LINK LINK = true by decide, Bool.or_true])
    · rw [DbView.slot_eq hold]
      unfold DbView.slot
      rw [hrow', DbView.slot_new]
      exact ⟨rfl, rfl, rfl, rfl⟩

/-- A record becomes a link: no other link may aim at it, and its own path may be that of a link. -/
theorem Relinks.flat {path : Key} (h : FlatGood c v) (hr : Relinks keptView key v v') (ha : ¬ Aimed c v key)
    (hpath : ∀ r, v.At key r → storedValue c v (v.slot keptView r) = .ok (.str path))
    (hmay : MayAim v key path) : FlatGood c v' := by
  have hm := moved_of_effects (hr.effects jsonCfg 0)
  have hg' := Moved.good h.good hm
  have hsame : ∀ k, k ≠ key → v'.content keptView k = v.content keptView k :=
    fun k hk => (hr.effects jsonCfg 0).content h.good hk
  refine ⟨hg', Moved.sized h.good h.sized hm, h.flat.touch h.good h.sized hg' hsame (fun _ => ha) fun p hp => ?_⟩
  cases hr with
  | @link row old hrow hold =>
    obtain ⟨f, hf⟩ : ∃ f, f = (if old.ttl.pos then (linkArgs key old).flags ||| EXPIRE
      else clear (linkArgs key old).flags EXPIRE) := ⟨_, rfl⟩
    rw [← hf] at hp
    have hat : (((v.put row (v.new keptView (linkArgs key old))).setTable key row f).sync).At key row := by
      refine ⟨?_, hrow.2⟩
      rw [DbView.rowOf, DbView.sync, DbView.setTable, DbView.rowOf_set, if_pos rfl]
    have hs : ((((v.put row (v.new keptView (linkArgs key old))).setTable key row f).sync).slot keptView
        row).SameValue (v.slot keptView row) := by
      have hrow' : (((v.put row (v.new keptView (linkArgs key old))).setTable key row f).sync).rows row =
          v.new keptView (linkArgs key old) := Function.update_self ..
      rw [DbView.slot_eq hold]
      unfold DbView.slot
      rw [hrow', DbView.slot_new]
      exact ⟨rfl, rfl, rfl, rfl⟩
    have hvals : (((v.put row (v.new keptView (linkArgs key old))).setTable key row f).sync).vals = v.vals := rfl
    rw [linkTo_at hat, storedValue_congr hs hvals, hpath row hrow] at hp
    have hp := hp.2
    cases hp
    exact hmay

theorem Aimed.of_content (hg : v.Good keptView) (hs : Sized keptView v) (hg' : v'.Good keptView)
    (hsame : ∀ k, k ≠ key → v'.content keptView k = v.content keptView k) (h : Aimed c v' key) : Aimed c v key := by
  obtain ⟨k, hk, hl⟩ := h
  exact ⟨k, hk, ((link_of_content hg hs hg' (hsame k hk)).2 key).1 hl⟩

/-- The record `key` may become a link with the path `target`; that this names no link is looked at.
A `key` that is a path itself is a call on the database of a group. -/
def MayLink (c : ValCodec) (v : DbView Kept) (key target : Key) : Prop :=
  Direct key ∧ Direct target ∧ target ≠ key ∧ (Linked v key ∨ ¬ Aimed c v key)

theorem Links.flat {target : Key} {b : Bool} (hc : cfg.val.Lossless) (h : FlatGood cfg.val v)
    (hl : Links keptView cfg env key target v b v') (ha : MayLink cfg.val v key target) : FlatGood cfg.val v' := by
  cases hl with
  | same => exact h
  | @write v₁ v₂ _ a _ hleads hd hflags hover hw hr =>
    obtain ⟨-, hdirect, hne, haim⟩ := ha
    have hnot : ¬ Linked v target := by
      obtain ⟨t, r, info, ht, hrow, hinfo, hlink⟩ := hleads
      cases ht
      rw [hdirect.pathHead] at hrow
      rw [linked_at hrow, ← hinfo]
      intro hl
      exact absurd ((has_kept info (by decide)).symm.trans hl) (by rw [hlink]; decide)
    have haim : ¬ Aimed cfg.val v key := by
      rcases haim with hl | haim
      · rintro ⟨k, -, hkp⟩
        exact (h.flat k key hkp).2 hl
      · exact haim
    -- the old link is gone, if there was one
    have hstart : FlatGood cfg.val v₁ ∧ ∀ k, k ≠ key → v₁.content keptView k = v.content keptView k := by
      rcases hd with rfl | ⟨d, hd⟩
      · exact ⟨h, fun _ _ => rfl⟩
      · have hleaves : Leaves keptView env _ v v₁ := hd.leaves h.good
        refine ⟨hd.flat h, fun k hk => hleaves.content k ?_⟩
        rintro (hk' | ⟨-, hk'⟩)
        · exact hk hk'
        · exact hk' rfl
    obtain ⟨h₁, hsame₁⟩ := hstart
    have haim₁ : ¬ Aimed cfg.val v₁ key := fun ha => haim (ha.of_content h.good h.sized h₁.good hsame₁)
    have hnot₁ : ¬ Linked v₁ target := by
      rw [(link_of_content (c := cfg.val) h.good h.sized h₁.good (hsame₁ _ hne)).1]
      exact hnot
    have h₂ : FlatGood cfg.val v₂ := by
      refine hw.flat hc h₁ fun _ _ path hpath => ?_
      cases hpath
      exact ⟨hdirect, hne, hnot₁⟩
    rcases hr with ⟨-, rfl⟩ | ⟨rfl, hr⟩
    · exact h₂
    · rcases hw with hw | ⟨path, hlink, hw⟩
      · -- the path was stored
        obtain ⟨wide, enc, m, u, r, henc, hholds⟩ := Wrote.holds h₁.good.keyed hover hw
        have hsame₂ := (hw.leaves h₁.good).content
        refine Relinks.flat h₂ hr (fun ha => haim₁ (ha.of_content h₁.good h₁.sized h₂.good hsame₂))
          (fun x hx => ?_) ⟨hdirect, hne, ?_⟩
        · obtain rfl : r = x := Option.some.inj (hholds.at_.1.symm.trans hx.1)
          rw [hholds.stored]
          exact encodeRow_str hc henc
        · rw [(link_of_content (c := cfg.val) h₁.good h₁.sized h₂.good (hsame₂ _ hne)).1]
          exact hnot₁
      · -- the link could not be deleted, and what it leads to was written
        have hlinked : Linked v₁ key := hlink.isLink.linked
        have hlinked₂ : Linked v₂ key := by
          rcases hw with rfl | ⟨name, rfl, hhead, ⟨t, x, info, ht, hrow, hinfo, hplain⟩, hw⟩
          · exact hlinked
          · cases ht
            rw [hhead] at hrow
            have hname : key ≠ name := by
              rintro rfl
              rw [linked_at hrow, ← hinfo] at hlinked
              exact absurd ((has_kept info (by decide)).symm.trans hlinked) (by rw [hplain]; decide)
            have hsame₂ := (hw.leaves h₁.good).content key hname
            exact (link_of_content (c := cfg.val) h₁.good h₁.sized h₂.good hsame₂).1.2 hlinked
        exact h₂.keeps (moved_of_effects (hr.effects cfg 0)) (fun k hk => (hr.effects cfg 0).content h₂.good hk)
          (hr.keepsLink hlinked₂)

/-! ## Any call -/

/-- Records are kept, or gone. -/
theorem FlatGood.shrinks (h : FlatGood c v) (hm : Moved keptView cfg v v')
    (hsame : ∀ k, v'.content keptView k = v.content keptView k ∨ v'.rowOf k = none) : FlatGood c v' := by
  have hg' := Moved.good h.good hm
  refine ⟨hg', Moved.sized h.good h.sized hm, fun k path hk => ?_⟩
  have hk' : LinkTo c v k path := by
    rcases hsame k with hs | hn
    · exact ((link_of_content h.good h.sized hg' hs).2 path).1 hk
    · exact absurd hk.linked (not_linked_of_none hn)
  obtain ⟨hdirect, hn⟩ := h.flat k path hk'
  refine ⟨hdirect, ?_⟩
  intro hl
  rcases hsame path with hs | hgone
  · exact hn ((link_of_content (c := c) h.good h.sized hg' hs).1.1 hl)
  · exact not_linked_of_none hgone hl

/-- **Which calls respect the other links**: a path that is stored in place of a link's own, a
version that comes back, a name that is given to a link, a record that becomes one. -/
def Respects (c : ValCodec) (v : DbView Kept) : Call → Prop
  | .write key val a => MayRetarget v key val a
  | .undelete key row _ => v.rowOf key = none → ∀ d, Undoable v key row d → MayReturn c v key d
  | .unwrite key row => v.rowOf key ≠ none → ∀ d, Undoable v key row d → MayReturn c v key d
  | .unmodify key version | .revert key version =>
    ∀ d, FirstVersion keptView key version v d → MayReturn c v key d
  | .rename key newKey => MayRename c v key newKey
  | .setLink key target => MayLink c v key target
  | _ => True

theorem Undoable.eq {d e : ℕ} (h : Undoable v key (some d) e) : e = d := h.2.2.2

/-- **Any call** that respects the other links keeps them from nesting. -/
theorem wp_exec_flat (hk : cfg.Keeps keptView) (hc : cfg.val.Lossless) (h : db.Good keptView cfg)
    (hf : FlatGood cfg.val (db.view keptView)) (env : Env) (l : Call) (hl : l.RowsLive db)
    (ha : Respects cfg.val (db.view keptView) l) :
    Exec.Wp (l.exec cfg env) db
      (fun _ db' => db'.Good keptView cfg ∧ FlatGood cfg.val (db'.view keptView)) (fun _ _ => True) := by
  cases l with
  | opened =>
    refine Exec.wp_map.2 (Exec.wp_mono (wp_openSession h env) ?_ fun _ _ h' => h')
    rintro _ db' ⟨h', hv⟩
    have hm : Moved keptView cfg (db.view keptView) (db'.view keptView) := .single (hv ▸ .session _ _ _ _ _)
    refine ⟨h', hf.shrinks hm fun k => .inl ?_⟩
    rw [hv]
    rfl
  | closed =>
    refine Exec.wp_map.2 (Exec.wp_mono (wp_closeSession hk h env) ?_ fun _ _ h' => h')
    rintro _ db' ⟨h', hm, hd, -⟩
    refine ⟨h', hf.shrinks hm fun k => ?_⟩
    rcases hd.2 k with hs | ⟨hn, -⟩
    · exact .inl (DbView.content_of_vals hd.1.2 hs)
    · exact .inr (DbView.record_none.1 hn)
  | write key val a =>
    refine Exec.wp_map.2 (Exec.wp_mono (wp_fWrite hk h env key val a) ?_ fun _ _ h' => h')
    rintro b db' ⟨h', hw⟩
    exact ⟨h', hw.flat hc hf ha⟩
  | append key val ttl kf =>
    refine Exec.wp_map.2 (Exec.wp_mono (wp_fAppend hk h) ?_ fun _ _ h' => h')
    rintro b db' ⟨h', ⟨-, hv⟩ | ⟨-, happ⟩ | hw⟩
    · exact ⟨h', hv ▸ hf⟩
    · exact ⟨h', happ.flat hf⟩
    · refine ⟨h', hw.flat hc hf fun hfollow => ?_⟩
      unfold appendArgs at hfollow
      rw [popTransientFlags_rest] at hfollow
      exact absurd hfollow (by decide)
  | delete key rv row fl kf =>
    refine Exec.wp_map.2 (Exec.wp_mono (wp_fDelete hk h env key rv row fl kf hl) ?_ fun _ _ _ => trivial)
    rintro d db' ⟨h', hd⟩
    exact ⟨h', hd.flat hf⟩
  | undelete key row fl =>
    refine Exec.wp_map.2 (Exec.wp_mono (wp_fUndelete hk h key row fl) ?_ fun _ _ h' => h')
    rintro o db' ⟨h', hu⟩
    exact ⟨h', hu.flat hf ha⟩
  | unwrite key row =>
    refine Exec.wp_map.2 (Exec.wp_mono (wp_fUnwrite hk h key row) ?_ fun _ _ h' => h')
    rintro o db' ⟨h', hu⟩
    exact ⟨h', hu.flat hf ha⟩
  | rename key newKey =>
    refine Exec.wp_map.2 (Exec.wp_mono (wp_fRename hk h key newKey) ?_ fun _ _ h' => h')
    rintro b db' ⟨h', hr⟩
    exact ⟨h', hr.flat hf ha⟩
  | writeKeyFlags key fl ttl md =>
    refine Exec.wp_map.2 (Exec.wp_mono (wp_fWriteKeyFlags hk h key fl ttl md) ?_ fun _ _ h' => h')
    rintro b db' ⟨h', hr⟩
    have he := hr.effects cfg 0
    exact ⟨h', hf.keeps (moved_of_effects he) (fun k hk => he.content h.index hk) hr.keepsLink⟩
  | setDate key cd md ttl =>
    refine Exec.wp_map.2 (Exec.wp_mono (wp_setDate hk h key cd md ttl) ?_ fun _ _ h' => h')
    rintro b db' ⟨h', hd⟩
    have he := hd.effects cfg 0
    exact ⟨h', hf.keeps (moved_of_effects he) (fun k hk => he.content h.index hk) hd.keepsLink⟩
  | setLink key target =>
    refine Exec.wp_map.2 (Exec.wp_mono (wp_setLink hk h env key target) ?_ fun _ _ h' => h')
    rintro b db' ⟨h', hd⟩
    exact ⟨h', hd.flat hc hf ha⟩
  | unmodify key ver =>
    refine Exec.wp_map.2 (Exec.wp_mono (wp_unmodify hk h key ver) ?_ fun _ _ h' => h')
    rintro o db' ⟨h', hu⟩
    refine ⟨h', ?_⟩
    generalize db.view keptView = v at hf ha hu
    generalize db'.view keptView = v' at hu ⊢
    cases hu with
    | none => exact hf
    | back _ hfirst hu => exact hu.flat hf fun _ e he => he.eq ▸ ha _ hfirst
  | revert key ver =>
    refine Exec.wp_map.2 (Exec.wp_mono (wp_revert hk h key ver) ?_ fun _ _ h' => h')
    rintro o db' ⟨h', hu⟩
    refine ⟨h', ?_⟩
    generalize db.view keptView = v at hf ha hu
    generalize db'.view keptView = v' at hu ⊢
    cases hu with
    | none => exact hf
    | unwrite _ hfirst hu => exact hu.flat hf fun _ e he => he.eq ▸ ha _ hfirst
    | undelete _ hfirst hu => exact hu.flat hf fun _ e he => he.eq ▸ ha _ hfirst
  | read key row kf =>
    refine Exec.wp_map.2 (Exec.wp_mono (wp_fRead h env key row kf hl) ?_ fun _ _ h' => h')
    rintro o db' ⟨h', hlook⟩
    have hm : Moved keptView cfg (db.view keptView) (db'.view keptView) := .single hlook.moves
    refine ⟨h', hf.shrinks hm fun k => .inl ?_⟩
    generalize db.view keptView = v at hlook
    generalize db'.view keptView = v' at hlook
    cases hlook <;> rfl

/-! ## Runs -/

/-- A clean call that respects the other links. -/
def RespectingStep (cfg : Config) (db : JDb) (l : Label) (db' : JDb) : Prop :=
  CleanStep cfg (fitting cfg) db l db' ∧ Respects cfg.val (db.view keptView) l.2

/-- A live link, with the path that is stored as its value. -/
def LinkPath (cfg : Config) (db : JDb) (key path : Key) : Prop :=
  ∃ r, LiveAt db key r ∧ has (db.io.row r).flags LINK = true ∧
    ∃ db', (rowValue cfg (db.io.row r).toCore).run db = (.ok (.str path), db')

/-- **A path that ends at no link**: it names a record that is none, or none at all, and reads as that
record does, as the group that the record is, or as `None`. -/
structure Straight (cfg : Config) (db : JDb) (path : Key) : Prop where
  direct : Direct path
  plain : ∀ r, LiveAt db path r → has (db.io.row r).flags LINK = false
  dangling : (∀ r, ¬ LiveAt db path r) → ∀ env, (fLinkRead cfg env (.str path)).run db = (.ok .none, db)
  found : ∀ r, LiveAt db path r → ∃ info db', (onIo (JIo.readKey r)).run db = (.ok info, db') ∧
    has info.flags LINK = false ∧
    (has info.flags GROUP = false → ∀ env,
      (fLinkRead cfg env (.str path)).run db = (decodeValue cfg env path info.toCore true true).run db') ∧
    (has info.flags GROUP = true → ∀ g db'', (fGetGroup cfg path).run db' = (.ok (some g), db'') → ∀ env,
      (fLinkRead cfg env (.str path)).run db = (.ok g, db''))

theorem LinkPath.linkTo {path : Key} (h : db.Good keptView cfg) (hl : LinkPath cfg db key path) :
    LinkTo cfg.val (db.view keptView) key path := by
  obtain ⟨r, hr, hlink, db', hrun⟩ := hl
  have hat : (db.view keptView).At key r := h.index.keyed.at_ hr
  have hrow : keptView.proj (db.io.row r) = (db.view keptView).rows r := rfl
  have hval := (wp_rowValue h (h.known (h.lt_lines hat.2) hrow)).ok hrun
  exact ⟨r, hat, (has_kept (db.io.row r) (by decide)).trans hlink, hval.2⟩

theorem fLinkStep_str {path : Key} : fLinkStep cfg (.str path) db =
    (match db.io.keyTable.get? (pathHead path) with
      | none => Exec.raise .key
      | some (row, _) =>
        if db.io.cnt.nRecords ≤ row then Exec.raise .key
        else do
          let info ← onIo (JIo.readKey row)
          if has info.flags LINK then Exec.raise .type
          else if has info.flags GROUP then
            match ← fGetGroup cfg (pathHead path) with
            | none => Exec.raise .type
            | some g => pure (if (splitPath [] path).isNone then .group g else .descend g)
          else if (splitPath [] path).isSome then Exec.raise .type
          else pure (.value (pathHead path) info) : DbM LinkStep) db := rfl

section Step

variable {path : Key} {r : ℕ} {info : Row} {db₁ : JDb} (hd : Direct path) (hr : LiveAt db path r)
  (hlt : r < db.io.cnt.nRecords) (hrun : (onIo (JIo.readKey r)).run db = (.ok info, db₁))
  (hlink : has info.flags LINK = false)

include hd hr hlt hrun hlink

/-- The step to a live record, behind its row. -/
theorem fLinkStep_live : (fLinkStep cfg (.str path)).run db = Exec.run
    (if has info.flags GROUP then fGetGroup cfg path >>= fun o => o.elim (Exec.raise .type) fun g => pure (.group g)
      else pure (.value path info) : DbM LinkStep) db₁ := by
  have hsplit : splitPath [] path = none := hd
  obtain ⟨⟨r', f⟩, hget, hr'⟩ := Option.map_eq_some_iff.1 hr
  have hr' : r' = r := hr'
  subst hr'
  rw [← hd.pathHead] at hget
  have hlive : ¬ db.io.cnt.nRecords ≤ r' := Nat.not_le_of_lt hlt
  change fLinkStep cfg (.str path) db = _
  rw [fLinkStep_str, hget]
  change (if db.io.cnt.nRecords ≤ r' then _ else _ : DbM LinkStep) db = _
  rw [if_neg hlive]
  change Exec.bind (onIo (JIo.readKey r')) _ db = _
  unfold Exec.bind
  rw [show onIo (JIo.readKey r') db = _ from hrun]
  simp only [hlink, hsplit, hd.pathHead, Bool.false_eq_true, if_false, Option.isSome_none, Option.isNone_none, if_true]
  refine congrFun (if_congr Iff.rfl (congrArg (Exec.bind (fGetGroup cfg path)) (funext fun o => ?_)) rfl) db₁
  cases o <;> rfl

/-- A record that is no group. -/
theorem fLinkStep_value (hgroup : has info.flags GROUP = false) :
    fLinkStep cfg (.str path) db = (.ok (.value path info), db₁) := by
  have hstep : (fLinkStep cfg (.str path)).run db = _ := fLinkStep_live hd hr hlt hrun hlink
  rw [hgroup, if_neg Bool.false_ne_true] at hstep
  exact hstep

/-- A group. -/
theorem fLinkStep_group (hgroup : has info.flags GROUP = true) {g : PyVal} {db₂ : JDb}
    (hg : (fGetGroup cfg path).run db₁ = (.ok (some g), db₂)) : fLinkStep cfg (.str path) db = (.ok (.group g), db₂) := by
  have hstep : (fLinkStep cfg (.str path)).run db = _ := fLinkStep_live hd hr hlt hrun hlink
  rw [hgroup, if_pos rfl] at hstep
  refine hstep.trans ?_
  change Exec.bind (fGetGroup cfg path) _ db₁ = _
  unfold Exec.bind
  rw [show fGetGroup cfg path db₁ = _ from hg]
  rfl

end Step

theorem Straight.of_flat {path : Key} (h : db.Good keptView cfg) (hd : Direct path)
    (hn : ¬ Linked (db.view keptView) path) : Straight cfg db path := by
  have hplain : ∀ r, LiveAt db path r → ∀ info, keptView.proj info = (db.view keptView).rows r →
      has info.flags LINK = false := by
    intro r hr info hinfo
    have hat : (db.view keptView).At path r := h.index.keyed.at_ hr
    rw [linked_at hat, ← hinfo, Bool.not_eq_true] at hn
    rw [← has_kept info (by decide)]
    exact hn
  refine ⟨hd, fun r hr => hplain r hr _ rfl, fun hnone env => ?_, fun r hr => ?_⟩
  · -- no record, no error but that of a dangling link
    have hget : db.io.keyTable.get? (JDb.pathHead path) = none := by
      rw [hd.pathHead]
      cases hg : db.io.keyTable.get? path with
      | none => rfl
      | some x => exact absurd (congrArg (Option.map Prod.fst) hg) (hnone x.1)
    have hstep : fLinkStep cfg (.str path) db = (.error .key, db) := by
      rw [fLinkStep_str, hget]
      rfl
    simp only [Exec.run, fLinkRead, hstep]
  · have hat : (db.view keptView).At path r := h.index.keyed.at_ hr
    have hread := wp_readKey h r
    cases hrun : (onIo (JIo.readKey r)).run db with
    | mk o db₁ =>
      cases o with
      | error e => exact absurd (h.lt_lines hat.2) (Nat.not_lt.2 (hread.error hrun).2.1)
      | ok info =>
        have hlink := hplain r hr info (hread.ok hrun).1.1
        refine ⟨info, db₁, rfl, hlink, ?_, ?_⟩
        · intro hgroup env
          have hstep : fLinkStep cfg (.str path) db = _ := fLinkStep_value hd hr hat.2 hrun hlink hgroup
          have hdecode : decodeValue cfg env path info.toCore true true = decodeHere cfg path info.toCore true := by
            unfold decodeValue
            rw [hlink, Bool.false_and, if_neg Bool.false_ne_true]
          simp only [Exec.run, fLinkRead, hstep, hdecode]
        · intro hgroup g db₂ hg env
          have hstep := fLinkStep_group hd hr hat.2 hrun hlink hgroup hg
          simp only [Exec.run, fLinkRead, hstep]

/-- **Links do not nest**: after every run of clean calls that respect the other links, the path
of every live link names no link, and a read through it never meets one. -/
theorem flat_of_runs (hc : cfg.val.Lossless) {tr : List Label}
    (hr : Runs (RespectingStep cfg) (JDb.init cfg) tr db) {path : Key} (hl : LinkPath cfg db key path) :
    Straight cfg db path := by
  have hk : (cfg.refusing (fitting cfg)).Keeps keptView := keeps_fitting_kept
  have hinv : db.Good keptView (cfg.refusing (fitting cfg)) ∧ FlatGood cfg.val (db.view keptView) := by
    refine hr.invariant (P := fun db => db.Good keptView (cfg.refusing (fitting cfg)) ∧
      FlatGood cfg.val (db.view keptView)) ⟨good_init _ _, ⟨(good_init keptView cfg).index, ?_, ?_⟩⟩ ?_
    · exact fun r hr => absurd hr (Nat.not_lt_zero _)
    · rintro k path ⟨r, hr, -⟩
      exact absurd hr.2 (Nat.not_lt_zero _)
    · rintro db l db' ⟨hg, hf⟩ ⟨hs, ha⟩
      obtain ⟨ret, hrun⟩ := hs.step.accepted hs.accepted
      exact (wp_exec_flat hk hc hg hf l.1 l.2 hs.live ha).ok hrun
  obtain ⟨hg, hf⟩ := hinv
  have hlink : LinkPath (cfg.refusing (fitting cfg)) db key path := hl
  have hto : LinkTo (cfg.refusing (fitting cfg)).val (db.view keptView) key path := hlink.linkTo hg
  obtain ⟨hdirect, hn⟩ := hf.flat key path hto
  have hstraight : Straight (cfg.refusing (fitting cfg)) db path := .of_flat hg hdirect hn
  exact ⟨hdirect, hstraight.plain, hstraight.dangling, hstraight.found⟩

/-- A character that JSON text holds as it is. -/
def plainChar (c : Char) : Bool := 32 ≤ c.toNat && c.toNat < 127 && c ≠ '"' && c ≠ '\\'

/-- The codec of plain strings, which takes no other. -/
def plainVal : ValCodec where
  dumps
    | .str s => if s.all plainChar then .ok (jsonStr s) else .error .type
    | _ => .error .type
  dumps_ne v b h := by
    split at h
    · split at h
      · cases h
        simp [jsonStr]
      · cases h
    · cases h
  loads := strVal.loads
  noZip := true
  gz := false
  zip _ b := b
  zip_ne _ _ h := h
  unzip b := .ok b
  unzipPad b := .ok b
  padByte := 10
  pad0Byte := 10

theorem ofNat_plainChar {x : Char} (h : plainChar x = true) : Char.ofNat (UInt8.ofNat x.toNat).toNat = x := by
  unfold plainChar at h
  simp only [Bool.and_eq_true, decide_eq_true_eq] at h
  have hlt : x.toNat % 256 = x.toNat := Nat.mod_eq_of_lt (by omega)
  rw [UInt8.toNat_ofNat', show 2 ^ 8 = 256 by decide, hlt, Char.ofNat_toNat]

theorem plainVal_lossless : plainVal.Lossless where
  loads s data h := by
    unfold plainVal at h
    simp only at h
    split at h
    · rename_i hs
      cases h
      have hmap : (s.map fun x => Char.ofNat (UInt8.ofNat x.toNat).toNat) = s := by
        rw [List.map_congr_left fun x hx => ofNat_plainChar (List.all_eq_true.1 hs x hx)]
        exact List.map_id _
      unfold plainVal strVal jsonStr
      simp only [List.cons_append, List.drop_succ_cons, List.drop_zero, List.dropLast_concat, List.map_map]
      exact congrArg (fun t => Except.ok (PyVal.str t)) hmap
    · cases h
  unzip _ _ := rfl

def plainCfg : Config := { jsonCfg with val := plainVal }

def setLinkCall (key target : Key) : Label := ({}, .setLink key target)

/-- A record, and a link to it. -/
def linkCalls : List Label :=
  [({}, .opened), writeCall ['B'] (.int 5) 0, setLinkCall ['A'] ['B']]

/-- There are no links yet, and this call makes one at most. -/
def noLinks (db : JDb) (l : Label) : Bool :=
  ((List.range db.io.nRecords).all fun r => !has (db.io.row r).flags LINK) &&
    match l.2 with
    | .opened => true
    | .write _ _ a => !has (popTransientFlags a.keyFlags).1 NO_FOLLOW
    | .setLink key target => Direct key && (Direct target && target ≠ key)
    | _ => false

theorem respects_noLinks (db : JDb) (l : Label) (h : noLinks db l = true) :
    Respects plainCfg.val (db.view keptView) l.2 := by
  unfold noLinks at h
  rw [Bool.and_eq_true] at h
  obtain ⟨hnone, h⟩ := h
  have haim : ∀ key, ¬ Aimed plainCfg.val (db.view keptView) key := by
    rintro key ⟨k, -, r, hr, hl, -⟩
    have := List.all_eq_true.1 hnone r (List.mem_range.2 hr.2)
    have hl : has (db.io.row r).flags LINK = true := (has_kept (db.io.row r) (by decide)).symm.trans hl
    rw [hl] at this
    cases this
  obtain ⟨env, c⟩ := l
  cases c with
  | opened => trivial
  | write key val a =>
    intro hfollow
    simp only [hfollow, Bool.not_true, Bool.false_eq_true] at h
  | setLink key target =>
    rw [Bool.and_eq_true, Bool.and_eq_true, decide_eq_true_eq, decide_eq_true_eq, decide_eq_true_eq] at h
    exact ⟨h.1, h.2.1, h.2.2, .inr (haim key)⟩
  | _ => exact absurd h Bool.false_ne_true

/-- Does a read give this text? -/
def readsText (t : Key) : Except Err PyVal × JDb → Bool
  | (.ok (.str t'), _) => t' = t
  | _ => false

theorem eq_of_readsText {t : Key} {x : Except Err PyVal × JDb} (h : readsText t x = true) :
    ∃ db, x = (.ok (.str t), db) := by
  unfold readsText at h
  split at h
  · rename_i t' db
    obtain rfl := of_decide_eq_true h
    exact ⟨db, rfl⟩
  · cases h

theorem flat_plain : ∃ db, Runs (RespectingStep plainCfg) (JDb.init plainCfg) linkCalls db ∧
    LinkPath plainCfg db ['A'] ['B'] ∧ Straight plainCfg db ['B'] := by
  obtain ⟨db, hr, h⟩ := exists_checkedRuns plainCfg (JDb.init plainCfg) (fitting plainCfg) respects_noLinks linkCalls
    (P := fun db => decide ((db.io.keyTable.get? ['A']).map Prod.fst = some 1) && has (db.io.row 1).flags LINK &&
      readsText ['B'] ((rowValue plainCfg (db.io.row 1).toCore).run db)) (by decide) (by decide +kernel)
  simp only [Bool.and_eq_true, decide_eq_true_eq] at h
  obtain ⟨⟨ha, hl⟩, hpath⟩ := h
  have hpath : LinkPath plainCfg db ['A'] ['B'] := ⟨1, ha, hl, eq_of_readsText hpath⟩
  exact ⟨db, hr, hpath, flat_of_runs plainVal_lossless hr hpath⟩

/-- **Links that nest**: a record that is the target of a link becomes a link itself. -/
theorem links_nest : ∃ db, Runs (Step jsonCfg) (JDb.init jsonCfg)
    [({}, .opened), writeCall ['A'] (.int 1) 0, writeCall ['B'] (.int 2) 0, writeCall ['C'] (.int 3) 0,
      setLinkCall ['A'] ['B'], setLinkCall ['B'] ['C']] db ∧
    LinkPath jsonCfg db ['A'] ['B'] ∧ LiveAt db ['B'] 1 ∧ has (db.io.row 1).flags LINK = true ∧
    ∃ db', (fRead jsonCfg {} ['A'] none .none).run db = (.error .type, db') := by
  obtain ⟨db, hr, h⟩ := exists_runs jsonCfg (JDb.init jsonCfg)
    [({}, .opened), writeCall ['A'] (.int 1) 0, writeCall ['B'] (.int 2) 0, writeCall ['C'] (.int 3) 0,
      setLinkCall ['A'] ['B'], setLinkCall ['B'] ['C']]
    (P := fun db => decide ((db.io.keyTable.get? ['A']).map Prod.fst = some 0 ∧
        (db.io.keyTable.get? ['B']).map Prod.fst = some 1) && has (db.io.row 0).flags LINK &&
      has (db.io.row 1).flags LINK &&
      readsText ['B'] ((rowValue jsonCfg (db.io.row 0).toCore).run db) &&
      decide (Exec.raised ((fRead jsonCfg {} ['A'] none .none).run db) = some .type)) (by decide +kernel)
  simp only [Bool.and_eq_true, decide_eq_true_eq] at h
  obtain ⟨⟨⟨⟨⟨ha, hb⟩, hla⟩, hlb⟩, hpath⟩, hread⟩ := h
  exact ⟨db, hr, ⟨0, ha, hla, eq_of_readsText hpath⟩, hb, hlb, Exec.eq_of_raised hread⟩

end JDb

end OmniJsonDb
