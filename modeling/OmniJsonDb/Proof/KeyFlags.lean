import Mathlib.Tactic.Ring
import OmniJsonDb.Model.KeyFlags

/-!
# Flags of group records

A call on `'group:::name'` looks into the group for what would change, and then calls the group with
its own arguments, so that the group computes the same once more. All arguments are handed on but
`no_delete`.

* `newFlags_eq_iff`: when `no_delete` makes no difference to the flags of a record.
* `RoutedAs`: the two ways to a record of a group agree.
* `routedAs_iff`: just when the call changes nothing, or the group is read and `no_delete` makes no
  difference.
-/

namespace OmniJsonDb

open JDb (givenTtl keptFlags ttlArg)

/-! ## Lifetimes that were normalised -/

theorem roundSecs_minutes (m : ℕ) : roundSecs (m * 60000000) = m * 60 := by
  have hdiv : m * 60000000 = m * 60 * 1000000 := by ring
  unfold roundSecs
  rw [hdiv, Nat.mul_div_cancel _ (by decide), Nat.mul_mod_left]
  simp

/-- A lifetime that was normalised keeps its length when it is handed on. -/
theorem ttlArg_len {t : TtlArg} {u : Ttl} (h : t.toTtl = some u) : ((ttlArg u).toTtl.getD (.days 0)).len = u.len := by
  have hdays : ∀ n, n ≤ MAX_TTL_DAYS → ((ttlArg (.days n)).toTtl.getD (.days 0)).len = (Ttl.days n).len := by
    intro n hn
    have hneg : ¬ (n : ℤ) < 0 := by omega
    simp only [ttlArg, TtlArg.toTtl, hneg, if_false, Int.toNat_natCast, Option.getD_some, min_eq_left hn]
  cases t with
  | int n =>
    rw [TtlArg.toTtl] at h
    split at h
    · cases h
    · obtain rfl := Option.some.inj h
      exact hdays _ (min_le_right _ _)
  | span micros =>
    rw [TtlArg.toTtl, convTtl] at h
    split at h
    · cases h
    · split at h
      · obtain rfl := Option.some.inj h
        exact hdays 0 (Nat.zero_le _)
      · dsimp only at h
        split at h
        · rename_i hsecs
          obtain ⟨secs, hs⟩ : ∃ secs, secs = max 1 (roundSecs micros.toNat) := ⟨_, rfl⟩
          rw [← hs] at h hsecs
          have hpos : 1 ≤ secs := hs ▸ le_max_left _ _
          obtain ⟨m, hm⟩ : ∃ m, m = (secs + 59) / 60 := ⟨_, rfl⟩
          have hm₁ : 1 ≤ m := by omega
          have hm₂ : m ≤ 1440 := by unfold DAY_SEC at hsecs; omega
          have hmin : min m MAX_TTL_MINS = m := min_eq_left (by unfold MAX_TTL_MINS; omega)
          rw [← hm, hmin] at h
          obtain rfl := Option.some.inj h
          have hneg : ¬ (m : ℤ) * 60000000 < 0 := by omega
          have hzero : ¬ (m : ℤ) * 60000000 = 0 := by omega
          have hnat : ((m : ℤ) * 60000000).toNat = m * 60000000 := by omega
          have hmax : max 1 (m * 60) = m * 60 := max_eq_right (by omega)
          simp only [ttlArg, TtlArg.toTtl, convTtl, hneg, hzero, if_false, hnat, roundSecs_minutes, hmax]
          -- a whole day of minutes comes back as a day
          split
          · have hback : (m * 60 + 59) / 60 = m := by omega
            rw [hback, hmin]
            rfl
          · have hday : m = 1440 := by unfold DAY_SEC at *; omega
            rw [hday]
            decide
        · obtain rfl := Option.some.inj h
          exact hdays _ (min_le_right _ _)

/-! ## Bits -/

theorem testBit_writable (i : ℕ) :
    WRITABLE_FLAG_MASK.testBit i = (KEY_FLAG_MASK.testBit i && !DERIVED_FLAG_MASK.testBit i) :=
  testBit_clear KEY_FLAG_MASK DERIVED_FLAG_MASK i

/-- The expire bit is not for a caller to write. -/
theorem testBit_expire {i : ℕ} (h : EXPIRE.testBit i = true) : WRITABLE_FLAG_MASK.testBit i = false := by
  have hderived : DERIVED_FLAG_MASK.testBit i = true := by
    unfold DERIVED_FLAG_MASK
    rw [Nat.testBit_or, h, Bool.or_true]
  rw [testBit_writable, hderived, Bool.not_true, Bool.and_false]

/-- Flags that are recorded have no other bits. -/
theorem testBit_flags {f i : ℕ} (hf : f ≤ KEY_FLAG_MASK) (h : KEY_FLAG_MASK.testBit i = false) : f.testBit i = false := by
  have hi : 16 ≤ i := by
    by_contra hlt
    have hone : KEY_FLAG_MASK = 2 ^ 16 - 1 := rfl
    rw [hone, Nat.testBit_two_pow_sub_one] at h
    simp at h
    omega
  refine Nat.testBit_lt_two_pow ?_
  calc f ≤ KEY_FLAG_MASK := hf
    _ < 2 ^ 16 := by decide
    _ ≤ 2 ^ i := Nat.pow_le_pow_right (by decide) hi

namespace FlagChange

variable {a : FlagChange} {old : ℕ}

theorem testBit_newFlags (i : ℕ) : (a.newFlags old).testBit i =
    (((old.testBit i || a.masks.1.testBit i) && !a.masks.2.testBit i) && WRITABLE_FLAG_MASK.testBit i ||
      old.testBit i && DERIVED_FLAG_MASK.testBit i) := by
  unfold newFlags
  rw [Nat.testBit_or, Nat.testBit_and, Nat.testBit_and, testBit_clear, Nat.testBit_or]

/-- What a call makes of the flags is told by the bits it may write. -/
theorem newFlags_eq_of_and {b : FlagChange}
    (h : a.newFlags old &&& WRITABLE_FLAG_MASK = b.newFlags old &&& WRITABLE_FLAG_MASK) :
    a.newFlags old = b.newFlags old := by
  refine Nat.eq_of_testBit_eq fun i => ?_
  have hi := congrArg (fun x => x.testBit i) h
  simp only [Nat.testBit_and, testBit_newFlags] at hi ⊢
  cases hw : WRITABLE_FLAG_MASK.testBit i with
  | false => simp
  | true => simpa [hw] using hi

/-- The bit for a lifetime does not touch the others. -/
theorem withExpire_and (kf : ℕ) (p : Bool) : (if p then kf ||| EXPIRE else clear kf EXPIRE) &&& WRITABLE_FLAG_MASK =
    kf &&& WRITABLE_FLAG_MASK := by
  refine Nat.eq_of_testBit_eq fun i => ?_
  rw [Nat.testBit_and, Nat.testBit_and]
  cases he : EXPIRE.testBit i with
  | true => rw [testBit_expire he, Bool.and_false, Bool.and_false]
  | false =>
    cases p with
    | true => rw [if_pos rfl, Nat.testBit_or, he, Bool.or_false]
    | false => rw [if_neg (by simp), testBit_clear, he, Bool.not_false, Bool.and_true]

/-! ## Masks -/

/-- `no_delete` on its own. -/
def deleteMasks (want : Option Bool) : ℕ × ℕ := addWant (0, 0) (want, NO_DELETE)

theorem addWant_or (m d : ℕ × ℕ) (w : Option Bool × ℕ) :
    addWant (m.1 ||| d.1, m.2 ||| d.2) w = ((addWant m w).1 ||| d.1, (addWant m w).2 ||| d.2) := by
  obtain ⟨want, bit⟩ := w
  match want with
  | none => rfl
  | some true => exact Prod.ext (Nat.or_right_comm ..) rfl
  | some false => exact Prod.ext rfl (Nat.or_right_comm ..)

theorem foldl_addWant_or (ws : List (Option Bool × ℕ)) (m d : ℕ × ℕ) :
    ws.foldl addWant (m.1 ||| d.1, m.2 ||| d.2) =
      ((ws.foldl addWant m).1 ||| d.1, (ws.foldl addWant m).2 ||| d.2) := by
  induction ws generalizing m with
  | nil => rfl
  | cons w ws ih => rw [List.foldl_cons, List.foldl_cons, addWant_or, ih]

theorem addWant_delete (m : ℕ × ℕ) (want : Option Bool) :
    addWant m (want, NO_DELETE) = (m.1 ||| (deleteMasks want).1, m.2 ||| (deleteMasks want).2) := by
  match want with
  | none => exact Prod.ext (Nat.or_zero _).symm (Nat.or_zero _).symm
  | some true =>
    refine Prod.ext ?_ (Nat.or_zero _).symm
    exact congrArg (m.1 ||| ·) (Nat.zero_or _).symm
  | some false =>
    refine Prod.ext (Nat.or_zero _).symm ?_
    exact congrArg (m.2 ||| ·) (Nat.zero_or _).symm

/-- The keywords before and after `no_delete`. -/
theorem masks_split (a : FlagChange) : ∃ before after, a.masks =
      List.foldl addWant (addWant (List.foldl addWant a.flagMasks before) (a.noDelete, NO_DELETE)) after ∧
    { a with noDelete := none }.masks = List.foldl addWant (List.foldl addWant a.flagMasks before) after :=
  ⟨[(a.readOnly, READ_ONLY), (a.appendOnly, APPEND_ONLY), (a.noCache, NO_CACHE), (a.noRevert, NO_REVERT)],
    [(a.hidden, HIDDEN), (a.user0, USER0), (a.user1, USER1), (a.user2, USER2), (a.user3, USER3),
      (a.ttl.map TtlArg.truthy, EXPIRE)], rfl, rfl⟩

/-- The masks of a call are those without `no_delete`, and its own. -/
theorem masks_eq (a : FlagChange) : a.masks = ({ a with noDelete := none }.masks.1 ||| (deleteMasks a.noDelete).1,
    { a with noDelete := none }.masks.2 ||| (deleteMasks a.noDelete).2) := by
  obtain ⟨before, after, h, h'⟩ := a.masks_split
  rw [h, h', addWant_delete, foldl_addWant_or]

/-- Setting or clearing nothing leaves flags and lifetime as they are. -/
theorem change_of_masks {r : Row} (hr : r.flags ≤ KEY_FLAG_MASK) (h : a.masks = (0, 0)) : a.change r = none := by
  have hexp : EXPIRE ≠ 0 := by decide
  have httl : a.ttl = none := by
    -- a lifetime always sets or clears its bit
    obtain ⟨m, hm⟩ : ∃ m, a.masks = addWant m (a.ttl.map TtlArg.truthy, EXPIRE) := ⟨_, rfl⟩
    rw [hm] at h
    cases ht : a.ttl with
    | none => rfl
    | some t =>
      rw [ht, Option.map_some] at h
      cases htr : t.truthy with
      | true =>
        rw [htr] at h
        exact absurd (Nat.or_eq_zero_iff.1 (Prod.ext_iff.1 h).1).2 hexp
      | false =>
        rw [htr] at h
        exact absurd (Nat.or_eq_zero_iff.1 (Prod.ext_iff.1 h).2).2 hexp
  have hflags : a.newFlags r.flags = r.flags := by
    refine Nat.eq_of_testBit_eq fun i => ?_
    rw [testBit_newFlags, h, testBit_writable]
    cases hk : KEY_FLAG_MASK.testBit i with
    | false => simp [testBit_flags hr hk]
    | true => cases hd : DERIVED_FLAG_MASK.testBit i <;> simp
  unfold change
  rw [httl, hflags]
  simp [givenTtl]

/-! ## `no_delete` -/

/-- `no_delete` is left out, or its bit comes to the same without it. -/
def NoDeleteMoot (a : FlagChange) (old : ℕ) : Prop :=
  ∀ want, a.noDelete = some want →
    has { a with noDelete := none }.masks.2 NO_DELETE = true ∨
      has (old ||| { a with noDelete := none }.masks.1) NO_DELETE = want

theorem testBit_delete (i : ℕ) : NO_DELETE.testBit i = decide (i = 8) := by
  have h8 : NO_DELETE = 2 ^ 8 := rfl
  rw [h8, Nat.testBit_two_pow]
  exact decide_eq_decide.2 eq_comm

/-- **`no_delete` makes no difference** to the flags of a record just when it is moot. -/
theorem newFlags_eq_iff (a : FlagChange) (old : ℕ) :
    { a with noDelete := none }.newFlags old = a.newFlags old ↔ a.NoDeleteMoot old := by
  have hbit : ∀ x, has x NO_DELETE = x.testBit 8 := fun x => has_eq_testBit (i := 8)
  have hw : WRITABLE_FLAG_MASK.testBit 8 = true := by decide
  have hd : DERIVED_FLAG_MASK.testBit 8 = false := by decide
  have hmasks := a.masks_eq
  obtain ⟨m, hm⟩ : ∃ m, { a with noDelete := none }.masks = m := ⟨_, rfl⟩
  have h8 : { a with noDelete := none }.newFlags old = a.newFlags old ↔
      ((old.testBit 8 || m.1.testBit 8) && !m.2.testBit 8) =
        ((old.testBit 8 || a.masks.1.testBit 8) && !a.masks.2.testBit 8) := by
    constructor
    · intro h
      have := congrArg (fun x => x.testBit 8) h
      simpa [testBit_newFlags, hw, hd, hm] using this
    · intro h
      refine Nat.eq_of_testBit_eq fun i => ?_
      rw [testBit_newFlags, testBit_newFlags, hm]
      by_cases hi : i = 8
      · rw [hi, h]
      · have hno : ∀ w, (deleteMasks w).1.testBit i = false ∧ (deleteMasks w).2.testBit i = false := by
          intro w
          match w with
          | none => simp [deleteMasks, addWant]
          | some true => simp [deleteMasks, addWant, testBit_delete, hi]
          | some false => simp [deleteMasks, addWant, testBit_delete, hi]
        rw [hmasks, hm, Nat.testBit_or, Nat.testBit_or, (hno _).1, (hno _).2, Bool.or_false, Bool.or_false]
  rw [h8, hmasks, hm, Nat.testBit_or, Nat.testBit_or]
  unfold NoDeleteMoot
  rw [hm, hbit, hbit, Nat.testBit_or]
  have ht : NO_DELETE.testBit 8 = true := by decide
  match a.noDelete with
  | none => simp [deleteMasks, addWant]
  | some want =>
    cases old.testBit 8 <;> cases m.1.testBit 8 <;> cases m.2.testBit 8 <;> cases want <;>
      simp [deleteMasks, addWant, ht]

end FlagChange

/-! ## One record -/

/-- Flags that are the same once they are recorded were the same before. -/
theorem FlagChange.newFlags_of_kept {a : FlagChange} {r : Row} {p : Bool} {u : Ttl} (hr : r.flags ≤ KEY_FLAG_MASK)
    (h : r.flags = keptFlags (.int (if p then a.newFlags r.flags ||| EXPIRE else clear (a.newFlags r.flags) EXPIRE)) r u) :
    a.newFlags r.flags = r.flags := by
  have hbit : ∀ i, DERIVED_FLAG_MASK.testBit i = false → (if u.pos then EXPIRE else 0).testBit i = false := by
    intro i hd
    unfold DERIVED_FLAG_MASK at hd
    rw [Nat.testBit_or, Bool.or_eq_false_iff] at hd
    split
    · exact hd.2
    · exact Nat.zero_testBit i
  unfold keptFlags at h
  simp only [FlagArg.apply, withExpire_and] at h
  refine Nat.eq_of_testBit_eq fun i => ?_
  have hi := congrArg (fun x => x.testBit i) h
  simp only [Nat.testBit_or, Nat.testBit_and] at hi
  cases hk : KEY_FLAG_MASK.testBit i with
  | false => simp [testBit_newFlags, testBit_writable, hk, testBit_flags hr hk]
  | true =>
    cases hd : DERIVED_FLAG_MASK.testBit i with
    | true => simp [testBit_newFlags, testBit_writable, hk, hd]
    | false =>
      rw [hbit i hd, testBit_writable, hk, hd] at hi
      simpa using hi.symm

/-- A lifetime that is given and is the one a record has once it is recorded was so before. -/
theorem givenTtl_len {arg : Option TtlArg} {r : Row}
    (h : (givenTtl (some (ttlArg (givenTtl arg r))) r).len = r.ttl.len) : r.ttl.len = (givenTtl arg r).len := by
  cases arg with
  | none => rfl
  | some t =>
    rw [← h]
    cases ht : t.toTtl with
    | none =>
      simp only [givenTtl, ht, Option.getD_none]
      rfl
    | some u =>
      simp only [givenTtl, ht, Option.getD_some]
      exact ttlArg_len ht

namespace RowTable

variable {t : RowTable} {n : Key} {r : Row}

/-- **A change that is asked for is made.** -/
theorem writeKeyFlags_change {a : FlagChange} {c : ℕ × Ttl} (hr : t.get? n = some r) (h : a.change r = some c) :
    (t.writeKeyFlags n c.1 c.2).1 = true := by
  have hsmall := t.flags_le n r hr
  unfold FlagChange.change at h
  dsimp only at h
  by_cases hchg : a.newFlags r.flags ≠ r.flags ∨ r.ttl.len ≠ (givenTtl a.ttl r).len
  · rw [if_pos hchg] at h
    obtain rfl := Option.some.inj h
    unfold writeKeyFlags
    rw [hr]
    dsimp only
    rw [if_pos]
    by_contra hsame
    push Not at hsame
    exact hchg.elim (fun hne => hne (FlagChange.newFlags_of_kept hsmall hsame.1)) fun hne => hne (givenTtl_len hsame.2)
  · rw [if_neg hchg] at h
    cases h

end RowTable

namespace FlagChange

variable {a : FlagChange} {child : RowTable} {n : Key} {r : Row} {c : ℕ × Ttl}

theorem pending_one (n : Key) : a.pending child [n] =
    ((child.get? n).bind fun r => (a.change r).map fun c => (n, c)).toList := by
  unfold pending
  have hdup : [n].eraseDups = [n] := rfl
  rw [hdup]
  cases hr : child.get? n with
  | none => simp [hr]
  | some r =>
    have hkey : r.key = n := child.key_eq n r hr
    cases hc : a.change r with
    | none => simp [hr, hc]
    | some c => simp [hr, hc, hkey]

/-- A call that changes nothing. -/
def Idle (a : FlagChange) (child : RowTable) (n : Key) : Prop := ∀ r, child.get? n = some r → a.change r = none

theorem setKeyFlags_idle (h : a.Idle child n) : a.setKeyFlags [n] child = ([], child) := by
  unfold setKeyFlags
  have hnil : a.pending child [n] = [] := by
    rw [pending_one]
    cases hr : child.get? n with
    | none => rfl
    | some r => simp [h r hr]
  rw [hnil]
  exact ite_self _

theorem setKeyFlags_change (hr : child.get? n = some r) (hc : a.change r = some c) :
    a.setKeyFlags [n] child = ([(n, c)], (child.writeKeyFlags n c.1 c.2).2) := by
  have hmasks : a.masks ≠ (0, 0) := by
    intro hm
    rw [change_of_masks (child.flags_le n r hr) hm] at hc
    cases hc
  have hpend : a.pending child [n] = [(n, c)] := by
    rw [pending_one, hr]
    simp [hc]
  have hwrite := RowTable.writeKeyFlags_change hr hc
  unfold setKeyFlags
  rw [if_neg hmasks, hpend]
  obtain ⟨kf, ttl⟩ := c
  simp only [writeAll]
  rcases hw : child.writeKeyFlags n kf ttl with ⟨done, t⟩
  rw [hw] at hwrite
  obtain rfl : done = true := hwrite
  rfl

/-- Without `no_delete` the same comes of it just when it is moot. -/
theorem change_eq_iff (hc : a.change r = some c) :
    { a with noDelete := none }.change r = some c ↔ a.NoDeleteMoot r.flags := by
  rw [← newFlags_eq_iff]
  unfold change at hc ⊢
  dsimp only at hc ⊢
  by_cases hchg : a.newFlags r.flags ≠ r.flags ∨ r.ttl.len ≠ (givenTtl a.ttl r).len
  · rw [if_pos hchg] at hc
    obtain rfl := Option.some.inj hc
    constructor
    · intro h
      split at h
      · have hand := congrArg (fun x => x &&& WRITABLE_FLAG_MASK) (Prod.ext_iff.1 (Option.some.inj h)).1
        simp only [withExpire_and] at hand
        exact newFlags_eq_of_and hand
      · cases h
    · intro h
      rw [h, if_pos hchg]
  · rw [if_neg hchg] at hc
    cases hc

end FlagChange

/-! ## The two ways -/

/-- A call on `'g:::n'` does to the record what the call on the group does, and reports the same. -/
structure RoutedAs (h : GroupHost) (child : RowTable) (a : FlagChange) (g n : Key) : Prop where
  record : ∃ child', (h.setKeyFlags a g n).2.group? g = some child' ∧
    child'.get? n = (a.setKeyFlags [n] child).2.get? n
  report : (h.setKeyFlags a g n).1 = (a.setKeyFlags [n] child).1.map fun x => (g ++ JDb.SEP_SYM ++ x.1, x.2)

variable {h : GroupHost} {child : RowTable} {a : FlagChange} {g n : Key} {r : Row} {c : ℕ × Ttl}

theorem GroupHost.setKeyFlags_idle (hg : h.group? g = some child) (hidle : a.Idle child n) :
    h.setKeyFlags a g n = ([], h) := by
  have hnil : a.pending child [n] = [] := by
    rw [FlagChange.pending_one]
    cases hr : child.get? n with
    | none => rfl
    | some r => simp [hidle r hr]
  unfold setKeyFlags
  rw [hg]
  dsimp only
  rw [hnil]
  exact ite_self _

theorem GroupHost.group_set {t : RowTable} (hg : h.group? g = some child) :
    { h with groups := h.groups.set g t }.group? g = some t := by
  unfold group? at hg ⊢
  dsimp only
  split at hg
  · cases hg
  · rename_i row hrow
    split at hg
    · rename_i hgroup
      rw [if_pos hgroup, OrdDict.get?_set, if_pos rfl]
    · cases hg

theorem GroupHost.setKeyFlags_change (hg : h.group? g = some child) (hr : child.get? n = some r)
    (hc : a.change r = some c) :
    h.setKeyFlags a g n = if h.reads g then
      let ret := { a with noDelete := none }.setKeyFlags [n] child
      (ret.1.map fun x => (g ++ JDb.SEP_SYM ++ x.1, x.2), { h with groups := h.groups.set g ret.2 })
    else ([], h) := by
  have hmasks : a.masks ≠ (0, 0) := by
    intro hm
    rw [FlagChange.change_of_masks (child.flags_le n r hr) hm] at hc
    cases hc
  have hpend : a.pending child [n] = [(n, c)] := by
    rw [FlagChange.pending_one, hr]
    simp [hc]
  unfold setKeyFlags
  rw [if_neg hmasks, hg]
  dsimp only
  rw [hpend]
  rfl

/-- **A call on a record of a group is a call on the group** just when it changes nothing, or the group is
read and `no_delete` makes no difference. -/
theorem routedAs_iff (h : GroupHost) (child : RowTable) (a : FlagChange) (g n : Key) (hg : h.group? g = some child) :
    RoutedAs h child a g n ↔
      a.Idle child n ∨ h.reads g = true ∧ ∀ r, child.get? n = some r → a.NoDeleteMoot r.flags := by
  by_cases hidle : a.Idle child n
  · refine iff_of_true ⟨⟨child, ?_, ?_⟩, ?_⟩ (.inl hidle)
    · rw [GroupHost.setKeyFlags_idle hg hidle]
      exact hg
    · rw [FlagChange.setKeyFlags_idle hidle]
    · rw [GroupHost.setKeyFlags_idle hg hidle, FlagChange.setKeyFlags_idle hidle]
      rfl
  · rw [or_iff_right hidle]
    obtain ⟨r, hr, hne⟩ : ∃ r, child.get? n = some r ∧ a.change r ≠ none := by
      unfold FlagChange.Idle at hidle
      push Not at hidle
      exact hidle
    obtain ⟨c, hc⟩ := Option.ne_none_iff_exists'.1 hne
    have hdirect := FlagChange.setKeyFlags_change hr hc
    have hroute := GroupHost.setKeyFlags_change hg hr hc
    have hmoot : (∀ r, child.get? n = some r → a.NoDeleteMoot r.flags) ↔ a.NoDeleteMoot r.flags := by
      constructor
      · exact fun hall => hall r hr
      · intro hm r' hr'
        obtain rfl := Option.some.inj (hr.symm.trans hr')
        exact hm
    rw [hmoot, ← FlagChange.change_eq_iff hc]
    constructor
    · intro hagree
      have hrep := hagree.report
      rw [hroute, hdirect] at hrep
      by_cases hread : h.reads g = true
      · refine ⟨hread, ?_⟩
        rw [if_pos hread] at hrep
        cases hc' : { a with noDelete := none }.change r with
        | none =>
          have hidle' : { a with noDelete := none }.Idle child n := by
            intro r' hr'
            obtain rfl := Option.some.inj (hr.symm.trans hr')
            exact hc'
          rw [FlagChange.setKeyFlags_idle hidle'] at hrep
          cases hrep
        | some c' =>
          rw [FlagChange.setKeyFlags_change hr hc'] at hrep
          simp only [List.map_cons, List.map_nil, List.cons.injEq, Prod.mk.injEq, and_true, true_and] at hrep
          rw [hrep]
      · rw [if_neg hread] at hrep
        cases hrep
    · intro hgood
      have hchild := FlagChange.setKeyFlags_change hr hgood.2
      rw [if_pos hgood.1, hchild] at hroute
      refine ⟨⟨_, ?_, rfl⟩, ?_⟩
      · rw [hroute, hdirect]
        exact GroupHost.group_set hg
      · rw [hroute, hdirect]

/-- A record without flags, in a group of its own. -/
def plainRow (name : String) (flags : ℕ) : Row where
  key := name.toList
  fileId := 0
  offset := 0
  rowSize := 0
  valSize := 1
  ver := 1
  flags := flags
  cdays := 7000
  mdays := 7000 * MIN_OF_DAY
  ttl := .days 0

def RowTable.empty : RowTable := ⟨OrdDict.empty, by simp, by simp⟩

def oneRecord : RowTable := RowTable.empty.put (plainRow "n" 0).args

def oneGroup : GroupHost where
  own := RowTable.empty.put (plainRow "g" GROUP).args
  groups := OrdDict.empty.set "g".toList oneRecord
  now := 0
  live := 0

/-- Hiding a record of a group. -/
theorem routedAs_hidden : RoutedAs oneGroup oneRecord { hidden := some true } "g".toList "n".toList :=
  (routedAs_iff oneGroup oneRecord { hidden := some true } "g".toList "n".toList rfl).2
    (.inr ⟨rfl, fun _ _ _ h => by cases h⟩)

/-- Protecting a record of a group from deletion does nothing. -/
theorem routedAs_noDelete : oneGroup.group? "g".toList = some oneRecord ∧
    (oneGroup.setKeyFlags { noDelete := some true } "g".toList "n".toList).1 = [] ∧
    (FlagChange.setKeyFlags { noDelete := some true } ["n".toList] oneRecord).1 = [("n".toList, NO_DELETE, .days 0)] ∧
    ¬ RoutedAs oneGroup oneRecord { noDelete := some true } "g".toList "n".toList := by
  have hroute : (oneGroup.setKeyFlags { noDelete := some true } "g".toList "n".toList).1 = [] := by decide
  have hdirect : (FlagChange.setKeyFlags { noDelete := some true } ["n".toList] oneRecord).1 =
      [("n".toList, NO_DELETE, .days 0)] := by decide
  refine ⟨rfl, hroute, hdirect, ?_⟩
  intro h
  have hrep := h.report
  rw [hroute, hdirect] at hrep
  cases hrep

end OmniJsonDb
