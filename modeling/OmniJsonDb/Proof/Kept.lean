import OmniJsonDb.Proof.Index

/-!
# Flags that are kept

The flags of a row that neither its value nor its lifetime decides, as a row view beside
the slot.

* `keptView`: slots with these flags.
* `normalFlags_kept`: `write_key` leaves them alone.
-/

namespace OmniJsonDb

/-- The flags that are not derived again whenever a row is written. -/
def KEPT_FLAG_MASK : ℕ := clear KEY_FLAG_MASK REDERIVED_FLAG_MASK

theorem clear_and_of_disjoint {m k : ℕ} (f : ℕ) (h : m &&& k = 0) : clear f m &&& k = f &&& k := by
  refine Nat.eq_of_testBit_eq fun i => ?_
  have hi := congrArg (fun x => Nat.testBit x i) h
  simp only [Nat.testBit_and, Nat.zero_testBit] at hi
  rw [Nat.testBit_and, Nat.testBit_and, testBit_clear]
  cases hm : m.testBit i
  · simp
  · rw [hm] at hi
    simp only [Bool.true_and] at hi
    simp [hi]

theorem and_and_of_sub (f : ℕ) {m k : ℕ} (h : m &&& k = k) : f &&& m &&& k = f &&& k := by
  rw [Nat.and_assoc, h]

/-- **`write_key` keeps the flags** that are not derived. -/
theorem normalFlags_kept (a : KeyArgs) : normalFlags a &&& KEPT_FLAG_MASK = a.flags &&& KEPT_FLAG_MASK := by
  have hg : ∀ b : ℕ, b = GROUP ∨ b = 0 →
      ((a.flags &&& KEY_FLAG_MASK) ||| b) &&& KEPT_FLAG_MASK = a.flags &&& KEPT_FLAG_MASK := by
    intro b hb
    rw [Nat.and_or_distrib_right, and_and_of_sub _ (by decide)]
    rcases hb with rfl | rfl
    · rw [show GROUP &&& KEPT_FLAG_MASK = 0 by decide, Nat.or_zero]
    · rw [Nat.zero_and, Nat.or_zero]
  have hif : (if a.key ≠ [] ∧ a.fileId = 0x10 ∧ a.rowSize = 0 then GROUP else 0) = GROUP ∨
      (if a.key ≠ [] ∧ a.fileId = 0x10 ∧ a.rowSize = 0 then GROUP else 0) = 0 := by
    split
    exacts [.inl rfl, .inr rfl]
  unfold normalFlags
  simp only
  split
  · rw [Nat.and_or_distrib_right, show EXPIRE &&& KEPT_FLAG_MASK = 0 by decide, Nat.or_zero]
    exact hg _ hif
  · rw [clear_and_of_disjoint _ (by decide)]
    exact hg _ hif

/-- A row without its dates and the flags derived from value and lifetime. -/
structure Kept extends Slot where
  flags : ℕ
  deriving DecidableEq

def Row.kept (r : Row) : Kept := ⟨r.toSlot, r.flags &&& KEPT_FLAG_MASK⟩

def keptView : RowView Kept where
  proj r := r.kept
  slot g := g.toSlot
  slot_proj _ := rfl
  fixed _ := True
  fixed_empty := trivial
  normal_fixed _ r _ := by
    unfold Row.kept
    rw [Kept.mk.injEq]
    exact ⟨rfl, normalFlags_kept r.args⟩

variable {cfg : Config}

theorem keeps_fitting_kept : (cfg.refusing (fitting cfg)).Keeps keptView := by
  intro r k n h
  obtain ⟨hd, hf⟩ := refusing_ok h
  have hcore := unpackRow_core (cfg.keyDumps_pack _ _ _ hd)
  refine ⟨of_decide_eq_true hf, ?_, trivial⟩
  exact congrArg (fun c : Core => Kept.mk c.toSlot (c.flags &&& KEPT_FLAG_MASK)) hcore

/-- What a bit of a mask says of a row says it of the view. -/
theorem has_kept {m : ℕ} (r : Row) (h : KEPT_FLAG_MASK &&& m = m) : has r.kept.flags m = has r.flags m := by
  unfold has Row.kept
  rw [and_and_of_sub _ h]

/-- The flags of a row that is written. -/
theorem kept_normal (now sync : ℕ) (a : KeyArgs) : (normal now sync a).kept =
    ⟨⟨a.key, a.fileId, a.offset, a.rowSize, a.valSize, a.ver.getD sync⟩, a.flags &&& KEPT_FLAG_MASK⟩ := by
  unfold Row.kept
  rw [Kept.mk.injEq]
  exact ⟨rfl, normalFlags_kept a⟩

end OmniJsonDb
