import Mathlib.Algebra.Group.Nat.Defs
import Mathlib.Tactic.Common

/-!
# The lock bytes of an in-memory store

`JMemFiles` keeps 17 lock bytes that all its copies share: how many readers there are,
which copy writes and how often it has locked. A copy is known by its object id.

* `rlock`, `wlock`: one pass of the loops of `LCK_rlock` and `LCK_wlock`.
* `unlock`: `LCK_unlock`.
-/

namespace OmniJsonDb

/-- `LCK_file`: bytes 0-3, 4-11, 12-15 and 16. -/
structure LckFile where
  readCnt : ℕ := 0
  writeId : ℕ := 0
  writeCnt : ℕ := 0
  removed : Bool := false
  deriving DecidableEq, Repr

/-- What a lock call raises: `BlockingIOError`, the `RuntimeError` of a removed lock file, or
the `OverflowError` of a counter that does not fit its four bytes. -/
inductive LckErr where
  | blocking
  | closed
  | overflow
  deriving DecidableEq, Repr

namespace LckFile

/-- What fits in the four bytes of a counter. -/
def MAX_CNT : ℕ := 2 ^ 32

/-- `LCK_rlock`, one pass of its loop; a call with `block` waits where this one raises
`BlockingIOError`. -/
def rlock (me : ℕ) (f : LckFile) : Except LckErr LckFile :=
  if f.removed then .error .closed
  else if f.writeId = 0 ∨ f.writeId = me then
    if f.readCnt + 1 < MAX_CNT then .ok { f with readCnt := f.readCnt + 1 } else .error .overflow
  else .error .blocking

/-- `LCK_wlock`, one pass of its loop. -/
def wlock (me : ℕ) (f : LckFile) : Except LckErr LckFile :=
  if f.removed then .error .closed
  else if f.writeId = me then
    if f.writeCnt + 1 < MAX_CNT then .ok { f with writeCnt := f.writeCnt + 1 } else .error .overflow
  else if f.readCnt = 0 ∧ f.writeId = 0 then .ok { f with writeId := me, writeCnt := 1 }
  else .error .blocking

/-- `LCK_unlock`. A copy that does not write gives a reader back, its own or not. -/
def unlock (me : ℕ) (f : LckFile) : LckFile :=
  if f.writeId = me then
    { f with
      writeCnt := f.writeCnt - 1
      writeId := if f.writeCnt - 1 = 0 then 0 else f.writeId }
  else { f with readCnt := f.readCnt - 1 }

/-! ## What the calls do -/

variable {me : ℕ} {f f' : LckFile}

/-- Who reads is one more, and no other copy writes. -/
theorem rlock_ok (h : f.rlock me = .ok f') :
    (f.writeId = 0 ∨ f.writeId = me) ∧ f' = { f with readCnt := f.readCnt + 1 } := by
  unfold rlock at h
  split_ifs at h with hr hw hc
  exact ⟨hw, by cases h; rfl⟩

/-- Who writes has locked once more, or is new where nobody read or wrote. -/
theorem wlock_ok (h : f.wlock me = .ok f') :
    (f.writeId = me ∧ f' = { f with writeCnt := f.writeCnt + 1 }) ∨
      (f.writeId ≠ me ∧ f.readCnt = 0 ∧ f.writeId = 0 ∧ f' = { f with writeId := me, writeCnt := 1 }) := by
  unfold wlock at h
  split_ifs at h with hr hw hc hf
  · exact .inl ⟨hw, by cases h; rfl⟩
  · exact .inr ⟨hw, hf.1, hf.2, by cases h; rfl⟩

/-- A copy that does not write yet is told to wait, unless the lock file is gone. -/
theorem wlock_error {e : LckErr} (hr : f.removed = false) (hw : f.writeId ≠ me)
    (h : f.wlock me = .error e) : e = .blocking := by
  unfold wlock at h
  simp only [hr, hw, Bool.false_eq_true, if_false] at h
  split_ifs at h
  cases h
  rfl

end LckFile

end OmniJsonDb
