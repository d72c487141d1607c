import Mathlib.Tactic.Common
import OmniJsonDb.Lib.Lockstep
import OmniJsonDb.Model.JBytesIO

/-!
# A stream in memory does what `io.BytesIO` does

Both are compared call by call, at the same buffer and the same position.

* `exec_alike`: the calls that both answer alike, leaving the same behind.
* `refines_iff`: a sequence of calls is answered alike just when each of them is of that kind.
-/

namespace OmniJsonDb

open Lockstep

/-- Past so many bytes from the position a line ends, and another one begins. -/
def BytesIO.LineEnds (t : BytesIO) (n : ℕ) : Prop :=
  t.pos + n < t.buf.length ∧ t.buf[t.pos + n - 1]? = some NEWLINE

/-- Where a seek leads. -/
def BytesIO.target (t : BytesIO) (offset : ℤ) : Whence → ℤ
  | .SEEK_SET => offset
  | .SEEK_CUR => t.pos + offset
  | .SEEK_END => t.buf.length + offset

/-- **What both do alike.** Integers fit `Py_ssize_t`; `readlines` does not come to a line's end just
where its hint is reached; a relative seek leads neither before the buffer nor past what fits. -/
def StreamCall.Meets (c : StreamCall) (t : BytesIO) : Prop :=
  match c with
  | .read size | .readline size | .truncate size => SizeFits size
  | .readlines hint => SizeFits hint ∧ ∀ n : ℕ, hint = some (n : ℤ) → 0 < n → ¬ t.LineEnds n
  | .seek offset whence => FitsSsize offset ∧
      (whence ≠ .SEEK_SET → 0 ≤ t.target offset whence ∧ t.target offset whence ≤ SSIZE_MAX)
  | .readinto _ | .write _ | .writelines _ | .tell => True

namespace JBytesIO

/-- The same stream as an `io.BytesIO`. -/
def plain (s : JBytesIO) : BytesIO := ⟨s.buf, s.idx⟩

variable {s : JBytesIO}

/-! ## Lines -/

theorem byteSlice_add (b : Bytes) (start n : ℕ) : byteSlice b start (start + n) = (b.drop start).take n := by
  unfold byteSlice
  rw [List.drop_take, Nat.add_sub_cancel_left]

/-- How many bytes there are up to `endIdx`. -/
theorem endIdx_eq (h : s.idx < s.buf.length) (size : Option ℤ) :
    s.endIdx size = s.idx + (if size.getD (-1) < 0 ∨ (s.buf.length - s.idx : ℕ) < size.getD (-1)
      then s.buf.length - s.idx else (size.getD (-1)).toNat) := by
  unfold endIdx
  cases size with
  | none =>
    rw [Option.getD_none, if_pos (.inl (by decide))]
    dsimp only
    omega
  | some n =>
    rw [Option.getD_some]
    dsimp only
    split <;> split <;> omega

theorem scanEol_of_lt (h : s.idx < s.buf.length) (size : Option ℤ) :
    s.plain.scanEol (size.getD (-1)) =
      (((s.buf.drop s.idx).take (s.endIdx size - s.idx)).idxOf? NEWLINE).elim (s.endIdx size - s.idx) (· + 1) := by
  rw [endIdx_eq h size, Nat.add_sub_cancel_left]
  unfold BytesIO.scanEol
  rw [if_neg (by exact not_le.2 h)]
  rfl

theorem readline_plain (size : Option ℤ) : (s.readline size).map id plain = s.plain.readline size := by
  unfold readline BytesIO.readline
  split
  · rename_i h
    have hscan : s.plain.scanEol (size.getD (-1)) = 0 := if_pos h
    rw [hscan]
    simp [ BytesIO.readBytes, plain]
  · rename_i h
    have hlt : s.idx < s.buf.length := by omega
    have hend := endIdx_eq hlt size
    rw [scanEol_of_lt hlt]
    set m := s.endIdx size - s.idx with hm
    have hstop : s.endIdx size = s.idx + m := by omega
    unfold findNewline
    dsimp only
    rw [hstop, byteSlice_add]
    cases hfind : ((s.buf.drop s.idx).take m).idxOf? NEWLINE with
    | none => simp [ BytesIO.readBytes, plain]
    | some i =>
      have hi : i < m := by
        have := (List.findIdx?_eq_some_iff_getElem.1 hfind).1
        simp at this
        omega
      have hnext : min (s.idx + m) (s.idx + i + 1) = s.idx + (i + 1) := by omega
      simp [ BytesIO.readBytes, plain, byteSlice_add, hnext]

/-! ## Lines to the end -/

theorem scanEol_eq (t : BytesIO) : t.scanEol (-1) = if t.buf.length ≤ t.pos then 0 else
    ((t.buf.drop t.pos).idxOf? NEWLINE).elim (t.buf.length - t.pos) (· + 1) := by
  have htake : (t.buf.drop t.pos).take (t.buf.length - t.pos) = t.buf.drop t.pos :=
    List.take_of_length_le (by simp)
  simp [ BytesIO.scanEol, htake]

/-- **A line**: no newline but the last byte, which is one unless the buffer ends there. -/
theorem scanEol_spec {t : BytesIO} (h : t.pos < t.buf.length) :
    0 < t.scanEol (-1) ∧ t.pos + t.scanEol (-1) ≤ t.buf.length ∧
      (∀ i, i + 1 < t.scanEol (-1) → t.buf[t.pos + i]? ≠ some NEWLINE) ∧
      (t.pos + t.scanEol (-1) < t.buf.length → t.buf[t.pos + t.scanEol (-1) - 1]? = some NEWLINE) := by
  rw [scanEol_eq, if_neg (by omega)]
  cases hfind : (t.buf.drop t.pos).idxOf? NEWLINE with
  | none =>
    rw [Option.elim_none]
    refine ⟨by omega, by omega, fun i _ hi => ?_, fun hlt => by omega⟩
    rw [← List.getElem?_drop] at hi
    have hnot := List.findIdx?_eq_none_iff.1 hfind _ (List.mem_of_getElem? hi)
    simp at hnot
  | some i =>
    rw [Option.elim_some]
    obtain ⟨hi, hnew, hbefore⟩ := List.findIdx?_eq_some_iff_getElem.1 hfind
    have hlen : i < t.buf.length - t.pos := by simpa using hi
    refine ⟨by omega, by omega, fun j hj => ?_, fun _ => ?_⟩
    · have hj : j < i := by omega
      have hne := hbefore j hj
      rw [← List.getElem?_drop, List.getElem?_eq_getElem (hj.trans hi)]
      simpa using hne
    · have hlast : t.pos + (i + 1) - 1 = t.pos + i := by omega
      rw [hlast, ← List.getElem?_drop, List.getElem?_eq_getElem hi]
      simpa using hnew

theorem scanEol_le (t : BytesIO) : t.scanEol (-1) ≤ t.buf.length - t.pos := by
  by_cases h : t.pos < t.buf.length
  · have hle := (scanEol_spec h).2.1
    omega
  · rw [scanEol_eq, if_pos (by omega)]
    exact Nat.zero_le _

/-- The stream after the next `n` bytes. -/
def skip (s : JBytesIO) (n : ℕ) : JBytesIO := ⟨s.buf, s.idx + n⟩

theorem readline_none : s.readline none =
    ((s.buf.drop s.idx).take (s.plain.scanEol (-1)), s.skip (s.plain.scanEol (-1))) := by
  have h := readline_plain (s := s) none
  rcases hr : s.readline none with ⟨line, buf, idx⟩
  rw [hr] at h
  simp only [Prod.map, id, plain, BytesIO.readline, BytesIO.readBytes, Prod.mk.injEq, BytesIO.mk.injEq] at h
  obtain ⟨rfl, rfl, rfl⟩ := h
  rfl

theorem readLoop_succ (hint : Option ℤ) (fuel : ℕ) (total : ℤ) : readLoop hint (fuel + 1) total s =
    if s.plain.scanEol (-1) = 0 then ([], s)
    else
      let n := s.plain.scanEol (-1)
      let line := (s.buf.drop s.idx).take n
      if hint.any fun h => 0 < h && h < total + n then ([line], s.skip n)
      else
        let rest := readLoop hint fuel (total + n) (s.skip n)
        (line :: rest.1, rest.2) := by
  have hle : s.plain.scanEol (-1) ≤ s.buf.length - s.idx := scanEol_le s.plain
  have hlen : ((s.buf.drop s.idx).take (s.plain.scanEol (-1))).length = s.plain.scanEol (-1) := by
    rw [List.length_take, List.length_drop]
    omega
  rw [readLoop, readline_none]
  dsimp only
  rw [hlen]
  by_cases hzero : s.plain.scanEol (-1) = 0
  · rw [if_pos hzero, hzero, List.take_zero, if_pos rfl]
    rfl
  · rw [if_neg hzero, if_neg]
    intro hnil
    rw [hnil] at hlen
    exact hzero hlen.symm

theorem readLoop_end {hint : Option ℤ} {total : ℤ} {fuel : ℕ} (h : s.buf.length ≤ s.idx) :
    readLoop hint fuel total s = ([], s) := by
  cases fuel with
  | zero => rfl
  | succ fuel =>
    have hzero : s.plain.scanEol (-1) = 0 := if_pos h
    rw [readLoop_succ, if_pos hzero]

theorem readLoop_ne_nil {hint : Option ℤ} {total : ℤ} {fuel : ℕ} (h : s.idx < s.buf.length) :
    (readLoop hint (fuel + 1) total s).1 ≠ [] := by
  have hpos : 0 < s.plain.scanEol (-1) := (scanEol_spec h).1
  rw [readLoop_succ, if_neg hpos.ne']
  dsimp only
  split <;> exact List.cons_ne_nil _ _

/-- Without a hint both read to the end. -/
theorem readLoop_unlimited {hint : Option ℤ} (h : hint.getD (-1) ≤ 0) (fuel : ℕ) : ∀ (total : ℤ) (s : JBytesIO),
    (readLoop hint fuel total s).map id plain = BytesIO.readLoop (hint.getD (-1)) fuel total s.plain := by
  have hany : ∀ m : ℤ, (hint.any fun h => 0 < h && h < m) = false := by
    intro m
    cases hint with
    | none => rfl
    | some k =>
      have hk : ¬ 0 < k := by simpa using h
      simp [hk]
  induction fuel with
  | zero => intro total s; rfl
  | succ fuel ih =>
    intro total s
    rw [readLoop_succ, BytesIO.readLoop]
    dsimp only
    split
    · rfl
    · have hnot : ¬ (0 < hint.getD (-1) ∧ hint.getD (-1) ≤ total + (s.plain.scanEol (-1) : ℕ)) := by omega
      rw [hany, if_neg hnot, if_neg Bool.false_ne_true]
      have hnext := Prod.ext_iff.1 (ih (total + (s.plain.scanEol (-1) : ℕ)) (s.skip (s.plain.scanEol (-1))))
      exact Prod.ext (congrArg (List.cons _) hnext.1) hnext.2

/-- **The loops of `readlines`**, with `k` bytes to go to the hint. -/
theorem readLoop_alike {h : ℤ} (hpos : 0 < h) (fuel : ℕ) : ∀ (total : ℤ) (k : ℕ) (s : JBytesIO),
    total + k = h → 0 < k → s.buf.length - s.idx ≤ fuel →
    ((readLoop (some h) fuel total s).map id plain = BytesIO.readLoop h fuel total s.plain ↔ ¬ s.plain.LineEnds k) := by
  induction fuel with
  | zero =>
    intro total k s _ _ hfuel
    refine iff_of_true rfl fun hl => ?_
    have hlt : s.idx + k < s.buf.length := hl.1
    omega
  | succ fuel ih =>
    intro total k s hk hkpos hfuel
    rw [readLoop_succ, BytesIO.readLoop]
    dsimp only
    set n := s.plain.scanEol (-1) with hn
    by_cases hend : s.buf.length ≤ s.idx
    · have hzero : n = 0 := if_pos hend
      rw [if_pos hzero, if_pos hzero]
      refine iff_of_true rfl fun hl => ?_
      have hlt : s.idx + k < s.buf.length := hl.1
      omega
    obtain ⟨hnpos, hnle, hinner, hlast⟩ := scanEol_spec (t := s.plain) (by exact not_le.1 hend)
    rw [← hn] at hnpos hnle hinner hlast
    have hbuf : s.plain.buf = s.buf := rfl
    have hidx : s.plain.pos = s.idx := rfl
    rw [hbuf, hidx] at hnle hinner hlast
    rw [if_neg hnpos.ne', if_neg hnpos.ne']
    have hstop : ((some h).any fun h => 0 < h && h < total + n) = decide (k < n) := by
      simp only [Option.any_some, hpos, decide_true, Bool.true_and, decide_eq_decide]
      omega
    rw [hstop]
    rcases lt_trichotomy n k with hlt | heq | hgt
    · -- the hint is not reached with this line
      have hnot : ¬ (0 < h ∧ h ≤ total + n) := by omega
      rw [if_neg (by simpa using hlt.le), if_neg hnot]
      have hnext := ih (total + n) (k - n) (s.skip n) (by omega) (by omega)
        (by have : (s.skip n).buf.length - (s.skip n).idx = s.buf.length - (s.idx + n) := rfl; omega)
      have hsame : s.plain.LineEnds k ↔ (s.skip n).plain.LineEnds (k - n) := by
        have hto : s.idx + n + (k - n) = s.idx + k := by omega
        unfold BytesIO.LineEnds
        simp only [plain, skip, hto]
      rw [hsame, ← hnext, Prod.ext_iff, Prod.ext_iff]
      simp [Prod.map, BytesIO.readBytes, plain, skip]
    · -- the line ends at the hint
      have hstops : 0 < h ∧ h ≤ total + n := by omega
      rw [if_neg (by simpa using heq.le), if_pos hstops]
      by_cases hmore : s.idx + n < s.buf.length
      · have hl : s.plain.LineEnds k := ⟨heq ▸ hmore, heq ▸ hlast hmore⟩
        refine iff_of_false (fun hsame => ?_) (not_not_intro hl)
        have hnil := (List.cons.inj (congrArg Prod.fst hsame)).2
        have hfuel' : fuel ≠ 0 := by
          rintro rfl
          omega
        obtain ⟨m, rfl⟩ := Nat.exists_eq_succ_of_ne_zero hfuel'
        exact readLoop_ne_nil (s := s.skip n) hmore hnil
      · refine iff_of_true ?_ fun hl => hmore (heq ▸ hl.1)
        rw [readLoop_end (by exact not_lt.1 hmore)]
        rfl
    · -- the line goes past it
      have hstops : 0 < h ∧ h ≤ total + n := by omega
      rw [if_pos (by simpa using hgt), if_pos hstops]
      refine iff_of_true rfl fun hl => hinner (k - 1) (by omega) ?_
      have hto : s.idx + (k - 1) = s.idx + k - 1 := by omega
      rw [hto]
      exact hl.2

/-- `readlines`, for a hint that both take. -/
theorem readlines_alike (hint : Option ℤ) : ((s.readlines hint).map id plain = s.plain.readlines hint) ↔
    ∀ n : ℕ, hint = some (n : ℤ) → 0 < n → ¬ s.plain.LineEnds n := by
  have hloop : s.readlines hint = readLoop hint (s.buf.length - s.idx) 0 s := by
    unfold readlines
    split
    · rename_i h
      rw [readLoop_end h]
    · rfl
  rw [hloop]
  by_cases hpos : 0 < hint.getD (-1)
  · cases hint with
    | none => exact absurd hpos (by decide)
    | some h =>
      obtain ⟨n, rfl⟩ : ∃ n : ℕ, h = n := ⟨h.toNat, by simp at hpos; omega⟩
      have hn : 0 < n := by simpa using hpos
      have halike := readLoop_alike (h := (n : ℤ)) (by omega) (s.buf.length - s.idx) 0 n s (by omega) hn le_rfl
      refine halike.trans ⟨fun hnot m hm _ => ?_, fun hall => hall n rfl hn⟩
      have hnm : n = m := Int.ofNat.inj (Option.some.inj hm)
      exact hnm ▸ hnot
  · refine iff_of_true (readLoop_unlimited (by omega) _ 0 s) fun n hn hn' => ?_
    rw [hn] at hpos
    exact absurd (by simpa using hn') hpos

/-! ## Bytes -/

theorem read_plain (size : Option ℤ) : (s.read size).map id plain = s.plain.read size := by
  unfold read BytesIO.read
  by_cases h : s.idx < s.buf.length
  · rw [endIdx_eq h]
    dsimp only
    change _ = s.plain.readBytes (if size.getD (-1) < 0 ∨ (s.buf.length - s.idx : ℕ) < size.getD (-1)
      then s.buf.length - s.idx else (size.getD (-1)).toNat)
    set n := if size.getD (-1) < 0 ∨ (s.buf.length - s.idx : ℕ) < size.getD (-1)
      then s.buf.length - s.idx else (size.getD (-1)).toNat
    split
    · have hn : n = 0 := by omega
      simp [ BytesIO.readBytes, plain, hn]
    · simp [ BytesIO.readBytes, plain, byteSlice_add]
  · have hle : s.endIdx size ≤ s.idx := by
      unfold endIdx
      cases size with
      | none => dsimp only; omega
      | some n => dsimp only; split <;> omega
    have hdrop : s.buf.drop s.idx = [] := List.drop_eq_nil_of_le (not_lt.1 h)
    have hzero : s.buf.length - s.idx = 0 := by omega
    have hn : (if size.getD (-1) < 0 ∨ ((0 : ℕ) : ℤ) < size.getD (-1) then 0 else (size.getD (-1)).toNat) = 0 := by
      split <;> omega
    rw [if_pos hle]
    simp only [ BytesIO.readBytes, plain, hdrop, hzero, Prod.map, id, List.take_nil, hn, Nat.add_zero]

theorem readinto_plain (b : Bytes) : (s.readinto b).map id plain = s.plain.readinto b := by
  unfold readinto BytesIO.readinto
  by_cases h : s.buf.length ≤ s.idx
  · have hzero : s.buf.length - s.idx = 0 := by omega
    rw [if_pos h]
    simp [plain, hzero]
  · rw [if_neg h]
    dsimp only
    split
    · simp [plain, byteSlice_add]
    · have hzero : min b.length (s.buf.length - s.idx) = 0 := by omega
      simp [plain, hzero]

/-- A write, over a gap or not. -/
theorem write_plain (b : Bytes) : (s.write b).map id plain = s.plain.write b := by
  unfold write BytesIO.write
  by_cases hb : b.length = 0
  · rw [if_pos hb, if_pos hb]
    rfl
  · rw [if_neg hb, if_neg hb]
    dsimp only
    rcases lt_trichotomy s.buf.length s.idx with hlt | heq | hgt
    · have htake : s.buf.take s.idx = s.buf := List.take_of_length_le hlt.le
      have hdrop : s.buf.drop (s.idx + b.length) = [] := List.drop_eq_nil_of_le (by omega)
      have hlen : s.buf.length + (s.idx - s.buf.length) = s.idx := by omega
      rw [if_pos hlt, if_pos (by simp [hlen])]
      simp [plain, htake, hdrop]
      omega
    · have htake : s.buf.take s.idx = s.buf := List.take_of_length_le heq.le
      have hdrop : s.buf.drop (s.idx + b.length) = [] := List.drop_eq_nil_of_le (by omega)
      rw [if_neg (show ¬ s.buf.length < s.idx by omega), if_pos heq.le]
      simp [plain, htake, hdrop, heq]
    · have hgap : s.idx - s.buf.length = 0 := by omega
      rw [if_neg (show ¬ s.buf.length < s.idx by omega), if_neg (show ¬ s.buf.length ≤ s.idx by omega)]
      simp [plain, hgap]

theorem writelines_plain (lines : List Bytes) : ∀ s : JBytesIO, (s.writelines lines).plain = s.plain.writelines lines := by
  induction lines with
  | nil => intro s; rfl
  | cons line lines ih =>
    intro s
    have hone : (s.write line).2.plain = (s.plain.write line).2 := congrArg Prod.snd (write_plain line)
    exact (ih _).trans (congrArg ( BytesIO.writelines · lines) hone)

theorem truncate_plain (size : Option ℤ) : (s.truncate size).map id plain = s.plain.truncate size := by
  unfold truncate BytesIO.truncate
  change Prod.map id plain (if size.getD s.idx < 0 then _ else _) = if size.getD s.idx < 0 then _ else _
  split
  · rfl
  · rename_i h
    split
    · rfl
    · rename_i hlt
      have htake : s.buf.take (size.getD s.idx).toNat = s.buf := List.take_of_length_le (by omega)
      simp [plain, htake]

/-- A relative seek. -/
theorem relative_alike (base : ℕ) (offset : ℤ) :
    ((if (base : ℤ) + offset < 0 then (.error .value, s.plain)
      else (.ok (base + offset), { s.plain with pos := ((base : ℤ) + offset).toNat }) :
        Except StreamErr ℤ × BytesIO) = BytesIO.seek.relative s.plain offset base) ↔
    0 ≤ base + offset ∧ base + offset ≤ SSIZE_MAX := by
  unfold BytesIO.seek.relative
  by_cases hneg : (base : ℤ) + offset < 0
  · have hle : ¬ SSIZE_MAX - base < offset := by unfold SSIZE_MAX; omega
    rw [if_pos hneg, if_neg hle]
    exact iff_of_false (fun h => by cases congrArg Prod.fst h) (by omega)
  · rw [if_neg hneg]
    by_cases hbig : SSIZE_MAX - base < offset
    · rw [if_pos hbig]
      exact iff_of_false (fun h => by cases congrArg Prod.fst h) (by omega)
    · have hmax : max 0 ((base : ℤ) + offset) = base + offset := by omega
      rw [if_neg hbig, hmax]
      exact iff_of_true rfl (by omega)

theorem seek_alike (offset : ℤ) (whence : Whence) : ((s.seek offset whence).map id plain = s.plain.seek offset whence) ↔
    (StreamCall.seek offset whence).Meets s.plain := by
  have hmap : ∀ next : ℤ, Prod.map id plain (if next < 0 then (.error .value, s)
      else (.ok next, { s with idx := next.toNat }) : Except StreamErr ℤ × JBytesIO) =
      if next < 0 then (.error .value, s.plain) else (.ok next, { s.plain with pos := next.toNat }) := by
    intro next
    split <;> rfl
  unfold seek BytesIO.seek StreamCall.Meets
  dsimp only
  rw [hmap]
  by_cases hfits : FitsSsize offset
  · rw [if_neg (not_not_intro hfits), and_iff_right hfits]
    cases whence with
    | SEEK_SET => exact iff_of_true rfl fun h => absurd rfl h
    | SEEK_CUR => exact (relative_alike _ _).trans (by simp [ BytesIO.target, plain])
    | SEEK_END => exact (relative_alike _ _).trans (by simp [ BytesIO.target, plain])
  · rw [if_pos hfits]
    refine iff_of_false (fun h => ?_) fun h => hfits h.1
    have hovf : ∀ next : ℤ, (if next < 0 then (.error .value, s.plain) else (.ok next, { s.plain with pos := next.toNat }) :
        Except StreamErr ℤ × BytesIO) ≠ (.error .overflow, s.plain) := by
      intro next h
      split at h <;> cases h
    exact hovf _ h

/-! ## All calls -/

/-- Two results are told apart by what they reply. -/
theorem returned_iff {α : Type} {f : α → Reply} (hf : Function.Injective f) {x : α × JBytesIO} {y : α × BytesIO} :
    (Prod.map id plain ((.ok (f x.1), x.2) : Except StreamErr Reply × JBytesIO) = (.ok (f y.1), y.2)) ↔
      x.map id plain = y := by
  rw [Prod.ext_iff, Prod.ext_iff]
  exact and_congr_left' ⟨fun h => hf (Except.ok.inj h), fun h => congrArg (fun a => Except.ok (f a)) h⟩

theorem replied_iff {α : Type} {f : α → Reply} (hf : Function.Injective f) {x : Except StreamErr α × JBytesIO}
    {y : Except StreamErr α × BytesIO} :
    ((x.1.map f, x.2).map id plain = (y.1.map f, y.2)) ↔ x.map id plain = y := by
  have hmap : ∀ a b : Except StreamErr α, a.map f = b.map f ↔ a = b := by
    intro a b
    cases a <;> cases b <;> simp [Except.map, hf.eq_iff]
  rw [Prod.ext_iff, Prod.ext_iff]
  exact and_congr_left' (hmap _ _)

theorem truncate_ne_overflow (size : Option ℤ) : ((s.truncate size).1.map Reply.int) ≠ .error .overflow := by
  unfold truncate
  dsimp only
  split <;> simp [Except.map]

/-- Where a size does not fit, `io.BytesIO` raises what the other never does. -/
theorem sized_iff {size : Option ℤ} {x : Except StreamErr Reply × JBytesIO} {y : Except StreamErr Reply × BytesIO}
    (hx : x.1 ≠ .error .overflow) :
    (x.map id plain = BytesIO.exec.sized s.plain size y) ↔ SizeFits size ∧ x.map id plain = y := by
  unfold BytesIO.exec.sized
  split
  · rename_i hf
    rw [and_iff_right hf]
  · rename_i hf
    exact iff_of_false (fun h => hx (congrArg Prod.fst h)) fun h => hf h.1

/-- **One call.** It is answered alike, and leaves the same stream, just when it is one of those. -/
theorem exec_alike (c : StreamCall) (s : JBytesIO) :
    ((s.exec c).map id plain = s.plain.exec c) ↔ c.Meets s.plain := by
  have hok : ∀ {r : Reply}, (.ok r : Except StreamErr Reply) ≠ .error .overflow := fun h => by cases h
  have hint : Function.Injective fun n : ℕ => Reply.int n := fun m n h => Int.ofNat.inj (Reply.int.inj h)
  have hinto : Function.Injective fun r : ℕ × Bytes => Reply.into r.1 r.2 :=
    fun x y h => Prod.ext (Reply.into.inj h).1 (Reply.into.inj h).2
  cases c with
  | read size =>
    refine (sized_iff hok).trans (and_iff_left ?_)
    exact (returned_iff fun _ _ => Reply.bytes.inj).2 (read_plain size)
  | readline size =>
    refine (sized_iff hok).trans (and_iff_left ?_)
    exact (returned_iff fun _ _ => Reply.bytes.inj).2 (readline_plain size)
  | readlines hint =>
    refine (sized_iff hok).trans (and_congr_right fun _ => ?_)
    exact (returned_iff fun _ _ => Reply.lines.inj).trans (readlines_alike hint)
  | readinto b => exact iff_of_true ((returned_iff hinto).2 (readinto_plain b)) trivial
  | write b => exact iff_of_true ((returned_iff hint).2 (write_plain b)) trivial
  | writelines lines => exact iff_of_true (congrArg (Prod.mk _) (writelines_plain lines s)) trivial
  | seek offset whence => exact (replied_iff fun _ _ => Reply.int.inj).trans (seek_alike offset whence)
  | tell => exact iff_of_true rfl trivial
  | truncate size =>
    refine (sized_iff (truncate_ne_overflow size)).trans (and_iff_left ?_)
    exact (replied_iff fun _ _ => Reply.int.inj).2 (truncate_plain size)

/-- **A stream in memory refines `io.BytesIO`**: from the same buffer and position, a sequence of calls is
answered alike, every buffer and position on the way the same, just when each call is one that both do
alike at the state it finds. -/
theorem refines_iff (s : JBytesIO) (calls : List StreamCall) :
    List.Forall₂ (Alike fun s t => s.plain = t) (trace (fun c s => s.exec c) calls s)
      (trace (fun c t => t.exec c) calls s.plain) ↔
    Along (fun c t => t.exec c) StreamCall.Meets calls s.plain := by
  refine lockstep_iff (fun c s t h => ?_) calls s s.plain rfl
  subst h
  exact Prod.ext_iff.symm.trans (exec_alike c s)

/-- At the end of `b'abc'`, a seek by `-5` raises in the one and goes to the start in the other. -/
theorem not_refines : ¬ List.Forall₂ (Alike fun s t => s.plain = t)
    (trace (fun c s => s.exec c) [.seek (-5) .SEEK_END] ( JBytesIO.mk [97, 98, 99] 0))
    (trace (fun c t => t.exec c) [.seek (-5) .SEEK_END] ( JBytesIO.mk [97, 98, 99] 0).plain) := by
  intro h
  cases h with
  | cons h _ => cases h.1

end JBytesIO

end OmniJsonDb
