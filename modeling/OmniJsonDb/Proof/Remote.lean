import Mathlib.Data.List.Forall2
import OmniJsonDb.Lib.Machine
import OmniJsonDb.Model.JNet

/-!
# Remote handles

* `JNetIo.via_ok`: a call that goes to the server does what it does in memory, where the server's
  file object stands where the handle believes it to.
* `JNetIo.call_answers`: a ready call is answered as on an independent handle.
* `ready_local`: runs of ready calls.
-/

namespace OmniJsonDb

namespace JBytesIo

variable {buf buf' : Bytes} {idx idx' i : ℕ} {c : FpCall} {r : FpRet}

/-! ## File objects in memory -/

theorem length_slice (b : Bytes) {i j : ℕ} (h : j ≤ b.length) : (slice b i j).length = j - i := by
  unfold slice
  rw [List.length_take, List.length_drop]
  omega

theorem limit_le (size : Option ℤ) (buf : Bytes) (idx : ℕ) : limit size buf idx ≤ buf.length := by
  unfold limit
  split
  · exact le_rfl
  · split
    · exact le_rfl
    · exact Nat.min_le_left _ _

theorem le_limit (size : Option ℤ) (h : idx ≤ buf.length) : idx ≤ limit size buf idx := by
  unfold limit
  split
  · exact h
  · split
    · exact h
    · omega

/-- Reading moves on by what was read. -/
theorem read_idx (size : Option ℤ) (buf : Bytes) (idx : ℕ) :
    (read size buf idx).2 = idx + (read size buf idx).1.length := by
  unfold read
  split
  · rfl
  · dsimp only
    rw [length_slice _ (limit_le _ _ _)]
    omega

theorem readline_idx (size : Option ℤ) (buf : Bytes) (idx : ℕ) :
    (readline size buf idx).2 = idx + (readline size buf idx).1.length := by
  unfold readline
  split
  · rfl
  · rename_i h
    have hl := limit_le size buf idx
    have hi : idx ≤ limit size buf idx := le_limit size (by omega)
    dsimp only
    split
    · dsimp only
      rw [length_slice _ hl]
      omega
    · dsimp only
      rw [length_slice _ (by omega)]
      omega

/-- What `readinto` leaves is what `read` of the buffer's size returns. -/
theorem readinto_eq (b buf : Bytes) (idx : ℕ) :
    readinto b buf idx = ((read (some b.length) buf idx).1.length,
      (read (some b.length) buf idx).1 ++ b.drop (read (some b.length) buf idx).1.length,
      (read (some b.length) buf idx).2) := by
  have hlim : limit (some b.length) buf idx = min buf.length (idx + b.length) := by
    simp only [limit]
    rw [if_neg (by omega), Int.toNat_natCast]
  unfold readinto read
  rw [hlim]
  split
  · rw [if_pos (by omega)]
    simp
  · dsimp only
    split
    · rw [if_neg (by omega)]
      have hm : idx + min b.length (buf.length - idx) = min buf.length (idx + b.length) := by omega
      rw [hm, length_slice _ (Nat.min_le_left _ _)]
      have hs : min b.length (buf.length - idx) = min buf.length (idx + b.length) - idx := by omega
      rw [hs]
    · rw [if_pos (by omega)]
      simp

theorem write_idx (b buf : Bytes) (idx : ℕ) :
    (write b buf idx).1 = b.length ∧ (write b buf idx).2.2 = idx + b.length := by
  unfold write
  by_cases hb : b.length ≤ 0
  · rw [if_pos hb]
    dsimp only
    omega
  · rw [if_neg hb]
    obtain ⟨p, hp⟩ : ∃ p, p = if buf.length < idx then buf ++ List.replicate (idx - buf.length) 0 else buf :=
      ⟨_, rfl⟩
    have hlen : p.length = max buf.length idx := by
      rw [hp]
      split
      · rw [List.length_append, List.length_replicate]
        omega
      · omega
    simp only [← hp]
    by_cases hi : p.length ≤ idx
    · rw [if_pos hi]
      dsimp only
      rw [List.length_append]
      omega
    · rw [if_neg hi]
      exact ⟨rfl, rfl⟩

theorem writelines_idx (lines : List Bytes) (buf : Bytes) (idx : ℕ) :
    (writelines lines buf idx).2 = idx + (lines.map List.length).sum := by
  induction lines generalizing buf idx with
  | nil => rfl
  | cons b lines ih =>
    rw [writelines, ih, (write_idx b buf idx).2, List.map_cons, List.sum_cons]
    omega

theorem seek_error {offset whence : ℤ} {e : FpErr} (h : seek offset whence buf idx = .error e) : e = .value := by
  unfold seek at h
  split at h
  · split at h
    · exact (Except.error.inj h).symm
    · cases h
  · exact (Except.error.inj h).symm

theorem truncate_error {size : Option ℤ} {e : FpErr} (h : truncate size buf idx = .error e) : e = .value := by
  unfold truncate at h
  dsimp only at h
  split at h
  · exact (Except.error.inj h).symm
  · cases h

/-- The only exception is `ValueError`. -/
theorem call_error {e : FpErr} (h : call c buf idx = .error e) : e = .value := by
  cases c with
  | seek offset whence =>
    cases hs : seek offset whence buf idx with
    | ok n => simp [call, hs, Except.map] at h
    | error e' =>
      simp only [call, hs, Except.map] at h
      cases h
      exact seek_error hs
  | truncate size =>
    cases ht : truncate size buf idx with
    | ok n => simp [call, ht, Except.map] at h
    | error e' =>
      simp only [call, ht, Except.map] at h
      cases h
      exact truncate_error ht
  | _ => cases h

/-- The calls whose outcome depends on where the file object stands. -/
def usesIdx : FpCall → Bool
  | .seek _ whence => whence = 1
  | .truncate size => size.isNone
  | _ => true

/-- What a call returns and leaves in the buffer, where the file object stands elsewhere. -/
theorem call_agree (buf : Bytes) (h : usesIdx c = true → i = idx) :
    (call c buf i).map (fun x => (x.1, x.2.1)) = (call c buf idx).map fun x => (x.1, x.2.1) := by
  cases c with
  | seek offset whence =>
    by_cases h1 : whence = 1
    · rw [h (by simp [usesIdx, h1])]
    · simp only [call, seek]
      by_cases h0 : whence = 0 ∨ whence = 2
      · have hs : seekTo offset whence buf i = seekTo offset whence buf idx := by
          unfold seekTo
          rcases h0 with rfl | rfl <;> simp
        rw [hs]
      · have hn : ¬ (whence = 0 ∨ whence = 2 ∨ whence = 1) := by tauto
        simp [hn]
  | truncate size =>
    cases size with
    | none => rw [h rfl]
    | some n =>
      simp only [call, truncate, Option.getD_some]
      split <;> rfl
  | _ => rw [h rfl]

end JBytesIo

namespace JMemFiles

variable {m m' : JMemFiles} {f g : NetFile} {b : Bytes}

/-- The file has a buffer. -/
def Has (m : JMemFiles) : NetFile → Prop
  | .key => True
  | .val i => m.VAL_table i ≠ none

theorem Has.setBuf_buf (h : m.Has f) : m.setBuf f (m.buf f) = m := by
  cases f with
  | key => rfl
  | val i =>
    obtain ⟨b, hb⟩ := Option.ne_none_iff_exists'.1 h
    simp only [JMemFiles.setBuf, JMemFiles.buf, hb, Option.getD_some]
    rw [← hb, Function.update_eq_self]

theorem Has.setBuf (h : m.Has g) : (m.setBuf f b).Has g := by
  cases g with
  | key => trivial
  | val j =>
    cases f with
    | key => exact h
    | val i =>
      by_cases hij : j = i
      · subst hij
        simp [Has, JMemFiles.setBuf]
      · simpa [Has, JMemFiles.setBuf, hij] using h

theorem Has.openFile {mode : List Char} (ho : m.openFile mode f = some m') (h : m.Has g) : m'.Has g := by
  cases f with
  | key =>
    simp only [JMemFiles.openFile] at ho
    split at ho
    · cases ho
    · cases ho
      exact h
  | val i =>
    cases ho
    split
    · exact h.setBuf
    · exact h

theorem Has.openFile_eq (h : m.Has f) {mode : List Char} (ho : m.openFile mode f = some m') : m' = m := by
  cases f with
  | key =>
    simp only [JMemFiles.openFile] at ho
    split at ho
    · cases ho
    · cases ho
      rfl
  | val i =>
    have hn : m.VAL_table i ≠ none := h
    simp only [JMemFiles.openFile, hn, if_false] at ho
    cases ho
    rfl

theorem has_openFile {mode : List Char} (ho : m.openFile mode f = some m') : m'.Has f := by
  cases f with
  | key => trivial
  | val i =>
    cases ho
    split
    · simp [Has, JMemFiles.setBuf]
    · exact ‹_›

end JMemFiles

/-! ## A call through the server -/

namespace JNetIo

variable {w : Wire} {s : NetConn} {h : JNetIo} {l : LocalIo} {mem : JMemFiles} {c c' : FpCall}
  {buf : Bytes} {idx : ℕ} {r : FpRet} {e : FpErr} {move : FpRet → ℤ → ℤ}

/-- The server has a file object for the handle's file, it stands where the handle believes it to
if that matters, and msgpack packs the arguments and what is returned. -/
def stands (w : Wire) (srv : NetServer) (h : JNetIo) (c : FpCall) : Bool :=
  w.args c && (srv.fpTable h.file).any fun i : ℕ =>
    (!JBytesIo.usesIdx c || decide ((i : ℤ) = h.offset)) &&
      match JBytesIo.call c (srv.mem.buf h.file) i with
      | .ok (r, _) => w.ret r
      | .error _ => true

/-- What a call sends that decides what it returns. -/
def sent (h : JNetIo) : FpCall → Option FpCall
  | .seek offset whence => if h.seeks offset whence then some (.seek offset whence) else none
  | .readinto b => some (.read (some b.length))
  | .tell | .flush | .close => none
  | c => some c

/-- A call that is answered as an independent handle would answer it. -/
def ready (w : Wire) (srv : NetServer) (h : JNetIo) (c : FpCall) : Bool :=
  (!h.closed || decide (c = .close)) && (h.sent c).all (h.stands w srv)

/-- A remote handle and a local one. -/
structure Same (h : JNetIo) (l : LocalIo) : Prop where
  file : h.file = l.file
  offset : h.offset = l.idx
  closed : h.closed = l.closed
  found : h.notFound = false

theorem stands_iff : h.stands w s.srv c = true ↔ w.args c = true ∧ ∃ i, s.srv.fpTable h.file = some i ∧
    (JBytesIo.usesIdx c = true → (i : ℤ) = h.offset) ∧
    ∀ r x, JBytesIo.call c (s.srv.mem.buf h.file) i = .ok (r, x) → w.ret r = true := by
  unfold stands
  rw [Bool.and_eq_true, Option.any_eq_true]
  refine and_congr_right fun _ => exists_congr fun i => and_congr_right fun _ => ?_
  rw [Bool.and_eq_true, Bool.or_eq_true, Bool.not_eq_true', decide_eq_true_eq]
  refine and_congr ?_ ?_
  · cases JBytesIo.usesIdx c <;> simp
  · split
    · rename_i r x hr
      constructor
      · intro hw r' x' h'
        rw [hr] at h'
        cases h'
        exact hw
      · intro hall
        exact hall _ _ hr
    · rename_i e he
      simp [he]

theorem exec_ok {f : NetFile} {srv : NetServer} (ha : s.alive = true) (hw : w.args c = true)
    (hx : s.srv.exec f (.io c) = (.ok r, srv)) (hr : w.ret r = true) :
    s.exec w f (.io c) = (.ok r, { s with srv := srv }) := by
  unfold NetConn.exec
  simp [ha, Wire.cmd, hw, hx, hr]

theorem exec_invalid {f : NetFile} {srv : NetServer} (ha : s.alive = true) (hw : w.args c = true)
    (hx : s.srv.exec f (.io c) = (.error .invalid, srv)) :
    s.exec w f (.io c) = (.error .value, { s with srv := srv }) := by
  unfold NetConn.exec
  simp [ha, Wire.cmd, hw, hx]

/-- **What the server answers** is what the call does in memory. -/
theorem via_ok {idx' : ℕ} (move : FpRet → ℤ → ℤ) (ha : s.alive = true) (ho : h.closed = false) (hf : h.notFound = false)
    (hs : h.stands w s.srv c = true) (hi : h.offset = idx) (hc : c ≠ .close)
    (hl : JBytesIo.call c (s.srv.mem.buf h.file) idx = .ok (r, buf, idx')) :
    ∃ j, h.via w c move s = (.ok r, { h with offset := move r h.offset },
      { s with srv := { s.srv with mem := s.srv.mem.setBuf h.file buf }.setFp h.file (some j) }) := by
  obtain ⟨hw, i, hfp, hidx, hret⟩ := stands_iff.1 hs
  have hstands : JBytesIo.usesIdx c = true → i = idx := by
    intro hu
    have := hidx hu
    omega
  have hagree := JBytesIo.call_agree (s.srv.mem.buf h.file) hstands
  rw [hl] at hagree
  rcases hcall : JBytesIo.call c (s.srv.mem.buf h.file) i with e | ⟨r', buf', j⟩
  · rw [hcall] at hagree
    cases hagree
  · rw [hcall] at hagree
    cases hagree
    have hr : w.ret r = true := hret _ _ hcall
    use j
    have hx : s.srv.exec h.file (.io c) =
        (.ok r, { s.srv with mem := s.srv.mem.setBuf h.file buf }.setFp h.file (some j)) := by
      simp [NetServer.exec, hfp, hc, hcall]
    simp [via, ho, hf, exec_ok ha hw hx hr]

theorem via_error (ha : s.alive = true) (ho : h.closed = false) (hf : h.notFound = false)
    (hs : h.stands w s.srv c = true) (hi : h.offset = idx) (hc : c ≠ .close)
    (hl : JBytesIo.call c (s.srv.mem.buf h.file) idx = .error e) :
    h.via w c move s = (.error e, h, s) := by
  obtain ⟨hw, i, hfp, hidx, _⟩ := stands_iff.1 hs
  have hstands : JBytesIo.usesIdx c = true → i = idx := by
    intro hu
    have := hidx hu
    omega
  have hagree := JBytesIo.call_agree (s.srv.mem.buf h.file) hstands
  rw [hl] at hagree
  cases JBytesIo.call_error hl
  rcases hcall : JBytesIo.call c (s.srv.mem.buf h.file) i with e | x
  · have hx : s.srv.exec h.file (.io c) = (.error .invalid, s.srv) := by
      simp [NetServer.exec, hfp, hc, hcall]
    simp [via, ho, hf, exec_invalid ha hw hx]
  · rw [hcall] at hagree
    cases hagree

/-- A remote handle and a local one after a call that returned the same on both. -/
structure Answers (out : Except FpErr FpRet × JNetIo × NetConn)
    (loc : Except FpErr FpRet × LocalIo × JMemFiles) : Prop where
  ret : out.1 = loc.1
  same : Same out.2.1 loc.2.1
  alive : out.2.2.alive = true
  mem : out.2.2.srv.mem = loc.2.2

theorem call_local (hc : c ≠ .close) (hf : c ≠ .flush) :
    l.call c mem = match JBytesIo.call c (mem.buf l.file) l.idx with
      | .error e => (.error e, l, mem)
      | .ok (r, buf, idx) => (.ok r, { l with idx := idx }, mem.setBuf l.file buf) := by
  have hn : ¬ (c = .flush ∧ l.closed = true) := fun hx => hf hx.1
  exact (if_neg hc).trans (if_neg hn)

/-- A call that goes to the server as it is. -/
theorem via_answers (move : FpRet → ℤ → ℤ) (hsame : Same h l) (ha : s.alive = true) (ho : h.closed = false)
    (hs : h.stands w s.srv c = true) (hc : c ≠ .close) (hf : c ≠ .flush)
    (hmove : ∀ r buf idx, JBytesIo.call c (s.srv.mem.buf l.file) l.idx = .ok (r, buf, idx) → move r l.idx = idx) :
    Answers (h.via w c move s) (l.call c s.srv.mem) := by
  rw [call_local hc hf]
  rcases hl : JBytesIo.call c (s.srv.mem.buf l.file) l.idx with e | ⟨r, buf, idx⟩
  · rw [via_error ha ho hsame.found hs hsame.offset hc (hsame.file ▸ hl)]
    exact ⟨rfl, hsame, ha, rfl⟩
  · obtain ⟨j, hvia⟩ := via_ok move ha ho hsame.found hs hsame.offset hc (hsame.file ▸ hl)
    rw [hvia]
    refine ⟨rfl, ⟨hsame.file, ?_, hsame.closed, hsame.found⟩, ha, ?_⟩
    · dsimp only
      rw [hsame.offset]
      exact hmove r buf idx hl
    · rw [← hsame.file]
      rfl

theorem call_seek (hsame : Same h l) (ho : h.closed = false) {offset whence : ℤ}
    (hsk : h.seeks offset whence = true) :
    h.call w (.seek offset whence) s = match h.via w (.seek offset whence) setTo s with
      | (.ok _, h, s) => (.ok (.int h.offset), h, s)
      | r => r := by
  simp only [call, ho, hsame.found, hsk]
  rfl

theorem seek_answers (hsame : Same h l) (ha : s.alive = true) (hhas : s.srv.mem.Has l.file)
    (ho : h.closed = false) {offset whence : ℤ}
    (hs : (h.sent (.seek offset whence)).all (h.stands w s.srv) = true) :
    Answers (h.call w (.seek offset whence) s) (l.call (.seek offset whence) s.srv.mem) := by
  by_cases hsk : h.seeks offset whence = true
  · have hs' : h.stands w s.srv (.seek offset whence) = true := by simpa [sent, hsk] using hs
    have hvia : Answers (h.via w (.seek offset whence) setTo s) (l.call (.seek offset whence) s.srv.mem) := by
      apply via_answers setTo hsame ha ho hs' (by simp) (by simp)
      intro r buf idx hl
      simp only [JBytesIo.call] at hl
      cases hseek : JBytesIo.seek offset whence (s.srv.mem.buf l.file) l.idx with
      | error e => simp [hseek, Except.map] at hl
      | ok i =>
        simp only [hseek, Except.map] at hl
        cases hl
        rfl
    rw [call_seek hsame ho hsk]
    rcases hv : h.via w (.seek offset whence) setTo s with ⟨e | r, h', s'⟩
    · rw [hv] at hvia
      exact hvia
    · rw [hv] at hvia
      -- what `seek` returns in memory is where it goes
      have hret : l.call (.seek offset whence) s.srv.mem =
          (.ok (.int (l.call (.seek offset whence) s.srv.mem).2.1.idx),
            (l.call (.seek offset whence) s.srv.mem).2) := by
        have hr := hvia.ret
        rw [call_local (by simp) (by simp)] at hr ⊢
        simp only [JBytesIo.call] at hr ⊢
        cases hseek : JBytesIo.seek offset whence (s.srv.mem.buf l.file) l.idx with
        | error e => simp [hseek, Except.map] at hr
        | ok i => rfl
      refine ⟨?_, hvia.same, hvia.alive, hvia.mem⟩
      rw [hret, ← hvia.same.offset]
  · -- the handle is there already
    have hcall : h.call w (.seek offset whence) s = (.ok (.int h.offset), h, s) := by
      simp [call, ho, hsame.found, hsk]
    have hgo : JBytesIo.seek offset whence (s.srv.mem.buf l.file) l.idx = .ok l.idx := by
      have ho := hsame.offset
      simp only [seeks, decide_eq_true_eq] at hsk
      have hw : whence = 0 ∧ offset = l.idx ∨ whence = 1 ∧ offset = 0 := by omega
      rcases hw with ⟨rfl, rfl⟩ | ⟨rfl, rfl⟩
      · simp [JBytesIo.seek, JBytesIo.seekTo]
      · simp [JBytesIo.seek, JBytesIo.seekTo]
    rw [hcall, call_local (by simp) (by simp)]
    simp only [JBytesIo.call, hgo, Except.map]
    refine ⟨?_, ⟨hsame.file, hsame.offset, hsame.closed, hsame.found⟩, ha, hhas.setBuf_buf.symm⟩
    rw [hsame.offset]

theorem readinto_answers (hsame : Same h l) (ha : s.alive = true) (ho : h.closed = false) {b : Bytes}
    (hs : h.stands w s.srv (.read (some b.length)) = true) :
    Answers (h.call w (.readinto b) s) (l.call (.readinto b) s.srv.mem) := by
  have hmove : ∀ r buf idx, JBytesIo.call (.read (some b.length)) (s.srv.mem.buf l.file) l.idx = .ok (r, buf, idx) →
      moveBy r l.idx = idx := by
    intro r buf idx hl
    cases hl
    rw [JBytesIo.read_idx]
    simp [moveBy]
  have hvia := via_answers moveBy hsame ha ho hs (by simp) (by simp) hmove
  rw [call_local (by simp) (by simp)] at hvia ⊢
  simp only [JBytesIo.call] at hvia ⊢
  rw [JBytesIo.readinto_eq]
  simp only [call]
  rcases hv : h.via w (.read (some b.length)) moveBy s with ⟨e | r, h', s'⟩
  · rw [hv] at hvia
    cases hvia.ret
  · rw [hv] at hvia
    cases hvia.ret
    exact ⟨rfl, hvia.same, hvia.alive, hvia.mem⟩

theorem flush_answers (hsame : Same h l) (ha : s.alive = true) (hhas : s.srv.mem.Has l.file)
    (ho : h.closed = false) : Answers (h.call w .flush s) (l.call .flush s.srv.mem) := by
  have hl : l.call .flush s.srv.mem = (.ok .none, l, s.srv.mem) := by
    unfold LocalIo.call
    rw [if_neg (by simp), if_neg (by simp [← hsame.closed, ho])]
    simp [JBytesIo.call, hhas.setBuf_buf]
  rw [hl]
  obtain ⟨srv, hx, hmem⟩ : ∃ srv, s.srv.exec h.file (.io .flush) = (.ok .none, srv) ∧ srv.mem = s.srv.mem := by
    cases hfp : s.srv.fpTable h.file with
    | none =>
      use s.srv
      simp [NetServer.exec, hfp]
    | some i =>
      use { s.srv with mem := s.srv.mem.setBuf h.file (s.srv.mem.buf h.file) }.setFp h.file (some i)
      rw [hsame.file] at hfp ⊢
      simp [NetServer.exec, hfp, JBytesIo.call, NetServer.setFp, hhas.setBuf_buf]
  have hcall : h.call w .flush s = (.ok .none, h, { s with srv := srv }) := by
    simp [call, ho, hsame.found, exec_ok (w := w) ha rfl hx rfl]
  rw [hcall]
  exact ⟨rfl, hsame, ha, hmem⟩

theorem close_answers (hsame : Same h l) (ha : s.alive = true) :
    Answers (h.call w .close s) (l.call .close s.srv.mem) := by
  have hl : l.call .close s.srv.mem = (.ok .none, { l with closed := true }, s.srv.mem) := by
    simp [LocalIo.call]
  rw [hl]
  by_cases ho : h.closed = true
  · simp only [call, ho, true_or, if_true]
    exact ⟨rfl, ⟨hsame.file, hsame.offset, ho, hsame.found⟩, ha, rfl⟩
  · obtain ⟨srv, hx, hfp, hmem⟩ : ∃ srv, s.srv.exec h.file (.io .close) = (.ok .none, srv) ∧
        srv.fpTable h.file = none ∧ srv.mem = s.srv.mem := by
      cases hfp : s.srv.fpTable h.file with
      | none =>
        use s.srv
        simp [NetServer.exec, hfp]
      | some i =>
        use s.srv.setFp h.file none
        simp [NetServer.exec, hfp, NetServer.setFp]
    have hx' : srv.exec h.file (.io .flush) = (.ok .none, srv) := by simp [NetServer.exec, hfp]
    have hcall : h.call w .close s = (.ok .none, { h with closed := true }, { s with srv := srv }) := by
      simp [call, ho, hsame.found, exec_ok (w := w) ha rfl hx rfl,
        exec_ok (w := w) (s := { s with srv := srv }) ha rfl hx' rfl]
    rw [hcall]
    exact ⟨rfl, ⟨hsame.file, hsame.offset, rfl, hsame.found⟩, ha, hmem⟩

/-- **A ready call** is answered as in memory. -/
theorem call_answers (hsame : Same h l) (ha : s.alive = true) (hhas : s.srv.mem.Has l.file)
    (hr : h.ready w s.srv c = true) : Answers (h.call w c s) (l.call c s.srv.mem) := by
  rw [ready, Bool.and_eq_true] at hr
  obtain ⟨hclosed, hs⟩ := hr
  by_cases hc : c = .close
  · subst hc
    exact close_answers hsame ha
  have ho : h.closed = false := by simpa [hc] using hclosed
  cases c with
  | seek offset whence => exact seek_answers hsame ha hhas ho hs
  | tell =>
    have hcall : h.call w .tell s = (.ok (.int h.offset), h, s) := by simp [call, ho, hsame.found]
    rw [hcall, call_local (by simp) (by simp)]
    simp only [JBytesIo.call]
    exact ⟨by rw [hsame.offset], hsame, ha, hhas.setBuf_buf.symm⟩
  | read size =>
    apply via_answers moveBy hsame ha ho hs (by simp) (by simp)
    intro r buf idx hl
    cases hl
    rw [JBytesIo.read_idx]
    simp [moveBy]
  | readinto b => exact readinto_answers hsame ha ho hs
  | readline size =>
    apply via_answers moveBy hsame ha ho hs (by simp) (by simp)
    intro r buf idx hl
    cases hl
    rw [JBytesIo.readline_idx]
    simp [moveBy]
  | write b =>
    apply via_answers moveBy hsame ha ho hs (by simp) (by simp)
    intro r buf idx hl
    cases hl
    rw [(JBytesIo.write_idx b _ _).1, (JBytesIo.write_idx b _ _).2]
    simp [moveBy]
  | writelines lines =>
    apply via_answers (fun _ offset => offset + (lines.map List.length).sum) hsame ha ho hs (by simp) (by simp)
    intro r buf idx hl
    have hidx : idx = (JBytesIo.writelines lines (s.srv.mem.buf l.file) l.idx).2 := by
      simp only [JBytesIo.call, Except.ok.injEq, Prod.mk.injEq] at hl
      rw [hl.2]
    rw [hidx, JBytesIo.writelines_idx]
    push_cast
    rfl
  | truncate size =>
    apply via_answers (fun _ offset => offset) hsame ha ho hs (by simp) (by simp)
    intro r buf idx hl
    simp only [JBytesIo.call] at hl
    cases ht : JBytesIo.truncate size (s.srv.mem.buf l.file) l.idx with
    | error e => simp [ht, Except.map] at hl
    | ok x =>
      simp only [ht, Except.map] at hl
      cases hl
      rfl
  | flush => exact flush_answers hsame ha hhas ho
  | close => exact absurd rfl hc

end JNetIo

/-! ## Runs -/

/-- The connection answers the call as independent handles would. -/
def NetState.ready (w : Wire) (n : NetState) : NetCall → Bool
  | .openFile f mode => (n.conn.srv.mem.openFile mode f).isSome && w.int 0
  | .io k c => (n.handles[k]?).all fun h => h.ready w n.conn.srv c

/-- Calls with what they return, over the network. -/
def NetState.Step (w : Wire) (n : NetState) (e : NetCall × Except FpErr FpRet) (n' : NetState) : Prop :=
  n.call w e.1 = some (e.2, n')

/-- The same in memory. -/
def LocalState.Step (l : LocalState) (e : NetCall × Except FpErr FpRet) (l' : LocalState) : Prop :=
  l.call e.1 = some (e.2, l')

/-- The files the server has file objects for have buffers. -/
def NetServer.Ok (srv : NetServer) : Prop := ∀ f i, srv.fpTable f = some i → srv.mem.Has f

namespace NetServer

variable {srv : NetServer} {f : NetFile} {m : JMemFiles}

theorem Ok.setFp {idx : Option ℕ} (h : srv.Ok) (hf : ∀ i, idx = some i → srv.mem.Has f) : (srv.setFp f idx).Ok := by
  intro g i hg
  by_cases hgf : g = f
  · subst hgf
    exact hf i (by simpa [NetServer.setFp] using hg)
  · exact h g i (by simpa [NetServer.setFp, hgf] using hg)

theorem Ok.exec (f : NetFile) (cmd : NetCmd) (h : srv.Ok) : (srv.exec f cmd).2.Ok := by
  cases cmd with
  | openFile mode =>
    cases hfp : srv.fpTable f with
    | some i =>
      simp only [NetServer.exec, hfp]
      exact h.setFp fun _ _ => h f i hfp
    | none =>
      cases hm : srv.mem.openFile mode f with
      | none =>
        simp only [NetServer.exec, hfp, hm]
        exact h
      | some m =>
        simp only [NetServer.exec, hfp, hm]
        apply Ok.setFp
        · intro g i hg
          exact (h g i hg).openFile hm
        · intro _ _
          exact JMemFiles.has_openFile hm
  | io c =>
    cases hfp : srv.fpTable f with
    | none =>
      simp only [NetServer.exec, hfp]
      exact h
    | some i =>
      by_cases hc : c = .close
      · simp only [NetServer.exec, hfp, hc, if_true]
        exact h.setFp fun _ hn => nomatch hn
      · cases hcall : JBytesIo.call c (srv.mem.buf f) i with
        | error e =>
          simp only [NetServer.exec, hfp, hc, if_false, hcall]
          exact h
        | ok x =>
          simp only [NetServer.exec, hfp, hc, if_false, hcall]
          apply Ok.setFp
          · intro g j hg
            exact (h g j hg).setBuf
          · intro _ _
            exact (h f i hfp).setBuf

end NetServer

theorem NetConn.ok_exec (w : Wire) {s : NetConn} (f : NetFile) (cmd : NetCmd) (h : s.srv.Ok) :
    (s.exec w f cmd).2.srv.Ok := by
  have hx := h.exec f cmd
  unfold NetConn.exec
  split
  · exact h
  · split
    · exact h
    · split
      · rename_i heq
        rw [heq] at hx
        exact hx
      · rename_i heq
        rw [heq] at hx
        exact hx
      · rename_i heq
        rw [heq] at hx
        split
        · exact hx
        · intro g i hg
          cases hg

theorem JNetIo.ok_via (w : Wire) {s : NetConn} (h : JNetIo) (c : FpCall) (move : FpRet → ℤ → ℤ) (hok : s.srv.Ok) :
    (h.via w c move s).2.2.srv.Ok := by
  have hx := NetConn.ok_exec w h.file (.io c) hok
  unfold JNetIo.via
  split
  · exact hok
  · split
    · exact hok
    · split <;> rename_i heq <;> rw [heq] at hx <;> exact hx

theorem JNetIo.ok_call {w : Wire} {s : NetConn} {h : JNetIo} {c : FpCall} (hok : s.srv.Ok) :
    (h.call w c s).2.2.srv.Ok := by
  have hx := NetConn.ok_exec w h.file (.io c) hok
  cases c with
  | seek offset whence =>
    have hv := JNetIo.ok_via w h (.seek offset whence) JNetIo.setTo hok
    unfold JNetIo.call
    dsimp only
    repeat' split
    all_goals first | exact hok | (rename_i heq; rw [heq] at hv; exact hv) | exact hv
  | tell =>
    unfold JNetIo.call
    dsimp only
    repeat' split
    all_goals exact hok
  | readinto b =>
    have hv := JNetIo.ok_via w h (.read (some b.length)) JNetIo.moveBy hok
    unfold JNetIo.call
    dsimp only
    split
    all_goals first | exact hv | (rename_i heq; rw [heq] at hv; exact hv)
  | flush =>
    unfold JNetIo.call
    dsimp only
    split
    · exact hok
    · split <;> rename_i heq <;> rw [heq] at hx <;> exact hx
  | close =>
    unfold JNetIo.call
    dsimp only
    split
    · exact hok
    · split
      · rename_i heq
        rw [heq] at hx
        exact hx
      · rename_i heq
        rw [heq] at hx
        exact NetConn.ok_exec w _ _ hx
  | _ => exact JNetIo.ok_via w h _ _ hok

theorem LocalIo.call_file (c : FpCall) (l : LocalIo) (mem : JMemFiles) : (l.call c mem).2.1.file = l.file := by
  unfold LocalIo.call
  repeat' split
  all_goals rfl

theorem LocalIo.call_has {c : FpCall} {l : LocalIo} {mem : JMemFiles} {f : NetFile} (h : mem.Has f) :
    (l.call c mem).2.2.Has f := by
  unfold LocalIo.call
  repeat' split
  all_goals first | exact h | exact h.setBuf

theorem forall₂_set {α β : Type*} {R : α → β → Prop} {xs : List α} {ys : List β} {a : α} {b : β}
    (h : List.Forall₂ R xs ys) (hab : R a b) (k : ℕ) : List.Forall₂ R (xs.set k a) (ys.set k b) := by
  induction h generalizing k with
  | nil => exact .nil
  | cons hxy h ih =>
    cases k with
    | zero => exact .cons hab h
    | succ k => exact .cons hxy (ih k)

/-- The remote handles and the local ones, over the same buffers. -/
structure SameState (n : NetState) (l : LocalState) : Prop where
  alive : n.conn.alive = true
  mem : n.conn.srv.mem = l.mem
  handles : List.Forall₂ JNetIo.Same n.handles l.handles
  has : ∀ h ∈ l.handles, l.mem.Has h.file
  ok : n.conn.srv.Ok

namespace SameState

variable {w : Wire} {n n' : NetState} {l : LocalState} {ret : Except FpErr FpRet}

theorem init (m : JMemFiles) : SameState { conn := { srv := { mem := m } } } { mem := m } where
  alive := rfl
  mem := rfl
  handles := .nil
  has := fun _ h => nomatch h
  ok := fun _ _ h => nomatch h

/-- Opening a file that is there. -/
theorem conn_openFile {f : NetFile} {mode : List Char} {m : JMemFiles} {s : NetConn} (ha : s.alive = true)
    (hok : s.srv.Ok) (hm : s.srv.mem.openFile mode f = some m) (h0 : w.int 0 = true) :
    ∃ s', s.openFile w f mode = (.ok { file := f }, s') ∧ s'.alive = true ∧ s'.srv.mem = m ∧ s'.srv.Ok := by
  obtain ⟨srv, hx, hfp, hmem⟩ : ∃ srv, s.srv.exec f (.openFile mode) = (.ok .none, srv) ∧
      srv.fpTable f = some 0 ∧ srv.mem = m := by
    cases hfp : s.srv.fpTable f with
    | none =>
      use { s.srv with mem := m }.setFp f (some 0)
      simp [NetServer.exec, hfp, hm, NetServer.setFp]
    | some i =>
      use s.srv.setFp f (some 0)
      simp [NetServer.exec, hfp, NetServer.setFp, (hok f i hfp).openFile_eq hm]
  have hsrv : srv.Ok := by
    have := hok.exec f (.openFile mode)
    rwa [hx] at this
  have hhas : srv.mem.Has f := hsrv f 0 hfp
  have hx' : srv.exec f (.io .tell) = (.ok (.int 0), srv.setFp f (some 0)) := by
    simp [NetServer.exec, hfp, JBytesIo.call, hhas.setBuf_buf]
  have hexec : s.exec w f (.openFile mode) = (.ok .none, { s with srv := srv }) := by
    unfold NetConn.exec
    simp [ha, Wire.cmd, hx, Wire.ret]
  have htell := JNetIo.exec_ok (w := w) (s := { s with srv := srv }) ha rfl hx' h0
  use { s with srv := srv.setFp f (some 0) }
  refine ⟨?_, ha, hmem, hsrv.setFp fun _ _ => hhas⟩
  simp only [NetConn.openFile, hexec, htell, JNetIo.setTo]

/-- **A ready call** returns what it returns in memory. -/
theorem call (h : SameState n l) {c : NetCall} (hr : n.ready w c = true) (hs : n.call w c = some (ret, n')) :
    ∃ l', l.call c = some (ret, l') ∧ SameState n' l' := by
  cases c with
  | openFile f mode =>
    rw [NetState.ready, Bool.and_eq_true] at hr
    obtain ⟨m, hm⟩ := Option.isSome_iff_exists.1 hr.1
    obtain ⟨s', ho, ha, hmem, hok⟩ := conn_openFile h.alive h.ok hm hr.2
    simp only [NetState.call, ho] at hs
    cases hs
    use { mem := m, handles := l.handles ++ [{ file := f }] }
    rw [h.mem] at hm
    refine ⟨?_, ha, hmem, List.rel_append h.handles (.cons ⟨rfl, rfl, rfl, rfl⟩ .nil), ?_, hok⟩
    · simp only [LocalState.call, hm, h.handles.length_eq]
    · intro x hx
      rcases List.mem_append.1 hx with hx | hx
      · exact (h.has x hx).openFile hm
      · rw [List.mem_singleton.1 hx]
        exact JMemFiles.has_openFile hm
  | io k c =>
    obtain ⟨x, hx, heq⟩ := Option.map_eq_some_iff.1 hs
    cases heq
    have hlen := h.handles.length_eq
    obtain ⟨hk, rfl⟩ := List.getElem?_eq_some_iff.1 hx
    have hk' : k < l.handles.length := by omega
    have hsame : JNetIo.Same n.handles[k] l.handles[k] := h.handles.get hk hk'
    have hmem := List.getElem_mem hk'
    have hhas : n.conn.srv.mem.Has l.handles[k].file := h.mem ▸ h.has _ hmem
    have hans := JNetIo.call_answers hsame h.alive hhas (by simpa [NetState.ready, hx] using hr)
    rw [h.mem] at hans
    use { mem := (l.handles[k].call c l.mem).2.2, handles := l.handles.set k (l.handles[k].call c l.mem).2.1 }
    refine ⟨?_, hans.alive, hans.mem, forall₂_set h.handles hans.same k, ?_, JNetIo.ok_call h.ok⟩
    · simp [LocalState.call, hk', hans.ret]
    · intro y hy
      rcases List.mem_or_eq_of_mem_set hy with hy | rfl
      · exact LocalIo.call_has (h.has y hy)
      · rw [LocalIo.call_file]
        exact LocalIo.call_has (h.has _ hmem)

end SameState

/-- Runs of calls that the connection answers as independent handles would. -/
def NetState.ReadyStep (w : Wire) (n : NetState) (e : NetCall × Except FpErr FpRet) (n' : NetState) : Prop :=
  n.Step w e n' ∧ n.ready w e.1 = true

/-- **Remote handles.** In every run of ready calls from any buffers, each call returns what it
returns on independent handles in memory, and the buffers end equal. -/
theorem ready_local (w : Wire) (m : JMemFiles) {tr : List (NetCall × Except FpErr FpRet)} {n : NetState}
    (hr : Runs (NetState.ReadyStep w) { conn := { srv := { mem := m } } } tr n) :
    ∃ l, Runs LocalState.Step { mem := m } tr l ∧ l.mem = n.conn.srv.mem := by
  obtain ⟨l, hl, h⟩ : ∃ l, Runs LocalState.Step { mem := m } tr l ∧ SameState n l :=
    hr.simulate (SameState.init m) fun n l e n' h hs => h.call hs.2 hs.1
  exact ⟨l, hl, h.mem.symm⟩

/-- The integers and byte strings that msgpack packs. -/
def msgpack : Wire where
  int := fun i => -2 ^ 63 ≤ i ∧ i < 2 ^ 64
  bin := fun n => n < 2 ^ 32

/-- The steps of such runs, computed. -/
def NetState.readyNext (n : NetState) (e : NetCall × Except FpErr FpRet) : Option NetState :=
  (n.call msgpack e.1).bind fun x => if x.1 = e.2 ∧ n.ready msgpack e.1 = true then some x.2 else none

/-- Written and read back. -/
def writtenBack : List (NetCall × Except FpErr FpRet) :=
  [(.openFile .key ['w', 'b'], .ok (.handle 0)), (.io 0 (.write [97, 98]), .ok (.int 2)),
    (.io 0 (.seek 0 0), .ok (.int 0)), (.io 0 (.read none), .ok (.bytes [97, 98]))]

theorem ready_local_written : ∃ l, Runs LocalState.Step {} writtenBack l ∧ l.mem.KEY_file = [97, 98] := by
  obtain ⟨n, hr, hb⟩ := exists_runAll NetState.readyNext {} writtenBack
    (P := fun n => n.conn.srv.mem.KEY_file = [97, 98]) (by decide)
  have hr : Runs (NetState.ReadyStep msgpack) {} writtenBack n := hr.mono fun n e n' hs => by
    obtain ⟨x, hx, h⟩ := Option.bind_eq_some_iff.1 hs
    split at h
    · rename_i hc
      cases h
      exact ⟨by rw [NetState.Step, hx, ← hc.1], hc.2⟩
    · cases h
  obtain ⟨l, hl, hmem⟩ := ready_local msgpack {} hr
  exact ⟨l, hl, by rw [hmem]; simpa using hb⟩

/-- Two handles on one file, and a call on each. -/
def twoHandles : List NetCall :=
  [.openFile .key ['w', 'b'], .openFile .key ['w', 'b'], .io 0 (.write [97, 98]), .io 1 (.write [99])]

/-- Two handles on one file share the server's file object: the second goes on where the first
stopped, which it does not in memory. -/
theorem handles_share : ∃ n l,
    Runs (fun n c n' => (n.call msgpack c).map Prod.snd = some n') ({} : NetState) twoHandles n ∧
    Runs (fun l c l' => (l.call c).map Prod.snd = some l') ({} : LocalState) twoHandles l ∧
    n.conn.srv.mem.KEY_file = [97, 98, 99] ∧ l.mem.KEY_file = [99, 98] := by
  obtain ⟨n, hn, hbn⟩ := exists_runAll (fun n c => (n.call msgpack c).map Prod.snd) ({} : NetState) twoHandles
    (P := fun n => n.conn.srv.mem.KEY_file = [97, 98, 99]) (by decide)
  obtain ⟨l, hl, hbl⟩ := exists_runAll (fun l c => (LocalState.call l c).map Prod.snd) {} twoHandles
    (P := fun l => l.mem.KEY_file = [99, 98]) (by decide)
  exact ⟨n, l, hn, hl, by simpa using hbn, by simpa using hbl⟩

end OmniJsonDb
