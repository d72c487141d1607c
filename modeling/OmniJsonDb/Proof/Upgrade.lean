import OmniJsonDb.Proof.JBytesIO
import OmniJsonDb.Model.Upgrade

/-!
# What an upgrade copies

The last read fills the buffer only in part, but all of it is written: what stood behind is left over
from the read before.

* `copyFile_spec`: the file, and how many bytes too many.
* `upgrade_iff`: the files that are copied as they are.
-/

namespace OmniJsonDb

/-! ## The loop -/

namespace JBytesIO

variable {s : JBytesIO}

/-- What lies before the position, and behind it. -/
def before (s : JBytesIO) : Bytes := s.buf.take s.idx
def behind (s : JBytesIO) : Bytes := s.buf.drop s.idx

/-- The position is not behind the end. -/
def Inside (s : JBytesIO) : Prop := s.idx ≤ s.buf.length

theorem write_before (h : s.Inside) (b : Bytes) :
    (s.write b).2.before = s.before ++ b ∧ (s.write b).2.Inside := by
  have hgap : s.idx - s.buf.length = 0 := by unfold Inside at h; omega
  have hw : (s.write b).2.plain = (s.plain.write b).2 := congrArg Prod.snd (write_plain b)
  have hbefore : ∀ t : JBytesIO, t.before = t.plain.buf.take t.plain.pos := fun t => rfl
  have hlen : (s.buf.take s.idx).length = s.idx := by
    rw [List.length_take]
    exact min_eq_left h
  unfold Inside
  change _ ∧ (s.write b).2.plain.pos ≤ (s.write b).2.plain.buf.length
  rw [hbefore, hw]
  unfold BytesIO.write
  by_cases hb : b.length = 0
  · obtain rfl := List.eq_nil_of_length_eq_zero hb
    rw [if_pos List.length_nil]
    exact ⟨(List.append_nil _).symm, h⟩
  · rw [if_neg hb]
    change (s.buf.take s.idx ++ List.replicate (s.idx - s.buf.length) 0 ++ b ++ s.buf.drop (s.idx + b.length)).take
        (s.idx + b.length) = s.buf.take s.idx ++ b ∧
      s.idx + b.length ≤ (s.buf.take s.idx ++ List.replicate (s.idx - s.buf.length) 0 ++ b
        ++ s.buf.drop (s.idx + b.length)).length
    rw [hgap, List.replicate_zero, List.append_nil]
    refine ⟨List.take_left' (by rw [List.length_append, hlen]), ?_⟩
    rw [List.length_append, List.length_append, hlen]
    omega

end JBytesIO

/-- How many bytes the last buffer has too many. -/
def surplus (size n : ℕ) : ℕ := (size - n % size) % size

/-- **The loop** writes what is left of the source, and fills up the last buffer. -/
theorem copyLoop_spec {size : ℕ} (hsize : 0 < size) (fuel : ℕ) : ∀ (buf : Bytes) (src dst : JBytesIO),
    buf.length = size → dst.Inside → src.behind.length < fuel →
    ∃ stale, (copyLoop size fuel buf src dst).before = dst.before ++ src.behind ++ stale ∧
      stale.length = surplus size src.behind.length := by
  induction fuel with
  | zero => intro _ _ _ _ _ h; exact absurd h (Nat.not_lt_zero _)
  | succ fuel ih =>
    intro buf src dst hbuf hdst hfuel
    set n := min size src.behind.length with hn
    have hread : src.readinto buf = ((n, src.behind.take n ++ buf.drop n), src.skip n) := by
      have h := JBytesIO.readinto_plain (s := src) buf
      have hlen : src.behind.length = src.buf.length - src.idx := List.length_drop
      rcases hr : src.readinto buf with ⟨⟨m, b⟩, ⟨sbuf, sidx⟩⟩
      rw [hr] at h
      simp only [Prod.map, id, JBytesIO.plain, BytesIO.readinto, hbuf, ← hlen, ← hn, Prod.mk.injEq,
        BytesIO.mk.injEq] at h
      obtain ⟨⟨rfl, rfl⟩, rfl, rfl⟩ := h
      rfl
    have hskip : (src.skip n).behind = src.behind.drop n := (List.drop_drop ..).symm
    rw [copyLoop, hread]
    dsimp only
    rcases Nat.lt_or_ge src.behind.length size with hlt | hge
    · -- the last read
      have hlast : n = src.behind.length := min_eq_right hlt.le
      have hne : n ≠ size := by omega
      have htake : src.behind.take n = src.behind := List.take_of_length_le hlast.ge
      rw [if_neg hne, htake]
      by_cases hzero : 0 < n
      · obtain ⟨hbefore, -⟩ := JBytesIO.write_before hdst (src.behind ++ buf.drop n)
        rw [if_pos hzero, hbefore, ← List.append_assoc]
        refine ⟨buf.drop n, rfl, ?_⟩
        rw [List.length_drop, hbuf, surplus, Nat.mod_eq_of_lt hlt, ← hlast, Nat.mod_eq_of_lt (by omega)]
      · have hnil : src.behind = [] := List.eq_nil_of_length_eq_zero (by omega)
        rw [if_neg hzero, hnil]
        exact ⟨[], by simp, by simp [surplus]⟩
    · -- a full buffer
      have hfull : n = size := min_eq_left hge
      have hdrop : buf.drop n = [] := List.drop_eq_nil_of_le (by omega)
      obtain ⟨hbefore, hinside⟩ := JBytesIO.write_before hdst (src.behind.take n)
      rw [if_pos hfull, if_pos (by omega), hdrop, List.append_nil]
      have hbuf' : (src.behind.take n).length = size := by
        rw [List.length_take]
        omega
      have hfuel' : (src.skip n).behind.length < fuel := by
        rw [hskip, List.length_drop]
        omega
      obtain ⟨stale, heq, hstale⟩ := ih _ (src.skip n) _ hbuf' hinside hfuel'
      refine ⟨stale, ?_, ?_⟩
      · rw [heq, hbefore, hskip, List.append_assoc dst.before, List.take_append_drop]
      · rw [hstale, hskip, List.length_drop, hfull, surplus, surplus, Nat.mod_eq_sub_mod hge]

/-- **A file is copied** with what is left over in the buffer behind it. -/
theorem copyFile_spec {size : ℕ} (hsize : 0 < size) (src : Bytes) {dst : JBytesIO} (hdst : dst.idx = 0) :
    ∃ stale, copyFile size src dst = src ++ stale ∧ stale.length = surplus size src.length := by
  have hinside : dst.Inside := by
    unfold JBytesIO.Inside
    omega
  obtain ⟨stale, heq, hstale⟩ := copyLoop_spec hsize (src.length + 1) (List.replicate size 0) ⟨src, 0⟩ dst
    List.length_replicate hinside (Nat.lt_succ_self _)
  refine ⟨stale, ?_, hstale⟩
  have hbefore : dst.before = [] := by
    unfold JBytesIO.before
    rw [hdst, List.take_zero]
  have hcut : copyFile size src dst = (copyLoop size (src.length + 1) (List.replicate size 0) ⟨src, 0⟩ dst).before := by
    have h := congrArg Prod.snd ( JBytesIO.truncate_plain
      (s := copyLoop size (src.length + 1) (List.replicate size 0) ⟨src, 0⟩ dst) none)
    have hpos : ∀ t : BytesIO, (t.truncate none).2.buf = t.buf.take t.pos := fun t => by
      have hneg : ¬ ((Option.none : Option ℤ).getD t.pos < 0) := by simp
      unfold BytesIO.truncate
      rw [if_neg hneg]
      rfl
    exact (congrArg BytesIO.buf h).trans (hpos _)
  rw [hcut, heq, hbefore]
  rfl

theorem surplus_eq_zero {size n : ℕ} (hsize : 0 < size) : surplus size n = 0 ↔ size ∣ n := by
  have hlt := Nat.mod_lt n hsize
  unfold surplus
  rw [Nat.dvd_iff_mod_eq_zero]
  by_cases h : n % size = 0
  · simp [h]
  · rw [Nat.mod_eq_of_lt (by omega)]
    omega

/-- It is copied as it is just when its size is a multiple of the buffer's. -/
theorem copyFile_eq_iff {size : ℕ} (hsize : 0 < size) (src : Bytes) {dst : JBytesIO} (hdst : dst.idx = 0) :
    copyFile size src dst = src ↔ size ∣ src.length := by
  obtain ⟨stale, heq, hstale⟩ := copyFile_spec hsize src hdst
  rw [heq, ← surplus_eq_zero hsize, ← hstale, List.append_right_eq_self, List.length_eq_zero_iff]

/-! ## All files -/

theorem valBuf_pos : 0 < VAL_FILE_BUF_SIZE := by decide
theorem keyBuf_pos : 0 < KEY_FILE_BUF_SIZE := by decide

theorem valWrite_idx (k : Backend) (f : Option Bytes) : (k.valWrite f).idx = 0 := by cases k <;> rfl

/-- A VAL file as it is read. -/
def Storage.content (s : Storage) (id : ℕ) : Bytes := (s.vals id).getD []

theorem valRead_eq_some {k : Backend} {bak : Storage} {id : ℕ} (h : k = .disk → bak.vals id ≠ none) :
    k.valRead (bak.vals id) = some (bak.content id) := by
  cases k with
  | mem => rfl
  | disk =>
    obtain ⟨b, hb⟩ := Option.ne_none_iff_exists'.1 (h rfl)
    rw [Storage.content, hb]
    rfl

theorem valRead_eq_none {k : Backend} {bak : Storage} {id : ℕ} (h : ¬ (k = .disk → bak.vals id ≠ none)) :
    k.valRead (bak.vals id) = none := by
  push Not at h
  obtain ⟨rfl, hid⟩ := h
  exact hid

/-- **The VAL files**: when those that are read are there, each of them is copied, and no other. -/
theorem copyVals_spec {k : Backend} (ids : List ℕ) : ∀ {self bak : Storage},
    (k = .disk → ∀ id ∈ ids, bak.vals id ≠ none) →
    ∃ self' bak', copyVals k ids self bak = some (self', bak') ∧ self'.key = self.key ∧ bak'.key = bak.key ∧
      (∀ id ∉ ids, self'.vals id = self.vals id ∧ bak'.vals id = bak.vals id) ∧
      ∀ id ∈ ids, bak'.vals id = some (bak.content id) ∧
        (self'.vals id = bak'.vals id ↔ VAL_FILE_BUF_SIZE ∣ (bak.content id).length) := by
  induction ids with
  | nil => exact fun _ => ⟨_, _, rfl, rfl, rfl, fun _ _ => ⟨rfl, rfl⟩, fun _ h => absurd h List.not_mem_nil⟩
  | cons i ids ih =>
    intro self bak h
    have hread : k.valRead (bak.vals i) = some (bak.content i) :=
      valRead_eq_some fun hk => h hk i (List.mem_cons_self ..)
    rw [copyVals, hread]
    set copy := copyFile VAL_FILE_BUF_SIZE (bak.content i) (k.valWrite (self.vals i))
    have hcopy : copy = bak.content i ↔ VAL_FILE_BUF_SIZE ∣ (bak.content i).length :=
      copyFile_eq_iff valBuf_pos _ (valWrite_idx k _)
    set self₁ : Storage := { self with vals := Function.update self.vals i (some copy) }
    set bak₁ : Storage := { bak with vals := Function.update bak.vals i (some (bak.content i)) }
    have hself₁ : ∀ id, self₁.vals id = if id = i then some copy else self.vals id := fun id => Function.update_apply ..
    have hbak₁ : ∀ id, bak₁.vals id = if id = i then some (bak.content i) else bak.vals id :=
      fun id => Function.update_apply ..
    have hcontent : ∀ id, bak₁.content id = bak.content id := by
      intro id
      unfold Storage.content
      rw [hbak₁]
      split
      · rename_i heq
        rw [heq]
        rfl
      · rfl
    have h₁ : k = .disk → ∀ id ∈ ids, bak₁.vals id ≠ none := by
      intro hk id hid
      rw [hbak₁]
      split
      · exact Option.some_ne_none _
      · exact h hk id (List.mem_cons_of_mem _ hid)
    obtain ⟨self', bak', hrun, hkey, hbkey, hother, hin⟩ := ih h₁
    refine ⟨self', bak', hrun, hkey, hbkey, fun id hid => ?_, fun id hid => ?_⟩
    · obtain ⟨hne, hnot⟩ := not_or.1 fun h => hid (List.mem_cons.2 h)
      rw [(hother id hnot).1, (hother id hnot).2, hself₁, hbak₁, if_neg hne, if_neg hne]
      exact ⟨rfl, rfl⟩
    · by_cases hmem : id ∈ ids
      · rw [← hcontent id]
        exact hin id hmem
      · obtain rfl : id = i := (List.mem_cons.1 hid).resolve_right hmem
        rw [(hother id hmem).1, (hother id hmem).2, hself₁, hbak₁, if_pos rfl, if_pos rfl, ← hcopy]
        exact ⟨rfl, Option.some_inj⟩

theorem copyVals_none {k : Backend} (ids : List ℕ) : ∀ {self bak : Storage},
    ¬ (k = .disk → ∀ id ∈ ids, bak.vals id ≠ none) → copyVals k ids self bak = none := by
  induction ids with
  | nil => exact fun h => absurd (fun _ _ hid => absurd hid List.not_mem_nil) h
  | cons i ids ih =>
    intro self bak h
    rw [copyVals]
    by_cases hi : k = .disk → bak.vals i ≠ none
    · rw [valRead_eq_some hi]
      refine ih fun hall => h fun hk id hid => ?_
      by_cases heq : id = i
      · exact heq ▸ hi hk
      · have hid' := hall hk id ((List.mem_cons.1 hid).resolve_left heq)
        dsimp only at hid'
        rwa [Function.update_of_ne heq] at hid'
    · rw [valRead_eq_none hi]

/-- **An upgrade that finds its files**: which of them are the backup's after it. -/
theorem upgrade_spec {k : Backend} (oldTable : List ℕ) {bakTable : List ℕ} (self : Storage) {bak : Storage}
    (hvals : k = .disk → ∀ id ∈ bakTable, bak.vals id ≠ none) (hkey : k = .mem → bak.key ≠ []) :
    ∃ self' bak', upgrade k oldTable bakTable self bak = some (self', bak') ∧
      (self'.key = bak'.key ↔ KEY_FILE_BUF_SIZE ∣ bak.key.length) ∧
      (∀ id ∈ bakTable, (self'.vals id = bak'.vals id ↔ VAL_FILE_BUF_SIZE ∣ (bak.content id).length)) ∧
      ∀ id ∉ bakTable, self'.vals id = (if id ∈ oldTable then none else self.vals id) ∧ bak'.vals id = bak.vals id := by
  obtain ⟨self₁, bak₁, hrun, -, hbkey, hother, hin⟩ := @copyVals_spec k bakTable self bak hvals
  have hread : k.keyRead bak₁.key = some bak₁.key := if_neg fun h => hkey h.1 (hbkey ▸ h.2)
  rw [upgrade, hrun]
  dsimp only
  rw [hread]
  refine ⟨_, _, rfl, ?_, fun id hid => ?_, fun id hid => ?_⟩
  · rw [← hbkey]
    exact copyFile_eq_iff keyBuf_pos _ rfl
  · have hstay : (removeVals oldTable bakTable self₁).vals id = self₁.vals id := if_neg fun h => h.2 hid
    dsimp only
    rw [hstay]
    exact (hin id hid).2
  · dsimp only [removeVals]
    rw [(hother id hid).1, (hother id hid).2]
    simp [hid]

/-- **When an upgrade copies what it read**: on disk every VAL file of the backup's file table is there, and
in memory its KEY file is not empty; all have the size of some full buffers; and a VAL file that the backup's
file table does not have is removed, or was none, or is the same in both. -/
structure CopiesAll (k : Backend) (oldTable bakTable : List ℕ) (db bak : Storage) : Prop where
  found : k = .disk → ∀ id ∈ bakTable, bak.vals id ≠ none
  keyFound : k = .mem → bak.key ≠ []
  vals : ∀ id ∈ bakTable, VAL_FILE_BUF_SIZE ∣ (bak.content id).length
  others : ∀ id ∉ bakTable, (if id ∈ oldTable then none else db.vals id) = bak.vals id
  key : KEY_FILE_BUF_SIZE ∣ bak.key.length

/-- **An upgrade** leaves just the files of the backup under that condition. -/
theorem upgrade_iff (k : Backend) (oldTable bakTable : List ℕ) (self bak : Storage) :
    (∃ bak', upgrade k oldTable bakTable self bak = some (bak', bak')) ↔ CopiesAll k oldTable bakTable self bak := by
  by_cases hvals : k = .disk → ∀ id ∈ bakTable, bak.vals id ≠ none
  · by_cases hkey : k = .mem → bak.key ≠ []
    · obtain ⟨self', bak', hrun, hk, hin, hother⟩ := upgrade_spec oldTable self hvals hkey
      constructor
      · rintro ⟨bak'', heq⟩
        obtain ⟨rfl, rfl⟩ := Prod.mk.inj (Option.some.inj (hrun.symm.trans heq))
        refine ⟨hvals, hkey, fun id hid => (hin id hid).1 rfl, fun id hid => ?_, hk.1 rfl⟩
        rw [← (hother id hid).1, ← (hother id hid).2]
      · intro h
        have hsame : self' = bak' := by
          refine Storage.mk.injEq .. ▸ ⟨hk.2 h.key, funext fun id => ?_⟩
          by_cases hid : id ∈ bakTable
          · exact (hin id hid).2 (h.vals id hid)
          · rw [(hother id hid).1, (hother id hid).2]
            exact h.others id hid
        exact ⟨bak', hsame ▸ hrun⟩
    · refine iff_of_false ?_ fun h => hkey h.keyFound
      obtain ⟨self₁, bak₁, hrun, -, hbkey, -⟩ := @copyVals_spec k bakTable self bak hvals
      push Not at hkey
      have hread : k.keyRead bak₁.key = none := if_pos (hbkey ▸ hkey)
      rw [upgrade, hrun]
      dsimp only
      rw [hread]
      rintro ⟨_, h⟩
      cases h
  · refine iff_of_false ?_ fun h => hvals h.found
    rw [upgrade, copyVals_none bakTable hvals]
    rintro ⟨_, h⟩
    cases h

/-- A backup in memory with a VAL file of 21 bytes: the copy has 8192. -/
theorem upgrade_fills : ¬ ∃ bak', upgrade .mem [0] [0] ⟨List.replicate 208 91, fun _ => none⟩
    ⟨List.replicate 208 91, fun id => if id = 0 then some (List.replicate 21 10) else none⟩ = some (bak', bak') := by
  rintro ⟨bak', h⟩
  obtain ⟨self₁, bak₁, hrun, -, hin, -⟩ := @upgrade_spec .mem [0] [0] ⟨List.replicate 208 91, fun _ => none⟩
    ⟨List.replicate 208 91, fun id => if id = 0 then some (List.replicate 21 10) else none⟩
    (fun hk => by cases hk) (fun _ => by simp)
  obtain ⟨rfl, rfl⟩ := Prod.mk.inj (Option.some.inj (hrun.symm.trans h))
  have hdvd := (hin 0 (List.mem_singleton.2 rfl)).1 rfl
  simp [Storage.content, VAL_FILE_BUF_SIZE, DEFAULT_BUFFER_SIZE] at hdvd

end OmniJsonDb
