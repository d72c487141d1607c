import Mathlib.Tactic.Common

/-!
# Files of bytes

A file as its size and its bytes, with reads and writes at an offset. A write past
the end leaves zeros in between; a read past the end is short.

* `read_write_of_disjoint`: a write leaves every range it does not meet alone.
* `read_write_self`: what was written is read back.
-/

namespace OmniJsonDb

structure ByteFile where
  size : ℕ
  byte : ℕ → UInt8

namespace ByteFile

def empty : ByteFile := ⟨0, fun _ => 0⟩

/-- `seek(off); write(data)`. -/
def write (f : ByteFile) (off : ℕ) (data : List UInt8) : ByteFile where
  size := max f.size (off + data.length)
  byte i := if off ≤ i then (data[i - off]?).getD (f.byte i) else f.byte i

/-- `seek(off); read(n)`. -/
def read (f : ByteFile) (off n : ℕ) : List UInt8 :=
  (List.range (min n (f.size - off))).map fun i => f.byte (off + i)

/-- `seek(n); truncate()`. -/
def truncate (f : ByteFile) (n : ℕ) : ByteFile where
  size := n
  byte i := if i < n ∧ i < f.size then f.byte i else 0

variable (f : ByteFile)

theorem byte_write_of_not_mem {off i : ℕ} {data : List UInt8} (h : i < off ∨ off + data.length ≤ i) :
    (f.write off data).byte i = f.byte i := by
  unfold write
  simp only
  split
  · rw [List.getElem?_eq_none (by omega)]; rfl
  · rfl

/-- **Frame.** A write leaves every range it does not meet alone. -/
theorem read_write_of_disjoint {off a n : ℕ} {data : List UInt8} (hn : a + n ≤ f.size)
    (h : a + n ≤ off ∨ off + data.length ≤ a) : (f.write off data).read a n = f.read a n := by
  unfold read
  have hs : (f.write off data).size = max f.size (off + data.length) := rfl
  rw [hs, show min n (max f.size (off + data.length) - a) = n by omega,
    show min n (f.size - a) = n by omega]
  refine List.map_congr_left fun i hi => f.byte_write_of_not_mem ?_
  have := List.mem_range.1 hi
  omega

/-- What was written is read back. -/
theorem read_write_self (off : ℕ) (data : List UInt8) :
    (f.write off data).read off data.length = data := by
  unfold read
  have hs : (f.write off data).size = max f.size (off + data.length) := rfl
  rw [hs, show min data.length (max f.size (off + data.length) - off) = data.length by omega]
  refine List.ext_getElem (by simp) fun i h1 h2 => ?_
  simp only [List.getElem_map, List.getElem_range, write]
  rw [if_pos (by omega), Nat.add_sub_cancel_left, List.getElem?_eq_getElem h2]
  rfl

/-- A shorter read is the beginning of a longer one. -/
theorem take_read {off m n : ℕ} (h : m ≤ n) : (f.read off n).take m = f.read off m := by
  unfold read
  rw [← List.map_take, List.take_range]
  congr 2
  omega

/-- The beginning of what was written is read back. -/
theorem read_write_append (off : ℕ) (data rest : List UInt8) :
    (f.write off (data ++ rest)).read off data.length = data := by
  rw [← take_read _ (n := (data ++ rest).length) (by simp), f.read_write_self]
  simp

/-- What a file keeps when it is cut is read as before. -/
theorem read_truncate {a m n : ℕ} (hn : a + m ≤ f.size) (h : a + m ≤ n) :
    (f.truncate n).read a m = f.read a m := by
  unfold read
  rw [show (f.truncate n).size = n from rfl, show min m (n - a) = m by omega, show min m (f.size - a) = m by omega]
  refine List.map_congr_left fun i hi => ?_
  have := List.mem_range.1 hi
  exact if_pos ⟨by omega, by omega⟩

@[simp] theorem length_read (off n : ℕ) : (f.read off n).length = min n (f.size - off) := by
  simp [read]

theorem size_le_write (off : ℕ) (data : List UInt8) : f.size ≤ (f.write off data).size :=
  Nat.le_max_left _ _

theorem end_le_write (off : ℕ) (data : List UInt8) :
    off + data.length ≤ (f.write off data).size := Nat.le_max_right _ _

end ByteFile

end OmniJsonDb
