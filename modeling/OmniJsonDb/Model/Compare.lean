import OmniJsonDb.Model.JBytesIO
import OmniJsonDb.Model.Write

/-!
# Comparing a stored value with a new one

The byte comparison of `f_write`, block by block, as it reads the VAL file.

* `compareBlocks`: the loop over whole blocks.
* `compareValue`: the comparison, with what is left behind the last whole block.
-/

namespace OmniJsonDb

def MAX_BLOCK_SIZE : ℕ := 2 ^ 18

/-- `val_fp.readinto(buf)` at a position: the buffer, and the position after. -/
def ByteFile.readinto (f : ByteFile) (pos : ℕ) (buf : Bytes) : Bytes × ℕ :=
  let got := f.read pos buf.length
  (got ++ buf.drop got.length, pos + got.length)

/-- The loop over `n` blocks from the block `ii` on, of which `data` holds the new bytes; `none` is
`is_same = False`, else `_ix` and the position of the file. -/
def compareBlocks (gz : Bool) (f : ByteFile) (data : Bytes) (rdSize : ℕ) :
    ℕ → ℕ → ℕ → ℕ → Bytes → Option (ℕ × ℕ)
  | 0, _, ix, pos, _ => some (ix, pos)
  | n + 1, ii, ix, pos, buf =>
    let (buf, pos) := f.readinto pos buf
    let nextIx := ix + rdSize
    if buf = byteSlice data ix nextIx then compareBlocks gz f data rdSize n (ii + 1) nextIx pos buf
    else if ii = 0 ∧ 16 ≤ data.length ∧ gz = true then
      -- the time in the header of gzip
      let buf := byteSlice buf 0 4 ++ byteSlice data 4 8 ++ buf.drop 8
      if buf = byteSlice data ix nextIx then compareBlocks gz f data rdSize n (ii + 1) nextIx pos buf
      else none
    else none

/-- `is_same` of `f_write`, of `data` and what the file holds at `offset`; `none` is
`UnboundLocalError`: without a block `_ix` has no value. -/
def compareValue (gz : Bool) (f : ByteFile) (offset : ℕ) (data : Bytes) : Option Bool :=
  let newValSize := data.length
  let rdSize := min MAX_BLOCK_SIZE newValSize
  let buf := List.replicate rdSize 0
  if 0 < newValSize then
    match compareBlocks gz f data rdSize (newValSize / rdSize) 0 0 offset buf with
    | some (ix, pos) =>
      let rdSize := newValSize - ix
      some (if 0 < rdSize then f.read pos rdSize = byteSlice data ix (ix + rdSize) else rdSize = 0)
    | none => some false
  else none

end OmniJsonDb
