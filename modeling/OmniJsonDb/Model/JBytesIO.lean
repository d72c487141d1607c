import OmniJsonDb.Model.Value

/-!
# Streams in memory

`JBytesIO`, the stream of a database that is kept in memory, and `io.BytesIO`, which it stands in
for. Both are a buffer and a position that may lie behind its end. Memory is taken to be large
enough for what is written.

* `JBytesIO.exec`: a call, as `jdb_file` answers it.
* `BytesIO.exec`: a call, as CPython answers it; its integers must fit `Py_ssize_t`.
-/

namespace OmniJsonDb

/-- What a call on a stream raises. -/
inductive StreamErr where
  | value
  | overflow
  deriving DecidableEq, Repr

inductive Whence where
  | SEEK_SET
  | SEEK_CUR
  | SEEK_END
  deriving DecidableEq, Repr

/-- A call on a stream; `readinto` is handed a buffer with what it holds. -/
inductive StreamCall where
  | read (size : Option ℤ)
  | readline (size : Option ℤ)
  | readlines (hint : Option ℤ)
  | readinto (b : Bytes)
  | write (b : Bytes)
  | writelines (lines : List Bytes)
  | seek (offset : ℤ) (whence : Whence)
  | tell
  | truncate (size : Option ℤ)
  deriving DecidableEq, Repr

/-- What a call returns; `readinto` also leaves something in the buffer it was handed. -/
inductive Reply where
  | bytes (b : Bytes)
  | lines (ls : List Bytes)
  | int (n : ℤ)
  | into (n : ℕ) (b : Bytes)
  | none
  deriving DecidableEq, Repr

/-- `b[start:stop]`. -/
def byteSlice (b : Bytes) (start stop : ℕ) : Bytes := (b.take stop).drop start

def NEWLINE : UInt8 := 10

/-! ## `JBytesIO` -/

structure JBytesIO where
  buf : Bytes
  idx : ℕ := 0
  deriving DecidableEq, Repr

namespace JBytesIO

/-- `max_size if size is None or size < 0 else min(max_size, idx+size)`. -/
def endIdx (s : JBytesIO) (size : Option ℤ) : ℕ :=
  match size with
  | none => s.buf.length
  | some n => if n < 0 then s.buf.length else min s.buf.length (s.idx + n.toNat)

/-- `buf.find(b'\n', start, stop)`. -/
def findNewline (buf : Bytes) (start stop : ℕ) : Option ℕ :=
  ((byteSlice buf start stop).idxOf? NEWLINE).map (start + ·)

def readline (s : JBytesIO) (size : Option ℤ) : Bytes × JBytesIO :=
  if s.buf.length ≤ s.idx then ([], s)
  else
    let maxIdx := s.endIdx size
    match findNewline s.buf s.idx maxIdx with
    | none => (byteSlice s.buf s.idx maxIdx, { s with idx := maxIdx })
    | some i =>
      let nextIdx := min maxIdx (i + 1)
      (byteSlice s.buf s.idx nextIdx, { s with idx := nextIdx })

/-- The loop of `readlines`; a line takes a byte at least. -/
def readLoop (hint : Option ℤ) : ℕ → ℤ → JBytesIO → List Bytes × JBytesIO
  | 0, _, s => ([], s)
  | fuel + 1, totalRead, s =>
    let (line, s') := s.readline none
    if line = [] then ([], s')
    else
      let totalRead := totalRead + line.length
      if hint.any fun h => 0 < h && h < totalRead then ([line], s')
      else
        let (lines, s'') := readLoop hint fuel totalRead s'
        (line :: lines, s'')

def readlines (s : JBytesIO) (hint : Option ℤ) : List Bytes × JBytesIO :=
  if s.buf.length ≤ s.idx then ([], s) else readLoop hint (s.buf.length - s.idx) 0 s

def seek (s : JBytesIO) (offset : ℤ) (whence : Whence) : Except StreamErr ℤ × JBytesIO :=
  let nextIdx : ℤ := match whence with
    | .SEEK_SET => offset
    | .SEEK_END => s.buf.length + offset
    | .SEEK_CUR => s.idx + offset
  if nextIdx < 0 then (.error .value, s) else (.ok nextIdx, { s with idx := nextIdx.toNat })

def truncate (s : JBytesIO) (size : Option ℤ) : Except StreamErr ℤ × JBytesIO :=
  let size : ℤ := size.getD s.idx
  if size < 0 then (.error .value, s)
  else (.ok size, if size < s.buf.length then { s with buf := s.buf.take size.toNat } else s)

def read (s : JBytesIO) (size : Option ℤ) : Bytes × JBytesIO :=
  let nextIdx := s.endIdx size
  if nextIdx ≤ s.idx then ([], s) else (byteSlice s.buf s.idx nextIdx, { s with idx := nextIdx })

/-- The number of bytes read, and what `b` holds after. -/
def readinto (s : JBytesIO) (b : Bytes) : (ℕ × Bytes) × JBytesIO :=
  if s.buf.length ≤ s.idx then ((0, b), s)
  else
    let rdSize := min b.length (s.buf.length - s.idx)
    if 0 < rdSize then
      ((rdSize, byteSlice s.buf s.idx (s.idx + rdSize) ++ b.drop rdSize), { s with idx := s.idx + rdSize })
    else ((0, b), s)

def write (s : JBytesIO) (b : Bytes) : ℕ × JBytesIO :=
  let nByte := b.length
  if nByte = 0 then (0, s)
  else
    -- the gap of a seek behind the end is filled with zeros
    let buf := if s.buf.length < s.idx then s.buf ++ List.replicate (s.idx - s.buf.length) 0 else s.buf
    if buf.length ≤ s.idx then (nByte, ⟨buf ++ b, (buf ++ b).length⟩)
    else (nByte, ⟨buf.take s.idx ++ b ++ buf.drop (s.idx + nByte), s.idx + nByte⟩)

def writelines (s : JBytesIO) (lines : List Bytes) : JBytesIO := lines.foldl (fun s line => (s.write line).2) s

/-- A call, and the stream after it. -/
def exec (c : StreamCall) (s : JBytesIO) : Except StreamErr Reply × JBytesIO :=
  match c with
  | .read size => let (b, s') := s.read size; (.ok (.bytes b), s')
  | .readline size => let (b, s') := s.readline size; (.ok (.bytes b), s')
  | .readlines hint => let (ls, s') := s.readlines hint; (.ok (.lines ls), s')
  | .readinto b => let ((n, b'), s') := s.readinto b; (.ok (.into n b'), s')
  | .write b => let (n, s') := s.write b; (.ok (.int n), s')
  | .writelines lines => (.ok .none, s.writelines lines)
  | .seek offset whence => let (r, s') := s.seek offset whence; (r.map .int, s')
  | .tell => (.ok (.int s.idx), s)
  | .truncate size => let (r, s') := s.truncate size; (r.map .int, s')

end JBytesIO

/-! ## `io.BytesIO` -/

/-- `PY_SSIZE_T_MAX`. -/
def SSIZE_MAX : ℤ := 2 ^ 63 - 1

/-- An integer that can be handed on as a `Py_ssize_t`; for others there is an `OverflowError`. -/
def FitsSsize (n : ℤ) : Prop := -SSIZE_MAX - 1 ≤ n ∧ n ≤ SSIZE_MAX

instance (n : ℤ) : Decidable (FitsSsize n) := inferInstanceAs (Decidable (_ ∧ _))

/-- A size that is left out, or can be handed on. -/
def SizeFits (size : Option ℤ) : Prop := ∀ n, size = some n → FitsSsize n

instance (size : Option ℤ) : Decidable (SizeFits size) :=
  match size with
  | none => isTrue fun _ h => by cases h
  | some n => decidable_of_iff (FitsSsize n) (by simp [SizeFits])

structure BytesIO where
  buf : Bytes
  pos : ℕ := 0
  deriving DecidableEq, Repr

namespace BytesIO

/-- `scan_eol`: how many bytes the line has, `len` at most; a negative one is no limit. -/
def scanEol (s : BytesIO) (len : ℤ) : ℕ :=
  if s.buf.length ≤ s.pos then 0
  else
    let maxlen := s.buf.length - s.pos
    let len := if len < 0 ∨ maxlen < len then maxlen else len.toNat
    (((s.buf.drop s.pos).take len).idxOf? NEWLINE).elim len (· + 1)

/-- `read_bytes`. -/
def readBytes (s : BytesIO) (n : ℕ) : Bytes × BytesIO :=
  ((s.buf.drop s.pos).take n, { s with pos := s.pos + n })

def read (s : BytesIO) (size : Option ℤ) : Bytes × BytesIO :=
  let size := size.getD (-1)
  let n := s.buf.length - s.pos
  s.readBytes (if size < 0 ∨ n < size then n else size.toNat)

def readline (s : BytesIO) (size : Option ℤ) : Bytes × BytesIO := s.readBytes (s.scanEol (size.getD (-1)))

/-- The loop of `readlines`. -/
def readLoop (maxsize : ℤ) : ℕ → ℤ → BytesIO → List Bytes × BytesIO
  | 0, _, s => ([], s)
  | fuel + 1, size, s =>
    let n := s.scanEol (-1)
    if n = 0 then ([], s)
    else
      let (line, s') := s.readBytes n
      let size := size + n
      if 0 < maxsize ∧ maxsize ≤ size then ([line], s')
      else
        let (lines, s'') := readLoop maxsize fuel size s'
        (line :: lines, s'')

def readlines (s : BytesIO) (size : Option ℤ) : List Bytes × BytesIO :=
  readLoop (size.getD (-1)) (s.buf.length - s.pos) 0 s

def readinto (s : BytesIO) (b : Bytes) : (ℕ × Bytes) × BytesIO :=
  let n := min b.length (s.buf.length - s.pos)
  ((n, (s.buf.drop s.pos).take n ++ b.drop n), { s with pos := s.pos + n })

/-- `write_bytes`. -/
def write (s : BytesIO) (b : Bytes) : ℕ × BytesIO :=
  if b.length = 0 then (0, s)
  else (b.length, ⟨s.buf.take s.pos ++ List.replicate (s.pos - s.buf.length) 0 ++ b
    ++ s.buf.drop (s.pos + b.length), s.pos + b.length⟩)

def writelines (s : BytesIO) (lines : List Bytes) : BytesIO := lines.foldl (fun s line => (s.write line).2) s

/-- A seek relative to the end or the position stops at the start of the buffer. -/
def seek (s : BytesIO) (offset : ℤ) (whence : Whence) : Except StreamErr ℤ × BytesIO :=
  if ¬ FitsSsize offset then (.error .overflow, s)
  else
    match whence with
    | .SEEK_SET => if offset < 0 then (.error .value, s) else (.ok offset, { s with pos := offset.toNat })
    | .SEEK_CUR => relative s.pos
    | .SEEK_END => relative s.buf.length
where
  relative (base : ℤ) : Except StreamErr ℤ × BytesIO :=
    if SSIZE_MAX - base < offset then (.error .overflow, s)
    else (.ok (max 0 (base + offset)), { s with pos := (base + offset).toNat })

def truncate (s : BytesIO) (size : Option ℤ) : Except StreamErr ℤ × BytesIO :=
  let size : ℤ := size.getD s.pos
  if size < 0 then (.error .value, s) else (.ok size, { s with buf := s.buf.take size.toNat })

/-- A call, and the stream after it. -/
def exec (c : StreamCall) (s : BytesIO) : Except StreamErr Reply × BytesIO :=
  match c with
  | .read size => sized size (let (b, s') := s.read size; (.ok (.bytes b), s'))
  | .readline size => sized size (let (b, s') := s.readline size; (.ok (.bytes b), s'))
  | .readlines hint => sized hint (let (ls, s') := s.readlines hint; (.ok (.lines ls), s'))
  | .readinto b => let ((n, b'), s') := s.readinto b; (.ok (.into n b'), s')
  | .write b => let (n, s') := s.write b; (.ok (.int n), s')
  | .writelines lines => (.ok .none, s.writelines lines)
  | .seek offset whence => let (r, s') := s.seek offset whence; (r.map .int, s')
  | .tell => (.ok (.int s.pos), s)
  | .truncate size => sized size (let (r, s') := s.truncate size; (r.map .int, s'))
where
  /-- The size is converted before anything is read. -/
  sized (size : Option ℤ) (r : Except StreamErr Reply × BytesIO) : Except StreamErr Reply × BytesIO :=
    if SizeFits size then r else (.error .overflow, s)

end BytesIO

end OmniJsonDb
