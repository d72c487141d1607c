import OmniJsonDb.Model.Value

/-!
# Files over a network

The file objects of an in-memory store, and the same files behind a server: a connection keeps
one file object for each file, and a `JNetIo` on the client's side keeps its own offset.

* `JBytesIo.call`: the calls on a file object in memory.
* `NetServer.exec`: the commands to the files `KEY` and `VAL.n` of a connection.
* `JNetIo.call`, `NetState.call`: the client.
* `LocalState.call`: independent file objects over the same buffers.
-/

namespace OmniJsonDb

inductive NetFile where
  | key
  | val (fileId : ℤ)
  deriving DecidableEq, Repr

/-- The calls on a file object; `readinto` is given a buffer. -/
inductive FpCall where
  | seek (offset whence : ℤ)
  | tell
  | read (size : Option ℤ)
  | readinto (b : Bytes)
  | readline (size : Option ℤ)
  | write (b : Bytes)
  | writelines (lines : List Bytes)
  | truncate (size : Option ℤ)
  | flush
  | close
  deriving DecidableEq, Repr

/-- What a call returns; `into` is the count of `readinto` with the buffer it leaves. -/
inductive FpRet where
  | none
  | int (i : ℤ)
  | bytes (b : Bytes)
  | into (n : ℤ) (b : Bytes)
  /-- A new file object, the so-manieth. -/
  | handle (h : ℕ)
  deriving DecidableEq, Repr

/-- `ValueError`, `FileNotFoundError`, and what msgpack or the socket raise. -/
inductive FpErr where
  | value
  | notFound
  | wire
  deriving DecidableEq, Repr

/-! ## In memory -/

/-- The buffers of a `JMemFiles`. -/
structure JMemFiles where
  KEY_file : Bytes := []
  VAL_table : ℤ → Option Bytes := fun _ => none

namespace JMemFiles

def buf (m : JMemFiles) : NetFile → Bytes
  | .key => m.KEY_file
  | .val i => (m.VAL_table i).getD []

def setBuf (m : JMemFiles) (f : NetFile) (b : Bytes) : JMemFiles :=
  match f with
  | .key => { m with KEY_file := b }
  | .val i => { m with VAL_table := Function.update m.VAL_table i (some b) }

/-- `KEY_open` and `VAL_open`; nothing for `FileNotFoundError`. -/
def openFile (m : JMemFiles) (mode : List Char) : NetFile → Option JMemFiles
  | .key => if m.KEY_file = [] ∧ mode.head? = some 'r' then none else some m
  | .val i => some (if m.VAL_table i = none then m.setBuf (.val i) [] else m)

end JMemFiles

namespace JBytesIo

def slice (b : Bytes) (i j : ℕ) : Bytes := (b.drop i).take (j - i)

/-- Where a `read` or a `readline` of this size has to stop. -/
def limit (size : Option ℤ) (buf : Bytes) (idx : ℕ) : ℕ :=
  match size with
  | none => buf.length
  | some n => if n < 0 then buf.length else min buf.length (idx + n.toNat)

/-- Where a `seek` goes. -/
def seekTo (offset whence : ℤ) (buf : Bytes) (idx : ℕ) : ℤ :=
  if whence = 0 then offset else if whence = 2 then buf.length + offset else idx + offset

def seek (offset whence : ℤ) (buf : Bytes) (idx : ℕ) : Except FpErr ℕ :=
  if whence = 0 ∨ whence = 2 ∨ whence = 1 then
    if seekTo offset whence buf idx < 0 then .error .value else .ok (seekTo offset whence buf idx).toNat
  else .error .value

def read (size : Option ℤ) (buf : Bytes) (idx : ℕ) : Bytes × ℕ :=
  if limit size buf idx ≤ idx then ([], idx) else (slice buf idx (limit size buf idx), limit size buf idx)

def readinto (b : Bytes) (buf : Bytes) (idx : ℕ) : ℕ × Bytes × ℕ :=
  if buf.length - idx = 0 then (0, b, idx)
  else
    let size := min b.length (buf.length - idx)
    if 0 < size then (size, slice buf idx (idx + size) ++ b.drop size, idx + size) else (0, b, idx)

def readline (size : Option ℤ) (buf : Bytes) (idx : ℕ) : Bytes × ℕ :=
  if buf.length ≤ idx then ([], idx)
  else
    let maxIdx := limit size buf idx
    match (slice buf idx maxIdx).findIdx? (· = 10) with
    | none => (slice buf idx maxIdx, maxIdx)
    | some k => (slice buf idx (min maxIdx (idx + k + 1)), min maxIdx (idx + k + 1))

def truncate (size : Option ℤ) (buf : Bytes) (idx : ℕ) : Except FpErr (ℤ × Bytes) :=
  let size := size.getD idx
  if size < 0 then .error .value else .ok (size, if size < buf.length then buf.take size.toNat else buf)

def write (b : Bytes) (buf : Bytes) (idx : ℕ) : ℕ × Bytes × ℕ :=
  if b.length ≤ 0 then (0, buf, idx)
  else
    let buf := if buf.length < idx then buf ++ List.replicate (idx - buf.length) 0 else buf
    if buf.length ≤ idx then (b.length, buf ++ b, (buf ++ b).length)
    else (b.length, buf.take idx ++ b ++ buf.drop (idx + b.length), idx + b.length)

def writelines : List Bytes → Bytes → ℕ → Bytes × ℕ
  | [], buf, idx => (buf, idx)
  | b :: lines, buf, idx => writelines lines (write b buf idx).2.1 (write b buf idx).2.2

/-- A call on a file object over `buf` at `idx`, but for its `closed` flag. -/
def call (c : FpCall) (buf : Bytes) (idx : ℕ) : Except FpErr (FpRet × Bytes × ℕ) :=
  match c with
  | .seek offset whence => (seek offset whence buf idx).map fun i : ℕ => (.int i, buf, i)
  | .tell => .ok (.int idx, buf, idx)
  | .read size => .ok (.bytes (read size buf idx).1, buf, (read size buf idx).2)
  | .readinto b => .ok (.into (readinto b buf idx).1 (readinto b buf idx).2.1, buf, (readinto b buf idx).2.2)
  | .readline size => .ok (.bytes (readline size buf idx).1, buf, (readline size buf idx).2)
  | .write b => .ok (.int (write b buf idx).1, (write b buf idx).2.1, (write b buf idx).2.2)
  | .writelines lines => .ok (.none, writelines lines buf idx)
  | .truncate size => (truncate size buf idx).map fun r => (.int r.1, r.2, idx)
  | .flush | .close => .ok (.none, buf, idx)

end JBytesIo

/-! ## The server -/

inductive NetCmd where
  | openFile (mode : List Char)
  | io (c : FpCall)

/-- `NOT_FOUND`; `INVALID_VAL` and `FAIL_CALL`. -/
inductive NetErr where
  | notFound
  | invalid

/-- What a connection works on: the buffers, and its file objects with where they stand. -/
structure NetServer where
  mem : JMemFiles := {}
  fpTable : NetFile → Option ℕ := fun _ => none

namespace NetServer

def setFp (s : NetServer) (f : NetFile) (idx : Option ℕ) : NetServer :=
  { s with fpTable := Function.update s.fpTable f idx }

/-- The commands to the files `KEY` and `VAL.n` in `ServerHandler.handle`. -/
def exec (f : NetFile) (cmd : NetCmd) (s : NetServer) : Except NetErr FpRet × NetServer :=
  match cmd with
  | .openFile mode =>
    match s.fpTable f with
    | some _ => (.ok .none, s.setFp f (some 0))
    | none =>
      match s.mem.openFile mode f with
      | none => (.error .notFound, s)
      | some m => (.ok .none, { s with mem := m }.setFp f (some 0))
  | .io c =>
    match s.fpTable f with
    | none => (if c = .close ∨ c = .flush then .ok .none else .error .invalid, s)
    | some idx =>
      if c = .close then (.ok .none, s.setFp f none)
      else
        match JBytesIo.call c (s.mem.buf f) idx with
        | .error _ => (.error .invalid, s)
        | .ok (r, buf, idx) => (.ok r, { s with mem := s.mem.setBuf f buf }.setFp f (some idx))

end NetServer

/-! ## The client -/

/-- What msgpack can pack: integers, and byte strings of a length. -/
structure Wire where
  int : ℤ → Bool
  bin : ℕ → Bool

namespace Wire

def args (w : Wire) : FpCall → Bool
  | .seek offset whence => w.int offset && w.int whence
  | .read size | .readline size | .truncate size => size.all w.int
  | .readinto b => w.int b.length
  | .write b => w.bin b.length
  | .writelines lines => lines.all fun b => w.bin b.length
  | .tell | .flush | .close => true

def cmd (w : Wire) : NetCmd → Bool
  | .openFile _ => true
  | .io c => w.args c

def ret (w : Wire) : FpRet → Bool
  | .int i => w.int i
  | .bytes b => w.bin b.length
  | _ => true

end Wire

structure NetConn where
  srv : NetServer := {}
  alive : Bool := true

/-- `__exec`: a command and its response. -/
def NetConn.exec (w : Wire) (f : NetFile) (cmd : NetCmd) (s : NetConn) : Except FpErr FpRet × NetConn :=
  if !s.alive then (.error .wire, s)
  else if !w.cmd cmd then (.error .wire, s)
  else
    match s.srv.exec f cmd with
    | (.error .notFound, srv) => (.error .notFound, { s with srv := srv })
    | (.error .invalid, srv) => (.error .value, { s with srv := srv })
    | (.ok r, srv) =>
      if w.ret r then (.ok r, { s with srv := srv })
      -- the handler ends with the exception, and its `finally` closes the file objects
      else (.error .wire, { srv := { srv with fpTable := fun _ => none }, alive := false })

structure JNetIo where
  file : NetFile
  offset : ℤ := 0
  closed : Bool := false
  notFound : Bool := false
  deriving DecidableEq

namespace JNetIo

/-- A call that goes to the server, and how far it moves the offset. -/
def via (w : Wire) (c : FpCall) (move : FpRet → ℤ → ℤ) (h : JNetIo) (s : NetConn) :
    Except FpErr FpRet × JNetIo × NetConn :=
  if h.closed then (.error .value, h, s)
  else if h.notFound then (.error .notFound, h, s)
  else
    match s.exec w h.file (.io c) with
    | (.ok r, s) => (.ok r, { h with offset := move r h.offset }, s)
    | (.error .notFound, s) => (.error .notFound, { h with notFound := true }, s)
    | (.error e, s) => (.error e, h, s)

/-- Whether a `seek` is sent. -/
def seeks (h : JNetIo) (offset whence : ℤ) : Bool :=
  whence = 0 ∧ offset ≠ h.offset ∨ whence = 1 ∧ offset ≠ 0 ∨ whence ≠ 0 ∧ whence ≠ 1

/-- The offset a response sets. -/
def setTo : FpRet → ℤ → ℤ
  | .int i, _ => i
  | _, _ => 0

/-- The offset moves on by what was read or written. -/
def moveBy : FpRet → ℤ → ℤ
  | .int i, offset => if 0 ≤ i then offset + i else offset
  | .bytes b, offset => offset + b.length
  | _, offset => offset

/-- The calls of a `JNetIo`. -/
def call (w : Wire) (c : FpCall) (h : JNetIo) (s : NetConn) : Except FpErr FpRet × JNetIo × NetConn :=
  match c with
  | .seek offset whence =>
    if h.closed then (.error .value, h, s)
    else if h.notFound then (.error .notFound, h, s)
    else if h.seeks offset whence then
      match h.via w c setTo s with
      | (.ok _, h, s) => (.ok (.int h.offset), h, s)
      | r => r
    else (.ok (.int h.offset), h, s)
  | .tell =>
    if h.closed then (.error .value, h, s)
    else if h.notFound then (.error .notFound, h, s)
    else (.ok (.int h.offset), h, s)
  | .read _ | .readline _ | .write _ => h.via w c moveBy s
  | .readinto b =>
    match h.via w (.read (some b.length)) moveBy s with
    | (.ok (.bytes rx), h, s) => (.ok (.into rx.length (rx ++ b.drop rx.length)), h, s)
    | (.ok _, h, s) => (.ok (.into 0 b), h, s)
    | r => r
  | .writelines lines => h.via w c (fun _ offset => offset + (lines.map List.length).sum) s
  | .truncate _ => h.via w c (fun _ offset => offset) s
  | .flush =>
    if h.closed ∨ h.notFound then (.ok .none, h, s)
    else
      match s.exec w h.file (.io .flush) with
      | (.ok _, s) => (.ok .none, h, s)
      | (.error .notFound, s) => (.ok .none, { h with notFound := true }, s)
      | (.error .value, s) => (.ok .none, h, s)
      | (.error .wire, s) => (.error .wire, h, s)
  | .close =>
    if h.closed ∨ h.notFound then (.ok .none, h, s)
    else
      match s.exec w h.file (.io .close) with
      | (.error .wire, s) => (.error .wire, h, s)
      -- `RawIOBase.close` flushes a last time
      | (_, s) => (.ok .none, { h with closed := true }, (s.exec w h.file (.io .flush)).2)

end JNetIo

/-- `JNetIo.__init__` with its `open`. -/
def NetConn.openFile (w : Wire) (f : NetFile) (mode : List Char) (s : NetConn) :
    Except FpErr JNetIo × NetConn :=
  match s.exec w f (.openFile mode) with
  | (.error .notFound, s) => (.ok { file := f, notFound := true }, s)
  | (.error e, s) => (.error e, s)
  | (.ok _, s) =>
    match s.exec w f (.io .tell) with
    | (.ok r, s) => (.ok { file := f, offset := JNetIo.setTo r 0 }, s)
    | (.error .notFound, s) => (.ok { file := f, notFound := true }, s)
    | (.error e, s) => (.error e, s)

/-! ## Handles -/

/-- A new handle, or a call on the so-manieth. -/
inductive NetCall where
  | openFile (f : NetFile) (mode : List Char)
  | io (h : ℕ) (c : FpCall)
  deriving DecidableEq

structure NetState where
  conn : NetConn := {}
  handles : List JNetIo := []

/-- A call on the handles of one connection. -/
def NetState.call (w : Wire) (s : NetState) : NetCall → Option (Except FpErr FpRet × NetState)
  | .openFile f mode =>
    match s.conn.openFile w f mode with
    | (.ok h, conn) => some (.ok (.handle s.handles.length), { conn := conn, handles := s.handles ++ [h] })
    | (.error e, conn) => some (.error e, { s with conn := conn })
  | .io i c =>
    (s.handles[i]?).map fun h =>
      ((h.call w c s.conn).1,
        { conn := (h.call w c s.conn).2.2, handles := s.handles.set i (h.call w c s.conn).2.1 })

/-- A `JBytesIo`. -/
structure LocalIo where
  file : NetFile
  idx : ℕ := 0
  closed : Bool := false
  deriving DecidableEq

/-- A call on a `JBytesIo`. -/
def LocalIo.call (c : FpCall) (h : LocalIo) (mem : JMemFiles) : Except FpErr FpRet × LocalIo × JMemFiles :=
  if c = .close then (.ok .none, { h with closed := true }, mem)
  else if c = .flush ∧ h.closed = true then (.error .value, h, mem)
  else
    match JBytesIo.call c (mem.buf h.file) h.idx with
    | .error e => (.error e, h, mem)
    | .ok (r, buf, idx) => (.ok r, { h with idx := idx }, mem.setBuf h.file buf)

structure LocalState where
  mem : JMemFiles := {}
  handles : List LocalIo := []

/-- A call on independent handles in memory. -/
def LocalState.call (s : LocalState) : NetCall → Option (Except FpErr FpRet × LocalState)
  | .openFile f mode =>
    match s.mem.openFile mode f with
    | none => some (.error .notFound, s)
    | some m => some (.ok (.handle s.handles.length), { mem := m, handles := s.handles ++ [{ file := f }] })
  | .io i c =>
    (s.handles[i]?).map fun h =>
      ((h.call c s.mem).1,
        { mem := (h.call c s.mem).2.2, handles := s.handles.set i (h.call c s.mem).2.1 })

end OmniJsonDb
