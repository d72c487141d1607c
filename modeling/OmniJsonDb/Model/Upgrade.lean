import Mathlib.Logic.Function.Basic
import OmniJsonDb.Model.JBytesIO

/-!
# Upgrading

`upgrade`, from where the rebuilt database lies in its backup: the backup's files are copied over the
database's own, through a buffer that is used again and again.

* `copyFile`: the loop over `readinto`.
* `upgrade`: the VAL files, the VAL files that go, the KEY file.
-/

namespace OmniJsonDb

def DEFAULT_BUFFER_SIZE : ℕ := 8192
def KEY_FILE_BUF_SIZE : ℕ := DEFAULT_BUFFER_SIZE * 2
def VAL_FILE_BUF_SIZE : ℕ := DEFAULT_BUFFER_SIZE

/-- The files of a database. -/
structure Storage where
  key : Bytes
  vals : ℕ → Option Bytes

inductive Backend where
  | disk
  | mem
  deriving DecidableEq, Repr

/-- `VAL_open(file_id, 'wb')`: on disk the file is emptied, in memory it is not. -/
def Backend.valWrite (k : Backend) (f : Option Bytes) : JBytesIO :=
  match k with
  | disk => ⟨[], 0⟩
  | mem => ⟨f.getD [], 0⟩

/-- `VAL_open(file_id, 'rb')`: a file that is not there is an error on disk, and made in memory. -/
def Backend.valRead (k : Backend) (f : Option Bytes) : Option Bytes :=
  match k with
  | disk => f
  | mem => some (f.getD [])

/-- `KEY_open('rb')`: in memory an empty file counts as none. -/
def Backend.keyRead (k : Backend) (f : Bytes) : Option Bytes := if k = mem ∧ f = [] then none else some f

/-- The loop: read into the buffer, write the buffer, until it is not filled. -/
def copyLoop (size : ℕ) : ℕ → Bytes → JBytesIO → JBytesIO → JBytesIO
  | 0, _, _, dst => dst
  | fuel + 1, buf, src, dst =>
    let ((bufSize, buf), src) := src.readinto buf
    let dst := if 0 < bufSize then (dst.write buf).2 else dst
    if bufSize = size then copyLoop size fuel buf src dst else dst

/-- What `dst` holds after the loop and `truncate()`. -/
def copyFile (size : ℕ) (src : Bytes) (dst : JBytesIO) : Bytes :=
  ((copyLoop size (src.length + 1) (List.replicate size 0) ⟨src, 0⟩ dst).truncate none).2.buf

/-- Copy the VAL files of the backup's file table; the database, and the backup. -/
def copyVals (k : Backend) : List ℕ → Storage → Storage → Option (Storage × Storage)
  | [], self, bak => some (self, bak)
  | id :: ids, self, bak =>
    match k.valRead (bak.vals id) with
    | none => none
    | some src =>
      let copy := copyFile VAL_FILE_BUF_SIZE src (k.valWrite (self.vals id))
      copyVals k ids { self with vals := Function.update self.vals id (some copy) }
        { bak with vals := Function.update bak.vals id (some src) }

/-- Remove the VAL files of the database's file table that the backup's does not have. -/
def removeVals (oldTable bakTable : List ℕ) (self : Storage) : Storage :=
  { self with vals := fun id => if id ∈ oldTable ∧ id ∉ bakTable then none else self.vals id }

/-- `upgrade`, with the file tables of the database and of its backup; nothing where a file is not
found. The database, and the backup. -/
def upgrade (k : Backend) (oldTable bakTable : List ℕ) (self bak : Storage) : Option (Storage × Storage) :=
  match copyVals k bakTable self bak with
  | none => none
  | some (self, bak) =>
    match k.keyRead bak.key with
    | none => none
    | some src =>
      let self := removeVals oldTable bakTable self
      some ({ self with key := copyFile KEY_FILE_BUF_SIZE src ⟨self.key, 0⟩ }, bak)

end OmniJsonDb
