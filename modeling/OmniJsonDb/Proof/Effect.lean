import Mathlib.Logic.Relation
import OmniJsonDb.Model.Run
import OmniJsonDb.Proof.Engine

/-!
# Effects

What the calls of a handle do to the index, as a row view shows it: one equation for
each way a record is rewritten, parked, added, removed or brought back.

* `Takes`: a dead row is used up, or a new line.
* `Effect`: the index before and after.
* `Keyed`, `Extents`, `Volumes`: what the calls rely on.
-/

namespace OmniJsonDb

/-- The index a handle works on, as a view shows it. -/
@[ext] structure DbView (γ : Type) extends IoView γ where
  safeLine : ℕ
  chgKeys : Finset Key
  expired : List (ℕ × Key)

def JDb.view {γ : Type} (V : RowView γ) (db : JDb) : DbView γ :=
  { db.io.view V with safeLine := db.safeLine, chgKeys := db.chgKeys, expired := db.expired }

namespace DbView

variable {γ : Type} (V : RowView γ) (v : DbView γ)

/-! ## Reading a view -/

def slot (r : ℕ) : Slot := V.slot (v.rows r)

/-- The extent a row names. -/
def place (r : ℕ) : Place := JIo.place (v.slot V r)

/-- The row the key table has for a key. -/
def rowOf (key : Key) : Option ℕ := (v.keyTable.get? key).map Prod.fst

def fileEnd (fileId : ℕ) : ℕ := (v.fileTable.get? fileId).getD 0

/-- The VAL file of an id; one that is not there is empty. -/
def val (fileId : ℕ) : ByteFile := (v.vals fileId).getD ByteFile.empty

/-! ## Updates -/

def put (r : ℕ) (g : γ) : DbView γ := { v with rows := Function.update v.rows r g }

/-- Row `s` is copied to `d`, if `d` lies behind it. -/
def copyUp (s d : ℕ) : DbView γ :=
  { v with rows := if s < d then Function.update v.rows d (v.rows s) else v.rows }

/-- The row `write_key` makes of its arguments. -/
def new (a : KeyArgs) : γ := V.proj (normal v.now v.cnt.syncId a)

def line : DbView γ := { v with cnt := { v.cnt with nLines := v.cnt.nLines + 1 } }
def sync : DbView γ := { v with cnt := { v.cnt with syncId := bump v.cnt.syncId } }

def setTable (key : Key) (row flags : ℕ) : DbView γ :=
  { v with keyTable := v.keyTable.set key (row, flags &&& KEY_FLAG_MASK) }

def write (fileId offset : ℕ) (data : Bytes) : DbView γ :=
  { v with vals := Function.update v.vals fileId (some ((v.val fileId).write offset data)) }

/-- An extent was recorded. -/
def note (enc : Enc) (sp : JDb.Space) : DbView γ :=
  { v with fileTable := match enc with
      | .head _ _ _ => v.fileTable
      | .value _ => v.fileTable.set sp.fileId (max (v.fileEnd sp.fileId) (sp.offset + sp.rowSize)) }

/-! ## The regions -/

/-- The head of the dead region: behind the live rows, and behind the safe ones when they
are to be kept. -/
def deadHead (cfg : Config) (flags : ℕ) : ℕ :=
  if has flags REVERT then min (max v.safeLine (v.cnt.nRecords + cfg.minSafe)) v.cnt.nLines
  else v.cnt.nRecords

/-- The head of the dead region, whatever is to be kept. -/
def safeEnd : ℕ := min (max v.safeLine v.cnt.nRecords) v.cnt.nLines

/-- The safe region grows up to `h` with the first version of `key` that goes there. -/
def reserve (key : Key) (flags h : ℕ) : DbView γ :=
  { v with
    chgKeys := if has flags REVERT ∧ key ∉ v.chgKeys then insert key v.chgKeys else v.chgKeys
    safeLine := if has flags REVERT ∧ key ∉ v.chgKeys then h + 1 else v.safeLine }

/-- What is left of a dead extent that was split at `size`. -/
def restArgs (p : Place) (size : ℕ) : KeyArgs :=
  { key := [], fileId := p.1, offset := p.2.1 + size, rowSize := p.2.2 - size, ver := some 0 }

def headArgs (p : Place) (size : ℕ) : KeyArgs :=
  { key := [], fileId := p.1, offset := p.2.1, rowSize := size, ver := some 0 }

open JIo (Fits)

/-- A row `d` of the dead region from `h` on is taken for `req` bytes, with the extent it
names; a large extent may be split, and the rest goes to an empty row `e` or to a new
line. -/
inductive Reuse (h req : ℕ) (v : DbView γ) (d : ℕ) : Place → DbView γ → Prop
  | whole : h ≤ d → d < v.cnt.nLines → Fits req (v.place V d) →
      Reuse h req v d (v.place V d) v
  | splitNew {size : ℕ} : h ≤ d → d < v.cnt.nLines → 0 < req → req ≤ size →
      size ≤ (v.slot V d).rowSize →
      Reuse h req v d ((v.slot V d).fileId, (v.slot V d).offset, size)
        ((v.line.put v.cnt.nLines (v.new V (restArgs (v.place V d) size))).put d
          (v.new V (headArgs (v.place V d) size)))
  | splitOver {size e : ℕ} : h ≤ d → d < v.cnt.nLines → 0 < req → req ≤ size →
      size ≤ (v.slot V d).rowSize → h ≤ e → e < v.cnt.nLines → e ≠ d → (v.slot V e).rowSize = 0 →
      Reuse h req v d ((v.slot V d).fileId, (v.slot V d).offset, size)
        ((v.put e (v.new V (restArgs (v.place V d) size))).put d
          (v.new V (headArgs (v.place V d) size)))

/-- A row for an encoded value, and its space in a VAL file, where the value is now. -/
inductive Takes (cfg : Config) (key : Key) (flags : ℕ) (v : DbView γ) :
    Enc → JDb.Space → DbView γ → Prop
  | headNew (t x s : ℕ) : Takes cfg key flags v (.head t x s)
      ⟨v.deadHead cfg flags, v.cnt.nLines, t, x, 0, s⟩
      (v.reserve key flags (v.deadHead cfg flags)).line
  | headDead {t x s d : ℕ} {p : Place} {v₁ : DbView γ} :
      Reuse V (v.deadHead cfg flags) 0 (v.reserve key flags (v.deadHead cfg flags)) d p v₁ →
      Takes cfg key flags v (.head t x s) ⟨v.deadHead cfg flags, d, t, x, 0, s⟩ v₁
  | valueNew {data : Bytes} {fileId pad : ℕ} : data ≠ [] → fileId ≤ v.fileTable.size →
      Takes cfg key flags v (.value data)
        ⟨v.deadHead cfg flags, v.cnt.nLines, fileId, v.fileEnd fileId, data.length + pad,
          data.length⟩
        ((v.reserve key flags (v.deadHead cfg flags)).line.write fileId (v.fileEnd fileId)
          (data ++ List.replicate pad cfg.val.padByte))
  | valueDead {data : Bytes} {d fileId offset rowSize : ℕ} {v₁ : DbView γ} : data ≠ [] →
      Reuse V (v.deadHead cfg flags) data.length (v.reserve key flags (v.deadHead cfg flags)) d
        (fileId, offset, rowSize) v₁ →
      Takes cfg key flags v (.value data)
        ⟨v.deadHead cfg flags, d, fileId, offset, rowSize, data.length⟩
        (v₁.write fileId offset data)

/-! ## The updates of the calls -/

open JDb (Space Meta parked)

/-- The old version of row `row` goes to the head of the dead region, what was there to the
row used up, and the new version takes its place. -/
def parkAt (key : Key) (row : ℕ) (old : Row) (enc : Enc) (m : Meta) (sp : Space) : DbView γ :=
  ((((v.copyUp sp.head sp.dead).put sp.head (v.new V (parked key old))).put row
    (v.new V (sp.args key m))).note enc sp).sync

/-- A record is added at the end of the live rows. -/
def addAt (key : Key) (enc : Enc) (m : Meta) (flags : ℕ) (sp : Space) : DbView γ :=
  let w := ((((v.copyUp sp.head sp.dead).copyUp v.cnt.nRecords sp.head).put v.cnt.nRecords
    (v.new V (sp.args key m))).note enc sp).sync
  { w with
    cnt := { w.cnt with nRecords := v.cnt.nRecords + 1 }
    safeLine := v.safeLine + (if has flags REVERT then 0 else 1)
    keyTable := v.keyTable.set key (v.cnt.nRecords, m.flags &&& KEY_FLAG_MASK) }

/-- The index once the rows made room for a record that is appended. -/
def appendRoom : DbView γ := (v.line.copyUp v.safeEnd v.cnt.nLines).copyUp v.cnt.nRecords v.safeEnd

def appendAt (key : Key) (enc : Enc) (m : Meta) (sp : Space) : DbView γ :=
  let w := ((v.put v.cnt.nRecords (v.new V (sp.args key m))).note enc sp).sync
  { w with
    cnt := { w.cnt with nRecords := v.cnt.nRecords + 1 }
    safeLine := v.safeLine + 1
    keyTable := v.keyTable.set key (v.cnt.nRecords, m.flags &&& KEY_FLAG_MASK) }

/-- A deleted version goes to the tail of the safe region, which makes room for it. -/
def toTail (key : Key) (flags : ℕ) : Prop :=
  v.safeEnd ≠ v.cnt.nRecords ∧ has flags REVERT ∧ key ∈ v.chgKeys

instance (key : Key) (flags : ℕ) : Decidable (v.toTail key flags) := by
  unfold toTail; infer_instance

/-- The record of row `row` is taken out; `kflags` are those of the row that fills its
place. -/
def deleteAt (key : Key) (row : ℕ) (old : Row) (flags kflags : ℕ) : DbView γ :=
  let t := v.cnt.nRecords - 1
  let rows₁ := if row < t then Function.update v.rows row (v.rows t) else v.rows
  let rows₂ := if v.toTail key flags then Function.update rows₁ t (rows₁ (v.safeEnd - 1)) else rows₁
  { v with
    rows := Function.update rows₂ (if v.toTail key flags then v.safeEnd - 1 else t)
      (v.new V (parked key old))
    cnt := { v.cnt with
      nRecords := t
      swapId := if row < t then bump v.cnt.swapId else v.cnt.swapId
      syncId := bump v.cnt.syncId
      remvId := bump v.cnt.remvId }
    keyTable := if row < t then
        ((v.keyTable.pop key).set (v.slot V t).key (row, kflags &&& KEY_FLAG_MASK)).pop key
      else v.keyTable.pop key }

/-- The head of the dead region an undo sees. -/
def undoHead (flags : ℕ) : ℕ := if has flags REVERT then v.safeEnd else v.cnt.nRecords

/-- The index once the rows made room for a record that comes back from row `d`. -/
def undeleteRoom (key : Key) (flags d : ℕ) : DbView γ :=
  if v.undoHead flags ≤ d then
    let w := (v.copyUp (v.undoHead flags) d).copyUp v.cnt.nRecords (v.undoHead flags)
    if has flags REVERT then
      { w with chgKeys := insert key v.chgKeys, safeLine := v.undoHead flags + 1 }
    else { w with safeLine := v.cnt.nRecords }
  else { v.copyUp v.cnt.nRecords d with chgKeys := v.chgKeys.erase key }

def undeleteAt (key : Key) (info : Row) (kf : ℕ) : DbView γ :=
  let w := (v.put v.cnt.nRecords
    (v.new V { info.args with key := key, ver := none, flags := kf })).sync
  { w with
    cnt := { w.cnt with nRecords := v.cnt.nRecords + 1 }
    keyTable := v.keyTable.set key (v.cnt.nRecords, kf &&& KEY_FLAG_MASK) }

/-- The live version of a record and one that was parked change places. -/
def unwriteAt (key : Key) (row d : ℕ) (old info : Row) (kf : ℕ) : DbView γ :=
  let w := ((v.put d (v.new V (parked key old))).put row
    (v.new V { info.args with key := key, ver := none, flags := kf })).sync
  { w with chgKeys := v.chgKeys.erase key }

def renameAt (key newKey : Key) (row : ℕ) (old : Row) : DbView γ :=
  { v with
    rows := Function.update v.rows row
      (v.new V { old.args with key := newKey, ver := none })
    cnt := { v.cnt with syncId := bump v.cnt.syncId, swapId := bump v.cnt.swapId }
    keyTable := (v.keyTable.pop key).set newKey (row, old.flags &&& KEY_FLAG_MASK) }

/-! ## Effects -/

/-- The key table has the live row `row` for `key`. -/
def At (key : Key) (row : ℕ) : Prop := v.rowOf key = some row ∧ row < v.cnt.nRecords

/-- A live row may be written over with `a`, and its extent with a value: its version need
not be kept, or stays. -/
def MayOverwrite (key : Key) (flags kf : ℕ) : Prop :=
  has flags REVERT = true → has kf NO_REVERT = true ∨ key ∈ v.chgKeys

/-- Row `a` names the extent the slot `s` does, or none as it. -/
def SameExtent (s : Slot) (a : KeyArgs) : Prop :=
  a.rowSize = s.rowSize ∧ (0 < a.rowSize → a.fileId = s.fileId ∧ a.offset = s.offset)

/-- Row `a` names the value the slot `s` does. -/
def SameValue (s : Slot) (a : KeyArgs) : Prop :=
  a.fileId = s.fileId ∧ a.offset = s.offset ∧ a.rowSize = s.rowSize ∧ a.valSize = s.valSize

/-- Row `a` says again what the slot `s` does: it names the extent of the slot, a value that
lies in it, and no other version. -/
structure Restates (s : Slot) (a : KeyArgs) : Prop where
  extent : SameExtent s a
  fits : a.rowSize = 0 ∨ a.valSize ≤ a.rowSize ∨ a.valSize = s.valSize
  ver : ∀ n, a.ver = some n → n = s.ver

theorem SameValue.restates {s : Slot} {a : KeyArgs} (h : SameValue s a) (hv : ∀ n, a.ver = some n → n = s.ver) :
    Restates s a := ⟨⟨h.2.2.1, fun _ => ⟨h.1, h.2.1⟩⟩, .inr (.inr h.2.2.2), hv⟩

/-- **What a call on `key` does to the index**, step by step; `flags` are the handle's or
the call's own. -/
inductive Effect (cfg : Config) (key : Key) (flags : ℕ) : DbView γ → DbView γ → Prop
  | mark {v : DbView γ} {row kf : ℕ} : v.At key row → Effect cfg key flags v (v.setTable key row kf)
  | bytes {v : DbView γ} {row kf : ℕ} {data : Bytes} : v.At key row → v.MayOverwrite key flags kf →
      0 < (v.slot V row).rowSize → data.length ≤ (v.slot V row).rowSize →
      Effect cfg key flags v (v.write (v.slot V row).fileId (v.slot V row).offset data)
  | rewrite {v : DbView γ} {row : ℕ} {a : KeyArgs} : v.At key row → a.key = key →
      Restates (v.slot V row) a → SameValue (v.slot V row) a ∨ v.MayOverwrite key flags a.flags →
      Effect cfg key flags v (v.put row (v.new V a)).sync
  | park {v v₁ : DbView γ} {row : ℕ} {old : Row} {enc : Enc} {m : Meta} {sp : Space} :
      v.At key row → V.proj old = v.rows row → Takes V cfg key flags v enc sp v₁ →
      Effect cfg key flags v (v₁.parkAt V key row old enc m sp)
  | add {v v₁ : DbView γ} {enc : Enc} {m : Meta} {sp : Space} :
      v.rowOf key = none → Takes V cfg key flags v enc sp v₁ →
      Effect cfg key flags v (v₁.addAt V key enc m flags sp)
  | append {v : DbView γ} {enc : Enc} {m : Meta} {sp : Space} {v₁ : DbView γ} :
      v.rowOf key = none → has flags REVERT = false →
      (match enc with
        | .head _ _ _ => sp.rowSize = 0 ∧ v₁ = v.appendRoom
        | .value data => ∃ pad, data ≠ [] ∧ sp.fileId ≤ v.fileTable.size ∧
          sp.offset = v.fileEnd sp.fileId ∧ sp.rowSize = data.length + pad ∧ sp.valSize = data.length ∧
          v₁ = v.appendRoom.write sp.fileId sp.offset (data ++ List.replicate pad cfg.val.padByte)) →
      Effect cfg key flags v (v₁.appendAt V key enc m sp)
  | delete {v : DbView γ} {row kf : ℕ} {old : Row} :
      v.At key row → V.proj old = v.rows row →
      Effect cfg key flags v (v.deleteAt V key row old flags kf)
  | undelete {v : DbView γ} {d kf : ℕ} {info : Row} :
      v.rowOf key = none → v.cnt.nRecords ≤ d → d < v.cnt.nLines → V.proj info = v.rows d →
      info.key = key →
      Effect cfg key flags v ((v.undeleteRoom key flags d).undeleteAt V key info kf)
  | unwrite {v : DbView γ} {row d kf : ℕ} {old info : Row} :
      v.At key row → V.proj old = v.rows row → v.cnt.nRecords ≤ d → d < v.cnt.nLines →
      V.proj info = v.rows d → info.key = key →
      Effect cfg key flags v (v.unwriteAt V key row d old info kf)

/-- The effects of one call. -/
abbrev Effects (cfg : Config) (key : Key) (flags : ℕ) : DbView γ → DbView γ → Prop :=
  Relation.ReflTransGen (Effect V cfg key flags)

/-! ## What the calls rely on -/

/-- **The key index**: the key table has the live rows, each for its own key. -/
structure Keyed : Prop where
  le : v.cnt.nRecords ≤ v.cnt.nLines
  table : ∀ key row, v.rowOf key = some row ↔ row < v.cnt.nRecords ∧ (v.slot V row).key = key

/-- **The space of the values**: no two rows share a byte of a VAL file, and every extent
lies in the used part of its file. -/
def Extents : Prop := Apart (v.place V) v.cnt.nLines v.fileEnd

/-- The file table lists the VAL files there are, numbered from zero, with their sizes. -/
structure Volumes : Prop where
  sizes : ∀ f, (v.vals f).map ByteFile.size = v.fileTable.get? f
  dense : ∀ f, v.fileTable.get? f = none ↔ v.fileTable.size ≤ f

/-- The index between two calls. -/
structure Good : Prop where
  keyed : v.Keyed V
  extents : v.Extents V
  volumes : v.Volumes

end DbView

/-- A handle between two calls: the engine's caches are right, the index is, and the open
VAL files are known ones. -/
structure JDb.Good {γ : Type} (V : RowView γ) (cfg : Config) (db : JDb) : Prop where
  ok : JIo.Ok V cfg db.io
  index : (db.view V).Good V
  opened : ∀ f ∈ db.fpDict, f < db.io.fileTable.size

end OmniJsonDb
