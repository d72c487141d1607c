import OmniJsonDb.Lib.OrdDict
import OmniJsonDb.Model.Write

/-!
# Changing the flags of records

`set_key_flags` on the records of a database and on a record of one of its groups, and
`f_write_key_flags` on a table of rows. A row that is written has its dates and its place, so
neither the clock nor the VAL files come into it.

* `FlagChange.masks`: what a call sets and what it clears.
* `setKeyFlags`: the records of a database itself.
* `GroupHost.setKeyFlags`: a record `'group:::name'`.
-/

namespace OmniJsonDb

open JDb (givenTtl keptFlags ttlArg)

/-! ## Tables of rows -/

/-- The rows of a database by their keys. -/
structure RowTable where
  rows : OrdDict Key Row
  key_eq : ∀ k r, rows.get? k = some r → r.key = k
  flags_le : ∀ k r, rows.get? k = some r → r.flags ≤ KEY_FLAG_MASK

namespace RowTable

def get? (t : RowTable) (key : Key) : Option Row := t.rows.get? key

/-- `write_key` of a row that has its dates. -/
def put (t : RowTable) (a : KeyArgs) : RowTable where
  rows := t.rows.set a.key (normal 0 0 a)
  key_eq := by
    intro k r h
    rw [OrdDict.get?_set] at h
    split at h
    · obtain rfl := Option.some.inj h
      exact Eq.symm ‹_›
    · exact t.key_eq k r h
  flags_le := by
    intro k r h
    rw [OrdDict.get?_set] at h
    split at h
    · obtain rfl := Option.some.inj h
      exact normalFlags_le a
    · exact t.flags_le k r h

/-- `f_write_key_flags` with a number of flags; the lifetime is one that was normalised before. -/
def writeKeyFlags (t : RowTable) (key : Key) (newFlags : ℕ) (ttl : Ttl) : Bool × RowTable :=
  match t.get? key with
  | none => (false, t)
  | some old =>
    let newTtl := givenTtl (some (ttlArg ttl)) old
    let kf := keptFlags (.int newFlags) old newTtl
    if old.flags ≠ kf ∨ newTtl.len ≠ old.ttl.len then
      (true, t.put { old.args with ttl := newTtl, flags := kf })
    else (false, t)

end RowTable

/-! ## Calls -/

/-- What a call of `set_key_flags` asks for. -/
structure FlagChange where
  flags : FlagArg := .none
  readOnly : Option Bool := none
  appendOnly : Option Bool := none
  noCache : Option Bool := none
  noRevert : Option Bool := none
  noDelete : Option Bool := none
  hidden : Option Bool := none
  user0 : Option Bool := none
  user1 : Option Bool := none
  user2 : Option Bool := none
  user3 : Option Bool := none
  ttl : Option TtlArg := none

/-- `bool(ttl)`. -/
def TtlArg.truthy : TtlArg → Bool
  | int n => n ≠ 0
  | span micros => micros ≠ 0

/-- The records that were changed, with their flags and lifetimes. -/
abbrev FlagReport := List (Key × ℕ × Ttl)

namespace FlagChange

variable (a : FlagChange)

/-- The masks of `flags`: a string is relative, a number is absolute. -/
def flagMasks : ℕ × ℕ :=
  match a.flags with
  | .none => (0, 0)
  | .str s => convToKeyFlags s
  | .int n => (WRITABLE_FLAG_MASK &&& n, clear WRITABLE_FLAG_MASK (WRITABLE_FLAG_MASK &&& n))

/-- The keywords with their bits. -/
def wants : List (Option Bool × ℕ) :=
  [(a.readOnly, READ_ONLY), (a.appendOnly, APPEND_ONLY), (a.noCache, NO_CACHE), (a.noRevert, NO_REVERT),
    (a.noDelete, NO_DELETE), (a.hidden, HIDDEN), (a.user0, USER0), (a.user1, USER1), (a.user2, USER2),
    (a.user3, USER3), (a.ttl.map TtlArg.truthy, EXPIRE)]

/-- A keyword sets or clears its bit. -/
def addWant (m : ℕ × ℕ) (w : Option Bool × ℕ) : ℕ × ℕ :=
  match w.1 with
  | none => m
  | some true => (m.1 ||| w.2, m.2)
  | some false => (m.1, m.2 ||| w.2)

/-- `set_mask` and `clr_mask`. -/
def masks : ℕ × ℕ := a.wants.foldl addWant a.flagMasks

/-- `new_kflags`. -/
def newFlags (old : ℕ) : ℕ :=
  (clear (old ||| a.masks.1) a.masks.2 &&& WRITABLE_FLAG_MASK) ||| (old &&& DERIVED_FLAG_MASK)

/-- What becomes of a row, where the call changes it. -/
def change (old : Row) : Option (ℕ × Ttl) :=
  let kf := a.newFlags old.flags
  let ttl := givenTtl a.ttl old
  if kf ≠ old.flags ∨ old.ttl.len ≠ ttl.len then
    some (if ttl.pos then kf ||| EXPIRE else clear kf EXPIRE, ttl)
  else none

/-- The records a call changes, out of those that are named. -/
def pending (t : RowTable) (ks : List Key) : FlagReport :=
  ks.eraseDups.filterMap fun k => (t.get? k).bind fun r => (a.change r).map fun c => (r.key, c)

/-- The loop over `pending`. -/
def writeAll : FlagReport → RowTable → FlagReport × RowTable
  | [], t => ([], t)
  | (key, kf, ttl) :: rest, t =>
    match t.writeKeyFlags key kf ttl with
    | (true, t) => ((key, kf, ttl) :: (writeAll rest t).1, (writeAll rest t).2)
    | (false, t) => writeAll rest t

/-- `set_key_flags` of records of the database itself. -/
def setKeyFlags (ks : List Key) (t : RowTable) : FlagReport × RowTable :=
  if a.masks = (0, 0) then ([], t) else writeAll (a.pending t ks) t

end FlagChange

/-! ## Groups -/

/-- A database with the databases of its groups, and its clock. -/
structure GroupHost where
  own : RowTable
  groups : OrdDict Key RowTable
  now : ℕ
  live : ℕ

namespace GroupHost

variable (h : GroupHost)

/-- `f_get_group`. -/
def group? (g : Key) : Option RowTable :=
  match h.own.get? g with
  | none => none
  | some row => if has row.flags GROUP then h.groups.get? g else none

/-- `get(g, None)` answers with the group: its row has not expired. -/
def reads (g : Key) : Bool :=
  match h.own.get? g with
  | none => false
  | some row => !JDb.isExpired h.now h.live row

/-- `set_key_flags` of `'g:::n'`. What changes is found in the group, and the group is called with
the arguments of the call, all but `no_delete`. -/
def setKeyFlags (a : FlagChange) (g n : Key) : FlagReport × GroupHost :=
  if a.masks = (0, 0) then ([], h)
  else
    match h.group? g with
    | none => ([], h)
    | some child =>
      match a.pending child [n] with
      | [] => ([], h)
      | deferred =>
        if h.reads g then
          let ret := { a with noDelete := none }.setKeyFlags (deferred.map Prod.fst) child
          (ret.1.map fun x => (g ++ JDb.SEP_SYM ++ x.1, x.2), { h with groups := h.groups.set g ret.2 })
        else ([], h)

end GroupHost

end OmniJsonDb
