import OmniJsonDb.Proof.Decoding

/-!
# What annotations read

The rules by which an annotation reads a stored value, or refuses it, without the decoder: scalars by
what their types make of the value, containers and dataclasses part by part, unions by their members.

* `Reading`: the rules.
* `gives_iff`, `refuses_iff`: the decoder follows them, with as many calls as it takes.
-/

namespace OmniJsonDb

namespace Dataclass

open Fuel

/-! ## Parts -/

/-- A part of a stored value: one that an annotation reads, or what stands for one that is not there. -/
inductive Part where
  | read (v : Val) (h : Hint)
  | made (r : Except DcErr Val)

/-- The annotation has parts, and is no union. -/
def Hint.Composite : Hint → Prop
  | .list _ | .tupleOf _ | .tuple _ | .set _ | .frozenset _ | .dict _ _ | .inst _ => True
  | _ => False

/-- A field of a dataclass: the stored value under its name, else its default, else it is missing. -/
def fieldPart (e : Env) (kvs : List (Val × Val)) (f : Field) : Part :=
  match getItem e f.name kvs with
  | some v => .read v f.hint
  | none => .made (f.default.elim (.error .value) .ok)

/-- The parts of a stored value: the elements of what can be iterated over, the keys and values of a
dictionary, the fields of a dataclass. -/
def parts (e : Env) (h : Hint) (v : Val) : Except DcErr (List Part) :=
  match h with
  | .dict kh vh =>
    match v with
    | .dict kvs => .ok (kvs.flatMap fun kv => [.read kv.1 kh, .read kv.2 vh])
    | _ => .error .attribute
  | .inst cls =>
    match v with
    | .dict kvs => .ok ((e.classes cls).fields.map (fieldPart e kvs))
    | _ => .error .value
  | .list h | .tupleOf h | .set h | .frozenset h => (members v).map fun xs => xs.map fun x => .read x h
  | .tuple [] => (members v).map fun xs => xs.map fun x => .read x .any
  | .tuple hs => (members v).map fun xs => (xs.zip hs).map fun p => .read p.1 p.2
  | _ => .ok []

/-- Keys and values by turns. -/
def pairUp : List Val → List (Val × Val)
  | k :: v :: rest => (k, v) :: pairUp rest
  | _ => []

/-- The value of the parts; the members of a set and the keys of a dictionary have to be hashed. -/
def gather (e : Env) (h : Hint) (ys : List Val) : Except DcErr Val :=
  match h with
  | .dict _ _ => (setItems e [] (pairUp ys)).map .dict
  | .inst cls => .ok (.inst cls ys)
  | .tupleOf _ | .tuple _ => .ok (.tuple ys)
  | .set _ => (addAll e [] ys).map .set
  | .frozenset _ => (addAll e [] ys).map .frozenset
  | _ => .ok (.list ys)

/-! ## The rules -/

/-- **How an annotation reads a stored value**: as a value, or with an error that a `Union` goes on from. -/
inductive Reading (e : Env) : Hint → Val → Except DcErr Val → Prop
  | none (h : Hint) : Reading e h .none (.ok .none)
  | any (v : Val) : Reading e .any v (.ok v)
  | noneType (v : Val) : Reading e .noneType v (.ok v)
  /-- `bool(..)` takes everything. -/
  | bool {v : Val} (hv : v ≠ .none) : Reading e .bool v (.ok (.bool (e.truthy v)))
  /-- `int(..)` takes everything too: what it cannot convert stays as it is. -/
  | intBool (b : Bool) : Reading e .int (.bool b) (.ok (.bool b))
  | int {v w : Val} (hv : v ≠ .none) (hb : ∀ b, v ≠ .bool b) (h : e.toInt v = .ok w) : Reading e .int v (.ok w)
  | intLeft {v : Val} {err : DcErr} (hv : v ≠ .none) (hb : ∀ b, v ≠ .bool b) (h : e.toInt v = .error err)
      (herr : err = .type ∨ err = .value) : Reading e .int v (.ok v)
  | intKey {v : Val} (hv : v ≠ .none) (hb : ∀ b, v ≠ .bool b) (h : e.toInt v = .error .key) : Reading e .int v (.error .key)
  | floatBool (b : Bool) : Reading e .float (.bool b) (.ok (.bool b))
  | float {v w : Val} (hv : v ≠ .none) (hb : ∀ b, v ≠ .bool b) (h : e.toFloat v = .ok w) : Reading e .float v (.ok w)
  | floatLeft {v : Val} {err : DcErr} (hv : v ≠ .none) (hb : ∀ b, v ≠ .bool b) (h : e.toFloat v = .error err)
      (herr : err = .type ∨ err = .value) : Reading e .float v (.ok v)
  | floatKey {v : Val} (hv : v ≠ .none) (hb : ∀ b, v ≠ .bool b) (h : e.toFloat v = .error .key) :
      Reading e .float v (.error .key)
  | str (s : List Char) : Reading e .str (.str s) (.ok (.str s))
  | strEnum {c : ℕ} (m : ℕ) (x : Val) (h : e.mixin c = .str) : Reading e .str (.enum c m x) (.ok (.enum c m x))
  | notStr {v : Val} (hv : v ≠ .none) (hs : ∀ s, v ≠ .str s) (he : ∀ c m x, v = .enum c m x → e.mixin c ≠ .str) :
      Reading e .str v (.error .value)
  | bytes (b : Bytes) : Reading e .bytes (.bytes b) (.ok (.bytes b))
  | notBytes {v : Val} (hv : v ≠ .none) (hb : ∀ b, v ≠ .bytes b) : Reading e .bytes v (.error .value)
  /-- A standard type parses what is no instance of it. -/
  | isStd {t : StdType} {v : Val} (h : isStd t v = true) : Reading e (.std t) v (.ok v)
  | std {t : StdType} {v w : Val} (hv : v ≠ .none) (hno : Dataclass.isStd t v = false) (h : e.parse t v = .ok w) :
      Reading e (.std t) v (.ok w)
  | notStd {t : StdType} {v : Val} {err : DcErr} (hv : v ≠ .none) (hno : Dataclass.isStd t v = false)
      (h : e.parse t v = .error err) (hc : err.caught = true) : Reading e (.std t) v (.error err)
  /-- An `Enum` class is called. -/
  | enum {c : ℕ} {v w : Val} (hv : v ≠ .none) (h : e.enum c v = .ok w) : Reading e (.enum c) v (.ok w)
  | notEnum {c : ℕ} {v : Val} {err : DcErr} (hv : v ≠ .none) (h : e.enum c v = .error err) (hc : err.caught = true) :
      Reading e (.enum c) v (.error err)
  /-- Every part is read. -/
  | parts {h : Hint} {v : Val} {ps : List Part} {ys : List Val} (hh : h.Composite) (hv : v ≠ .none)
      (hps : Dataclass.parts e h v = .ok ps) (hlen : ps.length = ys.length)
      (hmade : ∀ q ∈ ps.zip ys, ∀ r, q.1 = .made r → r = .ok q.2)
      (hread : ∀ q ∈ ps.zip ys, ∀ x hx, q.1 = .read x hx → Reading e hx x (.ok q.2)) :
      Reading e h v (gather e h ys)
  /-- A part is refused, or missing, behind parts that are read. -/
  | part {h hx : Hint} {v x : Val} {pre post : List Part} {ys : List Val} {err : DcErr} (hh : h.Composite) (hv : v ≠ .none)
      (hps : Dataclass.parts e h v = .ok (pre ++ .read x hx :: post)) (hlen : pre.length = ys.length)
      (hmade : ∀ q ∈ pre.zip ys, ∀ r, q.1 = .made r → r = .ok q.2)
      (hread : ∀ q ∈ pre.zip ys, ∀ x hx, q.1 = .read x hx → Reading e hx x (.ok q.2))
      (herr : Reading e hx x (.error err)) : Reading e h v (.error err)
  | missing {h : Hint} {v : Val} {pre post : List Part} {ys : List Val} {err : DcErr} (hh : h.Composite) (hv : v ≠ .none)
      (hps : Dataclass.parts e h v = .ok (pre ++ .made (.error err) :: post)) (hlen : pre.length = ys.length)
      (hmade : ∀ q ∈ pre.zip ys, ∀ r, q.1 = .made r → r = .ok q.2)
      (hread : ∀ q ∈ pre.zip ys, ∀ x hx, q.1 = .read x hx → Reading e hx x (.ok q.2))
      (hc : err.caught = true) : Reading e h v (.error err)
  /-- There are no parts: what is stored cannot be iterated over, or is no dictionary. -/
  | noParts {h : Hint} {v : Val} {err : DcErr} (hh : h.Composite) (hv : v ≠ .none)
      (hps : Dataclass.parts e h v = .error err) (hc : err.caught = true) : Reading e h v (.error err)
  /-- The first member that does not refuse reads the value; when all do, it stays as it is. -/
  | noMember (v : Val) : Reading e (.union []) v (.ok v)
  | skip {hs : List Hint} {v : Val} {r : Except DcErr Val} (hr : Reading e (.union hs) v r) :
      Reading e (.union (.noneType :: hs)) v r
  | member {h : Hint} {hs : List Hint} {v w : Val} (hne : h ≠ .noneType) (hw : Reading e h v (.ok w)) :
      Reading e (.union (h :: hs)) v (.ok w)
  | next {h : Hint} {hs : List Hint} {v : Val} {err : DcErr} {r : Except DcErr Val} (hne : h ≠ .noneType)
      (herr : Reading e h v (.error err)) (hr : Reading e (.union hs) v r) : Reading e (.union (h :: hs)) v r

/-- The annotation reads `v` as `w`. -/
def Reads (e : Env) (v : Val) (h : Hint) (w : Val) : Prop := Reading e h v (.ok w)

/-- The annotation refuses `v`. -/
def Refused (e : Env) (v : Val) (h : Hint) : Prop := ∃ err, Reading e h v (.error err)

variable {e : Env}

/-! ## The decoder, part by part -/

/-- A part decoded. -/
def decodePart (dec : Val → Hint → Except DcErr Val) : Part → Except DcErr Val
  | .read v h => dec v h
  | .made r => r

theorem decodeItems_parts (dec : Val → Hint → Except DcErr Val) (kh vh : Hint) (kvs : List (Val × Val)) :
    decodeItems dec kh vh kvs =
      ((kvs.flatMap fun kv => [Part.read kv.1 kh, Part.read kv.2 vh]).mapM (decodePart dec)).map pairUp := by
  induction kvs with
  | nil => rfl
  | cons kv kvs ih =>
    obtain ⟨k, v⟩ := kv
    rw [decodeItems, List.flatMap_cons, ih]
    simp only [List.cons_append, List.nil_append, List.mapM_cons, decodePart]
    cases dec k kh with
    | error err => rfl
    | ok k' => cases dec v vh with
      | error err => rfl
      | ok v' => cases (kvs.flatMap fun kv => [Part.read kv.1 kh, Part.read kv.2 vh]).mapM (decodePart dec) <;> rfl

theorem mapM_map_parts {α : Type} (dec : Val → Hint → Except DcErr Val) (f : α → Part) (xs : List α) :
    (xs.map f).mapM (decodePart dec) = xs.mapM fun x => decodePart dec (f x) := by
  induction xs with
  | nil => rfl
  | cons x xs ih => simp only [List.map_cons, List.mapM_cons, ih]

/-- A container is decoded part by part, and the parts are gathered. -/
theorem decodeStep_parts (dec : Val → Hint → Except DcErr Val) (v : Val) {h : Hint} (hh : h.Composite) :
    decodeStep e dec v h = parts e h v >>= fun ps => ps.mapM (decodePart dec) >>= gather e h := by
  have hmembers : ∀ (f : Val → Part) (g : List Val → Except DcErr Val),
      ((members v).map (fun xs => xs.map f) >>= fun ps => ps.mapM (decodePart dec) >>= g) =
        members v >>= fun xs => (xs.mapM fun x => decodePart dec (f x)) >>= g := by
    intro f g
    cases members v with
    | error err => rfl
    | ok xs =>
      change (xs.map f).mapM (decodePart dec) >>= g = _
      rw [mapM_map_parts]
      rfl
  have hmap : ∀ {α : Type} (x : Except DcErr α) (f : α → Val), (x >>= fun a => pure (f a)) = x.map f := by
    intro α x f
    cases x <;> rfl
  cases h with
  | list h => rw [parts, hmembers]; rfl
  | tupleOf h => rw [parts, hmembers]; rfl
  | tuple hs =>
    cases hs with
    | nil => rw [parts, hmembers]; rfl
    | cons h hs =>
      have hps : parts e (.tuple (h :: hs)) v =
          (members v).map fun xs => (xs.zip (h :: hs)).map fun p => Part.read p.1 p.2 := rfl
      rw [hps]
      cases hm : members v with
      | error err => simp only [decodeStep, hm]; rfl
      | ok xs =>
        simp only [decodeStep, hm]
        change _ = ((xs.zip (h :: hs)).map fun p => Part.read p.1 p.2).mapM (decodePart dec) >>= _
        rw [mapM_map_parts]
        rfl
  | set h => rw [parts, hmembers]; rfl
  | frozenset h => rw [parts, hmembers]; rfl
  | dict kh vh =>
    cases v with
    | dict kvs =>
      simp only [decodeStep, parts]
      rw [decodeItems_parts]
      change _ = (kvs.flatMap fun kv => [Part.read kv.1 kh, Part.read kv.2 vh]).mapM (decodePart dec) >>= _
      cases (kvs.flatMap fun kv => [Part.read kv.1 kh, Part.read kv.2 vh]).mapM (decodePart dec) <;> rfl
    | _ => rfl
  | inst cls =>
    cases v with
    | dict kvs =>
      simp only [decodeStep, parts]
      have hfield : ∀ f, buildField e dec kvs f = decodePart dec (fieldPart e kvs f) := by
        intro f
        unfold buildField fieldPart
        cases getItem e f.name kvs <;> rfl
      change _ = ((e.classes cls).fields.map (fieldPart e kvs)).mapM (decodePart dec) >>= _
      rw [mapM_map_parts, funext hfield]
      rfl
    | _ => rfl
  | _ => exact hh.elim

/-! ## What is decoded is read -/

theorem decodeNumber_of {convert : Val → Except DcErr Val} {v : Val} (hb : ∀ b, v ≠ .bool b) :
    decodeNumber convert v = match convert v with
      | .ok w => .ok w
      | .error .type | .error .value => .ok v
      | .error err => .error err := by
  unfold decodeNumber
  cases v <;> first | rfl | exact absurd rfl (hb _)

theorem reading_number {convert : Val → Except DcErr Val} {h : Hint} {v : Val} (hv : v ≠ .none)
    (hbool : ∀ b, Reading e h (.bool b) (.ok (.bool b)))
    (hok : ∀ w, (∀ b, v ≠ .bool b) → convert v = .ok w → Reading e h v (.ok w))
    (hleft : ∀ err, (∀ b, v ≠ .bool b) → convert v = .error err → err = .type ∨ err = .value → Reading e h v (.ok v))
    (hkey : (∀ b, v ≠ .bool b) → convert v = .error .key → Reading e h v (.error .key))
    (hc : ∀ err, decodeNumber convert v = .error err → err.caught = true) : Reading e h v (decodeNumber convert v) := by
  by_cases hb : ∃ b, v = .bool b
  · obtain ⟨b, rfl⟩ := hb
    exact hbool b
  · have hne : ∀ b, v ≠ .bool b := fun b hb' => hb ⟨b, hb'⟩
    rw [decodeNumber_of hne] at hc ⊢
    cases hconv : convert v with
    | ok w => exact hok w hne hconv
    | error err =>
      rw [hconv] at hc
      cases err with
      | type => exact hleft _ hne hconv (.inl rfl)
      | value => exact hleft _ hne hconv (.inr rfl)
      | key => exact hkey hne hconv
      | _ => cases hc _ rfl

theorem reading_scalar {v : Val} (hv : v ≠ .none) {h : Hint} (hh : h.Scalar)
    (hc : ∀ err, decodeScalar e v h = .error err → err.caught = true) : Reading e h v (decodeScalar e v h) := by
  cases h with
  | any => exact .any v
  | noneType => exact .noneType v
  | bool => exact .bool hv
  | int => exact reading_number hv .intBool (fun w => .int hv) (fun err => .intLeft hv) (.intKey hv) hc
  | float => exact reading_number hv .floatBool (fun w => .float hv) (fun err => .floatLeft hv) (.floatKey hv) hc
  | str =>
    cases v with
    | str s => exact .str s
    | enum c m x =>
      rw [decodeScalar]
      split
      · rename_i hmix
        exact .strEnum m x hmix
      · rename_i hmix
        exact .notStr hv (by simp) fun c' m' x' heq => by cases heq; exact hmix
    | _ => exact .notStr hv (by simp) (by simp)
  | bytes =>
    cases v with
    | bytes b => exact .bytes b
    | _ => exact .notBytes hv (by simp)
  | std t =>
    rw [decodeScalar] at hc ⊢
    split
    · rename_i hstd
      exact .isStd hstd
    · rename_i hstd
      rw [if_neg hstd] at hc
      rw [Bool.not_eq_true] at hstd
      cases hp : e.parse t v with
      | ok w => exact .std hv hstd hp
      | error err => exact .notStd hv hstd hp (hc err hp)
  | enum c =>
    rw [decodeScalar] at hc ⊢
    cases hp : e.enum c v with
    | ok w => exact .enum hv hp
    | error err => exact .notEnum hv hp (hc err hp)
  | _ => exact hh.elim

theorem decode_succ {v : Val} (hv : v ≠ .none) (n : ℕ) (h : Hint) :
    decode e (n + 1) v h = decodeStep e (decode e n) v h := by
  cases v <;> first | rfl | exact absurd rfl hv

/-- What holds of decoded parts. -/
theorem read_zip {dec : Val → Hint → Except DcErr Val} {ps : List Part} {ys : List Val}
    (hdec : ∀ v h w, dec v h = .ok w → Reading e h v (.ok w)) (h : ps.mapM (decodePart dec) = .ok ys) :
    ps.length = ys.length ∧ (∀ q ∈ ps.zip ys, ∀ r, q.1 = .made r → r = .ok q.2) ∧
      ∀ q ∈ ps.zip ys, ∀ x hx, q.1 = .read x hx → Reading e hx x (.ok q.2) := by
  obtain ⟨hlen, hzip⟩ := List.forall₂_iff_zip.1 (Raising.mapM_ok h)
  refine ⟨hlen, ?_, ?_⟩
  · intro q hq r hr
    have hqr : decodePart dec q.1 = .ok q.2 := hzip hq
    rwa [hr] at hqr
  · intro q hq x hx hr
    have hqr : decodePart dec q.1 = .ok q.2 := hzip hq
    rw [hr] at hqr
    exact hdec x hx q.2 hqr

theorem reading_parts {dec : Val → Hint → Except DcErr Val} {v : Val} (hv : v ≠ .none) {h : Hint} (hh : h.Composite)
    {r : Except DcErr Val} (hr : decodeStep e dec v h = r) (hc : ∀ err, r = .error err → err.caught = true)
    (hdec : ∀ v h r, dec v h = r → (∀ err, r = .error err → err.caught = true) → Reading e h v r) : Reading e h v r := by
  have hok : ∀ v h w, dec v h = .ok w → Reading e h v (.ok w) :=
    fun v h w hw => hdec v h _ hw fun err herr => by cases herr
  rw [decodeStep_parts dec v hh] at hr
  cases hps : parts e h v with
  | error err =>
    rw [hps] at hr
    obtain rfl : .error err = r := hr
    exact .noParts hh hv hps (hc err rfl)
  | ok ps =>
    rw [hps] at hr
    change ps.mapM (decodePart dec) >>= gather e h = r at hr
    cases hys : ps.mapM (decodePart dec) with
    | ok ys =>
      rw [hys] at hr
      obtain rfl : gather e h ys = r := hr
      obtain ⟨hlen, hmade, hread⟩ := read_zip hok hys
      exact .parts hh hv hps hlen hmade hread
    | error err =>
      rw [hys] at hr
      obtain rfl : .error err = r := hr
      obtain ⟨pre, p, post, rfl, hpre, hp⟩ := Raising.mapM_error_iff.1 hys
      obtain ⟨ys, hys⟩ := Raising.exists_mapM hpre
      obtain ⟨hlen, hmade, hread⟩ := read_zip hok hys
      cases p with
      | read x hx =>
        refine .part hh hv hps hlen hmade hread (hdec x hx _ hp ?_)
        exact fun err' herr => hc err' herr
      | made r =>
        obtain rfl : r = .error err := hp
        exact .missing hh hv hps hlen hmade hread (hc err rfl)

theorem reading_union {dec : Val → Hint → Except DcErr Val} {v : Val} {hs : List Hint} {r : Except DcErr Val}
    (hr : decodeUnion dec v hs = r) (hc : ∀ err, r = .error err → err.caught = true)
    (hdec : ∀ v h r, dec v h = r → (∀ err, r = .error err → err.caught = true) → Reading e h v r) :
    Reading e (.union hs) v r := by
  induction hs with
  | nil =>
    obtain rfl : .ok v = r := hr
    exact .noMember v
  | cons h hs ih =>
    by_cases hne : h = .noneType
    · subst hne
      exact .skip (ih hr)
    · rw [decodeUnion_cons hne] at hr
      cases hd : dec v h with
      | ok w =>
        rw [hd] at hr
        obtain rfl : .ok w = r := hr
        exact .member hne (hdec v h _ hd fun err herr => by cases herr)
      | error err =>
        rw [hd] at hr
        dsimp only at hr
        split at hr
        · rename_i hcaught
          exact .next hne (hdec v h _ hd fun err' herr => by cases herr; exact hcaught) (ih hr)
        · rename_i hcaught
          obtain rfl : .error err = r := hr
          exact absurd (hc err rfl) hcaught

/-- **What is decoded is read.** -/
theorem reading_of_decode {n : ℕ} {v : Val} {h : Hint} {r : Except DcErr Val} (hr : decode e n v h = r)
    (hc : ∀ err, r = .error err → err.caught = true) : Reading e h v r := by
  induction n generalizing v h r with
  | zero =>
    obtain rfl : .error .recursion = r := hr
    cases hc _ rfl
  | succ n ih =>
    by_cases hv : v = .none
    · subst hv
      obtain rfl : .ok .none = r := hr
      exact .none h
    · rw [decode_succ hv] at hr
      cases h with
      | union hs => exact reading_union hr hc fun v h r => ih
      | any | noneType | bool | int | float | str | bytes | std | enum =>
        obtain rfl := hr
        exact reading_scalar hv trivial hc
      | list | tupleOf | tuple | set | frozenset | dict | inst =>
        refine reading_parts hv ?_ hr hc fun v h r => ih
        exact trivial

/-! ## What is read is decoded -/

theorem addAll_error {acc xs : List Val} {err : DcErr} (h : addAll e acc xs = .error err) : err = .type := by
  induction xs generalizing acc with
  | nil => cases h
  | cons x xs ih =>
    rw [addAll] at h
    split at h
    · exact ih h
    · exact (Except.error.inj h).symm

theorem setItems_error {acc kvs : List (Val × Val)} {err : DcErr} (h : setItems e acc kvs = .error err) : err = .type := by
  induction kvs generalizing acc with
  | nil => cases h
  | cons kv kvs ih =>
    obtain ⟨k, v⟩ := kv
    rw [setItems] at h
    split at h
    · exact ih h
    · exact (Except.error.inj h).symm

/-- Parts that cannot be hashed raise `TypeError`. -/
theorem gather_error {h : Hint} {ys : List Val} {err : DcErr} (hg : gather e h ys = .error err) : err.caught = true := by
  have htype : err = .type := by
    unfold gather at hg
    split at hg
    · exact setItems_error (Raising.map_error hg)
    · cases hg
    · cases hg
    · cases hg
    · exact addAll_error (Raising.map_error hg)
    · exact addAll_error (Raising.map_error hg)
    · cases hg
  rw [htype]
  rfl

theorem grows_decodePart (p : Part) : Grows .recursion fun n => decodePart (decode e n) p := by
  cases p with
  | read v h => exact grows_decode e v h
  | made r => exact Grows.const r

/-- Parts that are read are decoded with enough calls. -/
theorem returns_parts {ps : List Part} {ys : List Val} (hlen : ps.length = ys.length)
    (hmade : ∀ q ∈ ps.zip ys, ∀ r, q.1 = .made r → r = .ok q.2)
    (hread : ∀ q ∈ ps.zip ys, ∀ x hx, q.1 = .read x hx → ∃ n, decode e n x hx = .ok q.2) :
    List.Forall₂ (fun p y => Returns (fun n => decodePart (decode e n) p) y) ps ys := by
  refine List.forall₂_iff_zip.2 ⟨hlen, ?_⟩
  intro p y hq
  cases p with
  | read x hx => exact hread _ hq x hx rfl
  | made r =>
    have hr : r = .ok y := hmade _ hq r rfl
    exact ⟨0, hr⟩

theorem exists_of_forall₂ {R : Part → Val → Prop} {ps : List Part} {ys : List Val} (h : List.Forall₂ R ps ys) :
    ∀ p ∈ ps, ∃ y, R p y := by
  induction h with
  | nil => exact fun p hp => absurd hp List.not_mem_nil
  | cons hpy _ ih => exact List.forall_mem_cons.2 ⟨⟨_, hpy⟩, ih⟩

/-- A part that raises ends the decoding of the whole. -/
theorem decode_part_error {h : Hint} (hh : h.Composite) {v : Val} (hv : v ≠ .none) {pre post : List Part} {p : Part} {err : DcErr}
    (hps : parts e h v = .ok (pre ++ p :: post)) (hc : err.caught = true)
    (hpre : ∀ q ∈ pre, ∃ y, Returns (fun n => decodePart (decode e n) q) y)
    (hp : ∃ n, decodePart (decode e n) p = .error err) : ∃ n, decode e n v h = .error err := by
  have hne : err ≠ .recursion := by
    intro hrec
    rw [hrec] at hc
    cases hc
  obtain ⟨n, hn⟩ : ∃ n, (pre ++ p :: post).mapM (decodePart (decode e n)) = .error err :=
    raises_mapM grows_decodePart hpre hne hp
  refine ⟨n + 1, ?_⟩
  rw [decode_succ hv, decodeStep_parts _ v hh, hps]
  change (pre ++ p :: post).mapM (decodePart (decode e n)) >>= gather e h = _
  rw [hn]
  rfl

theorem decode_scalar {v : Val} (hv : v ≠ .none) {h : Hint} (hh : h.Scalar) : decode e 1 v h = decodeScalar e v h := by
  rw [decode_succ hv]
  cases h <;> first | rfl | exact hh.elim

theorem decode_any {v : Val} {h : Hint} (hh : h = .any ∨ h = .noneType) : ∃ n, decode e n v h = .ok v := by
  refine ⟨1, ?_⟩
  by_cases hv : v = .none
  · rw [hv]
    rfl
  · rw [decode_succ hv]
    rcases hh with rfl | rfl <;> rfl

/-- Decoding ends in `r`: a value, or an error that a `Union` goes on from. -/
def Ends (e : Env) (h : Hint) (v : Val) (r : Except DcErr Val) : Prop :=
  (∀ err, r = .error err → err.caught = true) ∧ ∃ n, decode e n v h = r

theorem Ends.ok {h : Hint} {v w : Val} (hw : ∃ n, decode e n v h = .ok w) : Ends e h v (.ok w) :=
  ⟨fun err herr => (by cases herr), hw⟩

theorem Ends.scalar {v : Val} (hv : v ≠ .none) {h : Hint} (hh : h.Scalar) {r : Except DcErr Val}
    (hr : decodeScalar e v h = r) (hc : ∀ err, r = .error err → err.caught = true) : Ends e h v r :=
  ⟨hc, 1, (decode_scalar hv hh).trans hr⟩

theorem Ends.scalar_ok {v w : Val} (hv : v ≠ .none) {h : Hint} (hh : h.Scalar) (hr : decodeScalar e v h = .ok w) :
    Ends e h v (.ok w) := .scalar hv hh hr fun err herr => by cases herr

theorem Ends.scalar_error {v : Val} {err : DcErr} (hv : v ≠ .none) {h : Hint} (hh : h.Scalar)
    (hr : decodeScalar e v h = .error err) (hc : err.caught = true) : Ends e h v (.error err) :=
  .scalar hv hh hr fun err' herr => by cases herr; exact hc

/-- One member of a union after the other, at a number of calls that is enough for all. -/
theorem Ends.member {h : Hint} (hne : h ≠ .noneType) {hs : List Hint} {v w : Val} (hw : Ends e h v (.ok w)) :
    Ends e (.union (h :: hs)) v (.ok w) := by
  obtain ⟨-, n, hn⟩ := hw
  refine .ok ?_
  by_cases hv : v = .none
  · subst hv
    have hnone : Gives e .none h w := ⟨n, hn⟩
    rw [gives_none.1 hnone]
    exact ⟨1, rfl⟩
  · refine ⟨n + 1, ?_⟩
    rw [decode_succ hv]
    change decodeUnion (decode e n) v (h :: hs) = _
    rw [decodeUnion_cons hne, hn]

theorem Ends.next {h : Hint} (hne : h ≠ .noneType) {hs : List Hint} {v : Val} {err : DcErr} {r : Except DcErr Val}
    (herr : Ends e h v (.error err)) (hr : Ends e (.union hs) v r) : Ends e (.union (h :: hs)) v r := by
  obtain ⟨hc, n, hn⟩ := herr
  obtain ⟨hc', m, hm⟩ := hr
  have hcaught : err.caught = true := hc err rfl
  refine ⟨hc', ?_⟩
  have hv : v ≠ .none := by
    rintro rfl
    cases n <;> cases hn
    cases hcaught
  have hne' : Except.error err ≠ (.error .recursion : Except DcErr Val) := by
    intro heq
    cases heq
    cases hcaught
  have nomore : r ≠ .error .recursion := by
    intro heq
    cases hc' _ heq
  have hfirst := (grows_decode e v h).eventually ⟨fun heq => hne' heq, n, hn⟩
  have hrest := (grows_decode e v (.union hs)).eventually ⟨fun heq => nomore heq, m, hm⟩
  obtain ⟨n', hn'⟩ := hfirst
  obtain ⟨m', hm'⟩ := hrest
  refine ⟨max n' m' + 1, ?_⟩
  have hlater := hm' (max n' m' + 1) (by omega)
  rw [decode_succ hv] at hlater ⊢
  change decodeUnion (decode e (max n' m')) v hs = r at hlater
  change decodeUnion (decode e (max n' m')) v (h :: hs) = r
  rw [decodeUnion_cons hne, hn' (max n' m') (by omega)]
  simp only [hcaught, if_true]
  exact hlater

theorem Ends.skip {hs : List Hint} {v : Val} {r : Except DcErr Val} (hr : Ends e (.union hs) v r) :
    Ends e (.union (.noneType :: hs)) v r := by
  obtain ⟨hc, n, hn⟩ := hr
  refine ⟨hc, n, ?_⟩
  cases n with
  | zero => exact hn
  | succ n =>
    by_cases hv : v = .none
    · subst hv
      exact hn
    · rw [decode_succ hv] at hn ⊢
      exact hn

/-- **What is read is decoded**, with enough calls. -/
theorem Reading.ends {v : Val} {h : Hint} {r : Except DcErr Val} (hr : Reading e h v r) : Ends e h v r := by
  have hearlier : ∀ {pre : List Part} {ys : List Val}, pre.length = ys.length →
      (∀ q ∈ pre.zip ys, ∀ r, q.1 = .made r → r = .ok q.2) →
      (∀ q ∈ pre.zip ys, ∀ x hx, q.1 = .read x hx → Ends e hx x (.ok q.2)) →
      ∀ q ∈ pre, ∃ y, Returns (fun n => decodePart (decode e n) q) y := fun hlen hmade hread =>
    exists_of_forall₂ (returns_parts hlen hmade fun q hq x hx hqx => (hread q hq x hx hqx).2)
  induction hr with
  | none h => exact .ok ⟨1, rfl⟩
  | any v => exact .ok (decode_any (.inl rfl))
  | noneType v => exact .ok (decode_any (.inr rfl))
  | bool hv => exact .scalar_ok hv trivial rfl
  | intBool b => exact .scalar_ok (by simp) trivial rfl
  | int hv hb hw => exact .scalar_ok hv trivial (by rw [decodeScalar, decodeNumber_of hb, hw])
  | intLeft hv hb hw herr =>
    refine .scalar_ok hv trivial ?_
    rw [decodeScalar, decodeNumber_of hb, hw]
    rcases herr with rfl | rfl <;> rfl
  | intKey hv hb hw => exact .scalar_error hv trivial (by rw [decodeScalar, decodeNumber_of hb, hw]) rfl
  | floatBool b => exact .scalar_ok (by simp) trivial rfl
  | float hv hb hw => exact .scalar_ok hv trivial (by rw [decodeScalar, decodeNumber_of hb, hw])
  | floatLeft hv hb hw herr =>
    refine .scalar_ok hv trivial ?_
    rw [decodeScalar, decodeNumber_of hb, hw]
    rcases herr with rfl | rfl <;> rfl
  | floatKey hv hb hw => exact .scalar_error hv trivial (by rw [decodeScalar, decodeNumber_of hb, hw]) rfl
  | str s => exact .scalar_ok (by simp) trivial rfl
  | strEnum m x hmix => exact .scalar_ok (by simp) trivial (by rw [decodeScalar, if_pos hmix])
  | @notStr v hv hs he =>
    refine .scalar_error hv trivial ?_ rfl
    cases v with
    | str s => exact absurd rfl (hs s)
    | enum c m x => rw [decodeScalar, if_neg (he c m x rfl)]
    | _ => rfl
  | bytes b => exact .scalar_ok (by simp) trivial rfl
  | @notBytes v hv hb =>
    refine .scalar_error hv trivial ?_ rfl
    cases v with
    | bytes b => exact absurd rfl (hb b)
    | _ => rfl
  | @isStd t v hstd =>
    have hv : v ≠ .none := by
      rintro rfl
      cases hstd
    exact .scalar_ok hv trivial (by rw [decodeScalar, if_pos hstd])
  | std hv hno hw => exact .scalar_ok hv trivial (by rw [decodeScalar, hno, if_neg Bool.false_ne_true, hw])
  | notStd hv hno hw hc => exact .scalar_error hv trivial (by rw [decodeScalar, hno, if_neg Bool.false_ne_true, hw]) hc
  | enum hv hw => exact .scalar_ok hv trivial (by rw [decodeScalar, hw])
  | notEnum hv hw hc => exact .scalar_error hv trivial (by rw [decodeScalar, hw]) hc
  | @parts h v ps ys hh hv hps hlen hmade hread ih =>
    refine ⟨fun err herr => gather_error herr, ?_⟩
    obtain ⟨n, hn⟩ : ∃ n, ps.mapM (decodePart (decode e n)) = .ok ys :=
      (returns_mapM grows_decodePart).2 (returns_parts hlen hmade fun q hq x hx hqx => (ih q hq x hx hqx).2)
    refine ⟨n + 1, ?_⟩
    rw [decode_succ hv, decodeStep_parts _ v hh, hps]
    change ps.mapM (decodePart (decode e n)) >>= gather e h = _
    rw [hn]
    rfl
  | part hh hv hps hlen hmade hread herr ih ih' =>
    have hc := ih'.1 _ rfl
    refine ⟨fun err' heq => by cases heq; exact hc, ?_⟩
    exact decode_part_error hh hv hps hc (hearlier hlen hmade ih) ih'.2
  | missing hh hv hps hlen hmade hread hc ih =>
    refine ⟨fun err' heq => by cases heq; exact hc, ?_⟩
    exact decode_part_error hh hv hps hc (hearlier hlen hmade ih) ⟨0, rfl⟩
  | noParts hh hv hps hc =>
    refine ⟨fun err' heq => by cases heq; exact hc, 1, ?_⟩
    rw [decode_succ hv, decodeStep_parts _ _ hh, hps]
    rfl
  | noMember v =>
    refine .ok ⟨1, ?_⟩
    by_cases hv : v = .none
    · rw [hv]
      rfl
    · rw [decode_succ hv]
      rfl
  | skip hr ih => exact ih.skip
  | member hne hw ih => exact ih.member hne
  | next hne herr hr ih ih' => exact ih.next hne ih'

/-- **The decoder reads by these rules.** -/
theorem gives_iff {v : Val} {h : Hint} {w : Val} : Gives e v h w ↔ Reads e v h w := by
  constructor
  · intro hgive
    obtain ⟨n, hn⟩ := hgive
    exact reading_of_decode hn fun err herr => by cases herr
  · exact fun hread => hread.ends.2

/-- **It refuses by them.** -/
theorem refuses_iff {v : Val} {h : Hint} : Refuses e v h ↔ Refused e v h := by
  constructor
  · intro hrefuse
    obtain ⟨err, hc, n, hn⟩ := hrefuse
    exact ⟨err, reading_of_decode hn fun err' herr => by cases herr; exact hc⟩
  · intro hrefused
    obtain ⟨err, herr⟩ := hrefused
    obtain ⟨hc, hn⟩ := herr.ends
    exact ⟨err, hc err rfl, hn⟩

/-- So does a union, member by member. -/
theorem taken_iff {v w : Val} {hs : List Hint} :
    Taken (Gives e v) (Refuses e v) v hs w ↔ Taken (Reads e v) (Refused e v) v hs w := by
  have hgives : Gives e v = Reads e v := funext fun h => funext fun w => propext gives_iff
  have hrefuses : Refuses e v = Refused e v := funext fun h => propext refuses_iff
  rw [hgives, hrefuses]

end Dataclass

end OmniJsonDb
