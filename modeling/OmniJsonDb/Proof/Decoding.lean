import OmniJsonDb.Lib.Fuel
import OmniJsonDb.Model.Dataclass

/-!
# Decoding with enough calls

What decoding by an annotation ends in, however many calls it nests.

* `Gives`: the value, `Refuses`: an error that a `Union` goes on from.
* `gives_list` to `gives_union`: what an annotation gives, by what its parts give.
-/

namespace OmniJsonDb

namespace Dataclass

open Fuel

variable {e : Env}

/-- Decoding ends with `w`. -/
def Gives (e : Env) (v : Val) (h : Hint) (w : Val) : Prop := Returns (fun n => decode e n v h) w

/-- Decoding is refused, in a way that a `Union` goes on from. -/
def Refuses (e : Env) (v : Val) (h : Hint) : Prop := ∃ err : DcErr, err.caught = true ∧ ∃ n, decode e n v h = .error err

/-- **The first member of a union that does not refuse** gives the value; when all refuse, it
stays as it is. -/
def Taken (gives : Hint → Val → Prop) (refuses : Hint → Prop) (v : Val) : List Hint → Val → Prop
  | [], w => w = v
  | .noneType :: hs, w => Taken gives refuses v hs w
  | h :: hs, w => gives h w ∨ (refuses h ∧ Taken gives refuses v hs w)

/-! ## More calls change nothing -/

theorem decodeUnion_cons {dec : Val → Hint → Except DcErr Val} {v : Val} {h : Hint} {hs : List Hint}
    (hne : h ≠ .noneType) :
    decodeUnion dec v (h :: hs) = match dec v h with
      | .ok w => .ok w
      | .error err => if err.caught then decodeUnion dec v hs else .error err := by
  cases h <;> first | rfl | exact absurd rfl hne

section Grows

variable {dec : ℕ → Val → Hint → Except DcErr Val} (hd : ∀ v h, Grows .recursion fun n => dec n v h)

include hd

theorem grows_decodeUnion (v : Val) (hs : List Hint) : Grows .recursion fun n => decodeUnion (dec n) v hs := by
  induction hs with
  | nil => exact Grows.const _
  | cons h hs ih =>
    intro n
    have hcons : h ≠ .noneType → decodeUnion (dec n) v (h :: hs) = .error .recursion ∨
        decodeUnion (dec (n + 1)) v (h :: hs) = decodeUnion (dec n) v (h :: hs) := by
      intro hne
      rw [decodeUnion_cons hne, decodeUnion_cons hne]
      rcases hd v h n with hn | hn
      · left
        simp only [hn]
        rfl
      · simp only [hn]
        cases dec n v h with
        | ok w => exact .inr rfl
        | error err =>
          simp only
          split
          · exact ih n
          · exact .inr rfl
    by_cases hne : h = .noneType
    · subst hne
      exact ih n
    · exact hcons hne

theorem grows_decodeItems (kh vh : Hint) (kvs : List (Val × Val)) :
    Grows .recursion fun n => decodeItems (dec n) kh vh kvs := by
  induction kvs with
  | nil => exact Grows.const _
  | cons kv kvs ih =>
    obtain ⟨k, v⟩ := kv
    exact Grows.bind (hd k kh) fun k => Grows.bind (hd v vh) fun v => Grows.bind ih fun rest => Grows.const _

theorem grows_buildField (kvs : List (Val × Val)) (f : Field) : Grows .recursion fun n => buildField e (dec n) kvs f := by
  unfold buildField
  cases getItem e f.name kvs with
  | none => exact Grows.const _
  | some v => exact hd v f.hint

theorem grows_decodeStep (v : Val) (h : Hint) : Grows .recursion fun n => decodeStep e (dec n) v h := by
  have hmap : ∀ (g : Val → Hint) (xs : List Val), Grows .recursion fun n => xs.mapM fun x => dec n x (g x) :=
    fun g xs => Grows.mapM (fun x => hd x (g x)) xs
  cases h with
  | any | noneType | bool | int | float | str | bytes | std | enum => exact Grows.const _
  | union hs => exact grows_decodeUnion hd v hs
  | list h => exact Grows.bind (Grows.const _) fun xs => Grows.bind (hmap (fun _ => h) xs) fun ys => Grows.const _
  | tupleOf h => exact Grows.bind (Grows.const _) fun xs => Grows.bind (hmap (fun _ => h) xs) fun ys => Grows.const _
  | tuple hs =>
    cases hs with
    | nil => exact Grows.bind (Grows.const _) fun xs => Grows.bind (hmap (fun _ => .any) xs) fun ys => Grows.const _
    | cons h hs =>
      exact Grows.bind (Grows.const _) fun xs =>
        Grows.bind (Grows.mapM (fun p : Val × Hint => hd p.1 p.2) (xs.zip (h :: hs))) fun ys => Grows.const _
  | set h =>
    exact Grows.bind (Grows.const _) fun xs => Grows.bind (hmap (fun _ => h) xs) fun ys =>
      Grows.bind (Grows.const _) fun zs => Grows.const _
  | frozenset h =>
    exact Grows.bind (Grows.const _) fun xs => Grows.bind (hmap (fun _ => h) xs) fun ys =>
      Grows.bind (Grows.const _) fun zs => Grows.const _
  | dict kh vh =>
    cases v with
    | dict kvs =>
      exact Grows.bind (grows_decodeItems hd kh vh kvs) fun items => Grows.bind (Grows.const _) fun zs => Grows.const _
    | _ => exact Grows.const _
  | inst cls =>
    cases v with
    | dict kvs =>
      exact Grows.bind (Grows.mapM (grows_buildField hd kvs) (e.classes cls).fields) fun vs => Grows.const _
    | _ => exact Grows.const _

end Grows

/-- **More calls change nothing** but a run that ran out of them. -/
theorem grows_decode (e : Env) (v : Val) (h : Hint) : Grows .recursion fun n => decode e n v h := by
  intro n
  induction n generalizing v h with
  | zero => exact .inl rfl
  | succ n ih =>
    -- the decoders of these two depths are a family that grows
    obtain ⟨dec, h₀, h₁⟩ : ∃ dec : ℕ → Val → Hint → Except DcErr Val, dec 0 = decode e n ∧
        ∀ m, dec (m + 1) = decode e (n + 1) :=
      ⟨fun m => m.casesOn (decode e n) fun _ => decode e (n + 1), rfl, fun _ => rfl⟩
    have hd : ∀ v h, Grows .recursion fun m => dec m v h := by
      intro v h m
      cases m with
      | zero => simpa only [h₀, h₁] using ih v h
      | succ m =>
        right
        simp only [h₁]
    have hstep : decodeStep e (decode e n) v h = .error .recursion ∨
        decodeStep e (decode e (n + 1)) v h = decodeStep e (decode e n) v h := by
      simpa only [h₀, h₁] using grows_decodeStep (e := e) hd v h 0
    cases v with
    | none => exact .inr rfl
    | _ => exact hstep


/-! ## What decoding gives, by annotation -/

theorem Gives.unique {v : Val} {h : Hint} {w w' : Val} (hw : Gives e v h w) (hw' : Gives e v h w') : w = w' :=
  Except.ok.inj ((grows_decode e v h).unique (returns_iff.1 hw) (returns_iff.1 hw'))

@[simp] theorem gives_none {h : Hint} {w : Val} : Gives e .none h w ↔ w = .none := by
  constructor
  · rintro ⟨n, hn⟩
    cases n with
    | zero => cases hn
    | succ n => exact (Except.ok.inj hn).symm
  · rintro rfl
    exact ⟨1, rfl⟩

theorem gives_step {v : Val} (hv : v ≠ .none) {h : Hint} {w : Val} :
    Gives e v h w ↔ Returns (fun n => decodeStep e (decode e n) v h) w := by
  have hsucc : ∀ n, decode e (n + 1) v h = decodeStep e (decode e n) v h := by
    intro n
    cases v <;> first | rfl | exact absurd rfl hv
  constructor
  · rintro ⟨n, hn⟩
    cases n with
    | zero => cases hn
    | succ n => exact ⟨n, (hsucc n).symm.trans hn⟩
  · rintro ⟨n, hn⟩
    exact ⟨n + 1, (hsucc n).trans hn⟩

/-- The annotation has no parts. -/
def Hint.Scalar : Hint → Prop
  | .any | .noneType | .bool | .int | .float | .str | .bytes | .std _ | .enum _ => True
  | _ => False

theorem gives_scalar {v : Val} (hv : v ≠ .none) (h : Hint) (hh : h.Scalar) {w : Val} :
    Gives e v h w ↔ decodeScalar e v h = .ok w := by
  have hstep : ∀ d, decodeStep e d v h = decodeScalar e v h := by
    intro d
    cases h <;> first | rfl | exact hh.elim
  rw [gives_step hv]
  simp only [hstep]
  exact returns_const

theorem grows_all (h : Hint) (x : Val) : Grows .recursion fun n => decode e n x h := grows_decode e x h

/-- The elements of a sequence, each by one annotation. -/
theorem returns_elements {xs ys : List Val} {h : Hint} :
    Returns (fun n => xs.mapM fun x => decode e n x h) ys ↔ List.Forall₂ (fun x y => Gives e x h y) xs ys :=
  returns_mapM (grows_all h)

theorem gives_list {v w : Val} (hv : v ≠ .none) {h : Hint} {xs : List Val} (hxs : members v = .ok xs) :
    Gives e v (.list h) w ↔ ∃ ys, List.Forall₂ (fun x y => Gives e x h y) xs ys ∧ w = .list ys := by
  rw [gives_step hv]
  have hstep : ∀ n, decodeStep e (decode e n) v (.list h) = (do return .list (← xs.mapM fun x => decode e n x h)) := by
    intro n
    simp only [decodeStep, hxs]
    rfl
  simp only [hstep]
  rw [returns_map]
  simp only [returns_elements, eq_comm]

theorem gives_tupleOf {v w : Val} (hv : v ≠ .none) {h : Hint} {xs : List Val} (hxs : members v = .ok xs) :
    Gives e v (.tupleOf h) w ↔ ∃ ys, List.Forall₂ (fun x y => Gives e x h y) xs ys ∧ w = .tuple ys := by
  rw [gives_step hv]
  have hstep : ∀ n, decodeStep e (decode e n) v (.tupleOf h) = (do return .tuple (← xs.mapM fun x => decode e n x h)) := by
    intro n
    simp only [decodeStep, hxs]
    rfl
  simp only [hstep]
  rw [returns_map]
  simp only [returns_elements, eq_comm]

theorem gives_tuple {v w : Val} (hv : v ≠ .none) {hs : List Hint} (hne : hs ≠ []) {xs : List Val} (hxs : members v = .ok xs) :
    Gives e v (.tuple hs) w ↔
      ∃ ys, List.Forall₂ (fun (p : Val × Hint) y => Gives e p.1 p.2 y) (xs.zip hs) ys ∧ w = .tuple ys := by
  rw [gives_step hv]
  have hstep : ∀ n, decodeStep e (decode e n) v (.tuple hs) =
      (do return .tuple (← (xs.zip hs).mapM fun p => decode e n p.1 p.2)) := by
    intro n
    cases hs with
    | nil => exact absurd rfl hne
    | cons h hs =>
      simp only [decodeStep, hxs]
      rfl
  simp only [hstep]
  rw [returns_map]
  have hall : ∀ ys, Returns (fun n => (xs.zip hs).mapM fun p => decode e n p.1 p.2) ys ↔
      List.Forall₂ (fun (p : Val × Hint) y => Gives e p.1 p.2 y) (xs.zip hs) ys :=
    fun ys => returns_mapM fun (p : Val × Hint) => grows_decode e p.1 p.2
  simp only [hall, eq_comm]

theorem gives_set {v w : Val} (hv : v ≠ .none) {h : Hint} {xs : List Val} (hxs : members v = .ok xs) :
    Gives e v (.set h) w ↔
      ∃ ys zs, List.Forall₂ (fun x y => Gives e x h y) xs ys ∧ addAll e [] ys = .ok zs ∧ w = .set zs := by
  rw [gives_step hv]
  have hstep : ∀ n, decodeStep e (decode e n) v (.set h) =
      (xs.mapM fun x => decode e n x h) >>= fun ys => (do return .set (← addAll e [] ys)) := by
    intro n
    simp only [decodeStep, hxs]
    rfl
  simp only [hstep]
  rw [returns_then]
  simp only [returns_elements, Raising.map_eq_ok]
  grind

theorem gives_frozenset {v w : Val} (hv : v ≠ .none) {h : Hint} {xs : List Val} (hxs : members v = .ok xs) :
    Gives e v (.frozenset h) w ↔
      ∃ ys zs, List.Forall₂ (fun x y => Gives e x h y) xs ys ∧ addAll e [] ys = .ok zs ∧ w = .frozenset zs := by
  rw [gives_step hv]
  have hstep : ∀ n, decodeStep e (decode e n) v (.frozenset h) =
      (xs.mapM fun x => decode e n x h) >>= fun ys => (do return .frozenset (← addAll e [] ys)) := by
    intro n
    simp only [decodeStep, hxs]
    rfl
  simp only [hstep]
  rw [returns_then]
  simp only [returns_elements, Raising.map_eq_ok]
  grind

theorem returns_items {kh vh : Hint} {kvs items : List (Val × Val)} :
    Returns (fun n => decodeItems (decode e n) kh vh kvs) items ↔
      List.Forall₂ (fun kv it => Gives e kv.1 kh it.1 ∧ Gives e kv.2 vh it.2) kvs items := by
  induction kvs generalizing items with
  | nil =>
    constructor
    · rintro ⟨n, hn⟩
      rw [← Except.ok.inj hn]
      exact .nil
    · intro h
      cases h
      exact ⟨0, rfl⟩
  | cons kv kvs ih =>
    obtain ⟨k, v⟩ := kv
    have hitems : Grows .recursion fun n => decodeItems (decode e n) kh vh kvs :=
      grows_decodeItems (grows_decode e) kh vh kvs
    have htail : ∀ k' v', Grows .recursion fun n =>
        decodeItems (decode e n) kh vh kvs >>= fun rest => (pure ((k', v') :: rest) : Except DcErr _) := by
      intro k' v'
      exact Grows.bind hitems fun rest => Grows.const _
    have hrest : ∀ k', Grows .recursion fun n => decode e n v vh >>= fun v' =>
        decodeItems (decode e n) kh vh kvs >>= fun rest => (pure ((k', v') :: rest) : Except DcErr _) :=
      fun k' => Grows.bind (grows_decode e v vh) (htail k')
    change Returns (fun n => decode e n k kh >>= fun k' => decode e n v vh >>= fun v' =>
      decodeItems (decode e n) kh vh kvs >>= fun rest => pure ((k', v') :: rest)) items ↔ _
    rw [returns_bind (grows_decode e k kh) hrest]
    have hsecond : ∀ k', Returns (fun n => decode e n v vh >>= fun v' =>
        decodeItems (decode e n) kh vh kvs >>= fun rest => (pure ((k', v') :: rest) : Except DcErr _)) items ↔
        ∃ v', Gives e v vh v' ∧ ∃ rest, List.Forall₂ (fun kv it => Gives e kv.1 kh it.1 ∧ Gives e kv.2 vh it.2) kvs rest ∧
          (k', v') :: rest = items := by
      intro k'
      rw [returns_bind (grows_decode e v vh) (htail k')]
      simp only [returns_then, ih]
      simp only [pure, Except.pure, Except.ok.injEq]
      rfl
    simp only [hsecond, List.forall₂_cons_left_iff]
    grind [Gives]

theorem gives_dict {kvs : List (Val × Val)} {kh vh : Hint} {w : Val} :
    Gives e (.dict kvs) (.dict kh vh) w ↔
      ∃ items zs, List.Forall₂ (fun kv it => Gives e kv.1 kh it.1 ∧ Gives e kv.2 vh it.2) kvs items ∧
        setItems e [] items = .ok zs ∧ w = .dict zs := by
  rw [gives_step (by simp)]
  have hstep : ∀ n, decodeStep e (decode e n) (.dict kvs) (.dict kh vh) =
      decodeItems (decode e n) kh vh kvs >>= fun items => (do return .dict (← setItems e [] items)) := fun n => rfl
  simp only [hstep]
  rw [returns_then]
  simp only [returns_items, Raising.map_eq_ok]
  grind

theorem gives_inst {kvs : List (Val × Val)} {cls : ℕ} {w : Val} :
    Gives e (.dict kvs) (.inst cls) w ↔
      ∃ vs, List.Forall₂ (fun f v => Returns (fun n => buildField e (decode e n) kvs f) v) (e.classes cls).fields vs ∧
        w = .inst cls vs := by
  rw [gives_step (by simp)]
  have hstep : ∀ n, decodeStep e (decode e n) (.dict kvs) (.inst cls) =
      (do return .inst cls (← (e.classes cls).fields.mapM (buildField e (decode e n) kvs))) := fun n => rfl
  simp only [hstep]
  rw [returns_map]
  have hall : ∀ vs, Returns (fun n => (e.classes cls).fields.mapM (buildField e (decode e n) kvs)) vs ↔
      List.Forall₂ (fun f v => Returns (fun n => buildField e (decode e n) kvs f) v) (e.classes cls).fields vs :=
    fun vs => returns_mapM fun f => grows_buildField (grows_decode e) kvs f
  simp only [hall, eq_comm]

theorem returns_union {v w : Val} {hs : List Hint} :
    Returns (fun n => decodeUnion (decode e n) v hs) w ↔ Taken (Gives e v) (Refuses e v) v hs w := by
  induction hs with
  | nil =>
    rw [Taken]
    exact returns_const.trans ⟨fun h => (Except.ok.inj h).symm, fun h => congrArg _ h.symm⟩
  | cons h hs ih =>
    by_cases hne : h = .noneType
    · subst hne
      exact ih
    · have hstep := fun n => @decodeUnion_cons (decode e n) v h hs hne
      have htaken : Taken (Gives e v) (Refuses e v) v (h :: hs) w ↔ Gives e v h w ∨ (Refuses e v h ∧ Taken (Gives e v) (Refuses e v) v hs w) := by
        cases h <;> first | rfl | exact absurd rfl hne
      rw [htaken, ← ih]
      constructor
      · rintro ⟨n, hn⟩
        simp only [hstep] at hn
        cases hd : decode e n v h with
        | ok u =>
          rw [hd] at hn
          exact .inl ⟨n, hd.trans hn⟩
        | error err =>
          rw [hd] at hn
          simp only at hn
          split at hn
          · rename_i hc
            exact .inr ⟨⟨err, hc, n, hd⟩, n, hn⟩
          · cases hn
      · rintro (⟨n, hn⟩ | ⟨⟨err, hc, n, hn⟩, m, hm⟩)
        · refine ⟨n, ?_⟩
          simp only [hstep]
          change decode e n v h = _ at hn
          rw [hn]
        · -- at an amount that is enough for both
          have herr : err ≠ .recursion := by
            rintro rfl
            cases hc
          have hset : Settles .recursion (fun n => decode e n v h) (.error err) := ⟨by simpa using herr, n, hn⟩
          obtain ⟨n', hn'⟩ := (grows_decode e v h).eventually hset
          obtain ⟨m', hm'⟩ := (grows_decodeUnion (grows_decode e) v hs).eventually (returns_iff.1 ⟨m, hm⟩)
          refine ⟨max n' m', ?_⟩
          simp only [hstep]
          have := hn' (max n' m') (Nat.le_max_left ..)
          rw [this]
          simp only [hc, if_true]
          exact hm' (max n' m') (Nat.le_max_right ..)

/-- No member makes anything else of `None`. -/
theorem taken_none {hs : List Hint} {w : Val} (h : Taken (Gives e .none) (Refuses e .none) .none hs w) : w = .none := by
  induction hs with
  | nil => exact h
  | cons a hs ih =>
    by_cases ha : a = .noneType
    · subst ha
      exact ih h
    · have h : Gives e .none a w ∨ (Refuses e .none a ∧ Taken (Gives e .none) (Refuses e .none) .none hs w) := by
        cases a <;> first | exact h | exact absurd rfl ha
      rcases h with h | ⟨-, h⟩
      · exact gives_none.1 h
      · exact ih h

theorem gives_union {v w : Val} (hv : v ≠ .none) {hs : List Hint} : Gives e v (.union hs) w ↔ Taken (Gives e v) (Refuses e v) v hs w := by
  rw [gives_step hv]
  exact returns_union

end Dataclass

end OmniJsonDb
