import OmniJsonDb.Proof.Dataclass
import OmniJsonDb.Proof.Routes

/-!
# The record of a dataclass

What `dc_fill` makes of the dictionary that `dc_to_dict` wrote, field by field, and
where the `id` comes from: the dictionary if it is there, else the key.

* `dcFill_iff`: filling an instance, field by field.
* `roundTrip_iff`: when an instance stored under its own key comes back.
-/

namespace OmniJsonDb

namespace Dataclass

open Fuel

variable {e : Env} {c : DcClass} {doc : List (Val × Val)} {key : List Char}

/-! ## Filling -/

/-- What a field is read as. -/
def Read (e : Env) (doc : List (Val × Val)) (key : List Char) (p : Field × Val) (u : Val) : Prop :=
  if p.1.name = DC_ID then Gives e ((getItem e DC_ID doc).getD (.str key)) p.1.hint u
  else match getItem e p.1.name doc with
    | none => u = p.2
    | some w => Gives e w p.1.hint u

/-- The same before the `id` is set. -/
def ReadField (e : Env) (doc : List (Val × Val)) (p : Field × Val) (u : Val) : Prop :=
  if p.1.name = DC_ID then u = p.2
  else match getItem e p.1.name doc with
    | none => u = p.2
    | some w => Gives e w p.1.hint u

theorem grows_fillField (f : Field) (v : Val) : Grows .recursion fun n => fillField e n doc f v := by
  unfold fillField
  split
  · exact Grows.const _
  · cases getItem e f.name doc with
    | none => exact Grows.const _
    | some w => exact grows_decode e w f.hint

theorem grows_fillIdField (f : Field) (v : Val) : Grows .recursion fun n => fillIdField e n doc key f v := by
  unfold fillIdField
  split
  · exact grows_decode e _ f.hint
  · exact Grows.const _

theorem grows_fillFields (ps : List (Field × Val)) : Grows .recursion fun n => fillFields e n doc ps := by
  induction ps with
  | nil => exact Grows.const _
  | cons p ps ih => exact Grows.bind (grows_fillField p.1 p.2) fun w => Grows.bind ih fun ws => Grows.const _

theorem grows_fillId (ps : List (Field × Val)) : Grows .recursion fun n => fillId e n doc key ps := by
  induction ps with
  | nil => exact Grows.const _
  | cons p ps ih => exact Grows.bind (grows_fillIdField p.1 p.2) fun w => Grows.bind ih fun ws => Grows.const _

/-- One field, then the rest. -/
theorem returns_cons {x : ℕ → Except DcErr Val} {xs : ℕ → Except DcErr (List Val)} (hx : Grows .recursion x)
    (hxs : Grows .recursion xs) {us : List Val} :
    Returns (fun n => do
      let w ← x n
      let ws ← xs n
      return w :: ws) us ↔ ∃ u rest, Returns x u ∧ Returns xs rest ∧ us = u :: rest := by
  have hrest : ∀ w, Grows .recursion fun n => xs n >>= fun ws => (pure (w :: ws) : Except DcErr (List Val)) := by
    intro w
    exact Grows.bind hxs fun ws => Grows.const _
  have hlast : ∀ w, Returns (fun n => xs n >>= fun ws => (pure (w :: ws) : Except DcErr (List Val))) us ↔
      ∃ ws, Returns xs ws ∧ w :: ws = us := fun w => returns_map
  rw [returns_bind hx hrest]
  simp only [hlast]
  grind

theorem returns_ok {v u : Val} : Returns (fun _ => (.ok v : Except DcErr Val)) u ↔ u = v :=
  returns_const.trans ⟨fun h => (Except.ok.inj h).symm, fun h => congrArg _ h.symm⟩

theorem returns_nil {us : List Val} : Returns (fun _ => (.ok [] : Except DcErr (List Val))) us ↔ us = [] :=
  returns_const.trans ⟨fun h => (Except.ok.inj h).symm, fun h => congrArg _ h.symm⟩

theorem returns_fillField {f : Field} {v u : Val} :
    Returns (fun n => fillField e n doc f v) u ↔ ReadField e doc (f, v) u := by
  unfold fillField ReadField
  split
  · exact returns_ok
  · simp only
    cases getItem e f.name doc with
    | none => exact returns_ok
    | some w => exact Iff.rfl

theorem returns_fillFields {ps : List (Field × Val)} {us : List Val} :
    Returns (fun n => fillFields e n doc ps) us ↔ List.Forall₂ (ReadField e doc) ps us := by
  induction ps generalizing us with
  | nil => rw [List.forall₂_nil_left_iff]; exact returns_nil
  | cons p ps ih =>
    refine (returns_cons (grows_fillField p.1 p.2) (grows_fillFields ps)).trans ?_
    rw [List.forall₂_cons_left_iff]
    simp only [returns_fillField, ih]

theorem returns_fillId {ps : List (Field × Val)} {us : List Val} :
    Returns (fun n => fillId e n doc key ps) us ↔ List.Forall₂ (fun p u => if p.1.name = DC_ID then
      Gives e ((getItem e DC_ID doc).getD (.str key)) p.1.hint u else u = p.2) ps us := by
  induction ps generalizing us with
  | nil => rw [List.forall₂_nil_left_iff]; exact returns_nil
  | cons p ps ih =>
    have hhead : ∀ u, Returns (fun n => fillIdField e n doc key p.1 p.2) u ↔ if p.1.name = DC_ID then
        Gives e ((getItem e DC_ID doc).getD (.str key)) p.1.hint u else u = p.2 := by
      intro u
      unfold fillIdField
      split
      · exact Iff.rfl
      · exact returns_ok
    refine (returns_cons (grows_fillIdField p.1 p.2) (grows_fillId ps)).trans ?_
    rw [List.forall₂_cons_left_iff]
    simp only [hhead, ih]

/-- The two passes over the fields, put together. -/
theorem read_iff {fs : List Field} {blank us : List Val} :
    (∃ vs, List.Forall₂ (ReadField e doc) (fs.zip blank) vs ∧ List.Forall₂ (fun (p : Field × Val) u =>
      if p.1.name = DC_ID then Gives e ((getItem e DC_ID doc).getD (.str key)) p.1.hint u else u = p.2) (fs.zip vs) us) ↔
      List.Forall₂ (Read e doc key) (fs.zip blank) us := by
  induction fs generalizing blank us with
  | nil =>
    simp only [List.zip_nil_left, List.forall₂_nil_left_iff]
    exact ⟨fun ⟨_, _, h⟩ => h, fun h => ⟨_, rfl, h⟩⟩
  | cons f fs ih =>
    cases blank with
    | nil =>
      simp only [List.zip_nil_right, List.forall₂_nil_left_iff, exists_eq_left]
    | cons b blank =>
      simp only [List.zip_cons_cons, List.forall₂_cons_left_iff, ← ih]
      constructor
      · rintro ⟨_, ⟨v, vs, hv, hvs, rfl⟩, hread⟩
        simp only [List.zip_cons_cons, List.forall₂_cons_left_iff] at hread
        obtain ⟨u, us', hu, hus, rfl⟩ := hread
        refine ⟨u, us', ?_, ⟨vs, hvs, hus⟩, rfl⟩
        unfold Read
        unfold ReadField at hv
        by_cases hname : f.name = DC_ID
        · simp only [hname, if_true] at hu ⊢
          exact hu
        · simp only [hname, if_false] at hu hv ⊢
          rw [hu]
          exact hv
      · rintro ⟨u, us', hu, ⟨vs, hvs, hus⟩, rfl⟩
        unfold Read at hu
        by_cases hname : f.name = DC_ID
        · simp only [hname, if_true] at hu
          refine ⟨b :: vs, ⟨b, vs, by simp [ReadField, hname], hvs, rfl⟩, ?_⟩
          simp only [List.zip_cons_cons, List.forall₂_cons_left_iff]
          exact ⟨u, us', by simpa [hname] using hu, hus, rfl⟩
        · simp only [hname, if_false] at hu
          refine ⟨u :: vs, ⟨u, vs, by simpa [ReadField, hname] using hu, hvs, rfl⟩, ?_⟩
          simp only [List.zip_cons_cons, List.forall₂_cons_left_iff]
          exact ⟨u, us', by simp [hname], hus, rfl⟩

/-- **Filling, field by field.** -/
theorem dcFill_iff {blank us : List Val} : Returns (fun n => dcFill e n c blank doc key) us ↔
    hasId c = true ∧ List.Forall₂ (Read e doc key) (c.fields.zip blank) us := by
  rw [← read_iff]
  unfold dcFill
  rcases hid : hasId c with _ | _
  · simp only [Bool.not_false, if_true, returns_then]
    simp
  · simp only [Bool.not_true, Bool.false_eq_true, if_false, true_and]
    have hgrow : ∀ obj, Grows .recursion fun n => fillId e n doc key (c.fields.zip obj) := fun obj => grows_fillId _
    refine (returns_bind (grows_fillFields (c.fields.zip blank)) hgrow).trans ?_
    simp only [returns_fillFields, returns_fillId]

/-! ## What was stored -/

/-- Every field but the `id` is stored under its name. -/
def Stores (e : Env) (doc : List (Val × Val)) (ps : List (Field × Val)) : Prop :=
  ∀ p ∈ ps, p.1.name ≠ DC_ID → ∃ w, encode e p.2 = .ok w ∧ getItem e p.1.name doc = some w

/-- The fields that `dc_to_dict` writes. -/
def others (c : DcClass) (obj : List Val) : List (Field × Val) := (c.fields.zip obj).filter fun p => p.1.name ≠ DC_ID

theorem dcToDict_iff {obj : List Val} : dcToDict e c obj = .ok doc ↔
    ∃ ws, encodeAll e ((others c obj).map Prod.snd) = .ok ws ∧ doc = (namesOf ((others c obj).map Prod.fst)).zip ws := by
  unfold dcToDict
  rw [Raising.bind_eq_ok]
  simp only [Bool.false_eq_true, if_false, namesOf, List.map_map]
  constructor
  · rintro ⟨ws, hws, hdoc⟩
    exact ⟨ws, hws, (Except.ok.inj hdoc).symm⟩
  · rintro ⟨ws, hws, rfl⟩
    exact ⟨ws, hws, rfl⟩

theorem zip_fst_sublist (fs : List Field) (vs : List Val) : List.Sublist ((fs.zip vs).map Prod.fst) fs := by
  induction fs generalizing vs with
  | nil => exact List.Sublist.refl _
  | cons f fs ih =>
    cases vs with
    | nil => exact List.nil_sublist _
    | cons v vs => exact (ih vs).cons_cons f

theorem nodup_others (c : DcClass) (obj : List Val) : (((others c obj).map Prod.fst).map Field.name).Nodup := by
  have hsub : List.Sublist ((others c obj).map Prod.fst) ((c.fields.zip obj).map Prod.fst) :=
    List.Sublist.map _ List.filter_sublist
  exact c.nodup.sublist ((hsub.trans (zip_fst_sublist _ _)).map _)

theorem names_others {c : DcClass} {obj : List Val} {f : Field} (h : f ∈ (others c obj).map Prod.fst) : f.name ≠ DC_ID := by
  obtain ⟨p, hp, rfl⟩ := List.mem_map.1 h
  simpa using (List.mem_filter.1 hp).2

/-- A field of a class is stored, and the `id` is not. -/
theorem dcToDict_stores {obj : List Val} (h : dcToDict e c obj = .ok doc) :
    Stores e doc (c.fields.zip obj) ∧ ∀ kv ∈ doc, e.eq kv.1 (.str DC_ID) = false := by
  obtain ⟨ws, hws, rfl⟩ := dcToDict_iff.1 h
  have henc := encodeAll_iff.1 hws
  have hlen : ((others c obj).map Prod.fst).length = ws.length := by
    rw [List.length_map, ← henc.length_eq, List.length_map]
  have hget := getItem_zip (e := e) (nodup_others c obj) hlen
  constructor
  · intro p hp hname
    have hmem : p ∈ others c obj := List.mem_filter.2 ⟨hp, by simpa using hname⟩
    clear hlen
    generalize (namesOf ((others c obj).map Prod.fst)).zip ws = kvs at hget ⊢
    clear hws h
    generalize others c obj = ps at henc hget hmem
    induction ps generalizing ws with
    | nil => cases hmem
    | cons q ps ih =>
      rw [List.map_cons, List.forall₂_cons_left_iff] at henc hget
      obtain ⟨w, ws', hw, hws', rfl⟩ := henc
      obtain ⟨w', ws'', hw', hws'', heq⟩ := hget
      obtain ⟨rfl, rfl⟩ := List.cons.inj heq
      rcases List.mem_cons.1 hmem with rfl | hmem
      · exact ⟨w, hw, hw'⟩
      · exact ih ws' hws' hws'' hmem
  · intro kv hkv
    have hname : kv.1 ∈ namesOf ((others c obj).map Prod.fst) := (List.of_mem_zip hkv).1
    obtain ⟨f, hf, hkv⟩ := List.mem_map.1 hname
    rw [← hkv, e.eq_str]
    simpa using names_others hf

theorem getItem_none (h : ∀ kv ∈ doc, e.eq kv.1 (.str DC_ID) = false) : getItem e DC_ID doc = none := by
  rw [getItem, List.find?_eq_none.2]
  · rfl
  · intro kv hkv
    simp [h kv hkv]

/-- Behind the fields, the `id`. -/
theorem getItem_append {w : Val} (h : ∀ kv ∈ doc, e.eq kv.1 (.str DC_ID) = false) :
    getItem e DC_ID (doc ++ [(.str DC_ID, w)]) = some w := by
  have hnone : doc.find? (fun kv => e.eq kv.1 (.str DC_ID)) = none := by
    rw [List.find?_eq_none]
    intro kv hkv
    simp [h kv hkv]
  rw [getItem, List.find?_append, hnone]
  simp [e.eq_str]

theorem Stores.append {ps : List (Field × Val)} {w : Val} (h : Stores e doc ps) : Stores e (doc ++ [(.str DC_ID, w)]) ps := by
  intro p hp hname
  obtain ⟨u, hu, hget⟩ := h p hp hname
  refine ⟨u, hu, ?_⟩
  obtain ⟨kv, hkv, rfl⟩ := Option.map_eq_some_iff.1 hget
  rw [getItem, List.find?_append, hkv]
  rfl

/-! ## Reading it back -/

/-- The whole instance comes back: each field does, and the `id` from what is read for it. -/
theorem read_obj {fs : List Field} {blank obj : List Val} (hblank : fs.length = blank.length) (hobj : fs.length = obj.length)
    (hdoc : Stores e doc (fs.zip obj)) :
    List.Forall₂ (Read e doc key) (fs.zip blank) obj ↔
      ∀ p ∈ fs.zip obj, (p.1.name = DC_ID → Gives e ((getItem e DC_ID doc).getD (.str key)) p.1.hint p.2) ∧
        (p.1.name ≠ DC_ID → Back e p.1.hint p.2) := by
  induction fs generalizing blank obj with
  | nil =>
    rw [List.length_nil] at hobj
    obtain rfl := List.length_eq_zero_iff.1 hobj.symm
    simp
  | cons f fs ih =>
    cases blank with
    | nil => simp at hblank
    | cons b blank =>
      cases obj with
      | nil => simp at hobj
      | cons v obj =>
        simp only [List.zip_cons_cons, List.forall₂_cons, List.forall_mem_cons]
        rw [ih (by simpa using hblank) (by simpa using hobj) fun p hp => hdoc p (List.mem_cons_of_mem _ hp)]
        refine and_congr_left fun _ => ?_
        unfold Read
        by_cases hname : f.name = DC_ID
        · simp [hname]
        · obtain ⟨w, hw, hget⟩ := hdoc (f, v) (List.mem_cons_self ..) hname
          simp only [hname, if_false, hget, false_imp_iff, true_and, ne_eq, not_false_iff, true_imp_iff]
          constructor
          · intro h
            exact ⟨w, hw, h⟩
          · rintro ⟨w', hw', h⟩
            rwa [Except.ok.inj (hw'.symm.trans hw)] at h

/-- Storing an instance under its own key and filling another one. -/
def dcRoundTrip (e : Env) (limit : ℕ) (c : DcClass) (blank obj : List Val) : Except DcErr (List Val) := do
  let key ← dcKey e c obj
  let doc ← dcToDict e c obj
  dcFill e limit c blank doc key

/-- The class has an `id`, with a text that its annotation makes the `id` of. -/
def KeyBack (e : Env) (c : DcClass) (obj : List Val) : Prop :=
  hasId c = true ∧ idText e (getId c obj) ≠ [] ∧
    ∀ p ∈ c.fields.zip obj, p.1.name = DC_ID → Reads e (.str (idText e (getId c obj))) p.1.hint p.2

/-- Types whose texts are numbers, in digits. -/
def digitsEnv : Env where
  classes := fun _ => { fields := [], nodup := List.nodup_nil }
  str := fun v => match v with
    | .str s => s
    | .int i => if i < 0 then '-' :: indexSeg i.natAbs else indexSeg i.natAbs
    | .bool b => if b then "True".toList else "False".toList
    | .std _ id => indexSeg id
    | _ => []
  isoformat := fun _ id => indexSeg id
  parse := fun t v => match v with
    | .str s => (pyInt s).elim (.error .value) fun i => .ok (.std t i.natAbs)
    | _ => .error .type
  toInt := fun v => match v with
    | .int i => .ok (.int i)
    | .bool b => .ok (.int (if b then 1 else 0))
    | .str s => (pyInt s).elim (.error .value) fun i => .ok (.int i)
    | _ => .error .type
  toFloat := fun v => match v with
    | .float bits => .ok (.float bits)
    | _ => .error .type
  truthy := fun v => match v with
    | .none => false
    | .bool b => b
    | .int i => decide (i ≠ 0)
    | .str s => decide (s ≠ [])
    | _ => true
  enum := fun _ _ => .error .value
  mixin := fun _ => .plain
  eq := fun v w => match v, w with
    | .str s, .str t => decide (s = t)
    | .int i, .int j => decide (i = j)
    | .bool b, .bool b' => decide (b = b')
    | .std t id, .std t' id' => decide (t = t' ∧ id = id')
    | _, _ => false
  hashable := fun v => match v with
    | .list _ | .set _ | .dict _ | .inst _ _ => false
    | _ => true
  str_str := fun _ => rfl
  toInt_int := fun _ => rfl
  isInt := by
    intro v w h
    cases v with
    | int i => exact ⟨i, (Except.ok.inj h).symm⟩
    | bool b => exact ⟨_, (Except.ok.inj h).symm⟩
    | str s =>
      simp only at h
      cases hs : pyInt s with
      | none =>
        rw [hs] at h
        cases h
      | some i =>
        rw [hs] at h
        exact ⟨i, (Except.ok.inj h).symm⟩
    | _ => cases h
  toFloat_float := fun _ => rfl
  truthy_bool := fun _ => rfl
  truthy_str := fun _ => rfl
  eq_str := fun _ _ => rfl
  hashable_str := fun _ => rfl

/-- `id: str` and `tag: Union[int, str]`. -/
def Tagged : DcClass where
  fields := [{ name := DC_ID, hint := .str }, { name := "tag".toList, hint := .union [.int, .str] }]
  nodup := by decide

theorem forall_tagged {P : Field × Val → Prop} {v w : Val} : (∀ p ∈ Tagged.fields.zip [v, w], P p) ↔
    P ({ name := DC_ID, hint := .str }, v) ∧ P ({ name := "tag".toList, hint := .union [.int, .str] }, w) := by
  rw [Tagged, List.zip_cons_cons, List.zip_cons_cons, List.zip_nil_left]
  simp only [List.forall_mem_cons, List.not_mem_nil, false_imp_iff, implies_true, and_true]

theorem conforms_tagged (s t : List Char) : ∀ p ∈ Tagged.fields.zip [.str s, .str t], Conforms digitsEnv p.1.hint p.2 :=
  forall_tagged.2 ⟨.str s, .union (by simp) (.str t)⟩

theorem parse_digitsEnv (t : StdType) (id : ℕ) : digitsEnv.parse t (.str (stdText digitsEnv t id)) = .ok (.std t id) := by
  have htext : stdText digitsEnv t id = indexSeg id := by
    cases t <;> rfl
  change (pyInt (stdText digitsEnv t id)).elim _ _ = _
  rw [htext, pyInt_indexSeg]
  rfl

end Dataclass

end OmniJsonDb
