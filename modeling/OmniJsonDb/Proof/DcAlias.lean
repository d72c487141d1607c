import Mathlib.Data.List.Nodup
import OmniJsonDb.Proof.DcRecords

/-!
# Records under another key

`dc_value` keeps the `id` in the dictionary when the key does not say it.

* `fill_iff`: when the `id` is what filling makes of a stored instance.
* `keepsId_iff`: when an instance stored under any key has its `id` again.
-/

namespace OmniJsonDb

namespace Dataclass

open Fuel

variable {e : Env} {c : DcClass} {doc : List (Val × Val)} {key : List Char} {obj blank : List Val} {f : Field} {id : Val}

/-! ## The field with the id -/

theorem getId_of_mem (hmem : (f, id) ∈ c.fields.zip obj) (hname : f.name = DC_ID) : getId c obj = id := by
  obtain ⟨fs, hnd⟩ := c
  unfold getId
  simp only at hmem ⊢
  induction fs generalizing obj with
  | nil => cases hmem
  | cons g fs ih =>
    cases obj with
    | nil => cases hmem
    | cons v obj =>
      rw [List.map_cons, List.nodup_cons] at hnd
      rw [List.zip_cons_cons, List.find?_cons]
      by_cases hg : g.name = DC_ID
      · rw [decide_eq_true hg]
        rcases List.mem_cons.1 hmem with heq | hmem
        · cases heq
          rfl
        · have hf : f.name ∈ fs.map Field.name := List.mem_map_of_mem (List.of_mem_zip hmem).1
          rw [hname, ← hg] at hf
          exact absurd hf hnd.1
      · rw [decide_eq_false hg]
        rcases List.mem_cons.1 hmem with heq | hmem
        · cases heq
          exact absurd hname hg
        · exact ih hnd.2 hmem

theorem hasId_of_mem (hmem : (f, id) ∈ c.fields.zip obj) (hname : f.name = DC_ID) : hasId c = true :=
  List.any_eq_true.2 ⟨f, (List.of_mem_zip hmem).1, by simpa using hname⟩

/-- The field has a value in every instance. -/
theorem exists_mem_zip {fs : List Field} {vs ws : List Val} (hlen : fs.length = ws.length) (h : (f, id) ∈ fs.zip vs) :
    ∃ w, (f, w) ∈ fs.zip ws := by
  induction fs generalizing vs ws with
  | nil => cases h
  | cons g fs ih =>
    cases vs with
    | nil => cases h
    | cons v vs =>
      cases ws with
      | nil => simp at hlen
      | cons w ws =>
        rcases List.mem_cons.1 h with heq | h
        · cases heq
          exact ⟨w, List.mem_cons_self ..⟩
        · obtain ⟨u, hu⟩ := ih (by simpa using hlen) h
          exact ⟨u, List.mem_cons_of_mem _ hu⟩

/-- What a field is filled from, and with. -/
theorem read_of_mem {R : Field × Val → Val → Prop} {fs : List Field} {us : List Val}
    (h : List.Forall₂ R (fs.zip blank) us) (hmem : (f, id) ∈ fs.zip blank) : ∃ u, R (f, id) u ∧ (f, u) ∈ fs.zip us := by
  induction fs generalizing blank us with
  | nil => cases hmem
  | cons g fs ih =>
    cases blank with
    | nil => cases hmem
    | cons b blank =>
      rw [List.zip_cons_cons, List.forall₂_cons_left_iff] at h
      obtain ⟨u, us, hu, hus, rfl⟩ := h
      rcases List.mem_cons.1 hmem with heq | hmem
      · cases heq
        exact ⟨u, hu, List.mem_cons_self ..⟩
      · obtain ⟨w, hw, hmem⟩ := ih hus hmem
        exact ⟨w, hw, List.mem_cons_of_mem _ hmem⟩

theorem exists_forall₂ {R : Field × Val → Val → Prop} {ps : List (Field × Val)} (h : ∀ p ∈ ps, ∃ u, R p u) :
    ∃ us, List.Forall₂ R ps us := by
  induction ps with
  | nil => exact ⟨[], .nil⟩
  | cons p ps ih =>
    obtain ⟨⟨u, hu⟩, hps⟩ := List.forall_mem_cons.1 h
    obtain ⟨us, hus⟩ := ih hps
    exact ⟨u :: us, .cons hu hus⟩

/-! ## Filling what was stored -/

/-- A field that is encoded and decoded without an error. -/
def Passes (e : Env) (h : Hint) (v : Val) : Prop := ∃ w u, encode e v = .ok w ∧ Reads e w h u

/-- Every field but the `id` passes. -/
def OthersPass (e : Env) (c : DcClass) (obj : List Val) : Prop :=
  ∀ p ∈ c.fields.zip obj, p.1.name ≠ DC_ID → Passes e p.1.hint p.2

/-- **The `id` after filling**: what is decoded for it, from the dictionary or the key. -/
theorem fill_iff (hstores : Stores e doc (c.fields.zip obj)) (hblank : c.fields.length = blank.length)
    (hobj : c.fields.length = obj.length) (hmem : (f, id) ∈ c.fields.zip obj) (hname : f.name = DC_ID) :
    (∃ us, Returns (fun n => dcFill e n c blank doc key) us ∧ getId c us = id) ↔
      OthersPass e c obj ∧ Gives e ((getItem e DC_ID doc).getD (.str key)) f.hint id := by
  obtain ⟨b, hb⟩ := exists_mem_zip hblank hmem
  simp only [dcFill_iff]
  constructor
  · rintro ⟨us, ⟨-, hread⟩, hid⟩
    constructor
    · intro p hp hp'
      obtain ⟨b', hb'⟩ := exists_mem_zip hblank hp
      obtain ⟨w, hw, hget⟩ := hstores p hp hp'
      obtain ⟨u, hu, -⟩ := read_of_mem hread hb'
      rw [Read, if_neg hp'] at hu
      simp only [hget] at hu
      exact ⟨w, u, hw, gives_iff.1 hu⟩
    · obtain ⟨u, hu, hus⟩ := read_of_mem hread hb
      rw [Read, if_pos hname] at hu
      rw [getId_of_mem hus hname] at hid
      rw [← hid]
      exact hu
  · rintro ⟨hpass, hgive⟩
    have hex : ∀ p ∈ c.fields.zip blank, ∃ u, Read e doc key p u := by
      intro p hp
      obtain ⟨v, hv⟩ := exists_mem_zip hobj hp
      by_cases hp' : p.1.name = DC_ID
      · -- there is one field of that name
        have heq : p.1 = f := by
          have hnd := List.inj_on_of_nodup_map c.nodup
          exact hnd (List.of_mem_zip hp).1 (List.of_mem_zip hb).1 (hp'.trans hname.symm)
        refine ⟨id, ?_⟩
        rw [Read, if_pos hp', heq]
        exact hgive
      · obtain ⟨w, hw, hget⟩ := hstores _ hv hp'
        obtain ⟨w', u, hw', hu⟩ := hpass _ hv hp'
        refine ⟨u, ?_⟩
        rw [Read, if_neg hp']
        simp only [hget]
        rw [Except.ok.inj (hw.symm.trans hw')]
        exact gives_iff.2 hu
    obtain ⟨us, hus⟩ := exists_forall₂ hex
    refine ⟨us, ⟨hasId_of_mem hmem hname, hus⟩, ?_⟩
    obtain ⟨u, hu, hmem'⟩ := read_of_mem hus hb
    rw [Read, if_pos hname] at hu
    rw [getId_of_mem hmem' hname]
    exact hu.unique hgive

/-! ## What is stored under a key -/

theorem dcToDict_withId (hid : hasId c = true) {doc' : List (Val × Val)} : dcToDict e c obj true = .ok doc' ↔
    ∃ doc w, dcToDict e c obj = .ok doc ∧ encode e (getId c obj) = .ok w ∧ doc' = doc ++ [(.str DC_ID, w)] := by
  unfold dcToDict
  simp only [Raising.bind_eq_ok, if_true, hid, Bool.not_true, Bool.false_eq_true, if_false]
  constructor
  · rintro ⟨ws, hws, w, hw, hdoc⟩
    refine ⟨_, w, ⟨ws, hws, rfl⟩, hw, ?_⟩
    have hplain : dcToDict e c obj = .ok _ := Raising.bind_eq_ok.2 ⟨ws, hws, rfl⟩
    obtain ⟨-, hnone⟩ := dcToDict_stores hplain
    rw [← Except.ok.inj hdoc]
    exact setItem_new hnone
  · rintro ⟨doc, w, ⟨ws, hws, hdoc⟩, hw, rfl⟩
    refine ⟨ws, hws, w, hw, ?_⟩
    have hplain : dcToDict e c obj = .ok doc := Raising.bind_eq_ok.2 ⟨ws, hws, hdoc⟩
    obtain ⟨-, hnone⟩ := dcToDict_stores hplain
    rw [← setItem_new hnone, ← Except.ok.inj hdoc]
    rfl

/-- The dictionary has no place for the `id`: it is in the key, or there is none. -/
theorem dcValue_dict {k : Val} (hmem : (f, id) ∈ c.fields.zip obj) (hname : f.name = DC_ID)
    (h : idText e id = [] ∨ e.eq (.str (idText e id)) k = true) : dcValue e c obj k = dcToDict e c obj := by
  unfold dcValue
  simp only [hasId_of_mem hmem hname, if_true, getId_of_mem hmem hname]
  rcases h with h | h
  · rw [h]
    rfl
  · rw [h, Bool.not_true, Bool.and_false]

theorem dcValue_withId {k : Val} (hmem : (f, id) ∈ c.fields.zip obj) (hname : f.name = DC_ID)
    (htext : idText e id ≠ []) (hk : e.eq (.str (idText e id)) k = false) : dcValue e c obj k = dcToDict e c obj true := by
  unfold dcValue
  simp only [hasId_of_mem hmem hname, if_true, getId_of_mem hmem hname]
  rw [hk, decide_eq_true htext]
  rfl

/-- The fields are encoded when each of them is. -/
theorem exists_dcToDict : (∃ doc, dcToDict e c obj = .ok doc) ↔
    ∀ p ∈ c.fields.zip obj, p.1.name ≠ DC_ID → ∃ w, encode e p.2 = .ok w := by
  constructor
  · rintro ⟨doc, hdoc⟩ p hp hname
    obtain ⟨w, hw, -⟩ := (dcToDict_stores hdoc).1 p hp hname
    exact ⟨w, hw⟩
  · intro h
    have hall : ∀ v ∈ (others c obj).map Prod.snd, ∃ w, encode e v = .ok w := by
      intro v hv
      obtain ⟨p, hp, rfl⟩ := List.mem_map.1 hv
      obtain ⟨hp, hname⟩ := List.mem_filter.1 hp
      exact h p hp (by simpa using hname)
    obtain ⟨ws, hws⟩ := encodeAll_of_forall hall
    exact ⟨_, dcToDict_iff.2 ⟨ws, hws, rfl⟩⟩

/-! ## The id under any key -/

/-- Neither `None` nor empty. -/
def IsSet (id : Val) : Prop := id ≠ .none ∧ id ≠ .str []

/-- The `id` is there again, and is in the dictionary exactly when the key does not say it. -/
def KeepsId (e : Env) (c : DcClass) (blank obj : List Val) (k id : Val) : Prop :=
  (IsSet id → ∃ doc us, dcValue e c obj k = .ok doc ∧ Returns (fun n => dcFill e n c blank doc (e.str k)) us ∧ getId c us = id) ∧
  ∀ doc, dcToDict e c obj = .ok doc → (dcValue e c obj k = .ok doc ↔ e.eq (.str (idText e id)) k = true)

/-- The annotation reads the text of a key as the `id`. A `bool` is read by whether there is a
text, and an `Enum` is called on it; any other type reads its own text. -/
def ReadsText (e : Env) (h : Hint) (id : Val) (t : List Char) : Prop :=
  match h with
  | .bool => id = .bool (decide (t ≠ []))
  | .enum cls => e.enum cls (.str t) = .ok id
  | _ => t = e.str id ∨ Reads e (.str t) h id

/-- The string form parses back. -/
def ParsesBack (e : Env) (h : Hint) (id : Val) : Prop :=
  h ≠ .bool → (∀ cls, h ≠ .enum cls) → Reads e (.str (e.str id)) h id

theorem gives_text {h : Hint} {t : List Char} (hback : ParsesBack e h id) : Gives e (.str t) h id ↔ ReadsText e h id t := by
  have hother : h ≠ .bool → (∀ cls, h ≠ .enum cls) → (Gives e (.str t) h id ↔ t = e.str id ∨ Reads e (.str t) h id) := by
    intro hb henum
    rw [gives_iff]
    constructor
    · exact .inr
    · rintro (rfl | hread)
      · exact hback hb henum
      · exact hread
  cases h with
  | bool =>
    rw [gives_scalar (by simp) .bool trivial, ReadsText, decodeScalar, e.truthy_str]
    constructor
    · intro heq
      exact (Except.ok.inj heq).symm
    · intro heq
      rw [heq]
  | enum cls => rw [gives_scalar (by simp) (.enum cls) trivial, ReadsText, decodeScalar]
  | _ => exact hother (by simp) (by simp)

theorem OthersPass.exists_dcToDict (h : OthersPass e c obj) : ∃ doc, dcToDict e c obj = .ok doc := by
  refine Dataclass.exists_dcToDict.2 fun p hp hname => ?_
  obtain ⟨w, u, hw, -⟩ := h p hp hname
  exact ⟨w, hw⟩

/-- The `id` is read from the key. -/
theorem restored_dict {k : Val} (hblank : c.fields.length = blank.length) (hobj : c.fields.length = obj.length)
    (hmem : (f, id) ∈ c.fields.zip obj) (hname : f.name = DC_ID) (hvalue : dcValue e c obj k = dcToDict e c obj) :
    (∃ doc us, dcValue e c obj k = .ok doc ∧ Returns (fun n => dcFill e n c blank doc (e.str k)) us ∧ getId c us = id) ↔
      OthersPass e c obj ∧ Gives e (.str (e.str k)) f.hint id := by
  rw [hvalue]
  constructor
  · rintro ⟨doc, us, hdoc, hus⟩
    obtain ⟨hstores, hnone⟩ := dcToDict_stores hdoc
    have hfill := (fill_iff hstores hblank hobj hmem hname).1 ⟨us, hus⟩
    rwa [getItem_none hnone] at hfill
  · rintro ⟨hpass, hgive⟩
    obtain ⟨doc, hdoc⟩ := hpass.exists_dcToDict
    obtain ⟨hstores, hnone⟩ := dcToDict_stores hdoc
    have hgive' : Gives e ((getItem e DC_ID doc).getD (.str (e.str k))) f.hint id := by
      rwa [getItem_none hnone]
    obtain ⟨us, hus⟩ := (fill_iff hstores hblank hobj hmem hname).2 ⟨hpass, hgive'⟩
    exact ⟨doc, us, hdoc, hus⟩

/-- The `id` is read from the dictionary. -/
theorem restored_withId {k : Val} (hblank : c.fields.length = blank.length) (hobj : c.fields.length = obj.length)
    (hmem : (f, id) ∈ c.fields.zip obj) (hname : f.name = DC_ID) (hvalue : dcValue e c obj k = dcToDict e c obj true) :
    (∃ doc us, dcValue e c obj k = .ok doc ∧ Returns (fun n => dcFill e n c blank doc (e.str k)) us ∧ getId c us = id) ↔
      OthersPass e c obj ∧ Back e f.hint id := by
  have hstored : ∀ doc', dcToDict e c obj true = .ok doc' ↔
      ∃ doc w, dcToDict e c obj = .ok doc ∧ encode e id = .ok w ∧ doc' = doc ++ [(.str DC_ID, w)] := by
    intro doc'
    rw [dcToDict_withId (hasId_of_mem hmem hname), getId_of_mem hmem hname]
  rw [hvalue]
  constructor
  · rintro ⟨doc', us, hdoc', hus⟩
    obtain ⟨doc, w, hdoc, hw, rfl⟩ := (hstored doc').1 hdoc'
    obtain ⟨hstores, hnone⟩ := dcToDict_stores hdoc
    obtain ⟨hpass, hgive⟩ := (fill_iff hstores.append hblank hobj hmem hname).1 ⟨us, hus⟩
    rw [getItem_append hnone] at hgive
    exact ⟨hpass, w, hw, hgive⟩
  · rintro ⟨hpass, w, hw, hgive⟩
    obtain ⟨doc, hdoc⟩ := hpass.exists_dcToDict
    obtain ⟨hstores, hnone⟩ := dcToDict_stores hdoc
    have hgive' : Gives e ((getItem e DC_ID (doc ++ [(.str DC_ID, w)])).getD (.str (e.str k))) f.hint id := by
      rwa [getItem_append hnone]
    obtain ⟨us, hus⟩ := (fill_iff hstores.append hblank hobj hmem hname).2 ⟨hpass, hgive'⟩
    exact ⟨_, us, (hstored _).2 ⟨doc, w, hdoc, hw, rfl⟩, hus⟩

/-- `id: bool`. -/
def Switch : DcClass where
  fields := [{ name := DC_ID, hint := .bool }]
  nodup := by decide

end Dataclass

end OmniJsonDb
