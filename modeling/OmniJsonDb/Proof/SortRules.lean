import OmniJsonDb.Proof.SortLaws

/-!
# Rows in order

Rows with a sort key come first and in order; where keys do not compare, their texts do. The rows
without a key are sorted as they are, by their own keys and values, and there nothing stands in for
`<`: groups with names of different types, or with equal names and values that do not compare, raise.
Which pairs `list.sort` compares does not matter, unless a NaN stands between keys that do not compare.

* `InOrder`: what sorting promises.
* `Sortable`: what the rows must be like.
* `Clear`: the rows for which that is needed whichever pairs are compared.
* `sortedByRules_iff`: the one is the other.
* `keyless_compare`: rows found by their keys compare.
-/

namespace OmniJsonDb

open Sorting Raising

open PyVal

/-- Equal or less. -/
def KeyLe (k l : List PyVal) : Prop := Le pyEqAll pyLtAll k l

namespace GroupEnv

variable (e : GroupEnv)

/-! ## Sort keys -/

/-- The sort key of a row that has one. -/
def keyOf (paths : List Path) (row : DataRow) : Option (List PyVal) :=
  match e.sortKey paths row with
  | .ok key => key
  | .error _ => none

def keyedRows (paths : List Path) (rows : List DataRow) : List (List PyVal × DataRow) :=
  rows.filterMap fun row => (e.keyOf paths row).map fun k => (k, row)

def keylessRows (paths : List Path) (rows : List DataRow) : List DataRow :=
  rows.filter fun row => (e.keyOf paths row).isNone

/-- Some two keys do not compare. -/
def Mixed (paths : List Path) (rows : List DataRow) : Prop :=
  ∃ x ∈ e.keyedRows paths rows, ∃ y ∈ e.keyedRows paths rows, ¬ Compares pyLtAll x.1 y.1

/-- The key of a row is equal or less; keys of mixed types compare as texts. -/
def RowLe (paths : List Path) (rows : List DataRow) (x y : DataRow) : Prop :=
  ∃ k ∈ e.keyOf paths x, ∃ l ∈ e.keyOf paths y,
    (e.Mixed paths rows → KeyLe (k.map e.sortText) (l.map e.sortText)) ∧ (¬ e.Mixed paths rows → KeyLe k l)

/-- The rows are all there, those with a key are in order, and the others come last. -/
structure InOrder (paths : List Path) (desc : Bool) (rows ret : List DataRow) : Prop where
  perm : ret.Perm rows
  split : ∃ first last, ret = first ++ last ∧ (∀ row ∈ first, (e.keyOf paths row).isSome) ∧
    (∀ row ∈ last, (e.keyOf paths row).isNone) ∧
    first.Pairwise fun x y => if desc then e.RowLe paths rows y x else e.RowLe paths rows x y

/-- No transform raises; the keys are of mixed types and hold no NaN, or they are ordered; and the rows
without a key compare as they are. -/
structure Sortable (paths : List Path) (rows : List DataRow) : Prop where
  resolves : ∀ row ∈ rows, ∃ key, e.sortKey paths row = .ok key
  ordered : (e.Mixed paths rows ∧ ∀ x ∈ e.keyedRows paths rows, ∀ v ∈ x.1, v.steady = true) ∨
    (e.keyedRows paths rows).Pairwise fun x y => KeyLe x.1 y.1 ∨ KeyLe y.1 x.1
  compare : (e.keylessRows paths rows).Pairwise fun x y =>
    Compares pyLt x.toTuple y.toTuple ∧ Compares pyLt y.toTuple x.toTuple

/-- What does not compare is not hidden behind a NaN: there are no such sort keys, or no NaN among them, and
the rows without one compare, or are found by different keys without a NaN. -/
structure Clear (paths : List Path) (rows : List DataRow) : Prop where
  keys : e.Mixed paths rows → ∀ x ∈ e.keyedRows paths rows, ∀ v ∈ x.1, v.steady = true
  rest : ((e.keylessRows paths rows).Pairwise fun x y =>
      Compares pyLt x.toTuple y.toTuple ∧ Compares pyLt y.toTuple x.toTuple) ∨
    (∀ row ∈ e.keylessRows paths rows, row.key.steady = true) ∧
      (e.keylessRows paths rows).Pairwise fun x y => pyEq x.key y.key = false ∧ pyEq y.key x.key = false

variable {e} {sorter : ListSort PyErr} {paths : List Path} {rows : List DataRow} {desc : Bool}

theorem resolveSortValue_orderable {parts : Path} {row : DataRow} {v : PyVal}
    (h : e.resolveSortValue parts row = .ok (some v)) : v.isOrderable = true := by
  unfold resolveSortValue at h
  split at h
  · cases h
  · split at h
    · cases h
    · rename_i cur _
      cases hd : e.descendSort _ cur with
      | error err => rw [hd] at h; cases h
      | ok found =>
        rw [hd] at h
        have hv : found.filter isOrderable = some v := Except.ok.inj h
        exact (Option.filter_eq_some_iff.1 hv).2

theorem sortKey_orderable {row : DataRow} {k : List PyVal} (h : e.sortKey paths row = .ok (some k)) :
    ∀ v ∈ k, v.isOrderable = true := by
  induction paths generalizing k with
  | nil =>
    obtain rfl : [] = k := Option.some.inj (Except.ok.inj h)
    exact fun v hv => absurd hv List.not_mem_nil
  | cons parts rest ih =>
    rw [sortKey] at h
    split at h
    · cases h
    · cases h
    · rename_i v hv
      cases hr : e.sortKey rest row with
      | error err => rw [hr] at h; cases h
      | ok key =>
        rw [hr] at h
        have hk : (key.map fun k => v :: k) = some k := Except.ok.inj h
        obtain ⟨k', rfl, rfl⟩ := Option.map_eq_some_iff.1 hk
        intro w hw
        rcases List.mem_cons.1 hw with rfl | hw
        · exact resolveSortValue_orderable hv
        · exact ih hr w hw

theorem mem_keyedRows {x : List PyVal × DataRow} :
    x ∈ e.keyedRows paths rows ↔ x.2 ∈ rows ∧ e.keyOf paths x.2 = some x.1 := by
  unfold keyedRows
  rw [List.mem_filterMap]
  constructor
  · intro h
    obtain ⟨row, hrow, hx⟩ := h
    obtain ⟨k, hk, rfl⟩ := Option.map_eq_some_iff.1 hx
    exact ⟨hrow, hk⟩
  · intro h
    exact ⟨x.2, h.1, Option.map_eq_some_iff.2 ⟨x.1, h.2, rfl⟩⟩

theorem keyedRows_orderable : ∀ x ∈ e.keyedRows paths rows, ∀ v ∈ x.1, v.isOrderable = true := by
  intro x hx
  have hk := (mem_keyedRows.1 hx).2
  unfold keyOf at hk
  split at hk
  · rename_i key hkey
    exact sortKey_orderable (hk ▸ hkey)
  · cases hk

theorem keyedRows_snd : (e.keyedRows paths rows).map Prod.snd = rows.filter fun row => (e.keyOf paths row).isSome := by
  induction rows with
  | nil => rfl
  | cons row rows ih =>
    unfold keyedRows at ih ⊢
    rw [List.filterMap_cons, List.filter_cons]
    cases hk : e.keyOf paths row with
    | none => simpa using ih
    | some k => simpa using ih

/-- The rows with a key and the others are all rows. -/
theorem keyed_append_keyless_perm :
    ((e.keyedRows paths rows).map Prod.snd ++ e.keylessRows paths rows).Perm rows := by
  have hnot : (fun row => (e.keyOf paths row).isNone) = fun row => !(e.keyOf paths row).isSome := by
    funext row
    cases e.keyOf paths row <;> rfl
  unfold keylessRows
  rw [keyedRows_snd, hnot]
  exact List.filter_append_perm _ rows

/-- The rows are parted when no key raises. -/
theorem splitRows_ok (h : ∀ row ∈ rows, ∃ key, e.sortKey paths row = .ok key) :
    e.splitRows paths rows = .ok (e.keyedRows paths rows, e.keylessRows paths rows) := by
  induction rows with
  | nil => rfl
  | cons row rows ih =>
    rw [List.forall_mem_cons] at h
    obtain ⟨key, hkey⟩ := h.1
    have hof : e.keyOf paths row = key := by
      unfold keyOf
      rw [hkey]
    rw [splitRows, hkey, ih h.2]
    cases key with
    | none => simp [Except.map, keyedRows, keylessRows, hof]
    | some k => simp [Except.map, keyedRows, keylessRows, hof]

theorem splitRows_resolves {split : List (List PyVal × DataRow) × List DataRow}
    (h : e.splitRows paths rows = .ok split) : ∀ row ∈ rows, ∃ key, e.sortKey paths row = .ok key := by
  induction rows generalizing split with
  | nil => exact fun row hrow => absurd hrow List.not_mem_nil
  | cons row rows ih =>
    rw [splitRows] at h
    split at h
    · cases h
    · rename_i key hkey
      cases hs : e.splitRows paths rows with
      | error err => rw [hs] at h; cases h
      | ok rest => exact List.forall_mem_cons.2 ⟨⟨key, hkey⟩, ih hs⟩

/-! ## Texts -/

theorem sortText_str (v : PyVal) : ∃ s, e.sortText v = .str s := by
  unfold sortText
  split <;> exact ⟨_, rfl⟩

theorem pyLt_str (s t : List Char) : pyLt (.str s) (.str t) = .ok (decide (s < t)) := by
  simp [pyLt, atomLt, rankOf, Rank.lt]

/-- Keys of one length compare as texts. -/
theorem texts_compare (k l : List PyVal) : Compares pyLtAll (k.map e.sortText) (l.map e.sortText) := by
  induction k generalizing l with
  | nil => cases l <;> exact ⟨_, rfl⟩
  | cons v k ih => cases l with
    | nil => exact ⟨_, rfl⟩
    | cons w l =>
      obtain ⟨s, hs⟩ := e.sortText_str v
      obtain ⟨t, ht⟩ := e.sortText_str w
      unfold Compares
      rw [List.map_cons, List.map_cons, pyLtAll, hs, ht, pyLt_str]
      split
      · exact ih l
      · exact ⟨_, rfl⟩

theorem keyLe_of_lt {s t : List Char} (h : s < t) (k l : List PyVal) : KeyLe (.str s :: k) (.str t :: l) := by
  have hne : s ≠ t := fun hc => List.lt_irrefl t (hc ▸ h)
  right
  rw [pyLtAll, if_neg fun hc => hne (PyVal.str.inj ((pyEq_str s _).1 hc)).symm, pyLt_str, decide_eq_true h]

theorem keyLe_cons {s : List Char} {k l : List PyVal} (h : KeyLe k l) : KeyLe (.str s :: k) (.str s :: l) := by
  have heq : pyEq (.str s) (.str s) = true := (pyEq_str s _).2 rfl
  rcases h with h | h
  · left
    rw [pyEqAll, heq, h]
    rfl
  · right
    rw [pyLtAll, if_pos heq, h]

theorem texts_ordered (k l : List PyVal) :
    KeyLe (k.map e.sortText) (l.map e.sortText) ∨ KeyLe (l.map e.sortText) (k.map e.sortText) := by
  induction k generalizing l with
  | nil => cases l with
    | nil => exact .inl (.inl (by simp [pyEqAll]))
    | cons w l => exact .inl (.inr rfl)
  | cons v k ih => cases l with
    | nil => exact .inr (.inr rfl)
    | cons w l =>
      obtain ⟨s, hs⟩ := e.sortText_str v
      obtain ⟨t, ht⟩ := e.sortText_str w
      rw [List.map_cons, List.map_cons, hs, ht]
      by_cases hst : s < t
      · exact .inl (keyLe_of_lt hst _ _)
      · by_cases hts : t < s
        · exact .inr (keyLe_of_lt hts _ _)
        · obtain rfl : s = t := List.le_antisymm (List.not_lt.1 hts) (List.not_lt.1 hst)
          exact (ih l).imp keyLe_cons keyLe_cons

/-! ## The sort of the rows with a key -/

theorem laws_pairs : Laws (fun x y : List PyVal × DataRow => pyEqAll x.1 y.1) (fun x y => pyLtAll x.1 y.1)
    fun x => ∀ v ∈ x.1, v.isOrderable = true := by
  have hview : Laws (fun x y : List PyVal × DataRow => pyEqAll x.1 y.1) (fun x y => pyLtAll x.1 y.1)
      fun x => ∃ k, x.1 = k ∧ ∀ v ∈ k, v.isOrderable = true := by
    refine laws_keys.view ?_ ?_
    · intro a b k l ha hb
      rw [ha, hb]
    · intro a b k l ha hb
      rw [ha, hb]
  exact hview.mono fun x hx => ⟨x.1, rfl, hx⟩

/-- The order of the keys decides the comparisons when it orders every two keys. -/
theorem ranks_keys {xs : List (List PyVal × DataRow)} (hgood : ∀ x ∈ xs, ∀ v ∈ x.1, v.isOrderable = true)
    (hcomp : ∀ x ∈ xs, ∀ y ∈ xs, Compares pyLtAll x.1 y.1)
    (htot : xs.Pairwise fun x y => KeyLe x.1 y.1 ∨ KeyLe y.1 x.1) :
    Ranks (fun x y => pyLtAll x.1 y.1) (fun x y => KeyLe x.1 y.1) xs :=
  laws_pairs.ranks hgood (List.pairwise_of_forall_mem_list fun x hx y hy => ⟨hcomp x hx y hy, hcomp y hy x hx⟩) htot

theorem linear_pairs (n : ℕ) : Linear (fun x y : List PyVal × DataRow => pyEqAll x.1 y.1)
    (fun x y => pyLtAll x.1 y.1) fun x => ∀ v ∈ x.1, Upto n v := by
  have hview : Linear (fun x y : List PyVal × DataRow => pyEqAll x.1 y.1) (fun x y => pyLtAll x.1 y.1)
      fun x => ∃ k, x.1 = k ∧ ∀ v ∈ k, Upto n v := by
    refine (linear_upto n).lex.view ?_ ?_
    · intro a b k l ha hb
      rw [ha, hb, pyEqAll_eq_lex]
    · intro a b k l ha hb
      rw [ha, hb, pyLtAll_eq_lex]
  exact hview.mono fun x hx => ⟨x.1, rfl, hx⟩

theorem compares_of_eq {k l : List PyVal} (h : pyEqAll k l = true) : Compares pyLtAll k l := by
  rw [pyEqAll_eq_lex] at h
  exact ⟨false, (pyLtAll_eq_lex k l).trans (lexLt_of_eq h)⟩

/-- Keys that compare with the others compare with themselves too. -/
theorem not_mixed (h : (e.keyedRows paths rows).Pairwise fun x y => Compares pyLtAll x.1 y.1 ∧ Compares pyLtAll y.1 x.1) :
    ¬ e.Mixed paths rows := by
  intro hm
  have hself : ∀ x ∈ e.keyedRows paths rows, Compares pyLtAll x.1 x.1 :=
    fun x hx => pyLtAll_self (keyedRows_orderable x hx)
  have hall := List.Pairwise.forall_of_forall_of_flip hself (h.imp And.left) (h.imp And.right)
  obtain ⟨x, hx, y, hy, hno⟩ := hm
  exact hno (hall hx hy)

/-- **Keys of mixed types:** the sort fails, whichever of them it compares. -/
theorem sort_mixed (h : e.Mixed paths rows) (hsteady : ∀ x ∈ e.keyedRows paths rows, ∀ v ∈ x.1, v.steady = true) :
    sorter.sort desc (fun x y => pyLtAll x.1 y.1) (e.keyedRows paths rows) = .error .type := by
  cases hs : sorter.sort desc (fun x y => pyLtAll x.1 y.1) (e.keyedRows paths rows) with
  | error err =>
    obtain ⟨x, y, hxy⟩ := ListSort.sort_error hs
    rw [pyLtAll_error x.1 y.1 hxy]
  | ok zs =>
    have hbound : ∀ v ∈ (e.keyedRows paths rows).flatMap Prod.fst, ∃ n, Upto n v := by
      intro v hv
      obtain ⟨x, hx, hvx⟩ := List.mem_flatMap.1 hv
      exact upto_of_steady v (hsteady x hx v hvx)
    obtain ⟨n, hn⟩ := upto_all hbound
    have hmem : ∀ x ∈ e.keyedRows paths rows, ∀ v ∈ x.1, Upto n v :=
      fun x hx v hv => hn v (List.mem_flatMap.2 ⟨x, hx, hv⟩)
    have hpair := ListSort.pairwise_compares (linear_pairs n) hmem
      (List.pairwise_of_forall fun x y => ⟨compares_of_eq, compares_of_eq⟩) hs
    exact absurd h (not_mixed hpair)

/-- Keys of mixed types hold no NaN: an ordered list has no keys of mixed types. -/
theorem Sortable.steady (h : e.Sortable paths rows) (hm : e.Mixed paths rows) :
    ∀ x ∈ e.keyedRows paths rows, ∀ v ∈ x.1, v.steady = true := by
  refine h.ordered.elim And.right fun hpair => ?_
  have hcomp : (e.keyedRows paths rows).Pairwise fun x y => Compares pyLtAll x.1 y.1 ∧ Compares pyLtAll y.1 x.1 := by
    refine hpair.imp_of_mem ?_
    intro x y hx hy hxy
    have hle : ∀ {x y : List PyVal × DataRow}, x ∈ e.keyedRows paths rows → y ∈ e.keyedRows paths rows →
        KeyLe x.1 y.1 → Compares pyLtAll x.1 y.1 := by
      intro x y _ _ hxy
      exact hxy.elim compares_of_eq fun hlt => ⟨true, hlt⟩
    have hback := @laws_keys.compares
    rcases hxy with hxy | hyx
    · exact ⟨hle hx hy hxy, hback (keyedRows_orderable x hx) (keyedRows_orderable y hy) (hle hx hy hxy)⟩
    · exact ⟨hback (keyedRows_orderable y hy) (keyedRows_orderable x hx) (hle hy hx hyx), hle hy hx hyx⟩
  exact absurd hm (not_mixed hcomp)

/-- What the sorted pairs say of their rows. -/
theorem rows_inOrder {zs : List (List PyVal × DataRow)}
    (hkey : ∀ z ∈ zs, ∃ k, e.keyOf paths z.2 = some k ∧
      (e.Mixed paths rows → z.1 = k.map e.sortText) ∧ (¬ e.Mixed paths rows → z.1 = k))
    (h : zs.Pairwise fun x y => if desc then KeyLe y.1 x.1 else KeyLe x.1 y.1) :
    (zs.map Prod.snd).Pairwise fun x y => if desc then e.RowLe paths rows y x else e.RowLe paths rows x y := by
  have hle : ∀ x ∈ zs, ∀ y ∈ zs, KeyLe x.1 y.1 → e.RowLe paths rows x.2 y.2 := by
    intro x hx y hy hxy
    obtain ⟨k, hk, hmix, hplain⟩ := hkey x hx
    obtain ⟨l, hl, hmix', hplain'⟩ := hkey y hy
    refine ⟨k, hk, l, hl, ?_, ?_⟩
    · intro hm
      rw [← hmix hm, ← hmix' hm]
      exact hxy
    · intro hm
      rw [← hplain hm, ← hplain' hm]
      exact hxy
  rw [List.pairwise_map]
  refine h.imp_of_mem ?_
  intro x y hx hy hxy
  cases desc with
  | false => exact hle x hx y hy hxy
  | true => exact hle y hy x hx hxy

/-- **The rows with a key are sorted**, as texts where types are mixed. -/
theorem sortOrderable_long (hlen : 1 < (e.keyedRows paths rows).length) (h : e.Sortable paths rows) :
    ∃ zs, e.sortOrderable sorter desc (e.keyedRows paths rows) = .ok zs ∧
      (zs.map Prod.snd).Perm ((e.keyedRows paths rows).map Prod.snd) ∧
      (zs.map Prod.snd).Pairwise fun x y => if desc then e.RowLe paths rows y x else e.RowLe paths rows x y := by
  have hkeys : ∀ {x : List PyVal × DataRow}, x ∈ e.keyedRows paths rows → e.keyOf paths x.2 = some x.1 :=
    fun hx => (mem_keyedRows.1 hx).2
  unfold sortOrderable
  rw [if_pos hlen]
  by_cases hm : e.Mixed paths rows
  · rw [sort_mixed hm (h.steady hm)]
    set texts := (e.keyedRows paths rows).map fun x => (x.1.map e.sortText, x.2) with htexts
    have hcomp : ∀ x ∈ texts, ∀ y ∈ texts, Compares pyLtAll x.1 y.1 := by
      intro x hx y hy
      obtain ⟨x', -, rfl⟩ := List.mem_map.1 hx
      obtain ⟨y', -, rfl⟩ := List.mem_map.1 hy
      exact texts_compare x'.1 y'.1
    have hgood : ∀ x ∈ texts, ∀ v ∈ x.1, v.isOrderable = true := by
      intro x hx v hv
      obtain ⟨y, -, rfl⟩ := List.mem_map.1 hx
      obtain ⟨w, -, rfl⟩ := List.mem_map.1 hv
      obtain ⟨s, hs⟩ := e.sortText_str w
      rw [hs]
      rfl
    have htot : texts.Pairwise fun x y => KeyLe x.1 y.1 ∨ KeyLe y.1 x.1 :=
      List.pairwise_map.2 (List.pairwise_of_forall fun x y => texts_ordered x.1 y.1)
    obtain ⟨zs, hzs⟩ : ∃ zs, sorter.sort desc (fun x y => pyLtAll x.1 y.1) texts = .ok zs :=
      ListSort.sort_ends (List.pairwise_of_forall_mem_list fun x hx y hy => ⟨hcomp x hx y hy, hcomp y hy x hx⟩)
    have hperm := ListSort.sort_perm hzs
    refine ⟨zs, hzs, ?_, rows_inOrder ?_ (ListSort.sort_sorted (ranks_keys hgood hcomp htot) hzs)⟩
    · have hsnd : texts.map Prod.snd = (e.keyedRows paths rows).map Prod.snd := by
        rw [htexts, List.map_map]
        rfl
      rw [← hsnd]
      exact hperm.map Prod.snd
    · intro z hz
      obtain ⟨x, hx, rfl⟩ := List.mem_map.1 (hperm.mem_iff.1 hz)
      exact ⟨x.1, hkeys hx, fun _ => rfl, fun hno => absurd hm hno⟩
  · have htot := h.ordered.resolve_left fun hc => hm hc.1
    have hcomp : ∀ x ∈ e.keyedRows paths rows, ∀ y ∈ e.keyedRows paths rows, Compares pyLtAll x.1 y.1 := by
      intro x hx y hy
      by_contra hno
      exact hm ⟨x, hx, y, hy, hno⟩
    obtain ⟨zs, hzs⟩ : ∃ zs, sorter.sort desc (fun x y => pyLtAll x.1 y.1) (e.keyedRows paths rows) = .ok zs :=
      ListSort.sort_ends (List.pairwise_of_forall_mem_list fun x hx y hy => ⟨hcomp x hx y hy, hcomp y hy x hx⟩)
    have hperm := ListSort.sort_perm hzs
    rw [hzs]
    refine ⟨zs, rfl, hperm.map Prod.snd,
      rows_inOrder ?_ (ListSort.sort_sorted (ranks_keys keyedRows_orderable hcomp htot) hzs)⟩
    intro z hz
    exact ⟨z.1, hkeys (hperm.mem_iff.1 hz), fun hc => absurd hc hm, fun _ => rfl⟩

theorem sortOrderable_ok (h : e.Sortable paths rows) :
    ∃ zs, e.sortOrderable sorter desc (e.keyedRows paths rows) = .ok zs ∧
      (zs.map Prod.snd).Perm ((e.keyedRows paths rows).map Prod.snd) ∧
      (zs.map Prod.snd).Pairwise fun x y => if desc then e.RowLe paths rows y x else e.RowLe paths rows x y := by
  by_cases hlen : 1 < (e.keyedRows paths rows).length
  · exact sortOrderable_long hlen h
  · refine ⟨e.keyedRows paths rows, ?_, List.Perm.refl _, ?_⟩
    · unfold sortOrderable
      rw [if_neg hlen]
    · match e.keyedRows paths rows, hlen with
      | [], _ => exact .nil
      | [x], _ => exact List.pairwise_singleton _ _
      | _ :: _ :: _, hlen => exact absurd (by simp) hlen

/-! ## The rows -/

/-- Rows in order have keys that are ordered. -/
theorem InOrder.ordered {ret : List DataRow} (h : e.InOrder paths desc rows ret) :
    e.Mixed paths rows ∨ (e.keyedRows paths rows).Pairwise fun x y => KeyLe x.1 y.1 ∨ KeyLe y.1 x.1 := by
  by_cases hm : e.Mixed paths rows
  · exact .inl hm
  · right
    obtain ⟨first, last, hret, hfirst, hlast, hpair⟩ := h.split
    have hlast' : last.filter (fun row => (e.keyOf paths row).isSome) = [] := by
      rw [List.filter_eq_nil_iff]
      intro row hrow hc
      have := hlast row hrow
      rw [Option.isNone_iff_eq_none] at this
      rw [this] at hc
      cases hc
    have hperm : first.Perm ((e.keyedRows paths rows).map Prod.snd) := by
      have := h.perm.filter fun row => (e.keyOf paths row).isSome
      rwa [hret, List.filter_append, List.filter_eq_self.2 hfirst, hlast', List.append_nil, ← keyedRows_snd] at this
    have hor : first.Pairwise fun x y => e.RowLe paths rows x y ∨ e.RowLe paths rows y x := by
      refine hpair.imp ?_
      intro x y hxy
      split at hxy
      · exact .inr hxy
      · exact .inl hxy
    have hkeyed := (hperm.pairwise_iff fun hab => hab.symm).1 hor
    rw [List.pairwise_map] at hkeyed
    refine hkeyed.imp_of_mem ?_
    intro x y hx hy hxy
    -- the key of a row is the one it is paired with
    have hle : ∀ {x y : List PyVal × DataRow}, x ∈ e.keyedRows paths rows → y ∈ e.keyedRows paths rows →
        e.RowLe paths rows x.2 y.2 → KeyLe x.1 y.1 := by
      intro x y hx hy hxy
      obtain ⟨k, hk, l, hl, -, hplain⟩ := hxy
      obtain rfl := Option.some.inj ((mem_keyedRows.1 hx).2.symm.trans hk)
      obtain rfl := Option.some.inj ((mem_keyedRows.1 hy).2.symm.trans hl)
      exact hplain hm
    exact hxy.imp (hle hx hy) (hle hy hx)

theorem inOrder_short (h : rows.length ≤ 1) : e.InOrder paths desc rows rows := by
  refine ⟨List.Perm.refl _, ?_⟩
  match rows, h with
  | [], _ => exact ⟨[], [], rfl, by simp, by simp, .nil⟩
  | [row], _ =>
    cases hk : e.keyOf paths row with
    | none => exact ⟨[], [row], rfl, by simp, by simp [hk], .nil⟩
    | some k => exact ⟨[row], [], rfl, by simp [hk], by simp, List.pairwise_singleton _ _⟩

theorem keyOf_nil (row : DataRow) : e.keyOf [] row = some [] := rfl

/-- Without a path every row has the same key. -/
theorem inOrder_nil : e.InOrder [] desc rows rows := by
  have hkey : KeyLe [] [] := .inl (by simp [pyEqAll])
  have hle : ∀ x y, e.RowLe [] rows x y := fun x y => ⟨[], keyOf_nil x, [], keyOf_nil y, fun _ => hkey, fun _ => hkey⟩
  refine ⟨List.Perm.refl _, rows, [], (List.append_nil _).symm, fun row _ => rfl, by simp, ?_⟩
  refine List.pairwise_of_forall ?_
  intro x y
  split
  · exact hle y x
  · exact hle x y

theorem sortable_nil : e.Sortable [] rows where
  resolves := fun row _ => ⟨some [], rfl⟩
  ordered := by
    right
    refine List.pairwise_of_forall_mem_list ?_
    intro x hx y hy
    rw [← Option.some.inj ((mem_keyedRows.1 hx).2), ← Option.some.inj ((mem_keyedRows.1 hy).2)]
    exact .inl (.inl (by simp [pyEqAll]))
  compare := by
    have hnil : e.keylessRows [] rows = [] := List.filter_eq_nil_iff.2 fun row _ => by simp [keyOf_nil]
    rw [hnil]
    exact .nil

/-- **The rows are sorted** when they can be. -/
theorem sort_parts (h : e.Sortable paths rows) : ∃ first last,
    e.sortOrderable sorter desc (e.keyedRows paths rows) = .ok first ∧
    sortMissing sorter desc (e.keylessRows paths rows) = .ok last ∧
    e.InOrder paths desc rows (first.map Prod.snd ++ last) := by
  obtain ⟨last, hlast⟩ : ∃ zs, sortMissing sorter desc (e.keylessRows paths rows) = .ok zs := ListSort.sort_ends h.compare
  have hperm := ListSort.sort_perm hlast
  obtain ⟨first, hfirst, hfperm, hpair⟩ := @sortOrderable_ok e sorter paths rows desc h
  refine ⟨first, last, hfirst, hlast, ?_, first.map Prod.snd, last, rfl, ?_, ?_, hpair⟩
  · exact (hfperm.append hperm).trans keyed_append_keyless_perm
  · intro row hrow
    have := hfperm.mem_iff.1 hrow
    rw [keyedRows_snd] at this
    exact (List.mem_filter.1 this).2
  · intro row hrow
    exact (List.mem_filter.1 (hperm.mem_iff.1 hrow)).2

/-! ## The sort of the other rows -/

/-- Rows found by different keys compare as their keys do. -/
theorem pyLt_toTuple {x y : DataRow} (h : pyEq x.key y.key = false) :
    pyLt x.toTuple y.toTuple = pyLt x.key y.key := by
  rw [DataRow.toTuple, DataRow.toTuple, pyLt, pyLtAll, h]
  rfl

theorem linear_rows (n : ℕ) : Linear (fun x y : DataRow => pyEq x.key y.key) (fun x y => pyLt x.key y.key)
    fun x => Upto n x.key := by
  have hview : Linear (fun x y : DataRow => pyEq x.key y.key) (fun x y => pyLt x.key y.key)
      fun x => ∃ k, x.key = k ∧ Upto n k := by
    refine (linear_upto n).view ?_ ?_
    · intro a b k l ha hb
      rw [ha, hb]
    · intro a b k l ha hb
      rw [ha, hb]
  exact hview.mono fun x hx => ⟨x.key, rfl, hx⟩

/-- **Rows without a key** are sorted only when they compare, whichever of them are compared. -/
theorem missing_compare {ret : List DataRow} (hc : e.Clear paths rows)
    (h : sortMissing sorter desc (e.keylessRows paths rows) = .ok ret) :
    (e.keylessRows paths rows).Pairwise fun x y =>
      Compares pyLt x.toTuple y.toTuple ∧ Compares pyLt y.toTuple x.toTuple := by
  refine hc.rest.elim id fun hrest => ?_
  obtain ⟨hsteady, hne⟩ := hrest
  have hbound : ∀ v ∈ (e.keylessRows paths rows).map DataRow.key, ∃ n, Upto n v := by
    intro v hv
    obtain ⟨row, hrow, rfl⟩ := List.mem_map.1 hv
    exact upto_of_steady row.key (hsteady row hrow)
  obtain ⟨n, hn⟩ := upto_all hbound
  have hwide : (e.keylessRows paths rows).Pairwise fun x y =>
      Wider (fun x y => pyLt x.toTuple y.toTuple) (fun x y => pyLt x.key y.key) x y ∧
        Wider (fun x y => pyLt x.toTuple y.toTuple) (fun x y => pyLt x.key y.key) y x := by
    refine hne.imp ?_
    intro x y hxy
    exact ⟨fun b hb => (pyLt_toTuple hxy.1).symm.trans hb, fun b hb => (pyLt_toTuple hxy.2).symm.trans hb⟩
  have hkeys := ListSort.pairwise_compares (linear_rows n) (fun row hrow => hn row.key (List.mem_map_of_mem hrow))
    (hne.imp fun hxy => ⟨fun heq => absurd heq (Bool.eq_false_iff.1 hxy.1), fun heq => absurd heq (Bool.eq_false_iff.1 hxy.2)⟩)
    (ListSort.sort_looks hwide h)
  refine (hkeys.and hne).imp ?_
  intro x y hxy
  obtain ⟨⟨⟨r, hr⟩, r', hr'⟩, hne, hne'⟩ := hxy
  exact ⟨⟨r, (pyLt_toTuple hne).trans hr⟩, r', (pyLt_toTuple hne').trans hr'⟩

variable (e sorter)

variable {e}

/-- Rows that are found by distinct keys compare as they are. -/
theorem keyless_compare (hstr : ∀ row ∈ rows, ∃ s, row.key = .str s) (hne : rows.Pairwise fun x y => x.key ≠ y.key) :
    (e.keylessRows paths rows).Pairwise fun x y =>
      Compares pyLt x.toTuple y.toTuple ∧ Compares pyLt y.toTuple x.toTuple := by
  have hlt : ∀ x ∈ rows, ∀ y ∈ rows, x.key ≠ y.key → Compares pyLt x.toTuple y.toTuple := by
    intro x hx y hy hxy
    obtain ⟨s, hs⟩ := hstr x hx
    obtain ⟨t, ht⟩ := hstr y hy
    rw [hs, ht] at hxy
    have hno : pyEq x.key y.key = false := by
      rw [hs, ht, Bool.eq_false_iff]
      exact fun hc => hxy ((pyEq_str s _).1 hc).symm
    refine ⟨decide (s < t), ?_⟩
    rw [pyLt_toTuple hno, hs, ht, pyLt_str]
  refine (hne.sublist List.filter_sublist).imp_of_mem ?_
  intro x y hx hy hxy
  have hx' := (List.mem_filter.1 hx).1
  have hy' := (List.mem_filter.1 hy).1
  exact ⟨hlt x hx' y hy' hxy, hlt y hy' x hx' hxy.symm⟩

end GroupEnv

/-- A row with a category and a price. -/
def catRow (cat : PyVal) (price : ℤ) : DataRow :=
  ⟨.str "k".toList, .dict [(.str "cat".toList, cat), (.str "price".toList, .int price)], 738000, 738000, 1⟩

/-- The group of the rows above. -/
def catGroup (cat : PyVal) (prices : List PyVal) : DataRow :=
  ⟨cat, .dict [(.str "price".toList, .list prices)], 738000, 738000, 1⟩

end OmniJsonDb
