import Mathlib.Data.List.Perm.Basic
import OmniJsonDb.Lib.Comparison

/-!
# Sorting with comparisons that may raise

What a sort that only compares elements keeps to, whichever pairs it compares, and an insertion sort
that does. A comparison that fails ends the sort.

* `ListSort`: the sort, with its promises.
* `ListSort.pairwise_compares`: a sort of values in a partial order that ends well has nothing left that
  does not compare.
* `insertion`: the insertion sort.
-/

namespace OmniJsonDb.Sorting

variable {α ε : Type}

/-- `le` decides the comparison of `x` and `y`: `x` is less just when `y` is not at most `x`. -/
def Strict (lt : α → α → Except ε Bool) (le : α → α → Prop) (x y : α) : Prop :=
  ∃ b, lt x y = .ok b ∧ (b = true ↔ ¬ le y x)

/-- What one comparison of `x` and `y` says, the other one says too. -/
def Wider (lt lt' : α → α → Except ε Bool) (x y : α) : Prop := ∀ b, lt x y = .ok b → lt' x y = .ok b

/-- An order that decides how the elements compare with each other. -/
structure Ranks (lt : α → α → Except ε Bool) (le : α → α → Prop) (xs : List α) : Prop where
  trans : ∀ x ∈ xs, ∀ y ∈ xs, ∀ z ∈ xs, le x y → le y z → le x z
  total : xs.Pairwise fun x y => le x y ∨ le y x
  strict : xs.Pairwise fun x y => Strict lt le x y ∧ Strict lt le y x

/-- **A sort by comparisons.** It keeps the elements and raises only what a comparison raised; it looks at
nothing else than the comparisons it makes, and its result is in order when they follow an order. Which
pairs are compared is left open. -/
structure ListSort (ε : Type) where
  run : {α : Type} → (α → α → Except ε Bool) → List α → Except ε (List α)
  perm : ∀ {α : Type} {lt : α → α → Except ε Bool} {xs zs : List α}, run lt xs = .ok zs → zs.Perm xs
  ends : ∀ {α : Type} {lt : α → α → Except ε Bool} {xs : List α},
    (xs.Pairwise fun x y => Compares lt x y ∧ Compares lt y x) → ∃ zs, run lt xs = .ok zs
  raises : ∀ {α : Type} {lt : α → α → Except ε Bool} {xs : List α} {err : ε}, run lt xs = .error err →
    ∃ x y, lt x y = .error err
  looks : ∀ {α : Type} {lt lt' : α → α → Except ε Bool} {xs zs : List α},
    (xs.Pairwise fun x y => Wider lt lt' x y ∧ Wider lt lt' y x) → run lt xs = .ok zs → run lt' xs = .ok zs
  sorted : ∀ {α : Type} {lt : α → α → Except ε Bool} {le : α → α → Prop} {xs zs : List α}, Ranks lt le xs →
    run lt xs = .ok zs → zs.Pairwise le

variable {lt lt' : α → α → Except ε Bool} {le : α → α → Prop}

theorem Ranks.sublist {xs ys : List α} (h : Ranks lt le ys) (hsub : xs.Sublist ys) : Ranks lt le xs where
  trans := fun x hx y hy z hz => h.trans x (hsub.subset hx) y (hsub.subset hy) z (hsub.subset hz)
  total := h.total.sublist hsub
  strict := h.strict.sublist hsub

theorem Ranks.reverse {xs : List α} (h : Ranks lt le xs) : Ranks lt le xs.reverse where
  trans := by
    intro x hx y hy z hz
    exact h.trans x (List.mem_reverse.1 hx) y (List.mem_reverse.1 hy) z (List.mem_reverse.1 hz)
  total := List.pairwise_reverse.2 (h.total.imp Or.symm)
  strict := List.pairwise_reverse.2 (h.strict.imp And.symm)

theorem Laws.ranks {eq : α → α → Bool} {S : α → Prop} {xs : List α} (h : Laws eq lt S) (hS : ∀ x ∈ xs, S x)
    (hcomp : xs.Pairwise fun x y => Compares lt x y ∧ Compares lt y x)
    (htot : xs.Pairwise fun x y => Le eq lt x y ∨ Le eq lt y x) : Ranks lt (Le eq lt) xs where
  trans := fun x hx y hy z hz => h.le_trans (hS x hx) (hS y hy) (hS z hz)
  total := htot
  strict := by
    have hstrict : ∀ {x y}, S x → S y → Compares lt x y → Le eq lt x y ∨ Le eq lt y x → Strict lt (Le eq lt) x y := by
      intro x y hx hy hxy hor
      obtain ⟨b, hb⟩ := hxy
      refine ⟨b, hb, ?_⟩
      cases b with
      | true => exact iff_of_true rfl (h.not_le hx hy hb)
      | false =>
        refine iff_of_false Bool.false_ne_true fun hno => hno ?_
        rcases hor with (heq | hlt) | hle
        · exact .inl (h.symm hx hy heq)
        · rw [hb] at hlt
          cases hlt
        · exact hle
    refine (hcomp.and htot).imp_of_mem ?_
    intro x y hx hy hxy
    exact ⟨hstrict (hS x hx) (hS y hy) hxy.1.1 hxy.2, hstrict (hS y hy) (hS x hx) hxy.1.2 hxy.2.symm⟩

namespace ListSort

variable (s : ListSort ε)

/-- The sort in either direction: a descending one sorts the reversed list and reverses the result, so
that equal elements keep their order. -/
def sort (desc : Bool) (lt : α → α → Except ε Bool) (xs : List α) : Except ε (List α) :=
  if desc then (s.run lt xs.reverse).map List.reverse else s.run lt xs

variable {s} {desc : Bool} {xs zs : List α}

theorem sort_desc (h : s.sort true lt xs = .ok zs) : s.run lt xs.reverse = .ok zs.reverse := by
  rw [sort, if_pos rfl] at h
  cases hs : s.run lt xs.reverse with
  | error err => rw [hs] at h; cases h
  | ok ys =>
    rw [hs] at h
    obtain rfl : ys.reverse = zs := Except.ok.inj h
    rw [List.reverse_reverse]

/-- **Nothing is lost** and nothing comes twice. -/
theorem sort_perm (h : s.sort desc lt xs = .ok zs) : zs.Perm xs := by
  cases desc with
  | false => exact s.perm h
  | true => exact (List.reverse_perm zs).symm.trans ((s.perm (sort_desc h)).trans (List.reverse_perm xs))

theorem sort_ends (h : xs.Pairwise fun x y => Compares lt x y ∧ Compares lt y x) : ∃ zs, s.sort desc lt xs = .ok zs := by
  cases desc with
  | false => exact s.ends h
  | true =>
    obtain ⟨ys, hys⟩ := s.ends (List.pairwise_reverse.2 (h.imp And.symm))
    refine ⟨ys.reverse, ?_⟩
    rw [sort, if_pos rfl, hys]
    rfl

/-- What a failed sort raises is what a comparison raised. -/
theorem sort_error {err : ε} (h : s.sort desc lt xs = .error err) : ∃ x y, lt x y = .error err := by
  cases desc with
  | false => exact s.raises h
  | true =>
    rw [sort, if_pos rfl] at h
    cases hs : s.run lt xs.reverse with
    | error err' =>
      rw [hs] at h
      obtain rfl : err' = err := Except.error.inj h
      exact s.raises hs
    | ok ys => rw [hs] at h; cases h

theorem sort_looks (hw : xs.Pairwise fun x y => Wider lt lt' x y ∧ Wider lt lt' y x)
    (h : s.sort desc lt xs = .ok zs) : s.sort desc lt' xs = .ok zs := by
  cases desc with
  | false => exact s.looks hw h
  | true =>
    have hrev := s.looks (List.pairwise_reverse.2 (hw.imp And.symm)) (sort_desc h)
    rw [sort, if_pos rfl, hrev]
    exact congrArg Except.ok (List.reverse_reverse zs)

/-- **The result is in order.** -/
theorem sort_sorted (hr : Ranks lt le xs) (h : s.sort desc lt xs = .ok zs) :
    zs.Pairwise fun x y => if desc then le y x else le x y := by
  cases desc with
  | false => exact s.sorted hr h
  | true => exact List.pairwise_reverse.1 (s.sorted hr.reverse (sort_desc h))

variable {eq : α → α → Bool} {S : α → Prop}

/-- **Nothing is left undecided.** When values that are not equal, and do not compare, could be put in
either order, a sort that ends well has no two of them. -/
theorem pairwise_compares (hl : Linear eq lt S) (hS : ∀ x ∈ xs, S x)
    (heq : xs.Pairwise fun x y => (eq x y = true → Compares lt x y) ∧ (eq y x = true → Compares lt y x))
    (h : s.sort desc lt xs = .ok zs) : xs.Pairwise fun x y => Compares lt x y ∧ Compares lt y x := by
  have hperm := sort_perm h
  refine (hperm.pairwise_iff And.symm).1 ?_
  have heq' := (hperm.pairwise_iff And.symm).2 heq
  rw [List.pairwise_iff_forall_sublist] at heq' ⊢
  intro a b hab
  have ha : S a := hS a (hperm.mem_iff.1 (hab.subset (List.mem_cons_self ..)))
  have hb : S b := hS b (hperm.mem_iff.1 (hab.subset (List.mem_cons_of_mem a (List.mem_cons_self ..))))
  by_contra hno
  have hun : ¬ Compares lt a b := fun hc => hno ⟨hc, hl.compares ha hb hc⟩
  have hun' : ¬ Compares lt b a := fun hc => hun (hl.compares hb ha hc)
  -- no comparison puts the one before the other
  have hle : ¬ Le eq lt a b := fun hc => hc.elim (fun hc => hun ((heq' hab).1 hc)) fun hc => hun ⟨true, hc⟩
  have hle' : ¬ Le eq lt b a := fun hc => hc.elim (fun hc => hun' ((heq' hab).2 hc)) fun hc => hun' ⟨true, hc⟩
  have hwrong : ∀ {x y : α}, S x → S y → ¬ Le eq lt y x →
      ∃ le : α → α → Prop, ¬ le y x ∧ zs.Pairwise fun x y => if desc then le y x else le x y := by
    intro x y hx hy hyx
    obtain ⟨le, htrans, htotal, hdec, hnot⟩ := hl.exists_order hx hy hyx
    classical
    let lt' : α → α → Except ε Bool := fun x y => .ok (decide ¬ le y x)
    have hw : ∀ {x y}, S x → S y → Wider lt lt' x y := by
      intro x y hx hy r hr
      exact congrArg Except.ok (Bool.eq_iff_iff.2 ((decide_eq_true_iff).trans (hdec x y r hx hy hr).symm))
    have hstrict : ∀ x y, Strict lt' le x y := fun x y => ⟨_, rfl, decide_eq_true_iff⟩
    have hr : Ranks lt' le xs :=
      { trans := fun x _ y _ z _ => htrans x y z
        total := List.pairwise_of_forall_mem_list fun x hx y hy => htotal x y (hS x hx) (hS y hy)
        strict := List.pairwise_of_forall fun x y => ⟨hstrict x y, hstrict y x⟩ }
    have hwide : xs.Pairwise fun x y => Wider lt lt' x y ∧ Wider lt lt' y x :=
      List.pairwise_of_forall_mem_list fun x hx y hy => ⟨hw (hS x hx) (hS y hy), hw (hS y hy) (hS x hx)⟩
    exact ⟨le, hnot, sort_sorted hr (sort_looks hwide h)⟩
  cases desc with
  | false =>
    obtain ⟨le, hnot, hzs⟩ := hwrong hb ha hle
    rw [List.pairwise_iff_forall_sublist] at hzs
    exact hnot (hzs hab)
  | true =>
    obtain ⟨le, hnot, hzs⟩ := hwrong ha hb hle'
    rw [List.pairwise_iff_forall_sublist] at hzs
    exact hnot (hzs hab)

end ListSort

/-! ## The insertion sort -/

/-- `x` among sorted elements, before the first greater one. -/
def place (lt : α → α → Except ε Bool) (x : α) : List α → Except ε (List α)
  | [] => .ok [x]
  | y :: ys =>
    match lt x y with
    | .error err => .error err
    | .ok true => .ok (x :: y :: ys)
    | .ok false => (place lt x ys).map (y :: ·)

/-- The elements placed one after the other. -/
def insertAll (lt : α → α → Except ε Bool) : List α → List α → Except ε (List α)
  | [], acc => .ok acc
  | x :: xs, acc =>
    match place lt x acc with
    | .error err => .error err
    | .ok acc => insertAll lt xs acc

/-- A placed element stands in front, after a comparison that says so, or behind the first one. -/
theorem place_cons_ok {x y : α} {ys zs : List α} (h : place lt x (y :: ys) = .ok zs) :
    (lt x y = .ok true ∧ zs = x :: y :: ys) ∨
      (lt x y = .ok false ∧ ∃ rest, place lt x ys = .ok rest ∧ zs = y :: rest) := by
  rw [place] at h
  split at h
  · cases h
  · rename_i hlt
    exact .inl ⟨hlt, (Except.ok.inj h).symm⟩
  · rename_i hlt
    cases hrest : place lt x ys with
    | error err => rw [hrest] at h; cases h
    | ok rest =>
      rw [hrest] at h
      exact .inr ⟨hlt, rest, rfl, (Except.ok.inj h).symm⟩

theorem place_perm {x : α} {ys zs : List α} (h : place lt x ys = .ok zs) : zs.Perm (x :: ys) := by
  induction ys generalizing zs with
  | nil =>
    obtain rfl := Except.ok.inj h
    exact List.Perm.refl _
  | cons y ys ih =>
    rcases place_cons_ok h with ⟨-, rfl⟩ | ⟨-, rest, hrest, rfl⟩
    · exact List.Perm.refl _
    · exact ((ih hrest).cons y).trans (List.Perm.swap x y ys)

theorem insertAll_cons_ok {x : α} {xs acc zs : List α} (h : insertAll lt (x :: xs) acc = .ok zs) :
    ∃ acc', place lt x acc = .ok acc' ∧ insertAll lt xs acc' = .ok zs := by
  rw [insertAll] at h
  split at h
  · cases h
  · rename_i acc' hacc
    exact ⟨acc', hacc, h⟩

theorem insertAll_perm {xs acc zs : List α} (h : insertAll lt xs acc = .ok zs) : zs.Perm (xs ++ acc) := by
  induction xs generalizing acc with
  | nil =>
    obtain rfl := Except.ok.inj h
    exact List.Perm.refl _
  | cons x xs ih =>
    obtain ⟨acc', hacc, h⟩ := insertAll_cons_ok h
    have hmid : (x :: (xs ++ acc)).Perm (xs ++ (x :: acc)) := List.perm_middle.symm
    exact ((ih h).trans ((place_perm hacc).append_left xs)).trans hmid.symm

/-- The elements to come and the placed ones, after one more is placed. -/
theorem placed_perm {x : α} {xs acc acc' : List α} (h : place lt x acc = .ok acc') :
    (xs ++ acc').Perm (x :: xs ++ acc) := ((place_perm h).append_left xs).trans List.perm_middle

theorem place_ends {x : α} {ys : List α} (h : ∀ y ∈ ys, Compares lt x y) : ∃ zs, place lt x ys = .ok zs := by
  induction ys with
  | nil => exact ⟨[x], rfl⟩
  | cons y ys ih =>
    rw [List.forall_mem_cons] at h
    obtain ⟨b, hb⟩ := h.1
    obtain ⟨rest, hrest⟩ := ih h.2
    rw [place, hb]
    cases b with
    | true => exact ⟨_, rfl⟩
    | false => exact ⟨y :: rest, by simp only [hrest, Except.map]⟩

theorem insertAll_ends {xs acc : List α} (h : (xs ++ acc).Pairwise fun x y => Compares lt x y ∧ Compares lt y x) :
    ∃ zs, insertAll lt xs acc = .ok zs := by
  induction xs generalizing acc with
  | nil => exact ⟨acc, rfl⟩
  | cons x xs ih =>
    have hx := (List.pairwise_cons.1 h).1
    obtain ⟨acc', hacc⟩ := place_ends fun y hy => (hx y (List.mem_append_right xs hy)).1
    rw [insertAll, hacc]
    exact ih (((placed_perm hacc).pairwise_iff And.symm).2 h)

theorem place_error {x : α} {ys : List α} {err : ε} (h : place lt x ys = .error err) : ∃ y, lt x y = .error err := by
  induction ys with
  | nil => cases h
  | cons y ys ih =>
    rw [place] at h
    split at h
    · rename_i err' hlt
      obtain rfl := Except.error.inj h
      exact ⟨y, hlt⟩
    · cases h
    · cases hrest : place lt x ys with
      | error err' =>
        rw [hrest] at h
        obtain rfl : err' = err := Except.error.inj h
        exact ih hrest
      | ok rest => rw [hrest] at h; cases h

theorem insertAll_error {xs acc : List α} {err : ε} (h : insertAll lt xs acc = .error err) :
    ∃ x y, lt x y = .error err := by
  induction xs generalizing acc with
  | nil => cases h
  | cons x xs ih =>
    rw [insertAll] at h
    split at h
    · rename_i err' hplace
      obtain rfl := Except.error.inj h
      exact ⟨x, place_error hplace⟩
    · exact ih h

theorem place_looks {x : α} {ys zs : List α} (hw : ∀ y ∈ ys, Wider lt lt' x y) (h : place lt x ys = .ok zs) :
    place lt' x ys = .ok zs := by
  induction ys generalizing zs with
  | nil => exact h
  | cons y ys ih =>
    rw [List.forall_mem_cons] at hw
    rcases place_cons_ok h with ⟨hlt, rfl⟩ | ⟨hlt, rest, hrest, rfl⟩
    · rw [place, hw.1 _ hlt]
    · rw [place, hw.1 _ hlt, ih hw.2 hrest]
      rfl

theorem insertAll_looks {xs acc zs : List α}
    (hw : (xs ++ acc).Pairwise fun x y => Wider lt lt' x y ∧ Wider lt lt' y x) (h : insertAll lt xs acc = .ok zs) :
    insertAll lt' xs acc = .ok zs := by
  induction xs generalizing acc with
  | nil => exact h
  | cons x xs ih =>
    obtain ⟨acc', hacc, h⟩ := insertAll_cons_ok h
    have hx := (List.pairwise_cons.1 hw).1
    rw [insertAll, place_looks (fun y hy => (hx y (List.mem_append_right xs hy)).1) hacc]
    exact ih (((placed_perm hacc).pairwise_iff And.symm).2 hw) h

theorem place_sorted {x : α} {ys zs : List α} (hr : Ranks lt le (x :: ys)) (hsort : ys.Pairwise le)
    (h : place lt x ys = .ok zs) : zs.Pairwise le := by
  induction ys generalizing zs with
  | nil =>
    obtain rfl := Except.ok.inj h
    exact List.pairwise_singleton le x
  | cons y ys ih =>
    obtain ⟨hy, hrest⟩ := List.pairwise_cons.1 hsort
    obtain ⟨b, hb, hle⟩ := ((List.pairwise_cons.1 hr.strict).1 y (List.mem_cons_self ..)).1
    have hor := (List.pairwise_cons.1 hr.total).1 y (List.mem_cons_self ..)
    rcases place_cons_ok h with ⟨hlt, rfl⟩ | ⟨hlt, rest, hplace, rfl⟩
    · obtain rfl := Except.ok.inj (hb.symm.trans hlt)
      have hxy : le x y := hor.resolve_right (hle.1 rfl)
      refine List.pairwise_cons.2 ⟨?_, hsort⟩
      intro z hz
      rcases List.mem_cons.1 hz with rfl | hz'
      · exact hxy
      · exact hr.trans x (List.mem_cons_self ..) y (by simp) z (List.mem_cons_of_mem x hz) hxy (hy z hz')
    · obtain rfl := Except.ok.inj (hb.symm.trans hlt)
      have hyx : le y x := by
        by_contra hno
        exact Bool.false_ne_true (hle.2 hno)
      have hr' : Ranks lt le (x :: ys) := hr.sublist ((List.sublist_cons_self y ys).cons_cons x)
      refine List.pairwise_cons.2 ⟨?_, ih hr' hrest hplace⟩
      intro z hz
      rcases List.mem_cons.1 ((place_perm hplace).mem_iff.1 hz) with rfl | hz
      · exact hyx
      · exact hy z hz

theorem insertAll_sorted {xs acc zs : List α} (hr : Ranks lt le (xs ++ acc)) (hsort : acc.Pairwise le)
    (h : insertAll lt xs acc = .ok zs) : zs.Pairwise le := by
  induction xs generalizing acc with
  | nil =>
    obtain rfl := Except.ok.inj h
    exact hsort
  | cons x xs ih =>
    obtain ⟨acc', hacc, h⟩ := insertAll_cons_ok h
    have hperm : (xs ++ acc').Perm (x :: xs ++ acc) := placed_perm hacc
    have hr' : Ranks lt le (x :: acc) := hr.sublist ((List.sublist_append_right xs acc).cons_cons x)
    refine ih ⟨?_, (hperm.pairwise_iff Or.symm).2 hr.total, (hperm.pairwise_iff And.symm).2 hr.strict⟩
      (place_sorted hr' hsort hacc) h
    intro a ha b hb c hc
    exact hr.trans a (hperm.mem_iff.1 ha) b (hperm.mem_iff.1 hb) c (hperm.mem_iff.1 hc)

/-- The insertion sort. -/
def insertion : ListSort ε where
  run lt xs := insertAll lt xs []
  perm h := by
    have hperm := insertAll_perm h
    rwa [List.append_nil] at hperm
  ends h := insertAll_ends (by rwa [List.append_nil])
  raises h := insertAll_error h
  looks hw h := insertAll_looks (by rwa [List.append_nil]) h
  sorted hr h := insertAll_sorted (by rwa [List.append_nil]) .nil h

end OmniJsonDb.Sorting
