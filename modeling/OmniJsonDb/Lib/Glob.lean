import Mathlib.Data.List.Basic
import Mathlib.Tactic.Common

/-!
# Patterns of letters

A pattern is a list of items: each takes one letter, or any number of them. `accept` runs a pattern
against a word and leaves the rest of the word to an end condition.

* `accept_congr`: items that take the same letters of a word accept the same.
* `accept_length`: a word is at least as long as its pattern has items that take one letter.
* `accept_letters`: one letter for each of them is enough.
* `accept_many`: several items in a row that take any number of any letters are one.
-/

namespace OmniJsonDb.Glob

variable {α : Type*}

/-- The letters an item takes, and whether it takes any number of them. -/
structure Item (α : Type*) where
  takes : α → Bool
  star : Bool

/-- `f` of the word, behind some letters that `t` takes. -/
def skip (t : α → Bool) (f : List α → Bool) : List α → Bool
  | [] => f []
  | c :: s => f (c :: s) || (t c && skip t f s)

/-- `f` of the word behind one letter that `t` takes. -/
def next (t : α → Bool) (f : List α → Bool) : List α → Bool
  | [] => false
  | c :: s => t c && f s

/-- The word starts with the pattern, and the rest is an end. -/
def accept (atEnd : List α → Bool) : List (Item α) → List α → Bool
  | [], s => atEnd s
  | i :: is, s => if i.star then skip i.takes (accept atEnd is) s else next i.takes (accept atEnd is) s

/-- Any number of any letters. -/
def many : Item α := ⟨fun _ => true, true⟩

/-- The items that take one letter. -/
def singles (is : List (Item α)) : List (Item α) := is.filter fun i => !i.star

variable {p : α → Prop}

theorem skip_congr {t t' : α → Bool} {f f' : List α → Bool} (ht : ∀ c, p c → t c = t' c)
    (hf : ∀ u : List α, (∀ c ∈ u, p c) → f u = f' u) {s : List α} (hs : ∀ c ∈ s, p c) : skip t f s = skip t' f' s := by
  induction s with
  | nil => exact hf [] hs
  | cons c s ih =>
    have htail := ih fun d hd => hs d (List.mem_cons_of_mem _ hd)
    rw [skip, skip, hf _ hs, ht c (hs c List.mem_cons_self), htail]

/-- **Items that take the same letters** accept the same words of these letters. -/
theorem accept_congr {atEnd atEnd' : List α → Bool} {is js : List (Item α)}
    (h : List.Forall₂ (fun i j => i.star = j.star ∧ ∀ c, p c → i.takes c = j.takes c) is js)
    (hend : ∀ u : List α, (∀ c ∈ u, p c) → atEnd u = atEnd' u) :
    ∀ s : List α, (∀ c ∈ s, p c) → accept atEnd is s = accept atEnd' js s := by
  induction h with
  | nil => exact hend
  | cons hij _ ih =>
    intro s hs
    rw [accept, accept, hij.1]
    split
    · exact skip_congr hij.2 ih hs
    · cases s with
      | nil => rfl
      | cons c s => rw [next, next, hij.2 c (hs c List.mem_cons_self), ih s fun d hd => hs d (List.mem_cons_of_mem _ hd)]

theorem skip_length {t : α → Bool} {f : List α → Bool} {n : ℕ} (hf : ∀ u, f u = true → n ≤ u.length) {s : List α}
    (h : skip t f s = true) : n ≤ s.length := by
  induction s with
  | nil => exact hf [] h
  | cons c s ih =>
    rw [skip, Bool.or_eq_true, Bool.and_eq_true] at h
    rcases h with h | ⟨-, h⟩
    · exact hf _ h
    · exact Nat.le_succ_of_le (ih h)

/-- **A word is as long** as its pattern asks for. -/
theorem accept_length {atEnd : List α → Bool} {is : List (Item α)} {s : List α} (h : accept atEnd is s = true) :
    (singles is).length ≤ s.length := by
  induction is generalizing s with
  | nil => exact Nat.zero_le _
  | cons i is ih =>
    rw [accept] at h
    unfold singles
    by_cases hstar : i.star = true
    · rw [if_pos hstar] at h
      rw [List.filter_cons_of_neg (by simp [hstar])]
      exact skip_length (fun u hu => ih hu) h
    · rw [if_neg hstar] at h
      rw [List.filter_cons_of_pos (by simpa using hstar), List.length_cons]
      cases s with
      | nil => cases h
      | cons c s =>
        rw [next, Bool.and_eq_true] at h
        exact Nat.succ_le_succ (ih h.2)

theorem skip_of {t : α → Bool} {f : List α → Bool} {s : List α} (h : f s = true) : skip t f s = true := by
  cases s with
  | nil => exact h
  | cons c s => rw [skip, h, Bool.true_or]

/-- **The shortest words**: a letter for each item that takes one. -/
theorem accept_letters {atEnd : List α → Bool} (hend : atEnd [] = true) {is : List (Item α)} {s : List α}
    (h : List.Forall₂ (fun i c => i.takes c = true) (singles is) s) : accept atEnd is s = true := by
  induction is generalizing s with
  | nil =>
    cases h
    exact hend
  | cons i is ih =>
    unfold singles at h
    rw [accept]
    by_cases hstar : i.star = true
    · rw [List.filter_cons_of_neg (by simp [hstar])] at h
      rw [if_pos hstar]
      exact skip_of (ih h)
    · rw [List.filter_cons_of_pos (by simpa using hstar)] at h
      rw [if_neg hstar]
      cases h with
      | cons hc hs => rw [next, hc, ih hs, Bool.and_self]

theorem skip_skip (f : List α → Bool) (s : List α) :
    skip (fun _ => true) (skip (fun _ => true) f) s = skip (fun _ => true) f s := by
  induction s with
  | nil => rfl
  | cons c s ih => rw [skip, ih, skip, Bool.true_and, Bool.or_assoc, Bool.or_self]

/-- Several `many` in a row are one. -/
theorem accept_many (atEnd : List α → Bool) (n : ℕ) (is : List (Item α)) (s : List α) :
    accept atEnd (List.replicate (n + 1) many ++ is) s = accept atEnd (many :: is) s := by
  induction n generalizing s with
  | zero => rfl
  | succ n ih =>
    have hrec : accept atEnd (List.replicate (n + 1) many ++ is) = accept atEnd (many :: is) := funext ih
    rw [List.replicate_succ, List.cons_append, accept, hrec]
    exact skip_skip _ s

end OmniJsonDb.Glob
