import Mathlib.Data.List.Pairwise
import Mathlib.Data.List.Nodup
import Mathlib.Data.List.Induction
import Mathlib.Tactic.Common

/-!
# Buckets

Items with keys, put one by one into the first bucket with the same key, or into a new last one.
Which keys are the same is a relation that need not be reflexive: a key that is not the same as
itself has every item in a bucket of its own.

* `collect_parted`: nothing is lost, and two items share a bucket just when their keys are the same.
* `lookup_collect`: the bucket of a key holds the items of that key, in order.
-/

namespace OmniJsonDb.Buckets

variable {κ α β : Type*} (same : κ → κ → Bool)

/-- Put an item into its bucket. -/
def add (k : κ) (a : α) : List (κ × List α) → List (κ × List α)
  | [] => [(k, [a])]
  | (k', as) :: bs => if same k' k then (k', as ++ [a]) :: bs else (k', as) :: add k a bs

def collect (items : List (κ × α)) : List (κ × List α) := items.foldl (fun bs x => add same x.1 x.2 bs) []

/-- The first bucket with a key. -/
def lookup (k : κ) : List (κ × List α) → Option (List α)
  | [] => none
  | (k', as) :: bs => if same k' k then some as else lookup k bs

theorem collect_append (items : List (κ × α)) (x : κ × α) :
    collect same (items ++ [x]) = add same x.1 x.2 (collect same items) := by
  unfold collect
  rw [List.foldl_append]
  rfl

/-- What the items are does not matter to where they go. -/
theorem add_map (f : α → β) (k : κ) (a : α) (bs : List (κ × List α)) :
    add same k (f a) (bs.map fun b => (b.1, b.2.map f)) = (add same k a bs).map fun b => (b.1, b.2.map f) := by
  induction bs with
  | nil => rfl
  | cons b bs ih =>
    rw [List.map_cons, add, add]
    split
    · simp
    · rw [ih]
      rfl

theorem collect_map (f : α → β) (items : List (κ × α)) :
    collect same (items.map fun x => (x.1, f x.2)) = (collect same items).map fun b => (b.1, b.2.map f) := by
  induction items using List.reverseRecOn with
  | nil => rfl
  | append_singleton items x ih =>
    rw [List.map_append, collect_append, ← add_map, ← ih]
    exact collect_append same _ (x.1, f x.2)

/-! ## Keys that are the same -/

/-- Being the same is symmetric and transitive, on the keys that come up. -/
structure Per (p : κ → Prop) : Prop where
  symm : ∀ {a b}, p a → p b → same a b = true → same b a = true
  trans : ∀ {a b c}, p a → p b → p c → same a b = true → same b c = true → same a c = true

variable {same} {p : κ → Prop}

/-- Two items do not share a key, either way. -/
def Apart (same : κ → κ → Bool) (x y : κ × α) : Prop := same x.1 y.1 = false ∧ same y.1 x.1 = false

/-- Buckets of items with their keys: nothing is lost, the order is kept, a bucket has the key of its
first item, and items share a bucket just when their keys are the same. -/
structure Parted (same : κ → κ → Bool) (items : List (κ × α)) (bs : List (κ × List (κ × α))) : Prop where
  perm : (bs.flatMap Prod.snd).Perm items
  sub : ∀ b ∈ bs, b.2.Sublist items
  heads : (bs.filterMap fun b => b.2.head?).Sublist items
  key : ∀ b ∈ bs, ∃ x xs, b.2 = x :: xs ∧ x.1 = b.1
  within : ∀ b ∈ bs, b.2.Pairwise fun x y => same x.1 y.1 = true
  apart : bs.Pairwise fun b c => ∀ x ∈ b.2, ∀ y ∈ c.2, Apart same x y

theorem parted_nil : Parted same ([] : List (κ × α)) [] where
  perm := .nil
  sub _ h := absurd h List.not_mem_nil
  heads := .slnil
  key _ h := absurd h List.not_mem_nil
  within _ h := absurd h List.not_mem_nil
  apart := .nil

/-- An item goes into the first bucket with its key, or into a new one behind all the others. -/
theorem add_cases (k : κ) (a : α) (bs : List (κ × List α)) :
    (∃ l b r, bs = l ++ b :: r ∧ (∀ c ∈ l, same c.1 k = false) ∧ same b.1 k = true ∧
      add same k a bs = l ++ (b.1, b.2 ++ [a]) :: r) ∨
    ((∀ c ∈ bs, same c.1 k = false) ∧ add same k a bs = bs ++ [(k, [a])]) := by
  induction bs with
  | nil => exact .inr ⟨fun c hc => absurd hc List.not_mem_nil, rfl⟩
  | cons b bs ih =>
    obtain ⟨k', as⟩ := b
    rw [add]
    by_cases hk : same k' k = true
    · rw [if_pos hk]
      exact .inl ⟨[], (k', as), bs, rfl, fun c hc => absurd hc List.not_mem_nil, hk, rfl⟩
    · have hk' : same k' k = false := by simpa using hk
      rw [if_neg hk]
      rcases ih with ⟨l, b, r, rfl, hl, hb, hadd⟩ | ⟨hall, hadd⟩
      · refine .inl ⟨(k', as) :: l, b, r, rfl, ?_, hb, by rw [hadd]; rfl⟩
        intro c hc
        rcases List.mem_cons.1 hc with rfl | hc
        · exact hk'
        · exact hl c hc
      · refine .inr ⟨?_, by rw [hadd]; rfl⟩
        intro c hc
        rcases List.mem_cons.1 hc with rfl | hc
        · exact hk'
        · exact hall c hc

namespace Parted

variable {items : List (κ × α)} {bs : List (κ × List (κ × α))} {x : κ × α}

/-- The items of a bucket are items. -/
theorem mem_items (h : Parted same items bs) {b : κ × List (κ × α)} (hb : b ∈ bs) {y : κ × α} (hy : y ∈ b.2) :
    y ∈ items := (h.sub b hb).mem hy

/-- A bucket's key is the same as another key just where one of its items' is. -/
theorem same_key (hper : Per same p) (h : Parted same items bs) (hp : ∀ y ∈ items, p y.1) {k : κ} (hk : p k)
    {b : κ × List (κ × α)} (hb : b ∈ bs) {y : κ × α} (hy : y ∈ b.2) : same y.1 k = true ↔ same b.1 k = true := by
  obtain ⟨z, zs, heq, hz⟩ := h.key b hb
  have hin := h.within b hb
  have hzp : p z.1 := hp z (h.mem_items hb (by rw [heq]; exact List.mem_cons_self ..))
  have hyp : p y.1 := hp y (h.mem_items hb hy)
  rw [heq] at hy hin
  rw [← hz]
  rcases List.mem_cons.1 hy with rfl | hy
  · exact Iff.rfl
  · have hsame := (List.pairwise_cons.1 hin).1 y hy
    exact ⟨fun hc => hper.trans hzp hyp hk hsame hc, fun hc => hper.trans hyp hzp hk (hper.symm hzp hyp hsame) hc⟩

/-- **One more item.** -/
theorem add (hper : Per same p) (h : Parted same items bs) (hp : ∀ y ∈ items, p y.1) (hx : p x.1) :
    Parted same (items ++ [x]) (Buckets.add same x.1 x bs) := by
  have hall : ∀ b ∈ bs, ∀ y ∈ b.2, p y.1 := fun b hb y hy => hp y (h.mem_items hb hy)
  have happart : ∀ b ∈ bs, same b.1 x.1 = false → ∀ y ∈ b.2, Apart same y x := by
    intro b hb hno y hy
    have hyx : same y.1 x.1 = false := by
      rw [← Bool.not_eq_true, h.same_key hper hp hx hb hy, hno]
      decide
    refine ⟨hyx, ?_⟩
    by_contra hc
    have := hper.symm hx (hall b hb y hy) (by simpa using hc)
    rw [hyx] at this
    cases this
  rcases @add_cases κ (κ × α) same x.1 x bs with ⟨l, b, r, rfl, hl, hb, hadd⟩ | ⟨hno, hadd⟩
  · -- the bucket `b` is one longer
    rw [hadd]
    have hmem : b ∈ l ++ b :: r := List.mem_append_right _ (List.mem_cons_self ..)
    have hback : ∀ c ∈ l ++ (b.1, b.2 ++ [x]) :: r, c = (b.1, b.2 ++ [x]) ∨ c ∈ l ++ b :: r := by
      intro c hc
      rcases List.mem_append.1 hc with hc | hc
      · exact .inr (List.mem_append_left _ hc)
      · rcases List.mem_cons.1 hc with hc | hc
        · exact .inl hc
        · exact .inr (List.mem_append_right _ (List.mem_cons_of_mem _ hc))
    obtain ⟨z, zs, hz, hzk⟩ := h.key b hmem
    have hpair := List.pairwise_append.1 h.apart
    have hpair' := List.pairwise_cons.1 hpair.2.1
    refine ⟨?_, ?_, ?_, ?_, ?_, ?_⟩
    · have hp₁ : (l.flatMap Prod.snd ++ (b.2 ++ [x] ++ r.flatMap Prod.snd)).Perm
          (l.flatMap Prod.snd ++ (b.2 ++ r.flatMap Prod.snd) ++ [x]) := by
        rw [List.append_assoc _ _ [x]]
        refine List.Perm.append_left _ ?_
        rw [List.append_assoc, List.append_assoc]
        exact List.Perm.append_left _ List.perm_append_comm
      have hp₂ := h.perm
      rw [List.flatMap_append, List.flatMap_cons] at hp₂ ⊢
      exact hp₁.trans (hp₂.append_right [x])
    · intro c hc
      rcases hback c hc with rfl | hc
      · exact (h.sub b hmem).append_right [x]
      · exact (h.sub c hc).trans (List.sublist_append_left _ _)
    · have hheads : (l ++ (b.1, b.2 ++ [x]) :: r).filterMap (fun b => b.2.head?) =
          (l ++ b :: r).filterMap fun b => b.2.head? := by
        simp only [List.filterMap_append, List.filterMap_cons, hz]
        rfl
      rw [hheads]
      exact h.heads.trans (List.sublist_append_left _ _)
    · intro c hc
      rcases hback c hc with rfl | hc
      · exact ⟨z, zs ++ [x], by rw [hz]; rfl, hzk⟩
      · exact h.key c hc
    · intro c hc
      rcases hback c hc with rfl | hc
      · refine List.pairwise_append.2 ⟨h.within b hmem, List.pairwise_singleton _ _, ?_⟩
        intro y hy w hw
        rw [List.mem_singleton.1 hw]
        exact (h.same_key hper hp hx hmem hy).2 hb
      · exact h.within c hc
    · -- what is in another bucket is not the same as the new item
      have hother : ∀ c ∈ l ++ r, ∀ y ∈ c.2, Apart same y x := by
        intro c hc
        have hcmem : c ∈ l ++ b :: r := by
          rcases List.mem_append.1 hc with hc | hc
          · exact List.mem_append_left _ hc
          · exact List.mem_append_right _ (List.mem_cons_of_mem _ hc)
        refine happart c hcmem ?_
        by_contra hcx
        have hcx : same c.1 x.1 = true := by simpa using hcx
        obtain ⟨w, ws, hw, hwk⟩ := h.key c hcmem
        have hwmem : w ∈ c.2 := by rw [hw]; exact List.mem_cons_self ..
        have hzmem : z ∈ b.2 := by rw [hz]; exact List.mem_cons_self ..
        have hwx : same w.1 x.1 = true := (h.same_key hper hp hx hcmem hwmem).2 hcx
        have hzx : same z.1 x.1 = true := (h.same_key hper hp hx hmem hzmem).2 hb
        have hwp := hall c hcmem w hwmem
        have hzp := hall b hmem z hzmem
        have hwz : same w.1 z.1 = true := hper.trans hwp hx hzp hwx (hper.symm hzp hx hzx)
        have hfar : Apart same w z ∨ Apart same z w := by
          rcases List.mem_append.1 hc with hc | hc
          · exact .inl (hpair.2.2 c hc b (List.mem_cons_self ..) w hwmem z hzmem)
          · exact .inr (hpair'.1 c hc z hzmem w hwmem)
        rcases hfar with ⟨hf, -⟩ | ⟨-, hf⟩
        · rw [hf] at hwz
          cases hwz
        · rw [hf] at hwz
          cases hwz
      refine List.pairwise_append.2 ⟨hpair.1, List.pairwise_cons.2 ⟨?_, hpair'.2⟩, ?_⟩
      · intro c hc y hy w hw
        rcases List.mem_append.1 hy with hy | hy
        · exact hpair'.1 c hc y hy w hw
        · rw [List.mem_singleton.1 hy]
          exact (hother c (List.mem_append_right _ hc) w hw).symm
      · intro c hc d hd y hy w hw
        rcases List.mem_cons.1 hd with rfl | hd
        · rcases List.mem_append.1 hw with hw | hw
          · exact hpair.2.2 c hc b (List.mem_cons_self ..) y hy w hw
          · rw [List.mem_singleton.1 hw]
            exact hother c (List.mem_append_left _ hc) y hy
        · exact hpair.2.2 c hc d (List.mem_cons_of_mem _ hd) y hy w hw
  · -- a new bucket
    rw [hadd]
    refine ⟨?_, ?_, ?_, ?_, ?_, ?_⟩
    · rw [List.flatMap_append, List.flatMap_singleton]
      exact h.perm.append_right [x]
    · intro c hc
      rcases List.mem_append.1 hc with hc | hc
      · exact (h.sub c hc).trans (List.sublist_append_left _ _)
      · rw [List.mem_singleton.1 hc]
        exact List.sublist_append_right _ _
    · rw [List.filterMap_append]
      exact h.heads.append_right [x]
    · intro c hc
      rcases List.mem_append.1 hc with hc | hc
      · exact h.key c hc
      · rw [List.mem_singleton.1 hc]
        exact ⟨x, [], rfl, rfl⟩
    · intro c hc
      rcases List.mem_append.1 hc with hc | hc
      · exact h.within c hc
      · rw [List.mem_singleton.1 hc]
        exact List.pairwise_singleton _ _
    · refine List.pairwise_append.2 ⟨h.apart, List.pairwise_singleton _ _, ?_⟩
      intro c hc d hd y hy w hw
      rw [List.mem_singleton.1 hd] at hw
      rw [List.mem_singleton.1 hw]
      exact happart c hc (hno c hc) y hy

/-- **Sharing a bucket.** Two items do just when their keys are the same. -/
theorem same_iff (hper : Per same p) (h : Parted same items bs) (hp : ∀ y ∈ items, p y.1) {y z : κ × α}
    (hy : y ∈ items) (hz : z ∈ items) (hne : y ≠ z) : (∃ b ∈ bs, y ∈ b.2 ∧ z ∈ b.2) ↔ same y.1 z.1 = true := by
  constructor
  · rintro ⟨b, hb, hyb, hzb⟩
    have hboth : b.2.Pairwise fun v w => same v.1 w.1 = true ∧ same w.1 v.1 = true :=
      (h.within b hb).imp_of_mem fun hv hw hs =>
        ⟨hs, hper.symm (hp _ (h.mem_items hb hv)) (hp _ (h.mem_items hb hw)) hs⟩
    have hsymm : Std.Symm fun v w : κ × α => same v.1 w.1 = true ∧ same w.1 v.1 = true := ⟨fun _ _ h => h.symm⟩
    exact (hboth.forall hyb hzb hne).1
  · intro hs
    obtain ⟨b, hb, hyb⟩ := List.mem_flatMap.1 (h.perm.mem_iff.2 hy)
    obtain ⟨c, hc, hzc⟩ := List.mem_flatMap.1 (h.perm.mem_iff.2 hz)
    by_cases hbc : b = c
    · exact ⟨b, hb, hyb, hbc ▸ hzc⟩
    · have hsymm : Std.Symm fun b c : κ × List (κ × α) => ∀ x ∈ b.2, ∀ y ∈ c.2, Apart same x y :=
        ⟨fun _ _ h x hx y hy => (h y hy x hx).symm⟩
      have := (h.apart.forall hb hc hbc y hyb z hzc).1
      rw [hs] at this
      cases this

end Parted

/-- **Nothing is lost or mixed.** Items with keys that are among those of `p`. -/
theorem collect_parted (hper : Per same p) (items : List (κ × α)) (hp : ∀ y ∈ items, p y.1) :
    Parted same items (collect same (items.map fun x => (x.1, x))) := by
  induction items using List.reverseRecOn with
  | nil => exact parted_nil
  | append_singleton items x ih =>
    have hp' : ∀ y ∈ items, p y.1 := fun y hy => hp y (List.mem_append_left _ hy)
    rw [List.map_append, List.map_singleton, collect_append]
    exact (ih hp').add hper hp' (hp x (List.mem_append_right _ (List.mem_singleton_self x)))

/-! ## Looking up a key -/

theorem lookup_add_same (hper : Per same p) {k k' : κ} (hk : p k) (hk' : p k') (hs : same k' k = true) (a : α)
    (bs : List (κ × List α)) (hb : ∀ b ∈ bs, p b.1) :
    lookup same k (add same k' a bs) = some ((lookup same k bs).getD [] ++ [a]) := by
  induction bs with
  | nil =>
    rw [add, lookup, lookup, if_pos hs]
    rfl
  | cons b bs ih =>
    obtain ⟨c, as⟩ := b
    have hc : p c := hb (c, as) (List.mem_cons_self ..)
    have hiff : same c k' = true ↔ same c k = true :=
      ⟨fun h => hper.trans hc hk' hk h hs, fun h => hper.trans hc hk hk' h (hper.symm hk' hk hs)⟩
    rw [add]
    by_cases hck : same c k' = true
    · rw [if_pos hck, lookup, lookup, if_pos (hiff.1 hck), if_pos (hiff.1 hck)]
      rfl
    · rw [if_neg hck, lookup, lookup, if_neg (hiff.not.1 hck), if_neg (hiff.not.1 hck)]
      exact ih fun b hbs => hb b (List.mem_cons_of_mem _ hbs)

theorem lookup_add_other (hper : Per same p) {k k' : κ} (hk : p k) (hk' : p k') (hs : ¬ same k' k = true) (a : α)
    (bs : List (κ × List α)) (hb : ∀ b ∈ bs, p b.1) :
    lookup same k (add same k' a bs) = lookup same k bs := by
  induction bs with
  | nil =>
    rw [add, lookup, lookup, if_neg hs]
    rfl
  | cons b bs ih =>
    obtain ⟨c, as⟩ := b
    have hc : p c := hb (c, as) (List.mem_cons_self ..)
    rw [add]
    by_cases hck : same c k' = true
    · have hno : ¬ same c k = true := fun h => hs (hper.trans hk' hc hk (hper.symm hc hk' hck) h)
      rw [if_pos hck, lookup, lookup, if_neg hno, if_neg hno]
    · rw [if_neg hck, lookup, lookup, ih fun b hbs => hb b (List.mem_cons_of_mem _ hbs)]

theorem key_add (k : κ) (a : α) (bs : List (κ × List α)) (hk : p k) (hb : ∀ b ∈ bs, p b.1) :
    ∀ b ∈ add same k a bs, p b.1 := by
  induction bs with
  | nil =>
    intro b hmem
    rw [List.mem_singleton.1 hmem]
    exact hk
  | cons c bs ih =>
    have htail : ∀ b ∈ bs, p b.1 := fun b hmem => hb b (List.mem_cons_of_mem _ hmem)
    intro b hmem
    rw [add] at hmem
    split at hmem
    · rcases List.mem_cons.1 hmem with rfl | hmem
      · exact hb c (List.mem_cons_self ..)
      · exact htail b hmem
    · rcases List.mem_cons.1 hmem with rfl | hmem
      · exact hb _ (List.mem_cons_self ..)
      · exact ih htail b hmem

theorem key_collect (items : List (κ × α)) (hp : ∀ x ∈ items, p x.1) : ∀ b ∈ collect same items, p b.1 := by
  induction items using List.reverseRecOn with
  | nil => exact fun b hb => absurd hb List.not_mem_nil
  | append_singleton items x ih =>
    rw [collect_append]
    exact key_add x.1 x.2 _ (hp x (List.mem_append_right _ (List.mem_singleton_self x)))
      (ih fun y hy => hp y (List.mem_append_left _ hy))

/-- **The bucket of a key** holds the items of that key, in the order they came in. -/
theorem lookup_collect (hper : Per same p) {k : κ} (hk : p k) (items : List (κ × α)) (hp : ∀ x ∈ items, p x.1) :
    lookup same k (collect same items) =
      match (items.filter fun x => same x.1 k).map Prod.snd with
      | [] => none
      | as => some as := by
  induction items using List.reverseRecOn with
  | nil => rfl
  | append_singleton items x ih =>
    have hp' : ∀ y ∈ items, p y.1 := fun y hy => hp y (List.mem_append_left _ hy)
    have hx : p x.1 := hp x (List.mem_append_right _ (List.mem_singleton_self x))
    rw [collect_append, List.filter_append, List.map_append]
    by_cases hs : same x.1 k = true
    · have hone : [x].filter (fun x => same x.1 k) = [x] := by simp [hs]
      rw [lookup_add_same hper hk hx hs _ _ (key_collect items hp'), ih hp', hone]
      cases (items.filter fun x => same x.1 k).map Prod.snd with
      | nil => rfl
      | cons a as => rfl
    · have hnone : [x].filter (fun x => same x.1 k) = [] := by simp [hs]
      rw [lookup_add_other hper hk hx hs _ _ (key_collect items hp'), ih hp', hnone, List.map_nil, List.append_nil]

end OmniJsonDb.Buckets
