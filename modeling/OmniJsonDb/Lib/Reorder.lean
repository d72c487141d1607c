import OmniJsonDb.Lib.OrdDict
import Mathlib.Data.List.Induction
import Mathlib.Tactic.Linarith
import Mathlib.Tactic.Ring

/-!
# Reorder buffers

Numbered items arrive in any order and are handed on in the order of their numbers. A cursor
stands at the number to hand on next; what comes early, and is to be kept, waits in a table.

* `Reorder.run`: the buffer after a list of arrivals.
* `run_handed`: what was handed on and what waits, at any time.
* `run_exact`: when the numbers handed on are the kept ones and no more.
-/

namespace OmniJsonDb

variable {β : Type}

/-- What was handed on, the number that is due, and what waits. -/
structure Reorder (β : Type) where
  out : List (β × ℤ)
  next : ℤ
  lut : OrdDict ℤ β

namespace Reorder

/-- Hand an item on; the next number is `d` further. -/
def hand (d : ℤ) (b : Reorder β) (x : β) : Reorder β :=
  { b with out := b.out ++ [(x, b.next)], next := b.next + d }

/-- Hand on what waits, for at most `n` items. -/
def drain (d : ℤ) : ℕ → Reorder β → Reorder β
  | 0, b => b
  | n + 1, b =>
    match b.lut.get? b.next with
    | some x => drain d n { b.hand d x with lut := b.lut.pop b.next }
    | none => b

/-- An arrival: it is due, or it is kept, or it is dropped. -/
def take (d : ℤ) (keep : ℤ → Bool) (b : Reorder β) (e : β × ℤ) : Reorder β :=
  if e.2 = b.next then drain d b.lut.size (b.hand d e.1)
  else if keep e.2 then { b with lut := b.lut.set e.2 e.1 }
  else b

def run (d : ℤ) (keep : ℤ → Bool) (b : Reorder β) (es : List (β × ℤ)) : Reorder β :=
  es.foldl (take d keep) b

/-- Nothing is handed on yet. -/
def start (first : ℤ) : Reorder β := ⟨[], first, OrdDict.empty⟩

variable {d first : ℤ} {keep : ℤ → Bool} {width m : ℕ} {b : Reorder β} {es : List (β × ℤ)}

/-- The first `m` numbers are handed on, and of the `width` to keep the rest waits. -/
structure Handed (d first : ℤ) (width m : ℕ) (es : List (β × ℤ)) (b : Reorder β) : Prop where
  next : b.next = first + d * m
  nums : b.out.map Prod.snd = (List.range m).map fun i : ℕ => first + d * i
  seen : ∀ e ∈ b.out, e ∈ es
  waits : ∀ r x, b.lut.get? r = some x ↔
    (x, r) ∈ es ∧ ∃ i : ℕ, m ≤ i ∧ i < width ∧ r = first + d * i

theorem handed_start : Handed d first width 0 ([] : List (β × ℤ)) (start first) where
  next := by simp [start]
  nums := rfl
  seen := by simp [start]
  waits := by simp [start]

theorem num_inj (hd : d ≠ 0) {i j : ℕ} (h : first + d * i = first + d * j) : i = j := by
  have := mul_left_cancel₀ hd (add_left_cancel h)
  exact_mod_cast this

/-- What was handed on has arrived. -/
theorem Handed.arrived (h : Handed d first width m es b) {i : ℕ} (hi : i < m) :
    first + d * i ∈ es.map Prod.snd := by
  have hmem : first + d * i ∈ b.out.map Prod.snd := by
    rw [h.nums]
    exact List.mem_map.2 ⟨i, List.mem_range.2 hi, rfl⟩
  obtain ⟨e, he, hr⟩ := List.mem_map.1 hmem
  exact List.mem_map.2 ⟨e, h.seen e he, hr⟩

/-- **Handing on.** The number that is due has arrived and is handed on. -/
theorem Handed.hand (hd : d ≠ 0) (h : Handed d first width m es b) {es' : List (β × ℤ)} {x : β}
    {lut : OrdDict ℤ β} (hsub : ∀ e ∈ es, e ∈ es') (hx : (x, b.next) ∈ es')
    (hes : ∀ y r, r ≠ b.next → ((y, r) ∈ es' ↔ (y, r) ∈ es))
    (hl : ∀ r, lut.get? r = if r = b.next then none else b.lut.get? r) :
    Handed d first width (m + 1) es' { b.hand d x with lut := lut } where
  next := by
    simp only [Reorder.hand, h.next]
    push_cast
    ring
  nums := by
    rw [List.range_succ, List.map_append, ← h.nums]
    simp [Reorder.hand, h.next]
  seen := by
    intro e he
    rcases List.mem_append.1 he with he | he
    · exact hsub e (h.seen e he)
    · rw [List.mem_singleton.1 he]
      exact hx
  waits := by
    intro r y
    rw [hl]
    by_cases hr : r = b.next
    · rw [if_pos hr]
      refine ⟨fun hc => absurd hc (by simp), ?_⟩
      rintro ⟨-, i, hm, -, hi⟩
      have := num_inj hd (h.next ▸ hr ▸ hi : first + d * m = first + d * i)
      omega
    · rw [if_neg hr, h.waits, hes y r hr]
      refine and_congr_right fun _ => exists_congr fun i => ?_
      refine ⟨fun ⟨hm, hw, hi⟩ => ⟨?_, hw, hi⟩, fun ⟨hm, hw, hi⟩ => ⟨by omega, hw, hi⟩⟩
      rcases Nat.eq_or_lt_of_le hm with rfl | hm
      · exact absurd (hi.trans h.next.symm) hr
      · exact hm

theorem size_pop_lt {κ α : Type*} [DecidableEq κ] {t : OrdDict κ α} {k : κ} {a : α} (h : t.get? k = some a) :
    (t.pop k).size < t.size := by
  have hmem := OrdDict.mem_entries_iff.2 h
  unfold OrdDict.pop OrdDict.restrict OrdDict.size
  exact List.length_filter_lt_length_iff_exists.2 ⟨(k, a), hmem, by simp⟩

/-- **Draining.** What waits is handed on up to the first number that has not arrived, and never
past what is kept. -/
theorem Handed.drain (hd : d ≠ 0) (n : ℕ) : ∀ {m : ℕ} {b : Reorder β},
    Handed d first width m es b → b.lut.size ≤ n →
    ∃ m', m ≤ m' ∧ (m ≤ width → m' ≤ width) ∧ Handed d first width m' es (b.drain d n) ∧
      (b.drain d n).lut.get? (b.drain d n).next = none := by
  induction n with
  | zero =>
    intro m b h hn
    have hnone := OrdDict.size_eq_zero_iff.1 (Nat.le_zero.1 hn)
    exact ⟨m, le_rfl, id, h, hnone _⟩
  | succ n ih =>
    intro m b h hn
    rw [Reorder.drain]
    split
    · rename_i x hx
      obtain ⟨hes, i, hm, hw, hi⟩ := (h.waits _ _).1 hx
      have him := num_inj hd (h.next ▸ hi : first + d * m = first + d * i)
      have hsize := size_pop_lt hx
      obtain ⟨m', hle, hwid, hout⟩ :=
        ih (h.hand hd (fun _ he => he) hes (fun _ _ _ => Iff.rfl) fun r => OrdDict.get?_pop _ _ r)
          (show (b.lut.pop b.next).size ≤ n by omega)
      exact ⟨m', by omega, fun _ => hwid (by omega), hout⟩
    · rename_i hx
      exact ⟨m, le_rfl, id, h, hx⟩

/-- Every arrival counts the numbers it hands on. -/
theorem Handed.take (hd : d ≠ 0) (hk : ∀ r, keep r = true ↔ ∃ i : ℕ, i < width ∧ r = first + d * i)
    (h : Handed d first width m es b) (hnone : b.lut.get? b.next = none) {e : β × ℤ}
    (he : e.2 ∉ es.map Prod.snd) :
    ∃ m', m ≤ m' ∧ (m < width → m' ≤ width) ∧ (e.2 = first + d * m ↔ m < m') ∧
      Handed d first width m' (es ++ [e]) (b.take d keep e) ∧
      (b.take d keep e).lut.get? (b.take d keep e).next = none := by
  have hnew : ∀ {P : Prop} x r, (x, r) ∈ es ++ [e] ∧ P ↔ (x, r) ∈ es ∧ P ∨ (x, r) = e ∧ P := by
    intro P x r
    rw [List.mem_append, List.mem_singleton, or_and_right]
  have hseen : ∀ e' ∈ b.out, e' ∈ es ++ [e] := fun e' he' => List.mem_append_left _ (h.seen e' he')
  unfold Reorder.take
  by_cases hnext : e.2 = b.next
  · -- it is due; it cannot wait already, for its number is new
    rw [if_pos hnext]
    have hlut : ∀ r, b.lut.get? r = if r = b.next then none else b.lut.get? r := by
      intro r
      split
      · rename_i hr
        rw [hr, hnone]
      · rfl
    have hes : ∀ y r, r ≠ b.next → ((y, r) ∈ es ++ [e] ↔ (y, r) ∈ es) := by
      intro y r hr
      rw [List.mem_append, List.mem_singleton]
      refine ⟨fun hc => hc.resolve_right ?_, .inl⟩
      rintro rfl
      exact hr hnext
    have hnow := h.hand hd (fun e' he' => List.mem_append_left [e] he')
      (List.mem_append_right es (List.mem_singleton.2 (Prod.ext rfl hnext.symm))) hes hlut
    obtain ⟨m', hle, hwid, hout⟩ := hnow.drain hd b.lut.size le_rfl
    refine ⟨m', by omega, fun hlt => hwid (by omega), ?_, hout⟩
    exact iff_of_true (hnext.trans h.next) (by omega)
  · rw [if_neg hnext]
    have hnum : ¬ e.2 = first + d * m := fun hc => hnext (hc.trans h.next.symm)
    by_cases hkeep : keep e.2 = true
    · rw [if_pos hkeep]
      obtain ⟨i, hiw, hi⟩ := (hk _).1 hkeep
      have him : m ≤ i := by
        by_contra hlt
        exact he (hi ▸ h.arrived (by omega))
      refine ⟨m, le_rfl, fun h => h.le, by simp [hnum], ⟨h.next, h.nums, hseen, ?_⟩, ?_⟩
      · intro r x
        simp only
        rw [OrdDict.get?_set, hnew]
        by_cases hr : r = e.2
        · have hgone : (x, r) ∉ es := fun hc => he (hr ▸ List.mem_map.2 ⟨_, hc, rfl⟩)
          rw [if_pos hr]
          constructor
          · rintro hx
            injection hx with hx
            exact .inr ⟨by rw [hr, ← hx], i, him, hiw, hr.trans hi⟩
          · rintro (⟨hc, -⟩ | ⟨hc, -⟩)
            · exact absurd hc hgone
            · rw [← hc]
        · rw [if_neg hr, h.waits]
          refine ⟨.inl, ?_⟩
          rintro (hc | ⟨hc, -⟩)
          · exact hc
          · exact absurd (congrArg Prod.snd hc) hr
      · simp only
        rw [OrdDict.get?_set, if_neg (Ne.symm hnext), hnone]
    · rw [if_neg hkeep]
      refine ⟨m, le_rfl, fun h => h.le, by simp [hnum], ⟨h.next, h.nums, hseen, ?_⟩, hnone⟩
      intro r x
      rw [h.waits, hnew]
      refine ⟨.inl, ?_⟩
      rintro (hc | ⟨hc, i, -, hiw, hi⟩)
      · exact hc
      · exact absurd ((hk _).2 ⟨i, hiw, by rw [← hi, ← hc]⟩) hkeep

theorem Handed.unique (hd : d ≠ 0) {m' : ℕ} {es' : List (β × ℤ)} (h : Handed d first width m es b)
    (h' : Handed d first width m' es' b) : m = m' :=
  num_inj hd (h.next.symm.trans h'.next)

/-- A number that is kept and has arrived is handed on, once nothing more can be. -/
theorem Handed.past (h : Handed d first width m es b) (hnone : b.lut.get? b.next = none) {i : ℕ} (hi : i < width)
    (hall : ∀ j ≤ i, first + d * j ∈ es.map Prod.snd) : i < m := by
  by_contra hlt
  obtain ⟨⟨x, r⟩, hmem, hr⟩ := List.mem_map.1 (hall m (by omega))
  have hwait := (h.waits _ _).2 ⟨hmem, m, le_rfl, by omega, hr⟩
  rw [show r = b.next from hr.trans h.next.symm, hnone] at hwait
  exact absurd hwait (by simp)

section Runs

variable (hd : d ≠ 0) (hk : ∀ r, keep r = true ↔ ∃ i : ℕ, i < width ∧ r = first + d * i)
include hd hk

/-- **A run.** More arrivals hand on more. -/
theorem Handed.run (post : List (β × ℤ)) : ∀ {pre : List (β × ℤ)} {m : ℕ} {b : Reorder β},
    Handed d first width m pre b → b.lut.get? b.next = none → ((pre ++ post).map Prod.snd).Nodup →
    ∃ m', m ≤ m' ∧ Handed d first width m' (pre ++ post) (b.run d keep post) ∧
      (b.run d keep post).lut.get? (b.run d keep post).next = none := by
  induction post with
  | nil =>
    intro pre m b h hnone _
    rw [List.append_nil]
    exact ⟨m, le_rfl, h, hnone⟩
  | cons e post ih =>
    intro pre m b h hnone hnodup
    have hnew : e.2 ∉ pre.map Prod.snd := by
      rw [List.map_append, List.nodup_append] at hnodup
      exact fun hc => hnodup.2.2 _ hc _ (by simp) rfl
    obtain ⟨m₁, hle, -, -, h₁, hnone₁⟩ := h.take hd hk hnone hnew
    rw [List.append_cons] at hnodup ⊢
    obtain ⟨m', hle', hout⟩ := ih h₁ hnone₁ hnodup
    exact ⟨m', hle.trans hle', hout⟩

/-- What was handed on and what waits after a list of arrivals. -/
theorem run_handed (hnodup : (es.map Prod.snd).Nodup) :
    ∃ m, Handed d first width m es ((start first).run d keep es) ∧
      ((start first).run d keep es).lut.get? ((start first).run d keep es).next = none := by
  obtain ⟨m, -, h⟩ := handed_start.run hd hk es (OrdDict.get?_empty _) hnodup
  exact ⟨m, h⟩

/-- While the number after the kept ones never comes last, it is never handed on. -/
theorem run_le (hnodup : (es.map Prod.snd).Nodup)
    (hlast : ∀ pre e post, es = pre ++ e :: post → e.2 = first + d * width → ∃ e' ∈ post, keep e'.2 = true)
    (pre : List (β × ℤ)) : ∀ post, es = pre ++ post →
    ∃ m, m ≤ width ∧ Handed d first width m pre ((start first).run d keep pre) ∧
      ((start first).run d keep pre).lut.get? ((start first).run d keep pre).next = none := by
  induction pre using List.reverseRecOn with
  | nil => exact fun _ _ => ⟨0, Nat.zero_le _, handed_start, OrdDict.get?_empty _⟩
  | append_singleton pre e ih =>
    intro post hes
    rw [List.append_assoc] at hes
    obtain ⟨m, hm, h, hnone⟩ := ih _ hes
    have hsplit : (pre.map Prod.snd ++ e.2 :: post.map Prod.snd).Nodup := by
      rw [hes] at hnodup
      simpa using hnodup
    rw [List.nodup_append] at hsplit
    have hnew : e.2 ∉ pre.map Prod.snd := fun hc => hsplit.2.2 _ hc _ (List.mem_cons_self ..) rfl
    obtain ⟨m', hle, hwid, hdue, hout⟩ := h.take hd hk hnone hnew
    refine ⟨m', ?_, by simpa [Reorder.run] using hout⟩
    rcases Nat.lt_or_eq_of_le hm with hlt | rfl
    · exact hwid hlt
    · -- all that is kept was handed on, so nothing of it is still to come
      by_contra hlt
      obtain ⟨e', he', hkeep⟩ := hlast pre e post hes (hdue.2 (by omega))
      obtain ⟨i, hi, hnum⟩ := (hk _).1 hkeep
      refine hsplit.2.2 _ (h.arrived hi) e'.2 (List.mem_cons_of_mem _ (List.mem_map_of_mem he')) ?_
      exact hnum.symm

/-- **Exactly what is kept.** When every number to keep arrives, all of them are handed on, and no
more precisely when the number after them never comes after the last of them. -/
theorem run_exact (hnodup : (es.map Prod.snd).Nodup)
    (hall : ∀ i < width, first + d * (i : ℕ) ∈ es.map Prod.snd) :
    ∃ m, width ≤ m ∧ Handed d first width m es ((start first).run d keep es) ∧
      (m = width ↔ ∀ pre e post, es = pre ++ e :: post → e.2 = first + d * width →
        ∃ e' ∈ post, keep e'.2 = true) := by
  obtain ⟨m, h, hnone⟩ := run_handed hd hk hnodup
  have hwid : width ≤ m := by
    rcases Nat.eq_zero_or_pos width with rfl | hpos
    · exact Nat.zero_le _
    · have := h.past hnone (i := width - 1) (by omega) fun j hj => hall j (by omega)
      omega
  refine ⟨m, hwid, h, ?_, ?_⟩
  · rintro rfl pre e post rfl hlast
    by_contra hnever
    have hnever : ∀ e' ∈ post, ¬ keep e'.2 = true := fun e' he' hc => hnever ⟨e', he', hc⟩
    rw [List.append_cons] at h hnodup
    have hpre : ((pre ++ [e]).map Prod.snd).Nodup := by
      rw [List.map_append] at hnodup
      exact (List.nodup_append.1 hnodup).1
    rw [List.map_append, List.nodup_append] at hpre
    have hnew : e.2 ∉ pre.map Prod.snd := fun hc => hpre.2.2 _ hc _ (by simp) rfl
    obtain ⟨k, hk₁, hnone₁⟩ := run_handed hd hk hpre.1
    obtain ⟨k', hle, -, hdue, hk₂, hnone₂⟩ := hk₁.take hd hk hnone₁ hnew
    obtain ⟨k'', hle', hk₃, -⟩ := hk₂.run hd hk post hnone₂ hnodup
    have hrun : Handed d first m m (pre ++ [e] ++ post)
        ((((start first).run d keep pre).take d keep e).run d keep post) := by
      simpa [Reorder.run] using h
    have hsame := hk₃.unique hd hrun
    have hbefore : ∀ i < m, first + d * (i : ℕ) ∈ pre.map Prod.snd := by
      intro i hi
      have := hall i hi
      rw [List.map_append, List.map_cons, List.mem_append, List.mem_cons] at this
      rcases this with hc | hc | hc
      · exact hc
      · have := num_inj hd (hc.trans hlast)
        omega
      · obtain ⟨e', he', hr⟩ := List.mem_map.1 hc
        exact absurd ((hk _).2 ⟨i, hi, hr⟩) (hnever e' he')
    have hfull : m ≤ k := by
      rcases Nat.eq_zero_or_pos m with rfl | hpos
      · exact Nat.zero_le _
      · have := hk₁.past hnone₁ (i := m - 1) (by omega) fun j hj => hbefore j (by omega)
        omega
    have hkm : k = m := by omega
    have := hdue.1 (hkm ▸ hlast)
    omega
  · intro hlast
    obtain ⟨m', hm', h', -⟩ := run_le hd hk hnodup hlast es [] (List.append_nil _).symm
    have := h.unique hd h'
    omega

end Runs

/-- What was handed on, when it is exactly what is kept, is in order and is what arrived. -/
theorem Handed.exact (hk : ∀ r, keep r = true ↔ ∃ i : ℕ, i < width ∧ r = first + d * i)
    (h : Handed d first width width es b) (hnodup : (es.map Prod.snd).Nodup) (e : β × ℤ) :
    e ∈ b.out ↔ e ∈ es ∧ keep e.2 = true := by
  constructor
  · intro he
    have hmem : e.2 ∈ b.out.map Prod.snd := List.mem_map_of_mem he
    rw [h.nums] at hmem
    obtain ⟨i, hi, hr⟩ := List.mem_map.1 hmem
    exact ⟨h.seen e he, (hk _).2 ⟨i, List.mem_range.1 hi, hr.symm⟩⟩
  · rintro ⟨he, hkeep⟩
    obtain ⟨i, hi, hr⟩ := (hk _).1 hkeep
    have hmem : e.2 ∈ b.out.map Prod.snd := by
      rw [h.nums, hr]
      exact List.mem_map.2 ⟨i, List.mem_range.2 hi, rfl⟩
    obtain ⟨e', he', hnum⟩ := List.mem_map.1 hmem
    have := List.inj_on_of_nodup_map hnodup (h.seen e' he') he hnum
    exact this ▸ he'

/-- Nothing waits once all that is kept was handed on. -/
theorem Handed.lut_empty (h : Handed d first width m es b) (hm : width ≤ m) : b.lut.entries = [] := by
  rw [List.eq_nil_iff_forall_not_mem]
  rintro ⟨r, x⟩ hmem
  obtain ⟨-, i, hi, hiw, -⟩ := (h.waits r x).1 (OrdDict.mem_entries_iff.1 hmem)
  omega

end Reorder

end OmniJsonDb
