import OmniJsonDb.Model.Graph

/-!
# What the patterns read off a key

The patterns of the graph layer, with a dot that stands for no newline and with one that stands
for every character.

* `lastId_eq_some`: an id and the end of the key.
* `edgeMatch_edgeOf`: an edge that is seen is the edge that is meant.
* `edgeMatch_of_edgeOf`: an edge that is meant is seen when its ids have no newline.
-/

namespace OmniJsonDb

namespace Graph

variable {dot : Char → Bool} {seen s : List Char} {id u v : NodeId} {d : Bool} {key : Key}

/-! ## An id and the end -/

/-- **An id and the end**: what is read up to the last colon. -/
theorem lastId_eq_some : lastId dot seen s = some id ↔
    ∃ t, id = seen.reverse ++ t ∧ id ≠ [] ∧ (∀ c ∈ t, dot c = true) ∧ (s = t ++ [':'] ∨ s = t ++ [':', '\n']) := by
  induction s generalizing seen with
  | nil => simp [lastId]
  | cons c cs ih =>
    unfold lastId
    by_cases hend : seen ≠ [] ∧ c = ':' ∧ (cs = [] ∨ cs = ['\n'])
    · rw [if_pos hend]
      obtain ⟨hseen, rfl, hcs⟩ := hend
      constructor
      · intro h
        obtain rfl := Option.some.inj h
        refine ⟨[], (List.append_nil _).symm, by simpa using hseen, by simp, ?_⟩
        rcases hcs with rfl | rfl
        · exact .inl rfl
        · exact .inr rfl
      · rintro ⟨t, rfl, -, -, ht⟩
        -- the end comes at the first colon that ends the key
        cases t with
        | nil => simp
        | cons b t =>
          exfalso
          rcases hcs with rfl | rfl <;> rcases ht with ht | ht <;> have hlen := congrArg List.length ht <;>
            simp only [List.length_cons, List.length_append, List.length_nil] at hlen
          · omega
          · omega
          · obtain rfl : t = [] := List.eq_nil_of_length_eq_zero (by omega)
            simp at ht
          · omega
    · rw [if_neg hend]
      by_cases hdot : dot c = true
      · rw [if_pos hdot, ih]
        constructor
        · rintro ⟨t, rfl, hne, hall, ht⟩
          refine ⟨c :: t, by simp, hne, ?_, ?_⟩
          · intro b hb
            rcases List.mem_cons.1 hb with rfl | hb
            · exact hdot
            · exact hall b hb
          · rcases ht with rfl | rfl
            · exact .inl rfl
            · exact .inr rfl
        · rintro ⟨t, rfl, hne, hall, ht⟩
          cases t with
          | nil =>
            exfalso
            refine hend ⟨by simpa using hne, ?_⟩
            rcases ht with ht | ht <;> simp only [List.nil_append, List.cons.injEq] at ht
            · exact ⟨ht.1, .inl ht.2⟩
            · exact ⟨ht.1, .inr ht.2⟩
          | cons b t =>
            have hbc : c = b := by rcases ht with ht | ht <;> exact (List.cons.inj ht).1
            subst hbc
            refine ⟨t, by simp, hne, fun x hx => hall x (List.mem_cons_of_mem _ hx), ?_⟩
            rcases ht with ht | ht
            · exact .inl (List.cons.inj ht).2
            · exact .inr (List.cons.inj ht).2
      · rw [if_neg hdot]
        constructor
        · intro h; cases h
        · rintro ⟨t, rfl, hne, hall, ht⟩
          exfalso
          cases t with
          | nil =>
            refine hend ⟨by simpa using hne, ?_⟩
            rcases ht with ht | ht <;> simp only [List.nil_append, List.cons.injEq] at ht
            · exact ⟨ht.1, .inl ht.2⟩
            · exact ⟨ht.1, .inr ht.2⟩
          | cons b t =>
            have hbc : c = b := by rcases ht with ht | ht <;> exact (List.cons.inj ht).1
            exact hdot (hbc ▸ hall b List.mem_cons_self)

/-- From the start. -/
theorem lastId_nil : lastId dot [] s = some id ↔
    id ≠ [] ∧ (∀ c ∈ id, dot c = true) ∧ (s = id ++ [':'] ∨ s = id ++ [':', '\n']) := by
  rw [lastId_eq_some]
  constructor
  · rintro ⟨t, rfl, h⟩
    exact h
  · intro h
    exact ⟨id, rfl, h⟩

/-- Ids that the patterns see. -/
def Seen (id : NodeId) : Prop := id ≠ [] ∧ '\n' ∉ id

instance : Decidable (Seen id) := by unfold Seen; infer_instance

theorem all_noNewline : (∀ c ∈ id, noNewline c = true) ↔ '\n' ∉ id := by
  simp only [noNewline, decide_eq_true_eq]
  constructor
  · intro h hn; exact h _ hn rfl
  · rintro h c hc rfl; exact h hc

theorem behind_eq_some {letter : Char} {rest : List Char} :
    behind letter key = some rest ↔ key = letter :: ':' :: rest := by
  unfold behind
  split
  · rename_i c₁ c₂ tail
    split
    · rename_i h
      obtain ⟨rfl, rfl⟩ := h
      simp
    · rename_i h
      constructor
      · intro h'; cases h'
      · intro h'
        simp only [List.cons.injEq] at h'
        exact absurd ⟨h'.1, h'.2.1⟩ h
  · rename_i h
    constructor
    · intro h'; cases h'
    · rintro rfl; exact absurd rfl (h _ _ _)

/-- What a key of one letter and one id is read as. -/
theorem behind_lastId {letter : Char} : (behind letter key >>= lastId noNewline []) = some id ↔
    Seen id ∧ (key = letter :: ':' :: id ++ [':'] ∨ key = letter :: ':' :: id ++ [':', '\n']) := by
  rw [Option.bind_eq_bind, Option.bind_eq_some_iff]
  constructor
  · rintro ⟨rest, hrest, hid⟩
    rw [behind_eq_some] at hrest
    rw [lastId_nil, all_noNewline] at hid
    obtain ⟨hne, hnl, h⟩ := hid
    refine ⟨⟨hne, hnl⟩, ?_⟩
    rcases h with rfl | rfl
    · exact .inl hrest
    · exact .inr hrest
  · rintro ⟨⟨hne, hnl⟩, h⟩
    rcases h with rfl | rfl
    · exact ⟨id ++ [':'], behind_eq_some.2 rfl, lastId_nil.2 ⟨hne, all_noNewline.2 hnl, .inl rfl⟩⟩
    · exact ⟨id ++ [':', '\n'], behind_eq_some.2 rfl, lastId_nil.2 ⟨hne, all_noNewline.2 hnl, .inr rfl⟩⟩

theorem nodeMatch_eq_some : nodeMatch key = some id ↔ Seen id ∧ (key = nodeKey id ∨ key = nodeKey id ++ ['\n']) := by
  unfold nodeMatch nodeKey
  rw [behind_lastId]
  simp

theorem adjMatch_eq_some : adjMatch key = some id ↔ Seen id ∧ (key = adjKey id ∨ key = adjKey id ++ ['\n']) := by
  unfold adjMatch adjKey
  rw [behind_lastId]
  simp

theorem nodeMatch_nodeKey (h : Seen id) : nodeMatch (nodeKey id) = some id := nodeMatch_eq_some.2 ⟨h, .inl rfl⟩

theorem adjMatch_adjKey (h : Seen id) : adjMatch (adjKey id) = some id := adjMatch_eq_some.2 ⟨h, .inl rfl⟩

theorem append_colon_inj {a b : List Char} {x : Char} {xs ys : List Char} (h : x :: xs ++ a ++ ys = x :: xs ++ b ++ ys) :
    a = b := by
  have h₁ := List.append_cancel_right h
  exact List.append_cancel_left h₁

theorem nodeKey_inj (h : nodeKey u = nodeKey v) : u = v := @append_colon_inj u v _ [':'] _ h

theorem adjKey_inj (h : adjKey u = adjKey v) : u = v := @append_colon_inj u v _ [':'] _ h

/-- A list that nobody reads as one. -/
theorem adjMatch_adjKey_eq_none : adjMatch (adjKey id) = none ↔ ¬ Seen id := by
  constructor
  · intro h hs
    rw [adjMatch_adjKey hs] at h
    cases h
  · intro h
    rw [Option.eq_none_iff_forall_ne_some]
    intro id' hid
    obtain ⟨hs, hk⟩ := adjMatch_eq_some.1 hid
    rcases hk with hk | hk
    · exact h (adjKey_inj hk ▸ hs)
    · have hlast := (List.append_inj' hk rfl).2
      simp at hlast

/-! ## Edges -/

theorem markAndLast_eq_some : markAndLast dot s = some (d, v) ↔
    v ≠ [] ∧ (∀ c ∈ v, dot c = true) ∧
      (s = ':' :: mark d :: ':' :: v ++ [':'] ∨ s = ':' :: mark d :: ':' :: v ++ [':', '\n']) := by
  unfold markAndLast
  split
  · rename_i c₁ m c₂ rest
    split
    · rename_i h
      obtain ⟨rfl, rfl, hm⟩ := h
      have hmark : ∀ b, (m = '>') = (b = true) → m = mark b := by
        intro b hb
        rcases hm with rfl | rfl
        · obtain rfl : b = true := hb ▸ rfl
          rfl
        · obtain rfl : b = false := by simpa using hb
          rfl
      simp only [Option.map_eq_some_iff, Prod.mk.injEq, lastId_nil]
      constructor
      · rintro ⟨v', ⟨hne, hall, hrest⟩, hd, rfl⟩
        have hmd : m = mark d := hmark d (by rw [← hd]; simp)
        refine ⟨hne, hall, ?_⟩
        rcases hrest with rfl | rfl
        · exact .inl (by rw [hmd]; rfl)
        · exact .inr (by rw [hmd]; rfl)
      · rintro ⟨hne, hall, hs⟩
        have hs' : m = mark d ∧ (rest = v ++ [':'] ∨ rest = v ++ [':', '\n']) := by
          rcases hs with hs | hs <;> simp only [List.cons_append, List.cons.injEq, true_and] at hs
          · exact ⟨hs.1, .inl hs.2⟩
          · exact ⟨hs.1, .inr hs.2⟩
        refine ⟨v, ⟨hne, hall, hs'.2⟩, ?_, rfl⟩
        rw [hs'.1]
        cases d <;> rfl
    · rename_i h
      constructor
      · intro h'; cases h'
      · rintro ⟨-, -, hs⟩
        exfalso
        rcases hs with hs | hs <;> simp only [List.cons_append, List.cons.injEq] at hs <;>
          exact h ⟨hs.1, hs.2.2.1, by rw [hs.2.1]; cases d <;> simp [mark]⟩
  · rename_i h
    constructor
    · intro h'; cases h'
    · rintro ⟨-, -, hs⟩
      rcases hs with rfl | rfl <;> exact absurd rfl (h _ _ _ _)

/-- What is read behind a source: where the first mark that goes with an end stands. -/
theorem edgeTail_eq_some (h : edgeTail dot seen s = some (u, d, v)) :
    ∃ t rest, u = seen.reverse ++ t ∧ u ≠ [] ∧ (∀ c ∈ t, dot c = true) ∧ s = t ++ rest ∧
      markAndLast dot rest = some (d, v) := by
  induction s generalizing seen with
  | nil => cases h
  | cons c cs ih =>
    unfold edgeTail at h
    split at h
    · rename_i d' v' hmark
      obtain ⟨rfl, rfl, rfl⟩ := (by simpa using h : seen.reverse = u ∧ d' = d ∧ v' = v)
      split at hmark
      · cases hmark
      · rename_i hseen
        exact ⟨[], c :: cs, (List.append_nil _).symm, by simpa using hseen, by simp, rfl, hmark⟩
    · split at h
      · rename_i hdot
        obtain ⟨t, rest, rfl, hne, hall, rfl, hmark⟩ := ih h
        refine ⟨c :: t, rest, by simp, hne, ?_, rfl, hmark⟩
        intro b hb
        rcases List.mem_cons.1 hb with rfl | hb
        · exact hdot
        · exact hall b hb
      · cases h

/-- A dot that stands for more reads at least as much behind a mark. -/
theorem markAndLast_mono {dot' : Char → Bool} (hdot : ∀ c, dot c = true → dot' c = true)
    (h : markAndLast dot s = some (d, v)) : markAndLast dot' s = some (d, v) := by
  rw [markAndLast_eq_some] at h ⊢
  obtain ⟨hne, hall, hs⟩ := h
  exact ⟨hne, fun c hc => hdot c (hall c hc), hs⟩

/-- What is read has no newline but at its end. -/
theorem newline_of_edgeTail (h : edgeTail noNewline seen s = some (u, d, v)) : '\n' ∉ s.dropLast := by
  obtain ⟨t, rest, -, -, ht, rfl, hmark⟩ := edgeTail_eq_some h
  obtain ⟨-, hv, hrest⟩ := markAndLast_eq_some.1 hmark
  rw [all_noNewline] at ht hv
  have hm : '\n' ≠ mark d := by cases d <;> decide
  rcases hrest with rfl | rfl
  · have hdrop : (t ++ (':' :: mark d :: ':' :: v ++ [':'])).dropLast = t ++ ':' :: mark d :: ':' :: v := by
      rw [← List.append_assoc, List.dropLast_concat]
    rw [hdrop]
    simp [ht, hv, hm]
  · have hdrop : (t ++ (':' :: mark d :: ':' :: v ++ [':', '\n'])).dropLast = t ++ ':' :: mark d :: ':' :: v ++ [':'] := by
      rw [show t ++ (':' :: mark d :: ':' :: v ++ [':', '\n']) = (t ++ ':' :: mark d :: ':' :: v ++ [':']) ++ ['\n'] by simp,
        List.dropLast_concat]
    rw [hdrop]
    simp [ht, hv, hm]

/-- The edge a record stands for, whatever its ids are made of. -/
def edgeOf (key : Key) : Option (NodeId × Bool × NodeId) := behind 'E' key >>= edgeTail (fun _ => true) []

theorem edgeTail_mono (h : edgeTail noNewline seen s = some (u, d, v)) :
    edgeTail (fun _ => true) seen s = some (u, d, v) := by
  induction s generalizing seen with
  | nil => cases h
  | cons c cs ih =>
    have hnl := newline_of_edgeTail h
    unfold edgeTail at h ⊢
    by_cases hseen : seen = []
    · rw [if_pos hseen] at h ⊢
      simp only [if_true] at h ⊢
      split at h
      · exact ih h
      · cases h
    · rw [if_neg hseen] at h ⊢
      cases hmark : markAndLast noNewline (c :: cs) with
      | some p =>
        obtain ⟨d', v'⟩ := p
        rw [hmark] at h
        rw [markAndLast_mono (fun _ _ => rfl) hmark]
        exact h
      | none =>
        rw [hmark] at h
        -- an end that only the wider dot reaches lies behind a newline
        have hwide : markAndLast (fun _ => true) (c :: cs) = none := by
          rw [Option.eq_none_iff_forall_ne_some]
          rintro ⟨d', v'⟩ hm
          obtain ⟨hne, -, hs⟩ := markAndLast_eq_some.1 hm
          have hv' : '\n' ∉ v' := by
            intro hin
            refine hnl ?_
            rcases hs with hs | hs <;> rw [hs]
            · rw [List.dropLast_concat]
              simp [hin]
            · rw [show ':' :: mark d' :: ':' :: v' ++ [':', '\n'] = (':' :: mark d' :: ':' :: v' ++ [':']) ++ ['\n'] by simp,
                List.dropLast_concat]
              simp [hin]
          have := markAndLast_eq_some.2 ⟨hne, all_noNewline.2 hv', hs⟩
          rw [hmark] at this
          cases this
        rw [hwide]
        simp only [if_true] at h ⊢
        split at h
        · exact ih h
        · cases h

/-- **What is seen is what is meant.** -/
theorem edgeMatch_edgeOf (h : edgeMatch key = some (u, d, v)) : edgeOf key = some (u, d, v) := by
  unfold edgeMatch at h
  rw [Option.bind_eq_bind, Option.bind_eq_some_iff] at h
  obtain ⟨rest, hrest, h⟩ := h
  unfold edgeOf
  rw [hrest]
  exact edgeTail_mono h

theorem edgeTail_of_noNewline (h : edgeTail (fun _ => true) seen s = some (u, d, v)) (hu : '\n' ∉ u) (hv : '\n' ∉ v) :
    edgeTail noNewline seen s = some (u, d, v) := by
  induction s generalizing seen with
  | nil => cases h
  | cons c cs ih =>
    obtain ⟨t, rest, hut, hune, -, hs, hmark⟩ := edgeTail_eq_some h
    unfold edgeTail at h ⊢
    by_cases hhere : t = []
    · subst hhere
      rw [List.append_nil] at hut
      obtain rfl : rest = c :: cs := by simpa using hs.symm
      have hseen : seen ≠ [] := by
        rintro rfl
        exact hune hut
      rw [if_neg hseen, hmark] at h
      obtain ⟨hne, -, hs'⟩ := markAndLast_eq_some.1 hmark
      rw [if_neg hseen, markAndLast_eq_some.2 ⟨hne, all_noNewline.2 hv, hs'⟩]
      exact h
    · obtain ⟨b, t', rfl⟩ := List.exists_cons_of_ne_nil hhere
      obtain ⟨rfl, hcs⟩ : b = c ∧ cs = t' ++ rest := by simpa [eq_comm] using hs
      have hc : noNewline b = true := by
        simp only [noNewline, decide_eq_true_eq]
        rintro rfl
        exact hu (by rw [hut]; simp)
      by_cases hseen : seen = []
      · rw [if_pos hseen] at h ⊢
        simp only [if_true, hc] at h ⊢
        exact ih h
      · rw [if_neg hseen] at h ⊢
        cases hm : markAndLast (fun _ => true) (b :: cs) with
        | some p =>
          -- then the source would end here
          obtain ⟨d', v'⟩ := p
          rw [hm] at h
          obtain ⟨hu', -, -⟩ := (by simpa using h : seen.reverse = u ∧ d' = d ∧ v' = v)
          have hlen := congrArg List.length (hu'.trans hut)
          simp at hlen
        | none =>
          have hnone : markAndLast noNewline (b :: cs) = none := by
            rw [Option.eq_none_iff_forall_ne_some]
            rintro ⟨d', v'⟩ h'
            rw [markAndLast_mono (fun _ _ => rfl) h'] at hm
            cases hm
          rw [hm] at h
          rw [hnone]
          simp only [if_true, hc] at h ⊢
          exact ih h

/-- **What is meant is seen**, for ids without a newline. -/
theorem edgeMatch_of_edgeOf (h : edgeOf key = some (u, d, v)) (hu : '\n' ∉ u) (hv : '\n' ∉ v) :
    edgeMatch key = some (u, d, v) := by
  unfold edgeOf at h
  rw [Option.bind_eq_bind, Option.bind_eq_some_iff] at h
  obtain ⟨rest, hrest, h⟩ := h
  unfold edgeMatch
  rw [hrest]
  exact edgeTail_of_noNewline h hu hv

/-- The parts of a record's key. -/
theorem edgeOf_eq_some (h : edgeOf key = some (u, d, v)) :
    u ≠ [] ∧ v ≠ [] ∧ (key = edgeKey u d v ∨ key = edgeKey u d v ++ ['\n']) := by
  unfold edgeOf at h
  rw [Option.bind_eq_bind, Option.bind_eq_some_iff] at h
  obtain ⟨rest, hrest, h⟩ := h
  rw [behind_eq_some] at hrest
  obtain ⟨t, tail, rfl, hune, -, rfl, hmark⟩ := edgeTail_eq_some h
  obtain ⟨hvne, -, hs⟩ := markAndLast_eq_some.1 hmark
  refine ⟨hune, hvne, ?_⟩
  rcases hs with rfl | rfl
  · exact .inl (by rw [hrest]; simp [edgeKey])
  · exact .inr (by rw [hrest]; simp [edgeKey])

/-- The ids of an edge that is seen are seen. -/
theorem edgeMatch_seen (h : edgeMatch key = some (u, d, v)) : Seen u ∧ Seen v := by
  obtain ⟨hu, hv, -⟩ := edgeOf_eq_some (edgeMatch_edgeOf h)
  unfold edgeMatch at h
  rw [Option.bind_eq_bind, Option.bind_eq_some_iff] at h
  obtain ⟨rest, -, h⟩ := h
  obtain ⟨t, tail, rfl, -, ht, -, hmark⟩ := edgeTail_eq_some h
  obtain ⟨-, hvn, -⟩ := markAndLast_eq_some.1 hmark
  exact ⟨⟨hu, by simpa using all_noNewline.1 ht⟩, ⟨hv, all_noNewline.1 hvn⟩⟩

/-- An edge that is meant and not seen has an endpoint that is not seen. -/
theorem not_seen_of_edgeOf (h : edgeOf key = some (u, d, v)) (hm : edgeMatch key = none) : ¬ Seen u ∨ ¬ Seen v := by
  by_contra hs
  rw [not_or, not_not, not_not] at hs
  rw [edgeMatch_of_edgeOf h hs.1.2 hs.2.2] at hm
  cases hm

/-- An undirected edge is stored under one key. -/
theorem generateEdgeKey_comm : generateEdgeKey u v false = generateEdgeKey v u false := by
  unfold generateEdgeKey
  simp only [Bool.false_eq_true, if_false]
  by_cases huv : u < v
  · rw [if_neg (List.lt_asymm huv), if_pos huv]
  · by_cases hvu : v < u
    · rw [if_pos hvu, if_neg huv]
    · rw [List.le_antisymm (List.not_lt.1 hvu) (List.not_lt.1 huv)]

end Graph

end OmniJsonDb
