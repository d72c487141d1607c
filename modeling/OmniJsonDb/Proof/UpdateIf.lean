import Mathlib.Data.List.Count
import OmniJsonDb.Model.UpdateIf

/-!
# Patching exactly what matches

A write goes to a key of the database, so a record in a group is out of its reach: its name is a
key that is not there, which a write adds and a deletion skips. What is left is to say for the
records of the database itself where the tests of `update_if` agree with what is to happen.

* `Updated`: the promise, for a patch and for `None`.
* `Written`: what holds after some of the writes; `Written.step` is one, `written_foldl` all.
* `get_foldl_fDelete`: what is left after the deletions.
* `updateIf_iff`: the promise is kept just where `Updatable` holds.
-/

namespace OmniJsonDb

/-- Two tests that pass equally often pass on the same, if one implies the other. -/
theorem countP_eq_imp {α : Type} {l : List α} {a b : α → Bool} (himp : ∀ x ∈ l, a x = true → b x = true)
    (hcount : l.countP b = l.countP a) : ∀ x ∈ l, b x = true → a x = true := by
  induction l with
  | nil => exact fun x hx => absurd hx List.not_mem_nil
  | cons y l ih =>
    rw [List.forall_mem_cons] at himp
    have hle : l.countP a ≤ l.countP b := List.countP_mono_left himp.2
    rw [List.countP_cons, List.countP_cons] at hcount
    have hy : b y = true → a y = true := by
      intro hb
      by_contra ha
      rw [if_pos hb, if_neg ha] at hcount
      omega
    refine List.forall_mem_cons.2 ⟨hy, ih himp.2 ?_⟩
    have hsame : b y = a y := Bool.eq_iff_iff.2 ⟨hy, himp.1⟩
    rw [hsame] at hcount
    omega

/-! ## Names -/

theorem pathName_one (k : Key) : pathName [k] = k := by
  simp [pathName, List.intercalate]

/-- The name of a record in a group has the separator in it. -/
theorem pathName_sep {p : RecPath} (h : 2 ≤ p.length) : JDb.SEP_SYM <:+: pathName p := by
  match p, h with
  | a :: b :: rest, _ =>
    refine ⟨a, pathName (b :: rest), ?_⟩
    cases rest <;> simp [pathName, List.intercalate]

namespace Records

variable {s st : Records} {found : List RecPath} {p q t : RecPath} {kvs d : List (PyVal × PyVal)} {r : Rec}

/-- No key has a separator in it. -/
def WellNamed (s : Records) : Prop := ∀ p, s.contains p = true → p ≠ [] ∧ ∀ k ∈ p, ¬ JDb.SEP_SYM <:+: k

/-- The name of a record is a key of the database just for its own records. -/
theorem WellNamed.contains_name (hs : s.WellNamed) (hp : s.contains p = true) :
    s.contains [pathName p] = true ↔ p.length = 1 := by
  constructor
  · intro h
    by_contra hlen
    have hpos : p.length ≠ 0 := fun hc => (hs p hp).1 (List.length_eq_zero_iff.1 hc)
    exact (hs _ h).2 _ (List.mem_singleton.2 rfl) (pathName_sep (by omega))
  · intro h
    obtain ⟨k, rfl⟩ := List.length_eq_one_iff.1 h
    rwa [pathName_one]

/-! ## What an update is to do -/

/-- The flags of a record, or of the target of a link, refuse the value. -/
def Refuses (s : Records) (p : RecPath) (val : PyVal) : Prop :=
  (∃ r, s.get? p = some r ∧ has r.flags READ_ONLY = true) ∨
    ∃ t r, s.holder p = some t ∧ s.get? t = some r ∧ refused r val = true

/-- The patch makes another value of a record, and the flags allow it. -/
def Patches (s : Records) (kvs : List (PyVal × PyVal)) (p : RecPath) : Prop :=
  ∃ d, s.read p = some (.dict d) ∧ PyVal.dict (patchDict kvs d) ≠ .dict d ∧ ¬ s.Refuses p (.dict (patchDict kvs d))

/-- A record with a dictionary that may be deleted. -/
def Deletes (s : Records) (p : RecPath) : Prop :=
  ∃ d r, s.read p = some (.dict d) ∧ s.get? p = some r ∧ has r.flags DELETE_LOCK_MASK = false

open Classical in
/-- The records that were found have the patch merged, all others are as they were, and the count is that
of the records that were changed. -/
structure Patched (s : Records) (found : List RecPath) (kvs : List (PyVal × PyVal)) (out : ℕ × Records) : Prop where
  each : ∀ p ∈ found, s.Patches kvs p → ∀ d, s.read p = some (.dict d) → out.2.read p = some (.dict (patchDict kvs d))
  rest : ∀ p, ¬ (p ∈ found ∧ s.Patches kvs p) → out.2.get? p = s.get? p
  count : out.1 = found.countP fun p => decide (s.Patches kvs p)

open Classical in
/-- The records that were found are gone, all others are as they were, and the count is theirs. -/
structure Deleted (s : Records) (found : List RecPath) (out : ℕ × Records) : Prop where
  each : ∀ p ∈ found, s.Deletes p → out.2.get? p = none
  rest : ∀ p, ¬ (p ∈ found ∧ s.Deletes p) → out.2.get? p = s.get? p
  count : out.1 = found.countP fun p => decide (s.Deletes p)

/-- A dictionary, or `None`. -/
def patchArg : Option (List (PyVal × PyVal)) → PyVal
  | none => .none
  | some kvs => .dict kvs

/-- What `update_if` promises. -/
def Updated (s : Records) (found : List RecPath) (out : ℕ × Records) : Option (List (PyVal × PyVal)) → Prop
  | none => s.Deleted found out
  | some kvs => s.Patched found kvs out

/-- The plan for a value is a write. -/
def notices (kvs d : List (PyVal × PyVal)) : Bool :=
  !PyVal.pyEq (.dict kvs) (.dict d) && !kvs.isEmpty && patchChanges kvs d

/-- The plan for a record is a write. -/
def noticed (s : Records) (kvs : List (PyVal × PyVal)) (p : RecPath) : Bool :=
  match s.read p with
  | some (.dict d) => notices kvs d
  | _ => false

/-- What a record is to hold. -/
def mergedAt (s : Records) (kvs : List (PyVal × PyVal)) (p : RecPath) : PyVal :=
  match s.read p with
  | some (.dict d) => .dict (patchDict kvs d)
  | _ => .none

/-- What must be given: a patch is written just where it makes another value and the flags allow it, and
only to records of the database itself, a link with its target; what is deleted are just its own records. -/
def Updatable (s : Records) (found : List RecPath) : Option (List (PyVal × PyVal)) → Prop
  | none => ∀ p ∈ found, ∀ d r, s.read p = some (.dict d) → s.get? p = some r →
      (p.length = 1 ↔ has r.flags DELETE_LOCK_MASK = false)
  | some kvs => ∀ p ∈ found, (s.noticed kvs p = true ↔ s.Patches kvs p) ∧
      (s.noticed kvs p = true → p.length = 1 ∧ ∀ t, s.holder p = some t → t ∈ found)

/-! ## The plan -/

theorem mergedAt_of_read (h : s.read p = some (.dict d)) : s.mergedAt kvs p = .dict (patchDict kvs d) := by
  unfold mergedAt
  rw [h]

theorem read_of_noticed (h : s.noticed kvs p = true) : ∃ d, s.read p = some (.dict d) := by
  unfold noticed at h
  split at h
  · exact ⟨_, ‹_›⟩
  · cases h

theorem todo_dict (kvs d : List (PyVal × PyVal)) :
    todo (.dict kvs) d = if notices kvs d then .chg (.dict (patchDict kvs d)) else .skip := by
  unfold todo notices
  cases PyVal.pyEq (.dict kvs) (.dict d) with
  | true => rfl
  | false =>
    cases kvs with
    | nil => rfl
    | cons kv kvs => cases hc : patchChanges (kv :: kvs) d <;> simp [hc]

theorem todo_none (d : List (PyVal × PyVal)) : todo .none d = .del := by
  simp [todo, PyVal.pyEq, PyVal.atomEq, PyVal.numOf]

/-- The plan for a record that was found. -/
def planOf (s : Records) (patch : PyVal) (p : RecPath) : Option (Key × Todo) :=
  match s.read p with
  | some (.dict d) => some (pathName p, todo patch d)
  | _ => none

theorem plans_eq (s : Records) (found : List RecPath) (patch : PyVal) :
    s.plans found (fun _ _ => patch) = found.filterMap (s.planOf patch) := rfl

theorem filterMap_ite {α β : Type} (l : List α) (b : α → Bool) (f : α → β) :
    l.filterMap (fun x => if b x then some (f x) else none) = (l.filter b).map f := by
  rw [← List.filterMap_eq_map', List.filterMap_filter]

/-- A patch plans writes, and no deletions. -/
theorem chgKeys_dict (s : Records) (found : List RecPath) (kvs : List (PyVal × PyVal)) :
    chgKeys (s.plans found fun _ _ => .dict kvs) =
      (found.filter (s.noticed kvs)).map fun p => (pathName p, s.mergedAt kvs p) := by
  rw [plans_eq, chgKeys, List.filterMap_filterMap, ← filterMap_ite]
  refine List.filterMap_congr fun p _ => ?_
  unfold planOf noticed mergedAt
  split
  · rename_i d _
    rw [Option.bind_some, todo_dict]
    cases notices kvs d <;> rfl
  · rfl

theorem delKeys_dict (s : Records) (found : List RecPath) (kvs : List (PyVal × PyVal)) :
    delKeys (s.plans found fun _ _ => .dict kvs) = [] := by
  rw [plans_eq, delKeys, List.filterMap_filterMap, List.filterMap_eq_nil_iff]
  intro p _
  unfold planOf
  split
  · rename_i d _
    rw [Option.bind_some, todo_dict]
    cases notices kvs d <;> rfl
  · rfl

def isDict (s : Records) (p : RecPath) : Bool :=
  match s.read p with
  | some (.dict _) => true
  | _ => false

/-- `None` plans deletions, and no writes. -/
theorem chgKeys_none (s : Records) (found : List RecPath) : chgKeys (s.plans found fun _ _ => .none) = [] := by
  rw [plans_eq, chgKeys, List.filterMap_filterMap, List.filterMap_eq_nil_iff]
  intro p _
  unfold planOf
  split
  · rw [Option.bind_some, todo_none]
  · rfl

theorem delKeys_none (s : Records) (found : List RecPath) :
    delKeys (s.plans found fun _ _ => .none) = (found.filter s.isDict).map pathName := by
  rw [plans_eq, delKeys, List.filterMap_filterMap, ← filterMap_ite]
  refine List.filterMap_congr fun p _ => ?_
  unfold planOf isDict
  split
  · rw [Option.bind_some, todo_none]
    simp
  · rfl

/-- What is left of an update with a patch. -/
theorem updateIf_dict (s : Records) (found : List RecPath) (kvs : List (PyVal × PyVal)) :
    s.updateIf found (fun _ _ => .dict kvs) = ((found.filter (s.noticed kvs)).length,
      (found.filter (s.noticed kvs)).foldl (fun st p => st.fWrite (pathName p) (s.mergedAt kvs p)) s) := by
  unfold updateIf
  dsimp only
  rw [chgKeys_dict, delKeys_dict, List.length_map, List.foldl_map]
  rfl

theorem updateIf_none (s : Records) (found : List RecPath) :
    s.updateIf found (fun _ _ => .none) =
      ((((found.filter s.isDict).map pathName).filter fun key => s.contains [key]).length,
        (((found.filter s.isDict).map pathName).filter fun key => s.contains [key]).foldl fDelete s) := by
  unfold updateIf
  dsimp only
  rw [chgKeys_none, delKeys_none, List.length_nil, Nat.zero_add]
  rfl

/-! ## Writes -/

theorem contains_set (s : Records) (p : RecPath) (r : Rec) :
    (s.set p r).contains q = true ↔ q = p ∨ s.contains q = true := by
  unfold OrdDict.contains
  rw [OrdDict.get?_set]
  by_cases h : p = q
  · simp [h]
  · simp [Ne.symm h]

theorem contains_writeRow (h : s.contains q = true) (t : RecPath) (v : PyVal) : (s.writeRow t v).contains q = true := by
  unfold writeRow
  split
  · exact h
  · split
    · exact h
    · exact (contains_set ..).2 (.inr h)

/-- A write adds its key where it is missing, and takes none away. -/
theorem contains_fWrite (s : Records) (key : Key) (v : PyVal) (h : q = [key] ∨ s.contains q = true) :
    (s.fWrite key v).contains q = true := by
  unfold fWrite
  split
  · exact (contains_set ..).2 h
  · rename_i r hr
    have hq : s.contains q = true := by
      rcases h with rfl | h
      · simp [OrdDict.contains, hr]
      · exact h
    split
    · exact hq
    · split
      · exact hq
      · exact contains_writeRow hq _ _

theorem contains_foldl (ps : List RecPath) (f : RecPath → PyVal) (st : Records)
    (h : (∃ p ∈ ps, q = [pathName p]) ∨ st.contains q = true) :
    (ps.foldl (fun st p => st.fWrite (pathName p) (f p)) st).contains q = true := by
  induction ps generalizing st with
  | nil => exact h.elim (fun hc => absurd hc (by simp)) id
  | cons p ps ih =>
    rw [List.foldl_cons]
    refine ih _ ?_
    rcases h with ⟨p', hp', rfl⟩ | h
    · rcases List.mem_cons.1 hp' with rfl | hp'
      · exact .inr (contains_fWrite st _ _ (.inl rfl))
      · exact .inl ⟨p', hp', rfl⟩
    · exact .inr (contains_fWrite st _ _ (.inr h))

/-- The row that is read is no link. -/
theorem holder_some (h : s.holder p = some t) : ∃ r, s.get? t = some r ∧ r.target = none := by
  unfold holder at h
  split at h
  · cases h
  · rename_i r hr
    split at h
    · rename_i htarget
      obtain rfl := Option.some.inj h
      exact ⟨r, hr, htarget⟩
    · split at h
      · cases h
      · rename_i q hq
        split at h
        · cases h
        · rename_i hsome
          obtain rfl := Option.some.inj h
          exact ⟨q, hq, by simpa using hsome⟩

theorem holder_self (hr : s.get? t = some r) (ht : r.target = none) : s.holder t = some t := by
  unfold holder
  rw [hr]
  dsimp only
  rw [ht]

/-- A link reads as its target. -/
theorem read_holder (h : s.holder p = some t) : s.read t = s.read p := by
  obtain ⟨r, hr, ht⟩ := holder_some h
  unfold read
  rw [h, holder_self hr ht]

theorem read_some {v : PyVal} (h : s.read p = some v) :
    ∃ t r, s.holder p = some t ∧ s.get? t = some r ∧ r.target = none ∧ r.val = v := by
  unfold read at h
  obtain ⟨r, hr, rfl⟩ := Option.map_eq_some_iff.1 h
  obtain ⟨t, ht, hget⟩ := Option.bind_eq_some_iff.1 hr
  obtain ⟨r', hr', htarget⟩ := holder_some ht
  obtain rfl := Option.some.inj (hget.symm.trans hr')
  exact ⟨t, r, ht, hget, htarget, rfl⟩

theorem mergedAt_holder (h : s.holder p = some t) : s.mergedAt kvs t = s.mergedAt kvs p := by
  unfold mergedAt
  rw [read_holder h]

theorem noticed_holder (h : s.holder p = some t) : s.noticed kvs t = s.noticed kvs p := by
  unfold noticed
  rw [read_holder h]

/-- Some rows hold what they are to hold, the others are as they were. `L` are the records written to. -/
structure Written (s : Records) (kvs : List (PyVal × PyVal)) (L : List RecPath) (st : Records) : Prop where
  get : ∀ t, st.get? t = s.get? t ∨ (∃ p ∈ L, s.holder p = some t) ∧
    ∃ r, s.get? t = some r ∧ st.get? t = some { r with val := s.mergedAt kvs t }
  done : ∀ p ∈ L, ¬ s.Refuses p (s.mergedAt kvs p) → ∀ t, s.holder p = some t →
    ∃ r, s.get? t = some r ∧ st.get? t = some { r with val := s.mergedAt kvs t }

variable {L : List RecPath}

theorem Written.row (h : Written s kvs L st) (hr : s.get? t = some r) :
    ∃ r', st.get? t = some r' ∧ r'.flags = r.flags ∧ r'.target = r.target := by
  rcases h.get t with hsame | ⟨-, r₁, hr₁, hst⟩
  · exact ⟨r, hsame.trans hr, rfl, rfl⟩
  · obtain rfl := Option.some.inj (hr.symm.trans hr₁)
    exact ⟨_, hst, rfl, rfl⟩

theorem Written.get_none (h : Written s kvs L st) (hr : s.get? t = none) : st.get? t = none := by
  rcases h.get t with hsame | ⟨-, r₁, hr₁, -⟩
  · exact hsame.trans hr
  · rw [hr] at hr₁
    cases hr₁

/-- Links lead where they did. -/
theorem Written.holder (h : Written s kvs L st) (p : RecPath) : st.holder p = s.holder p := by
  unfold Records.holder
  cases hr : s.get? p with
  | none => rw [h.get_none hr]
  | some r =>
    obtain ⟨r', hr', -, htarget⟩ := h.row hr
    rw [hr']
    dsimp only
    rw [htarget]
    cases r.target with
    | none => rfl
    | some t =>
      dsimp only
      cases hq : s.get? t with
      | none => rw [h.get_none hq]
      | some q =>
        obtain ⟨q', hq', -, htarget'⟩ := h.row hq
        rw [hq']
        dsimp only
        rw [htarget']

theorem Written.same (h : Written s kvs L st) (hr : Refuses s p (s.mergedAt kvs p)) :
    Written s kvs (L ++ [p]) st where
  get := by
    intro t
    rcases h.get t with hsame | ⟨⟨p', hp', hh⟩, hval⟩
    · exact .inl hsame
    · exact .inr ⟨⟨p', List.mem_append_left _ hp', hh⟩, hval⟩
  done := by
    intro p' hp' hno
    rcases List.mem_append.1 hp' with hp' | hp'
    · exact h.done p' hp' hno
    · rw [List.mem_singleton.1 hp'] at hno
      exact absurd hr hno

/-- The row of a record holds what it is to hold. -/
theorem Written.set (h : Written s kvs L st) (hp : s.holder p = some t) (hr : s.get? t = some r)
    {st' : Records} (hst' : ∀ x, st'.get? x = if x = t then some { r with val := s.mergedAt kvs t } else st.get? x) :
    Written s kvs (L ++ [p]) st' where
  get := by
    intro x
    rw [hst']
    by_cases hx : x = t
    · subst hx
      rw [if_pos rfl]
      exact .inr ⟨⟨p, List.mem_append_right _ (List.mem_singleton.2 rfl), hp⟩, r, hr, rfl⟩
    · rw [if_neg hx]
      rcases h.get x with hsame | ⟨⟨p', hp', hh⟩, hval⟩
      · exact .inl hsame
      · exact .inr ⟨⟨p', List.mem_append_left _ hp', hh⟩, hval⟩
  done := by
    intro p' hp' hno x hx
    rw [hst']
    by_cases hxt : x = t
    · subst hxt
      rw [if_pos rfl]
      exact ⟨r, hr, rfl⟩
    · rw [if_neg hxt]
      rcases List.mem_append.1 hp' with hp' | hp'
      · exact h.done p' hp' hno x hx
      · rw [List.mem_singleton.1 hp', hp] at hx
        exact absurd (Option.some.inj hx).symm hxt

/-- **One write.** -/
theorem Written.step (h : Written s kvs L st) {k : Key} {r₀ : Rec} (hp : s.get? [k] = some r₀)
    (hn : s.noticed kvs [k] = true) : Written s kvs (L ++ [[k]]) (st.fWrite k (s.mergedAt kvs [k])) := by
  obtain ⟨d, hd⟩ := read_of_noticed hn
  obtain ⟨t, r, ht, hr, htarget, hval⟩ := read_some hd
  obtain ⟨r₀', hp', hflags₀, -⟩ := h.row hp
  have hm : s.mergedAt kvs t = s.mergedAt kvs [k] := mergedAt_holder ht
  unfold fWrite
  rw [hp']
  dsimp only
  by_cases hro : has r₀'.flags READ_ONLY = true
  · rw [if_pos hro]
    refine h.same (.inl ⟨r₀, hp, ?_⟩)
    rwa [← hflags₀]
  · rw [if_neg hro, h.holder, ht]
    dsimp only
    unfold writeRow
    -- the row that takes the value is as it was, or it was written to before
    rcases h.get t with hsame | ⟨-, r₁, hr₁, hst⟩
    · rw [hsame, hr]
      dsimp only
      by_cases href : refused r (s.mergedAt kvs [k]) = true
      · rw [if_pos href]
        exact h.same (.inr ⟨t, r, ht, hr, href⟩)
      · rw [if_neg href, ← hm]
        exact h.set ht hr fun x => OrdDict.get?_set ..
    · obtain rfl := Option.some.inj (hr.symm.trans hr₁)
      rw [hst]
      dsimp only
      split
      · refine h.set ht hr fun x => ?_
        by_cases hx : x = t
        · rw [if_pos hx, hx, hst]
        · rw [if_neg hx]
      · rw [← hm]
        exact h.set ht hr fun x => OrdDict.get?_set ..

/-- **All writes**, to records of the database itself. -/
theorem written_foldl (s : Records) (kvs : List (PyVal × PyVal)) (ps : List RecPath)
    (hps : ∀ p ∈ ps, s.noticed kvs p = true ∧ s.contains p = true ∧ p.length = 1) (h : Written s kvs L st) :
    Written s kvs (L ++ ps) (ps.foldl (fun st p => st.fWrite (pathName p) (s.mergedAt kvs p)) st) := by
  induction ps generalizing L st with
  | nil => rwa [List.append_nil]
  | cons p ps ih =>
    rw [List.forall_mem_cons] at hps
    obtain ⟨⟨hn, hc, hlen⟩, hrest⟩ := hps
    obtain ⟨k, rfl⟩ := List.length_eq_one_iff.1 hlen
    obtain ⟨r, hr⟩ := Option.isSome_iff_exists.1 hc
    have hstep := ih hrest (h.step hr hn)
    rw [List.append_assoc] at hstep
    rw [List.foldl_cons, pathName_one]
    exact hstep

theorem written_nil (s : Records) (kvs : List (PyVal × PyVal)) : Written s kvs [] s :=
  ⟨fun _ => .inl rfl, fun _ hp => absurd hp List.not_mem_nil⟩

/-! ## Patches -/

/-- A patch that takes effect, with the value it makes. -/
theorem Patches.merged (h : s.Patches kvs p) : ∃ d, s.read p = some (.dict d) ∧
    s.mergedAt kvs p = .dict (patchDict kvs d) ∧ s.mergedAt kvs p ≠ .dict d ∧ ¬ s.Refuses p (s.mergedAt kvs p) := by
  obtain ⟨d, hd, hne, hno⟩ := h
  have hm : s.mergedAt kvs p = .dict (patchDict kvs d) := mergedAt_of_read hd
  exact ⟨d, hd, hm, hm ▸ hne, hm ▸ hno⟩

/-- The rows that were read are those that are read afterwards. -/
theorem Written.read (h : Written s kvs L st) (hp : s.holder p = some t) (hst : st.get? t = some r) :
    st.read p = some r.val := by
  unfold Records.read
  rw [h.holder, hp, Option.bind_some, hst]
  rfl

/-- **A patch reaches just what was found** when it is noticed where it is to take effect. -/
theorem patched_iff (hs : s.WellNamed) (hf : ∀ p ∈ found, s.contains p = true) :
    s.Patched found kvs (s.updateIf found fun _ _ => .dict kvs) ↔ s.Updatable found (some kvs) := by
  classical
  rw [updateIf_dict]
  obtain ⟨ps, hps⟩ : ∃ ps, ps = found.filter (s.noticed kvs) := ⟨_, rfl⟩
  have hmem : ∀ {p}, p ∈ ps ↔ p ∈ found ∧ s.noticed kvs p = true := by
    intro p
    rw [hps, List.mem_filter]
  rw [← hps]
  have hlenps : ps.length = found.countP (s.noticed kvs) := by
    rw [hps, List.countP_eq_length_filter]
  have hwrites : (∀ p ∈ ps, p.length = 1) →
      Written s kvs ps (ps.foldl (fun st p => st.fWrite (pathName p) (s.mergedAt kvs p)) s) := by
    intro htop
    have := written_foldl s kvs ps (fun p hp => ⟨(hmem.1 hp).2, hf p (hmem.1 hp).1, htop p hp⟩) (written_nil s kvs)
    rwa [List.nil_append] at this
  constructor
  · intro h
    have htop : ∀ p ∈ ps, p.length = 1 := by
      intro p hp
      obtain ⟨hpf, -⟩ := hmem.1 hp
      by_contra hlen
      -- the name of a record in a group becomes a new key
      have hnew : s.contains [pathName p] ≠ true := fun hc => hlen ((hs.contains_name (hf p hpf)).1 hc)
      have hnot : ¬ ([pathName p] ∈ found ∧ s.Patches kvs [pathName p]) := fun hc => hnew (hf _ hc.1)
      have hget := h.rest _ hnot
      have hcon := contains_foldl ps (s.mergedAt kvs) s (.inl ⟨p, hp, rfl⟩)
      unfold OrdDict.contains at hcon hnew
      rw [hget] at hcon
      exact hnew hcon
    have hw := hwrites htop
    have hnot : ∀ p ∈ found, s.Patches kvs p → s.noticed kvs p = true := by
      intro p hp hpatch
      by_contra hno
      obtain ⟨d, hd, hm, hne, -⟩ := hpatch.merged
      obtain ⟨t, r, ht, hr, -, hval⟩ := read_some hd
      have hread := h.each p hp hpatch d hd
      rcases hw.get t with hsame | ⟨⟨p', hp', hh⟩, -⟩
      · rw [hw.read ht (hsame.trans hr), ← hm, hval] at hread
        exact hne (Option.some.inj hread).symm
      · -- a record that reads the same row is noticed as well
        have := (hmem.1 hp').2
        rw [← noticed_holder hh, noticed_holder ht] at this
        exact hno this
    have hback : ∀ p ∈ found, s.noticed kvs p = true → s.Patches kvs p := by
      intro p hp hn
      have himp := countP_eq_imp (fun p hp hpatch => hnot p hp (of_decide_eq_true hpatch)) (hlenps.symm.trans h.count)
      exact of_decide_eq_true (himp p hp hn)
    intro p hp
    refine ⟨⟨hback p hp, hnot p hp⟩, fun hn => ⟨htop p (hmem.2 ⟨hp, hn⟩), ?_⟩⟩
    intro t ht
    by_contra htf
    obtain ⟨d, hd, hm, hne, hno⟩ := (hback p hp hn).merged
    obtain ⟨r, hr, hst⟩ := hw.done p (hmem.2 ⟨hp, hn⟩) hno t ht
    have hrest := h.rest t fun hc => htf hc.1
    dsimp only at hrest
    rw [hst, hr] at hrest
    have hval : s.mergedAt kvs t = r.val := congrArg Rec.val (Option.some.inj hrest)
    obtain ⟨t', r', ht', hr', -, hval'⟩ := read_some hd
    obtain rfl := Option.some.inj (ht.symm.trans ht')
    obtain rfl := Option.some.inj (hr.symm.trans hr')
    rw [mergedAt_holder ht, hval'] at hval
    exact hne hval
  · intro h
    have hw := hwrites fun p hp => ((h p (hmem.1 hp).1).2 (hmem.1 hp).2).1
    refine ⟨?_, ?_, ?_⟩
    · intro p hp hpatch d hd
      obtain ⟨d', hd', hm, -, hno⟩ := hpatch.merged
      obtain ⟨t, -, ht, -⟩ := read_some hd
      obtain ⟨r, -, hst⟩ := hw.done p (hmem.2 ⟨hp, (h p hp).1.2 hpatch⟩) hno t ht
      have hread := hw.read ht hst
      rw [mergedAt_holder ht, mergedAt_of_read hd] at hread
      exact hread
    · intro p hno
      rcases hw.get p with hsame | ⟨⟨p', hp', hh⟩, -⟩
      · exact hsame
      · obtain ⟨hpf', hn'⟩ := hmem.1 hp'
        have hpf : p ∈ found := ((h p' hpf').2 hn').2 p hh
        have hn : s.noticed kvs p = true := by rwa [noticed_holder hh]
        exact absurd ⟨hpf, (h p hpf).1.1 hn⟩ hno
    · dsimp only
      rw [hlenps]
      refine List.countP_congr fun p hp => ?_
      rw [(h p hp).1, decide_eq_true_iff]

/-! ## Deletions -/

/-- A record that may be deleted. -/
def Unlocked (s : Records) (q : RecPath) : Prop := ∃ r, s.get? q = some r ∧ has r.flags DELETE_LOCK_MASK = false

theorem get_fDelete_other {key : Key} (h : q ≠ [key]) : (s.fDelete key).get? q = s.get? q := by
  unfold fDelete
  split
  · rfl
  · split
    · rfl
    · rw [OrdDict.get?_pop, if_neg h]

theorem get_fDelete_locked {key : Key} (h : ¬ s.Unlocked [key]) : (s.fDelete key).get? [key] = s.get? [key] := by
  unfold fDelete
  split
  · rfl
  · rename_i r hr
    split
    · rfl
    · rename_i hl
      exact absurd ⟨r, hr, by simpa using hl⟩ h

theorem get_fDelete_unlocked {key : Key} (h : s.Unlocked [key]) : (s.fDelete key).get? [key] = none := by
  obtain ⟨r, hr, hl⟩ := h
  unfold fDelete
  rw [hr]
  dsimp only
  rw [hl, if_neg (by simp), OrdDict.get?_pop, if_pos rfl]

/-- **All deletions**: what is named and not locked is gone, the others are as they were. -/
theorem get_foldl_fDelete (keys : List Key) (s : Records) (q : RecPath) :
    ((∃ k ∈ keys, q = [k]) ∧ s.Unlocked q → (keys.foldl fDelete s).get? q = none) ∧
    (¬ ((∃ k ∈ keys, q = [k]) ∧ s.Unlocked q) → (keys.foldl fDelete s).get? q = s.get? q) := by
  induction keys generalizing s with
  | nil => exact ⟨fun h => by simp at h, fun _ => rfl⟩
  | cons k keys ih =>
    rw [List.foldl_cons]
    obtain ⟨hgone, hsame⟩ := ih (s.fDelete k)
    by_cases hq : q = [k]
    · by_cases hu : s.Unlocked q
      · have hnone : (s.fDelete k).get? q = none := by
          rw [hq] at hu ⊢
          exact get_fDelete_unlocked hu
        have hlocked : ¬ (s.fDelete k).Unlocked q := by
          rintro ⟨r, hr, -⟩
          rw [hnone] at hr
          cases hr
        refine ⟨fun _ => ?_, fun hno => absurd ⟨⟨k, List.mem_cons_self .., hq⟩, hu⟩ hno⟩
        rw [hsame fun hc => hlocked hc.2, hnone]
      · have hget : (s.fDelete k).get? q = s.get? q := by
          rw [hq] at hu ⊢
          exact get_fDelete_locked hu
        have hlocked : ¬ (s.fDelete k).Unlocked q := by
          unfold Unlocked at hu ⊢
          rwa [hget]
        refine ⟨fun hc => absurd hc.2 hu, fun _ => ?_⟩
        rw [hsame fun hc => hlocked hc.2, hget]
    · have hget : (s.fDelete k).get? q = s.get? q := get_fDelete_other hq
      have hiff : (∃ k' ∈ k :: keys, q = [k']) ∧ s.Unlocked q ↔ (∃ k' ∈ keys, q = [k']) ∧ (s.fDelete k).Unlocked q := by
        unfold Unlocked
        rw [hget, List.exists_mem_cons_iff, or_iff_right hq]
      rw [hiff, ← hget]
      exact ⟨hgone, hsame⟩

theorem isDict_iff : s.isDict p = true ↔ ∃ d, s.read p = some (.dict d) := by
  unfold isDict
  constructor
  · intro h
    split at h
    · exact ⟨_, ‹_›⟩
    · cases h
  · rintro ⟨d, hd⟩
    rw [hd]

theorem deletes_iff : s.Deletes p ↔ s.isDict p = true ∧ s.Unlocked p := by
  rw [isDict_iff]
  constructor
  · rintro ⟨d, r, hd, hr, hl⟩
    exact ⟨⟨d, hd⟩, r, hr, hl⟩
  · rintro ⟨⟨d, hd⟩, r, hr, hl⟩
    exact ⟨d, r, hd, hr, hl⟩

/-- **A deletion reaches just what was found** when that are records of the database itself. -/
theorem deleted_iff (hs : s.WellNamed) (hf : ∀ p ∈ found, s.contains p = true) :
    s.Deleted found (s.updateIf found fun _ _ => .none) ↔ s.Updatable found none := by
  classical
  rw [updateIf_none]
  obtain ⟨keys, hkeys⟩ : ∃ keys, keys = ((found.filter s.isDict).map pathName).filter fun key => s.contains [key] :=
    ⟨_, rfl⟩
  rw [← hkeys]
  -- the names that the key table has are those of its own records
  have hmem : ∀ p ∈ found, (∃ k ∈ keys, p = [k]) ↔ s.isDict p = true ∧ p.length = 1 := by
    intro p hp
    constructor
    · rintro ⟨k, hk, rfl⟩
      rw [hkeys] at hk
      obtain ⟨p', hp', rfl⟩ := List.mem_map.1 (List.mem_filter.1 hk).1
      obtain ⟨hpf', hd'⟩ := List.mem_filter.1 hp'
      have hlen := (hs.contains_name (hf p' hpf')).1 (List.mem_filter.1 hk).2
      obtain ⟨k', rfl⟩ := List.length_eq_one_iff.1 hlen
      rw [pathName_one]
      exact ⟨hd', rfl⟩
    · rintro ⟨hd, hlen⟩
      obtain ⟨k, rfl⟩ := List.length_eq_one_iff.1 hlen
      refine ⟨k, ?_, rfl⟩
      rw [hkeys]
      refine List.mem_filter.2 ⟨List.mem_map.2 ⟨[k], List.mem_filter.2 ⟨hp, hd⟩, pathName_one k⟩, hf _ hp⟩
  have hfound : ∀ p, (∃ k ∈ keys, p = [k]) → p ∈ found := by
    rintro p ⟨k, hk, rfl⟩
    rw [hkeys] at hk
    obtain ⟨p', hp', rfl⟩ := List.mem_map.1 (List.mem_filter.1 hk).1
    have hpf' := (List.mem_filter.1 hp').1
    have hlen := (hs.contains_name (hf p' hpf')).1 (List.mem_filter.1 hk).2
    obtain ⟨k', rfl⟩ := List.length_eq_one_iff.1 hlen
    rwa [pathName_one]
  have hlen : keys.length = found.countP fun p => decide (s.isDict p = true ∧ p.length = 1) := by
    rw [hkeys, List.filter_map, List.length_map, List.filter_filter, ← List.countP_eq_length_filter]
    refine List.countP_congr fun p hp => ?_
    rw [Bool.and_eq_true, decide_eq_true_iff, and_comm, and_congr_right_iff]
    exact fun _ => hs.contains_name (hf p hp)
  have hgone := get_foldl_fDelete keys s
  constructor
  · intro h
    have htop : ∀ p ∈ found, s.Deletes p → s.isDict p = true ∧ p.length = 1 := by
      intro p hp hdel
      by_contra hno
      have hnone := h.each p hp hdel
      obtain ⟨-, r, hr, -⟩ := deletes_iff.1 hdel
      dsimp only at hnone
      rw [(hgone p).2 fun hc => hno ((hmem p hp).1 hc.1), hr] at hnone
      cases hnone
    have hback : ∀ p ∈ found, (s.isDict p = true ∧ p.length = 1) → s.Deletes p := by
      intro p hp hl
      have himp := countP_eq_imp (fun p hp hdel => decide_eq_true (htop p hp (of_decide_eq_true hdel)))
        (hlen.symm.trans h.count)
      exact of_decide_eq_true (himp p hp (decide_eq_true hl))
    intro p hp d r hd hr
    have hdict : s.isDict p = true := isDict_iff.2 ⟨d, hd⟩
    constructor
    · intro hl
      obtain ⟨-, r', hr', hun⟩ := deletes_iff.1 (hback p hp ⟨hdict, hl⟩)
      obtain rfl := Option.some.inj (hr.symm.trans hr')
      exact hun
    · intro hun
      exact (htop p hp ⟨d, r, hd, hr, hun⟩).2
  · intro h
    have hiff : ∀ p ∈ found, s.Deletes p ↔ s.isDict p = true ∧ p.length = 1 := by
      intro p hp
      rw [deletes_iff, and_congr_right_iff]
      intro hdict
      obtain ⟨d, hd⟩ := isDict_iff.1 hdict
      obtain ⟨r, hr⟩ := Option.isSome_iff_exists.1 (hf p hp)
      rw [h p hp d r hd hr]
      constructor
      · rintro ⟨r', hr', hun⟩
        obtain rfl := Option.some.inj (hr.symm.trans hr')
        exact hun
      · exact fun hun => ⟨r, hr, hun⟩
    refine ⟨?_, ?_, ?_⟩
    · intro p hp hdel
      exact (hgone p).1 ⟨(hmem p hp).2 ((hiff p hp).1 hdel), (deletes_iff.1 hdel).2⟩
    · intro p hno
      refine (hgone p).2 fun hc => hno ?_
      have hp := hfound p hc.1
      exact ⟨hp, (hiff p hp).2 ((hmem p hp).1 hc.1)⟩
    · dsimp only
      rw [hlen]
      refine List.countP_congr fun p hp => ?_
      rw [decide_eq_true_iff, decide_eq_true_iff, hiff p hp]

/-- **`update_if` patches and deletes exactly what matches** just when what is to be written are records of the
database itself, whose flags allow it, and `==` tells where the patch makes another value. -/
theorem updateIf_iff (s : Records) (found : List RecPath) (patch : Option (List (PyVal × PyVal))) (hs : s.WellNamed)
    (hf : ∀ p ∈ found, s.contains p = true) :
    s.Updated found (s.updateIf found fun _ _ => patchArg patch) patch ↔ s.Updatable found patch := by
  cases patch with
  | none => exact deleted_iff hs hf
  | some kvs => exact patched_iff hs hf

/-- One record with one entry. -/
def oneRec (p : RecPath) : Records := OrdDict.empty.set p ⟨.dict [(.str ['a'], .str ['x'])], 0, none⟩

theorem oneRec_contains : (oneRec p).contains q = true ↔ q = p := by
  rw [oneRec, contains_set]
  exact or_iff_left (by simp [OrdDict.contains, OrdDict.get?, OrdDict.empty])

theorem oneRec_get {r : Rec} (h : (oneRec p).get? q = some r) : r = ⟨.dict [(.str ['a'], .str ['x'])], 0, none⟩ := by
  rw [oneRec, OrdDict.get?_set] at h
  split at h
  · exact (Option.some.inj h).symm
  · simp [OrdDict.get?, OrdDict.empty] at h

/-- A patch of its entry takes effect on a record without flags. -/
theorem oneRec_patches (p : RecPath) : (oneRec p).Patches [(.str ['a'], .str ['y'])] p := by
  have hmerged : patchDict [(.str ['a'], .str ['y'])] [(.str ['a'], .str ['x'])] = [(.str ['a'], .str ['y'])] := by
    with_unfolding_all rfl
  have hget : (oneRec p).get? p = some ⟨.dict [(.str ['a'], .str ['x'])], 0, none⟩ := by
    rw [oneRec, OrdDict.get?_set, if_pos rfl]
  have hread : (oneRec p).read p = some (.dict [(.str ['a'], .str ['x'])]) := by
    unfold read
    rw [holder_self hget rfl, Option.bind_some, hget]
    rfl
  refine ⟨_, hread, ?_, ?_⟩
  · rw [hmerged]
    simp
  · intro hrefuses
    rcases hrefuses with ⟨r, hr, hflag⟩ | ⟨t, r, -, hr, href⟩
    · rw [oneRec_get hr] at hflag
      cases hflag
    · rw [oneRec_get hr] at href
      cases href

/-- A record of the database itself takes a patch. -/
theorem updateIf_own : (oneRec [['r']]).Updated [[['r']]]
    ((oneRec [['r']]).updateIf [[['r']]] fun _ _ => patchArg (some [(.str ['a'], .str ['y'])]))
    (some [(.str ['a'], .str ['y'])]) := by
  refine (updateIf_iff _ _ _ ?_ ?_).2 ?_
  · intro p hp
    rw [oneRec_contains.1 hp]
    exact ⟨List.cons_ne_nil _ _, by decide⟩
  · intro p hp
    exact oneRec_contains.2 (List.mem_singleton.1 hp)
  · intro p hp
    obtain rfl := List.mem_singleton.1 hp
    have hnoticed : (oneRec [['r']]).noticed [(.str ['a'], .str ['y'])] [['r']] = true := by with_unfolding_all rfl
    refine ⟨iff_of_true hnoticed (oneRec_patches _), fun _ => ⟨rfl, fun t ht => ?_⟩⟩
    obtain rfl := Option.some.inj ht
    exact hp

/-- A record in a group: its name becomes a key of the database, and the record stays as it was. -/
theorem updateIf_inGroup : (oneRec [['g'], ['r']]).WellNamed ∧
    (oneRec [['g'], ['r']]).Patches [(.str ['a'], .str ['y'])] [['g'], ['r']] ∧
    ((oneRec [['g'], ['r']]).updateIf [[['g'], ['r']]] fun _ _ => .dict [(.str ['a'], .str ['y'])]).2.contains
      ["g:::r".toList] = true ∧
    ¬ (oneRec [['g'], ['r']]).Updated [[['g'], ['r']]]
      ((oneRec [['g'], ['r']]).updateIf [[['g'], ['r']]] fun _ _ => .dict [(.str ['a'], .str ['y'])])
      (some [(.str ['a'], .str ['y'])]) := by
  have hnew : ((oneRec [['g'], ['r']]).updateIf [[['g'], ['r']]] fun _ _ => .dict [(.str ['a'], .str ['y'])]).2.contains
      ["g:::r".toList] = true := by with_unfolding_all rfl
  refine ⟨?_, oneRec_patches _, hnew, ?_⟩
  · intro p hp
    rw [oneRec_contains.1 hp]
    exact ⟨List.cons_ne_nil _ _, by decide⟩
  · intro h
    have hget := h.rest ["g:::r".toList] fun hc => by simpa using hc.1
    rw [OrdDict.contains, hget] at hnew
    cases hnew

end Records

end OmniJsonDb
