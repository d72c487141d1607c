import OmniJsonDb.Proof.Index

/-!
# The records a call touches

A call leaves every live record alone that it does not name; writing a link may touch any.

* `Leaves`: what stays.
* `CleanStep.does`: any call.
-/

namespace OmniJsonDb

variable {γ : Type} {V : RowView γ} {cfg : Config} {v v' v'' : DbView γ} {key : Key} {env : Env} {flags : ℕ}

/-- The records of all keys but those of `K` are kept with their values, the clock is the old one
or that of the call, and nothing is queued. -/
structure Leaves (V : RowView γ) (env : Env) (K : Key → Prop) (v v' : DbView γ) : Prop where
  content : ∀ k, ¬ K k → v'.content V k = v.content V k
  now : v'.now = v.now ∨ v'.now = env.minute
  expired : v'.expired = v.expired

namespace Leaves

variable {K K' : Key → Prop}

theorem record (h : Leaves V env K v v') {k : Key} (hk : ¬ K k) : v'.record k = v.record k := by
  rw [DbView.record_eq_content V, h.content k hk, ← DbView.record_eq_content]

theorem refl (env : Env) (K : Key → Prop) (v : DbView γ) : Leaves V env K v v := ⟨fun _ _ => rfl, .inl rfl, rfl⟩

theorem trans (h : Leaves V env K v v') (h' : Leaves V env K v' v'') : Leaves V env K v v'' where
  content k hk := (h'.content k hk).trans (h.content k hk)
  now := by
    rcases h'.now with h₂ | h₂
    · rw [h₂]; exact h.now
    · exact .inr h₂
  expired := h'.expired.trans h.expired

theorem mono (h : Leaves V env K v v') (hK : ∀ k, K k → K' k) : Leaves V env K' v v' :=
  ⟨fun k hk => h.content k fun hk' => hk (hK k hk'), h.now, h.expired⟩

theorem clock {now : ℕ} (h : now = v.now ∨ now = env.minute) (K : Key → Prop) :
    Leaves V env K v { v with now := now } := ⟨fun _ _ => rfl, h, rfl⟩

end Leaves

namespace DbView

/-- Nothing is queued, and the clock is not moved, by an update of the index. -/
theorem Takes.session {enc : Enc} {sp : JDb.Space} (ht : Takes V cfg key flags v enc sp v') :
    v'.now = v.now ∧ v'.expired = v.expired := by
  have hreuse : ∀ {h req d : ℕ} {p : Place} {u w : DbView γ}, Reuse V h req u d p w →
      w.now = u.now ∧ w.expired = u.expired := by
    intro h req d p u w hr
    cases hr <;> exact ⟨rfl, rfl⟩
  cases ht with
  | headNew => exact ⟨rfl, rfl⟩
  | headDead hr =>
    obtain ⟨h₁, h₂⟩ := hreuse hr
    exact ⟨h₁, h₂⟩
  | valueNew => exact ⟨rfl, rfl⟩
  | valueDead _ hr =>
    obtain ⟨h₁, h₂⟩ := hreuse hr
    exact ⟨h₁, h₂⟩

theorem Effect.session (he : Effect V cfg key flags v v') : v'.now = v.now ∧ v'.expired = v.expired := by
  cases he with
  | park _ _ ht => exact ht.session
  | add _ ht => exact ht.session
  | @append enc _ _ _ _ _ hv =>
    cases enc with
    | head => obtain ⟨-, rfl⟩ := hv; exact ⟨rfl, rfl⟩
    | value => obtain ⟨_, -, -, -, -, -, rfl⟩ := hv; exact ⟨rfl, rfl⟩
  | @undelete d =>
    have hroom : (v.undeleteRoom key flags d).now = v.now ∧ (v.undeleteRoom key flags d).expired = v.expired := by
      unfold undeleteRoom
      split
      · simp only
        split <;> exact ⟨rfl, rfl⟩
      · exact ⟨rfl, rfl⟩
    exact hroom
  | _ => exact ⟨rfl, rfl⟩

theorem Effects.leaves (h : v.Good V) (he : Effects V cfg key flags v v') :
    Leaves V env (· = key) v v' := by
  refine ⟨fun k hk => he.content h hk, .inl ?_, ?_⟩
  all_goals
    induction he with
    | refl => rfl
    | tail _ he ih => first | exact he.session.1.trans ih | exact he.session.2.trans ih

end DbView

namespace JDb

open DbView (Effects)

theorem Wrote.leaves {val : PyVal} {a : WriteArgs} {b : Bool} (h : v.Good V)
    (hw : Wrote V cfg env key val a v b v') : Leaves V env (· = key) v v' := by
  obtain ⟨now, hor, he⟩ := Writes.effects hw
  exact (Leaves.clock hor _).trans (Effects.leaves (h.clock now) he)

/-- What writing `key` may touch: the record of the key, and any other one through a link. -/
def Writable (V : RowView γ) (v : DbView γ) (key k : Key) : Prop := k = key ∨ IsLink V key v

theorem WroteAny.leaves {val : PyVal} {a : WriteArgs} {b : Bool} (h : v.Good V)
    (hw : WroteAny V cfg env key val a v b v') : Leaves V env (Writable V v key) v v' := by
  rcases hw with hw | ⟨path, hl, rfl | ⟨name, -, -, -, hw⟩⟩
  · exact (hw.leaves h).mono fun _ hk => .inl hk
  · exact .refl ..
  · exact (hw.leaves h).mono fun _ _ => .inr hl.isLink

/-- What deleting `key` may touch: its record, or that of the row it was given instead. -/
def Deletable (key : Key) (given : Option ℕ) (k : Key) : Prop := k = key ∨ key = [] ∧ given ≠ none

theorem Deletes.leaves {given : Option ℕ} {d : Deleted} (h : v.Good V)
    (hd : Deletes V key given flags v d v') : Leaves V env (Deletable key given) v v' := by
  cases hd with
  | locked => exact .refl ..
  | @gone row old moved val hrow hold hmoved hkey =>
    refine ⟨fun k hk => DbView.content_of_vals rfl (DbView.deleteAt_record h.keyed hrow ?_), .inl rfl, rfl⟩
    rintro rfl
    refine hk ?_
    rcases hkey with ⟨hkey, hrow⟩ | hkey
    exacts [.inr ⟨hkey, by rw [hrow]; exact fun h => nomatch h⟩, .inl hkey]

/-- A record that was deleted is no link. -/
theorem Deletes.not_link {d : Deleted} (hd : Deletes V key none flags v d v')
    (hl : IsLink V key v') : IsLink V key v := by
  cases hd with
  | locked => exact hl
  | @gone row old moved val hrow hold hmoved hkey =>
    obtain ⟨r, o, hr, -, -⟩ := hl
    have hkey : old.key = key := by
      rcases hkey with ⟨-, hkey⟩ | hkey
      · cases hkey
      · exact hkey
    have := hr.1
    rw [DbView.rowOf_deleteAt, if_pos hkey.symm] at this
    cases this

theorem Links.leaves {target : Key} {b : Bool} (h : v.Good V) (hl : Links V cfg env key target v b v') :
    Leaves V env (Writable V v key) v v' := by
  cases hl with
  | same => exact .refl ..
  | @write v₁ v₂ _ a _ _ hd _ _ hw hr =>
    have hd' : v₁.Good V ∧ Leaves V env (Writable V v key) v v₁ ∧ (IsLink V key v₁ → IsLink V key v) := by
      rcases hd with rfl | ⟨d, hd⟩
      · exact ⟨h, .refl .., id⟩
      · refine ⟨Moved.good h (hd.moved cfg), (hd.leaves h).mono ?_, hd.not_link⟩
        rintro k (hk | ⟨-, hk⟩)
        exacts [.inl hk, absurd rfl hk]
    obtain ⟨hg₁, hl₁, hlink⟩ := hd'
    have hw₁ : Leaves V env (Writable V v key) v₁ v₂ := (hw.leaves hg₁).mono fun k => Or.imp id hlink
    refine (hl₁.trans hw₁).trans ?_
    rcases hr with ⟨-, rfl⟩ | ⟨-, hr⟩
    · exact .refl ..
    · exact (Effects.leaves (Moved.good hg₁ hw.moved) (hr.effects cfg 0)).mono
        fun k hk => .inl hk

theorem Renames.leaves {newKey : Key} {b : Bool} (h : v.Good V) (hr : Renames V key newKey v b v') :
    Leaves V env (fun k => k = key ∨ k = newKey) v v' := by
  cases hr with
  | same => exact .refl ..
  | renamed hrow hnew hold =>
    refine ⟨fun k hk => ?_, .inl rfl, rfl⟩
    rw [not_or] at hk
    exact DbView.content_of_vals rfl (DbView.renameAt_record h.keyed hrow hk.1 hk.2)

theorem Unmodifies.leaves {version : Option ℕ} {o : Option Restored} (h : v.Good V)
    (hu : Unmodifies V key version v o v') : Leaves V env (· = key) v v' := by
  cases hu with
  | none => exact .refl ..
  | back _ _ hu => exact Effects.leaves h (hu.effects jsonCfg 0)

theorem Reverts.leaves {version : Option ℕ} {o : Option Restored} (h : v.Good V)
    (hu : Reverts V cfg key version v o v') : Leaves V env (· = key) v v' := by
  cases hu with
  | none => exact .refl ..
  | unwrite _ _ hu => exact Effects.leaves h (hu.effects cfg 0)
  | undelete _ _ hu => exact Effects.leaves h (hu.effects cfg)

end JDb

/-- The keys a call names as those of records it may change. -/
def Call.Names (V : RowView γ) (v : DbView γ) : Call → Key → Prop
  | .opened | .closed | .read .. => fun _ => False
  | .write key .. | .append key .. | .setLink key _ => JDb.Writable V v key
  | .delete key _ row .. => JDb.Deletable key row
  | .rename key newKey => fun k => k = key ∨ k = newKey
  | .undelete key .. | .unwrite key _ | .writeKeyFlags key .. | .setDate key .. | .unmodify key _
  | .revert key _ => fun k => k = key

/-- What a call does to the records, the clock and the queue. -/
def Call.Does (V : RowView γ) (cfg : Config) (env : Env) (v v' : DbView γ) : Call → Prop
  | .opened => v' =
      { v with now := env.minute, safeLine := v.cnt.nRecords, chgKeys := ∅, expired := [] }
  | .closed => JDb.Closes V cfg v v'
  | .read .. => JDb.Looks V env v v'
  | c => Leaves V env (c.Names V v) v v'

variable {db db' : JDb}

/-- **Any call** leaves the records alone that it does not name; closing a session deletes. -/
theorem wp_exec_does (hc : cfg.Keeps V) (h : db.Good V cfg) (env : Env) (c : Call) (hl : c.RowsLive db) :
    Exec.Wp (c.exec cfg env) db
      (fun _ db' => db'.Good V cfg ∧ c.Does V cfg env (db.view V) (db'.view V)) (fun _ _ => True) := by
  have hk := h.index
  cases c with
  | opened => exact Exec.wp_map.2 (JDb.wp_openSession h env)
  | closed => exact Exec.wp_map.2 (JDb.wp_closeSession hc h env)
  | read key row kf => exact Exec.wp_map.2 (JDb.wp_fRead h env key row kf hl)
  | write key val a =>
    refine Exec.wp_map.2 (Exec.wp_mono (JDb.wp_fWrite hc h env key val a) ?_ fun _ _ h' => h')
    rintro b db' ⟨h', hw⟩
    exact ⟨h', JDb.WroteAny.leaves hk hw⟩
  | append key val ttl kf =>
    refine Exec.wp_map.2 (Exec.wp_mono (JDb.wp_fAppend hc h) ?_ fun _ _ h' => h')
    rintro b db' ⟨h', ⟨-, hv⟩ | ⟨-, ha⟩ | hw⟩
    · exact ⟨h', hv ▸ .refl ..⟩
    · exact ⟨h', (DbView.Effects.leaves hk ha.effects).mono fun k hk => .inl hk⟩
    · exact ⟨h', JDb.WroteAny.leaves hk hw⟩
  | delete key rv row fl kf =>
    refine Exec.wp_map.2 (Exec.wp_mono (JDb.wp_fDelete hc h env key rv row fl kf hl) ?_ fun _ _ _ => trivial)
    rintro d db' ⟨h', hd⟩
    exact ⟨h', hd.leaves hk⟩
  | undelete key row fl =>
    refine Exec.wp_map.2 (Exec.wp_mono (JDb.wp_fUndelete hc h key row fl) ?_ fun _ _ h' => h')
    rintro o db' ⟨h', hu⟩
    exact ⟨h', DbView.Effects.leaves hk (hu.effects cfg)⟩
  | unwrite key row =>
    refine Exec.wp_map.2 (Exec.wp_mono (JDb.wp_fUnwrite hc h key row) ?_ fun _ _ h' => h')
    rintro o db' ⟨h', hu⟩
    exact ⟨h', DbView.Effects.leaves hk (hu.effects cfg 0)⟩
  | rename key newKey =>
    refine Exec.wp_map.2 (Exec.wp_mono (JDb.wp_fRename hc h key newKey) ?_ fun _ _ h' => h')
    rintro b db' ⟨h', hr⟩
    exact ⟨h', hr.leaves hk⟩
  | writeKeyFlags key fl ttl md =>
    refine Exec.wp_map.2 (Exec.wp_mono (JDb.wp_fWriteKeyFlags hc h key fl ttl md) ?_ fun _ _ h' => h')
    rintro b db' ⟨h', hr⟩
    exact ⟨h', DbView.Effects.leaves hk (hr.effects cfg 0)⟩
  | setDate key cd md ttl =>
    refine Exec.wp_map.2 (Exec.wp_mono (JDb.wp_setDate hc h key cd md ttl) ?_ fun _ _ h' => h')
    rintro b db' ⟨h', hd⟩
    exact ⟨h', DbView.Effects.leaves hk (hd.effects cfg 0)⟩
  | setLink key target =>
    refine Exec.wp_map.2 (Exec.wp_mono (JDb.wp_setLink hc h env key target) ?_ fun _ _ h' => h')
    rintro b db' ⟨h', hd⟩
    exact ⟨h', hd.leaves h.index⟩
  | unmodify key ver =>
    refine Exec.wp_map.2 (Exec.wp_mono (JDb.wp_unmodify hc h key ver) ?_ fun _ _ h' => h')
    rintro o db' ⟨h', hu⟩
    exact ⟨h', hu.leaves hk⟩
  | revert key ver =>
    refine Exec.wp_map.2 (Exec.wp_mono (JDb.wp_revert hc h key ver) ?_ fun _ _ h' => h')
    rintro o db' ⟨h', hu⟩
    exact ⟨h', hu.leaves hk⟩

theorem CleanStep.does {p : Row → KeyRec → ℕ → Bool} {l : Label} (hk : (cfg.refusing p).Keeps V)
    (h : db.Good V (cfg.refusing p)) (hs : CleanStep cfg p db l db') :
    db'.Good V (cfg.refusing p) ∧ l.2.Does V (cfg.refusing p) l.1 (db.view V) (db'.view V) := by
  obtain ⟨ret, hrun⟩ := hs.step.accepted hs.accepted
  exact (wp_exec_does hk h l.1 l.2 hs.live).ok hrun

end OmniJsonDb
