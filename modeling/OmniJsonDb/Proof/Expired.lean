import OmniJsonDb.Proof.RowCache
import OmniJsonDb.Proof.Touched

/-!
# Which records closing a session deletes

`f_read` queues the records it finds expired, and `f_drop_expired` deletes what is queued
when the session ends.

* `dropExpired_of_runs`: whatever goes has run out, unless a queued record was renewed.
* `dropExpired_fails`: a record that was renewed goes.
-/

namespace OmniJsonDb

open JDb (LiveAt isExpired)

variable {cfg : Config} {db db' : JDb} {t t' : ℕ}

/-- What has run out stays so. -/
theorem isExpired_mono {r : Row} {now live now' live' : ℕ} (hn : now ≤ now') (hl : live ≤ live')
    (h : isExpired now live r = true) : isExpired now' live' r = true := by
  unfold isExpired at h ⊢
  rw [Bool.and_eq_true] at h ⊢
  refine ⟨h.1, ?_⟩
  have hday := Nat.mul_le_mul_right MIN_OF_DAY (Nat.div_le_div_right (c := MIN_OF_DAY) hn)
  by_cases hlen : MIN_OF_DAY ≤ r.ttl.len
  · simp only [hlen, if_true, decide_eq_true_eq] at h ⊢
    omega
  · simp only [hlen, if_false, decide_eq_true_eq] at h ⊢
    omega

/-- The record of `k`, when there is one, has run out at minute `t`. -/
def RunOut (db : JDb) (k : Key) (t : ℕ) : Prop :=
  ∀ r, LiveAt db k r → isExpired t t (db.io.row r) = true

/-! ## Sessions with a clock -/

/-- What happens to a handle: its own calls, and whole write sessions of other handles, when it
has no lock or changes it, after which it loads the index again. -/
inductive Event where
  | call (l : Label)
  | others (minute : ℕ)

def Event.minute : Event → ℕ
  | .call l => l.1.minute
  | .others m => m

/-- Other handles may leave any good index; what this handle has queued stays. -/
structure Reloaded (cfg : Config) (db : JDb) (minute : ℕ) (db' : JDb) : Prop where
  good : db'.Good rowView (cfg.refusing (surviving cfg))
  expired : db'.expired = db.expired
  now : db'.io.now = minute

/-- The event may give a record another value or other dates. -/
def Event.Changes (db : JDb) : Event → Key → Prop
  | .call l, k => l.2.Names rowView (db.view rowView) k ∨ ∀ r, ¬ LiveAt db k r
  | .others _, _ => True

/-- An event at a time not before the last one, which **renews no queued record**: those that it
changes or brings back have run out afterwards. -/
structure SparingStep (cfg : Config) (s : JDb × ℕ) (e : Event) (s' : JDb × ℕ) : Prop where
  step : match e with
    | .call l => CleanStep cfg (surviving cfg) s.1 l s'.1
    | .others m => Reloaded cfg s.1 m s'.1
  clock : s.2 ≤ e.minute ∧ s'.2 = e.minute
  spares : ∀ q ∈ s'.1.expired, e.Changes s.1 q.2 → RunOut s'.1 q.2 s'.2

/-- Every queued record has run out. -/
structure QueueOk (cfg : Config) (s : JDb × ℕ) : Prop where
  good : s.1.Good rowView (cfg.refusing (surviving cfg))
  clock : s.1.io.now ≤ s.2
  out : ∀ q ∈ s.1.expired, RunOut s.1 q.2 s.2

/-- What the view says of a live record. -/
theorem record_liveAt {k : Key} {r : ℕ} (h : LiveAt db k r) :
    (db.view rowView).record k = some (db.io.row r) := DbView.record_at (v := db.view rowView) h

/-- A record that stays runs out as it would have. -/
theorem RunOut.of_record {k : Key} (ht : t ≤ t') (h : RunOut db k t)
    (hrec : (db'.view rowView).record k = (db.view rowView).record k) : RunOut db' k t' := by
  intro r' hr'
  rw [record_liveAt hr'] at hrec
  obtain ⟨r, hr, hrow⟩ := Option.map_eq_some_iff.1 hrec.symm
  have hrow : db.io.row r = db'.io.row r' := hrow
  rw [← hrow]
  exact isExpired_mono ht ht (h r hr)

/-- **A call keeps the queue right.** -/
theorem QueueOk.call {l : Label} {s s' : JDb × ℕ} (h : QueueOk cfg s) (hs : SparingStep cfg s (.call l) s') :
    QueueOk cfg s' := by
  obtain ⟨db, t⟩ := s
  obtain ⟨db', t'⟩ := s'
  obtain ⟨env, c⟩ := l
  obtain ⟨hstep, ⟨hclock, rfl⟩, hspare⟩ := hs
  dsimp only [Event.minute] at hstep hclock hspare ⊢
  have hnow : (db.view rowView).now ≤ env.minute := h.clock.trans hclock
  obtain ⟨hg', hd⟩ := hstep.does keeps_surviving h.good
  -- the records that the call does not name stay
  have leaves : Leaves rowView env (c.Names rowView (db.view rowView)) (db.view rowView) (db'.view rowView) →
      QueueOk cfg (db', env.minute) := by
    intro hl
    refine ⟨hg', ?_, fun q hq => ?_⟩
    · change (db'.view rowView).now ≤ env.minute
      rcases hl.now with hn | hn
      exacts [hn ▸ hnow, le_of_eq hn]
    · by_cases hc : Event.Changes db (.call (env, c)) q.2
      · exact hspare q hq hc
      · rw [show db'.expired = db.expired from hl.expired] at hq
        exact (h.out q hq).of_record hclock (hl.record (not_or.1 hc).1)
  have nothing : (db'.view rowView).expired = [] → (db'.view rowView).now ≤ env.minute →
      QueueOk cfg (db', env.minute) := by
    intro hq hn
    refine ⟨hg', hn, fun q hq' => ?_⟩
    rw [show db'.expired = [] from hq] at hq'
    cases hq'
  cases c with
  | opened =>
    have hd : db'.view rowView = _ := hd
    exact nothing (by rw [hd]) (by rw [hd])
  | closed =>
    obtain ⟨-, hd, hq⟩ := hd
    exact nothing hq ((le_of_eq hd.1.1).trans hnow)
  | read key row kf =>
    have hd : JDb.Looks rowView env (db.view rowView) (db'.view rowView) := hd
    generalize hv' : db'.view rowView = v' at hd
    have stay : ∀ k, v'.record k = (db.view rowView).record k := by intro k; cases hd <;> rfl
    have old : ∀ q ∈ db.expired, RunOut db' q.2 env.minute := fun q hq =>
      (h.out q hq).of_record hclock (hv' ▸ stay q.2)
    have hexp : db'.expired = v'.expired := hv' ▸ rfl
    have hclk : db'.io.now = v'.now := hv' ▸ rfl
    refine ⟨hg', ?_, ?_⟩
    · dsimp only
      rw [hclk]
      cases hd with
      | read hn => rcases hn with rfl | rfl; exacts [hnow, le_rfl]
      | queue _ _ hn _ => split at hn <;> subst hn; exacts [le_rfl, hnow]
    · dsimp only
      rw [hexp]
      cases hd with
      | read => exact old
      | @queue now r info hr hinfo hn hout =>
        intro q hq
        rcases List.mem_append.1 hq with hq | hq
        · exact old q hq
        · -- the record that was found expired
          rw [List.mem_singleton] at hq
          subst hq
          have hrec : (db'.view rowView).record info.key = some info := by
            have hat : (db.view rowView).rowOf info.key = some r :=
              (h.good.index.keyed.table _ _).2 ⟨hr, by rw [DbView.slot_eq hinfo]⟩
            rw [hv', stay, DbView.record_at hat, ← hinfo]
            rfl
          intro r' hr'
          rw [record_liveAt hr'] at hrec
          rw [Option.some.inj hrec]
          refine isExpired_mono ?_ le_rfl hout
          split at hn <;> subst hn
          exacts [le_rfl, hnow]
  | _ => exact leaves hd

/-- **An event keeps the queue right.** -/
theorem QueueOk.step {e : Event} {s s' : JDb × ℕ} (h : QueueOk cfg s) (hs : SparingStep cfg s e s') :
    QueueOk cfg s' := by
  cases e with
  | call l => exact h.call hs
  | others m =>
    obtain ⟨hg, he, hn⟩ := hs.step
    refine ⟨hg, ?_, fun q hq => hs.spares q hq trivial⟩
    rw [hn, hs.clock.2]
    exact le_rfl

/-- **What closing a session deletes**: after any run that renews no queued record, every record
that is gone once the session is closed had run out. -/
theorem dropExpired_of_runs {tr : List Event} {s : JDb × ℕ}
    (hr : Runs (SparingStep cfg) (JDb.init cfg, 0) tr s) {env : Env} (hclock : s.2 ≤ env.minute)
    (hs : CleanStep cfg (surviving cfg) s.1 (env, .closed) db') {k : Key} {r : ℕ}
    (hlive : LiveAt s.1 k r) (hgone : ∀ r', ¬ LiveAt db' k r') :
    isExpired env.minute env.minute (s.1.io.row r) = true := by
  have h : QueueOk cfg s := hr.invariant
    ⟨good_init _ _, Nat.zero_le _, fun _ hq => absurd hq List.not_mem_nil⟩ fun _ _ _ h hs => h.step hs
  obtain ⟨-, -, hd, -⟩ := hs.does keeps_surviving h.good
  rcases hd.2 k with hrec | ⟨-, r', hq⟩
  · rw [record_liveAt hlive] at hrec
    obtain ⟨r', hr', -⟩ := Option.map_eq_some_iff.1 hrec
    exact absurd hr' (hgone r')
  · exact isExpired_mono hclock hclock (h.out _ hq r hlive)

/-- A record with a lifetime of a minute, read a day later. -/
def queueCalls : List Label :=
  [({}, .opened), ({}, .write ['K'] (.int 5) { ttl := .span 60000000, flags := some 0 }), ({}, .closed),
    ({ ts := 86400 }, .opened), ({ ts := 86400 }, .read ['K'] none .none)]

/-- A run whose queued records have run out at every step, with what can be computed of its end. -/
def sparingCalls (cfg : Config) : List Label → JDb × ℕ → Option (JDb × ℕ)
  | [], s => some s
  | l :: ls, s =>
    match (l.2.exec cfg l.1).run s.1 with
    | (.ok _, db') =>
      if s.2 ≤ l.1.minute ∧ db'.expired.all (fun q => (db'.io.keyTable.get? q.2).all fun e =>
          isExpired l.1.minute l.1.minute (db'.io.row e.1)) then sparingCalls cfg ls (db', l.1.minute)
      else none
    | (.error _, _) => none

variable (cfg) in
theorem exists_sparingRuns (s : JDb × ℕ) (ls : List Label) {P : JDb × ℕ → Bool}
    (hp : (ls.all fun l => l.2.plain) = true)
    (h : (sparingCalls (cfg.refusing (surviving cfg)) ls s).any P = true) :
    ∃ s', Runs (SparingStep cfg) s (ls.map .call) s' ∧ P s' = true := by
  induction ls generalizing s with
  | nil => exact ⟨s, .refl, h⟩
  | cons l ls ih =>
    rw [List.all_cons, Bool.and_eq_true] at hp
    rw [sparingCalls] at h
    split at h
    · rename_i ret db' hrun
      split at h
      · rename_i hcheck
        obtain ⟨s', hr, hP⟩ := ih _ hp.2 h
        refine ⟨s', .head ⟨?_, ⟨hcheck.1, rfl⟩, fun q hq _ r hr => ?_⟩ hr, hP⟩
        · exact ⟨⟨ret, (within_exec l.1 l.2).ok hrun⟩, ⟨db', ret, hrun⟩, Call.plain_live hp.1 s.1⟩
        · have hq := List.all_eq_true.1 hcheck.2 q hq
          obtain ⟨e, he, rfl⟩ := Option.map_eq_some_iff.1 hr
          rw [he] at hq
          exact hq
      · cases h
    · cases h

/-- The record that was read is deleted, and had run out. -/
theorem dropExpired_queue : ∃ s db', Runs (SparingStep jsonCfg) (JDb.init jsonCfg, 0) (queueCalls.map .call) s ∧
    Step jsonCfg s.1 ({ ts := 86400 }, .closed) db' ∧ (∀ r, ¬ LiveAt db' ['K'] r) ∧
    isExpired 1440 1440 (s.1.io.row 0) = true := by
  obtain ⟨s, hr, h⟩ := exists_sparingRuns jsonCfg (JDb.init jsonCfg, 0) queueCalls
    (P := fun s => decide (s.2 ≤ 1440 ∧ (s.1.io.keyTable.get? ['K']).map Prod.fst = some 0) &&
      (match (Call.exec (jsonCfg.refusing (surviving jsonCfg)) { ts := 86400 } .closed).run s.1 with
        | (.ok _, db') => (db'.io.keyTable.get? ['K']).isNone
        | (.error _, _) => false)) (by decide) (by decide +kernel)
  rw [Bool.and_eq_true, decide_eq_true_eq] at h
  obtain ⟨⟨hclock, hlive⟩, h⟩ := h
  split at h
  · rename_i ret db' hrun
    have hgone : ∀ r, ¬ LiveAt db' ['K'] r := by
      intro r hr
      unfold LiveAt at hr
      rw [Option.isNone_iff_eq_none.1 h] at hr
      cases hr
    have hclean : CleanStep jsonCfg (surviving jsonCfg) s.1 ({ ts := 86400 }, .closed) db' :=
      ⟨⟨ret, (within_exec _ _).ok hrun⟩, ⟨db', ret, hrun⟩, trivial⟩
    have hnow : s.2 ≤ Env.minute { ts := 86400 } := hclock
    exact ⟨s, db', hr, hclean.step, hgone, dropExpired_of_runs hr hnow hclean hlive hgone⟩
  · cases h

/-- The record is written anew before the session is closed. -/
def renewCalls : List Label := queueCalls ++ [({ ts := 86400 }, .write ['K'] (.int 6) { flags := some 0 })]

/-- **A renewed record goes**: it was queued, then written anew, and is deleted all the same. -/
theorem dropExpired_fails : ∃ db db', Runs (Step jsonCfg) (JDb.init jsonCfg)
    renewCalls db ∧
    Step jsonCfg db ({ ts := 86400 }, .closed) db' ∧ LiveAt db ['K'] 0 ∧
    isExpired 1440 1440 (db.io.row 0) = false ∧ ∀ r, ¬ LiveAt db' ['K'] r := by
  obtain ⟨db, hr, h⟩ := exists_runs jsonCfg (JDb.init jsonCfg)
    renewCalls
    (P := fun db => decide ((db.io.keyTable.get? ['K']).map Prod.fst = some 0 ∧
        isExpired 1440 1440 (db.io.row 0) = false) &&
      (match (Call.exec jsonCfg { ts := 86400 } .closed).run db with
        | (.ok _, db') => (db'.io.keyTable.get? ['K']).isNone
        | (.error _, _) => false)) (by decide +kernel)
  rw [Bool.and_eq_true, decide_eq_true_eq] at h
  obtain ⟨⟨hlive, hexp⟩, h⟩ := h
  split at h
  · rename_i ret db' hrun
    refine ⟨db, db', hr, ⟨ret, hrun⟩, hlive, hexp, fun r hr => ?_⟩
    unfold LiveAt at hr
    rw [Option.isNone_iff_eq_none.1 h] at hr
    cases hr
  · cases h

end OmniJsonDb
