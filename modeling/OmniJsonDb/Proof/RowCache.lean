import OmniJsonDb.Proof.RowBytes

/-!
# The cache of rows

What `read_key` serves from its cache is what the bytes in the file decode to, after any
sequence of engine calls whose rows survive being stored, for every codec and layout.

* `rowCache_of_runs`: every row that is read is the stored one.
* `rowCache_fails`: a creation date that the minute layout drops.
-/

namespace OmniJsonDb

variable {cfg : Config} {db db' : JDb} {io io₀ io' : JIo} {c : KeyCodec} {l : Layout}

/-- A codec that only refuses rows that do not survive keeps whole rows. -/
theorem keeps_surviving : (cfg.refusing (surviving cfg)).Keeps rowView := by
  intro r k n h
  obtain ⟨hd, hs⟩ := refusing_ok h
  obtain ⟨hn, hs, hf⟩ := of_decide_eq_true hs
  exact ⟨hn, unpackRow_packRow hs hf (cfg.keyDumps_pack _ _ _ hd), hs⟩

/-! ## Engine calls -/

/-- A call on the engine; in between the handle sets the clock and counts. -/
inductive IoCall where
  | clock (now : ℕ)
  | count (cnt : Counters)
  | write (r : ℕ) (a : KeyArgs)
  | read (r : ℕ)
  | copy (src dst : ℕ)

def IoCall.exec (cfg : Config) : IoCall → IoM Unit
  | .clock now => Exec.modify fun io => { io with now := now }
  | .count cnt => Exec.modify fun io => { io with cnt := cnt }
  | .write r a => (fun _ => ()) <$> JIo.writeKey cfg r a
  | .read r => (fun _ => ()) <$> JIo.readKey r
  | .copy src dst => (fun _ => ()) <$> JIo.copyKey src dst

/-- The index never loses the lines there are. -/
def IoCall.Grows (io : JIo) : IoCall → Prop
  | .count cnt => max io.cnt.nRecords io.cnt.nLines ≤ max cnt.nRecords cnt.nLines
  | _ => True

/-- An engine call that returns. -/
def IoStep (cfg : Config) (io : JIo) (c : IoCall) (io' : JIo) : Prop :=
  c.Grows io ∧ (c.exec cfg).run io = (.ok (), io')

/-- The engine with codec `c` in layout `l`, and the one that refuses the rows that do not survive. -/
abbrev Config.strict (cfg : Config) (c : KeyCodec) (l : Layout) : Config :=
  (cfg.coded c l).refusing (storing (cfg.coded c l) l)

/-- An engine call all of whose rows survive. -/
def CleanIoStep (cfg : Config) (c : KeyCodec) (l : Layout) (io : JIo) (call : IoCall) (io' : JIo) : Prop :=
  IoStep (cfg.coded c l) io call io' ∧ ∃ io'', IoStep (cfg.strict c l) io call io''

/-- An engine that has just opened a file of rows that are kept. -/
structure JIo.Fresh (cfg : Config) (c : KeyCodec) (l : Layout) (io : JIo) : Prop where
  keyRows : io.keyRows = OrdDict.empty
  deadRows : io.deadRows = OrdDict.empty
  kept : io.AllStored (KeyRec.Kept c l)
  wide : cfg.initIndexSize ≤ io.indexSize

theorem KeyRec.Kept.settled {k : KeyRec} (h : k.Kept c l) : (unpackRow k).Settled := by
  obtain ⟨r, hpack, hs, hd, -⟩ := h
  rwa [unpackRow_packRow hs hd hpack]

theorem JIo.Fresh.ok (h : io.Fresh cfg c l) : JIo.Ok rowView (cfg.strict c l) io where
  keyRows r row hr := by rw [h.keyRows] at hr; cases hr
  deadRows r p hr := by rw [h.deadRows] at hr; cases hr
  fixed r := (h.kept r).settled
  wide := h.wide
  known r row hr := by rw [h.keyRows] at hr; cases hr

/-- A codec that only refuses rows that do not survive keeps whole rows. -/
theorem keeps_storing : (cfg.strict c l).Keeps rowView := by
  intro r k n h
  have hkeeps : ((cfg.coded c l).refusing (surviving (cfg.coded c l))).Keeps rowView := keeps_surviving
  refine hkeeps r k n ?_
  obtain ⟨hd, hs⟩ := refusing_ok h
  rw [storing, Bool.and_eq_true] at hs
  simp only [Config.refusing, hd, hs.1, if_true]

theorem within_ioExec {p : Row → KeyRec → ℕ → Bool} (c : IoCall) :
    Exec.Within .value (c.exec (cfg.refusing p)) (c.exec cfg) := by
  cases c with
  | write r a => exact .map (JIo.within_writeKey r a)
  | _ => exact .refl _ _

/-- A clean call is one under the codec that refuses. -/
theorem CleanIoStep.refusing {call : IoCall} (h : CleanIoStep cfg c l io call io') :
    IoStep (cfg.strict c l) io call io' := by
  obtain ⟨⟨hg, h⟩, io'', -, h'⟩ := h
  have := (within_ioExec call).ok h'
  rw [h] at this
  cases this
  exact ⟨hg, h'⟩

/-- **Every call** keeps the caches in agreement with the file. -/
theorem IoStep.ok {V : RowView Row} {c : IoCall} (hc : cfg.Keeps V) (h : JIo.Ok V cfg io)
    (hs : IoStep cfg io c io') : JIo.Ok V cfg io' := by
  obtain ⟨hg, hs⟩ := hs
  cases c with
  | clock now =>
    cases hs
    exact ⟨h.keyRows, h.deadRows, h.fixed, h.wide, h.known⟩
  | count cnt =>
    cases hs
    exact ⟨h.keyRows, h.deadRows, h.fixed, h.wide, fun r row hr => lt_of_lt_of_le (h.known r row hr) hg⟩
  | write r a =>
    have hw : Exec.Wp (IoCall.exec cfg (.write r a)) io (fun _ io' => JIo.Ok V cfg io') (fun _ _ => True) :=
      Exec.wp_map.2 (Exec.wp_mono (JIo.wp_writeKey hc h r a) (fun _ _ h' => h'.2.1) fun _ _ h' => h')
    exact hw.ok hs
  | read r =>
    have hw : Exec.Wp (IoCall.exec cfg (.read r)) io (fun _ io' => JIo.Ok V cfg io') (fun _ _ => True) :=
      Exec.wp_map.2 (Exec.wp_mono (JIo.wp_readKey h r) (fun _ _ h' => h'.2.2.2) fun _ _ _ => trivial)
    exact hw.ok hs
  | copy src dst =>
    have hw : Exec.Wp (IoCall.exec cfg (.copy src dst)) io (fun _ io' => JIo.Ok V cfg io') (fun _ _ => True) :=
      Exec.wp_map.2 (Exec.wp_mono (JIo.wp_copyKey h src dst) (fun _ _ h' => h'.2.2) fun _ _ h' => h')
    exact hw.ok hs

/-- **Every call** leaves rows that are kept. -/
theorem CleanIoStep.allStored {call : IoCall} (hempty : JIo.emptyRec.Kept c l) (h : io.AllStored (KeyRec.Kept c l))
    (hs : CleanIoStep cfg c l io call io') : io'.AllStored (KeyRec.Kept c l) := by
  obtain ⟨-, hs⟩ := hs.refusing
  cases call with
  | clock now =>
    cases hs
    exact h
  | count cnt =>
    cases hs
    exact h
  | write r a =>
    have hw : Exec.Wp (JIo.writeKey (cfg.strict c l) r a) io
        (fun _ io' => io'.AllStored (KeyRec.Kept c l)) fun _ _ => True :=
      JIo.wp_writeKey_all (fun _ _ _ hk => kept_of_storing hk) hempty r a h
    exact (Exec.wp_map.2 hw : Exec.Wp (IoCall.exec (cfg.strict c l) (.write r a)) io
      (fun _ io' => io'.AllStored (KeyRec.Kept c l)) fun _ _ => True).ok hs
  | read r =>
    have hw := (JIo.allStored_readKey r).wp h
    exact (Exec.wp_map.2 hw : Exec.Wp (IoCall.exec (cfg.strict c l) (.read r)) io
      (fun _ io' => io'.AllStored (KeyRec.Kept c l)) fun _ io' => io'.AllStored (KeyRec.Kept c l)).ok hs
  | copy src dst =>
    cases hs
    have hforget : (io.forget dst).AllStored (KeyRec.Kept c l) := h
    exact hforget.putRec dst (h src)

/-! ## Runs -/

/-- **Rows read over whole runs**: after every sequence of engine calls all of whose rows
survive, a row that is read is what the bytes in the file decode to. -/
theorem rowCache_of_runs (hc : c.Sound) (hempty : ∃ bs, JIo.emptyRec.bytes c l = .ok bs) (h₀ : io₀.Fresh cfg c l)
    {tr : List IoCall} (hr : Runs (CleanIoStep cfg c l) io₀ tr io) (r : ℕ) (row : Row)
    (hread : (JIo.readKey r).run io = (.ok row, io')) : row = io.row r ∧ ∃ bs, (io.files.rows r).bytes c l = .ok bs ∧
      ∀ size, c.loads l (KeyFile.padRow bs size) = .ok row.keyInfo.toInt := by
  have hok : JIo.Ok rowView (cfg.strict c l) io :=
    hr.invariant h₀.ok fun _ _ _ h hs => hs.refusing.ok keeps_storing h
  have hkept : io.AllStored (KeyRec.Kept c l) :=
    hr.invariant h₀.kept fun _ _ _ h hs => hs.allStored (kept_empty hempty) h
  have hrow : row = io.row r := ((JIo.wp_readKey hok r).ok hread).1
  refine ⟨hrow, ?_⟩
  rw [hrow]
  exact (hkept r).loads hc

/-- Run engine calls one after the other. -/
def runIo (cfg : Config) : List IoCall → JIo → Option JIo
  | [], io => some io
  | c :: cs, io =>
    match (c.exec cfg).run io with
    | (.ok _, io') => runIo cfg cs io'
    | (.error _, _) => none

/-- The call only sets what does not count lines. -/
def IoCall.plain : IoCall → Bool
  | .count _ => false
  | _ => true

theorem IoCall.plain_grows {c : IoCall} (h : c.plain = true) (io : JIo) : c.Grows io := by
  cases c with
  | count => cases h
  | _ => trivial

variable (cfg) in
theorem exists_ioRuns (io : JIo) (cs : List IoCall) {P : JIo → Bool} (hp : (cs.all IoCall.plain) = true)
    (h : (runIo cfg cs io).any P = true) : ∃ io', Runs (IoStep cfg) io cs io' ∧ P io' = true := by
  induction cs generalizing io with
  | nil => exact ⟨io, .refl, h⟩
  | cons c cs ih =>
    rw [List.all_cons, Bool.and_eq_true] at hp
    rw [runIo] at h
    split at h
    · rename_i u io₁ hrun
      obtain ⟨io', hr, hP⟩ := ih io₁ hp.2 h
      exact ⟨io', .head ⟨IoCall.plain_grows hp.1 io, hrun⟩ hr, hP⟩
    · cases h

/-- A run under the codec that refuses is a clean one. -/
theorem Runs.clean {tr : List IoCall} (h : Runs (IoStep (cfg.strict c l)) io₀ tr io) :
    Runs (CleanIoStep cfg c l) io₀ tr io :=
  h.mono fun _ call io' hs => ⟨⟨hs.1, (within_ioExec call).ok hs.2⟩, io', hs⟩

/-- An engine over a file of one empty line. -/
def oneLine : JIo := { (JDb.init jsonCfg).io with cnt := { nRecords := 1, nLines := 1 } }

/-- `msgpack` rows. -/
def packCodec : KeyCodec := .S (msgTuples 2)

theorem packCodec_sound : packCodec.Sound := msgTuples_exact (by decide)

theorem packCodec_empty : ∃ bs, JIo.emptyRec.bytes packCodec .v1 = .ok bs :=
  ⟨[205, 0, 8, 151, 160, 0, 0, 0, 0, 0, 0], by decide +kernel⟩

theorem oneLine_fresh : oneLine.Fresh jsonCfg packCodec .v1 := ⟨rfl, rfl, fun _ => kept_empty packCodec_empty, le_rfl⟩

/-- A record created on day `c` and changed on day `m` at noon, to live for twelve hours. -/
def shortLived (c m : ℕ) : IoCall :=
  .write 0
    { key := ['A'], fileId := 3, offset := 5, rowSize := 0, cdays := some c
      mdays := some (m * MIN_OF_DAY + 720), ttl := .mins 720 }

theorem rowCache_plain : ∃ io, Runs (CleanIoStep jsonCfg packCodec .v1) oneLine [shortLived 93 100, .read 0] io ∧
    ∀ row io', (JIo.readKey 0).run io = (.ok row, io') → row = io.row 0 ∧
      ∃ bs, (io.files.rows 0).bytes packCodec .v1 = .ok bs ∧
        ∀ size, packCodec.loads .v1 (KeyFile.padRow bs size) = .ok row.keyInfo.toInt := by
  obtain ⟨io, hr, -⟩ := exists_ioRuns (jsonCfg.strict packCodec .v1) oneLine
    [shortLived 93 100, .read 0] (P := fun _ => true) (by decide) (by decide +kernel)
  exact ⟨io, hr.clean, fun row io' hread => rowCache_of_runs packCodec_sound packCodec_empty oneLine_fresh hr.clean 0 row hread⟩

/-- **A creation date that is lost**: more than a week before a change that starts a lifetime
in minutes, it is served from the cache but is not in the file. -/
theorem rowCache_fails : ∃ io, Runs (IoStep jsonCfg) oneLine [shortLived 1 100] io ∧
    ∃ row io', (JIo.readKey 0).run io = (.ok row, io') ∧ row.cdays = 1 ∧ (io.row 0).cdays = 100 := by
  obtain ⟨io, hr, h⟩ := exists_ioRuns jsonCfg oneLine [shortLived 1 100]
    (P := fun io => (match (JIo.readKey 0).run io with
      | (.ok row, _) => decide (row.cdays = 1)
      | (.error _, _) => false) && decide ((io.row 0).cdays = 100)) (by decide) (by decide +kernel)
  rw [Bool.and_eq_true, decide_eq_true_eq] at h
  refine ⟨io, hr, ?_⟩
  obtain ⟨h, hc⟩ := h
  split at h
  · rename_i row io' hread
    exact ⟨row, io', hread, of_decide_eq_true h, hc⟩
  · cases h

end OmniJsonDb
