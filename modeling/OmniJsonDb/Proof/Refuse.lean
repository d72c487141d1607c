import OmniJsonDb.Proof.Runs

/-!
# Codecs that refuse rows

Whether a call writes a row that will not do can be asked of the call itself: would it
return, too, if the row codec refused such rows? Every call runs the same under the codec
that refuses, up to the first row it refuses.

* `Config.refusing`: the codec, refusing.
* `within_exec`: a call under it.
* `Config.Fitting`, `Config.Keeping`: the calls that write no row too long, or none the codec
  does not give back.
-/

namespace OmniJsonDb

/-- The configuration whose row codec refuses the rows that `p` refuses. -/
def Config.refusing (cfg : Config) (p : Row → KeyRec → ℕ → Bool) : Config :=
  { cfg with
    keyDumps := fun r => match cfg.keyDumps r with
      | .error e => .error e
      | .ok (k, n) => if p r k n then .ok (k, n) else .error .value
    keyDumps_pack := by
      intro r k n h
      split at h
      · cases h
      · split at h
        · cases h; exact cfg.keyDumps_pack _ _ _ ‹_›
        · cases h
    keyDumps_error := by
      intro r h
      split at h
      · cases h; exact cfg.keyDumps_error _ ‹_›
      · split at h <;> cases h }

variable {cfg : Config} {p : Row → KeyRec → ℕ → Bool}

open Exec (Within)

theorem refusing_ok {r : Row} {k : KeyRec} {n : ℕ} (h : (cfg.refusing p).keyDumps r = .ok (k, n)) :
    cfg.keyDumps r = .ok (k, n) ∧ p r k n = true := by
  unfold Config.refusing at h
  simp only at h
  split at h
  · cases h
  · split at h
    · cases h; exact ⟨‹_›, ‹_›⟩
    · cases h

variable (cfg p) in
theorem refusing_keyDumps (r : Row) : (cfg.refusing p).keyDumps r = cfg.keyDumps r ∨
    (cfg.refusing p).keyDumps r = .error .value := by
  unfold Config.refusing
  simp only
  split
  · rename_i h; exact .inl h.symm
  · rename_i h
    split
    · exact .inl h.symm
    · exact .inr rfl

/-! ## The engine -/

namespace JIo

theorem stripKey_within (table : OrdDict Key (ℕ × ℕ)) (row : Row) (excess : ℕ) :
    stripKey (cfg.refusing p) table row excess = stripKey cfg table row excess ∨
      stripKey (cfg.refusing p) table row excess = .error .value := by
  unfold stripKey
  extract_lets row₁ row₂
  rcases refusing_keyDumps cfg p row₁ with h | h
  · rw [h]
    split
    · exact .inl rfl
    · split
      · exact .inl rfl
      · rcases refusing_keyDumps cfg p row₂ with h₂ | h₂
        · rw [h₂]; exact .inl rfl
        · rw [h₂]; exact .inr rfl
  · rw [h]; exact .inr rfl

theorem encodeKey_within (io : JIo) (a : KeyArgs) :
    io.encodeKey (cfg.refusing p) a = io.encodeKey cfg a ∨
      io.encodeKey (cfg.refusing p) a = .error .value := by
  unfold encodeKey
  extract_lets row
  rcases refusing_keyDumps cfg p row with h | h
  · rw [h]
    split
    · exact .inl rfl
    · split
      · exact stripKey_within _ _ _
      · exact .inl rfl
  · rw [h]; exact .inr rfl

theorem reencode_within (now size : ℕ) : ∀ rows : List Row,
    reencode (cfg.refusing p) now size rows = reencode cfg now size rows ∨
      reencode (cfg.refusing p) now size rows = .error .value := by
  intro rows
  induction rows with
  | nil => exact .inl rfl
  | cons row rows ih =>
    unfold reencode
    rcases refusing_keyDumps cfg p (normal now 0 row.args) with h | h
    · rw [h]
      split
      · exact .inl rfl
      · split
        · exact .inl rfl
        · rcases ih with h' | h'
          · rw [h']; exact .inl rfl
          · rw [h']; exact .inr rfl
    · rw [h]; exact .inr rfl

theorem within_resizeKeys (size : ℕ) :
    Within .value (resizeKeys (cfg.refusing p) size) (resizeKeys cfg size) := by
  unfold resizeKeys
  refine .bind (.refl _ _) fun io => .ite (fun _ => .refl _ _) fun _ => ?_
  exact .bind (.refl _ _) fun rows => .bind (.lift (reencode_within _ _ rows)) fun ks => .refl _ _

theorem within_writeKey (r : ℕ) (a : KeyArgs) :
    Within .value (writeKey (cfg.refusing p) r a) (writeKey cfg r a) := by
  unfold writeKey
  refine .bind (.refl _ _) fun io => .bind (.lift (encodeKey_within io a)) fun e => ?_
  obtain ⟨row, k, n⟩ := e
  have resize : Within .value (resizeKeys (cfg.refusing p) (n + 1)) (resizeKeys cfg (n + 1)) := within_resizeKeys (n + 1)
  refine .ite (fun _ => .ite (fun _ => ?_) fun _ => ?_) fun _ => .refl _ _
  · exact .bind (.refl _ _) fun _ => .bind resize fun _ => .refl _ _
  · exact .bind resize fun _ => .refl _ _

end JIo

/-! ## The handle -/

namespace JDb

theorem within_writeKey (r : ℕ) (a : KeyArgs) :
    Within .value (onIo (JIo.writeKey (cfg.refusing p) r a)) (onIo (JIo.writeKey cfg r a)) :=
  .zoom (JIo.within_writeKey r a)

theorem pickFile_refusing (io : JIo) (req step fuel : ℕ) : ∀ fileId,
    pickFile (cfg.refusing p) io req step fuel fileId = pickFile cfg io req step fuel fileId := by
  induction fuel with
  | zero => intro fileId; rfl
  | succ fuel ih =>
    intro fileId
    unfold pickFile
    rw [ih]
    rfl

theorem getValFp_refusing (fileId : Option ℕ) (req : ℕ) :
    getValFp (cfg.refusing p) fileId req = getValFp cfg fileId req := by
  unfold getValFp
  simp only [pickFile_refusing]

/-- Row copies and a written row, then the same again. -/
theorem within_write {α : Type} {r : ℕ} {a : KeyArgs} {f g : ℕ → DbM α}
    (h : ∀ n, Within .value (g n) (f n)) :
    Within .value (onIo (JIo.writeKey (cfg.refusing p) r a) >>= g) (onIo (JIo.writeKey cfg r a) >>= f) :=
  .bind (within_writeKey r a) h

theorem within_splitDead (row : ℕ) (q : Place) (req : ℕ) (ext : Option ℕ) :
    Within .value (splitDead (cfg.refusing p) row q req ext) (splitDead cfg row q req ext) := by
  unfold splitDead
  rw [show splitSize (cfg.refusing p) = splitSize cfg from rfl]
  split
  · exact .refl _ _
  · refine .bind (.refl _ _) fun db => ?_
    extract_lets rest
    split
    · exact within_write fun _ => within_write fun _ => .refl _ _
    · exact .bind (.refl _ _) fun _ => within_write fun _ => within_write fun _ => .refl _ _

theorem within_offer (h : ℕ) (req flags row : ℕ) (q : Place) (ext : Option ℕ) :
    Within .value
      (do
        let q ← if 0 < req ∧ has flags SPLIT then splitDead (cfg.refusing p) row q req ext else pure q
        pure (h, some (row, q)) : DbM (ℕ × Option (ℕ × Place)))
      (do
        let q ← if 0 < req ∧ has flags SPLIT then splitDead cfg row q req ext else pure q
        pure (h, some (row, q))) := by
  refine .ite (fun _ => ?_) fun _ => .refl _ _
  exact .bind (within_splitDead _ _ _ _) fun _ => .refl _ _

theorem within_scan (env : Env) (req flags : ℕ) (maxWsize : Option ℕ) (h lines : ℕ) :
    Within .value (getDeadRow.scan (cfg.refusing p) env req flags maxWsize h lines)
      (getDeadRow.scan cfg env req flags maxWsize h lines) := by
  unfold getDeadRow.scan
  refine .ite (fun _ => .refl _ _) fun _ => .bind (.refl _ _) fun db => ?_
  rw [show JIo.windowSize (cfg.refusing p) = JIo.windowSize cfg from rfl,
    show (cfg.refusing p).maxWsize = cfg.maxWsize from rfl]
  dsimp only
  split
  · exact .refl _ _
  · exact within_offer _ _ _ _ _ _

theorem within_getDeadRow (env : Env) (key : Key) (req flags : ℕ) (maxWsize : Option ℕ) :
    Within .value (getDeadRow (cfg.refusing p) env key req flags maxWsize)
      (getDeadRow cfg env key req flags maxWsize) := by
  unfold getDeadRow
  refine .bind (.refl _ _) fun db => .guard (.refl _ _) ?_
  refine .ite (fun _ => .refl _ _) fun _ => .bind (.refl _ _) fun o => ?_
  split
  · exact .ite (fun _ => within_offer _ _ _ _ _ _) fun _ => within_scan _ _ _ _ _ _
  · exact within_scan _ _ _ _ _ _

theorem within_takeSpace (env : Env) (key : Key) (enc : Enc) (flags : ℕ) (maxWsize : Option ℕ) :
    Within .value (takeSpace (cfg.refusing p) env key enc flags maxWsize)
      (takeSpace cfg env key enc flags maxWsize) := by
  unfold takeSpace
  simp only [getValFp_refusing]
  split
  · exact .bind (within_getDeadRow _ _ _ _ _) fun _ => .refl _ _
  · exact .bind (within_getDeadRow _ _ _ _ _) fun _ => .refl _ _

/-- A row copied up, on the way. -/
theorem within_copyUp {α : Type} (s d : ℕ) {k l : Unit → DbM α} (h : Within .value (k ()) (l ())) :
    Within .value (if s < d then (do let _ ← onIo (JIo.copyKey s d); k ()) else k ())
      (if s < d then (do let _ ← onIo (JIo.copyKey s d); l ()) else l ()) :=
  .ite (fun _ => .bind (.refl _ _) fun _ => h) fun _ => h

theorem within_park (env : Env) (key : Key) (row : ℕ) (old : Row) (enc : Enc) (m : Meta) (flags : ℕ)
    (maxWsize : Option ℕ) :
    Within .value (park (cfg.refusing p) env key row old enc m flags maxWsize)
      (park cfg env key row old enc m flags maxWsize) := by
  unfold park
  refine .bind (within_takeSpace _ _ _ _ _) fun sp => ?_
  extract_lets rest rest'
  refine within_copyUp (k := rest) (l := rest') _ _ ?_
  exact within_write fun _ => within_write fun _ => .refl _ _

theorem within_add (env : Env) (key : Key) (val : PyVal) (enc : Enc) (m : Meta) (flags : ℕ)
    (maxWsize : Option ℕ) :
    Within .value (add (cfg.refusing p) env key val enc m flags maxWsize)
      (add cfg env key val enc m flags maxWsize) := by
  unfold add
  refine .bind (within_takeSpace _ _ _ _ _) fun sp => .bind (.refl _ _) fun db => ?_
  extract_lets n last write room write' room'
  refine within_copyUp (k := room) (l := room') _ _ (within_copyUp (k := write) (l := write') _ _ ?_)
  exact within_write fun _ => .refl _ _

theorem within_fWriteKeyFlags (key : Key) (newFlags : FlagArg) (ttl : Option TtlArg) (mdays : Option ℕ) :
    Within .value (fWriteKeyFlags (cfg.refusing p) key newFlags ttl mdays)
      (fWriteKeyFlags cfg key newFlags ttl mdays) := by
  unfold fWriteKeyFlags
  refine .bind (.refl _ _) fun db => ?_
  split
  · exact .refl _ _
  · refine .ite (fun _ => .refl _ _) fun _ => .bind (.refl _ _) fun old => ?_
    exact .ite (fun _ => within_write fun _ => .refl _ _) fun _ => .refl _ _

/-! ## `f_write`, `f_append` -/

theorem within_writeSame (key : Key) (val : PyVal) (old : Row) (m : Meta) (mdays : ℕ) :
    Within .value (writeSame (cfg.refusing p) key val old m mdays) (writeSame cfg key val old m mdays) := by
  unfold writeSame
  refine .guard (.refl _ _) (.ite (fun _ => within_fWriteKeyFlags _ _ _ _) fun _ => .refl _ _)

theorem within_writeInPlace (key : Key) (row : ℕ) (sp : Space) (m : Meta) :
    Within .value (writeInPlace (cfg.refusing p) key row sp m) (writeInPlace cfg key row sp m) :=
  within_write fun _ => .refl _ _

theorem within_writeOver (env : Env) (key : Key) (val : PyVal) (row : ℕ) (old : Row) (enc : Enc) (m : Meta)
    (mdays flags : ℕ) (maxWsize : Option ℕ) (checked : Bool) :
    Within .value (writeOver (cfg.refusing p) env key val row old enc m mdays flags maxWsize checked)
      (writeOver cfg env key val row old enc m mdays flags maxWsize checked) := by
  have hpark : Within .value (park (cfg.refusing p) env key row old enc m flags maxWsize)
      (park cfg env key row old enc m flags maxWsize) := within_park env key row old enc m flags maxWsize
  unfold writeOver
  simp only [getValFp_refusing]
  refine .bind (.refl _ _) fun db => .ite (fun _ => ?_) fun _ => ?_
  · split
    · refine .ite (fun _ => within_writeSame _ _ _ _ _) fun _ => ?_
      exact .ite (fun _ => .bind (within_writeInPlace _ _ _ _) fun _ => .refl _ _)
        fun _ => .bind hpark fun _ => .refl _ _
    · exact .bind hpark fun _ => .refl _ _
  · split
    · exact .bind hpark fun _ => .refl _ _
    · refine .ite (fun _ => .bind (.refl _ _) fun _ => .bind (.refl _ _) fun _ => .bind (.refl _ _) fun same => ?_)
        fun _ => .bind (.refl _ _) fun same => ?_
      all_goals
        refine .ite (fun _ => within_writeSame _ _ _ _ _) fun _ => .ite (fun _ => ?_) fun _ => ?_
        · exact .bind (.refl _ _) fun _ => .bind (.refl _ _) fun _ =>
            .bind (within_writeInPlace _ _ _ _) fun _ => .refl _ _
        · exact .bind hpark fun _ => .refl _ _

theorem within_writeRow (env : Env) (key : Key) (val : PyVal) (a : WriteArgs) (transient : ℕ)
    (keyFlags : FlagArg) (row : ℕ) (old : Row) (flags : ℕ) (checked : Bool) :
    Within .value (writeRow (cfg.refusing p) env key val a transient keyFlags row old flags checked)
      (writeRow cfg env key val a transient keyFlags row old flags checked) := by
  unfold writeRow
  refine .bind (.refl _ _) fun mdays => .bind (.refl _ _) fun _ => .guard (.refl _ _) ?_
  exact .bind (.refl _ _) fun db => .bind (.refl _ _) fun enc => within_writeOver _ _ _ _ _ _ _ _ _ _ _

theorem within_look {onLink onLink' : PyVal → DbM Bool} (h : ∀ t, Within .value (onLink' t) (onLink t))
    (env : Env) (key : Key) (val : PyVal) (a : WriteArgs) (transient : ℕ) (keyFlags : FlagArg) (row flags : ℕ)
    (checked : Bool) :
    Within .value
      (writeExisting.look (cfg.refusing p) onLink' env key val a transient keyFlags row flags checked)
      (writeExisting.look cfg onLink env key val a transient keyFlags row flags checked) := by
  unfold writeExisting.look
  refine .bind (.refl _ _) fun old => .ite (fun _ => .bind (.refl _ _) h) fun _ => .ite (fun _ => .refl _ _) fun _ => ?_
  refine .ite (fun _ => .bind (.refl _ _) fun v => .bind (.refl _ _) fun ok => ?_) fun _ =>
    .bind (.refl _ _) fun ok => ?_
  all_goals exact .ite (fun _ => within_writeRow _ _ _ _ _ _ _ _ _ _) fun _ => .refl _ _

theorem within_writeExisting {onLink onLink' : PyVal → DbM Bool} (h : ∀ t, Within .value (onLink' t) (onLink t))
    (env : Env) (key : Key) (val : PyVal) (a : WriteArgs) (transient : ℕ) (keyFlags : FlagArg)
    (row kflags flags : ℕ) :
    Within .value
      (writeExisting (cfg.refusing p) onLink' env key val a transient keyFlags row kflags flags)
      (writeExisting cfg onLink env key val a transient keyFlags row kflags flags) := by
  unfold writeExisting
  refine .ite (fun _ => .refl _ _) fun _ => .bind (.refl _ _) fun db => ?_
  rw [show (cfg.refusing p).cacheLimit = cfg.cacheLimit from rfl]
  split
  · exact .ite (fun _ => .refl _ _) fun _ => within_look h _ _ _ _ _ _ _ _ _
  · exact within_look h _ _ _ _ _ _ _ _ _

theorem within_writeNew (env : Env) (key : Key) (val : PyVal) (a : WriteArgs) (transient : ℕ)
    (keyFlags : FlagArg) (flags : ℕ) :
    Within .value (writeNew (cfg.refusing p) env key val a transient keyFlags flags)
      (writeNew cfg env key val a transient keyFlags flags) := by
  unfold writeNew
  refine .ite (fun _ => .refl _ _) fun _ => .bind (.refl _ _) fun _ => .bind (.refl _ _) fun db => ?_
  exact .bind (.refl _ _) fun enc => .bind (within_add _ _ _ _ _ _ _) fun _ => .refl _ _

theorem within_fWriteWith {onLink onLink' : Key → PyVal → WriteArgs → PyVal → DbM Bool}
    (h : ∀ k v a t, Within .value (onLink' k v a t) (onLink k v a t)) (env : Env) (key : Key) (val : PyVal)
    (a : WriteArgs) :
    Within .value (fWriteWith (cfg.refusing p) onLink' env key val a) (fWriteWith cfg onLink env key val a) := by
  unfold fWriteWith
  refine .ite (fun _ => .refl _ _) fun _ => .ite (fun _ => .refl _ _) fun _ => ?_
  refine .bind (.refl _ _) fun db => ?_
  dsimp only
  split
  · exact within_writeExisting (fun t => h _ _ _ t) _ _ _ _ _ _ _ _ _
  · exact within_writeNew _ _ _ _ _ _ _

theorem within_fLinkWrite (env : Env) (key : Key) (val : PyVal) (a : WriteArgs) (target : PyVal) :
    Within .value (fLinkWrite (cfg.refusing p) env key val a target) (fLinkWrite cfg env key val a target) := by
  unfold fLinkWrite
  refine .ite (fun _ => .refl _ _) fun _ => .bind (.refl _ _) fun s => ?_
  split
  · exact .refl _ _
  · exact .refl _ _
  · exact within_fWriteWith (fun _ _ _ _ => .refl _ _) _ _ _ _

theorem within_fWrite (env : Env) (key : Key) (val : PyVal) (a : WriteArgs) :
    Within .value (fWrite (cfg.refusing p) env key val a) (fWrite cfg env key val a) :=
  within_fWriteWith (fun _ _ _ _ => within_fLinkWrite _ _ _ _ _) env key val a

theorem within_fAppend (env : Env) (key : Key) (val : PyVal) (ttl : TtlArg) (keyFlags : FlagArg) :
    Within .value (fAppend (cfg.refusing p) env key val ttl keyFlags) (fAppend cfg env key val ttl keyFlags) := by
  unfold fAppend
  refine .ite (fun _ => .refl _ _) fun _ => .ite (fun _ => .refl _ _) fun _ => .bind (.refl _ _) fun db => ?_
  split
  · exact .ite (fun _ => .refl _ _) fun _ => within_fWrite _ _ _ _
  · unfold appendNew
    simp -zeta only [getValFp_refusing]
    refine .bind (.refl _ _) fun db => .bind (.refl _ _) fun _ => ?_
    extract_lets ttl' kf encode room encode' room'
    refine within_copyUp (k := room) (l := room') _ _ (within_copyUp (k := encode) (l := encode') _ _ ?_)
    refine .bind (.refl _ _) fun enc => .bind (.refl _ _) fun _ => ?_
    dsimp only
    split
    · exact .bind (.refl _ _) fun sp => within_write fun _ => .refl _ _
    · refine .bind (.refl _ _) fun f => .bind (.refl _ _) fun _ => .bind (.refl _ _) fun sp => ?_
      exact within_write fun _ => .refl _ _

/-! ## The other calls -/

theorem within_removeRow (key : Key) (row : ℕ) (old : Row) (flags : ℕ) :
    Within .value (fDelete.removeRow (cfg.refusing p) key row old flags)
      (fDelete.removeRow cfg key row old flags) := by
  unfold fDelete.removeRow
  refine .bind (.refl _ _) fun db => .bind (.refl _ _) fun _ => ?_
  dsimp only
  refine .ite (fun _ => .bind (.refl _ _) fun _ => .bind (.refl _ _) fun r => .bind (.refl _ _) fun moved => ?_)
    fun _ => .bind (.refl _ _) fun moved => ?_
  all_goals
    refine .ite (fun _ => .bind (.refl _ _) fun _ => ?_) fun _ => ?_
    all_goals exact within_write fun _ => .refl _ _

theorem within_fDelete (env : Env) (key : Key) (readValue : Bool) (row flags : Option ℕ) (keyFlags : FlagArg) :
    Within .value (fDelete (cfg.refusing p) env key readValue row flags keyFlags)
      (fDelete cfg env key readValue row flags keyFlags) := by
  have rest : ∀ r : ℕ, Within Err.value
      (do
        let transient := (popTransientFlags keyFlags).1
        let old ← onIo (JIo.readKey r)
        if has old.flags DELETE_LOCK_MASK && !has transient UNLOCK then pure .locked
        else if key ≠ [] ∧ old.key ≠ key then Exec.raise .key
        else
          let key := old.key
          let db ← Exec.get
          let isGroup := db.io.groups.contains key || has old.flags GROUP
          let val ← if readValue || isGroup then do
              let v ← decodeValue cfg env key old.toCore false false
              pure (some v)
            else pure none
          fDelete.removeRow (cfg.refusing p) key r old (flags.getD cfg.flags)
          pure (.gone val) : DbM Deleted)
      (do
        let transient := (popTransientFlags keyFlags).1
        let old ← onIo (JIo.readKey r)
        if has old.flags DELETE_LOCK_MASK && !has transient UNLOCK then pure .locked
        else if key ≠ [] ∧ old.key ≠ key then Exec.raise .key
        else
          let key := old.key
          let db ← Exec.get
          let isGroup := db.io.groups.contains key || has old.flags GROUP
          let val ← if readValue || isGroup then do
              let v ← decodeValue cfg env key old.toCore false false
              pure (some v)
            else pure none
          fDelete.removeRow cfg key r old (flags.getD cfg.flags)
          pure (.gone val)) := by
    intro r
    refine .bind (.refl _ _) fun old => .ite (fun _ => .refl _ _) fun _ => .ite (fun _ => .refl _ _) fun _ => ?_
    refine .bind (.refl _ _) fun db => ?_
    refine .ite (fun _ => .bind (.refl _ _) fun v => .bind (.refl _ _) fun val => ?_)
      fun _ => .bind (.refl _ _) fun val => ?_
    all_goals exact .bind (within_removeRow _ _ _ _) fun _ => .refl _ _
  unfold fDelete
  refine .bind (.refl _ _) fun _ => .bind (.refl _ _) fun db => ?_
  dsimp only
  split
  · exact .bind (.refl _ _) rest
  · split
    · exact .bind (.refl _ _) rest
    · exact .bind (.refl _ _) rest

theorem within_fUndelete (key : Key) (row flags : Option ℕ) :
    Within .value (fUndelete (cfg.refusing p) key row flags) (fUndelete cfg key row flags) := by
  unfold fUndelete
  refine .ite (fun _ => .refl _ _) fun _ => .bind (.refl _ _) fun _ => .bind (.refl _ _) fun db => ?_
  refine .ite (fun _ => .refl _ _) fun _ => .bind (.refl _ _) fun o => ?_
  split
  · exact .refl _ _
  · refine .bind (.refl _ _) fun db => ?_
    extract_lets n h src finish room h' finish' room'
    have hfinish : Within .value (finish ()) (finish' ()) :=
      .bind (.refl _ _) fun _ => .bind (.refl _ _) fun b => within_write fun _ => .refl _ _
    refine .ite (fun _ => .bind (.refl _ _) fun _ => ?_) fun _ => .bind (.refl _ _) fun _ => ?_
    · exact within_copyUp (k := room) (l := room') _ _ (within_copyUp (k := finish) (l := finish') _ _ hfinish)
    · exact within_copyUp (k := finish) (l := finish') _ _ hfinish

theorem within_fUnwrite (key : Key) (row : Option ℕ) :
    Within .value (fUnwrite (cfg.refusing p) key row) (fUnwrite cfg key row) := by
  unfold fUnwrite
  refine .ite (fun _ => .refl _ _) fun _ => .bind (.refl _ _) fun _ => .bind (.refl _ _) fun db => ?_
  refine .ite (fun _ => .refl _ _) fun _ => .ite (fun _ => .refl _ _) fun _ => .bind (.refl _ _) fun o => ?_
  split
  · exact .refl _ _
  · refine .bind (.refl _ _) fun db => ?_
    split
    · exact .refl _ _
    · refine .ite (fun _ => .refl _ _) fun _ => .bind (.refl _ _) fun old => .ite (fun _ => .refl _ _) fun _ => ?_
      exact .bind (.refl _ _) fun b => within_write fun _ => within_write fun _ => .refl _ _

theorem within_fRename (key newKey : Key) :
    Within .value (fRename (cfg.refusing p) key newKey) (fRename cfg key newKey) := by
  unfold fRename
  refine .ite (fun _ => .refl _ _) fun _ => .bind (.refl _ _) fun _ => .bind (.refl _ _) fun db => ?_
  refine .ite (fun _ => .refl _ _) fun _ => ?_
  split
  · exact .refl _ _
  · exact .bind (.refl _ _) fun old => within_write fun _ => .refl _ _

theorem within_setDate (key : Key) (cdate mdate : Option ℕ) (ttl : Option TtlArg) :
    Within .value (setDate (cfg.refusing p) key cdate mdate ttl) (setDate cfg key cdate mdate ttl) := by
  unfold setDate
  refine .ite (fun _ => .refl _ _) fun _ => .bind (.refl _ _) fun db => ?_
  split
  · exact .refl _ _
  · refine .ite (fun _ => .refl _ _) fun _ => .bind (.refl _ _) fun old => .ite (fun _ => .refl _ _) fun _ => ?_
    exact .ite (fun _ => within_write fun _ => .refl _ _) fun _ => .refl _ _

theorem within_unmodify (key : Key) (version : Option ℕ) :
    Within .value (unmodify (cfg.refusing p) key version) (unmodify cfg key version) := by
  unfold unmodify
  refine .bind (.refl _ _) fun db => .ite (fun _ => .refl _ _) fun _ => .bind (.refl _ _) fun o => ?_
  split
  · exact within_fUnwrite _ _
  · exact .refl _ _

theorem within_revert (key : Key) (version : Option ℕ) :
    Within .value (revert (cfg.refusing p) key version) (revert cfg key version) := by
  unfold revert
  refine .bind (.refl _ _) fun db => .ite (fun _ => .refl _ _) fun _ => .bind (.refl _ _) fun o => ?_
  split
  · exact .ite (fun _ => within_fUnwrite _ _) fun _ => within_fUndelete _ _ _
  · exact .refl _ _

theorem within_setLink (env : Env) (key target : Key) :
    Within .value (setLink (cfg.refusing p) env key target) (setLink cfg env key target) := by
  unfold setLink
  refine .ite (fun _ => .refl _ _) fun _ => .bind (.refl _ _) fun s => ?_
  extract_lets write look write' look'
  have hwrite : ∀ x, Within .value (write x) (write' x) := by
    rintro ⟨oldFlags, same⟩
    refine .ite (fun _ => .refl _ _) fun _ => ?_
    extract_lets rest rest'
    have hrest : Within .value (rest ()) (rest' ()) := by
      refine .bind (.refl _ _) fun _ => .bind (within_fWrite _ _ _ _) fun ok => .ite (fun _ => .refl _ _) fun _ => ?_
      refine .bind (.refl _ _) fun db => ?_
      dsimp only
      split
      · exact .refl _ _
      · exact .bind (.refl _ _) fun old => within_write fun _ => .refl _ _
    exact .ite (fun _ => .bind (within_fDelete _ _ _ _ _ _) fun _ => hrest) fun _ => hrest
  have hlook : Within .value (look ()) (look' ()) := by
    refine .bind (.refl _ _) fun db => ?_
    split
    · refine .ite (fun _ => .bind (.refl _ _) fun old => ?_) fun _ => .bind (.refl _ _) hwrite
      refine .ite (fun _ => .bind (.refl _ _) hwrite) fun _ => .ite (fun _ => .bind (.refl _ _) hwrite) fun _ => ?_
      exact .ite (fun _ => .bind (.refl _ _) fun v => .bind (.refl _ _) hwrite) fun _ => .bind (.refl _ _) hwrite
    · exact .bind (.refl _ _) hwrite
  split
  · exact .bind (.refl _ _) fun _ => hlook
  · exact hlook

theorem within_skipMissing {y x : DbM Deleted} (h : Within .value y x) :
    Within .value (dropQueued.skipMissing y) (dropQueued.skipMissing x) := by
  intro db
  change dropQueued.skipMissing y db = dropQueued.skipMissing x db ∨
    ∃ db', dropQueued.skipMissing y db = (.error .value, db')
  unfold dropQueued.skipMissing
  rcases h db with h | ⟨db', h⟩
  · change y db = x db at h
    rw [h]
    exact .inl rfl
  · change y db = _ at h
    rw [h]
    exact .inr ⟨db', rfl⟩

theorem within_dropQueued (env : Env) (l : List (ℕ × Key)) :
    Within .value (dropQueued (cfg.refusing p) env l) (dropQueued cfg env l) := by
  induction l with
  | nil => exact .refl _ _
  | cons e rest ih =>
    obtain ⟨r, key⟩ := e
    rw [dropQueued, dropQueued]
    refine .bind (.refl _ _) fun db => ?_
    split
    · exact ih
    · exact .bind (within_skipMissing (within_fDelete _ _ _ _ _ _)) fun _ => ih

theorem within_closeSession (env : Env) :
    Within .value (closeSession (cfg.refusing p) env) (closeSession cfg env) := by
  unfold closeSession
  exact .bind (.refl _ _) fun db => .bind (within_dropQueued _ _) fun _ => .refl _ _

end JDb

/-! ## Calls and runs -/

/-- **A call under the codec that refuses** runs the same, up to the first row refused. -/
theorem within_exec (env : Env) (c : Call) :
    Within .value (c.exec (cfg.refusing p) env) (c.exec cfg env) := by
  cases c with
  | opened => exact .refl _ _
  | closed => exact .map (JDb.within_closeSession _)
  | write key val a => exact .map (JDb.within_fWrite _ _ _ _)
  | append key val ttl kf => exact .map (JDb.within_fAppend _ _ _ _ _)
  | delete key rv row fl kf => exact .map (JDb.within_fDelete _ _ _ _ _ _)
  | undelete key row fl => exact .map (JDb.within_fUndelete _ _ _)
  | unwrite key row => exact .map (JDb.within_fUnwrite _ _)
  | rename key newKey => exact .map (JDb.within_fRename _ _)
  | writeKeyFlags key fl ttl md => exact .map (JDb.within_fWriteKeyFlags _ _ _ _)
  | setDate key cd md ttl => exact .map (JDb.within_setDate _ _ _ _)
  | setLink key target => exact .map (JDb.within_setLink _ _ _)
  | unmodify key ver => exact .map (JDb.within_unmodify _ _)
  | revert key ver => exact .map (JDb.within_revert _ _)
  | read key row kf => exact .refl _ _

/-- The call returns also under the codec that refuses. -/
def Call.Accepted (cfg : Config) (p : Row → KeyRec → ℕ → Bool) (db : JDb) (l : Label) : Prop :=
  ∃ db', Step (cfg.refusing p) db l db'

theorem Step.accepted {db db' : JDb} {l : Label} (h : Step cfg db l db') (ha : Call.Accepted cfg p db l) :
    Step (cfg.refusing p) db l db' := by
  obtain ⟨ret, h⟩ := h
  obtain ⟨db'', ret', h'⟩ := ha
  have := (within_exec l.1 l.2).ok h'
  rw [h] at this
  cases this
  exact ⟨ret, h'⟩

/-- A row takes at most `MAX_INDEX_SIZE` bytes, or as many as the index started with. -/
def fitting (cfg : Config) (_ : Row) (_ : KeyRec) (n : ℕ) : Bool :=
  decide (n + 1 ≤ max MAX_INDEX_SIZE cfg.initIndexSize)

end OmniJsonDb
