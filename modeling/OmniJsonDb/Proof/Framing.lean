import Mathlib.Algebra.Group.Action.Defs
import OmniJsonDb.Model.Framing
import OmniJsonDb.Proof.Unpack

/-!
# Frames survive fragmentation

However the bytes of frames are cut into packets, the receiver takes one frame for each call.

* `wp_recvExactly`, `wp_recvExactly_cut`: so many bytes are read, or the stream ends.
* `wp_recvAndLoad`: one frame, one message; `wp_recvAndLoad_cut`: a frame that is cut.
* `recvMany_dumpMany`: a sequence of messages, and a stream cut inside a frame.
-/

namespace OmniJsonDb

namespace Sock

/-! ## Reading so many bytes -/

/-- No packet is empty. -/
def Packed (ps : List Bytes) : Prop := ∀ p ∈ ps, p ≠ []

/-- `recv` takes a first piece, which is not empty, off a stream that is not. -/
theorem recv_run {ps : List Bytes} (h : Packed ps) {n : ℕ} (hn : 0 < n) (hne : ps ≠ []) :
    ∃ b ps', (recv n).run ps = (.ok b, ps') ∧ b ≠ [] ∧ b.length ≤ n ∧ ps.flatten = b ++ ps'.flatten ∧
      Packed ps' := by
  cases ps with
  | nil => exact absurd rfl hne
  | cons p ps =>
    have hp : p ≠ [] := h p List.mem_cons_self
    have hps : Packed ps := fun q hq => h q (List.mem_cons_of_mem _ hq)
    by_cases hle : p.length ≤ n
    · refine ⟨p, ps, ?_, hp, hle, rfl, hps⟩
      simp [recv, Exec.run, Exec.modifyGet, hle]
    · refine ⟨p.take n, p.drop n :: ps, ?_, ?_, by simp, ?_, ?_⟩
      · simp [recv, Exec.run, Exec.modifyGet, hle]
      · intro hnil
        have hlen := congrArg List.length hnil
        rw [List.length_take, List.length_nil] at hlen
        omega
      · rw [List.flatten_cons, List.flatten_cons, ← List.append_assoc, List.take_append_drop]
      · intro q hq
        rcases List.mem_cons.1 hq with rfl | hq
        · intro hnil
          have hlen := congrArg List.length hnil
          rw [List.length_drop, List.length_nil] at hlen
          omega
        · exact hps q hq

/-- **The loop.** With `a` still to come, it gets `a` and leaves the rest. -/
theorem wp_recvLoop {n : ℕ} {a rest : Bytes} (fuel : ℕ) :
    ∀ {got : ℕ} {chunks ps : List Bytes}, Packed ps → ps.flatten = a ++ rest → got + a.length = n → a.length ≤ fuel →
      Exec.Wp (recvLoop n fuel chunks got) ps
        (fun cs ps' => cs.flatten = chunks.flatten ++ a ∧ ps'.flatten = rest ∧ Packed ps') fun _ _ => False := by
  induction fuel generalizing a with
  | zero =>
    intro got chunks ps hps hflat hgot hfuel
    obtain rfl : a = [] := List.length_eq_zero_iff.1 (Nat.le_zero.1 hfuel)
    exact ⟨by simp, hflat, hps⟩
  | succ fuel ih =>
    intro got chunks ps hps hflat hgot hfuel
    rw [recvLoop]
    by_cases hlt : got < n
    swap
    · obtain rfl : a = [] := List.length_eq_zero_iff.1 (by omega)
      rw [if_neg hlt]
      exact ⟨by simp, hflat, hps⟩
    rw [if_pos hlt]
    have hne : ps ≠ [] := by
      rintro rfl
      have hnil := congrArg List.length hflat
      simp only [List.flatten_nil, List.length_nil, List.length_append] at hnil
      omega
    obtain ⟨b, ps', hrun, hb, hble, hcut, hps'⟩ := recv_run hps (show 0 < n - got by omega) hne
    rw [Exec.wp_bind_of_run hrun, if_neg hb]
    -- the piece is a first part of `a`
    have hpre : b <+: a := by
      have h1 : b <+: a ++ rest := ⟨ps'.flatten, by rw [← hcut, hflat]⟩
      exact List.prefix_of_prefix_length_le h1 (List.prefix_append a rest) (by omega)
    obtain ⟨a', rfl⟩ := hpre
    have hrest : ps'.flatten = a' ++ rest := by
      have heq := hcut.symm.trans hflat
      rw [List.append_assoc] at heq
      exact List.append_cancel_left heq
    have hblen : 0 < b.length := List.length_pos_of_ne_nil hb
    rw [List.length_append] at hgot hfuel
    refine Exec.wp_mono (ih hps' hrest (by omega) (by omega)) ?_ fun _ _ h => h
    rintro cs ps'' ⟨hcs, hflat'', hps''⟩
    exact ⟨by rw [hcs]; simp, hflat'', hps''⟩

/-- The stream ends before there are enough bytes. -/
theorem wp_recvLoop_cut {n : ℕ} (fuel : ℕ) :
    ∀ {got : ℕ} {chunks ps : List Bytes}, Packed ps → got + ps.flatten.length < n → ps.flatten.length < fuel →
      Exec.Wp (recvLoop n fuel chunks got) ps (fun _ _ => False) fun e ps' => e = .eof ∧ ps' = [] := by
  induction fuel with
  | zero => exact fun _ _ h => absurd h (Nat.not_lt_zero _)
  | succ fuel ih =>
    intro got chunks ps hps hgot hfuel
    rw [recvLoop, if_pos (by omega)]
    cases hps0 : ps with
    | nil => exact ⟨rfl, rfl⟩
    | cons p qs =>
      obtain ⟨b, ps', hrun, hb, -, hcut, hps'⟩ := recv_run hps (show 0 < n - got by omega) (by simp [hps0])
      rw [hps0] at hrun
      rw [Exec.wp_bind_of_run hrun, if_neg hb]
      have hblen : 0 < b.length := List.length_pos_of_ne_nil hb
      rw [hcut, List.length_append] at hgot hfuel
      exact ih hps' (by omega) (by omega)

theorem wp_recvExactly {size : ℕ} {a rest : Bytes} {ps : List Bytes} (hps : Packed ps)
    (hflat : ps.flatten = a ++ rest) (ha : a.length = alignSize size) :
    Exec.Wp (recvExactly size) ps (fun b ps' => b = a ∧ ps'.flatten = rest ∧ Packed ps') fun _ _ => False := by
  unfold recvExactly
  rw [Exec.wp_map]
  refine Exec.wp_mono (wp_recvLoop _ hps hflat (by omega) (by omega)) ?_ fun _ _ h => h
  rintro cs ps' ⟨hcs, h⟩
  exact ⟨by simpa using hcs, h⟩

theorem wp_recvExactly_cut {size : ℕ} {ps : List Bytes} (hps : Packed ps) (hlen : ps.flatten.length < alignSize size) :
    Exec.Wp (recvExactly size) ps (fun _ _ => False) fun e ps' => e = .eof ∧ ps' = [] := by
  unfold recvExactly
  rw [Exec.wp_map]
  exact wp_recvLoop_cut _ hps (by omega) hlen

/-! ## Header and padding -/

theorem alignSize_spec (size : ℕ) : size ≤ alignSize size ∧ alignSize size < size + 8 ∧ alignSize size % 8 = 0 := by
  have hshift : (size >>> 3) <<< 3 = size / 8 * 8 := by
    rw [Nat.shiftRight_eq_div_pow, Nat.shiftLeft_eq]
  have hmask : size &&& 0x7 = size % 8 := Nat.and_two_pow_sub_one_eq_mod size 3
  unfold alignSize
  rw [hshift, hmask]
  split <;> omega

/-- The size field holds 48 bits. -/
theorem header_spec {size : ℕ} (h : size < 2 ^ 48) :
    (0xFEED000000000000 ||| size) < 256 ^ 8 ∧
      (0xFEED000000000000 ||| size) &&& 0xFFFF000000000000 = 0xFEED000000000000 ∧
      (0xFEED000000000000 ||| size) &&& 0x0000FFFFFFFFFFFF = size := by
  have hhigh : size &&& 0xFFFF000000000000 = 0 := by
    refine Nat.eq_of_testBit_eq fun i => ?_
    have hmask : (0xFFFF000000000000 : ℕ) = 0xFFFF <<< 48 := by decide
    rw [Nat.testBit_and, Nat.zero_testBit, hmask, Nat.testBit_shiftLeft]
    by_cases hi : 48 ≤ i
    · have hlt : size < 2 ^ i := lt_of_lt_of_le h (Nat.pow_le_pow_right (by decide) hi)
      rw [Nat.testBit_lt_two_pow hlt, Bool.false_and]
    · simp [hi]
  have hlow : size &&& 0x0000FFFFFFFFFFFF = size := by
    have hmod := Nat.and_two_pow_sub_one_eq_mod size 48
    rw [Nat.mod_eq_of_lt h] at hmod
    exact hmod
  refine ⟨?_, ?_, ?_⟩
  · exact Nat.or_lt_two_pow (n := 64) (by norm_num) (lt_trans h (by norm_num))
  · rw [Nat.and_or_distrib_right, hhigh]
    decide
  · rw [Nat.and_or_distrib_right, hlow]
    have hzero : (0xFEED000000000000 &&& 0x0000FFFFFFFFFFFF : ℕ) = 0 := by decide
    rw [hzero, Nat.zero_or]

/-- A frame: header, encoding, padding. -/
theorem frame_eq {data : Bytes} (h : data.length < 2 ^ 48) :
    frame data = .ok (beBytes 8 (0xFEED000000000000 ||| data.length) ++
      (data ++ List.replicate (alignSize data.length - data.length) 0)) := by
  unfold frame
  simp only [(header_spec h).1, if_true, List.append_assoc]

/-! ## One message -/

variable {M : Type} {loads : Bytes → Except MsgErr M} {data rest : Bytes} {ps : List Bytes}

/-- **One frame, one message**, however it is cut into packets, and the rest of the stream is left. -/
theorem wp_recvAndLoad {buf : Bytes} {obj : M} (hlen : data.length < 2 ^ 48) (hbuf : frame data = .ok buf)
    (hloads : loads data = .ok obj) (hps : Packed ps) (hflat : ps.flatten = buf ++ rest) :
    Exec.Wp (recvAndLoad loads) ps (fun m ps' => m = obj ∧ ps'.flatten = rest ∧ Packed ps') fun _ _ => False := by
  obtain ⟨hlt, htag, hsize⟩ := header_spec hlen
  obtain ⟨halign, -, -⟩ := alignSize_spec data.length
  obtain ⟨pad, hpad⟩ : ∃ pad : Bytes, pad = List.replicate (alignSize data.length - data.length) 0 := ⟨_, rfl⟩
  rw [frame_eq hlen, ← hpad] at hbuf
  obtain rfl := Except.ok.inj hbuf
  rw [List.append_assoc] at hflat
  have hheadlen : (beBytes 8 (0xFEED000000000000 ||| data.length)).length = alignSize 8 := length_beBytes 8 _
  unfold recvAndLoad
  rw [Exec.wp_bind]
  refine Exec.wp_mono (wp_recvExactly hps hflat hheadlen) ?_ fun _ _ h => h
  rintro head ps₁ ⟨rfl, hflat₁, hps₁⟩
  simp only [beNat_beBytes hlt, htag, hsize, ne_eq, not_true_eq_false, if_false]
  rw [Exec.wp_bind]
  have hbodylen : (data ++ pad).length = alignSize data.length := by
    rw [List.length_append, hpad, List.length_replicate]
    omega
  refine Exec.wp_mono (wp_recvExactly hps₁ hflat₁ hbodylen) ?_ fun _ _ h => h
  rintro req ps₂ ⟨rfl, hflat₂, hps₂⟩
  have hreq : ¬ (0 < data.length ∧ data ++ pad = []) := by
    rintro ⟨hpos, hnil⟩
    rw [(List.append_eq_nil_iff.1 hnil).1] at hpos
    exact absurd hpos (lt_irrefl _)
  rw [if_neg hreq, List.take_left, hloads]
  exact ⟨rfl, hflat₂, hps₂⟩

/-- **A stream that ends inside a frame**, also before its first byte. -/
theorem wp_recvAndLoad_cut {buf cut : Bytes} (hlen : data.length < 2 ^ 48) (hbuf : frame data = .ok buf)
    (hps : Packed ps) (hcut : buf = ps.flatten ++ cut) (hne : cut ≠ []) :
    Exec.Wp (recvAndLoad loads) ps (fun _ _ => False) fun e ps' => e = .eof ∧ ps' = [] := by
  obtain ⟨hlt, htag, hsize⟩ := header_spec hlen
  obtain ⟨halign, -, -⟩ := alignSize_spec data.length
  rw [frame_eq hlen] at hbuf
  obtain rfl := Except.ok.inj hbuf
  have hcutlen : 0 < cut.length := List.length_pos_of_ne_nil hne
  have htotal := congrArg List.length hcut
  simp only [List.length_append, length_beBytes, List.length_replicate] at htotal
  unfold recvAndLoad
  by_cases hshort : ps.flatten.length < 8
  · rw [Exec.wp_bind]
    exact Exec.wp_mono (wp_recvExactly_cut hps hshort) (fun _ _ h => h.elim) fun _ _ h => h
  -- the header is there, the body is not
  have hpre : beBytes 8 (0xFEED000000000000 ||| data.length) <+: ps.flatten := by
    have h1 : beBytes 8 (0xFEED000000000000 ||| data.length) <+: ps.flatten ++ cut := ⟨_, hcut⟩
    exact List.prefix_of_prefix_length_le h1 (List.prefix_append _ _) (by rw [length_beBytes]; omega)
  obtain ⟨body, hbody⟩ := hpre
  have hheadlen : (beBytes 8 (0xFEED000000000000 ||| data.length)).length = alignSize 8 := length_beBytes 8 _
  rw [Exec.wp_bind]
  refine Exec.wp_mono (wp_recvExactly hps hbody.symm hheadlen) ?_ fun _ _ h => h.elim
  rintro head ps₁ ⟨rfl, hflat₁, hps₁⟩
  simp only [beNat_beBytes hlt, htag, hsize, ne_eq, not_true_eq_false, if_false]
  rw [Exec.wp_bind]
  have hlen₁ := congrArg List.length hbody
  rw [List.length_append, length_beBytes, ← hflat₁] at hlen₁
  exact Exec.wp_mono (wp_recvExactly_cut hps₁ (by omega)) (fun _ _ h => h.elim) fun _ _ h => h

/-! ## A sequence of messages -/

/-- A message that the codec round-trips and whose encoding has a length of 48 bits. -/
def Travels (dumps : M → Except MsgErr Bytes) (loads : Bytes → Except MsgErr M) (m : M) : Prop :=
  ∃ data, dumps m = .ok data ∧ loads data = .ok m ∧ data.length < 2 ^ 48

variable {dumps : M → Except MsgErr Bytes}

/-- It is sent as the frame of its encoding. -/
theorem Travels.dumpAndSend {m : M} (h : Travels dumps loads m) : ∃ data buf, dumps m = .ok data ∧ loads data = .ok m ∧
    data.length < 2 ^ 48 ∧ frame data = .ok buf ∧ dumpAndSend dumps m = .ok buf := by
  obtain ⟨data, hd, hl, hlen⟩ := h
  have hbuf := frame_eq hlen
  refine ⟨data, _, hd, hl, hlen, hbuf, ?_⟩
  unfold Sock.dumpAndSend
  rw [hd]
  exact hbuf

theorem wp_recvMany {msgs : List M} (h : ∀ m ∈ msgs, Travels dumps loads m) : ∃ stream, dumpMany dumps msgs = .ok stream ∧
    ∀ {ps : List Bytes} {rest : Bytes}, Packed ps → ps.flatten = stream ++ rest →
      Exec.Wp (recvMany loads msgs.length) ps (fun out ps' => out = msgs ∧ ps'.flatten = rest ∧ Packed ps')
        fun _ _ => False := by
  induction msgs with
  | nil => exact ⟨[], rfl, fun hps hflat => ⟨rfl, hflat, hps⟩⟩
  | cons m msgs ih =>
    obtain ⟨stream, hstream, hmany⟩ := ih fun m' hm' => h m' (List.mem_cons_of_mem _ hm')
    obtain ⟨data, buf, -, hloads, hlen, hbuf, hsend⟩ := (h m List.mem_cons_self).dumpAndSend
    refine ⟨buf ++ stream, ?_, ?_⟩
    · rw [dumpMany, hsend, hstream]
      rfl
    intro ps rest hps hflat
    rw [List.append_assoc] at hflat
    rw [List.length_cons, recvMany, Exec.wp_bind]
    refine Exec.wp_mono (wp_recvAndLoad hlen hbuf hloads hps hflat) ?_ fun _ _ h => h
    rintro obj ps₁ ⟨rfl, hflat₁, hps₁⟩
    rw [Exec.wp_bind]
    refine Exec.wp_mono (hmany hps₁ hflat₁) ?_ fun _ _ h => h
    rintro objs ps₂ ⟨rfl, h₂⟩
    exact ⟨rfl, h₂⟩

/-- **Framing is transparent.** Messages that the codec round-trips, sent one after the other, come
out of as many receiving calls, in order, however the stream is cut into packets; exactly the bytes
sent are taken. When the stream ends inside the frame of a further message, the call for it raises
`EOFError`. -/
theorem recvMany_dumpMany (dumps : M → Except MsgErr Bytes) (loads : Bytes → Except MsgErr M) (msgs : List M)
    (h : ∀ m ∈ msgs, Travels dumps loads m) : ∃ stream, dumpMany dumps msgs = .ok stream ∧
      (∀ ps rest, Packed ps → ps.flatten = stream ++ rest →
        ∃ ps', (recvMany loads msgs.length).run ps = (.ok msgs, ps') ∧ ps'.flatten = rest) ∧
      (∀ last part cut, Travels dumps loads last → dumpAndSend dumps last = .ok (part ++ cut) → cut ≠ [] →
        ∀ ps, Packed ps → ps.flatten = stream ++ part →
          ∃ ps', (recvMany loads msgs.length).run ps = (.ok msgs, ps') ∧
            (recvAndLoad loads).run ps' = (.error .eof, [])) := by
  obtain ⟨stream, hstream, hmany⟩ := wp_recvMany h
  refine ⟨stream, hstream, fun ps rest hps hflat => ?_, fun last part cut hlast hsend hne ps hps hflat => ?_⟩
  · obtain ⟨out, ps', hrun, rfl, hrest, -⟩ := (hmany hps hflat).returns
    exact ⟨ps', hrun, hrest⟩
  · obtain ⟨out, ps', hrun, rfl, hpart, hps'⟩ := (hmany hps hflat).returns
    obtain ⟨data, buf, -, -, hlen, hbuf, hsend'⟩ := hlast.dumpAndSend
    obtain rfl : buf = part ++ cut := Except.ok.inj (hsend'.symm.trans hsend)
    have hcut : Exec.Wp (recvAndLoad loads) ps' (fun _ _ => False) fun e ps'' => e = .eof ∧ ps'' = [] :=
      wp_recvAndLoad_cut hlen hbuf hps' (by rw [hpart]) hne
    obtain ⟨e, ps'', hraise, rfl, rfl⟩ := hcut.raises
    exact ⟨ps', hrun, hraise⟩

/-! ## Two messages, and one that is too long -/

/-- Two messages in packets of eleven bytes and the rest. -/
theorem recvMany_two : ∃ stream, dumpMany msgDumps [.list [.int 5, .none], .str []] = .ok stream ∧
    ∃ ps', (recvMany (msgLoads 3) 2).run [stream.take 11, stream.drop 11] =
      (.ok [.list [.int 5, .none], .str []], ps') ∧ ps'.flatten = [] := by
  have hall : ∀ m ∈ [MsgVal.list [.int 5, .none], .str []], Travels msgDumps (msgLoads 3) m := by
    intro m hm
    rcases List.mem_cons.1 hm with rfl | hm
    · exact ⟨[0x92, 5, 0xC0], by rfl, by rfl, by norm_num⟩
    · obtain rfl := List.mem_singleton.1 hm
      exact ⟨[0xA0], by rfl, by rfl, by norm_num⟩
  obtain ⟨stream, hstream, hmany, -⟩ := recvMany_dumpMany msgDumps (msgLoads 3) _ hall
  have hval : dumpMany msgDumps [.list [.int 5, .none], .str []] =
      .ok (beBytes 8 0xFEED000000000003 ++ [0x92, 5, 0xC0, 0, 0, 0, 0, 0] ++
        (beBytes 8 0xFEED000000000001 ++ [0xA0, 0, 0, 0, 0, 0, 0, 0])) := by rfl
  refine ⟨stream, hstream, hmany _ [] ?_ (by simp)⟩
  obtain rfl := Except.ok.inj (hstream.symm.trans hval)
  intro p hp
  have hcases : p ∈ [_, _] := hp
  simp only [List.mem_cons, List.not_mem_nil, or_false] at hcases
  rcases hcases with rfl | rfl <;> decide

open MsgVal

theorem encAll_replicate {x : MsgVal} {b : Bytes} (h : enc x = .ok b) (k : ℕ) :
    encAll (List.replicate k x) = .ok (List.replicate k b).flatten := by
  induction k with
  | zero => rfl
  | succ k ih =>
    rw [List.replicate_succ, encAll, h, ih]
    rfl

/-- `k` times the same bytes. -/
def manyBytes (k : ℕ) (b : Bytes) : MsgVal := .list (List.replicate k (.bytes b))

theorem dumps_manyBytes {k : ℕ} {b : Bytes} (hk : 0xFFFF < k) (hk' : k < 2 ^ 32) (hb : 0xFFFF < b.length)
    (hb' : b.length < 2 ^ 32) : ∃ data, msgDumps (manyBytes k b) = .ok data ∧
      msgLoads 3 data = .ok (manyBytes k b) ∧ data.length = 5 + k * (5 + b.length) := by
  have hbin : enc (.bytes b) = .ok (0xC6 :: beBytes 4 b.length ++ b) := by
    have hhead : binHeader b.length = .ok (0xC6 :: beBytes 4 b.length) := by
      unfold binHeader packNat
      rw [if_neg (by omega), if_neg (by omega), if_pos (by norm_num; omega)]
    rw [enc, encRaw, if_neg (by omega), hhead]
    rfl
  have hhead : arrayHeader k = .ok (0xDD :: beBytes 4 k) := by
    unfold arrayHeader packNat
    rw [if_neg (by omega), if_neg (by omega), if_pos (by norm_num; omega)]
  obtain ⟨data, hdata⟩ : ∃ data, data = (0xDD :: beBytes 4 k) ++
      (List.replicate k (0xC6 :: beBytes 4 b.length ++ b)).flatten := ⟨_, rfl⟩
  have henc : enc (manyBytes k b) = .ok data := by
    unfold manyBytes
    rw [enc, encSeq, List.length_replicate, if_neg (by omega), hhead, encAll_replicate hbin, hdata]
    rfl
  have hplain : (manyBytes k b).Plain := by
    have hall : ∀ n, PlainAll (List.replicate n (.bytes b)) := by
      intro n
      induction n with
      | zero => trivial
      | succ n ih => exact ⟨trivial, ih⟩
    exact hall k
  have hdepth : ∀ n, depthAll (List.replicate n (.bytes b)) = 0 := by
    intro n
    induction n with
    | zero => rfl
    | succ n ih => rw [List.replicate_succ, depthAll, ih]; rfl
  have hlevels : ∀ n, levelsAll (List.replicate n (.bytes b)) ≤ 1 := by
    intro n
    induction n with
    | zero => exact Nat.zero_le _
    | succ n ih =>
      rw [List.replicate_succ, levelsAll]
      exact max_le le_rfl ih
  refine ⟨data, ?_, ?_, ?_⟩
  · rw [msgDumps_eq, henc]
    unfold manyBytes
    rw [depth, hdepth]
    omega
  · have hread := decodes _ hplain henc [] [] 3 (by
      unfold manyBytes
      rw [levels]
      have := hlevels k
      omega)
    rw [List.nil_append, List.append_nil] at hread
    have hne : data ≠ [] := by
      rw [hdata]
      exact List.cons_ne_nil _ _
    have hread : msgUnpack data 3 0 = .ok (manyBytes k b, 0 + data.length) := hread
    unfold msgLoads
    rw [if_neg hne, hread]
  · rw [hdata]
    simp only [List.length_append, List.length_cons, length_beBytes, List.length_flatten, List.map_replicate,
      List.sum_replicate, smul_eq_mul]

/-- 65537 strings of 2^32 - 1 bytes, which the codec round-trips: bit 48 of the length is lost in the
tag, and the receiver leaves most of the frame on the stream. -/
theorem recvAndLoad_tooLong :
    ∃ data buf, msgDumps (manyBytes 65537 (List.replicate (2 ^ 32 - 1) 0)) = .ok data ∧
      msgLoads 3 data = .ok (manyBytes 65537 (List.replicate (2 ^ 32 - 1) 0)) ∧ frame data = .ok buf ∧
      ∀ m, (recvAndLoad (msgLoads 3)).run [buf] ≠ (.ok m, []) := by
  obtain ⟨b, hb⟩ : ∃ b : Bytes, b = List.replicate (2 ^ 32 - 1) 0 := ⟨_, rfl⟩
  have hblen : b.length = 2 ^ 32 - 1 := by rw [hb, List.length_replicate]
  rw [← hb]
  obtain ⟨data, hdumps, hloads, hlen⟩ := dumps_manyBytes (k := 65537) (b := b) (by norm_num) (by norm_num)
    (by rw [hblen]; norm_num) (by rw [hblen]; norm_num)
  have hlen : data.length = 281479271940105 := by rw [hlen, hblen]; norm_num
  have halign : alignSize data.length = 281479271940112 := by rw [hlen]; decide
  have hheader : (0xFEED000000000000 ||| data.length) = 0xFEED000100040009 := by rw [hlen]; decide
  obtain ⟨pad, hpad⟩ : ∃ pad : Bytes, pad = List.replicate (alignSize data.length - data.length) 0 := ⟨_, rfl⟩
  have hframe : frame data = .ok (beBytes 8 0xFEED000100040009 ++ (data ++ pad)) := by
    unfold frame
    simp only [hheader]
    rw [if_pos (by norm_num), List.append_assoc, ← hpad]
  refine ⟨data, _, hdumps, hloads, hframe, ?_⟩
  intro m hrun
  -- the size field says 4295229449
  have hbody : (data ++ pad) = (data ++ pad).take 4295229456 ++ (data ++ pad).drop 4295229456 :=
    (List.take_append_drop _ _).symm
  have htotal : (data ++ pad).length = 281479271940112 := by
    rw [List.length_append, hpad, List.length_replicate, halign, hlen]
  have hpacked : Packed [beBytes 8 0xFEED000100040009 ++ (data ++ pad)] := by
    intro p hp
    obtain rfl := List.mem_singleton.1 hp
    intro hnil
    have := congrArg List.length hnil
    rw [List.length_append, htotal, List.length_nil] at this
    omega
  have hwp : Exec.Wp (recvAndLoad (msgLoads 3)) [beBytes 8 0xFEED000100040009 ++ (data ++ pad)]
      (fun _ ps' => ps'.flatten = (data ++ pad).drop 4295229456)
      (fun _ ps' => ps'.flatten = (data ++ pad).drop 4295229456) := by
    have hheadlen : (beBytes 8 0xFEED000100040009).length = alignSize 8 := length_beBytes 8 _
    unfold recvAndLoad
    rw [Exec.wp_bind]
    refine Exec.wp_mono (wp_recvExactly hpacked (List.append_nil _) hheadlen) ?_ fun _ _ h => h.elim
    rintro head ps₁ ⟨rfl, hflat₁, hps₁⟩
    have hnat : beNat (beBytes 8 0xFEED000100040009) = 0xFEED000100040009 := beNat_beBytes (by norm_num)
    have htag : (0xFEED000100040009 &&& 0xFFFF000000000000 : ℕ) = 0xFEED000000000000 := by decide
    have hsize : (0xFEED000100040009 &&& 0x0000FFFFFFFFFFFF : ℕ) = 4295229449 := by decide
    simp only [hnat, htag, hsize, ne_eq, not_true_eq_false, if_false]
    rw [Exec.wp_bind]
    have htake : ((data ++ pad).take 4295229456).length = alignSize 4295229449 := by
      have hval : alignSize 4295229449 = 4295229456 := by decide
      rw [hval, List.length_take, htotal]
      omega
    rw [hbody] at hflat₁
    refine Exec.wp_mono (wp_recvExactly hps₁ hflat₁ htake) ?_ fun _ _ h => h.elim
    rintro req ps₂ ⟨rfl, hflat₂, -⟩
    split
    · exact hflat₂
    · split <;> exact hflat₂
  have hend := hwp.ok hrun
  have hdrop := congrArg List.length hend
  rw [List.length_drop, htotal] at hdrop
  simp at hdrop

end Sock

end OmniJsonDb
