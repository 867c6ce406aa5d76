import Libfic2.PinDirection
import Libfic2.BufferReads

/-!
# The progress counter of the programming functions

`PROG_STAT.tx_size` goes up by one word in every round of a data loop.  A round of the
fast loops may clock up to 16 words, and the x16 loops clock a whole word even for the
last byte of an odd size.  `ProgFn.round` is a round as a whole; its loop variables are
the index and the previous word, after `k` words `ProgFn.place data k` (`round_samples`).

* `counts_iff`: for which bitstreams the counter is right, at the end of every round and
  of the call.
-/

namespace Libfic2

open Driver Prog Sys Bursts

/-! ## What a round does to PROG_STAT -/

/-- An operation that leaves PROG_STAT alone. -/
def NoStat : Op → Prop
  | .stat _ => False
  | _ => True

instance : Signals NoStat := ⟨fun _ => trivial, fun _ => trivial, trivial, trivial⟩
instance : PinWork (fun _ => True) NoStat := ⟨fun _ => trivial, fun _ => trivial, fun _ _ => trivial⟩

/-- `PROG_STAT.tx_size += n`. -/
def ProgStat.counted (st : ProgStat) (n : Nat) : ProgStat := { st with txSize := st.txSize + n }

theorem keeps_stat {D : Type} {dev : Device D} (st : ProgStat) :
    KeepsOps (sys dev) NoStat fun t => t.stat = st where
  act o t a t' ho ha ht := by
    cases o with
    | stat f => exact ho.elim
    | _ => (obtain ⟨-, rfl⟩ := ha; exact ht)
  env t t' he ht := by
    obtain ⟨d, -, rfl⟩ := he
    exact ht

section
variable {D : Type} {dev : Device D} {fuel : Nat} {X : Type} {s : World D}

theorem drives_noStat : DrivesPins NoStat fun _ => True :=
  ⟨trivial, trivial, fun _ _ => trivial, fun _ _ => trivial⟩

variable {n : Nat} {st : ProgStat} (hst : s.stat = st)
include hst

theorem wp_noStat {p : P X} (hp : Ops NoStat p) :
    wp (sys dev) (fun t => t.stat = st ∨ t.stat = st.counted n) (fun _ t => t.stat = st) p s :=
  wp_weaken (wp_of_ops (keeps_stat st) hp hst) fun _ => .inl

variable (hs : dev.Still)
include hs

/-- A round of a plain loop counts `n` bytes after its word. -/
theorem wp_plainCount {p : P Int} (hp : Ops NoStat p) (y : X) :
    wp (sys dev) (fun t => t.stat = st ∨ t.stat = st.counted n) (fun r t => ∀ z, r = some z →
      z = y ∧ t.stat = st.counted n)
      (checkOr none p (checkOr none (plainRoundEnd n) (ret (some y)))) s := by
  refine wp_checkOr (wp_mono (wp_noStat hst hp) fun r t _ ht =>
    ⟨fun _ => wp_retStill hs (.inl ht) (fun _ h => nomatch h), fun _ => ?_⟩)
  have hcount : st.counted n = { t.stat with txSize := t.stat.txSize + n } := by rw [ht]; rfl
  refine wp_checkOr (wp_stat hs (.inl ht)
    _ (wp_time hs (.inr hcount.symm) fun _ => wp_get hs (.inr hcount.symm) fun v _ => ?_))
  split
  · exact wp_retStill hs (.inr hcount.symm)
      ⟨fun _ => wp_retStill hs (.inr hcount.symm) (fun _ h => nomatch h), fun h => absurd (by decide) h⟩
  · exact wp_retStill hs (.inr hcount.symm)
      ⟨fun h => absurd h (by decide), fun _ => wp_retStill hs (.inr hcount.symm) fun _ hz =>
      ⟨(Option.some.inj hz).symm, hcount.symm⟩⟩

/-- So does a round of a fast loop, whatever it clocks. -/
theorem wp_fastCount {p : P Nat} (hp : Ops NoStat p) (y : Nat → X) :
    wp (sys dev) (fun t => t.stat = st ∨ t.stat = st.counted n) (fun r t => ∀ z, r = some z →
      (∃ k, z = y k) ∧ t.stat = st.counted n)
      (p >>= fun k => addTx n >>= fun _ => ret (some (y k))) s := by
  refine wp_bind (wp_mono (wp_noStat hst hp) fun k t _ ht => ?_)
  have hcount : st.counted n = { t.stat with txSize := t.stat.txSize + n } := by rw [ht]; rfl
  exact wp_stat hs (.inl ht) _ (wp_retStill hs (.inr hcount.symm) fun _ hz =>
    ⟨⟨k, (Option.some.inj hz).symm⟩, hcount.symm⟩)

/-- Every round moves the index on and adds one word to the counter. -/
theorem round_counts (f : ProgFn) (data : Mem) (x : Nat × f.Prev) :
    wp (sys dev) (fun t => t.stat = st ∨ t.stat = st.counted f.bytes)
      (fun r t => ∀ z, r = some z → x.1 < z.1 ∧ t.stat = st.counted f.bytes) (f.round fuel data x) s := by
  have hall : ∀ {mask : BitVec 32}, Within (fun _ => True) mask := fun _ _ _ => trivial
  cases f with
  | sm8 =>
    refine wp_mono (wp_plainCount hst hs (ops_plainRound8 drives_noStat trivial hall _ _)
      (x.1 + 1, word8 data x.1)) fun r t _ ht z hz => ?_
    obtain ⟨rfl, hcount⟩ := ht z hz
    exact ⟨Nat.lt_succ_self _, hcount⟩
  | sm16 =>
    refine wp_mono (wp_plainCount hst hs (ops_plainRound16 drives_noStat trivial hall _ _)
      (x.1 + 2, word16 data x.1)) fun r t _ ht z hz => ?_
    obtain ⟨rfl, hcount⟩ := ht z hz
    exact ⟨Nat.lt_add_of_pos_right (by decide), hcount⟩
  | sm8Fast =>
    refine wp_mono (wp_fastCount hst hs (ops_fastRound8 drives_noStat trivial hall _ _ _) fun k =>
      (x.1 + k + 1, data x.1)) fun r t _ ht z hz => ?_
    obtain ⟨⟨k, rfl⟩, hcount⟩ := ht z hz
    exact ⟨by show x.1 < x.1 + k + 1; omega, hcount⟩
  | sm16Fast =>
    refine wp_mono (wp_fastCount hst hs (ops_fastRound16 drives_noStat trivial hall _ _ _ _) fun k =>
      (x.1 + k + 2, (data (x.1 + 1), data x.1))) fun r t _ ht z hz => ?_
    obtain ⟨⟨k, rfl⟩, hcount⟩ := ht z hz
    exact ⟨by show x.1 < x.1 + k + 2; omega, hcount⟩

end

/-! ## What a round clocks -/

namespace ProgFn

/-- The `k`-th word of the bitstream. -/
def word (data : Mem) : (f : ProgFn) → Nat → f.Prev
  | sm8 => word8 data
  | sm16 => fun k => word16 data (2 * k)
  | sm8Fast => data
  | sm16Fast => bytesAt data

/-- The loop variables after `k` words. -/
def place (f : ProgFn) (data : Mem) (k : Nat) : Nat × f.Prev := (f.bytes * k, prev (f.word data) f.prev0 k)

/-- The number of words the round at the `k`-th word clocks. -/
def clocked (data : Mem) : ProgFn → Nat → Nat
  | sm8, _ => 1
  | sm16, _ => 1
  | sm8Fast, k => burst data 4 (prev data 0#8 k) k
  | sm16Fast, k => burst (bytesAt data) 2 (prev (bytesAt data) (0#8, 0#8) k) k

/-- A word on the data pins. -/
def pins : (f : ProgFn) → f.Prev → BitVec 32
  | sm8, d => d
  | sm16, d => d
  | sm8Fast, d => d.setWidth 32 <<< 8
  | sm16Fast, d => ((d.1.setWidth 32 <<< 8) ||| d.2.setWidth 32) <<< 8

end ProgFn

section
variable {lv : Gpio → BitVec 32 → Prop} {float : BitVec 32} {fuel : Nat} {c : Bool}

/-- A whole round of a plain loop. -/
theorem wp_plainSamples {n m : Nat} {d : BitVec 32} {l : List (BitVec n)} {s : World (List (BitVec n))}
    {X : Type} {p : P Int} (y : X)
    (hp : wp (sys (sampler lv float n)) anyTime (fun _ t => Sampled d true (l ++ [dataWord n d]) t) p s) :
    wp (sys (sampler lv float n)) anyTime (fun r t => ∀ z, r = some z →
      z = y ∧ Sampled d true (l ++ [dataWord n d]) t)
      (checkOr none p (checkOr none (plainRoundEnd m) (ret (some y)))) s := by
  refine wp_checkOr (wp_mono hp fun r t _ ht =>
    ⟨fun _ => wp_retStill sampler_still trivial (fun _ h => nomatch h), fun _ => ?_⟩)
  refine wp_checkOr (wp_mono (wp_plainRoundEnd m ht) fun r u _ hu =>
    ⟨fun _ => wp_retStill sampler_still trivial (fun _ h => nomatch h), fun _ => ?_⟩)
  refine wp_retStill sampler_still trivial ?_
  rintro z ⟨rfl⟩
  exact ⟨rfl, hu⟩

/-- A whole round of a fast loop. -/
theorem wp_fastSamples {n m b step : Nat} {d : BitVec 32} {l : List (BitVec n)}
    {s : World (List (BitVec n))} {X : Type} {p : P Nat}
    (y : Nat → X) (hp : wp (sys (sampler lv float n)) anyTime (fun j t => ∃ c', j = step * (b - 1) ∧
      Sampled d c' (l ++ List.replicate b (dataWord n d)) t) p s) :
    wp (sys (sampler lv float n)) anyTime
      (fun r t => ∀ z, r = some z → z = y (step * (b - 1)) ∧ ∃ c' l', Sampled d c' l' t ∧
      l'.length = l.length + b) (p >>= fun j => addTx m >>= fun _ => ret (some (y j))) s := by
  refine wp_bind (wp_mono hp fun j t _ ht =>
    wp_stat sampler_still trivial _ (wp_retStill sampler_still trivial ?_))
  obtain ⟨c', rfl, ht⟩ := ht
  rintro z ⟨rfl⟩
  exact ⟨rfl, c', _, ht, by rw [List.length_append, List.length_replicate]⟩

theorem wp_fastRound8 (data : Mem) (k : Nat) {d' : BitVec 8} {l : List (BitVec 8)}
    {s : World (List (BitVec 8))} (h : Sampled (d'.setWidth 32 <<< 8) c l s) :
    wp (sys (sampler lv float 8)) anyTime (fun j t => ∃ c', j = 1 * (burst data 4 d' k - 1) ∧
      Sampled ((data k).setWidth 32 <<< 8) c'
      (l ++ List.replicate (burst data 4 d' k) (dataWord 8 ((data k).setWidth 32 <<< 8))) t)
      (fastRound8 fuel data k d') s := by
  rw [fastRound8_eq]
  exact wp_fastRound fuel dataMask8 (fun e => by rw [e]) _ 1 h

theorem wp_fastRound16 (data : Mem) (k : Nat) {hi' lo' : BitVec 8} {l : List (BitVec 16)}
    {s : World (List (BitVec 16))}
    (h : Sampled (((hi'.setWidth 32 <<< 8) ||| lo'.setWidth 32) <<< 8) c l s) :
    wp (sys (sampler lv float 16)) anyTime
      (fun j t => ∃ c', j = 2 * (burst (bytesAt data) 2 (hi', lo') k - 1) ∧
      Sampled (word16 data (2 * k)) c'
        (l ++ List.replicate (burst (bytesAt data) 2 (hi', lo') k) (dataWord 16 (word16 data (2 * k)))) t)
      (fastRound16 fuel data (2 * k) hi' lo') s := by
  rw [fastRound16_eq]
  refine wp_fastRound fuel dataMask16 (fun e => ?_) _ 2 h
  unfold bytesAt at e
  rw [Prod.mk.injEq] at e
  rw [← e.1, ← e.2]
  rfl

/-- A round goes on by the words it clocks. -/
theorem round_samples (f : ProgFn) (data : Mem) (k : Nat) {l : List (BitVec f.lanes)}
    {s : World (List (BitVec f.lanes))} (h : Sampled (f.pins (f.place data k).2) c l s) :
    wp (sys (sampler lv float f.lanes)) anyTime (fun r t => ∀ y, r = some y →
      y = f.place data (k + f.clocked data k) ∧
      ∃ c' l', Sampled (f.pins y.2) c' l' t ∧ l'.length = l.length + f.clocked data k)
      (f.round fuel data (f.place data k)) s := by
  cases f with
  | sm8 =>
    refine wp_mono (wp_plainSamples _ (wp_plainRound8 fuel h)) fun r t _ ht y hr => ?_
    obtain ⟨rfl, hy⟩ := ht y hr
    refine ⟨?_, true, _, hy, by simp [ProgFn.clocked]⟩
    show (1 * k + 1, word8 data (1 * k)) = (1 * (k + 1), word8 data k)
    rw [Nat.mul_succ, Nat.one_mul]
  | sm16 =>
    refine wp_mono (wp_plainSamples _ (wp_plainRound16 fuel h)) fun r t _ ht y hr => ?_
    obtain ⟨rfl, hy⟩ := ht y hr
    exact ⟨rfl, true, _, hy, by simp [ProgFn.clocked]⟩
  | sm8Fast =>
    have hplace : ∀ j, ProgFn.sm8Fast.place data j = (j, prev data 0#8 j) :=
      fun j => Prod.ext (Nat.one_mul j) rfl
    have hpos := burst_pos data 4 (prev data 0#8 k) k
    rw [hplace k] at h ⊢
    refine wp_mono (wp_fastSamples (fun j => (k + j + 1, data k)) (wp_fastRound8 data k h))
      fun r t _ ht y hr => ?_
    obtain ⟨rfl, hy⟩ := ht y hr
    refine ⟨(Prod.ext ?_ prev_burst).trans (hplace _).symm, hy⟩
    show k + 1 * (burst data 4 (prev data 0#8 k) k - 1) + 1 = k + burst data 4 (prev data 0#8 k) k
    omega
  | sm16Fast =>
    have hpos := burst_pos (bytesAt data) 2 (prev (bytesAt data) (0#8, 0#8) k) k
    refine wp_mono (wp_fastSamples (fun j => (2 * k + j + 2, bytesAt data k)) (wp_fastRound16 data k h))
      fun r t _ ht y hr => ?_
    obtain ⟨rfl, hy⟩ := ht y hr
    refine ⟨Prod.ext ?_ (@prev_burst _ _ (bytesAt data) k 2 _ (0#8, 0#8)), hy⟩
    show 2 * k + 2 * (burst (bytesAt data) 2 (prev (bytesAt data) (0#8, 0#8) k) k - 1) + 2 =
      2 * (k + burst (bytesAt data) 2 (prev (bytesAt data) (0#8, 0#8) k) k)
    omega

end

/-! ## From entry to the loop -/

/-- A programming function after its first stores, up to its data loop: 0 on the way into it, -1 to the
error label. -/
def progEnter (b : Board) (fuel : Nat) (f : ProgFn) (pm : ProgMode) : P Int :=
  check (progSetup b fuel f.lanes pm) do
    let _ ← issue .time
    ret 0

/-- And from its beginning. -/
def progHead (b : Board) (fuel : Nat) (f : ProgFn) (size : Nat) (pm : ProgMode) : P Int := do
  progBegin f.smap size pm
  progEnter b fuel f pm

/-- All of it after its first stores. -/
def progMain (b : Board) (fuel : Nat) (f : ProgFn) (data : Mem) (size : Nat) (pm : ProgMode) : P Nat :=
  progEnter b fuel f pm >>= fun r =>
    (if r < 0 then ret none else f.body fuel data size) >>= progFinish fuel f.initTest f.mask pm

theorem prog_main_eq (b : Board) (fuel : Nat) (f : ProgFn) (data : Mem) (size : Nat) (pm : ProgMode) :
    f.prog b fuel data size pm = progBegin f.smap size pm >>= fun _ => progMain b fuel f data size pm := by
  rw [ProgFn.prog_eq]
  unfold progLoad progMain progEnter check
  rw [Prog.bind_assoc]
  refine congrArg (progBegin f.smap size pm >>= ·) (funext fun _ => ?_)
  rw [checkOr_bind, checkOr_bind]
  rfl

/-- The ends of the rounds are moments of the call after its first stores. -/
theorem rounds_reached {D : Type} {dev : Device D} (hs : dev.Still) {b : Board} {fuel : Nat}
    {f : ProgFn} {data : Mem}
    {size : Nat} {pm : ProgMode} {u s0 t : World D} {r : Int}
    (hr : (sys dev).Run (progEnter b fuel f pm, u) (ret r, s0)) (hr0 : 0 ≤ r) {y : Nat × f.Prev}
    (h : AfterRounds (sys dev) (f.going size) (f.round fuel data) ((0, f.prev0), s0) (y, t)) :
    ∃ q, (sys dev).Run (progMain b fuel f data size pm, u) (q, t) := by
  have hless : ∀ x u z v, OneRound (sys dev) (f.going size) (f.round fuel data) (x, u) (z, v) →
      size - z.1 < size - x.1 := by
    intro x u z v ⟨hgo, hround⟩
    have hlt := ProgFn.going_iff.1 hgo
    obtain ⟨hnext, -⟩ := wp_run_ret (round_counts rfl hs f data x) hround z rfl
    omega
  obtain ⟨k, -, hrun⟩ := h.reached hless (n := size + 1) (by show size - 0 ≤ size + 1; omega)
  have hbody := run_bind endIndex hrun
  rw [← body_while] at hbody
  have hcall :=
    run_bind (fun r => (if r < 0 then ret none else f.body fuel data size) >>=
      progFinish fuel f.initTest f.mask pm) hr
  rw [ret_bind, if_neg (Int.not_lt.2 hr0)] at hcall
  exact ⟨_, hcall.trans (run_bind _ hbody)⟩

/-- The start of a data loop: nothing counted yet, and the FPGA has sampled `base`. -/
def LoopStart (f : ProgFn) (base : List (BitVec f.lanes)) (size : Nat)
    (t : World (List (BitVec f.lanes))) : Prop :=
  Sampled (f.pins f.prev0) false base t ∧ t.stat.txSize = 0 ∧ t.stat.progSize = size

section
variable {lv : Gpio → BitVec 32 → Prop} {float : BitVec 32} (b : Board) (fuel : Nat) (f : ProgFn)
    {s : World (List (BitVec f.lanes))}

/-- After the first stores nothing is counted. -/
def Begun (size : Nat) (t : World (List (BitVec f.lanes))) : Prop :=
  t.stat.txSize = 0 ∧ t.stat.progSize = size

theorem enter_starts {size : Nat} (pm : ProgMode) (h : Begun f size s) : wp (sys (sampler lv float f.lanes))
    (fun t => t.stat.txSize ≤ t.stat.progSize)
      (fun r t => t.stat.txSize ≤ t.stat.progSize ∧ (0 ≤ r → LoopStart f s.dev size t))
      (progEnter b fuel f pm) s := by
  have hle : ∀ t : World (List (BitVec f.lanes)), t.stat = s.stat → t.stat.txSize ≤ t.stat.progSize := by
    intro t ht
    rw [ht, h.1]
    exact Nat.zero_le _
  have hn : f.lanes ≤ 16 := by cases f <;> decide
  have hpins : wp (sys (sampler lv float f.lanes)) (fun t => t.dev = s.dev)
      (SetUp s.dev (Clocked f.lanes 0#32 false))
      (progSetup b fuel f.lanes pm) s := wp_progSetup b fuel hn pm rfl
  have hops : Ops NoStat (progSetup b fuel f.lanes pm) :=
    pinWork_progSetup (A := fun _ => True) b fuel (fun _ _ => trivial) hn pm
  have hstat : wp (sys (sampler lv float f.lanes)) (fun t => t.stat = s.stat) (fun _ t => t.stat = s.stat)
      (progSetup b fuel f.lanes pm) s := wp_of_ops (keeps_stat s.stat) hops rfl
  refine wp_checkOr (wp_mono (wp_weaken (wp_and hpins hstat) fun t ht => hle t ht.2) fun r t _ ht =>
    ⟨fun _ => ?_, fun hr => ?_⟩)
  · exact wp_retStill sampler_still (hle t ht.2) ⟨hle t ht.2, fun h => absurd h (by decide)⟩
  · obtain ⟨⟨hd, hc⟩, hst⟩ := ht
    refine wp_time sampler_still (hle t hst) fun _ =>
      wp_retStill sampler_still (hle t hst)
        ⟨hle t hst, fun _ => ⟨⟨hd, ?_⟩, by rw [hst, h.1], by rw [hst, h.2]⟩⟩
    have h0 : f.pins f.prev0 = 0#32 := by cases f <;> rfl
    rw [h0]
    exact hc hr

theorem begin_begun (size : Nat) (pm : ProgMode) {α : Type}
    {Q : α → World (List (BitVec f.lanes)) → Prop} {k : Unit → P α}
    (h : ∀ t : World (List (BitVec f.lanes)), t.dev = s.dev → Begun f size t →
      wp (sys (sampler lv float f.lanes)) anyTime Q (k ()) t) :
    wp (sys (sampler lv float f.lanes)) anyTime Q (progBegin f.smap size pm >>= k) s :=
  wp_progBegin sampler_still f.smap size pm (fun _ => trivial) fun _ => h _ rfl ⟨rfl, rfl⟩

theorem head_starts (size : Nat) (pm : ProgMode) : wp (sys (sampler lv float f.lanes)) anyTime
    (fun r t => 0 ≤ r → LoopStart f s.dev size t) (progHead b fuel f size pm) s := by
  refine begin_begun f size pm fun t hd ht =>
    wp_mono (wp_weaken (enter_starts b fuel f pm ht) fun _ _ => trivial) ?_
  rw [← hd]
  exact fun r u _ hu => hu.2

end

/-! ## The condition -/

/-- Four equal words from the `k`-th on, in the fast loops, that repeat the word before: they are
clocked in one round. -/
def ProgFn.BurstAt (data : Mem) : ProgFn → Nat → Prop
  | sm8, _ => False
  | sm16, _ => False
  | sm8Fast, k => data k = prev data 0#8 k ∧ AllEq data k 4
  | sm16Fast, k => bytesAt data k = prev (bytesAt data) (0#8, 0#8) k ∧ AllEq (bytesAt data) k 4

instance (data : Mem) : (f : ProgFn) → (k : Nat) → Decidable (f.BurstAt data k)
  | .sm8, _ => inferInstanceAs (Decidable False)
  | .sm16, _ => inferInstanceAs (Decidable False)
  | .sm8Fast, _ => inferInstanceAs (Decidable (_ ∧ _))
  | .sm16Fast, _ => inferInstanceAs (Decidable (_ ∧ _))

/-- A whole number of words, and none of them begins a burst. -/
def CountsFit (data : Mem) (size : Nat) (f : ProgFn) : Prop :=
  size % f.bytes = 0 ∧ ∀ k, k < size / f.bytes → ¬ f.BurstAt data k

instance (data : Mem) (size : Nat) (f : ProgFn) : Decidable (CountsFit data size f) :=
  inferInstanceAs (Decidable (_ ∧ _))

theorem bytes_cases (f : ProgFn) : f.bytes = 1 ∨ f.bytes = 2 := by
  cases f with
  | sm8 => exact .inl rfl
  | sm16 => exact .inr rfl
  | sm8Fast => exact .inl rfl
  | sm16Fast => exact .inr rfl

theorem clocked_eq_one (f : ProgFn) (data : Mem) (k : Nat) : f.clocked data k = 1 ↔ ¬ f.BurstAt data k := by
  cases f with
  | sm8 => exact iff_of_true rfl not_false
  | sm16 => exact iff_of_true rfl not_false
  | sm8Fast => exact burst_eq_one (by decide)
  | sm16Fast => exact burst_eq_one (by decide)

/-- The counter of a programming function on the FPGA that GET_GPIO reads as `lv` allows. -/
structure CountsRight (lv : Gpio → BitVec 32 → Prop) (float : BitVec 32) (b : Board) (fuel : Nat)
    (pm : ProgMode) (f : ProgFn) (data : Mem) (size : Nat) : Prop where
  /-- At the end of every round of the loop it tells the bytes clocked since the loop began. -/
  rounds : ∀ s r s0 x t,
    (sys (sampler lv float f.lanes)).Run (progHead b fuel f size pm, s) (ret r, s0) → 0 ≤ r →
    AfterRounds (sys (sampler lv float f.lanes)) (f.going size) (f.round fuel data)
      ((0, f.prev0), s0) (x, t) →
    t.stat.txSize = f.bytes * (t.dev.length - s0.dev.length)
  /-- From the end of the first stores on it never exceeds the size. -/
  bounded : ∀ s u q t, (sys (sampler lv float f.lanes)).Run (progBegin f.smap size pm, s) (ret (), u) →
    (sys (sampler lv float f.lanes)).Run (progMain b fuel f data size pm, u) (q, t) →
    t.stat.txSize ≤ t.stat.progSize
  /-- When the call has succeeded it is the size. -/
  done : ∀ s c t, (sys (sampler lv float f.lanes)).Run (f.prog b fuel data size pm, s) (ret c, t) →
    t.stat.stat = .done → t.stat.txSize = t.stat.progSize

/-! ## Bitstreams that fit -/

section
variable {lv : Gpio → BitVec 32 → Prop} {float : BitVec 32} {b : Board} {fuel : Nat} {pm : ProgMode}
    {f : ProgFn} {data : Mem} {size : Nat}
variable {base : List (BitVec f.lanes)}

/-- After `k` words, each clocked and counted in a round of its own. -/
def Exact (f : ProgFn) (data : Mem) (base : List (BitVec f.lanes)) (size k : Nat)
    (t : World (List (BitVec f.lanes))) : Prop :=
  ∃ c l, Sampled (f.pins (f.place data k).2) c l t ∧ l.length = base.length + k ∧
    t.stat.txSize = f.bytes * k ∧ t.stat.progSize = size

theorem LoopStart.exact (data : Mem) {s0 : World (List (BitVec f.lanes))}
    (h : LoopStart f base size s0) : Exact f data base size 0 s0 :=
  ⟨false, base, h.1, rfl, h.2.1, h.2.2⟩

variable {k : Nat} {y : Nat × f.Prev} {s t : World (List (BitVec f.lanes))}

/-- One round more: the counter goes up by one word, the FPGA has sampled those of the round. -/
theorem Exact.next (h : Exact f data base size k s)
    (hr : (sys (sampler lv float f.lanes)).Run (f.round fuel data (f.place data k), s) (ret (some y), t)) :
    y = f.place data (k + f.clocked data k) ∧ t.dev.length = base.length + (k + f.clocked data k) ∧
      t.stat.txSize = f.bytes * (k + 1) ∧ (f.clocked data k = 1 → Exact f data base size (k + 1) t) := by
  obtain ⟨c, l, hl, hlen, htx, hsize⟩ := h
  obtain ⟨rfl, c', l', hl', hlen'⟩ := wp_run_ret (round_samples f data k hl) hr y rfl
  obtain ⟨-, hst⟩ := wp_run_ret (round_counts rfl sampler_still f data _) hr _ rfl
  have htx' : t.stat.txSize = f.bytes * (k + 1) := by
    rw [hst, Nat.mul_succ, ← htx]
    rfl
  refine ⟨rfl, by rw [hl'.1]; omega, htx', fun hone => ?_⟩
  rw [hone] at hl' hlen'
  exact ⟨c', l', hl', by omega, htx', by rw [hst]; exact hsize⟩

theorem CountsFit.single (hfit : CountsFit data size f) (hk : f.bytes * k < size) :
    f.clocked data k = 1 := by
  rw [clocked_eq_one]
  refine hfit.2 k ?_
  rcases bytes_cases f with hb | hb <;> rw [hb] at hk ⊢ <;> have := hfit.1 <;> rw [hb] at this <;> omega

/-- The end of every round. -/
theorem CountsFit.exact (hfit : CountsFit data size f) {s0 : World (List (BitVec f.lanes))}
    (h0 : LoopStart f base size s0)
    (h : AfterRounds (sys (sampler lv float f.lanes)) (f.going size) (f.round fuel data)
      ((0, f.prev0), s0) (y, t)) : ∃ k, y = f.place data k ∧ Exact f data base size k t := by
  refine h.inv (I := fun y t => ∃ k, y = f.place data k ∧ Exact f data base size k t)
    ⟨0, rfl, h0.exact data⟩ ?_
  rintro x s y t ⟨k, rfl, hk⟩ ⟨hgo, hr⟩
  have hone := hfit.single (ProgFn.going_iff.1 hgo)
  obtain ⟨rfl, -, -, hnext⟩ := hk.next hr
  rw [hone]
  exact ⟨k + 1, rfl, hnext hone⟩

/-- The counter is at most the size at every moment of the loop, and the size at its end. -/
theorem body_exact (hfit : CountsFit data size f) {s0 : World (List (BitVec f.lanes))}
    (h0 : LoopStart f base size s0) :
    wp (sys (sampler lv float f.lanes)) (fun t => t.stat.txSize ≤ size ∧ t.stat.progSize = size)
      (fun r t => ∀ i, r = some i → t.stat.txSize = size ∧ t.stat.progSize = size)
      (f.body fuel data size) s0 := by
  have hle : ∀ k, f.bytes * k < size → f.bytes * k + f.bytes ≤ size := by
    intro k hk
    rcases bytes_cases f with hb | hb <;> rw [hb] at hk ⊢ <;> have := hfit.1 <;> rw [hb] at this <;> omega
  -- the counter after a round that began is still in bounds, so it is at the end of every round
  have hbound : ∀ y t, AfterRounds (sys (sampler lv float f.lanes)) (f.going size) (f.round fuel data)
      ((0, f.prev0), s0) (y, t) → t.stat.txSize ≤ size := by
    intro y t h
    rcases Relation.ReflTransGen.cases_tail h with heq | ⟨⟨x, s⟩, hx, hgo, hr⟩
    · cases heq
      rw [h0.2.1]
      exact Nat.zero_le _
    · obtain ⟨k, rfl, hk⟩ := hfit.exact h0 hx
      obtain ⟨-, -, htx, -⟩ := hk.next hr
      rw [htx, Nat.mul_succ]
      exact hle k (ProgFn.going_iff.1 hgo)
  rw [body_while]
  refine wp_bind (wp_mono (whileDo_run (fun y t u h hd => ?_) fun y t h hgo q u hr => ?_)
    fun r t ht hr => ?_)
  · rw [sampler_still.quiet.drift hd]
    obtain ⟨k, -, c, l, -, -, -, hsize⟩ := hfit.exact h0 h
    exact ⟨hbound y t h, hsize⟩
  · obtain ⟨k, rfl, c, l, -, -, htx, hsize⟩ := hfit.exact h0 h
    have := hle k (ProgFn.going_iff.1 hgo)
    rcases wp_run_inv (round_counts rfl sampler_still f data _) hr with hst | hst
    · rw [hst]
      exact ⟨by omega, hsize⟩
    · rw [hst]
      refine ⟨?_, hsize⟩
      show t.stat.txSize + f.bytes ≤ size
      omega
  · refine wp_retStill sampler_still ht fun i hi => ?_
    obtain ⟨y, rfl, rfl⟩ := Option.map_eq_some_iff.1 hi
    obtain ⟨t', h, hgo, hd⟩ := hr y rfl
    obtain rfl := sampler_still.quiet.drift hd
    obtain ⟨k, rfl, c, l, -, -, htx, hsize⟩ := hfit.exact h0 h
    have hge : ¬ f.bytes * k < size := fun hlt => by
      rw [ProgFn.place, ProgFn.going_iff.2 hlt] at hgo
      cases hgo
    exact ⟨by omega, hsize⟩

/-- An operation that leaves the two sizes alone. -/
def KeepsSizes : Op → Prop
  | .stat g => ∀ st, (g st).txSize = st.txSize ∧ (g st).progSize = st.progSize
  | _ => True

instance : Signals KeepsSizes := ⟨fun _ => trivial, fun _ => trivial, trivial, trivial⟩

theorem keepsSizes_progEnd (st : ProgStatus) (n : Nat) : Ops KeepsSizes (progEnd st n) := by
  refine ops_bind (ops_setAllInput fun _ => trivial) fun _ => ?_
  exact ⟨fun _ => ⟨rfl, rfl⟩, fun _ => ⟨trivial, fun _ => ⟨fun _ => ⟨rfl, rfl⟩, fun _ => trivial⟩⟩⟩

theorem keepsSizes_progFinish (r : Option Nat) :
    Ops KeepsSizes (progFinish fuel f.initTest f.mask pm r) := by
  cases r with
  | none => exact keepsSizes_progEnd _ _
  | some i =>
    have htest : Ops KeepsSizes f.initTest := by
      cases f with
      | sm8 => exact signals_plainInitTest
      | sm16 => exact signals_plainInitTest
      | sm8Fast => exact signals_fastInitTest
      | sm16Fast => exact signals_fastInitTest
    refine ops_bind (ops_check htest (signals_progWait _ _ _)) fun w => ?_
    split <;> exact keepsSizes_progEnd _ _

theorem keeps_sizes {D : Type} {dev : Device D} (R : Nat → Nat → Prop) :
    KeepsOps (sys dev) KeepsSizes fun t => R t.stat.txSize t.stat.progSize where
  act o t a t' ho ha ht := by
    cases o with
    | stat g =>
      obtain rfl : t' = { t with stat := g t.stat } := ha
      show R (g t.stat).txSize (g t.stat).progSize
      rw [(ho t.stat).1, (ho t.stat).2]
      exact ht
    | _ => (obtain ⟨-, rfl⟩ := ha; exact ht)
  env t t' he ht := by
    obtain ⟨d, -, rfl⟩ := he
    exact ht

/-- After the first stores: the counter stays in bounds, and success means that it is the size. -/
theorem main_exact (b : Board) (fuel : Nat) (pm : ProgMode) (hfit : CountsFit data size f)
    {s : World (List (BitVec f.lanes))} (h : Begun f size s) :
    wp (sys (sampler lv float f.lanes)) (fun t => t.stat.txSize ≤ t.stat.progSize)
      (fun _ t => t.stat.stat = .done → t.stat.txSize = t.stat.progSize)
      (progMain b fuel f data size pm) s := by
  refine wp_bind (wp_mono (enter_starts b fuel f pm h) fun r s0 _ ⟨hle0, h0⟩ => ?_)
  -- the end keeps the sizes; it reports success after a whole loop only
  have hfinish : ∀ r t, t.stat.txSize ≤ t.stat.progSize →
      (∀ i, r = some i → t.stat.txSize = t.stat.progSize) →
      wp (sys (sampler lv float f.lanes)) (fun u => u.stat.txSize ≤ u.stat.progSize)
        (fun _ u => u.stat.stat = .done → u.stat.txSize = u.stat.progSize)
        (progFinish fuel f.initTest f.mask pm r) t := by
    intro r t hle hr
    have hops : Ops KeepsSizes (progFinish fuel f.initTest f.mask pm r) := keepsSizes_progFinish r
    cases r with
    | none =>
      refine wp_mono (wp_weaken
        (wp_and (wp_of_ops (keeps_sizes (· ≤ ·)) hops hle)
        (wp_progFinish fuel f.initTest f.mask pm none)) fun _ h => h.1) ?_
      exact fun n u _ hu hd => nomatch hu.2 hd
    | some i =>
        exact wp_weaken (wp_mono (wp_of_ops (keeps_sizes (· = ·)) hops (hr i rfl)) fun _ _ _ hu _ => hu)
          fun _ hu => Nat.le_of_eq hu
  split
  · exact hfinish none s0 hle0 fun i hi => nomatch hi
  · next hr =>
    have hbody : wp (sys (sampler lv float f.lanes))
        (fun t => t.stat.txSize ≤ size ∧ t.stat.progSize = size)
        (fun r t => ∀ i, r = some i → t.stat.txSize = size ∧ t.stat.progSize = size)
        (f.body fuel data size) s0 :=
      body_exact hfit (h0 (Int.not_lt.1 hr))
    refine wp_bind (wp_mono (wp_weaken hbody fun t ht => ?_) fun r t hle ht =>
      hfinish r t hle fun i hi => ?_)
    · rw [ht.2]
      exact ht.1
    · obtain ⟨htx, hsize⟩ := ht i hi
      rw [htx, hsize]

theorem counts_of_fit (lv : Gpio → BitVec 32 → Prop) (float : BitVec 32) (b : Board)
    (fuel : Nat) (pm : ProgMode)
    (hfit : CountsFit data size f) : CountsRight lv float b fuel pm f data size where
  rounds s r s0 x t hr hr0 h := by
    have h0 := wp_run_ret (head_starts b fuel f size pm) hr hr0
    obtain ⟨k, -, c, l, hl, hlen, htx, -⟩ := hfit.exact h0 h
    rw [htx, hl.1, h0.1.1, hlen, Nat.add_sub_cancel_left]
  bounded s u q t hbegin h := by
    have hfirst : wp (sys (sampler lv float f.lanes)) anyTime (fun _ v => Begun f size v)
        (progBegin f.smap size pm) s :=
      begin_begun f size pm (k := ret) fun v _ hv => wp_retStill sampler_still trivial hv
    have hu : Begun f size u := wp_run_ret (Q := fun _ v => Begun f size v) hfirst hbegin
    exact wp_run_inv (J := fun t => t.stat.txSize ≤ t.stat.progSize) (main_exact b fuel pm hfit hu) h
  done s n t h := by
    rw [prog_main_eq] at h
    exact wp_run_ret (begin_begun f size pm fun u _ hu =>
      wp_weaken (main_exact b fuel pm hfit hu) fun _ _ => trivial) h

end

/-! ## The others -/

section
variable {float : BitVec 32} {f : ProgFn} {data : Mem} {size : Nat} {s s0 : World (List (BitVec f.lanes))}

theorem can_progEnter (b : Board) (pm : ProgMode) :
    can (sys (samplerRb float f.lanes)) (fun r t => 0 ≤ r ∧ StatusInputs t.gpio) (progEnter b 1 f pm) s :=
  can_checkOr <| can_mono (can_progSetup b 0 pm) fun _ _ ht => ⟨ht.1, can_time ⟨by decide, ht.2⟩⟩

/-- A round can end with INIT still high. -/
theorem can_round (data : Mem) (k : Nat) (h : StatusInputs s.gpio) :
    can (sys (samplerRb float f.lanes)) (fun r t => (∃ y, r = some y) ∧ StatusInputs t.gpio)
      (f.round 1 data (f.place data k)) s := by
  cases f with
  | sm8 =>
    refine can_checkOr (can_mono (can_plainRound8 0 _ _ h) fun _ t ht => ⟨ht.1, ?_⟩)
    exact can_checkOr (can_mono (can_plainRoundEnd 1 ht.2) fun _ u hu => ⟨hu.1, ⟨_, rfl⟩, hu.2⟩)
  | sm16 =>
    refine can_checkOr (can_mono (can_plainRound16 0 _ _ h) fun _ t ht => ⟨ht.1, ?_⟩)
    exact can_checkOr (can_mono (can_plainRoundEnd 2 ht.2) fun _ u hu => ⟨hu.1, ⟨_, rfl⟩, hu.2⟩)
  | sm8Fast =>
    exact can_bind (can_mono (can_fastRound8 0 data _ _) fun _ t ht =>
      can_issue (o := .stat _) () rfl ⟨⟨_, rfl⟩, h.congr ht.2⟩)
  | sm16Fast =>
    exact can_bind (can_mono (can_fastRound16 0 data k _ _) fun _ t ht =>
      can_issue (o := .stat _) () rfl ⟨⟨_, rfl⟩, h.congr ht.2⟩)

/-- The `k`-th word is reached, and the counter was right up to it. -/
theorem counts_reach {b : Board} {pm : ProgMode}
    (h : CountsRight ReadsBack float b 1 pm f data size) {r : Int}
    (hr : (sys (samplerRb float f.lanes)).Run (progHead b 1 f size pm, s) (ret r, s0)) (hr0 : 0 ≤ r)
    (hin : StatusInputs s0.gpio) {k : Nat} (hk : ∀ j, j < k → f.bytes * j < size) :
    (∀ j, j < k → f.clocked data j = 1) ∧
    ∃ t, AfterRounds (sys (samplerRb float f.lanes)) (f.going size) (f.round 1 data)
      ((0, f.prev0), s0) (f.place data k, t) ∧ Exact f data s.dev size k t ∧ StatusInputs t.gpio := by
  have h0 := wp_run_ret (head_starts b 1 f size pm) hr hr0
  induction k with
  | zero => exact ⟨fun j hj => absurd hj (Nat.not_lt_zero j), s0, .refl, h0.exact data, hin⟩
  | succ k ih =>
    have hlt := hk k (Nat.lt_succ_self k)
    obtain ⟨hones, t, hafter, ht, hti⟩ := ih fun j hj => hk j (by omega)
    have hcan : can (sys (samplerRb float f.lanes)) (fun r t => (∃ y, r = some y) ∧ StatusInputs t.gpio)
        (f.round 1 data (f.place data k)) t := can_round data k hti
    obtain ⟨_, u, hru, ⟨y, rfl⟩, hui⟩ := can_run hcan
    obtain ⟨rfl, hlen, htx, hnext⟩ := ht.next hru
    have hround : OneRound (sys (samplerRb float f.lanes)) (f.going size)
        (f.round 1 data) (f.place data k, t)
        (f.place data (k + f.clocked data k), u) := ⟨ProgFn.going_iff.2 hlt, hru⟩
    -- the counter says one word, the FPGA has sampled those of the round
    have hone : f.clocked data k = 1 := by
      have hcount := h.rounds s r s0 _ u hr hr0 (hafter.tail hround)
      rw [htx, hlen, h0.1.1, Nat.add_sub_cancel_left] at hcount
      rcases bytes_cases f with hb | hb <;> rw [hb] at hcount <;> omega
    rw [hone] at hround
    refine ⟨fun j hj => ?_, u, hafter.tail hround, hnext hone, hui⟩
    rcases Nat.lt_succ_iff_lt_or_eq.1 hj with hj | rfl
    · exact hones j hj
    · exact hone

theorem fits_of_counts {b : Board} {pm : ProgMode} (s : World (List (BitVec f.lanes)))
    (h : CountsRight ReadsBack float b 1 pm f data size) : CountsFit data size f := by
  have hfirst : can (sys (samplerRb float f.lanes)) (fun _ _ => True) (progBegin f.smap size pm) s :=
    can_progBegin f.smap size pm (k := ret) trivial
  obtain ⟨_, u, hbegin, -⟩ := can_run hfirst
  obtain ⟨r, s0, henter, hr0, hin⟩ := can_run (can_progEnter (s := u) b pm)
  have hr : (sys (samplerRb float f.lanes)).Run (progHead b 1 f size pm, s) (ret r, s0) :=
    (run_bind _ hbegin).trans henter
  have hb := bytes_cases f
  have hwords : ∀ j, j < (size + f.bytes - 1) / f.bytes → f.bytes * j < size := by
    intro j hj
    rcases hb with hb | hb <;> rw [hb] at hj ⊢ <;> omega
  obtain ⟨hones, t, hafter, ⟨c, l, -, -, htx, hsize⟩, -⟩ := counts_reach h hr hr0 hin hwords
  refine ⟨?_, fun k hk => (clocked_eq_one f data k).1 (hones k ?_)⟩
  · obtain ⟨q, hmoment⟩ := rounds_reached sampler_still henter hr0 hafter
    have hbound := h.bounded s u q t hbegin hmoment
    rw [htx, hsize] at hbound
    rcases hb with hb | hb <;> rw [hb] at hbound ⊢ <;> omega
  · rcases hb with hb | hb <;> rw [hb] at hk ⊢ <;> omega

end

/-! ## The result -/

/-- **The progress counter is right** exactly for the bitstreams that fit. -/
theorem counts_iff (b : Board) (pm : ProgMode) (f : ProgFn) (data : Mem) (size : Nat) :
    (∀ lv float fuel, CountsRight lv float b fuel pm f data size) ↔ CountsFit data size f := by
  constructor
  · exact fun h => fits_of_counts ⟨World.start.gpio, World.start.stat, []⟩ (h ReadsBack 0#32 1)
  · exact fun h lv float fuel => counts_of_fit lv float b fuel pm h

/-- Four zero bytes and a one: the first four are clocked in one round, and counted as one. -/
theorem counts_short :
    ¬ CountsRight ReadsBack 0#32 .mk2 1 .normal .sm8Fast (fun i => if i < 4 then 0#8 else 1#8) 5 := by
  intro h
  exact absurd (fits_of_counts ⟨World.start.gpio, World.start.stat, []⟩ h) (by decide)

end Libfic2
