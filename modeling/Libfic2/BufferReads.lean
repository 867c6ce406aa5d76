import Libfic2.Driver.Loads
import Libfic2.FastProgramming

/-!
# What the programming functions read of the bitstream

The data loops again, with each evaluation of `data[..]` an operation of its own in C's order
(`prog_readFrom`: answered from `data` they are the loops of `SelectMap`).  They take no care
of the end of the buffer: the x16 loops load two bytes a round whatever the size, and the
look-ahead of the fast loops goes on as long as the bytes agree.

* `reads_inside_iff`: for which bitstreams no run loads a byte behind the buffer.
-/

namespace Libfic2

open Driver Prog Sys Bursts

/-- Programs that drive pins and load bytes of the bitstream. -/
abbrev PB : Type → Type := Prog (BufOp Op) (BufAns Ans (BitVec 8))

variable (fuel : Nat)

/-! ## The loops -/

/-- `data[i] << 8`. -/
def loadWord8 (i : Nat) : PB (BitVec 32) := do
  let d ← load i
  ret (d.setWidth 32 <<< 8)

/-- `(data[i+1] << 8 | data[i]) << 8`. -/
def loadWord16 (i : Nat) : PB (BitVec 32) := do
  let hi ← load (i + 1)
  let lo ← load i
  ret (((hi.setWidth 32 <<< 8) ||| lo.setWidth 32) <<< 8)

def plainLoop8Buf : (n i : Nat) → (d' : BitVec 32) → PB (Option Nat)
  | 0, i, _ => ret (some i)
  | n + 1, i, d' => do
    let d ← loadWord8 i
    checkOr none (onDev (plainRound8 fuel d d')) <|
    checkOr none (onDev (plainRoundEnd 1)) <|
    plainLoop8Buf n (i + 1) d

def plainLoop16Buf : (n i : Nat) → (d' : BitVec 32) → PB (Option Nat)
  | 0, i, _ => ret (some i)
  | n + 1, i, d' => do
    let d ← loadWord16 i
    checkOr none (onDev (plainRound16 fuel d d')) <|
    checkOr none (onDev (plainRoundEnd 2)) <|
    plainLoop16Buf n (i + 2) d

/-- `(d == data[i+k]) && .. && (d == data[i+k+n-1])`. -/
def same8Buf (d : BitVec 8) (i k : Nat) : (n : Nat) → PB Bool
  | 0 => ret true
  | n + 1 => do
    let x ← load (i + k)
    if d = x then same8Buf d i (k + 1) n else ret false

/-- `(hi == data[i+2k+1] && lo == data[i+2k]) && ..`, for `n` pairs. -/
def same16Buf (hi lo : BitVec 8) (i k : Nat) : (n : Nat) → PB Bool
  | 0 => ret true
  | n + 1 => do
    let x ← load (i + 2 * k + 1)
    if hi = x then do
      let y ← load (i + 2 * k)
      if lo = y then same16Buf hi lo i (k + 1) n else ret false
    else ret false

def fastRound8Buf (d : BitVec 8) (i : Nat) (d' : BitVec 8) : PB Nat :=
  if d = d' then do
    let s4 ← same8Buf d i 1 3
    if s4 then do
      let s8 ← same8Buf d i 4 4
      if s8 then do
        let s12 ← same8Buf d i 8 4
        if s12 then do
          let s16 ← same8Buf d i 12 4
          if s16 then onDev do toggleCclk16; ret 15
          else onDev do toggleCclk12; ret 11
        else onDev do toggleCclk8; ret 7
      else onDev do toggleCclk4; ret 3
    else onDev do fastRepeat fuel; ret 0
  else onDev do fastWrite (d.setWidth 32 <<< 8) mask8; ret 0

def fastRound16Buf (hi lo : BitVec 8) (i : Nat) (hi' lo' : BitVec 8) : PB Nat :=
  if hi = hi' ∧ lo = lo' then do
    let s4 ← same16Buf hi lo i 1 3
    if s4 then do
      let s8 ← same16Buf hi lo i 4 4
      if s8 then onDev do toggleCclk8; ret 14
      else onDev do toggleCclk4; ret 6
    else onDev do fastRepeat fuel; ret 0
  else onDev do fastWrite (((hi.setWidth 32 <<< 8) ||| lo.setWidth 32) <<< 8) mask16; ret 0

def fastLoop8Buf (size : Nat) : (n i : Nat) → (d' : BitVec 8) → PB (Option Nat)
  | 0, _, _ => hang
  | n + 1, i, d' =>
    if i < size then do
      let d ← load i
      let k ← fastRound8Buf fuel d i d'
      onDev (addTx 1)
      fastLoop8Buf size n (i + k + 1) d
    else ret (some i)

def fastLoop16Buf (size : Nat) : (n i : Nat) → (hi' lo' : BitVec 8) → PB (Option Nat)
  | 0, _, _, _ => hang
  | n + 1, i, hi', lo' =>
    if i < size then do
      let hi ← load (i + 1)
      let lo ← load i
      let k ← fastRound16Buf fuel hi lo i hi' lo'
      onDev (addTx 2)
      fastLoop16Buf size n (i + k + 2) hi lo
    else ret (some i)

namespace ProgFn

/-- The data loop. -/
def bodyBuf (size : Nat) : ProgFn → PB (Option Nat)
  | sm8 => plainLoop8Buf fuel size 0 0#32
  | sm16 => plainLoop16Buf fuel ((size + 1) / 2) 0 0#32
  | sm8Fast => fastLoop8Buf fuel size (size + 1) 0 0#8
  | sm16Fast => fastLoop16Buf fuel size (size + 1) 0 0#8 0#8

/-- The whole function. -/
def progBuf (b : Board) (size : Nat) (pm : ProgMode) (f : ProgFn) : PB Nat := do
  onDev (progBegin f.smap size pm)
  let r ← checkOr none (onDev (progSetup b fuel f.lanes pm)) do
    let _ ← onDev (issue .time)
    f.bodyBuf fuel size
  onDev (progFinish fuel f.initTest f.mask pm r)

end ProgFn

/-! ## The loops with the loads answered -/

section
variable (data : Mem)

@[simp] theorem same8_readFrom (d : BitVec 8) (i k n : Nat) :
    readFrom data (same8Buf d i k n) = ret (same8 data d i k n) := by
  induction n generalizing k with
  | zero => rfl
  | succ n ih =>
    by_cases hd : d = data (i + k)
    · simp [same8Buf, same8, ← hd, ih]
    · simp [same8Buf, same8, hd]

@[simp] theorem same16_readFrom (hi lo : BitVec 8) (i k n : Nat) :
    readFrom data (same16Buf hi lo i k n) = ret (same16 data hi lo i k n) := by
  induction n generalizing k with
  | zero => rfl
  | succ n ih =>
    by_cases hh : hi = data (i + 2 * k + 1)
    · by_cases hl : lo = data (i + 2 * k)
      · simp [same16Buf, same16, ← hh, ← hl, ih]
      · simp [same16Buf, same16, ← hh, hl]
    · simp [same16Buf, same16, hh]

theorem plainLoop8_readFrom (n i : Nat) (d' : BitVec 32) :
    readFrom data (plainLoop8Buf fuel n i d') = plainLoop8 fuel data n i d' := by
  induction n generalizing i d' with
  | zero => rfl
  | succ n ih => simp [plainLoop8Buf, plainLoop8, loadWord8, word8, ih]

theorem plainLoop16_readFrom (n i : Nat) (d' : BitVec 32) :
    readFrom data (plainLoop16Buf fuel n i d') = plainLoop16 fuel data n i d' := by
  induction n generalizing i d' with
  | zero => rfl
  | succ n ih => simp [plainLoop16Buf, plainLoop16, loadWord16, word16, ih]

@[simp] theorem fastRound8_readFrom (i : Nat) (d' : BitVec 8) :
    readFrom data (fastRound8Buf fuel (data i) i d') = fastRound8 fuel data i d' := by
  simp only [fastRound8Buf, fastRound8, readFrom_ite, readFrom_bind, same8_readFrom,
    ret_bind, readFrom_onDev]

@[simp] theorem fastRound16_readFrom (i : Nat) (hi' lo' : BitVec 8) :
    readFrom data (fastRound16Buf fuel (data (i + 1)) (data i) i hi' lo') =
      fastRound16 fuel data i hi' lo' := by
  simp only [fastRound16Buf, fastRound16, readFrom_ite, readFrom_bind, same16_readFrom,
    ret_bind, readFrom_onDev]

theorem fastLoop8_readFrom (size n i : Nat) (d' : BitVec 8) :
    readFrom data (fastLoop8Buf fuel size n i d') = fastLoop8 fuel data size n i d' := by
  induction n generalizing i d' with
  | zero => rfl
  | succ n ih => simp [fastLoop8Buf, fastLoop8, ih]

theorem fastLoop16_readFrom (size n i : Nat) (hi' lo' : BitVec 8) :
    readFrom data (fastLoop16Buf fuel size n i hi' lo') = fastLoop16 fuel data size n i hi' lo' := by
  induction n generalizing i hi' lo' with
  | zero => rfl
  | succ n ih => simp [fastLoop16Buf, fastLoop16, ih]

@[simp] theorem body_readFrom (f : ProgFn) (size : Nat) :
    readFrom data (f.bodyBuf fuel size) = f.body fuel data size := by
  cases f with
  | sm8 => exact plainLoop8_readFrom ..
  | sm16 => exact plainLoop16_readFrom ..
  | sm8Fast => exact fastLoop8_readFrom ..
  | sm16Fast => exact fastLoop16_readFrom ..

/-- Answered from `data`, the loads give the functions of `SelectMap`. -/
theorem prog_readFrom (b : Board) (f : ProgFn) (size : Nat) (pm : ProgMode) :
    readFrom data (f.progBuf fuel b size pm) = f.prog b fuel data size pm := by
  rw [ProgFn.prog_eq]
  simp [ProgFn.progBuf, progLoad, bind_assoc]

end

/-! ## What a round loads -/

section
variable {σ : Type} {S : Sys Op Ans σ} {data : Mem} {N i k : Nat} {s : σ} {α : Type}

theorem loadsIn_same8 {f : Bool → PB α} (h : AllEq data i k) (n : Nat) :
    LoadsIn S data N (same8Buf (data i) i k n >>= f) s ↔
      LooksBefore data N i k (k + n) ∧ LoadsIn S data N (f (decide (AllEq data i (k + n)))) s := by
  induction n generalizing k with
  | zero =>
    rw [Nat.add_zero, decide_eq_true h]
    exact (and_iff_right fun j h1 h2 => by omega).symm
  | succ n ih =>
    unfold same8Buf
    rw [Prog.bind_assoc, loadsIn_load, looksBefore_succ h (by omega), and_assoc]
    refine and_congr_right fun _ => ?_
    by_cases heq : data (i + k) = data i
    · rw [if_pos heq.symm, ih (allEq_succ.2 ⟨h, heq⟩),
        show k + 1 + n = k + (n + 1) by omega, imp_iff_right heq]
    · have hne : ¬ AllEq data i (k + (n + 1)) := fun h' => heq (h' k (by omega))
      rw [if_neg (Ne.symm heq), decide_eq_false hne]
      exact (and_iff_right fun h' => absurd h' heq).symm

theorem loadsIn_same16 {f : Bool → PB α} (h : AllEq (bytesAt data) i k) (n : Nat) :
    LoadsIn S data N (same16Buf (data (2 * i + 1)) (data (2 * i)) (2 * i) k n >>= f) s ↔
      LooksBefore (bytesAt data) (N / 2) i k (k + n) ∧
        LoadsIn S data N (f (decide (AllEq (bytesAt data) i (k + n)))) s := by
  induction n generalizing k with
  | zero =>
    rw [Nat.add_zero k, decide_eq_true h]
    exact (and_iff_right fun j h1 h2 => by omega).symm
  | succ n ih =>
    have hpair : bytesAt data (i + k) = bytesAt data i ↔
        data (2 * i + 1) = data (2 * i + 2 * k + 1) ∧ data (2 * i) = data (2 * i + 2 * k) := by
      unfold bytesAt
      rw [Prod.mk.injEq, show 2 * (i + k) = 2 * i + 2 * k by omega]
      exact and_congr eq_comm eq_comm
    unfold same16Buf
    rw [Prog.bind_assoc, loadsIn_load, looksBefore_succ h (by omega), and_assoc,
      show 2 * i + 2 * k + 1 < N ↔ i + k < N / 2 by omega]
    refine and_congr_right fun hN => ?_
    -- the low byte of a pair is loaded after its high byte, and stands before it
    by_cases heq : bytesAt data (i + k) = bytesAt data i
    · rw [if_pos (hpair.1 heq).1, Prog.bind_assoc, loadsIn_load, if_pos (hpair.1 heq).2,
        ih (allEq_succ.2 ⟨h, heq⟩), show k + 1 + n = k + (n + 1) by omega, imp_iff_right heq]
      exact and_iff_right (by omega)
    · have hne : ¬ AllEq (bytesAt data) i (k + (n + 1)) := fun h' => heq (h' k (by omega))
      rw [decide_eq_false hne, and_iff_right (a := _ → _) fun h' => absurd h' heq]
      split
      · next hhi =>
        rw [Prog.bind_assoc, loadsIn_load, if_neg fun hlo => heq (hpair.2 ⟨hhi, hlo⟩), ret_bind]
        exact and_iff_right (by omega)
      · rfl

/-- A branch of the look-ahead: `test` looks at the words `k .. l-1` and tells whether they go on equal. -/
theorem loadsIn_fork {γ : Type} [DecidableEq γ] {w : Nat → γ} {M l m : Nat} {test : PB Bool}
    {t : Bool} {A B : PB Nat} {a b : P Nat} {f : Nat → PB α} (hkl : k ≤ l) (hlm : l ≤ m)
    (htest : ∀ g : Bool → PB α, LoadsIn S data N (test >>= g) s ↔
      LooksBefore w M i k l ∧ LoadsIn S data N (g (decide (AllEq w i l))) s)
    (ht : t = true ↔ AllEq w i l)
    (hA : AllEq w i l → (LoadsIn S data N (A >>= f) s ↔
      LooksBefore w M i l m ∧ LoadsIn S data N (onDev a >>= f) s))
    (hB : LoadsIn S data N (B >>= f) s ↔ LoadsIn S data N (onDev b >>= f) s) :
    LoadsIn S data N ((test >>= fun x => if x then A else B) >>= f) s ↔
      LooksBefore w M i k m ∧ LoadsIn S data N (onDev (if t then a else b) >>= f) s := by
  rw [Prog.bind_assoc, htest, looksBefore_split hkl hlm, and_assoc]
  refine and_congr_right fun _ => ?_
  by_cases h : AllEq w i l
  · rw [if_pos (decide_eq_true h), if_pos (ht.2 h), imp_iff_right h, hA h]
  · rw [if_neg (by simpa using h), if_neg (mt ht.1 h), hB]
    exact (and_iff_right fun h' => absurd h' h).symm

theorem looksBefore_done {γ : Type} {w : Nat → γ} {M m : Nat} {p : Prop} : p ↔ LooksBefore w M i m m ∧ p :=
  (and_iff_right fun j h1 h2 => by omega).symm

/-- A round of the fast loop loads what its look-ahead tests. -/
theorem loadsIn_fastRound8 (fuel : Nat) (d' : BitVec 8) (f : Nat → PB α) :
    LoadsIn S data N (fastRound8Buf fuel (data i) i d' >>= f) s ↔
      (data i = d' → LooksBefore data N i 1 16) ∧
      LoadsIn S data N (onDev (fastRound8 fuel data i d') >>= f) s := by
  unfold fastRound8Buf fastRound8
  dsimp only
  by_cases hd : data i = d'
  · rw [if_pos hd, if_pos hd, imp_iff_right hd]
    refine loadsIn_fork (l := 4) (by omega) (by omega) (fun g => loadsIn_same8 allEq_one 3)
      ((same8_iff ..).trans allEq_four.symm) (fun h4 => ?_) Iff.rfl
    refine loadsIn_fork (l := 8) (by omega) (by omega) (fun g => loadsIn_same8 h4 4)
      ((same8_iff ..).trans (allEq_next h4).symm) (fun h8 => ?_) Iff.rfl
    refine loadsIn_fork (l := 12) (by omega) (by omega) (fun g => loadsIn_same8 h8 4)
      ((same8_iff ..).trans (allEq_next h8).symm) (fun h12 => ?_) Iff.rfl
    exact loadsIn_fork (l := 16) (by omega) (by omega) (fun g => loadsIn_same8 h12 4)
      ((same8_iff ..).trans (allEq_next h12).symm) (fun _ => looksBefore_done) Iff.rfl
  · rw [if_neg hd, if_neg hd]
    exact (and_iff_right fun h => absurd h hd).symm

theorem loadsIn_fastRound16 (fuel : Nat) (hi' lo' : BitVec 8) (f : Nat → PB α) :
    LoadsIn S data N (fastRound16Buf fuel (data (2 * i + 1)) (data (2 * i)) (2 * i) hi' lo' >>= f) s ↔
      (bytesAt data i = (hi', lo') → LooksBefore (bytesAt data) (N / 2) i 1 8) ∧
        LoadsIn S data N (onDev (fastRound16 fuel data (2 * i) hi' lo') >>= f) s := by
  have hcond : (data (2 * i + 1) = hi' ∧ data (2 * i) = lo') ↔ bytesAt data i = (hi', lo') := by
    unfold bytesAt
    rw [Prod.mk.injEq]
  unfold fastRound16Buf fastRound16
  dsimp only
  by_cases hd : bytesAt data i = (hi', lo')
  · rw [if_pos (hcond.2 hd), if_pos (hcond.2 hd), imp_iff_right hd]
    refine loadsIn_fork (l := 4) (by omega) (by omega) (fun g => loadsIn_same16 allEq_one 3)
      ((same16_iff ..).trans allEq_four.symm) (fun h4 => ?_) Iff.rfl
    exact loadsIn_fork (l := 8) (by omega) (by omega) (fun g => loadsIn_same16 h4 4)
      ((same16_iff ..).trans (allEq_next h4).symm) (fun _ => looksBefore_done) Iff.rfl
  · rw [if_neg (mt hcond.1 hd), if_neg (mt hcond.1 hd)]
    exact (and_iff_right fun h => absurd h hd).symm

end

/-! ## The plain loops -/

section
variable {σ : Type} {S : Sys Op Ans σ} {data : Mem} {size n i : Nat} {s : σ}

theorem plainLoop8_inside (d' : BitVec 32) (h : i + n ≤ size) :
    LoadsIn S data size (plainLoop8Buf fuel n i d') s := by
  induction n generalizing i d' s with
  | zero => exact loadsIn_ret _
  | succ n ih =>
    refine loadsIn_load.2 ⟨by omega, loadsIn_checkOr.2 fun r t _ _ => loadsIn_checkOr.2 fun r u _ _ => ?_⟩
    exact ih _ (by omega)

theorem plainLoop16_inside (d' : BitVec 32) (h : i + 2 * n ≤ size) :
    LoadsIn S data size (plainLoop16Buf fuel n i d') s := by
  induction n generalizing i d' s with
  | zero => exact loadsIn_ret _
  | succ n ih =>
    refine loadsIn_load.2 ⟨by omega, loadsIn_load.2 ⟨by omega, ?_⟩⟩
    exact loadsIn_checkOr.2 fun r t _ _ => loadsIn_checkOr.2 fun r u _ _ => ih _ (by omega)

end

/-- As long as INIT stays high, the x16 loop loads two bytes in each of its rounds. -/
theorem plainLoop16_loads {float : BitVec 32} {m : Nat} {data : Mem} {size n i : Nat} {d' : BitVec 32}
    {s : World (List (BitVec m))} (hs : StatusInputs s.gpio) (hn : 0 < n)
    (h : LoadsIn (sys (samplerRb float m)) data size (plainLoop16Buf 1 n i d') s) : i + 2 * n ≤ size := by
  induction n generalizing i d' s with
  | zero => omega
  | succ n ih =>
    obtain ⟨hi, h⟩ := loadsIn_load.1 h
    obtain ⟨-, h⟩ := loadsIn_load.1 h
    by_cases hn0 : n = 0
    · omega
    · have hround : can (sys (samplerRb float m)) CanSetUp (plainRound16 1 (word16 data i) d') s :=
        can_plainRound16 0 _ _ hs
      obtain ⟨r, t, hr, hr0, ht⟩ := can_run hround
      have h := loadsIn_checkOr.1 h r t hr (Int.not_lt.1 hr0)
      have hend : can (sys (samplerRb float m)) CanSetUp (plainRoundEnd 2) t := can_plainRoundEnd 2 ht
      obtain ⟨r', u, hr', hr0', hu⟩ := can_run hend
      have h := loadsIn_checkOr.1 h r' u hr' (Int.not_lt.1 hr0')
      have := ih hu (by omega) h
      omega

/-! ## The fast loops -/

/-- The index step of a round. -/
theorem ends_fastRound {q step k : Nat} {repeated : Prop} [Decidable repeated] {db mask : BitVec 32}
    {l : List (Event Op Ans)} (h : Ends (fastRound fuel q repeated db mask step) l k) :
    k = step * ((if repeated then max 1 (4 * q) else 1) - 1) := by
  unfold fastRound at h
  split at h
  · next hrep =>
    rw [if_pos hrep]
    split at h
    · next hq =>
      refine ends_last (R := fun c => c = _) h fun _ l' h' => ?_
      rw [h'.2, hq]
      exact (Nat.mul_zero step).symm
    · next hq =>
      refine ends_last (R := fun c => c = _) h fun _ l' h' => ?_
      rw [h'.2, show max 1 (4 * q) = 4 * q by omega]
  · next hrep =>
    rw [if_neg hrep]
    exact ends_last (R := fun c => c = _) h fun _ l' h' => h'.2

section
variable {σ : Type} {S : Sys Op Ans σ} {data : Mem} {size n i k : Nat} {s t : σ}

theorem run_fastRound8 {d' : BitVec 8} (h : S.Run (fastRound8 fuel data i d', s) (ret k, t)) :
    k + 1 = burst data 4 d' i := by
  obtain ⟨l, hl, -⟩ := run_ends (fun _ => ()) (fun _ x => x) (fun _ _ _ _ _ => rfl) (fun _ _ _ => rfl) h
  rw [fastRound8_eq] at hl
  have hk : k = 1 * (burst data 4 d' i - 1) := ends_fastRound fuel hl
  have := burst_pos data 4 d' i
  omega

theorem run_fastRound16 {hi' lo' : BitVec 8}
    (h : S.Run (fastRound16 fuel data (2 * i) hi' lo', s) (ret k, t)) :
    k + 2 = 2 * burst (bytesAt data) 2 (hi', lo') i := by
  obtain ⟨l, hl, -⟩ := run_ends (fun _ => ()) (fun _ x => x) (fun _ _ _ _ _ => rfl) (fun _ _ _ => rfl) h
  rw [fastRound16_eq] at hl
  have hk : k = 2 * (burst (bytesAt data) 2 (hi', lo') i - 1) := ends_fastRound fuel hl
  have := burst_pos (bytesAt data) 2 (hi', lo') i
  omega

theorem fastLoop8_inside {d' : BitVec 8} (h : WalkInside data 4 size size n i d') :
    LoadsIn S data size (fastLoop8Buf fuel size n i d') s := by
  induction n generalizing i d' s with
  | zero => exact loadsIn_hang
  | succ n ih =>
    unfold fastLoop8Buf
    by_cases hlt : i < size
    · obtain ⟨hround, hrest⟩ := h hlt
      rw [if_pos hlt, loadsIn_load, loadsIn_fastRound8]
      refine ⟨hlt, hround.2, loadsIn_onDev.2 fun k t hr => loadsIn_onDev.2 fun _ u _ => ?_⟩
      rw [Nat.add_assoc, run_fastRound8 fuel hr]
      exact ih hrest
    · rw [if_neg hlt]
      exact loadsIn_ret _

theorem fastLoop16_inside {hi' lo' : BitVec 8}
    (h : WalkInside (bytesAt data) 2 ((size + 1) / 2) (size / 2) n i (hi', lo')) :
    LoadsIn S data size (fastLoop16Buf fuel size n (2 * i) hi' lo') s := by
  induction n generalizing i hi' lo' s with
  | zero => exact loadsIn_hang
  | succ n ih =>
    unfold fastLoop16Buf
    by_cases hlt : 2 * i < size
    · obtain ⟨⟨hi, hround⟩, hrest⟩ := h (by omega)
      rw [if_pos hlt, loadsIn_load, loadsIn_load, loadsIn_fastRound16]
      refine ⟨by omega, hlt, hround, loadsIn_onDev.2 fun k t hr => loadsIn_onDev.2 fun _ u _ => ?_⟩
      rw [Nat.add_assoc, run_fastRound16 fuel hr, ← Nat.mul_add]
      exact ih hrest
    · rw [if_neg hlt]
      exact loadsIn_ret _

end

section
variable {float : BitVec 32} {m : Nat} {data : Mem} {size n i : Nat} {s : World (List (BitVec m))}

theorem fastLoop8_loads {d' : BitVec 8}
    (h : LoadsIn (sys (samplerRb float m)) data size (fastLoop8Buf 1 size n i d') s) :
    WalkInside data 4 size size n i d' := by
  induction n generalizing i d' s with
  | zero => trivial
  | succ n ih =>
    intro hlt
    unfold fastLoop8Buf at h
    rw [if_pos hlt, loadsIn_load, loadsIn_fastRound8] at h
    obtain ⟨-, hround, h⟩ := h
    obtain ⟨k, t, hr, -⟩ := can_run (can_fastRound8 0 data i d')
    have h := loadsIn_onDev.1 h k t hr
    have h := loadsIn_onDev.1 h () _ (.single (.act rfl))
    rw [Nat.add_assoc, run_fastRound8 1 hr] at h
    exact ⟨⟨hlt, hround⟩, ih h⟩

theorem fastLoop16_loads {hi' lo' : BitVec 8}
    (h : LoadsIn (sys (samplerRb float m)) data size (fastLoop16Buf 1 size n (2 * i) hi' lo') s) :
    WalkInside (bytesAt data) 2 ((size + 1) / 2) (size / 2) n i (hi', lo') := by
  induction n generalizing i hi' lo' s with
  | zero => trivial
  | succ n ih =>
    intro hlt
    unfold fastLoop16Buf at h
    rw [if_pos (by omega), loadsIn_load, loadsIn_load, loadsIn_fastRound16] at h
    obtain ⟨hi, -, hround, h⟩ := h
    obtain ⟨k, t, hr, -⟩ := can_run (can_fastRound16 0 data i hi' lo')
    have h := loadsIn_onDev.1 h k t hr
    have h := loadsIn_onDev.1 h () _ (.single (.act rfl))
    rw [Nat.add_assoc, run_fastRound16 1 hr, ← Nat.mul_add] at h
    exact ⟨⟨by omega, hround⟩, ih h⟩

end

/-! ## The result -/

/-- The bitstreams that are read up to their end and no further. -/
def ReadsFit (data : Mem) (size : Nat) : ProgFn → Prop
  | .sm8 => True
  | .sm16 => size % 2 = 0
  | .sm8Fast => trailing data 0#8 size % 16 = 0
  | .sm16Fast => size % 2 = 0 ∧ trailing (bytesAt data) (0#8, 0#8) (size / 2) % 8 = 0

instance (data : Mem) (size : Nat) : (f : ProgFn) → Decidable (ReadsFit data size f)
  | .sm8 => inferInstanceAs (Decidable True)
  | .sm16 => inferInstanceAs (Decidable (_ = _))
  | .sm8Fast => inferInstanceAs (Decidable (_ = _))
  | .sm16Fast => inferInstanceAs (Decidable (_ ∧ _))

theorem body_inside {σ : Type} {S : Sys Op Ans σ} {f : ProgFn} {data : Mem} {size : Nat} {s : σ}
    (h : ReadsFit data size f) : LoadsIn S data size (f.bodyBuf fuel size) s := by
  cases f with
  | sm8 => exact plainLoop8_inside fuel _ (by omega)
  | sm16 =>
    have heven : size % 2 = 0 := h
    exact plainLoop16_inside fuel _ (by omega)
  | sm8Fast =>
    exact fastLoop8_inside fuel ((walkInside_iff (by decide) (Nat.le_refl _) (by omega)).2 ⟨rfl, h⟩)
  | sm16Fast =>
    obtain ⟨heven, htr⟩ := h
    exact fastLoop16_inside fuel (i := 0)
      ((walkInside_iff (by decide) (by omega) (by omega)).2 ⟨by omega, htr⟩)

/-- A loop that stays inside in every run has a bitstream that fits. -/
theorem body_loads {float : BitVec 32} {m : Nat} {f : ProgFn} {data : Mem} {size : Nat}
    {s : World (List (BitVec m))}
    (hs : StatusInputs s.gpio) (h : LoadsIn (sys (samplerRb float m)) data size (f.bodyBuf 1 size) s) :
    ReadsFit data size f := by
  cases f with
  | sm8 => trivial
  | sm16 =>
    rcases Nat.eq_zero_or_pos ((size + 1) / 2) with h0 | hpos
    · show size % 2 = 0
      omega
    · have := plainLoop16_loads hs hpos h
      show size % 2 = 0
      omega
  | sm8Fast => exact ((walkInside_iff (by decide) (Nat.le_refl _) (by omega)).1 (fastLoop8_loads h)).2
  | sm16Fast =>
    obtain ⟨heven, htr⟩ :=
      (walkInside_iff (by decide) (by omega) (by omega)).1 (fastLoop16_loads (i := 0) h)
    exact ⟨by omega, htr⟩

theorem prog_loads {float : BitVec 32} {b : Board} {pm : ProgMode} {f : ProgFn} {data : Mem} {size : Nat}
    {s : World (List (BitVec f.lanes))}
    (h : LoadsIn (sys (samplerRb float f.lanes)) data size (f.progBuf 1 b size pm) s) :
    ReadsFit data size f := by
  have hbegin : can (sys (samplerRb float f.lanes)) (fun _ _ => True) (progBegin f.smap size pm) s :=
    can_progBegin f.smap size pm (k := ret) trivial
  obtain ⟨_, t, hr, -⟩ := can_run hbegin
  have h := loadsIn_of_bind (loadsIn_onDev.1 h () t hr)
  obtain ⟨r, u, hr', hr0, hu⟩ := can_run (can_progSetup b 0 (s := t) pm)
  have h := loadsIn_checkOr.1 h r u hr' (Int.not_lt.1 hr0)
  exact body_loads hu (loadsIn_onDev.1 h (0 : Int) u (.single (.act rfl)))

/-- **The loops read inside the bitstream** exactly when it fits. -/
theorem reads_inside_iff (b : Board) (pm : ProgMode) (f : ProgFn) (data : Mem) (size : Nat) :
    (∀ (D : Type) (dev : Device D) (fuel : Nat) (s : World D),
      LoadsIn (sys dev) data size (f.progBuf fuel b size pm) s) ↔ ReadsFit data size f := by
  constructor
  · exact fun hall => prog_loads
      (hall _ (samplerRb 0#32 f.lanes) 1 ⟨World.start.gpio, World.start.stat, []⟩)
  · intro h D dev fuel s
    refine loadsIn_onDev.2 fun _ t _ => loadsIn_bind (loadsIn_checkOr.2 fun r u _ _ => ?_) fun r u =>
      loadsIn_quiet _
    exact loadsIn_onDev.2 fun _ v _ => body_inside fuel h

/-- One zero byte: it repeats the byte before the stream, and the look-ahead goes on behind it. -/
theorem reads_behind_end : ¬ LoadsIn (sys (samplerRb 0#32 8)) (fun _ => 0#8) 1
    (ProgFn.sm8Fast.progBuf 1 .mk2 1 .normal) ⟨World.start.gpio, World.start.stat, []⟩ := by
  intro h
  have hfit : ReadsFit (fun _ => 0#8) 1 .sm8Fast := prog_loads h
  exact absurd hfit (by decide)

end Libfic2
