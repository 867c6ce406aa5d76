import Libfic2.WireFormat

/-!
# The loops of an HLS transfer

`_fic_hls_send_bytes` and `_fic_hls_receive_bytes` have a loop for each board.  `sendWords` and
`receiveRounds` are these loops for both boards: over the words sent, and over rounds that get one byte
on mk1 and two on mk2.

* `ficHlsSendBytes_eq`, `ficHlsReceiveBytes_eq`: the two functions as these loops
-/

namespace Libfic2

open Driver Prog Sys

variable (b : Board) (fuel : Nat)

/-- A size that mk2 refuses. -/
def refused (size : Nat) : Bool := b == .mk2 && (decide (size < 2) || decide (size % 2 ≠ 0))

/-! ## Sending -/

/-- The words of `_fic_hls_send_bytes`. -/
def dataWords (data : Mem) (size : Nat) : List (BitVec b.width) :=
  if refused b size then [] else byteWords b (bytesOf data 0 size)

/-- The loop of `_fic_hls_send_bytes`, over its words, with the `ret` so far. -/
def sendWords : (ws : List (BitVec b.width)) → (r : Int) → P Int
  | [], r => ret r
  | w :: ws, r => ficCommSendFast b fuel (busWord b w) >>= fun r1 => sendWords ws (intOr r r1)

theorem sendLoopMk1_eq (data : Mem) (n i : Nat) (r : Int) :
    sendLoopMk1 fuel data n i r = sendWords .mk1 fuel (byteWords .mk1 (bytesOf data i n)) r := by
  induction n generalizing i r with
  | zero => rfl
  | succ n ih =>
    show (ficCommSendFast .mk1 fuel (hiWord (data i)) >>=
      fun r1 => ficCommSendFast .mk1 fuel (loWord (data i)) >>= fun r2 =>
      sendLoopMk1 fuel data n (i + 1) (intOr (intOr r r1) r2)) = _
    rw [hiWord_eq, loWord_eq]
    simp only [ih]
    rfl

theorem sendLoopMk2_eq (data : Mem) (n i : Nat) (r : Int) :
    sendLoopMk2 fuel data n i r = sendWords .mk2 fuel (byteWords .mk2 (bytesOf data i (2 * n))) r := by
  induction n generalizing i r with
  | zero => rfl
  | succ n ih =>
    show (ficCommSendFast .mk2 fuel (pairWord (data i) (data (i + 1))) >>=
      fun r1 => sendLoopMk2 fuel data n (i + 2) (intOr r r1)) = _
    rw [pairWord_eq]
    simp only [ih]
    rfl

/-- `_fic_hls_send_bytes` as the loop over its words. -/
theorem ficHlsSendBytes_eq (data : Mem) (size : Nat) : ficHlsSendBytes b fuel data size =
    if refused b size then ret (-1) else sendWords b fuel (dataWords b data size) 0 >>=
      fun r => if r < 0 then ret (-1) else ret 0 := by
  cases b with
  | mk1 =>
    show (sendLoopMk1 fuel data size 0 0 >>= _) = _
    rw [sendLoopMk1_eq]
    rfl
  | mk2 =>
    unfold ficHlsSendBytes dataWords refused
    dsimp only
    by_cases h2 : size < 2
    · rw [if_pos h2, decide_eq_true h2]
      rfl
    by_cases hodd : size % 2 ≠ 0
    · rw [if_neg h2, if_pos hodd, decide_eq_true hodd, Bool.or_true]
      rfl
    · rw [if_neg h2, if_neg hodd, decide_eq_false h2, decide_eq_false hodd, sendLoopMk2_eq,
        show 2 * ((size + 1) / 2) = size by omega]
      rfl

/-! ## The buffer -/

/-- The bytes `bs` are stored from index `i` on. -/
def Mem.fill (m : Mem) (i : Nat) : List (BitVec 8) → Mem
  | [] => m
  | x :: bs => Mem.fill (m.store i x) (i + 1) bs

theorem Mem.fill_apply (m : Mem) (i : Nat) (bs : List (BitVec 8)) (j : Nat) :
    m.fill i bs j = if i ≤ j ∧ j < i + bs.length then bs.getD (j - i) 0 else m j := by
  induction bs generalizing m i with
  | nil => exact (if_neg (by simp only [List.length_nil]; omega)).symm
  | cons x bs ih =>
    rw [Mem.fill, ih, List.length_cons]
    by_cases h0 : j = i
    · subst h0
      rw [if_neg (by omega), if_pos (by omega), Nat.sub_self]
      exact Function.update_self _ _ _
    · by_cases hj : i + 1 ≤ j ∧ j < i + 1 + bs.length
      · rw [if_pos hj, if_pos (by omega), show j - i = j - (i + 1) + 1 by omega]
        rfl
      · rw [if_neg hj, if_neg (by omega)]
        exact Function.update_of_ne h0 _ _

/-- What was stored is there. -/
theorem Mem.bytesOf_fill (m : Mem) (bs : List (BitVec 8)) : bytesOf (m.fill 0 bs) 0 bs.length = bs := by
  unfold bytesOf
  apply List.ext_getElem
  · simp
  · intro i _ hi
    simp only [List.getElem_map, List.getElem_range', Nat.zero_add, Nat.one_mul]
    rw [Mem.fill_apply, if_pos (by omega), Nat.sub_zero, List.getD_eq_getElem?_getD,
      List.getElem?_eq_getElem hi]
    rfl

theorem Mem.fill_append (m : Mem) (i : Nat) (s t : List (BitVec 8)) :
    m.fill i (s ++ t) = (m.fill i s).fill (i + s.length) t := by
  induction s generalizing m i with
  | nil => rfl
  | cons x s ih =>
    show (m.store i x).fill (i + 1) (s ++ t) = _
    rw [ih, List.length_cons, show i + 1 + s.length = i + (s.length + 1) by omega]
    rfl

/-- What the receive loops store of a word. -/
theorem byte_of_nibbles (h l : BitVec 4) :
    (((h.setWidth 32 <<< 4) ||| l.setWidth 32) &&& 0xff#32).setWidth 8 = h ++ l := by
  revert h l
  decide

theorem bytes_of_pair (w : BitVec 16) :
    (w.setWidth 32 &&& 0x00ff#32).setWidth 8 = digit 8 w 0 ∧
      ((w.setWidth 32 &&& 0xff00#32) >>> 8).setWidth 8 = digit 8 w 1 := by
  have mask : ∀ i, (0xff#32).getLsbD i = decide (i < 8) := by
    intro i
    rw [show (0xff#32).getLsbD i = Nat.testBit (2 ^ 8 - 1) i from rfl, Nat.testBit_two_pow_sub_one]
  constructor
  · apply BitVec.eq_of_getLsbD_eq
    intro i hi
    rw [BitVec.getLsbD_setWidth, BitVec.getLsbD_and, mask, BitVec.getLsbD_setWidth, getLsbD_digit _ _ _ hi]
    simp [hi, show i < 32 by omega]
  · apply BitVec.eq_of_getLsbD_eq
    intro i hi
    rw [show (0xff00#32 : BitVec 32) = 0xff#32 <<< 8 from rfl, BitVec.getLsbD_setWidth,
      BitVec.getLsbD_ushiftRight,
      BitVec.getLsbD_and, BitVec.getLsbD_shiftLeft, mask, BitVec.getLsbD_setWidth, getLsbD_digit _ _ _ hi]
    simp [hi, show 8 + i < 32 by omega]

/-! ## Receiving -/

/-- Bytes got in one round of the loop. -/
def roundBytes : Nat :=
  match b with
  | .mk1 => 1
  | .mk2 => 2

/-- One round: its answer, and the bytes to store. -/
def receiveRound : P (Int × List (BitVec 8)) :=
  match b with
  | .mk1 => do
    let (r1, rvh) ← ficCommReceiveFast .mk1 fuel 0#32
    if r1 < 0 then ret (r1, []) else do
    let (r2, rvl) ← ficCommReceiveFast .mk1 fuel 0#32
    ret (r2, [(((rvh <<< 4) ||| rvl) &&& 0xff#32).setWidth 8])
  | .mk2 => do
    let (r1, rv) ← ficCommReceiveFast .mk2 fuel 0#32
    ret (r1, [(rv &&& 0x00ff#32).setWidth 8, ((rv &&& 0xff00#32) >>> 8).setWidth 8])

/-- The loop of `_fic_hls_receive_bytes`, over its rounds. -/
def receiveRounds : (n i : Nat) → (buf : Mem) → P (Int × Mem)
  | 0, _, buf => ret (0, buf)
  | n + 1, i, buf => receiveRound b fuel >>= fun r =>
      if r.1 < 0 then ret (r.1, buf) else receiveRounds n (i + roundBytes b) (buf.fill i r.2)

theorem receiveLoopMk1_eq (n i : Nat) (buf : Mem) :
    receiveLoopMk1 fuel n i buf = receiveRounds .mk1 fuel n i buf := by
  induction n generalizing i buf with
  | zero => rfl
  | succ n ih =>
    unfold receiveRounds receiveRound receiveLoopMk1
    dsimp only
    rw [bind_assoc]
    congr 1
    funext ⟨r1, v1⟩
    dsimp only
    split
    · next hr => exact (if_pos hr).symm
    · rw [bind_assoc]
      simp only [ih]
      rfl

theorem receiveLoopMk2_eq (n i : Nat) (buf : Mem) :
    receiveLoopMk2 fuel n i buf = receiveRounds .mk2 fuel n i buf := by
  induction n generalizing i buf with
  | zero => rfl
  | succ n ih =>
    unfold receiveRounds receiveRound receiveLoopMk2
    dsimp only
    rw [bind_assoc]
    simp only [ih]
    rfl

/-- `_fic_hls_receive_bytes` as the loop over its rounds. -/
theorem ficHlsReceiveBytes_eq (buf : Mem) (size : Nat) : ficHlsReceiveBytes b fuel buf size =
    if refused b size then ret (-1, buf) else receiveRounds b fuel (size / roundBytes b) 0 buf >>= fun r =>
      if r.1 < 0 then ret (-1, r.2) else ret (0, r.2) := by
  cases b with
  | mk1 =>
    show (receiveLoopMk1 fuel size 0 buf >>= _) = _
    rw [receiveLoopMk1_eq, roundBytes, Nat.div_one]
    rfl
  | mk2 =>
    unfold ficHlsReceiveBytes refused
    dsimp only
    by_cases h2 : size < 2
    · rw [if_pos h2, decide_eq_true h2]
      rfl
    by_cases hodd : size % 2 ≠ 0
    · rw [if_neg h2, if_pos hodd, decide_eq_true hodd, Bool.or_true]
      rfl
    · rw [if_neg h2, if_neg hodd, decide_eq_false h2, decide_eq_false hodd, receiveLoopMk2_eq, roundBytes,
        show (size + 1) / 2 = size / 2 by omega]
      rfl

end Libfic2
