import Libfic2.BusRelease
import Libfic2.HlsTransfers

/-!
# What an HLS operation reports and stores

An operation should return 0 only when each of its steps has succeeded, that is when each of its
waits is answered in time, and should store only at indices of the buffer smaller than `size`.
What is stored at an index shows in the buffer left behind, whatever the buffer was before.

`fic_hls_ddr_debug` forgets the answer of its first transfer, and always receives 12 bytes.

* `honest_iff`: which runs report and store as they should
* `debug_overruns`: 12 bytes for a buffer of 2
-/

namespace Libfic2

open Driver Prog Sys

/-! ## Stores -/

theorem fill_outside {m : Mem} {i k : Nat} {s : List (BitVec 8)} (h : k < i ∨ i + s.length ≤ k) :
    m.fill i s k = m k := by
  rw [Mem.fill_apply, if_neg (by omega)]

/-- A byte stored does not depend on what was there. -/
theorem fill_inside {m m' : Mem} {i k : Nat} {s : List (BitVec 8)} (hi : i ≤ k) (hk : k < i + s.length) :
    m.fill i s k = m'.fill i s k := by
  rw [Mem.fill_apply, Mem.fill_apply, if_pos ⟨hi, hk⟩, if_pos ⟨hi, hk⟩]

/-! ## The receiving loop -/

/-- `w`, `k` times over. -/
def rounds (w : List Wait) : Nat → List Wait
  | 0 => []
  | k + 1 => w ++ rounds w k

/-- In the run `l`, whatever the buffer, `p` stores the bytes `s` from `i` on and returns `r`.  It gets
`per` bytes in each of at most `n` rounds that wait for `w`. -/
structure Stores (p : Mem → P (Int × Mem)) (l : List Ev) (r : Int) (w : List Wait) (n per i : Nat)
    (s : List (BitVec 8)) : Prop where
  ends : ∀ m, Ends (p m) l (r, m.fill i s)
  length : s.length ≤ per * n
  whole : per ∣ s.length
  reach : ∀ k ≤ n, ∀ rest, (Wait.afterAll (rounds w k) (readings l ++ rest)).isSome ↔ per * k ≤ s.length

section
variable {p p' : Mem → P (Int × Mem)} {l l1 l2 : List Ev} {r : Int} {w : List Wait}
    {n per i : Nat} {s t : List (BitVec 8)}

theorem stores_nil (hp : ∀ m, Ends (p m) l (r, m)) : Stores p l r w 0 per i [] := by
  refine ⟨hp, Nat.zero_le _, Nat.dvd_zero per, fun k hk rest => ?_⟩
  obtain rfl : k = 0 := by omega
  simp [rounds, Wait.afterAll]

/-- A round that fails. -/
theorem stored_fail (hper : 0 < per) (hw : ∀ rest, Wait.afterAll w (readings l ++ rest) = none)
    (hp : ∀ m, Ends (p m) l (r, m)) : Stores p l r w n per i [] := by
  refine ⟨hp, Nat.zero_le _, Nat.dvd_zero per, fun k _ rest => ?_⟩
  cases k with
  | zero => simp [rounds, Wait.afterAll]
  | succ k =>
    rw [rounds, Wait.afterAll_append, hw]
    simp [Nat.mul_succ]
    omega

/-- A round that gets the bytes `t`, and the others. -/
theorem stored_cons (hw : ∀ rest, Wait.afterAll w (readings l1 ++ rest) = some rest) (ht : t.length = per)
    (hp : ∀ m a, Ends (p' (m.fill i t)) l2 a → Ends (p m) (l1 ++ l2) a)
    (h : Stores p' l2 r w n per (i + per) s) : Stores p (l1 ++ l2) r w (n + 1) per i (t ++ s) := by
  refine ⟨fun m => ?_, ?_, ?_, fun k hk rest => ?_⟩
  · rw [Mem.fill_append, ht]
    exact hp m _ (h.ends _)
  · have := h.length
    rw [List.length_append, ht, Nat.mul_succ]
    omega
  · rw [List.length_append, ht]
    exact Nat.dvd_add (Nat.dvd_refl per) h.whole
  · cases k with
    | zero => simp [rounds, Wait.afterAll]
    | succ k =>
      rw [rounds, Wait.afterAll_append, readings_append, List.append_assoc, hw, Option.bind_some,
        h.reach k (by omega) rest, List.length_append, ht, Nat.mul_succ]
      omega

end

variable (b : Board) (fuel : Nat)

section
variable {b fuel} {l : List Ev} {a : Int × Mem} {m0 : Mem} {n i : Nat}

theorem roundBytes_pos (b : Board) : 0 < roundBytes b := by
  cases b <;> decide

/-- A round that succeeds gets all its bytes. -/
theorem length_round {o : Int × List (BitVec 8)} (h : Ends (receiveRound b fuel) l o) (ho : ¬ o.1 < 0) :
    o.2.length = roundBytes b := by
  cases b with
  | mk1 =>
    obtain ⟨r1, l1, l2, rfl, -, h2⟩ := ends_bind.1 h
    dsimp only at h2
    split at h2
    · next hr1 =>
      obtain ⟨-, rfl⟩ := h2
      exact absurd hr1 ho
    · obtain ⟨r2, l3, l4, rfl, -, -, rfl⟩ := ends_bind.1 h2
      rfl
  | mk2 =>
    obtain ⟨r1, l1, l2, rfl, -, -, rfl⟩ := ends_bind.1 h
    rfl

theorem received {o : Int × List (BitVec 8)} (h : Ends (receiveRound b fuel) l o) :
    (¬ o.1 < 0 ∧ o.2.length = roundBytes b ∧
      ∀ rest, Wait.afterAll (roundWaits b) (readings l ++ rest) = some rest) ∨
      (o.1 < 0 ∧ ∀ rest, Wait.afterAll (roundWaits b) (readings l ++ rest) = none) := by
  rcases (polls_receiveRound b fuel).settled (fun o => ok_not_err) h with ⟨hok, hw⟩ | ⟨herr, hw⟩
  · have hpos : ¬ o.1 < 0 := by rw [show o.1 = 0 from hok]; decide
    exact .inl ⟨hpos, length_round h hpos, hw⟩
  · exact .inr ⟨by rw [show o.1 = -1 from herr]; decide, hw⟩

theorem stored_receiveRounds (h : Ends (receiveRounds b fuel n i m0) l a) :
    ∃ s, Stores (receiveRounds b fuel n i) l a.1 (roundWaits b) n (roundBytes b) i s := by
  induction n generalizing l m0 i with
  | zero =>
    obtain ⟨rfl, rfl⟩ := h
    exact ⟨[], stores_nil fun m => ⟨rfl, rfl⟩⟩
  | succ n ih =>
    obtain ⟨r, l1, l2, rfl, h1, hloop⟩ := ends_bind.1 h
    have hround : ∀ m l' c, Ends (if r.1 < 0 then ret (r.1, m)
        else receiveRounds b fuel n (i + roundBytes b) (m.fill i r.2)) l' c →
        Ends (receiveRounds b fuel (n + 1) i m) (l1 ++ l') c :=
        fun m l' c hc => ends_bind.2 ⟨r, l1, l', rfl, h1, hc⟩
    rcases received h1 with ⟨hr, hlength, hw⟩ | ⟨hr, hw⟩
    · rw [if_neg hr] at hloop
      obtain ⟨s, hs⟩ := ih hloop
      refine ⟨_, stored_cons hw hlength (fun m c hc => hround m l2 c ?_) hs⟩
      rw [if_neg hr]
      exact hc
    · rw [if_pos hr] at hloop
      obtain ⟨rfl, rfl⟩ := hloop
      refine ⟨[], stored_fail (roundBytes_pos b) (fun rest => ?_) fun m => hround m [] _ ?_⟩
      · rw [List.append_nil]
        exact hw rest
      · rw [if_pos hr]
        exact ⟨rfl, rfl⟩

end

/-! ## The transfers -/

/-- The waits before byte number `i` is stored. -/
def byteWaits (i : Nat) : List Wait := rounds (roundWaits b) (i / roundBytes b + 1)

/-- `p` stores at most `size` bytes from index 0 on, whatever the buffer. -/
def StoresUpTo (p : Mem → P (Int × Mem)) (size : Nat) (l : List Ev) (r : Int)
    (s : List (BitVec 8)) : Prop :=
  s.length ≤ size ∧ ∀ m, Ends (p m) l (r, m.fill 0 s)

section
variable {b fuel} {l : List Ev} {a : Int × Mem} {m0 : Mem} {size : Nat}

theorem storesUpTo_nil {p : Mem → P (Int × Mem)} {r : Int} (h : ∀ m, Ends (p m) l (r, m)) :
    StoresUpTo p size l r [] :=
  ⟨Nat.zero_le _, h⟩

/-- The answer -1 or 0 made of the answer of a loop. -/
theorem ends_lastPair {p : Mem → P (Int × Mem)} {s : List (BitVec 8)} {r : Int}
    (h : ∀ m, Ends (p m) l (r, m.fill 0 s)) (m : Mem) :
    Ends (p m >>= fun r => if r.1 < 0 then ret (-1, r.2) else ret (0, r.2)) l (if r < 0 then -1
    else 0, m.fill 0 s) := by
  refine ends_bind.2 ⟨_, l, [], (List.append_nil l).symm, h m, ?_⟩
  show Ends (if r < 0 then _ else _) _ _
  split
  · exact ⟨rfl, rfl⟩
  · exact ⟨rfl, rfl⟩

theorem stored_receiveBytes (h : Ends (ficHlsReceiveBytes b fuel m0 size) l a) :
    ∃ s, StoresUpTo (fun m => ficHlsReceiveBytes b fuel m size) size l a.1 s ∧
      (refused b size = false → ∀ i < size, ∀ rest,
      (Wait.afterAll (byteWaits b i) (readings l ++ rest)).isSome ↔ i < s.length) := by
  unfold StoresUpTo
  simp only [ficHlsReceiveBytes_eq] at h ⊢
  by_cases hno : refused b size = true
  · simp only [if_pos hno] at h ⊢
    obtain ⟨rfl, rfl⟩ := h
    exact ⟨[], ⟨Nat.zero_le _, fun m => ⟨rfl, rfl⟩⟩, fun hok => absurd (hno.symm.trans hok) (by decide)⟩
  · simp only [if_neg hno] at h ⊢
    obtain ⟨o, l1, l2, rfl, hloop, hend⟩ := ends_bind.1 h
    obtain ⟨s, hs⟩ := stored_receiveRounds hloop
    obtain rfl := ends_answers hend
    rw [List.append_nil] at h ⊢
    have hlast := ends_lastPair hs.ends
    rw [ends_unique h (hlast m0)]
    have hlength := hs.length
    have hsize : roundBytes b * (size / roundBytes b) = size := Nat.mul_div_cancel' (sizeOk_iff.2 hno).whole
    refine ⟨s, ⟨hsize ▸ hlength, hlast⟩, fun _ i hi rest => ?_⟩
    have hlt : i / roundBytes b < size / roundBytes b :=
      Nat.div_lt_div_of_lt_of_dvd (sizeOk_iff.2 hno).whole hi
    -- byte number `i` comes in round number `i / roundBytes b`
    obtain ⟨q, hq⟩ := hs.whole
    rw [byteWaits, hs.reach _ hlt rest, hq, Nat.mul_le_mul_left_iff (roundBytes_pos b), Nat.succ_le_iff,
      Nat.div_lt_iff_lt_mul (roundBytes_pos b), Nat.mul_comm]

/-- A step before `k` that may fail: it has, and nothing is stored, or `k` goes on. -/
theorem ends_before {q : P Int} {k : Mem → P (Int × Mem)} (h : Ends (checkOr (-1, m0) q (k m0)) l a) :
    ((∃ r, r < 0 ∧ Ends q l r) ∧ a = (-1, m0) ∧ ∀ m, Ends (checkOr (-1, m) q (k m)) l (-1, m)) ∨
      ∃ r l1 l2, l = l1 ++ l2 ∧ ¬ r < 0 ∧ Ends q l1 r ∧ Ends (k m0) l2 a ∧
        ∀ m c, Ends (k m) l2 c → Ends (checkOr (-1, m) q (k m)) (l1 ++ l2) c := by
  obtain ⟨r, l1, l2, rfl, h1, h2⟩ := ends_bind.1 h
  by_cases hr : r < 0
  · rw [if_pos hr] at h2
    obtain ⟨rfl, rfl⟩ := h2
    refine .inl ⟨⟨r, hr, by rwa [List.append_nil]⟩, rfl, fun m => ends_bind.2 ⟨r, l1, [], rfl, h1, ?_⟩⟩
    rw [if_pos hr]
    exact ⟨rfl, rfl⟩
  · rw [if_neg hr] at h2
    refine .inr ⟨r, l1, l2, rfl, hr, h1, h2, fun m c hc => ends_bind.2 ⟨r, l1, l2, rfl, h1, ?_⟩⟩
    rwa [if_neg hr]

theorem stored_receive (h : Ends (ficHlsReceive b fuel m0 size) l a) :
    ∃ s, StoresUpTo (fun m => ficHlsReceive b fuel m size) size l a.1 s ∧
      (refused b size = false → ∀ i < size,
      AllAnswered (initiateWaits b .read ++ byteWaits b i) (readings l) ↔ i < s.length) := by
  have hinit := polls_ficHlsCommInitiate b fuel .read
  rcases ends_before (k := fun m => ficHlsReceiveBytes b fuel m size >>= fun r =>
    if r.1 < 0 then ret (-1, r.2) else checkOr (-1, r.2) (ficHlsCommTerminate b fuel) (ret (0, r.2))) h with
    ⟨⟨r, hr, hfail⟩, rfl, hall⟩ | ⟨r, l1, l2, rfl, hr, hok, hrest, hall⟩
  · -- the transaction cannot be opened
    refine ⟨[], storesUpTo_nil hall, fun _ i _ => iff_of_false (fun hans => ?_) (Nat.not_lt_zero i)⟩
    unfold AllAnswered at hans
    rcases hinit.settled (fun r => ok_not_err) hfail with ⟨rfl, -⟩ | ⟨-, hw⟩
    · exact absurd hr (by decide)
    · have hnone := hw []
      rw [List.append_nil] at hnone
      rw [Wait.afterAll_append, hnone] at hans
      cases hans
  · obtain ⟨o, l3, l4, rfl, hbytes, hend⟩ := ends_bind.1 hrest
    obtain ⟨s, ⟨hlength, hs⟩, hreach⟩ := stored_receiveBytes hbytes
    have hopened : ∀ rest, Wait.afterAll (initiateWaits b .read) (readings l1 ++ rest) = some rest := by
      rcases hinit.settled (fun r => ok_not_err) hok with ⟨-, hw⟩ | ⟨rfl, -⟩
      · exact hw
      · exact absurd (by decide) hr
    -- closing the transaction stores nothing
    have hclosed : ∀ m : Mem, Ends (if o.1 < 0 then ret (-1, m)
        else checkOr (-1, m) (ficHlsCommTerminate b fuel) (ret (0, m)) :
        P (Int × Mem)) l4 (a.1, m) := by
      intro m
      by_cases ho : o.1 < 0
      · rw [if_pos ho] at hend ⊢
        obtain ⟨rfl, rfl⟩ := hend
        exact ⟨rfl, rfl⟩
      · rw [if_neg ho] at hend ⊢
        obtain ⟨r', l5, l6, rfl, hterm, hlast⟩ := ends_bind.1 hend
        refine ends_bind.2 ⟨r', l5, l6, rfl, hterm, ?_⟩
        split at hlast
        · next hr' =>
          obtain ⟨rfl, rfl⟩ := hlast
          rw [if_pos hr']
          exact ⟨rfl, rfl⟩
        · next hr' =>
          obtain ⟨rfl, rfl⟩ := hlast
          rw [if_neg hr']
          exact ⟨rfl, rfl⟩
    refine ⟨s, ⟨hlength, fun m => hall m _ (ends_bind.2 ⟨_, l3, l4, rfl, hs m, hclosed _⟩)⟩,
      fun hno i hi => ?_⟩
    rw [AllAnswered, Wait.afterAll_append, readings_append, hopened, Option.bind_some, readings_append]
    exact hreach hno i hi _

theorem stored_read {addr ctrl : BitVec 32} (h : Ends (ficHlsRead b fuel m0 size addr ctrl) l a) :
    ∃ s, StoresUpTo (fun m => ficHlsRead b fuel m size addr ctrl) size l a.1 s := by
  rcases ends_before (k := fun m => ficHlsReceive b fuel m size) h
    with ⟨-, rfl, hall⟩ | ⟨r, l1, l2, rfl, -, -, hrest, hall⟩
  · exact ⟨[], storesUpTo_nil hall⟩
  · obtain ⟨s, ⟨hlength, hs⟩, -⟩ := stored_receive hrest
    exact ⟨s, hlength, fun m => hall m _ (hs m)⟩

end

/-! ## The operations -/

inductive HlsCall
  | send (data : Mem) (size : Nat)
  | receive (size : Nat)
  | write (data : Mem) (size : Nat) (addr ctrl : BitVec 32)
  | read (size : Nat) (addr ctrl : BitVec 32)
  | ddrDebug (size : Nat) (addr : BitVec 32)

def HlsCall.size : HlsCall → Nat
  | send _ size => size
  | receive size => size
  | write _ size _ _ => size
  | read size _ _ => size
  | ddrDebug size _ => size

/-- Those that send leave the buffer alone. -/
def HlsCall.prog : HlsCall → (buf : Mem) → P (Int × Mem)
  | send data size, buf => ficHlsSend b fuel data size >>= fun r => ret (r, buf)
  | receive size, buf => ficHlsReceive b fuel buf size
  | write data size addr ctrl, buf => ficHlsWrite b fuel data size addr ctrl >>= fun r => ret (r, buf)
  | read size addr ctrl, buf => ficHlsRead b fuel buf size addr ctrl
  | ddrDebug size addr, buf => ficHlsDdrDebug b fuel buf size addr

/-- The waits of all steps. -/
def HlsCall.waits : HlsCall → List Wait
  | send data size => hlsSendWaits b data size
  | receive size => hlsReceiveWaits b size
  | write data size addr ctrl => hlsWriteWaits b data size addr ctrl
  | read size addr ctrl => hlsReadWaits b size addr ctrl
  | ddrDebug size addr => hlsSendWaits b (cmdBytes rasddrCmdDebug addr size) 12 ++ hlsReceiveWaits b 12

/-- In the run `l`, 0 is returned only when every step has succeeded, and nothing is stored behind the
buffer. -/
structure Honest (c : HlsCall) (l : List Ev) : Prop where
  reports : ∀ buf a, Ends (c.prog b fuel buf) l a → a.1 = 0 → AllAnswered (c.waits b) (readings l)
  stores : ∀ buf a, Ends (c.prog b fuel buf) l a → ∀ i, c.size ≤ i → a.2 i = buf i

/-- For `fic_hls_ddr_debug`, sending succeeds, or receiving does not; and the buffer has 12 bytes, or
byte number `size` does not arrive. -/
def Reliable : HlsCall → List Ev → Prop
  | .ddrDebug size addr, l =>
    ∀ l1 l2 r, l = l1 ++ l2 → Ends (ficHlsSend b fuel (cmdBytes rasddrCmdDebug addr size) 12) l1 r →
      (AllAnswered (hlsReceiveWaits b 12) (readings l2) →
        AllAnswered (hlsSendWaits b (cmdBytes rasddrCmdDebug addr size) 12) (readings l1)) ∧
      (12 ≤ size ∨ ¬ AllAnswered (initiateWaits b .read ++ byteWaits b size) (readings l2))
  | _, _ => True

section
variable {b fuel} {l l1 l2 : List Ev} {a : Int × Mem} {buf : Mem} {size : Nat} {ws : List Wait}

theorem reports_of_polls {p : P (Int × Mem)} (hp : Polls OkPair ErrPair p ws)
    (h : Ends p l a) (ha : a.1 = 0) : AllAnswered ws (readings l) := by
  rcases hp.answered h with ⟨-, hans⟩ | ⟨herr, -⟩
  · exact hans
  · rw [show a.1 = -1 from herr] at ha
    exact absurd ha (by decide)

/-- An operation that only sends. -/
theorem honest_sending {c : HlsCall} {q : P Int}
    (hprog : ∀ buf, c.prog b fuel buf = q >>= fun r => ret (r, buf))
    (hq : Polls Ok Err q (c.waits b)) : Honest b fuel c l := by
  have hpair : ∀ buf : Mem, Polls OkPair ErrPair (q >>= fun r => ret (r, buf)) (c.waits b) := fun buf =>
    polls_answer hq (fun r hr => ⟨(r, buf), rfl, hr⟩) fun r hr => ⟨(r, buf), rfl, hr⟩
  refine ⟨fun buf a h => reports_of_polls (hpair buf) (hprog buf ▸ h), fun buf a h i _ => ?_⟩
  rw [hprog] at h
  obtain ⟨r, l1, l2, -, -, -, rfl⟩ := ends_bind.1 h
  rfl

theorem storesUpTo_kept {p : Mem → P (Int × Mem)} {r : Int} {s : List (BitVec 8)}
    (hs : StoresUpTo p size l r s) (h : Ends (p buf) l a)
    {i : Nat} (hi : size ≤ i) : a.2 i = buf i := by
  rw [ends_unique h (hs.2 buf)]
  exact fill_outside (.inr (by have := hs.1; omega))

theorem allAnswered_append {ws' : List Wait}
    (hw : ∀ rest, Wait.afterAll ws (readings l1 ++ rest) = some rest) :
    AllAnswered (ws ++ ws') (readings (l1 ++ l2)) ↔ AllAnswered ws' (readings l2) := by
  rw [AllAnswered, Wait.afterAll_append, readings_append, hw]
  rfl

/-- What is stored shows in some buffer. -/
theorem stores_within {s : List (BitVec 8)} (h : ∀ buf : Mem, ∀ i, size ≤ i → buf.fill 0 s i = buf i) :
    s.length ≤ size := by
  by_contra hlen
  let v := Mem.fill (fun _ => 0#8) 0 s size
  have hv : Mem.fill (fun _ => v + 1#8) 0 s size = v := fill_inside (Nat.zero_le size) (by omega)
  have hsame : v = v + 1#8 := hv.symm.trans (h (fun _ => v + 1#8) size (Nat.le_refl size))
  bv_omega

theorem honest_ddrDebug {addr : BitVec 32} (h : Ends (ficHlsDdrDebug b fuel buf size addr) l a) :
    Honest b fuel (.ddrDebug size addr) l ↔ Reliable b fuel (.ddrDebug size addr) l := by
  obtain ⟨r, l1, l2, rfl, hsend, hrest⟩ := ends_bind.1 h
  obtain ⟨o, l3, l4, rfl, hrecv, hend⟩ := ends_bind.1 hrest
  obtain rfl := ends_answers hend
  rw [List.append_nil]
  obtain ⟨s, ⟨hlength, hs⟩, hreach⟩ := stored_receive hrecv
  replace hreach := hreach (by cases b <;> rfl)
  -- whatever the buffer
  have hall : ∀ m, Ends (ficHlsDdrDebug b fuel m size addr) (l1 ++ l3) (if o.1 < 0 then -1
      else 0, m.fill 0 s) := fun m =>
    ends_bind.2 ⟨r, l1, l3, rfl, hsend, ends_lastPair hs m⟩
  have hpolls := (polls_ficHlsReceive b fuel buf 12).answered hrecv
  have hsent :=
    (polls_ficHlsSend b fuel (cmdBytes rasddrCmdDebug addr size) 12).settled (fun r => ok_not_err) hsend
  have hcond : Reliable b fuel (.ddrDebug size addr) (l1 ++ l3) ↔
      (AllAnswered (hlsReceiveWaits b 12) (readings l3) →
      AllAnswered (hlsSendWaits b (cmdBytes rasddrCmdDebug addr size) 12) (readings l1)) ∧
        (12 ≤ size ∨ ¬ AllAnswered (initiateWaits b .read ++ byteWaits b size) (readings l3)) := by
    refine ⟨fun hr => hr l1 l3 r rfl hsend, fun hr l1' l3' r' heq hsend' => ?_⟩
    obtain ⟨rfl, rfl, -⟩ := ends_cancel hsend hsend' heq
    exact hr
  rw [hcond]
  have hreports : (if o.1 < 0 then -1 else 0 : Int) = 0 ↔
      AllAnswered (hlsReceiveWaits b 12) (readings l3) := by
    rcases hpolls with ⟨hok, hans⟩ | ⟨herr, hans⟩
    · rw [show o.1 = 0 from hok]
      exact iff_of_true (by decide) hans
    · rw [show o.1 = -1 from herr]
      exact iff_of_false (by decide) hans
  have hboth : AllAnswered (hlsReceiveWaits b 12) (readings l3) →
      (AllAnswered ((HlsCall.ddrDebug size addr).waits b) (readings (l1 ++ l3)) ↔
        AllAnswered (hlsSendWaits b (cmdBytes rasddrCmdDebug addr size) 12) (readings l1)) := by
    intro hans
    rcases hsent with ⟨-, hw⟩ | ⟨-, hw⟩
    · have h1 := hw []
      rw [List.append_nil] at h1
      exact iff_of_true ((allAnswered_append hw).2 hans) (by rw [AllAnswered, h1]; rfl)
    · have h1 := hw []
      have h2 := hw (readings l3)
      rw [List.append_nil] at h1
      refine iff_of_false (fun hno => ?_) (by rw [AllAnswered, h1]; decide)
      unfold AllAnswered HlsCall.waits at hno
      rw [Wait.afterAll_append, readings_append, h2] at hno
      cases hno
  constructor
  · intro hh
    refine ⟨fun hans => (hboth hans).1 (hh.reports _ _ (hall buf) (hreports.2 hans)), ?_⟩
    have hwithin : s.length ≤ size := stores_within fun m i hi => hh.stores m _ (hall m) i hi
    by_cases h12 : 12 ≤ size
    · exact .inl h12
    · refine .inr fun hans => ?_
      have := (hreach size (by omega)).1 hans
      omega
  · rintro ⟨hfirst, hwithin⟩
    have hshort : s.length ≤ size := by
      rcases hwithin with h12 | hno
      · omega
      · by_contra hlen
        exact hno ((hreach size (by omega)).2 (by omega))
    refine ⟨fun m c hc hc0 => ?_, fun m c hc i hi => ?_⟩
    · rw [ends_unique hc (hall m)] at hc0
      exact (hboth (hreports.1 hc0)).2 (hfirst (hreports.1 hc0))
    · exact storesUpTo_kept ⟨hshort, hall⟩ hc hi

/-- **What is reported and stored is right** in all runs but those of `fic_hls_ddr_debug` that receive
after a failed send, or receive more than the buffer takes. -/
theorem honest_iff (c : HlsCall) (h : Ends (c.prog b fuel buf) l a) :
    Honest b fuel c l ↔ Reliable b fuel c l := by
  cases c with
  | send data size =>
      exact iff_of_true (honest_sending (fun _ => rfl) (polls_ficHlsSend b fuel data size)) trivial
  | receive size =>
    refine iff_of_true ⟨fun m c hc => reports_of_polls (polls_ficHlsReceive b fuel m size) hc,
      fun m c hc i hi => ?_⟩ trivial
    obtain ⟨s, hs, -⟩ := stored_receive hc
    exact storesUpTo_kept hs hc hi
  | write data size addr ctrl =>
    exact iff_of_true (honest_sending (fun _ => rfl) (polls_ficHlsWrite b fuel data size addr ctrl)) trivial
  | read size addr ctrl =>
    refine iff_of_true ⟨fun m c hc => reports_of_polls (polls_ficHlsRead b fuel m size addr ctrl) hc,
      fun m c hc i hi => ?_⟩ trivial
    obtain ⟨s, hs⟩ := stored_read hc
    exact storesUpTo_kept hs hc hi
  | ddrDebug size addr => exact honest_ddrDebug h

end

/-! ## Two bytes asked for -/

/-- FACK follows RSTB. -/
def followingFack (g : Gpio) : BitVec 32 := g.latch ||| if g.lat 4 then rpPin 27 else 0#32

/-- The trace of `fic_hls_ddr_debug` for a buffer of two bytes. -/
def debugTrace : List Ev :=
  (HlsCall.prog .mk2 2 (.ddrDebug 2 0#32) fun _ => 0xff#8).trace
    (peer followingFack 0) 1000 (World.start.gpio, 0)

/-- The answer, and byte 11 afterwards. -/
theorem debugTrace_ends :
    ∃ a, Ends (HlsCall.prog .mk2 2 (.ddrDebug 2 0#32) fun _ => 0xff#8) debugTrace a ∧
      a.1 = 0 ∧ a.2 11 = 0x10#8 := by
  have hrun : (follow (peer followingFack 0) 1000 (HlsCall.prog .mk2 2 (.ddrDebug 2 0#32) fun _ => 0xff#8)
      (World.start.gpio, 0)).1.answer?.map (fun a => (a.1, a.2 11)) = some (0, 0x10#8) := by decide +kernel
  obtain ⟨a, ha, hval⟩ := Option.map_eq_some_iff.1 hrun
  obtain ⟨h0, h11⟩ := Prod.mk.inj hval
  exact ⟨a, trace_ends ha, h0, h11⟩

theorem honest_debug : ∃ a, Ends (HlsCall.prog .mk2 2 (.ddrDebug 2 0#32) fun _ => 0xff#8) debugTrace a ∧
    (Honest .mk2 2 (.ddrDebug 2 0#32) debugTrace ↔ Reliable .mk2 2 (.ddrDebug 2 0#32) debugTrace) := by
  obtain ⟨a, ha, -⟩ := debugTrace_ends
  exact ⟨a, ha, honest_iff _ ha⟩

/-- Byte 11 of a buffer of two is stored. -/
theorem debug_overruns : ¬ Honest .mk2 2 (.ddrDebug 2 0#32) debugTrace := by
  obtain ⟨a, ha, -, h11⟩ := debugTrace_ends
  intro hh
  have hkept : a.2 11 = 0xff#8 := hh.stores _ a ha 11 (by decide)
  rw [h11] at hkept
  exact absurd hkept (by decide)

end Libfic2
