import Libfic2.FuseSites

/-!
# `_read` returns exactly the requested bytes

The head, the middle part and the tail each extend the part of the buffer that holds
the requested bytes (`Got`), so a read whose transfers all succeed has filled the
whole buffer, and no step writes behind it.

* `read_exact`
-/

namespace Libfic2.Ficfuse

open Driver Prog Sys

variable {m : DataModel}

/-! ## Safe operations -/

/-- A bus read stays below 2 ^ 32. -/
def FuseOp.Below : FuseOp → Prop
  | .hlsRead _ n addr _ => ddrBase addr + n ≤ 2 ^ 32
  | _ => True

/-! ## Progress -/

section
variable (s : FuseWorld) (size offset : Nat)

/-- Nothing behind the buffer has changed. -/
def BufKept (t : FuseWorld) : Prop := ∀ i, size ≤ i → t.buf i = s.buf i

/-- The first `n` bytes have been read. -/
structure Got (n : Nat) (t : FuseWorld) : Prop where
  kept : BufKept s size t
  ddr : t.ddr = s.ddr
  bytes : ∀ i, i < n → t.buf i = s.ddr (offset + i)
  ok : t.failed = false

end

section
variable {s t : FuseWorld} {size offset n k : Nat}

/-- Reading into `r_buf` changes nothing here. -/
theorem Got.rbuf (h : Got s size offset n t) (f : Nat → BitVec 8) :
    Got s size offset n (t.store (.rbuf 0) 4 f) :=
  ⟨h.kept, h.ddr, h.bytes, h.ok⟩

theorem Got.extend (h : Got s size offset n t) {f : Nat → BitVec 8}
    (hf : ∀ i, i < k → f i = s.ddr (offset + n + i))
    (hk : n + k ≤ size) : Got s size offset (n + k) (t.store (.buf n) k f) := by
  constructor
  · intro i hi
    show patch t.buf n k f i = s.buf i
    unfold patch
    rw [if_neg (by omega)]
    exact h.kept i hi
  · exact h.ddr
  · intro i hi
    show patch t.buf n k f i = s.ddr (offset + i)
    unfold patch
    split
    · next hin => rw [hf (i - n) (by omega), show offset + n + (i - n) = offset + i by omega]
    · next hout => exact h.bytes i (by omega)
  · exact h.ok

/-- A failed read into the buffer. -/
theorem Got.failed (h : Got s size offset n t) (f : Nat → BitVec 8) (hk : n + k ≤ size) :
    BufKept s size { t.store (.buf n) k f with failed := true } := by
  intro i hi
  show patch t.buf n k f i = s.buf i
  unfold patch
  rw [if_neg (by omega)]
  exact h.kept i hi

/-- What `r_buf` holds after a word has been read. -/
theorem load_rbuf (t : FuseWorld) (f : Nat → BitVec 8) {j i : Nat} (h : j + i < 4) :
    (t.store (.rbuf 0) 4 f).load (.rbuf j) i = f (j + i) := by
  show patch t.rbuf 0 4 f (j + i) = f (j + i)
  unfold patch
  rw [if_pos (by omega)]
  rfl

end

/-! ## Head, middle and tail -/

section
variable {s t : FuseWorld} {size offset : Nat}

theorem readHead_at (hlim : offset + size < 2 ^ 32) :
    Returns (fun h => ∀ c ∈ h, c.At size offset) (readHead m ⟨0, offset, size⟩) := by
  unfold readHead
  dsimp only
  split
  · intro r
    show Returns _ (if r < 0 then _ else _)
    split
    · intro c hc
      cases hc
    · split
      · intro _ c hc
        obtain rfl := Option.some.inj hc
        exact skip_at (Nat.le_refl _) hlim fun h => absurd h (Nat.lt_irrefl _)
      · intro _ c hc
        obtain rfl := Option.some.inj hc
        exact skip_at (by omega) hlim fun _ => by omega
  · intro c hc
    obtain rfl := Option.some.inj hc
    refine ⟨rfl, Nat.zero_add _, fun _ => ?_⟩
    show offset % 4 = 0
    omega

/-- `readTail` for a range inside the DDR. -/
theorem readTail_eq {c : Cursor} (hlim : offset + size < 2 ^ 32) (hsize : size < 2 ^ 31)
    (hc : c.At size offset) : readTail m c =
      (if c.left = 0 then ret true
      else if c.left % 4 = 0 then do
        let r ← call (FuseOp.hlsRead (.buf c.buf) c.left (addr32 c.offset) rasddrCmdRead)
        if r < 0 then ret false else ret true
      else if c.left < 4 then readLast c (c.left % 4)
      else do
        let r ← call (FuseOp.hlsRead (.buf c.buf) (c.left - c.left % 4) (addr32 c.offset) rasddrCmdRead)
        if r < 0 then ret false else
        readLast ⟨c.buf + (c.left - c.left % 4), c.offset + (c.left - c.left % 4),
        c.left⟩ (c.left % 4)) := by
  have hplace := hc.place
  have hrest := hc.rest
  unfold readTail
  dsimp only
  by_cases hleft : c.left = 0
  · rw [if_pos hleft, if_neg (by omega)]
  · have halign := hc.aligned (by omega)
    have hmis : offAdd m c.offset c.left % 4 = c.left % 4 := by
      rw [offAdd_eq (by omega)]
      omega
    have htx : cInt (sizeSub m c.left (c.left % 4)) = (c.left - c.left % 4 : Nat) := by
      rw [sizeSub_eq (Nat.mod_le _ _) (by omega), cInt_eq (by omega)]
    rw [if_neg hleft, if_pos (by omega), hmis, htx, Int.toNat_natCast]
    by_cases hend : c.left % 4 = 0
    · rw [if_pos hend, if_neg (by omega)]
    · rw [if_neg hend, if_pos (by omega)]
      by_cases hshort : c.left < 4
      · rw [if_pos hshort, if_neg (by omega)]
      · rw [if_neg hshort, if_pos (by omega)]

theorem wp_readHead (hlim : offset + size < 2 ^ 32) (hs : Got s size offset 0 t) :
    wp fuseSys (BufKept s size)
      (fun h t => match h with
        | none => t.failed = true
        | some c => Got s size offset c.buf t)
      (readHead m ⟨0, offset, size⟩) t := by
  unfold readHead
  dsimp only
  split
  · next hmis =>
    apply wp_ddrRead hs.kept
    · intro f
      exact wp_retQuiet fuseSys_quiet (hs.rbuf f).kept rfl
    · have hbase : ddrBase (addr32 offset) + offset % 4 = offset := by
        rw [ddrBase_addr32 (by omega)]
        omega
      have hgot := hs.rbuf fun i => t.ddr (ddrBase (addr32 offset) + i)
      have hload : ∀ i, i < 4 - offset % 4 →
          (t.store (.rbuf 0) 4 fun i => t.ddr (ddrBase (addr32 offset) + i)).load
          (.rbuf (offset % 4)) i = s.ddr (offset + 0 + i) := by
        intro i hi
        rw [load_rbuf _ _ (by omega), hs.ddr, ← Nat.add_assoc, hbase, Nat.add_zero]
      split
      · have hext := hgot.extend (k := size) (fun i hi => hload i (by omega)) (by omega)
        exact wp_memcpy hgot.kept (wp_retQuiet fuseSys_quiet hext.kept hext)
      · have hext := hgot.extend (k := 4 - offset % 4) hload (by omega)
        exact wp_memcpy hgot.kept (wp_retQuiet fuseSys_quiet hext.kept hext)
  · exact wp_retQuiet fuseSys_quiet hs.kept hs

/-- The last word, of which `k` bytes are wanted. -/
theorem wp_readLast {c : Cursor} {k : Nat} (hlim : offset + size < 2 ^ 32)
    (hplace : c.offset = offset + c.buf)
    (halign : c.offset % 4 = 0) (hk : k < 4) (hrest : c.buf + k = size) (ht : Got s size offset c.buf t) :
    wp fuseSys (BufKept s size) (fun ok t => if ok then Got s size offset size t else t.failed = true)
      (readLast c k) t := by
  have hbase : ddrBase (addr32 c.offset) = c.offset := by
    rw [ddrBase_addr32 (by omega)]
    omega
  apply wp_ddrRead ht.kept
  · intro f
    exact wp_retQuiet fuseSys_quiet (ht.rbuf f).kept rfl
  · have hgot := ht.rbuf fun i => t.ddr (ddrBase (addr32 c.offset) + i)
    have hload : ∀ i, i < k →
        (t.store (.rbuf 0) 4 fun i => t.ddr (ddrBase (addr32 c.offset) + i)).load (.rbuf 0) i =
        s.ddr (offset + c.buf + i) := by
      intro i hi
      rw [load_rbuf _ _ (by omega), ht.ddr, hbase, hplace, Nat.zero_add]
    have hext := hgot.extend hload (by omega)
    rw [hrest] at hext
    exact wp_memcpy hgot.kept (wp_retQuiet fuseSys_quiet hext.kept hext)

/-- `n` bytes at the cursor, before `k`. -/
theorem wp_readMiddle {c : Cursor} {n : Nat} {k : F Bool} (hlim : offset + size < 2 ^ 32)
    (hplace : c.offset = offset + c.buf) (halign : c.offset % 4 = 0) (hpos : 0 < n) (hn : c.buf + n ≤ size)
    (ht : Got s size offset c.buf t)
    (hk : ∀ u, Got s size offset (c.buf + n) u →
      wp fuseSys (BufKept s size)
      (fun ok t => if ok then Got s size offset size t else t.failed = true) k u) :
    wp fuseSys (BufKept s size) (fun ok t => if ok then Got s size offset size t else t.failed = true)
      (call (FuseOp.hlsRead (.buf c.buf) n (addr32 c.offset) rasddrCmdRead) >>= fun r =>
        if r < 0 then ret false else k) t := by
  have hbase : ddrBase (addr32 c.offset) = c.offset := by
    rw [ddrBase_addr32 (by omega)]
    omega
  apply wp_ddrRead ht.kept
  · intro f
    exact wp_retQuiet fuseSys_quiet (ht.failed f hn) rfl
  · apply hk
    apply ht.extend _ hn
    intro i _
    rw [ht.ddr, hbase, hplace]

theorem wp_readTail {c : Cursor} (hlim : offset + size < 2 ^ 32)
    (hsize : size < 2 ^ 31) (hc : c.At size offset) (ht : Got s size offset c.buf t) :
    wp fuseSys (BufKept s size) (fun ok t => if ok then Got s size offset size t else t.failed = true)
      (readTail m c) t := by
  have hplace := hc.place
  have hrest := hc.rest
  rw [readTail_eq hlim hsize hc]
  split
  · next hleft =>
    have hdone : c.buf = size := by omega
    rw [hdone] at ht
    exact wp_retQuiet fuseSys_quiet ht.kept ht
  · next hleft =>
    have halign := hc.aligned (by omega)
    split
    · apply wp_readMiddle hlim hplace halign (by omega) (by omega) ht
      intro u hu
      rw [hrest] at hu
      exact wp_retQuiet fuseSys_quiet hu.kept hu
    · split
      · next hshort =>
        have hwhole : c.left % 4 = c.left := Nat.mod_eq_of_lt hshort
        exact wp_readLast hlim hplace halign (Nat.mod_lt _ (by decide)) (by omega) ht
      · apply wp_readMiddle hlim hplace halign (by omega) (by omega) ht
        intro u hu
        apply wp_readLast hlim _ _ (Nat.mod_lt _ (by decide)) _ hu
        · show c.offset + _ = offset + (c.buf + _)
          omega
        · show (c.offset + (c.left - c.left % 4)) % 4 = 0
          omega
        · show c.buf + (c.left - c.left % 4) + c.left % 4 = size
          omega

end

/-! ## Every operation is safe -/

/-- Inside the buffers and below 2 ^ 32. -/
def FuseOp.Safe (size : Nat) (o : FuseOp) : Prop := o.Inside size ∧ o.Below

theorem Site.safe {size offset : Nat} (hlim : offset + size < 2 ^ 32) {o : FuseOp}
    (h : Site size offset o) : o.Safe size := by
  cases h with
  | @readWord off h1 h2 _ =>
    refine ⟨Nat.le_refl 4, ?_⟩
    show ddrBase (addr32 off) + 4 ≤ 2 ^ 32
    rw [ddrBase_addr32 (by omega)]
    omega
  | @read i n _ _ _ hi =>
    refine ⟨hi, ?_⟩
    show ddrBase (addr32 (offset + i)) + n ≤ 2 ^ 32
    rw [ddrBase_addr32 (by omega)]
    omega
  | writeWord _ _ _ => exact ⟨Nat.le_refl 4, trivial⟩
  | write _ _ _ hi => exact ⟨hi, trivial⟩
  | toBuf hi hj => exact ⟨⟨hi, hj⟩, trivial⟩
  | fromBuf hi hj => exact ⟨⟨hj, hi⟩, trivial⟩
  | _ => exact ⟨trivial, trivial⟩

theorem readHead_returns {size offset : Nat} : Returns (fun _ => True) (readHead m ⟨0, offset, size⟩) := by
  unfold readHead
  dsimp only
  split
  · intro r
    show Returns _ (if r < 0 then _ else _)
    split
    · trivial
    · split <;> exact fun _ => trivial
  · trivial

theorem readLast_returns (c : Cursor) (k : Nat) : Returns (fun _ => True) (readLast c k) := by
  intro r
  show Returns _ (if r < 0 then _ else _)
  split
  · trivial
  · exact fun _ => trivial

theorem readTail_returns (c : Cursor) : Returns (fun _ => True) (readTail m c) := by
  unfold readTail
  dsimp only
  split
  · split
    · split
      · intro r
        show Returns _ (if r < 0 then _ else _)
        split
        · trivial
        · exact readLast_returns _ _
      · exact readLast_returns _ _
    · intro r
      show Returns _ (if r < 0 then _ else _)
      split <;> trivial
  · trivial

/-! ## The callback -/

/-- `_read` of `size` bytes at `offset` of `/mem`, from `s`: it always comes to an end and can succeed;
when nothing fails it returns `size` with the requested bytes in the buffer; at no moment has a byte
behind the buffer changed; and every operation is safe. -/
structure ReadsExactly (m : DataModel) (s : FuseWorld) (size offset : Nat) : Prop where
  ends : ∀ t, ¬ fuseSys.Run (read m "/mem" size offset, s) (hang, t)
  succeeds : ∃ r t, fuseSys.Run (read m "/mem" size offset, s) (ret r, t) ∧ t.failed = false
  exact_bytes : ∀ r t, fuseSys.Run (read m "/mem" size offset, s) (ret r, t) → t.failed = false →
    r = size ∧ ∀ i, i < size → t.buf i = s.ddr (offset + i)
  kept : ∀ p t, fuseSys.Run (read m "/mem" size offset, s) (p, t) → ∀ i, size ≤ i → t.buf i = s.buf i
  safe : ∀ o k t, fuseSys.Run (read m "/mem" size offset, s) (op o k, t) → o.Inside size ∧ o.Below

theorem wp_read {s : FuseWorld} {size offset : Nat} (h1 : 1 ≤ size) (hsize : size < 2 ^ 31)
    (hrange : offset + size ≤ ficMemSize) (hs : s.failed = false) :
    wp fuseSys (BufKept s size)
      (fun (r : Int) t => (r = size ∧ Got s size offset size t) ∨ (r = -eio ∧ t.failed = true))
      (read m "/mem" size offset) s := by
  have hlim : offset + size < 2 ^ 32 := by simp only [ficMemSize] at hrange; omega
  have hstart : Got s size offset 0 s :=
    ⟨fun _ _ => rfl, rfl, fun i hi => absurd hi (Nat.not_lt_zero i), hs⟩
  apply wp_callback_mem hsize
  apply wp_memBranch (fun c t => c.At size offset ∧ Got s size offset c.buf t)
  · intro t _ hbuf i _
    rw [hbuf]
  · exact h1
  · rwa [offAdd_eq (by omega)]
  · apply wp_mono (wp_returns (wp_readHead hlim hstart) (readHead_at hlim))
    rintro h t - ⟨hat, hgot⟩
    cases h with
    | none => exact hgot
    | some c => exact ⟨hat c rfl, hgot⟩
  · rintro c t ⟨hat, hgot⟩
    exact wp_readTail hlim hsize hat hgot

theorem read_sites {size offset : Nat} (hrange : offset + size ≤ ficMemSize) :
    Ops (Site size offset) (read m "/mem" size offset) := by
  have hlim : offset + size < 2 ^ 32 := by simp only [ficMemSize] at hrange; omega
  exact mem_sites readHead_sites (readHead_at hlim) fun _ hc => readTail_sites hlim hc

/-- A read inside the DDR is exact. -/
theorem read_exact (m : DataModel) (s : FuseWorld) (size offset : Nat) (h1 : 1 ≤ size) (hsize : size < 2 ^ 31)
    (hrange : offset + size ≤ ficMemSize) (hs : s.failed = false) : ReadsExactly m s size offset := by
  have hlim : offset + size < 2 ^ 32 := by simp only [ficMemSize] at hrange; omega
  have hwp := wp_read (m := m) h1 hsize hrange hs
  have hret : Returns (fun _ => True) (read m "/mem" size offset) :=
    returns_callback (returns_memBranch readHead_returns readTail_returns)
      (returns_regBranch fun _ => trivial)
  constructor
  · intro t hr
    exact returns_run hret hr
  · exact returns_within hret fuseSys_succeeds hs
  · intro r t hr hok
    rcases wp_run_ret hwp hr with ⟨hrs, hgot⟩ | ⟨_, hfail⟩
    · exact ⟨hrs, hgot.bytes⟩
    · exact absurd hok (by rw [hfail]; decide)
  · intro p t hr
    exact wp_run_inv hwp hr
  · intro o k t hr
    exact (ops_run (read_sites (m := m) hrange) hr).1.safe hlim

/-- Seven bytes from offset 3: a misaligned start, a word, and two bytes at the end. -/
theorem read_exact_seven :
    ReadsExactly .lp64 ⟨fun a => BitVec.ofNat 8 a, fun _ => 0, fun _ => 0, false⟩ 7 3 :=
  read_exact .lp64 _ 7 3 (by decide) (by decide) (by decide) rfl

end Libfic2.Ficfuse
