import Libfic2.FuseSites

/-!
# `_write` updates exactly the requested bytes, or runs over

A partial word is read, modified and written back, so the word's other bytes are
written with what they already hold.  `Put` says how far the update has got, `Framed`
that nothing outside the range has changed.

A write that starts inside a word and ends before that word does is not handled:
the bytes left are computed as `size - tx` although `tx` is larger, and the tail
writes almost 2 ^ 32 or 2 ^ 64 bytes from behind the buffer.

* `write_exact_iff`
-/

namespace Libfic2.Ficfuse

open Driver Prog Sys

variable {m : DataModel}

/-! ## Progress -/

section
variable (s : FuseWorld) (size offset : Nat)

/-- No byte outside the range has changed. -/
def Framed (t : FuseWorld) : Prop := ∀ a, a < offset ∨ offset + size ≤ a → t.ddr a = s.ddr a

/-- The first `n` bytes have been written. -/
structure Put (n : Nat) (t : FuseWorld) : Prop where
  ddr : t.ddr = patch s.ddr offset n s.buf
  buf : t.buf = s.buf
  ok : t.failed = false

end

/-- A write of `[b, b + len)` that leaves what is there but for the next `k` bytes. -/
theorem patch_patch {d f g : Nat → BitVec 8} {lo n k b len : Nat} (hb : b ≤ lo + n)
    (hlen : lo + n + k ≤ b + len) (hg : ∀ i, i < len → g i = patch d lo (n + k) f (b + i)) :
    patch (patch d lo n f) b len g = patch d lo (n + k) f := by
  funext a
  by_cases hin : b ≤ a ∧ a < b + len
  · rw [patch, if_pos hin, hg (a - b) (by omega), show b + (a - b) = a by omega]
  · rw [patch, if_neg hin]
    unfold patch
    by_cases hold : lo ≤ a ∧ a < lo + n
    · rw [if_pos hold, if_pos (by omega)]
    · rw [if_neg hold, if_neg (by omega)]

theorem patch_of_lt {d f : Nat → BitVec 8} {lo n a : Nat} (h : a < lo ∨ lo + n ≤ a) :
    patch d lo n f a = d a :=
  if_neg (by omega)

section
variable {s t : FuseWorld} {size offset n k : Nat}

theorem Put.framed (h : Put s offset n t) (hn : n ≤ size) : Framed s size offset t := by
  intro a ha
  rw [h.ddr, patch_of_lt (by omega)]

theorem Put.store (h : Put s offset n t) (len : Nat) (j : Nat) (f : Nat → BitVec 8) :
    Put s offset n (t.store (.rbuf j) len f) :=
  ⟨h.ddr, h.buf, h.ok⟩

/-- A write may have moved any part of its bytes. -/
theorem framed_between {d : Nat → BitVec 8} {b : Bool} (hk : n + k ≤ size)
    (hd : ∀ a, d a = patch s.ddr offset n s.buf a ∨ d a = patch s.ddr offset (n + k) s.buf a) :
    Framed s size offset { t with ddr := d, failed := b } := by
  intro a ha
  show d a = s.ddr a
  rcases hd a with h | h
  · rw [h, patch_of_lt (by omega)]
  · rw [h, patch_of_lt (by omega)]

/-- `r_buf` after the word at `b` has been read and `k` bytes of the buffer put into it. -/
theorem load_modified (hput : Put s offset n t) {b j i : Nat} (hplace : b + j = offset + n) (hi : i < 4) :
    ((t.store (.rbuf 0) 4 fun i => t.ddr (b + i)).store (.rbuf j) k
        ((t.store (.rbuf 0) 4 fun i => t.ddr (b + i)).load (.buf n))).load (.rbuf 0) i =
      patch s.ddr offset (n + k) s.buf (b + i) := by
  show patch (patch t.rbuf 0 4 fun i => t.ddr (b + i)) j k (fun i => t.buf (n + i)) (0 + i) = _
  rw [Nat.zero_add, hput.ddr, hput.buf]
  unfold patch
  by_cases hnew : j ≤ i ∧ i < j + k
  · rw [if_pos hnew, if_pos (by omega)]
    show s.buf (n + (i - j)) = s.buf (b + i - offset)
    rw [show n + (i - j) = b + i - offset by omega]
  · rw [if_neg hnew, if_pos (by omega), Nat.sub_zero]
    show (if offset ≤ b + i ∧ b + i < offset + n then s.buf (b + i - offset) else s.ddr (b + i)) = _
    by_cases hold : offset ≤ b + i ∧ b + i < offset + n
    · rw [if_pos hold, if_pos (by omega)]
    · rw [if_neg hold, if_neg (by omega)]

end

/-! ## One write -/

section
variable {s t : FuseWorld} {size offset n k : Nat} {α : Type} {Q : α → FuseWorld → Prop}
    {l next : F α} {addr : BitVec 32}

/-- A write of `len` bytes that puts the next `k` bytes of the range. -/
theorem wp_put {p : Ptr} {len : Nat} (hput : Put s offset n t) (hk : n + k ≤ size)
    (hb : ddrBase addr ≤ offset + n) (hlen : offset + n + k ≤ ddrBase addr + len)
    (hload : ∀ i, i < len → t.load p i = patch s.ddr offset (n + k) s.buf (ddrBase addr + i))
    (hl : ∀ u, u.failed = true → Framed s size offset u → wp fuseSys (Framed s size offset) Q l u)
    (hnext : ∀ u, Put s offset (n + k) u → wp fuseSys (Framed s size offset) Q next u) :
    wp fuseSys (Framed s size offset) Q
      (call (FuseOp.hlsWrite p len addr rasddrCmdWrite) >>= fun r => if r < 0 then l else next) t := by
  have hpatch : patch t.ddr (ddrBase addr) len (t.load p) = patch s.ddr offset (n + k) s.buf := by
    rw [hput.ddr]
    exact patch_patch hb hlen hload
  apply wp_ddrWrite (hput.framed (by omega))
  · intro d hd
    rw [hpatch, hput.ddr] at hd
    exact hl _ rfl (framed_between hk hd)
  · apply hnext
    exact ⟨hpatch, hput.buf, hput.ok⟩

/-- Read a word, put `k` bytes of the buffer into it and write it back. -/
theorem wp_modify {off : Nat} {j : Nat} (hput : Put s offset n t) (hoff : off < 2 ^ 32)
    (hplace : off / 4 * 4 + j = offset + n) (hjk : j + k ≤ 4) (hk : n + k ≤ size)
    (hl : ∀ u, u.failed = true → Framed s size offset u → wp fuseSys (Framed s size offset) Q l u)
    (hnext : ∀ u, Put s offset (n + k) u → wp fuseSys (Framed s size offset) Q next u) :
    wp fuseSys (Framed s size offset) Q
      (call (FuseOp.hlsRead (.rbuf 0) 4 (addr32 off) rasddrCmdRead) >>= fun r => if r < 0 then l else
        call (FuseOp.memcpy (.rbuf j) (.buf n) k) >>= fun _ =>
        call (FuseOp.hlsWrite (.rbuf 0) 4 (addr32 off) rasddrCmdWrite) >>=
        fun r => if r < 0 then l else next) t := by
  have hbase := ddrBase_addr32 hoff
  apply wp_ddrRead (hput.framed (by omega))
  · intro f
    exact hl _ rfl ((hput.store 4 0 f).framed (by omega))
  · have hread := hput.store 4 0 fun i => t.ddr (ddrBase (addr32 off) + i)
    apply wp_memcpy (hread.framed (by omega))
    apply wp_put (hread.store _ _ _) hk (by omega) (by omega) _ hl hnext
    intro i hi
    rw [hbase]
    exact load_modified hput hplace hi

end

/-! ## Head and tail -/

/-- The start is aligned, or the range reaches the end of its first word. -/
def Covers (size offset : Nat) : Prop := offset % 4 = 0 ∨ 4 - offset % 4 ≤ size

/-- What the tail writes after a range that ends inside its first word. -/
def overrun (m : DataModel) (offset : Nat) : FuseOp :=
  .hlsWrite (.buf (4 - offset % 4)) (2 ^ m.sizeBits - 4) (addr32 (offset + (4 - offset % 4))) rasddrCmdWrite

section
variable {s t : FuseWorld} {size offset : Nat}

/-- `writeHead` for such a range. -/
theorem writeHead_eq (hcov : Covers size offset) :
    writeHead m ⟨0, offset, size⟩ =
      (if offset % 4 ≠ 0 then do
        let r ← call (FuseOp.hlsRead (.rbuf 0) 4 (addr32 offset) rasddrCmdRead)
        if r < 0 then ret none else do
        let _ ← call (FuseOp.memcpy (.rbuf (offset % 4)) (.buf 0) (4 - offset % 4))
        let r ← call (FuseOp.hlsWrite (.rbuf 0) 4 (addr32 offset) rasddrCmdWrite)
        if r < 0 then ret none else
        ret (some ((⟨0, offset, size⟩ : Cursor).skip m (4 - offset % 4)))
      else ret (some ⟨0, offset, size⟩)) := by
  unfold writeHead
  dsimp only
  by_cases hmis : offset % 4 ≠ 0
  · have hlong : ¬ 4 - offset % 4 > size := by
      rcases hcov with h | h <;> omega
    rw [if_pos hmis, if_pos hmis, if_neg hlong]
  · rw [if_neg hmis, if_neg hmis]

theorem writeHead_at (hcov : Covers size offset) (hlim : offset + size < 2 ^ 32) :
    Returns (fun h => ∀ c ∈ h, c.At size offset) (writeHead m ⟨0, offset, size⟩) := by
  have hnone : Returns (fun h => ∀ c ∈ h, c.At size offset) (ret none : F (Option Cursor)) := by
    intro c hc
    cases hc
  rw [writeHead_eq hcov]
  split
  · next hmis =>
    intro r
    show Returns _ (if r < 0 then _ else _)
    split
    · exact hnone
    · intro _ r
      show Returns _ (if r < 0 then _ else _)
      split
      · exact hnone
      · intro c hc
        obtain rfl := Option.some.inj hc
        exact skip_at (by rcases hcov with h | h <;> omega) hlim fun _ => by omega
  · next hmis =>
    intro c hc
    obtain rfl := Option.some.inj hc
    exact ⟨rfl, Nat.zero_add _, fun _ => by show offset % 4 = 0; omega⟩

/-- `writeTail` for a range inside the DDR. -/
theorem writeTail_eq {c : Cursor} (hlim : offset + size < 2 ^ 32) (hc : c.At size offset) :
    writeTail m c =
      (if c.left = 0 then ret true
      else if c.left % 4 = 0 then do
        let r ← call (FuseOp.hlsWrite (.buf c.buf) c.left (addr32 c.offset) rasddrCmdWrite)
        if r < 0 then ret false else ret true
      else if c.left < 4 then writeLast c (c.left % 4)
      else do
        let r ← call (FuseOp.hlsWrite (.buf c.buf) (c.left - c.left % 4) (addr32 c.offset) rasddrCmdWrite)
        if r < 0 then ret false else
        writeLast ⟨c.buf + (c.left - c.left % 4), c.offset + (c.left - c.left % 4),
        c.left⟩ (c.left % 4)) := by
  have hplace := hc.place
  have hrest := hc.rest
  unfold writeTail
  dsimp only
  by_cases hleft : c.left = 0
  · rw [if_pos hleft, if_neg (by omega)]
  · have halign := hc.aligned (by omega)
    have hmis : offAdd m c.offset c.left % 4 = c.left % 4 := by
      rw [offAdd_eq (by omega)]
      omega
    rw [if_neg hleft, if_pos (by omega), hmis, sizeSub_eq (Nat.mod_le _ _) (by omega)]
    by_cases hend : c.left % 4 = 0
    · rw [if_pos hend, if_neg (by omega)]
    · rw [if_neg hend, if_pos (by omega)]
      by_cases hshort : c.left < 4
      · rw [if_pos hshort, if_neg (by omega)]
      · rw [if_neg hshort, if_pos (by omega)]

theorem wp_writeHead (hcov : Covers size offset) (hlim : offset + size < 2 ^ 32) (ht : Put s offset 0 t) :
    wp fuseSys (Framed s size offset)
      (fun h t => match h with
        | none => t.failed = true
        | some c => Put s offset c.buf t)
      (writeHead m ⟨0, offset, size⟩) t := by
  rw [writeHead_eq hcov]
  split
  · next hmis =>
    have hn : 0 + (4 - offset % 4) ≤ size := by rcases hcov with h | h <;> omega
    apply wp_modify ht (by omega) (by omega) (by omega) hn
    · intro u hfail hu
      exact wp_retQuiet fuseSys_quiet hu hfail
    · intro u hu
      exact wp_retQuiet fuseSys_quiet (hu.framed hn) hu
  · exact wp_retQuiet fuseSys_quiet (ht.framed (Nat.zero_le _)) ht

/-- The last word, of which `k` bytes are written. -/
theorem wp_writeLast {c : Cursor} {k : Nat} (hlim : offset + size < 2 ^ 32)
    (hplace : c.offset = offset + c.buf)
    (halign : c.offset % 4 = 0) (hk : k < 4) (hrest : c.buf + k = size) (ht : Put s offset c.buf t) :
    wp fuseSys (Framed s size offset) (fun ok t => if ok then Put s offset size t else t.failed = true)
      (writeLast c k) t := by
  apply wp_modify ht (by omega) (by omega) (by omega) (by omega)
  · intro u hfail hu
    exact wp_retQuiet fuseSys_quiet hu hfail
  · intro u hu
    rw [hrest] at hu
    exact wp_retQuiet fuseSys_quiet (hu.framed (Nat.le_refl _)) hu

/-- `n` bytes at the cursor, before `next`. -/
theorem wp_writeMiddle {c : Cursor} {n : Nat} {next : F Bool} (hlim : offset + size < 2 ^ 32)
    (hplace : c.offset = offset + c.buf) (halign : c.offset % 4 = 0) (hpos : 0 < n) (hn : c.buf + n ≤ size)
    (ht : Put s offset c.buf t)
    (hnext : ∀ u, Put s offset (c.buf + n) u →
      wp fuseSys (Framed s size offset)
      (fun ok t => if ok then Put s offset size t else t.failed = true) next u) :
    wp fuseSys (Framed s size offset) (fun ok t => if ok then Put s offset size t else t.failed = true)
      (call (FuseOp.hlsWrite (.buf c.buf) n (addr32 c.offset) rasddrCmdWrite) >>= fun r =>
        if r < 0 then ret false else next) t := by
  have hbase : ddrBase (addr32 c.offset) = c.offset := by
    rw [ddrBase_addr32 (by omega)]
    omega
  apply wp_put ht hn (by omega) (by omega)
  · intro i hi
    show t.buf (c.buf + i) = patch s.ddr offset (c.buf + n) s.buf (ddrBase (addr32 c.offset) + i)
    rw [patch, if_pos (by omega), ht.buf, show ddrBase (addr32 c.offset) + i - offset = c.buf + i by omega]
  · intro u hfail hu
    exact wp_retQuiet fuseSys_quiet hu hfail
  · exact hnext

theorem wp_writeTail {c : Cursor} (hlim : offset + size < 2 ^ 32) (hc : c.At size offset)
    (ht : Put s offset c.buf t) :
    wp fuseSys (Framed s size offset) (fun ok t => if ok then Put s offset size t else t.failed = true)
      (writeTail m c) t := by
  have hplace := hc.place
  have hrest := hc.rest
  rw [writeTail_eq hlim hc]
  split
  · next hleft =>
    have hdone : c.buf = size := by omega
    rw [hdone] at ht
    exact wp_retQuiet fuseSys_quiet (ht.framed (Nat.le_refl _)) ht
  · next hleft =>
    have halign := hc.aligned (by omega)
    split
    · apply wp_writeMiddle hlim hplace halign (by omega) (by omega) ht
      intro u hu
      rw [hrest] at hu
      exact wp_retQuiet fuseSys_quiet (hu.framed (Nat.le_refl _)) hu
    · split
      · next hshort =>
        have hwhole : c.left % 4 = c.left := Nat.mod_eq_of_lt hshort
        exact wp_writeLast hlim hplace halign (Nat.mod_lt _ (by decide)) (by omega) ht
      · apply wp_writeMiddle hlim hplace halign (by omega) (by omega) ht
        intro u hu
        apply wp_writeLast hlim _ _ (Nat.mod_lt _ (by decide)) _ hu
        · show c.offset + _ = offset + (c.buf + _)
          omega
        · show (c.offset + (c.left - c.left % 4)) % 4 = 0
          omega
        · show c.buf + (c.left - c.left % 4) + c.left % 4 = size
          omega

/-! ## Every operation is safe -/

theorem Site.inside {o : FuseOp} (h : Site size offset o) : o.Inside size := by
  cases h with
  | readWord _ _ _ => exact Nat.le_refl 4
  | writeWord _ _ _ => exact Nat.le_refl 4
  | read _ _ _ hi => exact hi
  | write _ _ _ hi => exact hi
  | toBuf hi hj => exact ⟨hi, hj⟩
  | fromBuf hi hj => exact ⟨hj, hi⟩
  | _ => trivial

/-- A range that does not end inside its first word. -/
theorem write_sites (hrange : offset + size ≤ ficMemSize) (hcov : Covers size offset) :
    Ops (Site size offset) (write m "/mem" size offset) := by
  have hlim : offset + size < 2 ^ 32 := by simp only [ficMemSize] at hrange; omega
  exact mem_sites writeHead_sites (writeHead_at hcov hlim) fun _ hc => writeTail_sites hlim hc

theorem writeHead_returns : Returns (fun _ => True) (writeHead m ⟨0, offset, size⟩) := by
  unfold writeHead
  dsimp only
  split
  · intro r
    show Returns _ (if r < 0 then _ else _)
    split
    · trivial
    · split
      all_goals
        intro _ r
        show Returns _ (if r < 0 then _ else _)
        split <;> trivial
  · trivial

theorem writeLast_returns (c : Cursor) (k : Nat) : Returns (fun _ => True) (writeLast c k) := by
  intro r
  show Returns _ (if r < 0 then _ else _)
  split
  · trivial
  · intro _ r
    show Returns _ (if r < 0 then _ else _)
    split <;> trivial

theorem writeTail_returns (c : Cursor) : Returns (fun _ => True) (writeTail m c) := by
  unfold writeTail
  dsimp only
  split
  · split
    · split
      · intro r
        show Returns _ (if r < 0 then _ else _)
        split
        · trivial
        · exact writeLast_returns _ _
      · exact writeLast_returns _ _
    · intro r
      show Returns _ (if r < 0 then _ else _)
      split <;> trivial
  · trivial

end

/-! ## The callback -/

/-- `_write` of `size` bytes at `offset` of `/mem`, from `s`: it always comes to an end and can succeed;
when nothing fails the DDR is as before but for the range, which holds the buffer, and `size` is
returned; otherwise `-EIO` is; at no moment has a byte outside the range changed; and no operation
leaves the buffer. -/
structure WritesExactly (m : DataModel) (s : FuseWorld) (size offset : Nat) : Prop where
  ends : ∀ t, ¬ fuseSys.Run (write m "/mem" size offset, s) (hang, t)
  succeeds : ∃ r t, fuseSys.Run (write m "/mem" size offset, s) (ret r, t) ∧ t.failed = false
  exact_bytes : ∀ r t, fuseSys.Run (write m "/mem" size offset, s) (ret r, t) → t.failed = false →
    r = size ∧ t.ddr = patch s.ddr offset size s.buf
  result : ∀ r t, fuseSys.Run (write m "/mem" size offset, s) (ret r, t) → r = size ∨ r = -eio
  framed : ∀ p t, fuseSys.Run (write m "/mem" size offset, s) (p, t) →
    ∀ a, a < offset ∨ offset + size ≤ a → t.ddr a = s.ddr a
  inside : ∀ o k t, fuseSys.Run (write m "/mem" size offset, s) (op o k, t) → o.Inside size

section
variable {s : FuseWorld} {size offset : Nat}

theorem wp_write (h1 : 1 ≤ size) (hsize : size < 2 ^ 31) (hrange : offset + size ≤ ficMemSize)
    (hcov : Covers size offset) (hs : s.failed = false) :
    wp fuseSys (Framed s size offset)
      (fun (r : Int) t => (r = size ∧ Put s offset size t) ∨ (r = -eio ∧ t.failed = true))
      (write m "/mem" size offset) s := by
  have hlim : offset + size < 2 ^ 32 := by simp only [ficMemSize] at hrange; omega
  have hstart : Put s offset 0 s := ⟨funext fun a => (patch_of_lt (by omega)).symm, rfl, hs⟩
  apply wp_callback_mem hsize
  apply wp_memBranch (fun c t => c.At size offset ∧ Put s offset c.buf t)
  · intro t hddr _ a _
    rw [hddr]
  · exact h1
  · rwa [offAdd_eq (by omega)]
  · apply wp_mono (wp_returns (wp_writeHead hcov hlim hstart) (writeHead_at hcov hlim))
    rintro h t - ⟨hat, hput⟩
    cases h with
    | none => exact hput
    | some c => exact ⟨hat c rfl, hput⟩
  · rintro c t ⟨hat, hput⟩
    exact wp_writeTail hlim hat hput

theorem writesExactly_of (h1 : 1 ≤ size) (hsize : size < 2 ^ 31) (hrange : offset + size ≤ ficMemSize)
    (hcov : Covers size offset) (hs : s.failed = false) : WritesExactly m s size offset := by
  have hlim : offset + size < 2 ^ 32 := by simp only [ficMemSize] at hrange; omega
  have hwp := wp_write (m := m) h1 hsize hrange hcov hs
  have hret : Returns (fun _ => True) (write m "/mem" size offset) :=
    returns_callback (returns_memBranch writeHead_returns writeTail_returns)
      (returns_regBranch fun _ => trivial)
  constructor
  · intro t hr
    exact returns_run hret hr
  · exact returns_within hret fuseSys_succeeds hs
  · intro r t hr hok
    rcases wp_run_ret hwp hr with ⟨hrs, hput⟩ | ⟨_, hfail⟩
    · exact ⟨hrs, hput.ddr⟩
    · exact absurd hok (by rw [hfail]; decide)
  · intro r t hr
    exact (wp_run_ret hwp hr).imp And.left And.left
  · intro p t hr
    exact wp_run_inv hwp hr
  · intro o k t hr
    exact (ops_run (write_sites (m := m) hrange hcov) hr).1.inside

/-! ## A range inside one word -/

/-- The bytes left underflow, and the tail writes from behind the buffer. -/
theorem reaches_overrun {t : FuseWorld} (h1 : 1 ≤ size) (hleft : size < 4 - offset % 4)
    (hsmall : offset + size < 2 ^ 32) :
    reaches fuseSys (· = overrun m offset)
      (writeTail m ((⟨0, offset, size⟩ : Cursor).skip m (4 - offset % 4))) t := by
  have hrest : sizeSub m size (4 - offset % 4) = 2 ^ m.sizeBits + size - (4 - offset % 4) := by
    cases m <;> simp only [sizeSub, DataModel.sizeBits] <;> omega
  have hmis : offAdd m (offset + (4 - offset % 4)) (2 ^ m.sizeBits + size - (4 - offset % 4)) % 4 =
      offset % 4 + size := by
    cases m <;> simp only [offAdd, DataModel.sizeBits] <;> omega
  have htx : sizeSub m (2 ^ m.sizeBits + size - (4 - offset % 4)) (offset % 4 + size) =
      2 ^ m.sizeBits - 4 := by
    cases m <;> simp only [sizeSub, DataModel.sizeBits] <;> omega
  have hbig : 2 ^ 32 ≤ 2 ^ m.sizeBits := by
    cases m <;> decide
  unfold writeTail Cursor.skip
  dsimp only
  rw [hrest, hmis, htx, if_pos (by omega), if_pos (by omega), if_pos (by omega), Nat.zero_add]
  exact .inl rfl

theorem overrun_not_inside (hleft : size < 4 - offset % 4) : ¬ (overrun m offset).Inside size := by
  show ¬ (4 - offset % 4 + (2 ^ m.sizeBits - 4) ≤ size)
  omega

/-- The head of such a write, when nothing fails. -/
theorem can_writeHead {t : FuseWorld} (hleft : size < 4 - offset % 4) (hmis : offset % 4 ≠ 0) :
    can fuseSys (fun h _ => h = some ((⟨0, offset, size⟩ : Cursor).skip m (4 - offset % 4)))
      (writeHead m ⟨0, offset, size⟩) t := by
  unfold writeHead
  dsimp only
  rw [if_pos hmis, if_pos hleft]
  have hz : ¬ (0 : Int) < 0 := by decide
  refine ⟨t, (0 : Int), _, .refl, ⟨fun i => t.ddr (ddrBase (addr32 offset) + i), fun _ _ => rfl, rfl⟩, ?_⟩
  refine ⟨_, (), _, .refl, rfl, ?_⟩
  exact ⟨_, (0 : Int), _, .refl,
    ⟨_, fun hne => absurd rfl hne, fun _ _ => rfl, fun hr => absurd hr hz, rfl⟩, rfl⟩

theorem write_overruns (m : DataModel) (s : FuseWorld) (size offset : Nat) (h1 : 1 ≤ size)
    (hrange : offset + size ≤ ficMemSize) (hcov : ¬ Covers size offset) :
    ∃ k t, fuseSys.Run (write m "/mem" size offset, s) (op (overrun m offset) k, t) := by
  have hlim : offset + size < 2 ^ 32 := by simp only [ficMemSize] at hrange; omega
  have hmis : offset % 4 ≠ 0 := fun h => hcov (.inl h)
  have hleft : size < 4 - offset % 4 := Nat.lt_of_not_le fun h => hcov (.inr h)
  have hreach : reaches fuseSys (· = overrun m offset) (write m "/mem" size offset) s := by
    apply reaches_callback_mem h1 hrange
    right
    apply can_mono (can_writeHead hleft hmis)
    rintro _ t rfl
    exact ⟨_, rfl, reaches_overrun h1 hleft hlim⟩
  obtain ⟨o, k, t, hr, rfl⟩ := reaches_run hreach
  exact ⟨k, t, hr⟩

/-- A write inside the DDR is exact if and only if it starts at a word or reaches the end of its first
word. -/
theorem write_exact_iff (m : DataModel) (s : FuseWorld) (size offset : Nat) (h1 : 1 ≤ size)
    (hsize : size < 2 ^ 31) (hrange : offset + size ≤ ficMemSize) (hs : s.failed = false) :
    WritesExactly m s size offset ↔ offset % 4 = 0 ∨ 4 - offset % 4 ≤ size := by
  constructor
  · intro h
    by_contra hcov
    obtain ⟨k, t, hr⟩ := write_overruns m s size offset h1 hrange hcov
    exact overrun_not_inside (Nat.lt_of_not_le fun hlong => hcov (.inr hlong)) (h.inside _ k t hr)
  · intro hcov
    exact writesExactly_of h1 hsize hrange hcov hs

/-- Seven bytes from offset 3. -/
theorem write_exact_iff_seven :
    WritesExactly .lp64 ⟨fun a => BitVec.ofNat 8 a, fun _ => 0, fun _ => 0, false⟩ 7 3 ↔
    3 % 4 = 0 ∨ 4 - 3 % 4 ≤ 7 :=
  write_exact_iff .lp64 _ 7 3 (by decide) (by decide) (by decide) rfl

/-- One byte at offset 1: the write runs over the end of its buffer. -/
theorem write_one_overruns : ¬ WritesExactly .lp64 ⟨fun _ => 0, fun _ => 0xff, fun _ => 0, false⟩ 1 1 := by
  intro h
  obtain ⟨k, t, hr⟩ := write_overruns .lp64 ⟨fun _ => 0, fun _ => 0xff, fun _ => 0, false⟩ 1 1
    (by decide) (by decide) (by unfold Covers; decide)
  exact overrun_not_inside (by decide) (h.inside _ k t hr)

end

end Libfic2.Ficfuse
