import Libfic2.Ficfuse

/-!
# The operations of `_read` and `_write` for a range of the DDR

`Site size offset o`: a call for the range `[offset, offset + size)` may issue `o`, which is a word
through `r_buf`, a middle part of whole words, or a copy inside the buffers.  Head and tail issue
nothing else (`readHead_sites` .. `writeTail_sites`), so what is asked of every operation of a call
has to be shown for these few.
-/

namespace Libfic2.Ficfuse

open Driver Prog

variable {m : DataModel}

inductive Site (size offset : Nat) : FuseOp → Prop
  | gpioOpen : Site size offset .gpioOpen
  | gpioClose (fd : Int) : Site size offset (.gpioClose fd)
  | commReset : Site size offset .commReset
  | readWord {off : Nat} : offset ≤ off → off ≤ offset + size → off = offset ∨ off % 4 = 0 →
      Site size offset (.hlsRead (.rbuf 0) 4 (addr32 off) rasddrCmdRead)
  | writeWord {off : Nat} : offset ≤ off → off ≤ offset + size → off = offset ∨ off % 4 = 0 →
      Site size offset (.hlsWrite (.rbuf 0) 4 (addr32 off) rasddrCmdWrite)
  | read {i n : Nat} : (offset + i) % 4 = 0 → 0 < n → n % 4 = 0 → i + n ≤ size →
      Site size offset (.hlsRead (.buf i) n (addr32 (offset + i)) rasddrCmdRead)
  | write {i n : Nat} : (offset + i) % 4 = 0 → 0 < n → n % 4 = 0 → i + n ≤ size →
      Site size offset (.hlsWrite (.buf i) n (addr32 (offset + i)) rasddrCmdWrite)
  | toBuf {i j n : Nat} : i + n ≤ size → j + n ≤ 4 → Site size offset (.memcpy (.buf i) (.rbuf j) n)
  | fromBuf {i j n : Nat} : i + n ≤ size → j + n ≤ 4 → Site size offset (.memcpy (.rbuf j) (.buf i) n)

section
variable {a : Nat}

theorem addr32_toNat (h : a < 2 ^ 32) : (addr32 a).toNat = a := by
  unfold addr32
  rw [BitVec.toNat_ofNat, Nat.mod_eq_of_lt h]

/-- `int tx_size`, where it is positive. -/
theorem cInt_toNat {x : Nat} (h : x < 2 ^ 32) (hpos : 0 < cInt x) : (cInt x).toNat = x := by
  unfold cInt at hpos ⊢
  rw [BitVec.toInt_eq_toNat_cond, BitVec.toNat_ofNat, Nat.mod_eq_of_lt h] at hpos ⊢
  split
  · exact Int.toNat_natCast x
  · next hlarge =>
    rw [if_neg hlarge] at hpos
    omega

end

section
variable {size offset : Nat} {c : Cursor}

/-! ## `_read` -/

theorem readHead_sites : Ops (Site size offset) (readHead m ⟨0, offset, size⟩) := by
  unfold readHead
  dsimp only
  split
  · apply ops_bind (ops_call _ (.readWord (Nat.le_refl offset) (Nat.le_add_right offset size) (.inl rfl)))
    intro r
    split
    · trivial
    · split
      · exact ops_bind (ops_call _ (.toBuf (by omega) (by omega))) fun _ => trivial
      · exact ops_bind (ops_call _ (.toBuf (by omega) (by omega))) fun _ => trivial
  · trivial

theorem readLast_sites {k : Nat} (h1 : offset ≤ c.offset) (h2 : c.offset ≤ offset + size)
    (ha : c.offset % 4 = 0) (hk : k < 4)
    (hrest : c.buf + k ≤ size) : Ops (Site size offset) (readLast c k) := by
  apply ops_bind (ops_call _ (.readWord h1 h2 (.inr ha)))
  intro r
  split
  · trivial
  · exact ops_bind (ops_call _ (.toBuf hrest (by omega))) fun _ => trivial

/-- From `2 ^ 31` bytes on, `tx_size` is negative and the words in the middle are left out. -/
theorem readTail_sites (hlim : offset + size < 2 ^ 32) (hc : c.At size offset) :
    Ops (Site size offset) (readTail m c) := by
  have hplace := hc.place
  have hrest := hc.rest
  unfold readTail
  dsimp only
  split
  · next hleft =>
    have halign := hc.aligned hleft
    have hend : offAdd m c.offset c.left % 4 = c.left % 4 := by
      rw [offAdd_eq (by omega)]
      omega
    have htx : sizeSub m c.left (c.left % 4) = c.left - c.left % 4 := sizeSub_eq (Nat.mod_le _ _) (by omega)
    have hk : c.left % 4 < 4 := Nat.mod_lt _ (by decide)
    rw [hend, htx]
    split
    · split
      · next hlong =>
        have hmiddle : (cInt (c.left - c.left % 4)).toNat = c.left - c.left % 4 :=
          cInt_toNat (by omega) (by omega)
        have hsite : Site size offset
            (.hlsRead (.buf c.buf) (c.left - c.left % 4) (addr32 c.offset) rasddrCmdRead) := by
          rw [hplace]
          exact .read (by omega) (by omega) (by omega) (by omega)
        rw [hmiddle]
        apply ops_bind (ops_call _ hsite)
        intro r
        split
        · trivial
        · apply readLast_sites _ _ _ hk
          · show c.buf + (c.left - c.left % 4) + c.left % 4 ≤ size
            omega
          · show offset ≤ c.offset + (c.left - c.left % 4)
            omega
          · show c.offset + (c.left - c.left % 4) ≤ offset + size
            omega
          · show (c.offset + (c.left - c.left % 4)) % 4 = 0
            omega
      · exact readLast_sites (by omega) (by omega) halign hk (by omega)
    · have hsite : Site size offset (.hlsRead (.buf c.buf) c.left (addr32 c.offset) rasddrCmdRead) := by
        rw [hplace]
        exact .read (by omega) hleft (by omega) (by omega)
      apply ops_bind (ops_call _ hsite)
      intro r
      split <;> trivial
  · trivial

/-! ## `_write` -/

/-- Reading a word, modifying it and writing it back. -/
theorem modify_sites {α : Type} {l next : F α} {off i j k : Nat} (h1 : offset ≤ off)
    (h2 : off ≤ offset + size)
    (ha : off = offset ∨ off % 4 = 0) (hi : i + k ≤ size) (hj : j + k ≤ 4) (hl : Ops (Site size offset) l)
    (hnext : Ops (Site size offset) next) :
    Ops (Site size offset)
      (call (FuseOp.hlsRead (.rbuf 0) 4 (addr32 off) rasddrCmdRead) >>= fun r => if r < 0 then l else
        call (FuseOp.memcpy (.rbuf j) (.buf i) k) >>= fun _ =>
        call (FuseOp.hlsWrite (.rbuf 0) 4 (addr32 off) rasddrCmdWrite) >>=
        fun r => if r < 0 then l else next) := by
  apply ops_bind (ops_call _ (.readWord h1 h2 ha))
  intro r
  split
  · exact hl
  · apply ops_bind (ops_call _ (.fromBuf hi hj))
    intro _
    apply ops_bind (ops_call _ (.writeWord h1 h2 ha))
    intro r
    split
    · exact hl
    · exact hnext

theorem writeHead_sites : Ops (Site size offset) (writeHead m ⟨0, offset, size⟩) := by
  have hword : ∀ k next, k ≤ size → k ≤ 4 - offset % 4 → Ops (Site size offset) next →
      Ops (Site size offset)
        (call (FuseOp.hlsRead (.rbuf 0) 4 (addr32 offset) rasddrCmdRead) >>=
        fun r => if r < 0 then ret none else
          call (FuseOp.memcpy (.rbuf (offset % 4)) (.buf 0) k) >>= fun _ =>
          call (FuseOp.hlsWrite (.rbuf 0) 4 (addr32 offset) rasddrCmdWrite) >>= fun r =>
            if r < 0 then ret (none : Option Cursor) else next) := fun k next hk hk' hnext =>
    modify_sites (Nat.le_refl _) (Nat.le_add_right _ _) (.inl rfl) (by omega) (by omega) (ops_ret _) hnext
  unfold writeHead
  dsimp only
  split
  · by_cases hshort : 4 - offset % 4 > size
    · simp only [if_pos hshort]
      exact hword size _ (Nat.le_refl _) (by omega) (ops_ret _)
    · simp only [if_neg hshort]
      exact hword (4 - offset % 4) _ (by omega) (Nat.le_refl _) (ops_ret _)
  · trivial

theorem writeTail_sites (hlim : offset + size < 2 ^ 32) (hc : c.At size offset) :
    Ops (Site size offset) (writeTail m c) := by
  have hplace := hc.place
  have hrest := hc.rest
  unfold writeTail
  dsimp only
  split
  · next hleft =>
    have halign := hc.aligned hleft
    have hend : offAdd m c.offset c.left % 4 = c.left % 4 := by
      rw [offAdd_eq (by omega)]
      omega
    have htx : sizeSub m c.left (c.left % 4) = c.left - c.left % 4 := sizeSub_eq (Nat.mod_le _ _) (by omega)
    have hk : c.left % 4 < 4 := Nat.mod_lt _ (by decide)
    rw [hend, htx]
    split
    · split
      · next hlong =>
        have hsite : Site size offset
            (.hlsWrite (.buf c.buf) (c.left - c.left % 4) (addr32 c.offset) rasddrCmdWrite) := by
          rw [hplace]
          exact .write (by omega) (by omega) (by omega) (by omega)
        apply ops_bind (ops_call _ hsite)
        intro r
        split
        · trivial
        · apply modify_sites _ _ (.inr _) _ (by omega) (ops_ret _) (ops_ret _)
          · show offset ≤ c.offset + (c.left - c.left % 4)
            omega
          · show c.offset + (c.left - c.left % 4) ≤ offset + size
            omega
          · show (c.offset + (c.left - c.left % 4)) % 4 = 0
            omega
          · show c.buf + (c.left - c.left % 4) + c.left % 4 ≤ size
            omega
      · exact modify_sites (by omega) (by omega) (.inr halign) (by omega) (by omega) (ops_ret _) (ops_ret _)
    · have hsite : Site size offset (.hlsWrite (.buf c.buf) c.left (addr32 c.offset) rasddrCmdWrite) := by
        rw [hplace]
        exact .write (by omega) hleft (by omega) (by omega)
      apply ops_bind (ops_call _ hsite)
      intro r
      split <;> trivial
  · trivial

/-! ## The callbacks -/

theorem mem_sites {head : Cursor → F (Option Cursor)} {tail : Cursor → F Bool} {reg : F (Option Int)}
    (hhead : Ops (Site size offset) (head ⟨0, offset, size⟩))
    (hat : Returns (fun h => ∀ c ∈ h, c.At size offset) (head ⟨0, offset, size⟩))
    (htail : ∀ c, c.At size offset → Ops (Site size offset) (tail c)) :
    Ops (Site size offset) (callback "/mem" size (memBranch m head tail size offset) reg) :=
  ops_callback_mem (ops_memBranch .gpioOpen .gpioClose .commReset hhead hat htail)

end

end Libfic2.Ficfuse
