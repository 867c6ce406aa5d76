import Libfic2.FuseAlignment

/-!
# The bounds of the accesses to `/mem` and `/reg`

`_getattr` reports the sizes of the two files, and `_read` and `_write` refuse what does not fit.
For `/mem` they compare the end of the range, where a `size_t` of 64 bits lets the sum wrap around;
for `/reg` they compare its start, and with the size of the other file.

* `contained_iff`: the calls that are refused when they leave the file, and else stay inside it
-/

namespace Libfic2.Ficfuse

open Driver Prog Sys

variable {m : DataModel}

/-! ## What is asked for -/

/-- A transfer on the bus. -/
def FuseOp.IsTransfer : FuseOp → Prop
  | .hlsRead _ _ _ _ => True
  | .hlsWrite _ _ _ _ => True
  | _ => False

/-- Where a transfer starts: the DDR is accessed in words. -/
def busBase (addr ctrl : BitVec 32) : Nat :=
  if ctrl = rasddrCmdRead ∨ ctrl = rasddrCmdWrite then ddrBase addr else addr.toNat

/-- Byte `i` of the caller's buffer stands for the offset `offset + i` of the file, `r_buf` for some word
of the range.  The address is that offset, and the bytes moved are below 2 ^ 32. -/
structure InPlace (size offset : Nat) (p : Ptr) (n : Nat) (addr ctrl : BitVec 32) : Prop where
  start : ∀ i, p = .buf i → addr.toNat = offset + i
  range : offset ≤ addr.toNat ∧ addr.toNat ≤ offset + size
  whole : busBase addr ctrl + n ≤ 2 ^ 32

def FuseOp.InPlace (size offset : Nat) : FuseOp → Prop
  | .hlsRead p n addr ctrl => Ficfuse.InPlace size offset p n addr ctrl
  | .hlsWrite p n addr ctrl => Ficfuse.InPlace size offset p n addr ctrl
  | _ => True

/-- The call `c` for `size` bytes at `offset` of the file `path`, from `s`.  A transfer means that the range
lies inside the file as `_getattr` reports it, and is in place; a range that does not is refused before
any operation; and the sum of the check is defined. -/
structure Contained (m : DataModel) (e : Caller) (st : Stat) (path : String) (size offset : Nat)
    (c : F Int) (s : FuseWorld) : Prop where
  inside : ∀ o k t, fuseSys.Run (c, s) (op o k, t) → o.IsTransfer →
    offset + size ≤ (getattr e path st).2.stSize ∧ o.InPlace size offset
  refused : (getattr e path st).2.stSize < offset + size → c = ret (-efault)
  defined : path = "/mem" → OffAddDefined m offset size

/-- The check of `/mem` tells whether the range fits. -/
def MemChecked (m : DataModel) (size offset : Nat) : Prop :=
  OffAddDefined m offset size ∧ (offset + size ≤ ficMemSize ∨ ficMemSize < offAdd m offset size)

/-- The range of `/reg` fits, or starts behind the end of `/mem`. -/
def RegChecked (size offset : Nat) : Prop := offset + size ≤ ficRegSize ∨ ficMemSize < offset

/-! ## `/mem` -/

section
variable {size offset : Nat} {s : FuseWorld} {e : Caller} {st : Stat}

theorem Site.inPlace (hlim : offset + size < 2 ^ 32) {o : FuseOp} (h : Site size offset o) :
    o.InPlace size offset := by
  have word : ∀ off ctrl, ctrl = rasddrCmdRead ∨ ctrl = rasddrCmdWrite →
      offset ≤ off → off ≤ offset + size →
      Ficfuse.InPlace size offset (.rbuf 0) 4 (addr32 off) ctrl := by
    intro off ctrl hctrl h1 h2
    have hoff : (addr32 off).toNat = off := addr32_toNat (by omega)
    refine ⟨fun i hi => (nomatch hi), by rw [hoff]; exact ⟨h1, h2⟩, ?_⟩
    rw [busBase, if_pos hctrl, ddrBase_addr32 (by omega)]
    omega
  have words : ∀ i n ctrl, ctrl = rasddrCmdRead ∨ ctrl = rasddrCmdWrite → i + n ≤ size →
      Ficfuse.InPlace size offset (.buf i) n (addr32 (offset + i)) ctrl := by
    intro i n ctrl hctrl hi
    have hoff : (addr32 (offset + i)).toNat = offset + i := addr32_toNat (by omega)
    refine ⟨fun j hj => ?_, by rw [hoff]; omega, ?_⟩
    · obtain rfl := Ptr.buf.inj hj
      exact hoff
    · rw [busBase, if_pos hctrl, ddrBase_addr32 (by omega)]
      omega
  cases h with
  | readWord h1 h2 _ => exact word _ _ (.inl rfl) h1 h2
  | writeWord h1 h2 _ => exact word _ _ (.inr rfl) h1 h2
  | read _ _ _ hi => exact words _ _ _ (.inl rfl) hi
  | write _ _ _ hi => exact words _ _ _ (.inr rfl) hi
  | _ => trivial

/-- What a range that ends inside its first word leads to is behind the range. -/
theorem overrun_not_inPlace (hleft : size < 4 - offset % 4) : ¬ (overrun m offset).InPlace size offset := by
  intro h
  have hrange := h.range
  unfold addr32 at hrange
  rw [BitVec.toNat_ofNat] at hrange
  omega

variable {head : Cursor → F (Option Cursor)} {tail : Cursor → F Bool} {reg : F (Option Int)}

theorem callback_mem_refused (h : ficMemSize < offAdd m offset size) :
    callback "/mem" size (memBranch m head tail size offset) reg = ret (-efault) := by
  unfold callback memBranch
  rw [if_pos rfl, if_pos h]
  rfl

theorem callback_mem_accepted (h : offAdd m offset size ≤ ficMemSize) :
    callback "/mem" size (memBranch m head tail size offset) reg ≠ ret (-efault) := by
  unfold callback memBranch
  rw [if_pos rfl, if_neg (Nat.not_lt.2 h)]
  split
  · intro he
    exact absurd (Prog.ret.inj he) (by decide)
  · intro he
    cases he

/-- A callback for `/mem` is contained when its check is right and it is, for a range that fits, in
place. -/
theorem contained_mem (hcheck : MemChecked m size offset)
    (hops : offset + size ≤ ficMemSize →
      Ops (FuseOp.InPlace size offset) (callback "/mem" size (memBranch m head tail size offset) reg)) :
    Contained m e st "/mem" size offset
      (callback "/mem" size (memBranch m head tail size offset) reg) s := by
  obtain ⟨hdef, hcheck⟩ := hcheck
  rcases hcheck with hfit | hbig
  · refine ⟨fun o k t hr _ => ⟨hfit, (ops_run (hops hfit) hr).1⟩, fun hout => ?_, fun _ => hdef⟩
    exact absurd hfit (Nat.not_le.2 hout)
  · have hret : callback "/mem" size (memBranch m head tail size offset) reg = ret (-efault) :=
      callback_mem_refused hbig
    refine ⟨fun o k t hr _ => ?_, fun _ => hret, fun _ => hdef⟩
    rw [hret] at hr
    exact (ops_run (P := fun _ => False) (ops_ret (-efault)) hr).1.elim

theorem memChecked_of_contained
    (h : Contained m e st "/mem" size offset
      (callback "/mem" size (memBranch m head tail size offset) reg) s) : MemChecked m size offset := by
  refine ⟨h.defined rfl, ?_⟩
  by_contra hno
  obtain ⟨hout, hacc⟩ := not_or.1 hno
  exact callback_mem_accepted (Nat.not_lt.1 hacc) (h.refused (Nat.not_le.1 hout))

/-! ## `/reg` -/

theorem contained_reg_iff {transfer : F Int} {mem : F (Option Int)}
    (hops : offset + size ≤ ficRegSize → Ops (FuseOp.InPlace size offset) transfer) :
    Contained m e st "/reg" size offset (callback "/reg" size mem (regBranch transfer offset)) s ↔
    RegChecked size offset := by
  have hdef : "/reg" = "/mem" → OffAddDefined m offset size := fun h => absurd h (by decide)
  constructor
  · intro h
    by_contra hno
    obtain ⟨hout, hacc⟩ := not_or.1 hno
    have hret : callback "/reg" size mem (regBranch transfer offset) = ret (-efault) :=
      h.refused (Nat.not_le.1 hout)
    unfold callback regBranch at hret
    rw [if_neg (by decide), if_neg hacc] at hret
    cases hret
  · rintro (hfit | hbig)
    · have hcall : Ops (FuseOp.InPlace size offset)
          (callback "/reg" size mem (regBranch transfer offset)) :=
        ops_callback_reg (ops_regBranch trivial (fun _ => trivial) trivial fun _ => hops hfit)
      refine ⟨fun o k t hr _ => ⟨hfit, (ops_run hcall hr).1⟩, fun hout => ?_, hdef⟩
      exact absurd hfit (Nat.not_le.2 hout)
    · have hret : callback "/reg" size mem (regBranch transfer offset) = ret (-efault) := by
        unfold callback regBranch
        rw [if_neg (by decide), if_pos rfl, if_pos hbig]
        rfl
      refine ⟨fun o k t hr _ => ?_, fun _ => hret, hdef⟩
      rw [hret] at hr
      exact (ops_run (P := fun _ => False) (ops_ret (-efault)) hr).1.elim

/-- The transfer of `/reg`. -/
theorem axi_inPlace {ctrl : BitVec 32} (hctrl : ¬ (ctrl = rasddrCmdRead ∨ ctrl = rasddrCmdWrite))
    (hfit : offset + size ≤ ficRegSize) :
    Ficfuse.InPlace size offset (.buf 0) size (addr32 offset) ctrl := by
  simp only [ficRegSize] at hfit
  have hoff : (addr32 offset).toNat = offset := addr32_toNat (by omega)
  refine ⟨fun i hi => ?_, by rw [hoff]; omega, ?_⟩
  · obtain rfl := Ptr.buf.inj hi
    exact hoff
  · rw [busBase, if_neg hctrl, hoff]
    omega

end

/-! ## The result -/

/-- **The accesses stay inside the files** exactly when the range of `/mem` is told from one that does
not fit by the sum, and does not end inside its first word when it is written; and when the range of
`/reg` fits or starts behind `/mem`. -/
theorem contained_iff (m : DataModel) (e : Caller) (st : Stat) (s : FuseWorld) (size offset : Nat) :
    (Contained m e st "/mem" size offset (read m "/mem" size offset) s ↔ MemChecked m size offset) ∧
    (Contained m e st "/mem" size offset (write m "/mem" size offset) s ↔
      MemChecked m size offset ∧ (offset + size ≤ ficMemSize → size = 0 ∨ Covers size offset)) ∧
    (Contained m e st "/reg" size offset (read m "/reg" size offset) s ↔ RegChecked size offset) ∧
    (Contained m e st "/reg" size offset (write m "/reg" size offset) s ↔ RegChecked size offset) := by
  have hlim : offset + size ≤ ficMemSize → offset + size < 2 ^ 32 := by
    intro h
    simp only [ficMemSize] at h
    omega
  refine ⟨⟨memChecked_of_contained, fun h => contained_mem h fun hfit => ?_⟩,
    ⟨fun h => ⟨memChecked_of_contained h, ?_⟩, ?_⟩, ?_, ?_⟩
  · exact ops_mono (read_sites hfit) fun _ => Site.inPlace (hlim hfit)
  · intro hfit
    by_contra hno
    obtain ⟨hsize, hcov⟩ := not_or.1 hno
    obtain ⟨k, t, hr⟩ := write_overruns m s size offset (Nat.pos_of_ne_zero hsize) hfit hcov
    exact overrun_not_inPlace (Nat.lt_of_not_le fun hlong => hcov (.inr hlong))
      (h.inside _ k t hr trivial).2
  · rintro ⟨hcheck, hcov⟩
    apply contained_mem hcheck
    intro hfit
    rcases hcov hfit with rfl | hcov
    · apply ops_callback_mem
      unfold memBranch
      split <;> trivial
    · exact ops_mono (write_sites hfit hcov) fun _ => Site.inPlace (hlim hfit)
  · exact contained_reg_iff fun hfit => ops_call _ (axi_inPlace (by decide) hfit)
  · exact contained_reg_iff fun hfit => ops_call _ (axi_inPlace (by decide) hfit)

/-- Four bytes at the last offset of `/reg`, and a range of `/mem` whose end wraps around to 0. -/
theorem reads_not_contained :
    ¬ Contained .lp64 ⟨0, 0, 0⟩ ⟨0, 0, 0, 0, 0, 0, 0, 0, 0⟩ "/reg" 4 0x7fffffff
        (read .lp64 "/reg" 4 0x7fffffff) ⟨fun _ => 0, fun _ => 0, fun _ => 0, false⟩ ∧
      ¬ Contained .lp64 ⟨0, 0, 0⟩ ⟨0, 0, 0, 0, 0, 0, 0, 0, 0⟩ "/mem" (2 ^ 64 - 4096) 4096
        (read .lp64 "/mem" (2 ^ 64 - 4096) 4096) ⟨fun _ => 0, fun _ => 0, fun _ => 0, false⟩ := by
  constructor
  · intro h
    have hret := h.refused (by decide)
    unfold read callback regBranch at hret
    rw [if_neg (by decide), if_pos rfl, if_neg (by decide)] at hret
    cases hret
  · intro h
    exact callback_mem_accepted (by decide) (h.refused (by decide))

end Libfic2.Ficfuse
