import Libfic2.FuseRead
import Libfic2.FuseWrite

/-!
# The alignment of the DDR transfers

"Size and addr must be aligned to 4B (32bit)".  `_read` and `_write` access the word of a
misaligned start on its own, but they pass the offset and not the address of that word.
So the rule holds of all the transfers of a call exactly when its offset is a multiple of
4, or nothing is transferred.

The transfers behind the first word keep the rule for every residue of the offset and the
size, in `_write` unless the range ends inside its first word (`Covers`).

* `onWords_iff`
* `read_onWords`, `write_onWords`
-/

namespace Libfic2.Ficfuse

open Driver Prog Sys

variable {m : DataModel}

/-- `n` bytes at `addr` are whole words of the 32-bit address space. -/
def WholeWords (addr : BitVec 32) (n : Nat) : Prop :=
  addr.toNat % 4 = 0 ∧ 0 < n ∧ n % 4 = 0 ∧ addr.toNat + n ≤ 2 ^ 32

instance (addr : BitVec 32) (n : Nat) : Decidable (WholeWords addr n) := inferInstanceAs (Decidable (_ ∧ _))

/-- The rule for one operation. -/
def FuseOp.OnWords : FuseOp → Prop
  | .hlsRead _ n addr _ => WholeWords addr n
  | .hlsWrite _ n addr _ => WholeWords addr n
  | _ => True

/-- Every transfer of every run of a call from `s` keeps it. -/
def TransfersOnWords (call : F Int) (s : FuseWorld) : Prop :=
  ∀ o k t, fuseSys.Run (call, s) (op o k, t) → o.OnWords

/-- A transfer of 4 bytes at the offset of the call. -/
def FuseOp.FirstWord (offset : Nat) : FuseOp → Prop
  | .hlsRead _ n addr _ => addr = addr32 offset ∧ n = 4
  | .hlsWrite _ n addr _ => addr = addr32 offset ∧ n = 4
  | _ => False

/-- Only the first word of a misaligned range may break the rule. -/
def FuseOp.OnWordsBehind (offset : Nat) (o : FuseOp) : Prop :=
  o.OnWords ∨ offset % 4 ≠ 0 ∧ o.FirstWord offset

theorem FuseOp.OnWordsBehind.onWords {offset : Nat} {o : FuseOp} (h : o.OnWordsBehind offset)
    (ha : offset % 4 = 0) : o.OnWords :=
  h.resolve_right fun hb => hb.1 ha

/-! ## Arithmetic -/

section
variable {a n : Nat}

theorem wholeWords_iff (h : a < 2 ^ 32) :
    WholeWords (addr32 a) n ↔ a % 4 = 0 ∧ 0 < n ∧ n % 4 = 0 ∧ a + n ≤ 2 ^ 32 := by
  unfold WholeWords
  rw [addr32_toNat h]

/-- There is always room for the last word. -/
theorem wholeWords_word (h : a < 2 ^ 32) (ha : a % 4 = 0) : WholeWords (addr32 a) 4 :=
  (wholeWords_iff h).2 ⟨ha, by decide, rfl, by omega⟩

/-- The last word of the address space. -/
example : WholeWords 0xfffffffc#32 4 := by decide

end

/-! ## The whole call -/

section
variable {size offset : Nat} {s : FuseWorld}

/-- Behind the first word the transfers keep the rule. -/
theorem Site.onWordsBehind (hlim : offset + size < 2 ^ 32) {o : FuseOp} (h : Site size offset o) :
    o.OnWordsBehind offset := by
  have word : ∀ off, off ≤ offset + size → off = offset ∨ off % 4 = 0 → WholeWords (addr32 off) 4 ∨
      offset % 4 ≠ 0 ∧ off = offset := by
    intro off hoff ha
    by_cases hmis : off % 4 = 0
    · exact .inl (wholeWords_word (by omega) hmis)
    · obtain rfl := ha.resolve_right hmis
      exact .inr ⟨hmis, rfl⟩
  have words : ∀ i n, (offset + i) % 4 = 0 → 0 < n → n % 4 = 0 → i + n ≤ size →
      WholeWords (addr32 (offset + i)) n :=
    fun i n ha hpos hn hi => (wholeWords_iff (by omega)).2 ⟨ha, hpos, hn, by omega⟩
  cases h with
  | readWord _ h2 ha =>
      exact (word _ h2 ha).imp_right fun ⟨hmis, he⟩ => ⟨hmis, by rw [he]; exact ⟨rfl, rfl⟩⟩
  | writeWord _ h2 ha =>
      exact (word _ h2 ha).imp_right fun ⟨hmis, he⟩ => ⟨hmis, by rw [he]; exact ⟨rfl, rfl⟩⟩
  | read ha hpos hn hi => exact .inl (words _ _ ha hpos hn hi)
  | write ha hpos hn hi => exact .inl (words _ _ ha hpos hn hi)
  | _ => exact .inl trivial

/-- Nothing is transferred. -/
theorem onWords_empty {head : Cursor → F (Option Cursor)} {tail : Cursor → F Bool} {reg : F (Option Int)} :
    TransfersOnWords (callback "/mem" 0 (memBranch m head tail 0 offset) reg) s := by
  have hops : Ops FuseOp.OnWords (callback "/mem" 0 (memBranch m head tail 0 offset) reg) := by
    apply ops_callback_mem
    unfold memBranch
    split <;> trivial
  exact fun _ _ _ hr => (ops_run hops hr).1

/-- The address of a misaligned first word is the offset. -/
theorem misaligned_word (h : offset < 2 ^ 32) (hmis : offset % 4 ≠ 0) :
    ¬ (FuseOp.hlsRead (.rbuf 0) 4 (addr32 offset) rasddrCmdRead).OnWords :=
  fun hwords => hmis ((wholeWords_iff h).1 hwords).1

theorem readHead_misaligned (h : offset < 2 ^ 32) (hmis : offset % 4 ≠ 0) :
    reaches fuseSys (fun o => ¬ o.OnWords) (readHead m ⟨0, offset, size⟩) s := by
  unfold readHead
  dsimp only
  rw [if_pos hmis]
  exact .inl (misaligned_word h hmis)

theorem writeHead_misaligned (h : offset < 2 ^ 32) (hmis : offset % 4 ≠ 0) :
    reaches fuseSys (fun o => ¬ o.OnWords) (writeHead m ⟨0, offset, size⟩) s := by
  unfold writeHead
  dsimp only
  rw [if_pos hmis]
  exact .inl (misaligned_word h hmis)

theorem not_onWords {head : Cursor → F (Option Cursor)} {tail : Cursor → F Bool} {reg : F (Option Int)}
    (h1 : 0 < size) (hrange : offset + size ≤ ficMemSize)
    (hhead : reaches fuseSys (fun o => ¬ o.OnWords) (head ⟨0, offset, size⟩) s) :
    ¬ TransfersOnWords (callback "/mem" size (memBranch m head tail size offset) reg) s := by
  intro h
  have hreach : reaches fuseSys (fun o => ¬ o.OnWords)
      (callback "/mem" size (memBranch m head tail size offset) reg) s :=
    reaches_callback_mem h1 hrange (.inl hhead)
  obtain ⟨o, k, t, hr, ho⟩ := reaches_run hreach
  exact ho (h o k t hr)

/-- A callback that breaks the rule at most and for sure at a misaligned first word. -/
theorem onWords_callback_iff {head : Cursor → F (Option Cursor)}
    {tail : Cursor → F Bool} {reg : F (Option Int)} (hrange : offset + size ≤ ficMemSize)
    (hops : offset % 4 = 0 →
      Ops (FuseOp.OnWordsBehind offset) (callback "/mem" size (memBranch m head tail size offset) reg))
    (hhead : offset % 4 ≠ 0 → reaches fuseSys (fun o => ¬ o.OnWords) (head ⟨0, offset, size⟩) s) :
    TransfersOnWords (callback "/mem" size (memBranch m head tail size offset) reg) s ↔
    offset % 4 = 0 ∨ size = 0 := by
  constructor
  · intro h
    by_contra hno
    obtain ⟨hmis, hsize⟩ := not_or.1 hno
    exact not_onWords (Nat.pos_of_ne_zero hsize) hrange (hhead hmis) h
  · rintro (ha | rfl)
    · exact fun o k t hr => (ops_run (hops ha) hr).1.onWords ha
    · exact onWords_empty

end

/-! ## The result -/

/-- **The rule is kept** exactly by the calls at a multiple of 4 and by those of no bytes. -/
theorem onWords_iff (m : DataModel) (s : FuseWorld) (size offset : Nat)
    (hrange : offset + size ≤ ficMemSize) :
    (TransfersOnWords (read m "/mem" size offset) s ↔ offset % 4 = 0 ∨ size = 0) ∧
    (TransfersOnWords (write m "/mem" size offset) s ↔ offset % 4 = 0 ∨ size = 0) := by
  have hlim' : offset + size < 2 ^ 32 := by simp only [ficMemSize] at hrange; omega
  have hlim : offset < 2 ^ 32 := by omega
  constructor
  · exact onWords_callback_iff hrange (fun _ => ops_mono (read_sites hrange) fun _ =>
      Site.onWordsBehind hlim') (readHead_misaligned hlim)
  · exact onWords_callback_iff hrange (fun ha => ops_mono (write_sites hrange (.inl ha)) fun _ =>
      Site.onWordsBehind hlim') (writeHead_misaligned hlim)

/-- Ten bytes from the second word on. -/
theorem onWords_iff_ten :
    (TransfersOnWords (read .lp64 "/mem" 10 4) ⟨fun _ => 0, fun _ => 0, fun _ => 0, false⟩ ↔
      4 % 4 = 0 ∨ 10 = 0) ∧
    (TransfersOnWords (write .lp64 "/mem" 10 4) ⟨fun _ => 0, fun _ => 0, fun _ => 0, false⟩ ↔
      4 % 4 = 0 ∨ 10 = 0) :=
  onWords_iff .lp64 _ 10 4 (by decide)

/-- Four bytes at offset 1. -/
theorem one_not_onWords :
    ¬ TransfersOnWords (read .lp64 "/mem" 4 1) ⟨fun _ => 0, fun _ => 0, fun _ => 0, false⟩ ∧
    ¬ TransfersOnWords (write .lp64 "/mem" 4 1) ⟨fun _ => 0, fun _ => 0, fun _ => 0, false⟩ :=
  ⟨not_onWords (by decide) (by decide) (readHead_misaligned (by decide) (by decide)),
    not_onWords (by decide) (by decide) (writeHead_misaligned (by decide) (by decide))⟩

end Libfic2.Ficfuse
