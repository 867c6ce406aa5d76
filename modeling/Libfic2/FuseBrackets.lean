import Libfic2.Driver.Traces
import Libfic2.FuseRead
import Libfic2.FuseWrite

/-!
# The callbacks bracket their transfers

A monitor follows the operations of a call and their answers: `fic_gpio_open`, the transfers up to the
first one that fails, and one `fic_gpio_close` of the same descriptor.  Anything else is `wrong`, and
stays so.

* `callbacks_bracket`: no call of `_read` and `_write` does anything wrong, whatever the operations
  answer, and the answers decide the result
-/

namespace Libfic2.Ficfuse

open Driver Prog Sys

variable {m : DataModel}

/-! ## The monitor -/

inductive Phase
  | before
  | refused
  | inside (fd : Int)
  | broken (fd : Int)
  | closed (ok : Bool)
  | wrong
deriving DecidableEq

/-- `fic_gpio_close` has been called. -/
def Phase.close (fd fd' : Int) (ok : Bool) : Phase := if fd' = fd then .closed ok else .wrong

/-- A transfer has answered `r`. -/
def Phase.transfer (fd r : Int) : Phase := if r < 0 then .broken fd else .inside fd

def Phase.next : Phase → Event FuseOp FuseAns → Phase
  | .before, ⟨.gpioOpen, r⟩ => if (show Int from r) < 0 then .refused else .inside r
  | .inside _, ⟨.gpioOpen, _⟩ => .wrong
  | .inside fd, ⟨.gpioClose fd', _⟩ => close fd fd' true
  | .inside fd, ⟨.commReset, _⟩ => .inside fd
  | .inside fd, ⟨.hlsRead _ _ _ _, r⟩ => transfer fd r
  | .inside fd, ⟨.hlsWrite _ _ _ _, r⟩ => transfer fd r
  | .inside fd, ⟨.memcpy _ _ _, _⟩ => .inside fd
  | .broken fd, ⟨.gpioClose fd', _⟩ => close fd fd' false
  | _, _ => .wrong

/-- The monitor of a call. -/
abbrev watch : Sys FuseOp FuseAns Phase := monitor Phase.next

/-- Nothing wrong so far. -/
abbrev Fine (x : Phase) : Prop := x ≠ .wrong

/-- The bounds check of the file. -/
def BoundsPassed (m : DataModel) (path : String) (size offset : Nat) : Prop :=
  (path = "/mem" → offAdd m offset size ≤ ficMemSize) ∧ (path = "/reg" → offset ≤ ficMemSize)

/-- The call `c` for `size` bytes at `offset` of `path`: it always comes to an end; it never does
anything wrong, and does not end with the GPIO open; for the two files it returns `size` when the check
has passed, the GPIO was opened and every transfer has succeeded, and else a negative number. -/
structure Brackets (m : DataModel) (path : String) (size offset : Nat) (c : F Int) : Prop where
  ends : Returns (fun _ => True) c
  fine : ∀ p x, watch.Run (c, .before) (p, x) → x ≠ .wrong
  released : ∀ r x, watch.Run (c, .before) (ret r, x) → x = .before ∨ x = .refused ∨ ∃ ok, x = .closed ok
  result : ∀ r x, watch.Run (c, .before) (ret r, x) → path = "/mem" ∨ path = "/reg" →
    (r = size ↔ BoundsPassed m path size offset ∧ x = .closed true) ∧ (r ≠ size → r < 0)

/-! ## Rules -/

section
variable {α : Type} {Q : α → Phase → Prop} {fd : Int} {p q : Ptr} {n : Nat}
    {addr ctrl : BitVec 32} {k l : F α}

/-- `if (fic_hls_read(..) < 0) l;` before `k`. -/
theorem watch_read (hl : wp watch Fine Q l (.broken fd)) (hk : wp watch Fine Q k (.inside fd)) :
    wp watch Fine Q (call (FuseOp.hlsRead p n addr ctrl) >>= fun r => if r < 0 then l
    else k) (.inside fd) := by
  refine wp_monitorCall nofun fun (r : Int) => ?_
  show wp watch Fine Q _ (Phase.transfer fd r)
  unfold Phase.transfer
  split
  · exact hl
  · exact hk

theorem watch_write (hl : wp watch Fine Q l (.broken fd)) (hk : wp watch Fine Q k (.inside fd)) :
    wp watch Fine Q (call (FuseOp.hlsWrite p n addr ctrl) >>= fun r => if r < 0 then l
    else k) (.inside fd) := by
  refine wp_monitorCall nofun fun (r : Int) => ?_
  show wp watch Fine Q _ (Phase.transfer fd r)
  unfold Phase.transfer
  split
  · exact hl
  · exact hk

theorem watch_memcpy {k : Unit → F α} (hk : wp watch Fine Q (k ()) (.inside fd)) :
    wp watch Fine Q (call (FuseOp.memcpy p q n) >>= k) (.inside fd) :=
  wp_monitorCall nofun fun _ => hk

theorem watch_close {k : Int → F α} (hk : ∀ r, wp watch Fine Q (k r) (.closed true)) :
    wp watch Fine Q (call (FuseOp.gpioClose fd) >>= k) (.inside fd) := by
  refine wp_monitorCall nofun fun r => ?_
  rw [show Phase.next (.inside fd) ⟨.gpioClose fd, r⟩ = .closed true from if_pos rfl]
  exact hk r

theorem watch_ioError (fd : Int) :
    wp watch Fine (fun r x => r = some (-eio) ∧ x = .closed false) (ioError fd) (.broken fd) := by
  refine wp_monitorCall nofun fun r => ?_
  rw [show Phase.next (.broken fd) ⟨.gpioClose fd, r⟩ = .closed false from if_pos rfl]
  exact wp_monitorRet nofun ⟨rfl, rfl⟩

end

/-! ## Head and tail -/

/-- What a head leaves behind. -/
abbrev HeadEnd (fd : Int) (h : Option Cursor) (x : Phase) : Prop :=
  x = if h.isSome then .inside fd else .broken fd

/-- What a tail leaves behind. -/
abbrev TailEnd (fd : Int) (ok : Bool) (x : Phase) : Prop := x = if ok then .inside fd else .broken fd

section
variable {fd : Int} (c : Cursor) (k : Nat)

theorem watch_readHead : wp watch Fine (HeadEnd fd) (readHead m c) (.inside fd) := by
  unfold readHead
  dsimp only
  split
  · refine watch_read (wp_monitorRet nofun rfl) ?_
    split
    · exact watch_memcpy (wp_monitorRet nofun rfl)
    · exact watch_memcpy (wp_monitorRet nofun rfl)
  · exact wp_monitorRet nofun rfl

theorem watch_readLast : wp watch Fine (TailEnd fd) (readLast c k) (.inside fd) :=
  watch_read (wp_monitorRet nofun rfl) (watch_memcpy (wp_monitorRet nofun rfl))

theorem watch_readTail : wp watch Fine (TailEnd fd) (readTail m c) (.inside fd) := by
  unfold readTail
  dsimp only
  split
  · split
    · split
      · exact watch_read (wp_monitorRet nofun rfl) (watch_readLast _ _)
      · exact watch_readLast _ _
    · exact watch_read (wp_monitorRet nofun rfl) (wp_monitorRet nofun rfl)
  · exact wp_monitorRet nofun rfl

theorem watch_writeHead : wp watch Fine (HeadEnd fd) (writeHead m c) (.inside fd) := by
  unfold writeHead
  dsimp only
  split
  · refine watch_read (wp_monitorRet nofun rfl) ?_
    split
    · exact watch_memcpy (watch_write (wp_monitorRet nofun rfl) (wp_monitorRet nofun rfl))
    · exact watch_memcpy (watch_write (wp_monitorRet nofun rfl) (wp_monitorRet nofun rfl))
  · exact wp_monitorRet nofun rfl

theorem watch_writeLast : wp watch Fine (TailEnd fd) (writeLast c k) (.inside fd) :=
  watch_read (wp_monitorRet nofun rfl)
    (watch_memcpy (watch_write (wp_monitorRet nofun rfl) (wp_monitorRet nofun rfl)))

theorem watch_writeTail : wp watch Fine (TailEnd fd) (writeTail m c) (.inside fd) := by
  unfold writeTail
  dsimp only
  split
  · split
    · split
      · exact watch_write (wp_monitorRet nofun rfl) (watch_writeLast _ _)
      · exact watch_writeLast _ _
    · exact watch_write (wp_monitorRet nofun rfl) (wp_monitorRet nofun rfl)
  · exact wp_monitorRet nofun rfl

end

/-! ## The callbacks -/

/-- A branch goes on behind the block when everything has succeeded, and else returns an error. -/
def BranchEnd (passed : Prop) (r : Option Int) (x : Phase) : Prop :=
  (r = none ∧ passed ∧ x = .closed true) ∨
    ((∃ e, r = some e ∧ e < 0) ∧ (x = .before ∨ x = .refused ∨ x = .closed false))

section
variable {head : Cursor → F (Option Cursor)} {tail : Cursor → F Bool} {transfer : F Int} {size offset : Nat}

/-- `fic_gpio_open` and `fic_comm_reset`, where a failed open returns. -/
theorem watch_open {passed : Prop} {k : Int → F (Option Int)}
    (hk : ∀ fd, wp watch Fine (BranchEnd passed) (k fd) (.inside fd)) :
    wp watch Fine (BranchEnd passed) (call FuseOp.gpioOpen >>=
      fun fd => if fd < 0 then ret (some (-eio)) else
      call FuseOp.commReset >>= fun _ => k fd) .before := by
  refine wp_monitorCall nofun fun (fd : Int) => ?_
  show wp watch Fine _ _ (if fd < 0 then .refused else .inside fd)
  split
  · exact wp_monitorRet nofun (.inr ⟨⟨_, rfl, by decide⟩, .inr (.inl rfl)⟩)
  · exact wp_monitorCall nofun fun _ => hk fd

theorem watch_failed {passed : Prop} (fd : Int) :
    wp watch Fine (BranchEnd passed) (ioError fd) (.broken fd) :=
  wp_mono (watch_ioError fd) fun _ _ _ h => .inr ⟨⟨_, h.1, by decide⟩, .inr (.inr h.2)⟩

theorem watch_memBranch (hhead : ∀ fd c, wp watch Fine (HeadEnd fd) (head c) (.inside fd))
    (htail : ∀ fd c, wp watch Fine (TailEnd fd) (tail c) (.inside fd)) :
    wp watch Fine (BranchEnd (offAdd m offset size ≤ ficMemSize))
      (memBranch m head tail size offset) .before := by
  have hret : ∀ e : Int, e < 0 → BranchEnd (offAdd m offset size ≤ ficMemSize) (some e) .before :=
    fun e he => .inr ⟨⟨e, rfl, he⟩, .inl rfl⟩
  unfold memBranch
  split
  · exact wp_monitorRet nofun (hret _ (by decide))
  · next hle =>
    split
    · exact wp_monitorRet nofun (hret _ (by decide))
    · refine watch_open fun fd => wp_bind (wp_mono (hhead fd _) fun h x _ hx => ?_)
      cases h with
      | none =>
        obtain rfl : x = .broken fd := hx
        exact watch_failed fd
      | some c =>
        obtain rfl : x = .inside fd := hx
        refine wp_bind (wp_mono (htail fd c) fun ok x _ hx => ?_)
        cases ok with
        | false =>
          obtain rfl : x = .broken fd := hx
          exact watch_failed fd
        | true =>
          obtain rfl : x = .inside fd := hx
          exact watch_close fun _ => wp_monitorRet nofun (.inl ⟨rfl, Nat.not_lt.1 hle, rfl⟩)

/-- `/reg` has one transfer. -/
theorem watch_regBranch
    (htransfer : ∀ fd, wp watch Fine (fun r x => x = Phase.transfer fd r) transfer (.inside fd)) :
    wp watch Fine (BranchEnd (offset ≤ ficMemSize)) (regBranch transfer offset) .before := by
  unfold regBranch
  split
  · exact wp_monitorRet nofun (.inr ⟨⟨_, rfl, by decide⟩, .inl rfl⟩)
  · next hle =>
    refine watch_open fun fd => wp_bind (wp_mono (htransfer fd) fun r x _ hx => ?_)
    unfold Phase.transfer at hx
    split at hx
    · next hr =>
      rw [if_pos hr, hx]
      exact watch_failed fd
    · next hr =>
      rw [if_neg hr, hx]
      exact watch_close fun _ => wp_monitorRet nofun (.inl ⟨rfl, Nat.not_lt.1 hle, rfl⟩)

/-- The end of a call: a failed branch, or `return size;`. -/
def CallEnd (m : DataModel) (path : String) (size offset : Nat) (r : Int) (x : Phase) : Prop :=
  (r = size ∧ BoundsPassed m path size offset ∧ x = .closed true) ∨
    (r < 0 ∧ (x = .before ∨ x = .refused ∨ x = .closed false)) ∨
    (r = size ∧ x = .before ∧ path ≠ "/mem" ∧ path ≠ "/reg")

theorem watch_callback {path : String} {mem reg : F (Option Int)} (hsize : size < 2 ^ 31)
    (hmem : wp watch Fine (BranchEnd (offAdd m offset size ≤ ficMemSize)) mem .before)
    (hreg : wp watch Fine (BranchEnd (offset ≤ ficMemSize)) reg .before) :
    wp watch Fine (CallEnd m path size offset) (callback path size mem reg) .before := by
  -- `p` is what `callback` does with the answer `r` of a branch
  have hend : ∀ {passed : Prop} {r x} {p : F Int}, (∀ e, r = some e → p = ret e) →
      (r = none → p = ret (cInt size)) →
      (passed → BoundsPassed m path size offset) → Fine x → BranchEnd passed r x →
      wp watch Fine (CallEnd m path size offset) p x := by
    intro passed r x p hsome hnone hpass hx h
    rcases h with ⟨hr, hp, rfl⟩ | ⟨⟨e, hr, he⟩, hx'⟩
    · rw [hnone hr]
      exact wp_monitorRet nofun (.inl ⟨cInt_eq hsize, hpass hp, rfl⟩)
    · rw [hsome e hr]
      exact wp_monitorRet hx (.inr (.inl ⟨he, hx'⟩))
  unfold callback
  by_cases h1 : path = "/mem"
  · subst h1
    rw [if_pos rfl, if_neg (by decide)]
    refine wp_bind (wp_mono hmem fun r x hx h => ?_)
    refine hend ?_ ?_ (fun hp => ⟨fun _ => hp, fun h => absurd h (by decide)⟩) hx h
    · rintro e rfl
      rfl
    · rintro rfl
      rfl
  · rw [if_neg h1]
    by_cases h2 : path = "/reg"
    · subst h2
      rw [if_pos rfl]
      show wp watch Fine _ (reg >>= _) .before
      refine wp_bind (wp_mono hreg fun r x hx h => ?_)
      refine hend ?_ ?_ (fun hp => ⟨fun h => absurd h (by decide), fun _ => hp⟩) hx h
      · rintro e rfl
        rfl
      · rintro rfl
        rfl
    · rw [if_neg h2]
      exact wp_monitorRet nofun (.inr (.inr ⟨cInt_eq hsize, rfl, h1, h2⟩))

theorem brackets_of {path : String} {c : F Int} (h1 : 1 ≤ size) (hret : Returns (fun _ => True) c)
    (hwp : wp watch Fine (CallEnd m path size offset) c .before) : Brackets m path size offset c := by
  refine ⟨hret, fun p x hr => @wp_run_inv _ _ _ _ watch Fine _ _ _ _ _ hwp hr,
    fun r x hr => ?_, fun r x hr hpath => ?_⟩
  · rcases wp_run_ret hwp hr with ⟨-, -, rfl⟩ | ⟨-, rfl | rfl | rfl⟩ | ⟨-, rfl, -⟩
    · exact .inr (.inr ⟨true, rfl⟩)
    · exact .inl rfl
    · exact .inr (.inl rfl)
    · exact .inr (.inr ⟨false, rfl⟩)
    · exact .inl rfl
  · rcases wp_run_ret hwp hr with ⟨hrs, hpass, hx⟩ | ⟨hneg, hx⟩ | ⟨-, -, hmem, hreg⟩
    · exact ⟨⟨fun _ => ⟨hpass, hx⟩, fun _ => hrs⟩, fun hne => absurd hrs hne⟩
    · refine ⟨⟨fun hrs => by omega, fun hok => ?_⟩, fun _ => hneg⟩
      rw [hok.2] at hx
      rcases hx with hx | hx | hx <;> cases hx
    · rcases hpath with rfl | rfl
      · exact absurd rfl hmem
      · exact absurd rfl hreg

end

/-! ## The result -/

/-- **The callbacks bracket and report their transfers.** -/
theorem callbacks_bracket (m : DataModel) (path : String) (size offset : Nat) (h1 : 1 ≤ size)
    (hsize : size < 2 ^ 31) :
    Brackets m path size offset (read m path size offset) ∧
    Brackets m path size offset (write m path size offset) := by
  have hfine : ∀ fd r : Int, Fine (Phase.transfer fd r) := by
    intro fd r
    unfold Phase.transfer
    split <;> exact nofun
  constructor
  · apply brackets_of h1
    · exact returns_callback (returns_memBranch (readHead_returns) readTail_returns)
        (returns_regBranch fun _ => trivial)
    · exact watch_callback hsize (watch_memBranch (fun _ c => watch_readHead c) fun _ c => watch_readTail c)
        (watch_regBranch fun fd => wp_monitorCall nofun fun r => wp_monitorRet (hfine fd r) rfl)
  · apply brackets_of h1
    · exact returns_callback (returns_memBranch (writeHead_returns) writeTail_returns)
        (returns_regBranch fun _ => trivial)
    · exact watch_callback hsize (watch_memBranch (fun _ c => watch_writeHead c) fun _ c =>
        watch_writeTail c)
        (watch_regBranch fun fd => wp_monitorCall nofun fun r => wp_monitorRet (hfine fd r) rfl)

/-- Ten bytes from the second word on. -/
theorem callbacks_bracket_ten :
    Brackets .lp64 "/mem" 10 4 (read .lp64 "/mem" 10 4) ∧
    Brackets .lp64 "/mem" 10 4 (write .lp64 "/mem" 10 4) :=
  callbacks_bracket .lp64 "/mem" 10 4 (by decide) (by decide)

end Libfic2.Ficfuse
