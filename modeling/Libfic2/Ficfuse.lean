import Libfic2.Driver.Wp
import Libfic2.Hls
import Libfic2.CTypes

/-!
# The FUSE driver: `ficfuse.c`

`read` and `write` are the callbacks for the files `/mem`, the DDR, and `/reg`, the AXI
bus; `getattr` says how long these are.  The DDR is accessed in words of 4 bytes, so both cut a range
into a misaligned head, an aligned middle part and a misaligned tail, and carry three cursors along:
the place in the caller's buffer, the offset, and the bytes left.

`fuseSys` says what the transfers do.  A DDR transfer of `n` bytes at `addr` accesses the
`n` bytes from `addr` rounded down to a multiple of 4 on; one that fails may have
moved any part of them.

Offsets are natural numbers; that `off_t` overflows is left out.
-/

namespace Libfic2.Ficfuse

open Driver Prog

def ficMemSize : Nat := 0xffffffff
def ficRegSize : Nat := 0x7fffffff

def enoent : Int := 2
def eio : Int := 5
def efault : Int := 14

/-! ## File attributes -/

/-- The fields of a `struct stat` that `_getattr` sets. -/
structure Stat where
  stMode : Nat
  stNlink : Nat
  stUid : Nat
  stGid : Nat
  stSize : Nat
  stBlocks : Nat
  stAtime : Int
  stMtime : Int
  stCtime : Int

/-- What `getuid`, `getgid` and `time` answer. -/
structure Caller where
  uid : Nat
  gid : Nat
  now : Int

def sIfdir : Nat := 0o040000
def sIfreg : Nat := 0o100000

/-- The branches for `/mem` and `/reg` of `_getattr`, but for the size. -/
def regularFile (e : Caller) (size : Nat) : Stat :=
  ⟨sIfreg ||| 0o644, 1, e.uid, e.gid, size, 0, e.now, e.now, e.now⟩

/-- `_getattr`: its answer and `*st`. -/
def getattr (e : Caller) (path : String) (st : Stat) : Int × Stat :=
  if path = "/" then (0, { st with stMode := sIfdir ||| 0o755, stNlink := 2 })
  else if path = "/mem" then (0, regularFile e ficMemSize)
  else if path = "/reg" then (0, regularFile e ficRegSize)
  else (-enoent, st)

/-! ## Operations -/

/-- Into the caller's buffer or into `r_buf`. -/
inductive Ptr
  | buf (i : Nat)
  | rbuf (i : Nat)
deriving DecidableEq, Repr

inductive FuseOp
  | gpioOpen
  | gpioClose (fd : Int)
  | commReset
  | hlsRead (p : Ptr) (size : Nat) (addr ctrl : BitVec 32)
  | hlsWrite (p : Ptr) (size : Nat) (addr ctrl : BitVec 32)
  | memcpy (dst src : Ptr) (n : Nat)

@[reducible] def FuseAns : FuseOp → Type
  | .memcpy _ _ _ => Unit
  | _ => Int

/-- A function of the driver. -/
abbrev F (α : Type) := Prog FuseOp FuseAns α

/-! ## The callbacks -/

variable (m : DataModel)

/-- `offset` as an argument of type `uint32_t`. -/
def addr32 (offset : Nat) : BitVec 32 := BitVec.ofNat 32 offset

/-- `buf`, `offset` and `size_left`. -/
structure Cursor where
  buf : Nat
  offset : Nat
  left : Nat

def Cursor.skip (c : Cursor) (n : Nat) : Cursor := ⟨c.buf + n, c.offset + n, sizeSub m c.left n⟩

/-- READ_IO_ERROR, WRITE_IO_ERROR. -/
def ioError (fd : Int) : F (Option Int) := do
  let _ ← call (.gpioClose fd)
  ret (some (-eio))

/-- The misaligned start of `_read`; `none` is `goto READ_IO_ERROR`. -/
def readHead (c : Cursor) : F (Option Cursor) :=
  let mis := c.offset % 4
  if mis ≠ 0 then do
    let r ← call (.hlsRead (.rbuf 0) 4 (addr32 c.offset) rasddrCmdRead)
    if r < 0 then ret none else
    let tx := 4 - mis
    if tx > c.left then do
      let _ ← call (.memcpy (.buf c.buf) (.rbuf mis) c.left)
      ret (some (c.skip m c.left))
    else do
      let _ ← call (.memcpy (.buf c.buf) (.rbuf mis) tx)
      ret (some (c.skip m tx))
  else ret (some c)

/-- The last 4 bytes of `_read`. -/
def readLast (c : Cursor) (mis : Nat) : F Bool := do
  let r ← call (.hlsRead (.rbuf 0) 4 (addr32 c.offset) rasddrCmdRead)
  if r < 0 then ret false else do
  let _ ← call (.memcpy (.buf c.buf) (.rbuf 0) mis)
  ret true

/-- The rest of `_read`; `false` is `goto READ_IO_ERROR`. -/
def readTail (c : Cursor) : F Bool :=
  if c.left > 0 then
    let mis := offAdd m c.offset c.left % 4
    if mis ≠ 0 then
      let tx := cInt (sizeSub m c.left mis)
      if tx > 3 then do
        let r ← call (.hlsRead (.buf c.buf) tx.toNat (addr32 c.offset) rasddrCmdRead)
        if r < 0 then ret false else
        readLast ⟨c.buf + tx.toNat, c.offset + tx.toNat, c.left⟩ mis
      else readLast c mis
    else do
      let r ← call (.hlsRead (.buf c.buf) c.left (addr32 c.offset) rasddrCmdRead)
      if r < 0 then ret false else ret true
  else ret true

/-- The misaligned start of `_write`. -/
def writeHead (c : Cursor) : F (Option Cursor) :=
  let mis := c.offset % 4
  if mis ≠ 0 then do
    let tx := 4 - mis
    let r ← call (.hlsRead (.rbuf 0) 4 (addr32 c.offset) rasddrCmdRead)
    if r < 0 then ret none else
    if tx > c.left then do
      let _ ← call (.memcpy (.rbuf mis) (.buf c.buf) c.left)
      let r ← call (.hlsWrite (.rbuf 0) 4 (addr32 c.offset) rasddrCmdWrite)
      if r < 0 then ret none else
      ret (some (c.skip m tx))
    else do
      let _ ← call (.memcpy (.rbuf mis) (.buf c.buf) tx)
      let r ← call (.hlsWrite (.rbuf 0) 4 (addr32 c.offset) rasddrCmdWrite)
      if r < 0 then ret none else
      ret (some (c.skip m tx))
  else ret (some c)

/-- The last 4 bytes of `_write`. -/
def writeLast (c : Cursor) (mis : Nat) : F Bool := do
  let r ← call (.hlsRead (.rbuf 0) 4 (addr32 c.offset) rasddrCmdRead)
  if r < 0 then ret false else do
  let _ ← call (.memcpy (.rbuf 0) (.buf c.buf) mis)
  let r ← call (.hlsWrite (.rbuf 0) 4 (addr32 c.offset) rasddrCmdWrite)
  if r < 0 then ret false else ret true

/-- The rest of `_write`. -/
def writeTail (c : Cursor) : F Bool :=
  if c.left > 0 then
    let mis := offAdd m c.offset c.left % 4
    if mis ≠ 0 then
      let tx := sizeSub m c.left mis
      if tx > 3 then do
        let r ← call (.hlsWrite (.buf c.buf) tx (addr32 c.offset) rasddrCmdWrite)
        if r < 0 then ret false else
        writeLast ⟨c.buf + tx, c.offset + tx, c.left⟩ mis
      else writeLast c mis
    else do
      let r ← call (.hlsWrite (.buf c.buf) c.left (addr32 c.offset) rasddrCmdWrite)
      if r < 0 then ret false else ret true
  else ret true

/-- The branch for `/mem` of `_read` and `_write`: `some r` is `return r`, `none` goes on behind it. -/
def memBranch (head : Cursor → F (Option Cursor)) (tail : Cursor → F Bool)
    (size offset : Nat) : F (Option Int) :=
  if offAdd m offset size > ficMemSize then ret (some (-efault))
  else if size = 0 then ret (some (-eio))
  else do
    let fd ← call .gpioOpen
    if fd < 0 then ret (some (-eio)) else do
    let _ ← call .commReset
    let h ← head ⟨0, offset, size⟩
    match h with
    | none => ioError fd
    | some c => do
      let ok ← tail c
      if ok then do
        let _ ← call (.gpioClose fd)
        ret none
      else ioError fd

/-- The branch for `/reg`. -/
def regBranch (transfer : F Int) (offset : Nat) : F (Option Int) :=
  if offset > ficMemSize then ret (some (-efault))
  else do
    let fd ← call .gpioOpen
    if fd < 0 then ret (some (-eio)) else do
    let _ ← call .commReset
    let r ← transfer
    if r < 0 then ioError fd else do
    let _ ← call (.gpioClose fd)
    ret none

/-- `if (strcmp(path, "/mem") == 0) .. if (strcmp(path, "/reg") == 0) .. return size;` -/
def callback (path : String) (size : Nat) (mem reg : F (Option Int)) : F Int := do
  let r ← if path = "/mem" then mem else ret none
  match r with
  | some e => ret e
  | none => do
    let r ← if path = "/reg" then reg else ret none
    match r with
    | some e => ret e
    | none => ret (cInt size)

/-- `_read` -/
def read (path : String) (size offset : Nat) : F Int :=
  callback path size (memBranch m (readHead m) (readTail m) size offset)
    (regBranch (call (FuseOp.hlsRead (.buf 0) size (addr32 offset) rasddrCmdAxiRead)) offset)

/-- `_write` -/
def write (path : String) (size offset : Nat) : F Int :=
  callback path size (memBranch m (writeHead m) (writeTail m) size offset)
    (regBranch (call (FuseOp.hlsWrite (.buf 0) size (addr32 offset) rasddrCmdAxiWrite)) offset)

/-! ## The other side -/

/-- The DDR, the caller's buffer, `r_buf`, and whether `fic_gpio_open` or a transfer has failed. -/
structure FuseWorld where
  ddr : Nat → BitVec 8
  buf : Mem
  rbuf : Mem
  failed : Bool

namespace FuseWorld

/-- Byte `i` behind a pointer. -/
def load (s : FuseWorld) : Ptr → Nat → BitVec 8
  | .buf j, i => s.buf (j + i)
  | .rbuf j, i => s.rbuf (j + i)

end FuseWorld

/-- The bytes `[lo, lo + n)` become `f 0`, `f 1`, .. -/
def patch (d : Nat → BitVec 8) (lo n : Nat) (f : Nat → BitVec 8) : Nat → BitVec 8 :=
  fun a => if lo ≤ a ∧ a < lo + n then f (a - lo) else d a

namespace FuseWorld

def store (s : FuseWorld) (p : Ptr) (n : Nat) (f : Nat → BitVec 8) : FuseWorld :=
  match p with
  | .buf j => { s with buf := patch s.buf j n f }
  | .rbuf j => { s with rbuf := patch s.rbuf j n f }

end FuseWorld

/-- Where a transfer at `addr` starts. -/
def ddrBase (addr : BitVec 32) : Nat := addr.toNat / 4 * 4

/-- The effect of the operations.  The AXI bus may do anything but touch the DDR. -/
def fuseSys : Sys FuseOp FuseAns FuseWorld where
  act
    | .gpioOpen, s, r, s' => s' = { s with failed := s.failed || decide (r < 0) }
    | .gpioClose _, s, _, s' => s' = s
    | .commReset, s, _, s' => s' = s
    | .memcpy dst src n, s, _, s' => s' = s.store dst n (s.load src)
    | .hlsRead p n addr ctrl, s, r, s' =>
      ∃ f, (0 ≤ r → ctrl = rasddrCmdRead → f = fun i => s.ddr (ddrBase addr + i)) ∧
        s' = { s.store p n f with failed := s.failed || decide (r < 0) }
    | .hlsWrite p n addr ctrl, s, r, s' =>
      ∃ d, (ctrl ≠ rasddrCmdWrite → d = s.ddr) ∧
        (0 ≤ r → ctrl = rasddrCmdWrite → d = patch s.ddr (ddrBase addr) n (s.load p)) ∧
        (r < 0 → ∀ a, d a = s.ddr a ∨ d a = patch s.ddr (ddrBase addr) n (s.load p) a) ∧
        s' = { s with ddr := d, failed := s.failed || decide (r < 0) }
  env _ _ := False

theorem fuseSys_quiet : fuseSys.Quiet := fun _ _ h => h

/-! ## Arithmetic -/

section
variable {m}

theorem ddrBase_addr32 {offset : Nat} (h : offset < 2 ^ 32) : ddrBase (addr32 offset) = offset / 4 * 4 := by
  unfold ddrBase addr32
  rw [BitVec.toNat_ofNat, Nat.mod_eq_of_lt h]

end

/-! ## Safe places -/

/-- `n` bytes behind `p` lie inside the caller's buffer of `size` bytes or inside `r_buf`. -/
def Ptr.Inside (size : Nat) (n : Nat) : Ptr → Prop
  | .buf i => i + n ≤ size
  | .rbuf i => i + n ≤ 4

/-- The operation stays inside the two buffers. -/
def FuseOp.Inside (size : Nat) : FuseOp → Prop
  | .hlsRead p n _ _ => p.Inside size n
  | .hlsWrite p n _ _ => p.Inside size n
  | .memcpy p q n => p.Inside size n ∧ q.Inside size n
  | _ => True

section
variable (size offset : Nat)

/-- A cursor after the head. -/
structure Cursor.At (c : Cursor) : Prop where
  place : c.offset = offset + c.buf
  rest : c.buf + c.left = size
  aligned : 0 < c.left → c.offset % 4 = 0

end

section
variable {m} {size offset : Nat}

/-- The cursor behind `n` bytes that end at a word, or with the range. -/
theorem skip_at {n : Nat} (hn : n ≤ size) (hlim : offset + size < 2 ^ 32)
    (halign : n < size → (offset + n) % 4 = 0) :
    ((⟨0, offset, size⟩ : Cursor).skip m n).At size offset := by
  have hleft : sizeSub m size n = size - n := sizeSub_eq hn (by omega)
  constructor
  · show offset + n = offset + (0 + n)
    omega
  · show 0 + n + sizeSub m size n = size
    omega
  · intro hpos
    have hpos' : 0 < sizeSub m size n := hpos
    exact halign (by omega)

end

/-! ## Rules -/

section
variable {α : Type} {J : FuseWorld → Prop} {Q : α → FuseWorld → Prop} {s : FuseWorld} {p q : Ptr} {n : Nat}
  {addr : BitVec 32} {k l : F α}

/-- `if (fic_hls_ddr_read(p, n, addr) < 0) l;` before `k`. -/
theorem wp_ddrRead (hJ : J s)
    (hl : ∀ f, wp fuseSys J Q l { s.store p n f with failed := true })
    (hk : wp fuseSys J Q k (s.store p n fun i => s.ddr (ddrBase addr + i))) :
    wp fuseSys J Q (call (FuseOp.hlsRead p n addr rasddrCmdRead) >>=
      fun r => if r < 0 then l else k) s := by
  refine wp_callQuiet fuseSys_quiet hJ fun r t ⟨f, hf, ht⟩ => ?_
  subst ht
  split
  · next hr =>
    rw [decide_eq_true hr, Bool.or_true]
    exact hl f
  · next hr =>
    rw [decide_eq_false hr, Bool.or_false, hf (Int.not_lt.1 hr) rfl]
    cases p <;> exact hk

/-- `if (fic_hls_ddr_write(p, n, addr) < 0) l;` before `k`. -/
theorem wp_ddrWrite (hJ : J s)
    (hl : ∀ d : Nat → BitVec 8, (∀ a, d a = s.ddr a ∨ d a = patch s.ddr (ddrBase addr) n (s.load p) a) →
      wp fuseSys J Q l { s with ddr := d, failed := true })
    (hk : wp fuseSys J Q k { s with ddr := patch s.ddr (ddrBase addr) n (s.load p) }) :
    wp fuseSys J Q (call (FuseOp.hlsWrite p n addr rasddrCmdWrite) >>=
      fun r => if r < 0 then l else k) s := by
  refine wp_callQuiet fuseSys_quiet hJ fun r t ⟨d, _, hok, herr, ht⟩ => ?_
  subst ht
  split
  · next hr =>
    rw [decide_eq_true hr, Bool.or_true]
    exact hl d (herr hr)
  · next hr =>
    rw [decide_eq_false hr, Bool.or_false, hok (Int.not_lt.1 hr) rfl]
    exact hk

theorem wp_memcpy {k : Unit → F α} (hJ : J s) (hk : wp fuseSys J Q (k ()) (s.store p n (s.load q))) :
    wp fuseSys J Q (call (FuseOp.memcpy p q n) >>= k) s :=
  wp_callQuiet fuseSys_quiet hJ fun _ t (ht : t = _) => by rw [ht]; exact hk

theorem wp_ioError {Q : Option Int → FuseWorld → Prop} (fd : Int) (hJ : J s) (h : Q (some (-eio)) s) :
    wp fuseSys J Q (ioError fd) s :=
  wp_callQuiet fuseSys_quiet hJ fun _ t (ht : t = _) => by rw [ht]; exact wp_retQuiet fuseSys_quiet hJ h

end

section
variable {m} {J : FuseWorld → Prop} {s : FuseWorld} {head : Cursor → F (Option Cursor)}
    {tail : Cursor → F Bool}
  {size offset : Nat}

/-- The branch for `/mem`, for a range inside the DDR: the head leads from `s` to `H`, the tail from
there to `K`, and a branch that ends early has failed. -/
theorem wp_memBranch (H : Cursor → FuseWorld → Prop) (K : FuseWorld → Prop)
    (hJ : ∀ t : FuseWorld, t.ddr = s.ddr → t.buf = s.buf → J t) (h1 : 1 ≤ size)
    (hrange : offAdd m offset size ≤ ficMemSize)
    (hhead : wp fuseSys J (fun h t => match h with | none => t.failed = true | some c => H c t)
      (head ⟨0, offset, size⟩) s)
    (htail : ∀ c t, H c t → wp fuseSys J (fun ok t => if ok then K t else t.failed = true) (tail c) t) :
    wp fuseSys J (fun r t => (r = none ∧ K t) ∨ (r = some (-eio) ∧ t.failed = true))
      (memBranch m head tail size offset) s := by
  unfold memBranch
  rw [if_neg (by omega), if_neg (by omega)]
  refine wp_callQuiet fuseSys_quiet (hJ s rfl rfl) fun fd t ht => ?_
  obtain rfl : t = { s with failed := s.failed || decide (fd < 0) } := ht
  split
  · next hfd =>
    refine wp_retQuiet fuseSys_quiet (hJ _ rfl rfl) (.inr ⟨rfl, ?_⟩)
    rw [decide_eq_true hfd, Bool.or_true]
  · next hfd =>
    rw [decide_eq_false hfd, Bool.or_false]
    refine wp_callQuiet fuseSys_quiet (hJ _ rfl rfl) fun _ t ht => ?_
    obtain rfl : t = s := ht
    refine wp_bind (wp_mono hhead fun h t hJt ht => ?_)
    cases h with
    | none => exact wp_ioError fd hJt (.inr ⟨rfl, ht⟩)
    | some c =>
      refine wp_bind (wp_mono (htail c t ht) fun ok t hJt ht => ?_)
      cases ok with
      | false => exact wp_ioError fd hJt (.inr ⟨rfl, ht⟩)
      | true =>
        refine wp_callQuiet fuseSys_quiet hJt fun _ u hu => ?_
        obtain rfl : u = t := hu
        exact wp_retQuiet fuseSys_quiet hJt (.inl ⟨rfl, ht⟩)

/-- A callback for `/mem`. -/
theorem wp_callback_mem {K : FuseWorld → Prop} {mem reg : F (Option Int)} (hsize : size < 2 ^ 31)
    (hmem : wp fuseSys J (fun r t => (r = none ∧ K t) ∨ (r = some (-eio) ∧ t.failed = true)) mem s) :
    wp fuseSys J (fun (r : Int) t => (r = size ∧ K t) ∨ (r = -eio ∧ t.failed = true))
      (callback "/mem" size mem reg) s := by
  unfold callback
  rw [if_pos rfl]
  refine wp_bind (wp_mono hmem fun r t hJt ht => ?_)
  rcases ht with ⟨rfl, hK⟩ | ⟨rfl, hfail⟩
  · rw [if_neg (by decide)]
    refine wp_retQuiet fuseSys_quiet hJt (.inl ⟨?_, hK⟩)
    rw [cInt_eq hsize]
  · exact wp_retQuiet fuseSys_quiet hJt (.inr ⟨rfl, hfail⟩)

variable {P : FuseOp → Prop} {R : Cursor → Prop}

theorem ops_memBranch (hopen : P .gpioOpen) (hclose : ∀ fd, P (.gpioClose fd)) (hreset : P .commReset)
    (hhead : Ops P (head ⟨0, offset, size⟩))
    (hret : Returns (fun h => ∀ c ∈ h, R c) (head ⟨0, offset, size⟩))
    (htail : ∀ c, R c → Ops P (tail c)) : Ops P (memBranch m head tail size offset) := by
  have herr : ∀ fd, Ops P (ioError fd) := fun fd => ops_bind (ops_call _ (hclose fd)) fun _ => trivial
  unfold memBranch
  split
  · trivial
  · split
    · trivial
    · apply ops_bind (ops_call _ hopen)
      intro fd
      split
      · trivial
      · apply ops_bind (ops_call _ hreset)
        intro _
        apply ops_bind_returns hhead hret
        intro h hh
        cases h with
        | none => exact herr fd
        | some c =>
          apply ops_bind (htail c (hh c rfl))
          intro ok
          split
          · exact ops_bind (ops_call _ (hclose fd)) fun _ => trivial
          · exact herr fd

theorem ops_callback_mem {mem reg : F (Option Int)} (hmem : Ops P mem) :
    Ops P (callback "/mem" size mem reg) := by
  unfold callback
  rw [if_pos rfl]
  apply ops_bind hmem
  intro r
  cases r with
  | some e => trivial
  | none =>
    rw [if_neg (by decide)]
    trivial

theorem ops_callback_reg {mem reg : F (Option Int)} (hreg : Ops P reg) :
    Ops P (callback "/reg" size mem reg) := by
  unfold callback
  rw [if_neg (by decide), if_pos rfl]
  show Ops P (reg >>= _)
  apply ops_bind hreg
  intro r
  cases r <;> trivial

theorem ops_regBranch {transfer : F Int} (hopen : P .gpioOpen)
    (hclose : ∀ fd, P (.gpioClose fd)) (hreset : P .commReset)
    (htransfer : offset ≤ ficMemSize → Ops P transfer) : Ops P (regBranch transfer offset) := by
  unfold regBranch
  split
  · trivial
  · next hle =>
    apply ops_bind (ops_call _ hopen)
    intro fd
    split
    · trivial
    · apply ops_bind (ops_call _ hreset)
      intro _
      apply ops_bind (htransfer (Nat.not_lt.1 hle))
      intro r
      split <;> exact ops_bind (ops_call _ (hclose fd)) fun _ => trivial

theorem returns_memBranch (hhead : Returns (fun _ => True) (head ⟨0, offset, size⟩))
    (htail : ∀ c, Returns (fun _ => True) (tail c)) :
    Returns (fun _ => True) (memBranch m head tail size offset) := by
  have herr : ∀ fd, Returns (fun _ => True) (ioError fd) := fun fd _ => trivial
  unfold memBranch
  split
  · trivial
  · split
    · trivial
    · intro fd
      show Returns _ (if fd < 0 then _ else _)
      split
      · trivial
      · intro _
        apply returns_bind hhead
        intro h _
        cases h with
        | none => exact herr fd
        | some c =>
          apply returns_bind (htail c)
          intro ok _
          split
          · exact fun _ => trivial
          · exact herr fd

theorem returns_regBranch {transfer : F Int} (htransfer : Returns (fun _ => True) transfer) :
    Returns (fun _ => True) (regBranch transfer offset) := by
  unfold regBranch
  split
  · trivial
  · intro fd
    show Returns _ (if fd < 0 then _ else _)
    split
    · trivial
    · intro _
      apply returns_bind htransfer
      intro r _
      split <;> exact fun _ => trivial

theorem returns_callback {path : String} {mem reg : F (Option Int)} (hmem : Returns (fun _ => True) mem)
    (hreg : Returns (fun _ => True) reg) : Returns (fun _ => True) (callback path size mem reg) := by
  have hrest : ∀ p : F Int, p = callback path size (ret none) reg → Returns (fun _ => True) p := by
    rintro _ rfl
    unfold callback
    rw [ite_self]
    show Returns _ (if path = "/reg" then _ else _)
    split
    · apply returns_bind hreg
      intro r _
      cases r <;> trivial
    · trivial
  by_cases hpath : path = "/mem"
  · unfold callback
    rw [if_pos hpath]
    apply returns_bind hmem
    intro r _
    cases r with
    | some e => trivial
    | none => exact hrest _ (by unfold callback; rw [ite_self]; rfl)
  · exact hrest _ (by unfold callback; rw [if_neg hpath, ite_self])

/-- A callback for `/mem` gets into its head, and behind it as far as the tail gets. -/
theorem reaches_callback_mem {P : FuseOp → Prop} {reg : F (Option Int)} (h1 : 0 < size)
    (hrange : offset + size ≤ ficMemSize) (h : reaches fuseSys P (head ⟨0, offset, size⟩) s ∨
      can fuseSys (fun r t => ∃ c, r = some c ∧ reaches fuseSys P (tail c) t) (head ⟨0, offset, size⟩) s) :
    reaches fuseSys P (callback "/mem" size (memBranch m head tail size offset) reg) s := by
  have hsum : offAdd m offset size = offset + size := by
    simp only [ficMemSize] at hrange
    exact offAdd_eq (by omega)
  have hopen : fuseSys.act .gpioOpen s (0 : Int) s := by
    show s = { s with failed := s.failed || decide ((0 : Int) < 0) }
    rw [decide_eq_false (by decide), Bool.or_false]
  unfold callback
  rw [if_pos rfl]
  apply reaches_bind
  unfold memBranch
  rw [hsum, if_neg (by omega), if_neg (by omega)]
  apply reaches_call (0 : Int) hopen
  apply reaches_call (0 : Int) rfl
  rcases h with h | h
  · exact reaches_bind h
  · refine reaches_after (can_mono h ?_) fuseSys_quiet
    rintro _ t ⟨c, rfl, ht⟩
    exact reaches_bind ht

end

/-- Every operation can succeed. -/
theorem fuseSys_succeeds (o : FuseOp) (s : FuseWorld) (h : s.failed = false) :
    ∃ a t, fuseSys.act o s a t ∧ t.failed = false := by
  cases o with
  | gpioOpen => exact ⟨(0 : Int), _, rfl, by rw [h]; rfl⟩
  | gpioClose fd => exact ⟨(0 : Int), s, rfl, h⟩
  | commReset => exact ⟨(0 : Int), s, rfl, h⟩
  | memcpy p q n => exact ⟨(), s.store p n (s.load q), rfl, by cases p <;> exact h⟩
  | hlsRead p n addr ctrl =>
    exact ⟨(0 : Int), _, ⟨fun i => s.ddr (ddrBase addr + i), fun _ _ => rfl, rfl⟩, by rw [h]; rfl⟩
  | hlsWrite p n addr ctrl =>
    have hz : ¬ (0 : Int) < 0 := by decide
    by_cases hc : ctrl = rasddrCmdWrite
    · exact ⟨(0 : Int), _,
        ⟨patch s.ddr (ddrBase addr) n (s.load p), fun hne => absurd hc hne, fun _ _ => rfl,
        fun hr => absurd hr hz, rfl⟩, by rw [h]; rfl⟩
    · exact ⟨(0 : Int), _, ⟨s.ddr, fun _ => rfl, fun _ hne => absurd hne hc, fun hr => absurd hr hz, rfl⟩,
        by rw [h]; rfl⟩

end Libfic2.Ficfuse
