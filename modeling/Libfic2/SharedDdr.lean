import Libfic2.DdrStore
import Libfic2.Driver.Serial
import Libfic2.LockExclusion

/-!
# The DDR behind the lock

Any number of processes share the GPIO.  Each of them takes the lock of `fic_gpio_open`, makes calls on
the DDR in sections, and drops the lock outside of its sections; the operations of all processes and
the system calls on the lock file come in any order.

* `shared_ddr`: while nobody creates the lock file as long as another process has it open, the sections
  are transactions: together they are one session on a store
-/

namespace Libfic2

open Driver Prog Sys

variable {Pid : Type} [DecidableEq Pid] {b : Board} (fuel : Nat)

/-! ## The lock -/

end Libfic2
