import Mathlib.Data.Fintype.Basic
import Libfic2.Driver.Events
import Libfic2.Driver.Prog

/-!
# The lock on the GPIO: `gpio_lock` and `gpio_unlock`

`gpio_lock` waits until LOCK_FILE is gone, creates and opens it, and waits for an exclusive
`flock`; `gpio_unlock` closes the file, which drops the `flock`, and unlinks it.

Any number of processes run the two in turn, one system call a step (`World.next`).  The
file system maps the path to an inode; an inode that has been unlinked stays with those
that have opened it.
-/

namespace Libfic2.GpioLock

open Driver Prog

/-! ## The functions -/

inductive SysCall
  | time
  | stat
  | openLock
  | flock (fd : Int)
  | close (fd : Int)
  | unlink
deriving DecidableEq, Repr

abbrev S (α : Type) := Prog SysCall (fun _ => Int) α

def gpioLockTimeout : Int := 30

/-- Wait while the lock file exists; -1 is a timeout. -/
def awaitAbsent (t1 : Int) (fuel : Nat) : S Int :=
  loop (do
    let r ← call .stat
    if r ≠ 0 then ret (some 0)
    else do
      let t2 ← call .time
      if t2 - t1 > gpioLockTimeout then ret (some (-1)) else ret none) fuel

/-- The end of `gpio_lock`. -/
def awaitLock (lockFd : Int) : S Int := do
  let r ← call (.flock lockFd)
  if r < 0 then ret (-1) else ret lockFd

def gpioLock (fuel : Nat) : S Int := do
  let t1 ← call .time
  let r ← awaitAbsent t1 fuel
  if r < 0 then ret (-1) else do
  let lockFd ← call .openLock
  if lockFd < 0 then ret (-1) else awaitLock lockFd

def gpioUnlock (fdLock : Int) : S Int := do
  let _ ← call (.close fdLock)
  let r ← call .unlink
  if r < 0 then ret (-1) else ret 0

/-! ## The file system -/

variable {Pid : Type} [DecidableEq Pid]

/-- The inode of LOCK_FILE, the next inode, the descriptors of each process, and who holds the `flock`
of each inode. -/
structure Fs (Pid : Type) where
  path : Option Nat
  fresh : Nat
  fds : Pid → Int → Option Nat
  flock : Nat → Option (Pid × Int)

def Fs.setFd (s : Fs Pid) (i : Pid) (fd : Int) (n : Option Nat) : Fs Pid :=
  { s with fds := Function.update s.fds i (Function.update (s.fds i) fd n) }

/-- What a call of process `i` does when it answers `a`; `none` is an answer it cannot give. -/
def Fs.perform (s : Fs Pid) (i : Pid) : SysCall → Int → Option (Fs Pid)
  | .time, _ => some s
  | .stat, a => if a = 0 ↔ s.path.isSome then some s else none
  | .openLock, a =>
    if a < 0 then some s
    else if (s.fds i a).isSome then none
    else
      match s.path with
      | some n => some (s.setFd i a (some n))
      | none => some { s.setFd i a (some s.fresh) with path := some s.fresh, fresh := s.fresh + 1 }
  | .flock fd, a =>
    if a < 0 then some s
    else
      match s.fds i fd with
      | none => none
      | some n =>
        -- it waits while another one holds the lock
        if s.flock n = none ∨ s.flock n = some (i, fd) then
          some { s with flock := Function.update s.flock n (some (i, fd)) }
        else none
  | .close fd, _ =>
    match s.fds i fd with
    | none => some s
    | some n =>
      some { s.setFd i fd none with
        flock := if s.flock n = some (i, fd) then Function.update s.flock n none else s.flock }
  | .unlink, a =>
    if a < 0 then some s
    else if s.path.isSome then some { s with path := none } else none

/-! ## The processes -/

inductive Phase | locking | unlocking
deriving DecidableEq

/-- Outside, inside one of the two functions, or between them. -/
inductive Proc
  | idle
  | run (ph : Phase) (p : S Int)
  | holding (fd : Int)

structure World (Pid : Type) where
  procs : Pid → Proc
  fs : Fs Pid

def World.set (w : World Pid) (i : Pid) (p : Proc) : World Pid :=
  { w with procs := Function.update w.procs i p }

/-- `gpio_lock` or `gpio_unlock` is called, makes a system call that answers `a`, or returns. -/
inductive Event (Pid : Type)
  | lock (i : Pid) (fuel : Nat)
  | unlock (i : Pid)
  | sys (i : Pid) (a : Int)
  | done (i : Pid)

def World.next (w : World Pid) : Event Pid → Option (World Pid)
  | .lock i fuel =>
    match w.procs i with
    | .idle => some (w.set i (.run .locking (gpioLock fuel)))
    | _ => none
  | .unlock i =>
    match w.procs i with
    | .holding fd => some (w.set i (.run .unlocking (gpioUnlock fd)))
    | _ => none
  | .sys i a =>
    match w.procs i with
    | .run ph (.op o k) => (w.fs.perform i o a).map fun fs => { w.set i (.run ph (k a)) with fs := fs }
    | _ => none
  | .done i =>
    match w.procs i with
    | .run .locking (.ret r) => some (w.set i (if r < 0 then .idle else .holding r))
    | .run .unlocking (.ret _) => some (w.set i .idle)
    | _ => none

/-- Everybody is outside; a lock file may have been left behind. -/
def World.start (stale : Bool) : World Pid where
  procs _ := .idle
  fs := ⟨if stale then some 0 else none, 1, fun _ _ => none, fun _ => none⟩

/-- Any interleaving of events that meet `C`. -/
def Reached (C : World Pid → Event Pid → Prop) : World Pid → World Pid → Prop := Reaches World.next C

/-- Between a successful return of `gpio_lock` and the call of `gpio_unlock`. -/
def Proc.inside : Proc → Bool
  | .holding _ => true
  | _ => false

/-- Mutual exclusion. -/
def Exclusive (w : World Pid) : Prop := ∀ i j, (w.procs i).inside = true → (w.procs j).inside = true → i = j

instance [Fintype Pid] (w : World Pid) : Decidable (Exclusive w) :=
  inferInstanceAs (Decidable (∀ _ _, _))

end Libfic2.GpioLock
