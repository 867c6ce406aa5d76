import Libfic2.GpioLock
import Libfic2.Driver.Traces

/-!
# Opening and closing the GPIO, when system calls fail

`fic_gpio_open` takes the lock, maps GPIO_DEV and returns the descriptor of LOCK_FILE;
`fic_gpio_close` unmaps and gives the lock back.  There is one process, and every system call may
fail.  Neither function gives back what it holds when a later step fails.

* `unblocked_of_sound`: while `fic_gpio_open` fails at most before it has created LOCK_FILE, and
  `munmap` does not fail, nothing is left behind, and a call leaves nothing just in that case
* `open_leaks`: GPIO_DEV cannot be opened, and LOCK_FILE stays
-/

namespace Libfic2.GpioLock

open Driver Prog

/-! ## The functions -/

inductive GpioCall
  | lock (c : SysCall)
  | openDev
  | mmap (fd : Int)
  | munmap (ptr : Int)
deriving DecidableEq, Repr

abbrev G (α : Type) := Prog GpioCall (fun _ => Int) α

/-- MAP_FAILED -/
def mapFailed : Int := -1

/-- The descriptor, and what `gpio` then points to. -/
def ficGpioOpen (fuel : Nat) (gpio : Int) : G (Int × Int) := do
  let fdLock ← (gpioLock fuel).embed .lock
  if fdLock < 0 then ret (-1, gpio) else do
  let memFd ← call .openDev
  if memFd < 0 then ret (-1, gpio) else do
  let gpioMap ← call (.mmap memFd)
  let _ ← call (.lock (.close memFd))
  if gpioMap = mapFailed then ret (-1, gpio) else ret (fdLock, gpioMap)

def ficGpioClose (gpio fdLock : Int) : G Int := do
  let r ← call (.munmap gpio)
  if r < 0 then ret (-1) else do
  let r ← (gpioUnlock fdLock).embed .lock
  if r < 0 then ret (-1) else ret 0

/-! ## The system -/

/-- Whether LOCK_FILE exists, and the open descriptors for it and for GPIO_DEV. -/
structure Host where
  lockFile : Bool
  lockFds : List Int
  devFds : List Int
deriving DecidableEq, Repr

/-- What a system call does when it answers `a`; `none` is an answer it cannot give. -/
def Host.perform (h : Host) : GpioCall → Int → Option Host
  | .lock .time, _ => some h
  | .lock .stat, a => if a = 0 ∧ h.lockFile = false then none else some h
  | .lock .openLock, a =>
    if a < 0 then some h
    else if a ∈ h.lockFds ++ h.devFds then none
    else some { h with lockFile := true, lockFds := a :: h.lockFds }
  | .lock (.flock _), _ => some h
  -- the descriptor is released even when `close` fails
  | .lock (.close fd), _ =>
      some { h with lockFds := h.lockFds.filter (· ≠ fd), devFds := h.devFds.filter (· ≠ fd) }
  | .lock .unlink, a =>
      if a < 0 then some h else if h.lockFile then some { h with lockFile := false } else none
  | .openDev, a =>
    if a < 0 then some h
    else if a ∈ h.lockFds ++ h.devFds then none
    else some { h with devFds := a :: h.devFds }
  | .mmap _, _ => some h
  | .munmap _, _ => some h

abbrev Trace := List (Driver.Event GpioCall fun _ => Int)

def Host.after (h : Host) : Trace → Option Host
  | [] => some h
  | e :: l => (h.perform e.1 e.2).bind fun h => h.after l

/-! ## Sequences of calls -/

/-- The host, the pointer `gpio`, the descriptors returned by `fic_gpio_open` and not yet closed, and
whether an `unlink` has failed. -/
structure Session where
  host : Host
  gpio : Int
  held : List Int
  stuck : Bool

/-- The lock file may have been left behind by others. -/
def Session.start (stale : Bool) : Session := ⟨⟨stale, [], []⟩, 0, [], stale⟩

/-- A call, and what the system calls in it answer. -/
inductive Act
  | gpioOpen (fuel : Nat) (answers : List Int)
  | gpioClose (fd : Int) (answers : List Int)

/-- The system calls made. -/
def Act.trace (x : Session) : Act → Option Trace
  | .gpioOpen fuel answers => ((ficGpioOpen fuel x.gpio).play answers).map Prod.fst
  | .gpioClose fd answers => ((ficGpioClose x.gpio fd).play answers).map Prod.fst

def unlinkFails (e : Driver.Event GpioCall fun _ => Int) : Bool :=
  match e.1 with
  | .lock .unlink => e.2 < 0
  | _ => false

def Session.next (x : Session) : Act → Option Session
  | .gpioOpen fuel answers => do
    let (l, fd, gpio) ← (ficGpioOpen fuel x.gpio).play answers
    let h ← x.host.after l
    some { x with host := h, gpio := gpio, held := if fd < 0 then x.held else fd :: x.held }
  | .gpioClose fd answers =>
    if fd ∈ x.held then do
      let (l, _) ← (ficGpioClose x.gpio fd).play answers
      let h ← x.host.after l
      some { x with host := h, held := x.held.filter (· ≠ fd), stuck := x.stuck || l.any unlinkFails }
    else none

/-! ## The property, and the condition -/

/-- A system call fails that is made with the lock in hand. -/
def fails (e : Driver.Event GpioCall fun _ => Int) : Bool :=
  match e.1 with
  | .lock (.flock _) => e.2 < 0
  | .openDev => e.2 < 0
  | .mmap _ => e.2 = mapFailed
  | .munmap _ => e.2 < 0
  | _ => false

/-- No such call fails, or LOCK_FILE was there before `fic_gpio_open`. -/
def Sound (x : Session) (c : Act) : Prop :=
  (∀ l ∈ c.trace x, ∀ e ∈ l, fails e = false) ∨
    match c with
    | .gpioOpen _ _ => x.host.lockFile = true
    | .gpioClose _ _ => False

instance (x : Session) : (c : Act) → Decidable (Sound x c)
  | .gpioOpen fuel answers =>
    inferInstanceAs (Decidable ((∀ l ∈ (Act.gpioOpen fuel answers).trace x, ∀ e ∈ l, fails e = false) ∨
      x.host.lockFile = true))
  | .gpioClose fd answers =>
    inferInstanceAs (Decidable
      ((∀ l ∈ (Act.gpioClose fd answers).trace x, ∀ e ∈ l, fails e = false) ∨ False))

/-- A `fic_gpio_open` that returns -1 leaves no LOCK_FILE where there was none, and no descriptor of it;
`fic_gpio_close` closes the descriptor. -/
def Restores (x : Session) (c : Act) (y : Session) : Prop :=
  match c with
  | .gpioOpen fuel answers => ∀ r ∈ (ficGpioOpen fuel x.gpio).play answers, r.2.1 = -1 →
      x.host.lockFile = false → y.host.lockFile = false ∧ y.host.lockFds = x.host.lockFds
  | .gpioClose fd _ => fd ∉ y.host.lockFds

/-- With no descriptor to close, the next `fic_gpio_open` finds no LOCK_FILE, unless an `unlink` has
failed. -/
def Session.Unblocked (x : Session) : Prop := x.stuck = false → x.held = [] → x.host.lockFile = false

/-! ## What the functions do -/

theorem after_append (h : Host) (l l' : Trace) :
    h.after (l ++ l') = (h.after l).bind fun h => h.after l' := by
  induction l generalizing h with
  | nil => rfl
  | cons e l ih =>
    show ((h.perform e.1 e.2).bind fun h => h.after (l ++ l')) = _
    rw [show (h.after (e :: l)) = (h.perform e.1 e.2).bind fun h => h.after l from rfl, Option.bind_assoc]
    exact congrArg _ (funext ih)

/-- Before LOCK_FILE is created. -/
def Idle (e : Driver.Event SysCall fun _ => Int) : Prop :=
  e.1 = .time ∨ e.1 = .stat ∨ e.1 = .openLock ∧ e.2 < 0

theorem awaitAbsent_idle {t1 : Int} {fuel : Nat} {l : List (Driver.Event SysCall fun _ => Int)} {r : Int}
    (h : Ends (awaitAbsent t1 fuel) l r) : ∀ e ∈ l, Idle e := by
  induction fuel generalizing l with
  | zero => exact h.elim
  | succ n ih =>
    obtain ⟨o, l1, l2, rfl, h1, h2⟩ := ends_bind.1 h
    have hrest : ∀ e ∈ l2, Idle e := by
      cases o with
      | none => exact ih h2
      | some b =>
        obtain ⟨rfl, _⟩ := h2
        simp
    obtain ⟨a, l', rfl, hstat⟩ := ends_callBind.1 h1
    have hround : ∀ e ∈ l', Idle e := by
      by_cases ha : a ≠ 0
      · rw [if_pos ha] at hstat
        obtain ⟨rfl, _⟩ := hstat
        simp
      · rw [if_neg ha] at hstat
        obtain ⟨t2, l'', rfl, htime⟩ := ends_callBind.1 hstat
        obtain rfl := ends_answers htime
        simp [Idle]
    intro e he
    rcases List.mem_append.1 he with he | he
    · rcases List.mem_cons.1 he with rfl | he
      · exact .inr (.inl rfl)
      · exact hround e he
    · exact hrest e he

/-- `gpio_lock` gives up before it has created LOCK_FILE, or has it open when it calls `flock`. -/
theorem gpioLock_cases {fuel : Nat} {l : List (Driver.Event SysCall fun _ => Int)} {r : Int}
    (h : Ends (gpioLock fuel) l r) : (r = -1 ∧ ∀ e ∈ l, Idle e) ∨
      ∃ l1 fd a, l = l1 ++ [⟨.openLock, fd⟩, ⟨.flock fd, a⟩] ∧ 0 ≤ fd ∧ (∀ e ∈ l1, Idle e) ∧
        r = if a < 0 then -1 else fd := by
  obtain ⟨t1, l', rfl, htime⟩ := ends_callBind.1 h
  obtain ⟨w, l1, l2, rfl, hwait, hopen⟩ := ends_bind.1 htime
  have hidle : ∀ e ∈ (⟨.time, t1⟩ :: l1 : List (Driver.Event SysCall fun _ => Int)), Idle e := by
    intro e he
    rcases List.mem_cons.1 he with rfl | he
    · exact .inl rfl
    · exact awaitAbsent_idle hwait e he
  by_cases hw : w < 0
  · rw [if_pos hw] at hopen
    obtain ⟨rfl, rfl⟩ := hopen
    exact .inl ⟨rfl, by simpa using hidle⟩
  · rw [if_neg hw] at hopen
    obtain ⟨fd, l2, rfl, hopened⟩ := ends_callBind.1 hopen
    by_cases hfd : fd < 0
    · rw [if_pos hfd] at hopened
      obtain ⟨rfl, rfl⟩ := hopened
      refine .inl ⟨rfl, fun e he => ?_⟩
      rw [← List.cons_append] at he
      rcases List.mem_append.1 he with he | he
      · exact hidle e he
      · obtain rfl := List.mem_singleton.1 he
        exact .inr (.inr ⟨rfl, hfd⟩)
    · rw [if_neg hfd] at hopened
      obtain ⟨a, l3, rfl, hlocked⟩ := ends_callBind.1 hopened
      refine .inr ⟨⟨.time, t1⟩ :: l1, fd, a, ?_, Int.not_lt.1 hfd, hidle, ?_⟩
      · split at hlocked
        · obtain ⟨rfl, _⟩ := hlocked
          rfl
        · obtain ⟨rfl, _⟩ := hlocked
          rfl
      · split at hlocked
        · next ha =>
          rw [if_pos ha]
          exact hlocked.2
        · next ha =>
          rw [if_neg ha]
          exact hlocked.2

/-- The trace of a part that only takes or gives back the lock. -/
abbrev onLock (l : List (Driver.Event SysCall fun _ => Int)) : Trace := l.map fun e => ⟨.lock e.1, e.2⟩

section
variable {h h' : Host} {l : Trace} {gpio gpio' fd r : Int}

theorem after_idle {l : List (Driver.Event SysCall fun _ => Int)} (hl : ∀ e ∈ l, Idle e)
    (ha : h.after (onLock l) = some h') : h' = h := by
  induction l with
  | nil => exact (Option.some.inj ha).symm
  | cons e l ih =>
    obtain ⟨h1, hp, hrest⟩ := Option.bind_eq_some_iff.1 ha
    have hsame : h1 = h := by
      obtain ⟨o, a⟩ := e
      rcases hl ⟨o, a⟩ List.mem_cons_self with rfl | rfl | ⟨rfl, hneg⟩
      · exact (Option.some.inj hp).symm
      · have hstat : (if a = 0 ∧ h.lockFile = false then none else some h) = some h1 := hp
        split at hstat
        · cases hstat
        · exact (Option.some.inj hstat).symm
      · have hopen : (if a < 0 then some h else _) = some h1 := hp
        rw [if_pos hneg] at hopen
        exact (Option.some.inj hopen).symm
    subst hsame
    exact ih (fun e he => hl e (List.mem_cons_of_mem _ he)) hrest

theorem fails_idle {l : List (Driver.Event SysCall fun _ => Int)} (hl : ∀ e ∈ l, Idle e) :
    ∀ e ∈ onLock l, fails e = false := by
  intro e he
  obtain ⟨⟨o, a⟩, hd, rfl⟩ := List.mem_map.1 he
  rcases hl _ hd with rfl | rfl | ⟨rfl, _⟩
  · rfl
  · rfl
  · rfl

/-- The lock with descriptor `fd` has been created or opened, and nothing given back. -/
structure Took (h h' : Host) (fd : Int) : Prop where
  fresh : fd ∉ h.lockFds
  lockFile : h'.lockFile = true
  lockFds : h'.lockFds = fd :: h.lockFds

theorem took_lock {l : List (Driver.Event SysCall fun _ => Int)} {a : Int}
    (hl : ∀ e ∈ l, Idle e) (hfd : 0 ≤ fd)
    (ha : h.after (onLock (l ++ [⟨.openLock, fd⟩, ⟨.flock fd, a⟩])) = some h') : Took h h' fd := by
  unfold onLock at ha
  rw [List.map_append, after_append] at ha
  obtain ⟨h1, hidle, hrest⟩ := Option.bind_eq_some_iff.1 ha
  obtain rfl := after_idle hl hidle
  obtain ⟨h2, hopen, hflock⟩ := Option.bind_eq_some_iff.1 hrest
  obtain rfl : h2 = h' := Option.some.inj hflock
  have hnew : (if fd < 0 then some h1 else if fd ∈ h1.lockFds ++ h1.devFds then none
      else some { h1 with lockFile := true, lockFds := fd :: h1.lockFds }) = some h2 := hopen
  rw [if_neg (Int.not_lt.2 hfd)] at hnew
  split at hnew
  · cases hnew
  · next hfresh =>
    obtain rfl := Option.some.inj hnew
    exact ⟨fun hmem => hfresh (List.mem_append_left _ hmem), rfl, rfl⟩

/-- Opening and closing GPIO_DEV leaves the lock alone. -/
theorem Took.dev {h1 h2 : Host} {memFd ptr c : Int} (ht : Took h h1 fd)
    (ha : h1.after [⟨.openDev, memFd⟩, ⟨.mmap memFd, ptr⟩, ⟨.lock (.close memFd), c⟩] = some h2)
    (hmem : 0 ≤ memFd) : Took h h2 fd := by
  obtain ⟨h3, hopen, hrest⟩ := Option.bind_eq_some_iff.1 ha
  have hnew : (if memFd < 0 then some h1 else if memFd ∈ h1.lockFds ++ h1.devFds then none
      else some { h1 with devFds := memFd :: h1.devFds }) = some h3 := hopen
  rw [if_neg (Int.not_lt.2 hmem)] at hnew
  split at hnew
  · cases hnew
  · next hfresh =>
    obtain rfl := Option.some.inj hnew
    obtain rfl : { h1 with
        lockFds := h1.lockFds.filter (· ≠ memFd)
        devFds := (memFd :: h1.devFds).filter (· ≠ memFd) } = h2 := Option.some.inj hrest
    refine ⟨ht.fresh, ht.lockFile, ?_⟩
    have hkeep : h1.lockFds.filter (· ≠ memFd) = h1.lockFds := by
      apply List.filter_eq_self.2
      rintro n hn
      have hne : n ≠ memFd := by
        rintro rfl
        exact hfresh (List.mem_append_left _ hn)
      simpa using hne
    show h1.lockFds.filter (· ≠ memFd) = _
    rw [hkeep]
    exact ht.lockFds

/-- What `fic_gpio_open` does with the lock in hand. -/
def mapGpio (gpio n : Int) : G (Int × Int) := do
  let memFd ← call .openDev
  if memFd < 0 then ret (-1, gpio) else do
  let gpioMap ← call (.mmap memFd)
  let _ ← call (.lock (.close memFd))
  if gpioMap = mapFailed then ret (-1, gpio) else ret (n, gpioMap)

theorem mapGpio_cases {h1 : Host} {n : Int} (hends : Ends (mapGpio gpio n) l (fd, gpio')) (ht : Took h h1 n)
    (ha : h1.after l = some h') :
    Took h h' n ∧ ((fd = -1 ∧ ∃ e ∈ l, fails e = true) ∨ (fd = n ∧ ∀ e ∈ l, fails e = false)) := by
  obtain ⟨memFd, l1, rfl, hdev⟩ := ends_callBind.1 hends
  by_cases hmem : memFd < 0
  · rw [if_pos hmem] at hdev
    obtain ⟨rfl, heq⟩ := hdev
    obtain ⟨h2, hopen, hrest⟩ := Option.bind_eq_some_iff.1 ha
    have hsame : (if memFd < 0 then some h1 else _) = some h2 := hopen
    rw [if_pos hmem] at hsame
    obtain rfl := Option.some.inj hsame
    obtain rfl := Option.some.inj hrest
    exact ⟨ht, .inl ⟨congrArg Prod.fst heq, _, List.mem_cons_self, by simpa [fails] using hmem⟩⟩
  · rw [if_neg hmem] at hdev
    obtain ⟨ptr, l2, rfl, hmap⟩ := ends_callBind.1 hdev
    obtain ⟨c, l3, rfl, hclose⟩ := ends_callBind.1 hmap
    obtain rfl := ends_answers hclose
    refine ⟨ht.dev ha (Int.not_lt.1 hmem), ?_⟩
    by_cases hptr : ptr = mapFailed
    · rw [if_pos hptr] at hclose
      exact .inl ⟨congrArg Prod.fst hclose.2, ⟨.mmap memFd, ptr⟩, by simp, by simpa [fails] using hptr⟩
    · rw [if_neg hptr] at hclose
      refine .inr ⟨congrArg Prod.fst hclose.2, ?_⟩
      simpa [fails] using ⟨Int.not_lt.1 hmem, hptr⟩

/-- The outcomes of `fic_gpio_open`: the lock is not taken, it is taken and kept although the call
fails, or it is taken and returned. -/
theorem open_cases {fuel : Nat} (hends : Ends (ficGpioOpen fuel gpio) l (fd, gpio'))
    (ha : h.after l = some h') : (fd = -1 ∧ h' = h ∧ ∀ e ∈ l, fails e = false) ∨
      (fd = -1 ∧ (∃ n, Took h h' n) ∧ ∃ e ∈ l, fails e = true) ∨
      (0 ≤ fd ∧ Took h h' fd ∧ ∀ e ∈ l, fails e = false) := by
  obtain ⟨lockFd, lt, l2, rfl, hembed, hdev⟩ := ends_bind.1 hends
  obtain ⟨l1, rfl, hlock⟩ := ends_embed.1 hembed
  rw [after_append] at ha
  obtain ⟨hl, hal, had⟩ := Option.bind_eq_some_iff.1 ha
  rcases gpioLock_cases hlock with ⟨rfl, hidle⟩ | ⟨l0, n, a, rfl, hn, hidle, hret⟩
  · obtain ⟨rfl, heq⟩ := (show l2 = [] ∧ _ from hdev)
    obtain ⟨rfl, rfl⟩ := Prod.mk.inj heq
    obtain rfl := after_idle hidle hal
    exact .inl ⟨rfl, (Option.some.inj had).symm, by simpa using fails_idle hidle⟩
  · have htook := took_lock hidle hn hal
    by_cases hflock : a < 0
    · rw [if_pos hflock] at hret
      subst hret
      obtain ⟨rfl, heq⟩ := (show l2 = [] ∧ _ from hdev)
      obtain ⟨rfl, rfl⟩ := Prod.mk.inj heq
      obtain rfl := Option.some.inj had
      exact .inr (.inl ⟨rfl, ⟨n, htook⟩, ⟨.lock (.flock n), a⟩, by simp, by simpa [fails] using hflock⟩)
    · rw [if_neg hflock] at hret
      subst hret
      rw [if_neg (Int.not_lt.2 hn)] at hdev
      obtain ⟨htaken, ⟨rfl, e, he, hfail⟩ | ⟨rfl, hgood⟩⟩ := mapGpio_cases hdev htook had
      · exact .inr (.inl ⟨rfl, ⟨_, htaken⟩, e, List.mem_append_right _ he, hfail⟩)
      · refine .inr (.inr ⟨hn, htaken, fun e he => ?_⟩)
        rcases List.mem_append.1 he with he | he
        · rw [List.map_append] at he
          rcases List.mem_append.1 he with he | he
          · exact fails_idle hidle e he
          · have hlast : ∀ e ∈ onLock [⟨.openLock, fd⟩, ⟨.flock fd, a⟩], fails e = false := by
              simpa [fails] using hflock
            exact hlast e he
        · exact hgood e he

/-- `fic_gpio_close` stops at `munmap`, or closes the descriptor and unlinks the lock file. -/
theorem close_cases (hends : Ends (ficGpioClose gpio fd) l r) (ha : h.after l = some h') :
    (h' = h ∧ ∃ e ∈ l, fails e = true) ∨
      ((∀ e ∈ l, fails e = false) ∧ h'.lockFds = h.lockFds.filter (· ≠ fd) ∧
      (h'.lockFile = false ∨ l.any unlinkFails = true)) := by
  obtain ⟨m, l1, rfl, hunmap⟩ := ends_callBind.1 hends
  by_cases hm : m < 0
  · rw [if_pos hm] at hunmap
    obtain ⟨rfl, _⟩ := hunmap
    exact .inl ⟨(Option.some.inj ha).symm, _, List.mem_cons_self, by simpa [fails] using hm⟩
  · rw [if_neg hm] at hunmap
    obtain ⟨u, lt, l3, rfl, hembed, hend⟩ := ends_bind.1 hunmap
    obtain ⟨l2, rfl, hunlock⟩ := ends_embed.1 hembed
    obtain rfl := ends_answers hend
    obtain ⟨c, l4, rfl, hclose⟩ := ends_callBind.1 hunlock
    obtain ⟨q, l5, rfl, hunlink⟩ := ends_callBind.1 hclose
    obtain rfl := ends_answers hunlink
    refine .inr ⟨by simpa [fails] using hm, ?_⟩
    -- the descriptor is released, then the file unlinked
    have hperform : (if q < 0 then some { h with
          lockFds := h.lockFds.filter (· ≠ fd)
          devFds := h.devFds.filter (· ≠ fd) }
        else if h.lockFile then some ⟨false, h.lockFds.filter (· ≠ fd), h.devFds.filter (· ≠ fd)⟩
        else none).bind some = some h' := ha
    rw [Option.bind_fun_some] at hperform
    by_cases hq : q < 0
    · rw [if_pos hq] at hperform
      obtain rfl := Option.some.inj hperform
      exact ⟨rfl, .inr (by simpa [unlinkFails] using hq)⟩
    · rw [if_neg hq] at hperform
      split at hperform
      · obtain rfl := Option.some.inj hperform
        exact ⟨rfl, .inl rfl⟩
      · cases hperform

end

/-! ## Every state reached -/

/-- The descriptors held are open, and without any there is no lock file, unless an `unlink` has failed. -/
structure Session.Inv (x : Session) : Prop where
  opened : ∀ fd ∈ x.held, fd ∈ x.host.lockFds
  unblocked : x.Unblocked

/-- One call: it keeps the invariant if it is sound, and restores just then. -/
theorem Session.Inv.next {x y : Session} (h : x.Inv) {c : Act} (hrun : x.next c = some y) :
    (Sound x c → y.Inv) ∧ (Restores x c y ↔ Sound x c) := by
  cases c with
  | gpioOpen fuel answers =>
    obtain ⟨⟨l, fd, gpio⟩, hplay, hrest⟩ := Option.bind_eq_some_iff.1 hrun
    obtain ⟨host, hafter, hend⟩ := Option.bind_eq_some_iff.1 hrest
    obtain rfl := Option.some.inj hend
    have hsound : Sound x (.gpioOpen fuel answers) ↔ (∀ e ∈ l, fails e = false) ∨
        x.host.lockFile = true := by
      simp [Sound, Act.trace, hplay]
    have hrestores : Restores x (.gpioOpen fuel answers) ⟨host, gpio, if fd < 0 then x.held
        else fd :: x.held, x.stuck⟩ ↔
        (fd = -1 → x.host.lockFile = false → host.lockFile = false ∧ host.lockFds = x.host.lockFds) := by
      simp [Restores, hplay]
    rw [hsound, hrestores]
    rcases open_cases (play_ends hplay) hafter
      with ⟨rfl, rfl, hgood⟩ | ⟨rfl, ⟨n, htook⟩, e, he, hfail⟩ | ⟨hfd, htook, hgood⟩
    · exact ⟨fun _ => ⟨h.opened, h.unblocked⟩, fun _ => .inl hgood, fun _ _ hno => ⟨hno, rfl⟩⟩
    · have hbad : ¬ ∀ e ∈ l, fails e = false := fun hgood => by simp [hgood e he] at hfail
      refine ⟨fun hsound => ⟨fun fd hfd => ?_, fun hstuck hheld => ?_⟩,
        fun hback => ?_, fun hsound _ hno => ?_⟩
      · rw [htook.lockFds]
        exact List.mem_cons_of_mem _ (h.opened fd hfd)
      · have hthere := hsound.resolve_left hbad
        rw [h.unblocked hstuck hheld] at hthere
        cases hthere
      · by_contra hno
        obtain ⟨_, hno⟩ := not_or.1 hno
        have hgone := (hback rfl (by simpa using hno)).1
        rw [htook.lockFile] at hgone
        cases hgone
      · rw [hsound.resolve_left hbad] at hno
        cases hno
    · rw [if_neg (Int.not_lt.2 hfd)]
      refine ⟨fun _ => ⟨fun f hf => ?_, fun _ hheld => by cases hheld⟩,
        fun _ => .inl hgood, fun _ hfail => ?_⟩
      · rw [htook.lockFds]
        rcases List.mem_cons.1 hf with rfl | hf
        · exact List.mem_cons_self
        · exact List.mem_cons_of_mem _ (h.opened f hf)
      · subst hfail
        exact absurd hfd (by decide)
  | gpioClose fd answers =>
    have hclose : (if fd ∈ x.held then _ else none) = some y := hrun
    split at hclose
    · next hheld =>
      obtain ⟨⟨l, r⟩, hplay, hrest⟩ := Option.bind_eq_some_iff.1 hclose
      obtain ⟨host, hafter, hend⟩ := Option.bind_eq_some_iff.1 hrest
      obtain rfl := Option.some.inj hend
      have hsound : Sound x (.gpioClose fd answers) ↔ ∀ e ∈ l, fails e = false := by
        simp [Sound, Act.trace, hplay]
      rw [hsound]
      rcases close_cases (play_ends hplay) hafter with ⟨rfl, e, he, hfail⟩ | ⟨hgood, hfds, hfile⟩
      · have hbad : ¬ ∀ e ∈ l, fails e = false := fun hgood => by simp [hgood e he] at hfail
        exact ⟨fun hgood => absurd hgood hbad, iff_of_false (fun hback => hback (h.opened fd hheld)) hbad⟩
      · refine ⟨fun _ => ⟨fun f hf => ?_, fun hstuck _ => ?_⟩, iff_of_true ?_ hgood⟩
        · obtain ⟨hf, hne⟩ := List.mem_filter.1 hf
          rw [hfds]
          exact List.mem_filter.2 ⟨h.opened f hf, hne⟩
        · obtain ⟨_, hunlinked⟩ := Bool.or_eq_false_iff.1 hstuck
          exact hfile.resolve_right (by simp [hunlinked])
        · show fd ∉ host.lockFds
          rw [hfds]
          simp
    · cases hclose

/-- Along sound calls, no LOCK_FILE is left when every descriptor returned has been closed, unless an
`unlink` has failed; and in a state so reached a call leaves nothing behind if and only if it is sound.
-/
theorem unblocked_of_sound {stale : Bool} {x : Session} (hx : Reaches Session.next Sound (.start stale) x) :
    x.Unblocked ∧ ∀ c y, x.next c = some y → (Restores x c y ↔ Sound x c) := by
  have hinv : x.Inv := by
    apply Reaches.inv hx
    · intro x c y h hsound hrun
      exact (h.next hrun).1 hsound
    · refine ⟨by simp [Session.start], fun hstuck _ => ?_⟩
      exact hstuck
  exact ⟨hinv.unblocked, fun c y hrun => (hinv.next hrun).2⟩

/-- LOCK_FILE cannot be opened; then the GPIO is opened as descriptor 3, and closed. -/
def openAndClose : List Act :=
  [.gpioOpen 1 [0, -1, -1], .gpioOpen 1 [0, -1, 3, 0, 4, 4096, 0], .gpioClose 3 [0, 0, 0]]

/-- Nothing of them is left. -/
theorem unblocked_openAndClose : ∃ x, Reaches Session.next Sound (.start false) x ∧ x.gpio = 4096 ∧
    x.host.lockFile = false := by
  have hrun : ∃ x ∈ replay Session.next Sound openAndClose (.start false), x.gpio = 4096 ∧
      x.stuck = false ∧ x.held = [] := by
    decide +kernel
  obtain ⟨x, hx, hgpio, hstuck, hheld⟩ := hrun
  have hreach : Reaches Session.next Sound (.start false) x := replay_reaches hx
  exact ⟨x, hreach, hgpio, (unblocked_of_sound hreach).1 hstuck hheld⟩

/-- The lock file is created and locked, then GPIO_DEV cannot be opened. -/
def noDevice : Act := .gpioOpen 1 [0, -1, 3, 0, -1]

/-- `fic_gpio_open` returns -1, and LOCK_FILE, which was not there before, stays. -/
theorem open_leaks :
    ∃ x, (Session.start false).next noDevice = some x ∧
      ¬ Restores (.start false) noDevice x ∧ ¬ x.Unblocked := by
  have hrun : ∃ x ∈ (Session.start false).next noDevice, x.host.lockFile = true ∧
      x.stuck = false ∧ x.held = [] ∧ ∃ r ∈ (ficGpioOpen 1 0).play [0, -1, 3, 0, -1], r.2.1 = -1 := by
    decide +kernel
  obtain ⟨x, hx, hfile, hstuck, hheld, r, hr, hfail⟩ := hrun
  refine ⟨x, hx, fun hback => ?_, fun hfree => ?_⟩
  · have hgone := (hback r hr hfail rfl).1
    rw [hfile] at hgone
    cases hgone
  · have hgone := hfree hstuck hheld
    rw [hfile] at hgone
    cases hgone

end Libfic2.GpioLock
