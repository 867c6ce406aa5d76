import Libfic2.PyBoard
import Libfic2.Samples

/-!
# The script `pyficprog.py`

It reads a file, opens the GPIO, programs the FPGA and closes the GPIO again, each by a method of the
wrapper, and says "done" or "ERROR".  Judged by the trace of a run, whatever the file system, the
system calls, the interpreter and the GPIO answer.

* `script_outcome`: "done" means that the lock is back and, with a file of 1 to 2^32 - 1 bytes and a
  mode, that the FPGA has sampled the file and passed the tests; a run in which no system call fails
  gives the lock back, whatever the FPGA does
-/

namespace Libfic2.Py

open Driver Prog
open GpioLock (GpioCall Host Took)

/-! ## The script -/

inductive MapMode | mode8 | mode16
deriving DecidableEq, Repr

/-- The arguments of the command line.  `-m` without a value leaves None. -/
structure Args where
  mode : Option MapMode
  isPartial : Bool
  fast : Bool

/-- The function called. -/
def Args.fn (args : Args) : Option ProgFn := args.mode.map fun mode =>
  match mode, args.fast with
  | .mode8, true => .sm8Fast
  | .mode8, false => .sm8
  | .mode16, true => .sm16Fast
  | .mode16, false => .sm16

/-- `progmode` -/
def Args.pm (args : Args) : ProgMode := if args.isPartial then .pr else .normal

def progmode : ProgMode → Int
  | .normal => 0
  | .pr => 1

def progMethod : ProgFn → Method
  | .sm8 => .progSm8
  | .sm16 => .progSm16
  | .sm8Fast => .progSm8Fast
  | .sm16Fast => .progSm16Fast

/-- "FPGA configuration done", or "ERROR: Something Happened". -/
inductive Said | done | error
deriving DecidableEq, Repr

variable (m : DataModel) (b : Board) (fuel : Nat) (stack : BitVec 32)

/-- `Fic.gpio_open()` -/
def openGpio : H (Outcome × Interp) := Use.run m b fuel ⟨.gpioOpen, fun _ => none, stack⟩ ⟨0, none⟩

/-- `Fic.gpio_close(self.fd_lock)` -/
def closeGpio (fdLock : Int) (x : Interp) : H (Outcome × Interp) :=
  Use.run m b fuel ⟨.gpioClose, fun | .int => some fdLock | _ => none, stack⟩ x

/-- `Fic.prog_..(data=bs, progmode=..)`, for no mode nothing. -/
def progBody (args : Args) (bs : Buffer) (x : Interp) : H (Outcome × Interp) :=
  match args.fn with
  | some f =>
      Use.run m b fuel ⟨progMethod f, fun | .bufInt => some (bs, progmode args.pm) | _ => none, stack⟩ x
  | none => ret (.value .none, x)

/-- `with Opengpio():` closes the GPIO also after an exception, but not when it could not be opened. -/
def withGpio (body : Interp → H (Outcome × Interp)) : H Said := do
  let r ← openGpio m b fuel stack
  match r.1 with
  | .value (.int fdLock) => do
    let o ← body r.2
    let c ← closeGpio m b fuel stack fdLock o.2
    ret (if o.1.isValue && c.1.isValue then .done else .error)
  | _ => ret .error

/-- `open(args.bitfile[0], 'rb')` and `f.read()` -/
def readFile : H (Option Buffer) := call HostOp.readFile

def pyficprog (args : Args) : H Said := do
  let file ← readFile
  match file with
  | none => ret .error
  | some bs => withGpio m b fuel stack (progBody m b fuel stack args bs)

/-! ## Traces -/

abbrev HostEv := Event HostOp HostOp.Answer

/-- The operations on the GPIO. -/
def devs (l : List HostEv) : List Ev := l.filterMap fun
  | ⟨.dev o, a⟩ => some ⟨o, a⟩
  | _ => none

/-- The system calls. -/
def hosts (l : List HostEv) : GpioLock.Trace := l.filterMap fun
  | ⟨.sys c, a⟩ => some ⟨c, a⟩
  | _ => none

theorem devs_append (l l' : List HostEv) : devs (l ++ l') = devs l ++ devs l' := List.filterMap_append ..
theorem hosts_append (l l' : List HostEv) : hosts (l ++ l') = hosts l ++ hosts l' :=
  List.filterMap_append ..

section
variable {m b fuel stack} {α : Type} {l : List HostEv}

theorem ends_onBoard {p : P α} {a : α} (h : Ends (onBoard p) l a) : Ends p (devs l) a ∧ hosts l = [] := by
  obtain ⟨l', rfl, h'⟩ := ends_lift.1 h
  constructor
  · have hall : devs (l'.map fun e => (⟨.dev e.1, e.2⟩ : HostEv)) = l' := by
      unfold devs
      rw [List.filterMap_map]
      exact List.filterMap_some
    exact hall.symm ▸ h'
  · unfold hosts
    rw [List.filterMap_map]
    exact List.filterMap_eq_nil_iff.2 fun _ _ => rfl

theorem ends_onHost {p : GpioLock.G α} {a : α} (h : Ends (onHost p) l a) :
    Ends p (hosts l) a ∧ devs l = [] := by
  obtain ⟨l', rfl, h'⟩ := ends_lift.1 h
  constructor
  · have hall : hosts (l'.map fun e => (⟨.sys e.1, e.2⟩ : HostEv)) = l' := by
      unfold hosts
      rw [List.filterMap_map]
      exact List.filterMap_some
    exact hall.symm ▸ h'
  · unfold devs
    rw [List.filterMap_map]
    exact List.filterMap_eq_nil_iff.2 fun _ _ => rfl

/-- An allocation fails. -/
abbrev noObject : HostEv := ⟨.object, false⟩

variable {x y : Interp} {o : Outcome}

/-- The end of a method that makes an object. -/
theorem ends_valueEnd {v : Value} (hx : x.raised = none)
    (h : Ends (x.made >>=
      fun r => ret (Outcome.of (if r.1 then some v else none) r.2.raised, { r.2 with raised := none })) l
      (o, y)) :
    devs l = [] ∧ hosts l = [] ∧ y = ⟨x.gpio, none⟩ ∧
    (o = .value v ∨ o = .raised .memory ∧ noObject ∈ l) := by
  obtain ⟨ok, l', rfl, hend⟩ := h
  cases ok with
  | true =>
    obtain ⟨rfl, heq⟩ :=
      (show l' = [] ∧ (o, y) = (Outcome.of (some v) x.raised, { x with raised := none }) from hend)
    obtain ⟨rfl, rfl⟩ := Prod.mk.inj heq
    refine ⟨rfl, rfl, rfl, .inl ?_⟩
    rw [hx]
    rfl
  | false =>
    obtain ⟨rfl, heq⟩ := (show l' = [] ∧ (o, y) = (.raised .memory, { x with raised := none }) from hend)
    obtain ⟨rfl, rfl⟩ := Prod.mk.inj heq
    exact ⟨rfl, rfl, rfl, .inr ⟨rfl, List.mem_cons_self⟩⟩

/-- A method that tests the answer of the library. -/
theorem ends_tested {given : Given} {c : LibCall} (failed : c.Answer → Prop) [DecidablePred failed]
    {v : c.Answer → Value} (hx : x.raised = none)
    (h : Ends ((invoke (lib c >>= fun r => if failed r then ret none else buildValue (v r))).handle
      (Call.below b fuel given) x) l (o, y)) :
    ∃ r l1, Ends (c.below b fuel x.gpio) l1 (r, y.gpio) ∧ devs l = devs l1 ∧
      hosts l = hosts l1 ∧ y.raised = none ∧
      ((failed r ∧ o = .systemError) ∨
      (¬ failed r ∧ (o = .value (v r) ∨ o = .raised .memory ∧ noObject ∈ l))) := by
  rw [handle_invoke, handle_lib, bind_assoc] at h
  obtain ⟨⟨r, gpio⟩, l1, l2, rfl, hlib, hend⟩ := ends_bind.1 h
  refine ⟨r, l1, ?_⟩
  by_cases hr : failed r
  · rw [if_pos hr] at hend
    obtain ⟨rfl, heq⟩ := hend
    obtain ⟨rfl, rfl⟩ := Prod.mk.inj heq
    rw [List.append_nil]
    refine ⟨hlib, rfl, rfl, rfl, .inl ⟨hr, ?_⟩⟩
    show Outcome.of none x.raised = _
    rw [hx]
    rfl
  · rw [if_neg hr] at hend
    obtain ⟨hdevs, hhosts, rfl, hout⟩ := ends_valueEnd (x := ⟨gpio, x.raised⟩) (v := v r) hx hend
    refine ⟨hlib, ?_, ?_, rfl, .inr ⟨hr, hout.imp_right fun h => ⟨h.1, List.mem_append_right _ h.2⟩⟩⟩
    · rw [devs_append, hdevs, List.append_nil]
    · rw [hosts_append, hhosts, List.append_nil]

/-- The descriptor is returned if `fic_gpio_open` has one and the object can be made. -/
theorem ends_openGpio (h : Ends (openGpio m b fuel stack) l (o, y)) :
    ∃ fd, Ends (GpioLock.ficGpioOpen fuel 0) (hosts l) (fd, y.gpio) ∧
      devs l = [] ∧ y.raised = none ∧
      ((fd < 0 ∧ o = .systemError) ∨
      (0 ≤ fd ∧ (o = .value (.int fd) ∨ o = .raised .memory ∧ noObject ∈ l))) := by
  obtain ⟨fd, l1, hlib, hdevs, hhosts, hy, hout⟩ := ends_tested (c := .ficGpioOpen) (· < 0) rfl h
  obtain ⟨hopen, hnone⟩ := ends_onHost hlib
  exact ⟨fd, hhosts ▸ hopen, hdevs.trans hnone, hy, hout.imp_right fun h => ⟨Int.not_lt.1 h.1, h.2⟩⟩

/-- `fic_gpio_close` succeeds if there is a value. -/
theorem ends_closeGpio {fd : Int} (hx : x.raised = none)
    (h : Ends (closeGpio m b fuel stack fd x) l (o, y)) :
    ∃ r, Ends (GpioLock.ficGpioClose x.gpio fd) (hosts l) r ∧ devs l = [] ∧
      ((r < 0 ∧ o = .systemError) ∨ (0 ≤ r ∧ (o = .value .none ∨ o = .raised .memory ∧ noObject ∈ l))) := by
  unfold closeGpio Use.run at h
  rw [handle_invoke] at h
  change Ends ((parsed .int _).handle _ x >>= _) l _ at h
  rw [handle_parsed rfl, ← handle_invoke] at h
  obtain ⟨r, l1, hlib, hdevs, hhosts, -, hout⟩ := ends_tested (c := .ficGpioClose fd) (· < 0) hx h
  obtain ⟨r', l2, l3, rfl, hclose, hend⟩ := ends_bind.1 hlib
  obtain ⟨rfl, heq⟩ := hend
  obtain ⟨rfl, -⟩ := Prod.mk.inj heq
  rw [List.append_nil] at hdevs hhosts
  obtain ⟨hclose, hnone⟩ := ends_onHost hclose
  exact ⟨_, hhosts ▸ hclose, hdevs.trans hnone, hout.imp_right fun h => ⟨Int.not_lt.1 h.1, h.2⟩⟩

theorem below_ficProg (f : ProgFn) (data : Mem) (size : Nat) (pm : ProgMode) (gpio : Int) :
    (LibCall.ficProg f data size (progmode pm)).below b fuel gpio =
      kept gpio (f.prog b fuel data size pm) := by
  cases pm with
  | normal => rfl
  | pr => rfl

/-- A shortfall is an exception. -/
theorem ends_progBody {args : Args} {f : ProgFn} {bs : Buffer}
    (hf : args.fn = some f) (hx : x.raised = none)
    (h : Ends (progBody m b fuel stack args bs x) l (o, y)) :
    ∃ n, Ends (f.prog b fuel bs.buf bs.len args.pm) (devs l) n ∧ hosts l = [] ∧ y = x ∧
      ((fallsShort m f n bs.len = true ∧ o = .systemError) ∨
        (fallsShort m f n bs.len = false ∧ (o.isValue = true ∨ o = .raised .memory ∧ noObject ∈ l))) := by
  unfold progBody at h
  rw [hf] at h
  dsimp only at h
  unfold Use.run at h
  have hentry : (progMethod f).entry m stack = pyFicProg m f := by cases f <;> rfl
  rw [hentry, handle_invoke] at h
  change Ends ((parsedBuffer .bufInt _).handle _ x >>= _) l _ at h
  rw [handle_parsedBuffer (a := (bs, progmode args.pm)) rfl, ← handle_invoke] at h
  obtain ⟨n, l1, hlib, hdevs, hhosts, hy, hout⟩ :=
    ends_tested (c := .ficProg f bs.buf bs.len (progmode args.pm))
    (fun n => fallsShort m f n bs.len = true) (v := fun n => .int (n % 2 ^ 32 : Nat)) hx h
  rw [below_ficProg] at hlib
  obtain ⟨n', l2, l3, rfl, hprog, hend⟩ := ends_bind.1 hlib
  obtain ⟨rfl, heq⟩ := hend
  obtain ⟨rfl, hgpio⟩ := Prod.mk.inj heq
  rw [List.append_nil] at hdevs hhosts
  obtain ⟨hprog, hnone⟩ := ends_onBoard hprog
  refine ⟨_, hdevs ▸ hprog, hhosts.trans hnone, ?_, ?_⟩
  · obtain ⟨gpio, raised⟩ := x
    obtain ⟨gpio', raised'⟩ := y
    obtain rfl : raised = none := hx
    obtain rfl : raised' = none := hy
    obtain rfl : gpio' = gpio := hgpio
    rfl
  · rcases hout with hout | ⟨hr, hval⟩
    · exact .inl hout
    · refine .inr ⟨Bool.not_eq_true _ ▸ hr, hval.imp_left ?_⟩
      rintro rfl
      rfl

/-- A call that answers more than 0 has configured the FPGA; all pins are inputs after any call. -/
theorem prog_configures {f : ProgFn} {data : Mem} {size n : Nat} {pm : ProgMode} {l : List Ev}
    (h : Ends (f.prog b fuel data size pm) l n) :
    (∀ g : Gpio, (g.after l).AllInput) ∧ (0 < n → Configured b fuel f data size pm l n) := by
  obtain ⟨l1, l2, st, rfl, hend, hexit⟩ := ends_prog f h
  refine ⟨fun g => ?_, fun hn => ?_⟩
  · rw [Gpio.after_append]
    exact (ends_progEnd hend _ World.start.stat).2.1
  · rcases hexit with ⟨-, rfl⟩ | ⟨-, hconf⟩
    · exact absurd hn (by decide)
    · exact hconf

/-- `fic_gpio_close` answers 0 after `munmap` and `unlink` have succeeded. -/
theorem close_succeeds {gpio fd r : Int} {l : GpioLock.Trace}
    (h : Ends (GpioLock.ficGpioClose gpio fd) l r) (hr : 0 ≤ r) :
    (∀ e ∈ l, GpioLock.fails e = false) ∧ l.any GpioLock.unlinkFails = false := by
  obtain ⟨a, l1, rfl, hunmap⟩ := ends_callBind.1 h
  by_cases ha : a < 0
  · rw [if_pos ha] at hunmap
    obtain ⟨-, rfl⟩ := hunmap
    exact absurd hr (by decide)
  · rw [if_neg ha] at hunmap
    obtain ⟨u, l2, l3, rfl, hembed, hend⟩ := ends_bind.1 hunmap
    obtain ⟨l4, rfl, hunlock⟩ := ends_embed.1 hembed
    obtain ⟨c, l5, rfl, hclose⟩ := ends_callBind.1 hunlock
    obtain ⟨q, l6, rfl, hunlink⟩ := ends_callBind.1 hclose
    obtain rfl := ends_answers hunlink
    obtain rfl := ends_answers hend
    by_cases hq : q < 0
    · rw [if_pos hq] at hunlink
      obtain ⟨-, rfl⟩ := hunlink
      obtain ⟨-, rfl⟩ := (show _ ∧ r = -1 from hend)
      exact absurd hr (by decide)
    · exact ⟨by simpa [GpioLock.fails] using ha, by simpa [GpioLock.unlinkFails] using hq⟩

/-- What a run of the script has done: `h` and `h'` are the locks before and after it. -/
structure Scripted (m : DataModel) (b : Board) (fuel : Nat) (args : Args) (l : List HostEv)
    (said : Said) (h h' : Host) : Prop where
  allInput : devs l = [] ∨ ∀ g : Gpio, (g.after (devs l)).AllInput
  fromFile : devs l ≠ [] → ∃ f bs n, args.fn = some f ∧ (⟨.readFile, some bs⟩ : HostEv) ∈ l ∧
    Ends (f.prog b fuel bs.buf bs.len args.pm) (devs l) n
  done : said = .done → h'.lockFile = false ∧ h'.lockFds = h.lockFds ∧
    ∃ bs, (⟨.readFile, some bs⟩ : HostEv) ∈ l ∧
    ∀ f, args.fn = some f → 0 < bs.len → bs.len < 2 ^ 32 →
    (∃ n, Configured b fuel f bs.buf bs.len args.pm (devs l) n) ∧
      ((f.lanes = 16 → bs.len % 2 = 0) →
      ∀ float g, f.words bs.buf bs.len <+: samples float f.lanes g (devs l))
  returned : (∀ e ∈ hosts l, GpioLock.fails e = false) → noObject ∉ l →
    h' = h ∨ (h'.lockFds = h.lockFds ∧ (h'.lockFile = false ∨ (hosts l).any GpioLock.unlinkFails = true))

/-- The body: nothing, or a call of a programming function. -/
theorem ends_body {args : Args} {bs : Buffer} (hx : x.raised = none)
    (h : Ends (progBody m b fuel stack args bs x) l (o, y)) :
    hosts l = [] ∧ y = x ∧ ((args.fn = none ∧ devs l = []) ∨ ∃ f n, args.fn = some f ∧
      Ends (f.prog b fuel bs.buf bs.len args.pm) (devs l) n ∧
      (o.isValue = true → fallsShort m f n bs.len = false)) := by
  cases hf : args.fn with
  | none =>
    unfold progBody at h
    rw [hf] at h
    obtain ⟨rfl, heq⟩ := h
    exact ⟨rfl, congrArg Prod.snd heq, .inl ⟨rfl, rfl⟩⟩
  | some f =>
    obtain ⟨n, hprog, hhosts, hy, hout⟩ := ends_progBody hf hx h
    refine ⟨hhosts, hy, .inr ⟨f, n, rfl, hprog, fun hval => ?_⟩⟩
    rcases hout with ⟨-, rfl⟩ | ⟨hshort, -⟩
    · cases hval
    · exact hshort

/-- An answer that is no shortfall. -/
theorem pos_of_long {f : ProgFn} {size n : Nat} (hshort : fallsShort m f n size = false)
    (hpos : 0 < size) (hsize : size < 2 ^ 32) : 0 < n := by
  refine Nat.pos_of_ne_zero ?_
  rintro rfl
  have hmod : size % 2 ^ 32 = size := Nat.mod_eq_of_lt hsize
  have hall : fallsShort m f 0 size = true := by
    unfold fallsShort
    split
    · simpa using hpos
    · simpa using hpos
    · rw [hmod]
      simpa using hpos
  rw [hall] at hshort
  cases hshort

/-- The statement `with Opengpio():` after `__enter__`. -/
theorem ends_withBody {args : Args} {bs : Buffer} {fd : Int} {said : Said} (hx : x.raised = none)
    (h : Ends (progBody m b fuel stack args bs x >>= fun o => closeGpio m b fuel stack fd o.2 >>= fun c =>
      ret (if o.1.isValue && c.1.isValue then .done else .error)) l said) :
    ∃ r, Ends (GpioLock.ficGpioClose x.gpio fd) (hosts l) r ∧ (said = .done → 0 ≤ r) ∧
      ((args.fn = none ∧ devs l = []) ∨ ∃ f n, args.fn = some f ∧
      Ends (f.prog b fuel bs.buf bs.len args.pm) (devs l) n ∧
        (said = .done → fallsShort m f n bs.len = false)) := by
  obtain ⟨⟨o, y⟩, l1, l2, rfl, hbody, hrest⟩ := ends_bind.1 h
  obtain ⟨⟨c, z⟩, l3, l4, rfl, hclose, hend⟩ := ends_bind.1 hrest
  obtain ⟨rfl, rfl⟩ := hend
  obtain ⟨hnone, rfl, hprog⟩ := ends_body hx hbody
  obtain ⟨r, hclosed, hnone', hout⟩ := ends_closeGpio hx hclose
  have hdone : (if o.isValue && c.isValue then Said.done else .error) = .done →
      o.isValue = true ∧ c.isValue = true := by
    intro hd
    split at hd
    next hboth => exact Bool.and_eq_true_iff.1 hboth
    next => cases hd
  rw [List.append_nil, hosts_append, hnone, devs_append, hnone', List.append_nil]
  refine ⟨r, hclosed, fun hd => ?_, hprog.imp_right ?_⟩
  · rcases hout with ⟨-, rfl⟩ | ⟨hr, -⟩
    · cases (hdone hd).2
    · exact hr
  · rintro ⟨f, n, hf, hprog, hshort⟩
    exact ⟨f, n, hf, hprog, fun hd => hshort (hdone hd).1⟩

/-- **A run of the script.** -/
theorem script_outcome (args : Args) {said : Said} {h h' : Host}
    (hl : Ends (pyficprog m b fuel stack args) l said) (hh : h.after (hosts l) = some h') :
    Scripted m b fuel args l said h h' := by
  unfold pyficprog readFile at hl
  obtain ⟨file, l1, rfl, hwith⟩ := ends_callBind.1 hl
  cases file with
  | none =>
    obtain ⟨rfl, rfl⟩ := hwith
    exact ⟨.inl rfl, fun hne => absurd rfl hne, fun hd => (by cases hd),
      fun _ _ => .inl (Option.some.inj hh).symm⟩
  | some bs =>
    obtain ⟨⟨o, x⟩, l2, l3, rfl, hopen, hrest⟩ := ends_bind.1 hwith
    obtain ⟨fd, hopened, hdevs, hx, hout⟩ := ends_openGpio hopen
    have hread : (⟨.readFile, some bs⟩ : HostEv) ∈ (⟨.readFile, some bs⟩ :: (l2 ++ l3) : List HostEv) :=
      List.mem_cons_self
    have hhosts : hosts (⟨.readFile, some bs⟩ :: (l2 ++ l3)) = hosts l2 ++ hosts l3 := hosts_append l2 l3
    have hdev : devs (⟨.readFile, some bs⟩ :: (l2 ++ l3)) = devs l3 :=
      (devs_append l2 l3).trans (by rw [hdevs, List.nil_append])
    rw [hhosts, GpioLock.after_append] at hh
    obtain ⟨h1, hh1, hh2⟩ := Option.bind_eq_some_iff.1 hh
    have unopened : l3 = [] ∧ said = .error → (¬ noObject ∈ l2 → 0 ≤ fd → False) →
        Scripted m b fuel args (⟨.readFile, some bs⟩ :: (l2 ++ l3)) said h h' := by
      rintro ⟨rfl, rfl⟩ hno
      obtain rfl : h1 = h' := Option.some.inj hh2
      refine ⟨.inl hdev, fun hne => absurd hdev hne, fun hd => (by cases hd), fun hgood hobj => ?_⟩
      rcases GpioLock.open_cases hopened hh1 with ⟨-, hsame, -⟩ | ⟨-, -, e, he, hbad⟩ | ⟨hfd, -, -⟩
      · exact .inl hsame
      · rw [hgood e (hhosts ▸ List.mem_append_left _ he)] at hbad
        cases hbad
      · exact (hno (fun hmem => hobj (List.mem_cons_of_mem _ (List.mem_append_left _ hmem))) hfd).elim
    rcases hout with ⟨hfd, rfl⟩ | ⟨hfd, rfl | ⟨rfl, hmem⟩⟩
    · exact unopened hrest fun _ hpos => absurd hpos (Int.not_le.2 hfd)
    · obtain ⟨r, hclosed, hpos, hprog⟩ := ends_withBody hx hrest
      have htook : Took h h1 fd := by
        rcases GpioLock.open_cases hopened hh1 with ⟨rfl, -, -⟩ | ⟨rfl, -, -⟩ | ⟨-, htook, -⟩
        · exact absurd hfd (by decide)
        · exact absurd hfd (by decide)
        · exact htook
      have hback : h1.lockFds.filter (· ≠ fd) = h.lockFds := by
        rw [htook.lockFds, List.filter_cons_of_neg (by simp)]
        exact List.filter_eq_self.2 fun n hn => by simpa using fun heq : n = fd => htook.fresh (heq ▸ hn)
      refine ⟨?_, fun hne => ?_, fun hd => ?_, fun hgood _ => ?_⟩
      · rw [hdev]
        rcases hprog with ⟨-, hnone⟩ | ⟨f, n, -, hprog, -⟩
        · exact .inl hnone
        · exact .inr (prog_configures hprog).1
      · rw [hdev] at hne ⊢
        rcases hprog with ⟨-, hnone⟩ | ⟨f, n, hf, hprog, -⟩
        · exact absurd hnone hne
        · exact ⟨f, bs, n, hf, hread, hprog⟩
      · obtain ⟨hgood, hunlinked⟩ := close_succeeds hclosed (hpos hd)
        rcases GpioLock.close_cases hclosed hh2 with ⟨-, e, he, hbad⟩ | ⟨-, hfds, hfile⟩
        · rw [hgood e he] at hbad
          cases hbad
        · refine ⟨hfile.resolve_right (by rw [hunlinked]; exact Bool.false_ne_true), hfds.trans hback,
            bs, hread, fun f hf hlen hsize => ?_⟩
          rcases hprog with ⟨hno, -⟩ | ⟨f', n, hf', hprog, hshort⟩
          · rw [hno] at hf
            cases hf
          · obtain rfl : f' = f := Option.some.inj (hf'.symm.trans hf)
            rw [hdev]
            have hn := pos_of_long (hshort hd) hlen hsize
            exact ⟨⟨n, (prog_configures hprog).2 hn⟩,
              fun heven float g => prog_samples b fuel f' heven hprog hn g⟩
      · rw [hhosts] at hgood ⊢
        rcases GpioLock.close_cases hclosed hh2 with ⟨-, e, he, hbad⟩ | ⟨-, hfds, hfile⟩
        · rw [hgood e (List.mem_append_right _ he)] at hbad
          cases hbad
        · refine .inr ⟨hfds.trans hback, hfile.imp_right fun hany => ?_⟩
          rw [List.any_append, hany, Bool.or_true]
    · exact unopened hrest fun hno _ => hno hmem

end

/-! ## A file of one byte -/

/-- No system call fails. -/
def calmSys : GpioCall → Int
  | .lock .stat => -1
  | .lock .openLock => 3
  | .openDev => 4
  | .mmap _ => 4096
  | _ => 0

def calmAnswer : (o : HostOp) → World Unit → o.Answer × World Unit
  | .dev o, s => passiveAnswer o s
  | .malloc _, s => (some fun _ => 0#8, s)
  | .object, s => (true, s)
  | .sys c, s => (calmSys c, s)
  | .lib c, s => (c.given, s)
  | .readFile, s => (some ⟨fun _ => 1#8, 1⟩, s)

/-- `pyficprog.py -pr`, with INIT and DONE as the output latch has them. -/
theorem script_outcome_one : ∃ l h', Ends (pyficprog .lp64 .mk1 1 0#32 ⟨some .mode8, true, false⟩) l .done ∧
    (⟨false, [], []⟩ : Host).after (hosts l) = some h' ∧
    Scripted .lp64 .mk1 1 ⟨some .mode8, true, false⟩ l .done ⟨false, [], []⟩ h' := by
  let p := pyficprog .lp64 .mk1 1 0#32 ⟨some .mode8, true, false⟩
  have hrun : (Sys.follow calmAnswer 500 p World.initHigh).1.answer? = some .done := by decide +kernel
  have hafter : ((⟨false, [], []⟩ : Host).after
      (hosts (p.trace calmAnswer 500 World.initHigh))).isSome = true := by decide +kernel
  obtain ⟨h', hh⟩ := Option.isSome_iff_exists.1 hafter
  exact ⟨_, h', trace_ends hrun, hh, script_outcome _ (trace_ends hrun) hh⟩

end Libfic2.Py
