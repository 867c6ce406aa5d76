import Libfic2.SelectMap

/-!
# Programming in the background: `fic_prog_sm8_async` and `fic_prog_sm16_async`

A start copies its bitstream to a buffer, leaves buffer, size and mode in the global
`PROG_STAT`, and creates a worker; the worker takes them from there, calls the
programming function, and frees what `PROG_STAT.prog_data` then points to.

Any number of starts, one for each `i : ι`, run with their workers one statement a step
(`State.Step`).  Of the programming function each operation is a step, answered in any
way; only what it stores in `PROG_STAT` is kept.  `Shared.live` and `Shared.freed` record
whose buffers are allocated and what each worker has released, `Shared.entered` what each
worker has called the programming function with.
-/

namespace Libfic2.Async

open Driver Prog

/-! ## The functions -/

/-- The arguments of a start; `smap` tells the two functions apart. -/
structure Job where
  smap : ProgSmapMode
  data : Mem
  size : Nat
  pm : ProgMode

/-- Statements of a start and of its worker, and the operations of the programming function. -/
inductive Act
  | malloc (size : Nat)
  | memcpy (dst : Nat) (src : Mem) (size : Nat)
  | storeStat (st : ProgStatus)
  | storeData (p : Option Nat)
  | storeSize (size : Nat)
  | storeMode (pm : ProgMode)
  | pthreadCreate
  | loadData
  | loadSize
  | loadMode
  | enter (smap : ProgSmapMode) (p : Option Nat) (size : Nat) (pm : ProgMode)
  | gpio (o : Op)
  | freeData

/-- Addresses are numbers, and `none` is NULL.  `enter`, the call of the programming function, answers
the memory from its pointer on. -/
@[reducible] def Answer : Act → Type
  | .malloc _ => Option Nat
  | .pthreadCreate => Int
  | .loadData => Option Nat
  | .loadSize => Nat
  | .loadMode => ProgMode
  | .enter _ _ _ _ => Mem
  | .gpio o => Ans o
  | _ => Unit

abbrev A (α : Type) := Prog Act Answer α

/-- One statement. -/
abbrev act (o : Act) : A (Answer o) := call o

/-- The operations of the library as steps of a worker. -/
def lift {α : Type} : P α → A α
  | ret a => ret a
  | op o k => op (.gpio o) fun a => lift (k a)
  | hang => hang

def startCreate : A Int := do
  let r ← act .pthreadCreate
  if r ≠ 0 then ret (-1) else ret 0

/-- The part of a start after `malloc`. -/
def startCopy (j : Job) (buf : Nat) : A Int := do
  act (.memcpy buf j.data j.size)
  act (.storeData (some buf))
  act (.storeSize j.size)
  act (.storeMode j.pm)
  startCreate

/-- What a start does without memory. -/
def startFail : A Int := do
  act (.storeStat .fail)
  ret (-1)

def ficProgSmAsync (j : Job) : A Int := do
  let buf ← act (.malloc j.size)
  match buf with
  | none => startFail
  | some a => startCopy j a

def ficProgSm8Async (data : Mem) (size : Nat) (pm : ProgMode) : A Int :=
  ficProgSmAsync ⟨.smap8, data, size, pm⟩
def ficProgSm16Async (data : Mem) (size : Nat) (pm : ProgMode) : A Int :=
  ficProgSmAsync ⟨.smap16, data, size, pm⟩

variable (b : Board) (fuel : Nat)

/-- `fic_prog_sm8` or `fic_prog_sm16`. -/
def ficProgSm (smap : ProgSmapMode) (data : Mem) (size : Nat) (pm : ProgMode) : P Nat :=
  match smap with
  | .smap8 => ficProgSm8 b fuel data size pm
  | .smap16 => ficProgSm16 b fuel data size pm

/-- The end of a worker: `free(PROG_STAT.prog_data); PROG_STAT.prog_data = NULL;` -/
def wrapEnd : A Unit := do
  act .freeData
  act (.storeData none)

/-- The programming function and what follows it. -/
def wrapRun (p : P Nat) : A Unit := lift p >>= fun _ => wrapEnd

/-- `_fic_prog_sm8_async_wrap` and `_fic_prog_sm16_async_wrap`. -/
def ficProgSmAsyncWrap (smap : ProgSmapMode) : A Unit := do
  let p ← act .loadData
  let size ← act .loadSize
  let pm ← act .loadMode
  let data ← act (.enter smap p size pm)
  wrapRun (ficProgSm b fuel smap data size pm)

/-! ## Steps -/

variable {ι : Type} [DecidableEq ι]

/-- What a worker has called the programming function with. -/
structure Entry where
  smap : ProgSmapMode
  addr : Option Nat
  data : Mem
  size : Nat
  pm : ProgMode

/-- `PROG_STAT` (`prog_data` apart from the rest), the memory, and the history: whose buffer an
address is, the buffers each worker has freed, and what it has entered the programming function with. -/
structure Shared (ι : Type) where
  stat : ProgStat
  progData : Option Nat
  mem : Nat → Mem
  live : Nat → Option ι
  freed : ι → List (Option ι)
  entered : ι → Option Entry

/-- What a statement of start `i` or its worker may answer, and what it does. -/
def Shared.perform (s : Shared ι) (i : ι) : (o : Act) → Answer o → Shared ι → Prop
  | .malloc _, none, s' => s' = s
  | .malloc _, some a, s' => s.live a = none ∧ s' = { s with live := Function.update s.live a (some i) }
  | .memcpy dst src size, _, s' =>
    s' = { s with mem := Function.update s.mem dst fun k => if k < size then src k else s.mem dst k }
  | .storeStat st, _, s' => s' = { s with stat := { s.stat with stat := st } }
  | .storeData p, _, s' => s' = { s with progData := p }
  | .storeSize size, _, s' => s' = { s with stat := { s.stat with progSize := size } }
  | .storeMode pm, _, s' => s' = { s with stat := { s.stat with progMode := pm } }
  | .pthreadCreate, _, s' => s' = s
  | .loadData, a, s' => a = s.progData ∧ s' = s
  | .loadSize, a, s' => a = s.stat.progSize ∧ s' = s
  | .loadMode, a, s' => a = s.stat.progMode ∧ s' = s
  | .enter smap p size pm, data, s' =>
    (∀ a, p = some a → data = s.mem a) ∧
      s' = { s with entered := Function.update s.entered i (some ⟨smap, p, data, size, pm⟩) }
  | .gpio (.stat f), _, s' => s' = { s with stat := f s.stat }
  | .gpio _, _, s' => s' = s
  | .freeData, _, s' =>
    match s.progData with
    | none => s' = s
    | some a => s' = { s with
        live := Function.update s.live a none
        freed := Function.update s.freed i (s.live a :: s.freed i) }

/-- The rest of each start, of each worker that has been created, and what they share. -/
structure State (ι : Type) where
  caller : ι → A Int
  worker : ι → Option (A Unit)
  shared : Shared ι

/-- Nobody has started, `PROG_STAT` is as initialised, and no buffer is allocated. -/
def State.start (jobs : ι → Job) : State ι where
  caller i := ficProgSmAsync (jobs i)
  worker _ := none
  shared :=
    ⟨⟨.init, .smap8, .normal, 0, 0, 0, 0⟩, none, fun _ _ => 0#8, fun _ => none, fun _ => [], fun _ => none⟩

/-- The worker that `pthread_create` makes. -/
def created (smap : ProgSmapMode) : (o : Act) → Answer o → Option (A Unit) → Option (A Unit)
  | .pthreadCreate, a, w => if a = 0 then some (ficProgSmAsyncWrap b fuel smap) else w
  | _, _, w => w

/-- A condition on a step: the state before, who takes it, the statement and its answer. -/
abbrev Cond (ι : Type) := State ι → ι → (o : Act) → Answer o → Prop

/-- One step of a start or of a worker. -/
inductive State.Step (jobs : ι → Job) (C : Cond ι) : State ι → State ι → Prop
  | caller {s : State ι} {i : ι} {o : Act} {k : Answer o → A Int} {a : Answer o} {sh : Shared ι} :
      s.caller i = op o k → C s i o a → s.shared.perform i o a sh →
      State.Step jobs C s ⟨Function.update s.caller i (k a),
        Function.update s.worker i (created b fuel (jobs i).smap o a (s.worker i)), sh⟩
  | worker {s : State ι} {i : ι} {o : Act} {k : Answer o → A Unit} {a : Answer o} {sh : Shared ι} :
      s.worker i = some (op o k) → C s i o a → s.shared.perform i o a sh →
      State.Step jobs C s ⟨s.caller, Function.update s.worker i (some (k a)), sh⟩

/-- Any order of steps that meet `C`. -/
def Reached (jobs : ι → Job) (C : Cond ι) : State ι → Prop :=
  Relation.ReflTransGen (State.Step b fuel jobs C) (State.start jobs)

/-! ## Where a start and its worker are -/

/-- The worker has left the programming function. -/
def leftProgramming : A Unit → Bool
  | op .freeData _ => true
  | op (.storeData _) _ => true
  | ret _ => true
  | _ => false

/-- The start stores its arguments, or waits for `pthread_create`. -/
def fillsRecord : A Int → Bool
  | op (.storeSize _) _ => true
  | op (.storeMode _) _ => true
  | op .pthreadCreate _ => true
  | _ => false

/-- The first statement of a start. -/
def mallocs : Act → Bool
  | .malloc _ => true
  | _ => false

/-- A worker that has not ended. -/
def running : Option (A Unit) → Bool
  | some (ret _) => false
  | some _ => true
  | none => false

/-- `PROG_STAT` holds the arguments of start `i`, from its first store to the end of its worker. -/
def State.InUse (s : State ι) (i : ι) : Prop :=
  fillsRecord (s.caller i) = true ∨ running (s.worker i) = true

end Libfic2.Async
