import Libfic2.CTypes
import Libfic2.Driver.Events
import Libfic2.Heap.Linked

/-!
# The allocator for device memory: `mmalloc.c`

The entries form a doubly linked list behind the sentinel `info.ent`; `mmalloc` walks
it with a candidate offset and maps the area it has found.  What `malloc` and `mmap`
answer is up to the system (`Answers`).  A call that follows a pointer to nowhere, or
walks in a cycle, has no result.

A `Session` runs calls and remembers the size that was requested for each entry; `Reached` is
any sequence of calls.
-/

namespace Libfic2.Mmalloc

open Driver Linked

def mmallocBlockSize : Nat := 4096

/-! ## Data -/

variable (m : DataModel)

/-- `void *`; NULL is 0. -/
abbrev Ptr := BitVec m.sizeBits

/-- MAP_FAILED -/
def mapFailed : Ptr m := BitVec.allOnes m.sizeBits

/-- A `mmallocEnt` but for `prev` and `next`. -/
structure Ent where
  ptr : Ptr m
  pAddr : Int
  pSize : Nat
deriving DecidableEq, Repr

structure MmallocInfo where
  mmapFd : Int
  offset : Int
  areaSize : Nat
  ent : Option Ref

/-- A mapping of the file. -/
structure Mapping where
  ptr : Ptr m
  length : Nat
  offset : Int
deriving DecidableEq, Repr

/-- The global `info`, the heap, and the mappings made. -/
structure State where
  info : MmallocInfo
  heap : Heap (Ent m)
  maps : List (Mapping m)

/-- Before `mmallocInit`. -/
def State.start : State m := ⟨⟨0, 0, 0, none⟩, ∅, []⟩

/-- `malloc` answers NULL or a cell that holds anything, `mmap` an address or MAP_FAILED. -/
structure Answers where
  malloc : Option (Ref × Cell (Ent m))
  mmap : Ptr m

/-! ## The functions -/

variable {m}

/-- `fd` is what `open` answers. -/
def mmallocInit (st : State m) (fd offset : Int) (size : Nat) (malloc : Option (Ref × Cell (Ent m))) :
    Option (Int × State m) :=
  if fd < 0 then some (fd, st)
  else do
    let (r, junk) ← malloc
    some (0, { st with
      info := ⟨fd, offset, size, some r⟩
      heap := st.heap.insert r ⟨junk.val, none, none⟩ })

/-- The request rounded up to blocks, as a `size_t`. -/
def blockBytes (size : Ptr m) : Nat :=
  (size.toNat / mmallocBlockSize + 1) * mmallocBlockSize % 2 ^ m.sizeBits

/-- `free_size` -/
def freeSize (size : Ptr m) : Int := offT (blockBytes size)

/-- Find an allocatable area: `ent_prev`, `ent` and `free_offset` behind the loop. -/
def search (fs : Int) (h : Heap (Ent m)) : Nat → Ref → Option Ref → Int → Option (Ref × Option Ref × Int)
  | _, prev, none, fo => some (prev, none, fo)
  | 0, _, some _, _ => none
  | n + 1, prev, some ent, fo => do
    let c ← h.lookup ent
    let st := c.val.pAddr
    let ed := offT (st + c.val.pSize)
    if fo ≥ st then search fs h n ent c.next (offT (ed + mmallocBlockSize))
    else if offT (fo + fs) < st then some (prev, some ent, fo)
    else search fs h n ent c.next fo

/-- `(free_offset + free_size) > (info.offset + info.area_size)`: unsigned on LP64. -/
def exceeds (m : DataModel) (info : MmallocInfo) (fo fs : Int) : Bool :=
  match m with
  | .ilp32 => offT (fo + fs) > offT (info.offset + info.areaSize)
  | .lp64 => (fo + fs) % 2 ^ 64 > (info.offset + info.areaSize) % 2 ^ 64

/-- The offset where the search stops. -/
def State.chosen (st : State m) (size : Ptr m) : Option Int := do
  let s ← st.info.ent
  let c ← st.heap.lookup s
  let found ← search (freeSize size) st.heap st.heap.keys.length s c.next 0
  some found.2.2

def mmalloc (st : State m) (size : Ptr m) (ans : Answers m) : Option (Ptr m × State m) := do
  let s ← st.info.ent
  let c ← st.heap.lookup s
  let fs := freeSize size
  let (prev, ent, fo) ← search fs st.heap st.heap.keys.length s c.next 0
  if exceeds m st.info fo fs then some (0, st)
  else
    match ans.malloc with
    | none => some (0, st)
    | some (r, junk) =>
      let length := (fs % 2 ^ m.sizeBits).toNat
      let maps := if ans.mmap = mapFailed m then st.maps else ⟨ans.mmap, length, fo⟩ :: st.maps
      if cInt ans.mmap.toNat < 0 then
        -- the new entry stays behind
        some (0, { st with heap := st.heap.insert r junk, maps := maps })
      else do
        let new := ⟨ans.mmap, fo, length⟩
        let h ← match ent with
          | some ent => insertBefore st.heap r ent new
          | none => append st.heap prev r new
        some (ans.mmap, { st with heap := h, maps := maps })

/-- The first entry for `ptr`. -/
def find (h : Heap (Ent m)) (ptr : Ptr m) : Nat → Option Ref → Option (Option Ref)
  | _, none => some none
  | 0, some _ => none
  | n + 1, some ent => do
    let c ← h.lookup ent
    if c.val.ptr = ptr then some (some ent) else find h ptr n c.next

def mfree (st : State m) (ptr : Ptr m) : Option (State m) := do
  let s ← st.info.ent
  let c ← st.heap.lookup s
  let found ← find st.heap ptr st.heap.keys.length c.next
  match found with
  | none => some st
  | some ent => do
    let c ← st.heap.lookup ent
    let maps := st.maps.filter fun mp => ¬ (mp.ptr = c.val.ptr ∧ mp.length = c.val.pSize)
    let h ← unlink st.heap ent
    some { st with heap := h, maps := maps }

/-- `unsigned long` has the size of a pointer. -/
def mgetPhyAddr (st : State m) (ptr : Ptr m) : Option (BitVec m.sizeBits) := do
  let s ← st.info.ent
  let c ← st.heap.lookup s
  let found ← find st.heap ptr st.heap.keys.length c.next
  match found with
  | none => some 0
  | some ent => do
    let c ← st.heap.lookup ent
    some (BitVec.ofInt m.sizeBits c.val.pAddr)

/-! ## Sequences of calls -/

/-- The entries reachable from `info.ent->next`. -/
def State.live (st : State m) : Option (List (Ref × Ent m)) := do
  let s ← st.info.ent
  let c ← st.heap.lookup s
  cells st.heap st.heap.keys.length c.next

/-- `malloc` answers a fresh cell; `mmap` fails for length 0 and else answers a pointer different from
every live one. -/
structure Answers.Allowed (ans : Answers m) (st : State m) (size : Ptr m) : Prop where
  fresh : ∀ x ∈ ans.malloc, x.1 ∉ st.heap
  length : blockBytes size = 0 → ans.mmap = mapFailed m
  apart : ∀ l ∈ st.live, ans.mmap ≠ mapFailed m → ∀ x ∈ l, x.2.ptr ≠ ans.mmap

instance (ans : Answers m) (st : State m) (size : Ptr m) : Decidable (ans.Allowed st size) :=
  decidable_of_iff ((∀ x ∈ ans.malloc, x.1 ∉ st.heap) ∧ (blockBytes size = 0 → ans.mmap = mapFailed m) ∧
      ∀ l ∈ st.live, ans.mmap ≠ mapFailed m → ∀ x ∈ l, x.2.ptr ≠ ans.mmap)
    ⟨fun ⟨h, h', h''⟩ => ⟨h, h', h''⟩, fun h => ⟨h.fresh, h.length, h.apart⟩⟩

inductive Call (m : DataModel)
  | mmalloc (size : Ptr m) (ans : Answers m)
  | mfree (ptr : Ptr m)

/-- The allocator, and the size requested for each entry. -/
structure Session (m : DataModel) where
  st : State m
  asked : Ref → Nat

def Session.note (x : Session m) (st : State m) (size : Ptr m) (ans : Answers m) : Session m where
  st := st
  asked := match ans.malloc with
    | none => x.asked
    | some (r, _) => fun q => if q = r then size.toNat else x.asked q

def Session.next (x : Session m) : Call m → Option (Session m)
  | .mmalloc size ans => (mmalloc x.st size ans).map fun r => x.note r.2 size ans
  | .mfree ptr => (mfree x.st ptr).map fun st => { x with st := st }

/-- The system answers as `Allowed` says. -/
def Call.Allowed (st : State m) : Call m → Prop
  | .mmalloc size ans => ans.Allowed st size
  | .mfree _ => True

instance (st : State m) : (c : Call m) → Decidable (c.Allowed st)
  | .mmalloc size ans => inferInstanceAs (Decidable (ans.Allowed st size))
  | .mfree _ => inferInstanceAs (Decidable True)

/-- Any sequence of calls that meet `C`. -/
def Reached (C : State m → Call m → Prop) : Session m → Session m → Prop :=
  Reaches Session.next fun x c => c.Allowed x.st ∧ C x.st c

/-- `x` ends before `y` begins. -/
def Ent.Before (x y : Ent m) : Prop := x.pAddr < y.pAddr ∧ x.pAddr + x.pSize ≤ y.pAddr

instance (x y : Ent m) : Decidable (x.Before y) := inferInstanceAs (Decidable (_ ∧ _))

/-- The live entries are in order and disjoint, and as large as requested. -/
def Session.Disjoint (x : Session m) : Prop :=
  ∃ l ∈ x.st.live, l.Pairwise (fun a b => a.2.Before b.2) ∧ ∀ a ∈ l, x.asked a.1 ≤ a.2.pSize

instance (x : Session m) : Decidable x.Disjoint :=
  inferInstanceAs (Decidable (∃ l ∈ x.st.live, _))

/-- What `malloc` may find. -/
def junkCell : Cell (Ent m) := ⟨⟨0, 0, 0⟩, none, none⟩

/-- `mmallocInit` with a window of 1 MiB. -/
def oneMiB : State .lp64 := ⟨⟨3, 0, 1024 * 1024, some 1⟩, AList.insert 1 junkCell ∅, []⟩

/-- Three areas; the first is freed, and its block allocated again for a smaller size. -/
def threeAreas : List (Call .lp64) :=
  [.mmalloc 100 ⟨some (2, junkCell), 0x1000⟩, .mmalloc 5000 ⟨some (3, junkCell), 0x2000⟩,
    .mmalloc 200 ⟨some (4, junkCell), 0x4000⟩, .mfree 0x1000, .mmalloc 50 ⟨some (5, junkCell), 0x8000⟩]

end Libfic2.Mmalloc
