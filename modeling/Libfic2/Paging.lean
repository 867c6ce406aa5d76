import Libfic2.Ficfuse
import Libfic2.Heap.Writeback
import Libfic2.Overlap
import Libfic2.Window

/-!
# The pages behind the areas

A `Process` is the allocator together with the pages behind its mappings.  The process reads and writes
through the addresses that `mmalloc` has returned; `mmsync` and `mmread` walk the list; the system
flushes pages and fetches clean ones whenever it likes, and the device changes its memory.  Nothing is
assumed of the answers of `msync`, `fic_gpio_open` and the transfer, save that `msync` has written all
of its range when it answers 0.  A transfer without `/dev/mem` mapped would end the process; here it
goes on.

* `Models.entry`, `Models.minfo`, `Models.mmsync`, `Models.mfree_maps`: the walks over the list
* `resolve_eq`: which byte of the file is behind an address of an area
* `wp_refresh`: what a transfer of `mmread` that has not failed has left in the area
-/

namespace Libfic2.Mmalloc

open Driver Linked Writeback

variable {m : DataModel}

/-! ## The functions -/

/-- The entry for `ptr`. -/
def State.entry (st : State m) (ptr : Ptr m) : Option (Option (Ent m)) := do
  let s ← st.info.ent
  let c ← st.heap.lookup s
  let found ← find st.heap ptr st.heap.keys.length c.next
  match found with
  | none => some none
  | some ent => do
    let c ← st.heap.lookup ent
    some (some c.val)

/-- The offset in the file behind an address. -/
def State.resolve (st : State m) (a : Nat) : Option Nat :=
  (st.maps.find? fun mp => mp.ptr.toNat ≤ a ∧ a < mp.ptr.toNat + mp.length).map fun mp =>
    mp.offset.toNat + (a - mp.ptr.toNat)

/-- Bytes of the file. -/
abbrev Page := Event Nat (BitVec 8)

/-- What an `msync` answers, and which bytes of its range it writes to the file. -/
structure Synced where
  answer : Int
  wrote : Nat → Bool

/-- `msync` of `n` bytes from `ptr` on. -/
def msync (st : State m) (ptr : Ptr m) (n : Nat) (ans : Synced) : List Page :=
  ((List.range n).filter ans.wrote).filterMap fun i => (st.resolve (ptr.toNat + i)).map .flush

/-- The loop of `mmsync`. -/
def mmsyncFrom (st : State m) (ans : Ptr m → Synced) : Nat → Option Ref → Option (List Page)
  | _, none => some []
  | 0, some _ => none
  | n + 1, some ent => do
    let c ← st.heap.lookup ent
    let rest ← mmsyncFrom st ans n c.next
    some (msync st c.val.ptr c.val.pSize (ans c.val.ptr) ++ rest)

/-- `mmsync`: what becomes of the pages. -/
def mmsync (st : State m) (ans : Ptr m → Synced) : Option (List Page) := do
  let s ← st.info.ent
  let c ← st.heap.lookup s
  mmsyncFrom st ans st.heap.keys.length c.next

/-- The calls of `mmread` for its entry; the buffer is the area. -/
def refresh (e : Ent m) : Ficfuse.F Unit := do
  let fd ← Prog.call Ficfuse.FuseOp.gpioOpen
  let _ ← Prog.call Ficfuse.FuseOp.commReset
  let _ ← Prog.call (.hlsRead (.buf 0) e.pSize (BitVec.ofInt 32 e.pAddr) rasddrCmdRead)
  let _ ← Prog.call (.gpioClose fd)
  Prog.ret ()

def mmread (st : State m) (ptr : Ptr m) : Option (Ficfuse.F Unit) := do
  let found ← st.entry ptr
  match found with
  | none => some (Prog.ret ())
  | some e => some (refresh e)

/-- What `minfo` prints: the entries from `ent` on. -/
def minfoFrom (h : Heap (Ent m)) : Nat → Option Ref → Option (List (Ent m))
  | _, none => some []
  | 0, some _ => none
  | n + 1, some ent => do
    let c ← h.lookup ent
    let rest ← minfoFrom h n c.next
    some (c.val :: rest)

def minfo (st : State m) : Option (List (Ent m)) := do
  let s ← st.info.ent
  let c ← st.heap.lookup s
  minfoFrom st.heap st.heap.keys.length c.next

/-! ## A process -/

structure Process (m : DataModel) where
  st : State m
  mem : Cache Nat (BitVec 8)

/-- What `mmread` has left in an area: its bytes, those that it has stored, and whether an operation
has failed. -/
structure Transfer where
  bytes : Mem
  touched : Nat → Bool
  failed : Bool

inductive Act (m : DataModel)
  | call (c : Call m)
  | store (p : Ptr m) (i : Nat) (v : BitVec 8)
  | mmsync (ans : Ptr m → Synced)
  | mmread (p : Ptr m) (t : Transfer)
  -- the pages and the file by themselves
  | system (e : Page)

namespace Process
variable (x : Process m)

def load (a : Nat) : Option (BitVec 8) := (x.st.resolve a).map x.mem.cached

/-- The bytes from an address on. -/
def view (ptr : Ptr m) : Mem := fun i => (x.load (ptr.toNat + i)).getD 0

/-- The stores of a transfer. -/
def stores (e : Ent m) (t : Transfer) : List Page :=
  ((List.range e.pSize).filter t.touched).filterMap fun i =>
    (x.st.resolve (e.ptr.toNat + i)).map fun o => .write o (t.bytes i)

def next : Act m → Option (Process m)
  | .call (.mmalloc size ans) => (Mmalloc.mmalloc x.st size ans).map fun r => { x with st := r.2 }
  | .call (.mfree ptr) => (Mmalloc.mfree x.st ptr).map fun st => { x with st := st }
  | .store p i v => (x.st.resolve (p.toNat + i)).map fun o => { x with mem := x.mem.next (.write o v) }
  | .mmsync ans => (Mmalloc.mmsync x.st ans).map fun es => { x with mem := x.mem.run es }
  | .mmread p t => (x.st.entry p).map fun
    | none => x
    | some e => { x with mem := x.mem.run (x.stores e t) }
  | .system e => some { x with mem := x.mem.next e }

end Process

/-! ## The walks -/

section
variable {st st' : State m} {l : List (Ref × Ent m)} {h : Heap (Ent m)} {q r p' : Option Ref} {n : Nat}

theorem Models.entry (hm : Models st l) (ptr : Ptr m) :
    st.entry ptr = some ((l.find? fun x => x.2.ptr = ptr).map Prod.snd) := by
  obtain ⟨s, hent, hd⟩ := hm
  obtain ⟨_, p', _, n, hs, hseg⟩ := hd.seg
  have hfind := find_eq ptr hseg (Nat.le_of_lt hd.length_lt)
  cases hf : l.find? fun x => x.2.ptr = ptr with
  | none => simp [State.entry, hent, hs, hfind, hf]
  | some a =>
    obtain ⟨p, k, d, hc, _⟩ := hd.links (List.mem_of_find?_eq_some hf)
    simp [State.entry, hent, hs, hfind, hf, hc]

theorem minfoFrom_eq (hs : Seg h q r l p' none) (hn : l.length ≤ n) :
    minfoFrom h n r = some (l.map Prod.snd) := by
  induction l generalizing q r n with
  | nil =>
    obtain ⟨_, rfl⟩ := hs
    cases n <;> rfl
  | cons x l ih =>
    obtain ⟨rfl, k, hent, hs⟩ := hs
    cases n with
    | zero => simp at hn
    | succ n => simp [minfoFrom, hent, ih hs (Nat.le_of_succ_le_succ hn)]

theorem Models.minfo (hm : Models st l) : minfo st = some (l.map Prod.snd) := by
  obtain ⟨s, hent, hd⟩ := hm
  obtain ⟨_, p', _, n, hs, hseg⟩ := hd.seg
  simp [Mmalloc.minfo, hent, hs, minfoFrom_eq hseg (Nat.le_of_lt hd.length_lt)]

theorem mmsyncFrom_eq (ans : Ptr m → Synced) (hs : Seg st.heap q r l p' none) (hn : l.length ≤ n) :
    mmsyncFrom st ans n r = some (l.flatMap fun a => msync st a.2.ptr a.2.pSize (ans a.2.ptr)) := by
  induction l generalizing q r n with
  | nil =>
    obtain ⟨_, rfl⟩ := hs
    cases n <;> rfl
  | cons x l ih =>
    obtain ⟨rfl, k, hent, hs⟩ := hs
    cases n with
    | zero => simp at hn
    | succ n => simp [mmsyncFrom, hent, ih hs (Nat.le_of_succ_le_succ hn)]

theorem Models.mmsync (hm : Models st l) (ans : Ptr m → Synced) :
    mmsync st ans = some (l.flatMap fun a => msync st a.2.ptr a.2.pSize (ans a.2.ptr)) := by
  obtain ⟨s, hent, hd⟩ := hm
  obtain ⟨_, p', _, n, hs, hseg⟩ := hd.seg
  simp [Mmalloc.mmsync, hent, hs, mmsyncFrom_eq ans hseg (Nat.le_of_lt hd.length_lt)]

/-- `mfree` unmaps nothing but the area of its pointer. -/
theorem Models.mfree_maps (hm : Models st l) {ptr : Ptr m} (hrun : Mmalloc.mfree st ptr = some st') :
    st'.maps.Sublist st.maps ∧ ∀ mp ∈ st.maps, mp.ptr ≠ ptr → mp ∈ st'.maps := by
  obtain ⟨s, hent, hd⟩ := hm
  obtain ⟨_, p', _, n, hs, hseg⟩ := hd.seg
  have hfind := find_eq ptr hseg (Nat.le_of_lt hd.length_lt)
  unfold Mmalloc.mfree at hrun
  simp only [hent, hs, hfind, Option.bind_eq_bind, Option.bind_some] at hrun
  cases hf : l.find? fun x => x.2.ptr = ptr with
  | none =>
    rw [hf] at hrun
    obtain rfl : st = st' := Option.some.inj hrun
    exact ⟨.refl _, fun mp hmp _ => hmp⟩
  | some a =>
    rw [hf] at hrun
    have hptr : a.2.ptr = ptr := by simpa using List.find?_some hf
    obtain ⟨p, k, d, hc, _⟩ := hd.links (List.mem_of_find?_eq_some hf)
    simp only [Option.map_some, hc, Option.bind_some] at hrun
    obtain ⟨h', -, hst⟩ := Option.bind_eq_some_iff.1 hrun
    obtain rfl := Option.some.inj hst
    refine ⟨List.filter_sublist, fun mp hmp hne => List.mem_filter.2 ⟨hmp, ?_⟩⟩
    simp [hptr, hne]

end

/-! ## Addresses -/

/-- The ranges of two mappings. -/
def Mapping.Apart (x y : Mapping m) : Prop :=
  x.ptr.toNat + x.length ≤ y.ptr.toNat ∨ y.ptr.toNat + y.length ≤ x.ptr.toNat

instance (x y : Mapping m) : Decidable (x.Apart y) :=
  inferInstanceAs (Decidable (x.ptr.toNat + x.length ≤ y.ptr.toNat ∨ y.ptr.toNat + y.length ≤ x.ptr.toNat))

/-- The mapping of an entry. -/
def Ent.mapping (e : Ent m) : Mapping m := ⟨e.ptr, e.pSize, e.pAddr⟩

section
variable {st : State m} {e : Ent m} {i : Nat} {x : Process m} {o : Nat}

theorem resolve_eq (hapart : st.maps.Pairwise Mapping.Apart) (he : e.mapping ∈ st.maps) (hi : i < e.pSize) :
    st.resolve (e.ptr.toNat + i) = some (e.pAddr.toNat + i) := by
  have hsymm : Std.Symm (α := Mapping m) Mapping.Apart := ⟨fun _ _ h => h.symm⟩
  unfold State.resolve
  cases hf : st.maps.find? fun mp => mp.ptr.toNat ≤ e.ptr.toNat + i ∧
    e.ptr.toNat + i < mp.ptr.toNat + mp.length with
  | none =>
    have hno := List.find?_eq_none.1 hf _ he
    exact absurd (decide_eq_true ⟨Nat.le_add_right _ i, Nat.add_lt_add_left hi _⟩) hno
  | some mp =>
    have hin := List.find?_some hf
    simp only [decide_eq_true_eq] at hin
    obtain rfl : mp = e.mapping := by
      by_contra hne
      have := hapart.forall (List.mem_of_find?_eq_some hf) he hne
      simp only [Mapping.Apart, Ent.mapping] at this
      omega
    simp only [Ent.mapping, Option.map_some, Option.some.injEq]
    omega

variable (hapart : st.maps.Pairwise Mapping.Apart) (he : e.mapping ∈ st.maps)
include hapart he

theorem mem_msync {ans : Synced} {ev : Page} :
    ev ∈ msync st e.ptr e.pSize ans ↔ ∃ i < e.pSize, ans.wrote i = true ∧
      ev = .flush (e.pAddr.toNat + i) := by
  unfold msync
  simp only [List.mem_filterMap, List.mem_filter, List.mem_range]
  constructor
  · rintro ⟨i, ⟨hi, hw⟩, hev⟩
    rw [resolve_eq hapart he hi] at hev
    exact ⟨i, hi, hw, (Option.some.inj hev).symm⟩
  · rintro ⟨i, hi, hw, rfl⟩
    exact ⟨i, ⟨hi, hw⟩, by rw [resolve_eq hapart he hi]; rfl⟩

end

/-- The stores of `mmread` are in its area. -/
theorem mem_stores {x : Process m} {e : Ent m} {t : Transfer} {ev : Page}
    (hapart : x.st.maps.Pairwise Mapping.Apart) (he : e.mapping ∈ x.st.maps) :
    ev ∈ x.stores e t ↔ ∃ i < e.pSize, t.touched i = true ∧
      ev = .write (e.pAddr.toNat + i) (t.bytes i) := by
  unfold Process.stores
  simp only [List.mem_filterMap, List.mem_filter, List.mem_range]
  constructor
  · rintro ⟨i, ⟨hi, ht⟩, hev⟩
    rw [resolve_eq hapart he hi] at hev
    exact ⟨i, hi, ht, (Option.some.inj hev).symm⟩
  · rintro ⟨i, hi, ht, rfl⟩
    exact ⟨i, ⟨hi, ht⟩, by rw [resolve_eq hapart he hi]; rfl⟩

/-! ## The transfer of `mmread` -/

/-- Where nothing has failed, the area has got its bytes of the DDR. -/
theorem wp_refresh {e : Ent m} {s : Ficfuse.FuseWorld} (hlow : 0 ≤ e.pAddr) (hhigh : e.pAddr < 2 ^ 32)
    (halign : 4 ∣ e.pAddr) : wp Ficfuse.fuseSys (fun _ => True)
      (fun _ t => t.failed = false → ∀ i < e.pSize, t.buf i = s.ddr (e.pAddr.toNat + i)) (refresh e) s := by
  have hbase : Ficfuse.ddrBase (BitVec.ofInt 32 e.pAddr) = e.pAddr.toNat := by
    unfold Ficfuse.ddrBase
    rw [BitVec.toNat_ofInt]
    omega
  have quiet := Ficfuse.fuseSys_quiet
  refine wp_callQuiet quiet trivial fun fd t ht => ?_
  obtain rfl : t = { s with failed := s.failed || decide (fd < 0) } := ht
  refine wp_callQuiet quiet trivial fun _ t ht => ?_
  obtain rfl : t = { s with failed := s.failed || decide (fd < 0) } := ht
  refine wp_callQuiet quiet trivial fun r t ⟨f, hf, ht⟩ => ?_
  refine wp_callQuiet quiet trivial fun _ t' ht' => ?_
  obtain rfl : t' = t := ht'
  refine wp_retQuiet quiet trivial fun hok i hi => ?_
  subst ht
  have hr : ¬ r < 0 := by
    intro hneg
    simp [hneg] at hok
  rw [hf (Int.not_lt.1 hr) rfl]
  show Ficfuse.patch s.buf 0 e.pSize (fun i => s.ddr (Ficfuse.ddrBase (BitVec.ofInt 32 e.pAddr) + i)) i = _
  unfold Ficfuse.patch
  rw [if_pos ⟨Nat.zero_le i, by omega⟩, hbase, Nat.sub_zero]

end Libfic2.Mmalloc
