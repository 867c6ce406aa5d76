import Libfic2.Paging

/-!
# Areas of device memory as arrays

An `Area` is what a client of the allocator knows of an array it has got: the offset that
`mget_phy_addr` answers, the size it has requested, and the bytes it can count on.  It counts on a byte
from the moment it stores it, or a `mmread` in which nothing has failed brings it, until the device
changes that byte or a flush of it fails.

* `area_memory`: while every allocation fits, the areas are arrays of their own, whatever pages the
  system flushes and fetches; `mmsync` leaves the bytes of an area in the file when its `msync` has
  answered 0
-/

namespace Libfic2.Mmalloc

open Driver Prog Linked Writeback

variable {m : DataModel}

/-! ## Clients -/

structure Area where
  base : Nat
  size : Nat
  bytes : Nat → Option (BitVec 8)

/-- The byte `o` of the file may have changed. -/
def Area.forget (o : Nat) (r : Area) : Area :=
  { r with bytes := fun i => if r.base + i = o then none else r.bytes i }

/-- After a transfer from the file `d`. -/
def Area.reread (d : Nat → BitVec 8) (failed : Bool) (r : Area) : Area :=
  { r with bytes := fun i => if failed then none else some (d (r.base + i)) }

/-- A process, and what its client knows. -/
structure Client (m : DataModel) where
  proc : Process m
  areas : Ptr m → Option Area

/-- What the client knows after a step. -/
def Client.note (x : Client m) : Act m → Ptr m → Option Area
  | .call (.mmalloc size ans) =>
    match Mmalloc.mmalloc x.proc.st size ans with
    | none => x.areas
    | some (p, st) =>
      if p = 0 then x.areas
      else Function.update x.areas p (some ⟨((mgetPhyAddr st p).getD 0).toNat, size.toNat, fun _ => none⟩)
  | .call (.mfree p) => Function.update x.areas p none
  | .store p i v =>
      Function.update x.areas p ((x.areas p).map fun r =>
        { r with bytes := Function.update r.bytes i (some v) })
  | .mmsync _ => x.areas
  | .mmread p t => Function.update x.areas p ((x.areas p).map (Area.reread x.proc.mem.store t.failed))
  | .system (.lose o) => fun p => (x.areas p).map (Area.forget o)
  | .system (.outside o _) => fun p => (x.areas p).map (Area.forget o)
  | .system _ => x.areas

def Client.next (x : Client m) (a : Act m) : Option (Client m) := (x.proc.next a).map fun y => ⟨y, x.note a⟩

/-- A transfer of `mmread`: a run of its calls, with the area for a buffer. -/
structure Process.Refreshed (x : Process m) (e : Ent m) (t : Transfer) : Prop where
  run : ∃ q ∈ mmread x.st e.ptr, ∃ rbuf w,
    Ficfuse.fuseSys.Run (q, ⟨x.mem.store, x.view e.ptr, rbuf, false⟩) (ret (), w) ∧
    w.buf = t.bytes ∧ w.failed = t.failed
  kept : ∀ i < e.pSize, t.touched i = false → t.bytes i = x.view e.ptr i
  all : t.failed = false → ∀ i < e.pSize, t.touched i = true

/-- What may happen: an allocation fits, and `mmap` maps where nothing is mapped; the client stores
into its areas. -/
def Act.Allowed (x : Client m) : Act m → Prop
  | .call (.mmalloc size ans) => ans.Allowed x.proc.st size ∧ Harmless x.proc.st (.mmalloc size ans) ∧
      (ans.mmap ≠ mapFailed m → ans.mmap ≠ 0 ∧
        ∀ mp ∈ x.proc.st.maps, Mapping.Apart mp ⟨ans.mmap, (freeSize size % 2 ^ m.sizeBits).toNat, 0⟩)
  | .call (.mfree _) => True
  | .store p i _ => ∃ r ∈ x.areas p, i < r.size
  | .mmsync ans => ∀ p, (ans p).answer = 0 → ∀ i, (ans p).wrote i = true
  | .mmread p t => ∀ e, x.proc.st.entry p = some (some e) → x.proc.Refreshed e t
  | .system e => e.Allowed x.proc.mem ∧ ∀ o v, e ≠ .write o v

/-- Any sequence of steps. -/
def Lives : Client m → Client m → Prop := Reaches Client.next fun x a => a.Allowed x

/-! ## The invariant -/

/-- An entry in whole blocks that ends at `w` at the latest. -/
structure Ent.Blocks (e : Ent m) (w : Int) : Prop where
  addr : (mmallocBlockSize : Int) ∣ e.pAddr
  size : (mmallocBlockSize : Int) ∣ e.pSize
  ends : e.pAddr + e.pSize ≤ w

/-- What is known of the entry `e`. -/
structure Area.Of (r : Area) (c : Cache Nat (BitVec 8)) (e : Ent m) : Prop where
  base : r.base = e.pAddr.toNat
  size : r.size ≤ e.pSize
  bytes : ∀ i < r.size, ∀ v ∈ r.bytes i, c.Holds (r.base + i) v

structure Client.Inv (info : MmallocInfo) (x : Client m) (l : List (Ref × Ent m)) : Prop where
  same : x.proc.st.info = info
  session : ∃ asked, Mmalloc.Inv ⟨x.proc.st, asked⟩ l
  unshared : Unshared l
  blocks : ∀ a ∈ l, a.2.Blocks (info.offset + info.areaSize)
  mapped : ∀ a ∈ l, a.2.mapping ∈ x.proc.st.maps
  apart : x.proc.st.maps.Pairwise Mapping.Apart
  known : ∀ a ∈ l, ∃ r ∈ x.areas a.2.ptr, r.Of x.proc.mem a.2
  only : ∀ p, ∀ r ∈ x.areas p, ∃ a ∈ l, a.2.ptr = p

section
variable {info : MmallocInfo} {x y : Client m} {l : List (Ref × Ent m)}

theorem Area.Of.leaves {r : Area} {c : Cache Nat (BitVec 8)} {e : Ent m} (h : r.Of c e) {es : List Page}
    (hes : ∀ ev ∈ es, ev.Own ∧ ∀ i < e.pSize, ev.Leaves (e.pAddr.toNat + i)) : r.Of (c.run es) e := by
  refine ⟨h.base, h.size, fun i hi v hv => (h.bytes i hi v hv).run fun ev hev => ?_⟩
  rw [h.base]
  exact ⟨(hes ev hev).1, (hes ev hev).2 i (Nat.lt_of_lt_of_le hi h.size)⟩

namespace Client.Inv

theorem models (h : x.Inv info l) : Models x.proc.st l := by
  obtain ⟨asked, hs⟩ := h.session
  exact hs.models

theorem inOff (h : x.Inv info l) {a : Ref × Ent m} (ha : a ∈ l) : a.2.InOff := by
  obtain ⟨asked, hs⟩ := h.session
  exact hs.inOff a ha

/-- Different areas have no byte of the file in common. -/
theorem offset_ne (h : x.Inv info l) {a b : Ref × Ent m} (ha : a ∈ l) (hb : b ∈ l)
    (hne : a.2.ptr ≠ b.2.ptr) {i j : Nat}
    (hi : i < a.2.pSize) (hj : j < b.2.pSize) : a.2.pAddr.toNat + i ≠ b.2.pAddr.toNat + j := by
  obtain ⟨asked, hs⟩ := h.session
  have hsymm : Std.Symm fun a b : Ref × Ent m => a.2.Before b.2 ∨ b.2.Before a.2 := ⟨fun _ _ h => h.symm⟩
  have hpair : l.Pairwise fun a b => a.2.Before b.2 ∨ b.2.Before a.2 := hs.order.imp Or.inl
  have horder := hpair.forall ha hb fun heq => hne (heq ▸ rfl)
  have h1 := (h.inOff ha).1
  have h2 := (h.inOff hb).1
  simp only [Ent.Before] at horder
  omega

/-- The entry found for a pointer the client has got. -/
theorem entry (h : x.Inv info l) {a : Ref × Ent m} (ha : a ∈ l) :
    x.proc.st.entry a.2.ptr = some (some a.2) := by
  rw [h.models.entry, h.unshared.find ha]
  rfl

/-- A step of the pages alone. -/
theorem pages (h : x.Inv info l) {mem : Cache Nat (BitVec 8)} {areas : Ptr m → Option Area}
    (hknown : ∀ a ∈ l, ∃ r ∈ areas a.2.ptr, r.Of mem a.2)
    (honly : ∀ p, (areas p).isSome → (x.areas p).isSome) :
    Client.Inv info ⟨⟨x.proc.st, mem⟩, areas⟩ l := by
  refine ⟨h.same, h.session, h.unshared, h.blocks, h.mapped, h.apart, hknown, fun p r hr => ?_⟩
  obtain ⟨r', hr'⟩ := Option.isSome_iff_exists.1 (honly p (Option.isSome_of_mem hr))
  exact h.only p r' hr'

/-- The area of a pointer, and its entry. -/
theorem find (h : x.Inv info l) {p : Ptr m} {r : Area} (hr : r ∈ x.areas p) :
    ∃ a ∈ l, a.2.ptr = p ∧ r.Of x.proc.mem a.2 := by
  obtain ⟨a, ha, rfl⟩ := h.only p r hr
  obtain ⟨r', hr', hof⟩ := h.known a ha
  obtain rfl : r' = r := Option.some.inj (hr'.symm.trans hr)
  exact ⟨a, ha, rfl, hof⟩

/-- The offset behind an address of an area. -/
theorem resolve (h : x.Inv info l) {p : Ptr m} {r : Area} (hr : r ∈ x.areas p) {i : Nat} (hi : i < r.size) :
    x.proc.st.resolve (p.toNat + i) = some (r.base + i) := by
  obtain ⟨a, ha, rfl, hof⟩ := h.find hr
  rw [hof.base]
  exact resolve_eq h.apart (h.mapped a ha) (Nat.lt_of_lt_of_le hi hof.size)

theorem store (h : x.Inv info l) {p : Ptr m} {i : Nat} (v : BitVec 8) {r : Area}
    (hr : r ∈ x.areas p) (hi : i < r.size) : ∃ y, x.next (.store p i v) = some y ∧ y.Inv info l := by
  refine ⟨⟨{ x.proc with mem := x.proc.mem.next (.write (r.base + i) v) }, x.note (.store p i v)⟩, ?_,
    h.pages ?_ ?_⟩
  · simp [Client.next, Process.next, h.resolve hr hi]
  · obtain ⟨b, hb, hbp, hbof⟩ := h.find hr
    intro a ha
    by_cases hp : a.2.ptr = p
    · subst hp
      obtain ⟨r', hr', hof⟩ := h.known a ha
      obtain rfl : r = r' := Option.some.inj (hr.symm.trans hr')
      refine ⟨{ r with bytes := Function.update r.bytes i (some v) }, ?_, hof.base,
        hof.size, fun j hj w hw => ?_⟩
      · simp [Client.note, Option.mem_def.1 hr]
      · by_cases hji : j = i
        · subst hji
          obtain rfl : v = w := by simpa using hw
          exact holds_write ..
        · have hold : w ∈ r.bytes j := by simpa [hji] using hw
          refine (hof.bytes j hj w hold).next trivial ?_
          show r.base + i ≠ r.base + j
          omega
    · obtain ⟨r', hr', hof⟩ := h.known a ha
      have hleaves : r'.Of (x.proc.mem.run [.write (r.base + i) v]) a.2 := by
        refine hof.leaves fun ev hev => ?_
        obtain rfl := List.mem_singleton.1 hev
        refine ⟨trivial, fun j hj => ?_⟩
        rw [hbof.base]
        exact h.offset_ne hb ha (fun heq => hp (heq.symm.trans hbp)) (Nat.lt_of_lt_of_le hi hbof.size) hj
      exact ⟨r', by simpa [Client.note, hp] using hr', hleaves⟩
  · intro q hq
    by_cases hp : q = p
    · subst hp
      exact Option.isSome_of_mem hr
    · simpa [Client.note, hp] using hq

/-- `mmsync` flushes bytes of the areas, those of an `msync` that has answered 0 all. -/
theorem mmsync (h : x.Inv info l) (ans : Ptr m → Synced) :
    ∃ es, Mmalloc.mmsync x.proc.st ans = some es ∧ ∀ ev, ev ∈ es ↔
      ∃ a ∈ l, ∃ i < a.2.pSize, (ans a.2.ptr).wrote i = true ∧ ev = .flush (a.2.pAddr.toNat + i) := by
  refine ⟨_, h.models.mmsync ans, fun ev => ?_⟩
  rw [List.mem_flatMap]
  constructor
  · rintro ⟨a, ha, hev⟩
    exact ⟨a, ha, (mem_msync h.apart (h.mapped a ha)).1 hev⟩
  · rintro ⟨a, ha, hev⟩
    exact ⟨a, ha, (mem_msync h.apart (h.mapped a ha)).2 hev⟩

theorem sync (h : x.Inv info l) (ans : Ptr m → Synced) :
    ∃ y, x.next (.mmsync ans) = some y ∧ y.Inv info l := by
  obtain ⟨es, hes, hmem⟩ := h.mmsync ans
  refine ⟨⟨{ x.proc with mem := x.proc.mem.run es }, x.areas⟩,
    by simp [Client.next, Process.next, hes, Client.note], h.pages ?_ fun _ => id⟩
  intro a ha
  obtain ⟨r, hr, hof⟩ := h.known a ha
  refine ⟨r, hr, hof.leaves fun ev hev => ?_⟩
  obtain ⟨b, -, i, -, -, rfl⟩ := (hmem ev).1 hev
  exact ⟨trivial, fun _ _ => trivial⟩

/-- The system flushes, fetches and loses bytes, and the device changes some. -/
theorem system (h : x.Inv info l) {e : Page} (hok : e.Allowed x.proc.mem) (hother : ∀ o v, e ≠ .write o v) :
    ∃ y, x.next (.system e) = some y ∧ y.Inv info l := by
  refine ⟨⟨{ x.proc with mem := x.proc.mem.next e }, x.note (.system e)⟩, rfl, h.pages ?_ ?_⟩
  · intro a ha
    obtain ⟨r, hr, hof⟩ := h.known a ha
    have forgotten : ∀ o : Nat, (∀ b, b ≠ o → e.Leaves b) → (r.forget o).Of (x.proc.mem.next e) a.2 := by
      intro o hleaves
      refine ⟨hof.base, hof.size, fun i hi v hv => ?_⟩
      by_cases ho : r.base + i = o
      · simp [Area.forget, ho] at hv
      · have hold : v ∈ r.bytes i := by simpa [Area.forget, ho] using hv
        exact (hof.bytes i hi v hold).next hok (hleaves _ ho)
    cases e with
    | write o v => exact absurd rfl (hother o v)
    | flush o => exact ⟨r, hr, hof.base, hof.size, fun i hi v hv => (hof.bytes i hi v hv).next hok trivial⟩
    | fetch o => exact ⟨r, hr, hof.base, hof.size, fun i hi v hv => (hof.bytes i hi v hv).next hok trivial⟩
    | lose o =>
        exact ⟨r.forget o, by simp [Client.note, Option.mem_def.1 hr], forgotten o fun b hb => Ne.symm hb⟩
    | outside o v =>
        exact ⟨r.forget o, by simp [Client.note, Option.mem_def.1 hr], forgotten o fun b hb => Ne.symm hb⟩
  · intro p hp
    cases e <;> simpa [Client.note] using hp

/-- A transfer in which nothing has failed brings every byte of the area. -/
theorem refreshed (h : x.Inv info l) {b : Ref × Ent m} (hb : b ∈ l) {t : Transfer}
    (hwindow : info.offset + info.areaSize < 2 ^ 32)
    (ht : x.proc.Refreshed b.2 t) (hclean : t.failed = false) {i : Nat} (hi : i < b.2.pSize) :
    (x.proc.mem.run (x.proc.stores b.2 t)).Holds (b.2.pAddr.toNat + i)
      (x.proc.mem.store (b.2.pAddr.toNat + i)) := by
  obtain ⟨⟨q, hq, rbuf, w, hrun, hbuf, hfailed⟩, -, hall⟩ := ht
  obtain rfl : refresh b.2 = q := by simpa [Mmalloc.mmread, h.entry hb] using hq
  obtain ⟨haddr, -, hends⟩ := h.blocks b hb
  have hlow := (h.inOff hb).1
  have hbytes : ∀ j < b.2.pSize, t.bytes j = x.proc.mem.store (b.2.pAddr.toNat + j) := by
    have halign : (4 : Int) ∣ b.2.pAddr := Int.dvd_trans (by decide) haddr
    rw [← hbuf]
    exact wp_run_ret (wp_refresh hlow (by omega) halign) hrun (hfailed.trans hclean)
  have hmem : ∀ ev, ev ∈ x.proc.stores b.2 t ↔ _ := fun _ => mem_stores h.apart (h.mapped b hb)
  apply run_write
  · rw [hmem, ← hbytes i hi]
    exact ⟨i, hi, hall hclean i hi, rfl⟩
  · intro ev hev
    obtain ⟨j, hj, -, rfl⟩ := (hmem ev).1 hev
    refine ⟨_, _, rfl, fun heq => ?_⟩
    rw [hbytes j hj, heq]

/-- After a transfer the client counts on the bytes of the DDR, or on none. -/
theorem mmread (h : x.Inv info l) {p : Ptr m} {t : Transfer}
    (hwindow : info.offset + info.areaSize < 2 ^ 32)
    (hok : ∀ e, x.proc.st.entry p = some (some e) → x.proc.Refreshed e t) :
    ∃ y, x.next (.mmread p t) = some y ∧ y.Inv info l := by
  by_cases hp : ∃ a ∈ l, a.2.ptr = p
  · obtain ⟨b, hb, rfl⟩ := hp
    have hentry := h.entry hb
    have ht := hok b.2 hentry
    refine ⟨⟨{ x.proc with mem := x.proc.mem.run (x.proc.stores b.2 t) }, x.note (.mmread b.2.ptr t)⟩,
      by simp [Client.next, Process.next, hentry], h.pages ?_ ?_⟩
    · intro a ha
      obtain ⟨r, hr, hof⟩ := h.known a ha
      by_cases hab : a.2.ptr = b.2.ptr
      · have heq : a.2 = b.2 := by
          have hsame := (h.entry ha).symm.trans (hab ▸ hentry)
          exact Option.some.inj (Option.some.inj hsame)
        have hr' : x.areas b.2.ptr = some r := hab ▸ hr
        rw [hab]
        refine ⟨r.reread x.proc.mem.store t.failed,
          by simp [Client.note, hr'], hof.base, hof.size, fun i hi v hv => ?_⟩
        cases hclean : t.failed with
        | true => simp [Area.reread, hclean] at hv
        | false =>
          obtain rfl : x.proc.mem.store (r.base + i) = v := by simpa [Area.reread, hclean] using hv
          show Cache.Holds _ (r.base + i) _
          rw [hof.base, heq]
          exact h.refreshed hb hwindow ht hclean (heq ▸ Nat.lt_of_lt_of_le hi hof.size)
      · refine ⟨r, by simpa [Client.note, hab] using hr, hof.leaves fun ev hev => ?_⟩
        obtain ⟨i, hi, -, rfl⟩ := (mem_stores h.apart (h.mapped b hb)).1 hev
        exact ⟨trivial, fun j hj => h.offset_ne hb ha (Ne.symm hab) hi hj⟩
    · intro q hq
      by_cases hqb : q = b.2.ptr
      · obtain ⟨r, hr, -⟩ := h.known b hb
        rw [hqb]
        exact Option.isSome_of_mem hr
      · simpa [Client.note, hqb] using hq
  · have hnone : x.areas p = none := by
      cases hr : x.areas p with
      | none => rfl
      | some r => exact absurd (h.only p r hr) hp
    have hentry : x.proc.st.entry p = some none := by
      rw [h.models.entry, List.find?_eq_none.2 fun a ha => by simpa using fun heq => hp ⟨a, ha, heq⟩]
      rfl
    have hnote : x.note (.mmread p t) = x.areas := by
      show Function.update x.areas p ((x.areas p).map _) = x.areas
      rw [hnone, Option.map_none, ← hnone, Function.update_eq_self]
    exact ⟨x, by simp [Client.next, Process.next, hentry, hnote], h⟩

theorem free (h : x.Inv info l) (p : Ptr m) :
    ∃ y, x.next (.call (.mfree p)) = some y ∧ y.Inv info (release l p) := by
  obtain ⟨st', hrun, hinfo, -, -⟩ := h.models.mfree p
  obtain ⟨hsub, hkeep⟩ := h.models.mfree_maps hrun
  have hmem : ∀ a, a ∈ release l p ↔ a ∈ l ∧ a.2.ptr ≠ p := fun a => by
    rw [h.unshared.release_eq, List.mem_filter, decide_eq_true_iff]
  refine ⟨⟨{ x.proc with st := st' }, x.note (.call (.mfree p))⟩,
    by simp [Client.next, Process.next, hrun], ?_⟩
  constructor
  · exact hinfo.trans h.same
  · obtain ⟨asked, hs⟩ := h.session
    obtain ⟨y, hy, hinv⟩ := hs.mfree p
    obtain rfl : ⟨st', asked⟩ = y := by simpa [Session.next, hrun] using hy
    exact ⟨asked, hinv⟩
  · exact h.unshared.release p
  · exact fun a ha => h.blocks a ((hmem a).1 ha).1
  · exact fun a ha => hkeep _ (h.mapped a ((hmem a).1 ha).1) ((hmem a).1 ha).2
  · exact h.apart.sublist hsub
  · intro a ha
    obtain ⟨hal, hne⟩ := (hmem a).1 ha
    obtain ⟨r, hr, hof⟩ := h.known a hal
    exact ⟨r, by simpa [Client.note, hne] using hr, hof⟩
  · intro q r hr
    by_cases hq : q = p
    · simp [Client.note, hq] at hr
    · obtain ⟨a, ha, rfl⟩ := h.only q r (by simpa [Client.note, hq] using hr)
      exact ⟨a, (hmem a).2 ⟨ha, hq⟩, rfl⟩

/-- An allocation that adds no entry returns NULL. -/
theorem allocFails (h : x.Inv info l) {size : Ptr m} {ans : Answers m}
    (hok : (Act.call (.mmalloc size ans)).Allowed x)
    (halloc : ¬ Allocates x.proc.st.info l size ans) :
    ∃ y, x.next (.call (.mmalloc size ans)) = some y ∧ y.Inv info l := by
  obtain ⟨hans, hharm, hmap⟩ := hok
  obtain ⟨st', hrun, hinfo, hmaps, -⟩ := h.models.mmalloc size hans.fresh
  rw [answer, if_neg halloc] at hrun
  refine ⟨⟨{ x.proc with st := st' }, x.areas⟩, by simp [Client.next, Process.next, hrun, Client.note], ?_⟩
  constructor
  · exact hinfo.trans h.same
  · obtain ⟨asked, hs⟩ := h.session
    obtain ⟨y, hy, -, hinv⟩ := hs.mmalloc hans
    obtain rfl : Session.note ⟨x.proc.st, asked⟩ st' size ans = y := by simpa [Session.next, hrun] using hy
    have hinv := hinv hharm
    rw [allocate_none halloc] at hinv
    exact ⟨_, hinv⟩
  · exact h.unshared
  · exact h.blocks
  · intro a ha
    rw [hmaps]
    unfold remap
    split
    · exact List.mem_cons_of_mem _ (h.mapped a ha)
    · exact h.mapped a ha
  · rw [hmaps]
    unfold remap
    split
    · next hmapped => exact List.pairwise_cons.2 ⟨fun mp hmp => ((hmap hmapped.2.2).2 mp hmp).symm, h.apart⟩
    · exact h.apart
  · exact h.known
  · exact h.only

/-- Where an allocation puts its area. -/
theorem lands (h : x.Inv info l) (hwindow : 0 ≤ info.offset + info.areaSize)
    {size : Ptr m} {ans : Answers m}
    (hok : (Act.call (.mmalloc size ans)).Allowed x) (halloc : Allocates x.proc.st.info l size ans) :
    ∃ r fo pre suf, Lands x.proc.st.info l size ans r fo pre suf ∧
      Ent.Blocks ⟨ans.mmap, fo, blockBytes size⟩ (info.offset + info.areaSize) ∧
      size.toNat ≤ blockBytes size ∧ remap x.proc.st l size ans =
      Ent.mapping ⟨ans.mmap, fo, blockBytes size⟩ :: x.proc.st.maps := by
  obtain ⟨hans, hharm, -⟩ := hok
  obtain ⟨asked, hs⟩ := h.session
  obtain ⟨r, junk, pre, suf, -, hland⟩ :=
    allocate_lands hs.order hs.inOff halloc (hharm l hs.models.live halloc)
  have hlow := hland.low
  have hhigh := hland.high
  have hbytes : blockBytes size < 2 ^ 63 := by omega
  have hfs := freeSize_eq hbytes
  have hex := halloc.2.1
  rw [h.same, hfs] at hex
  have hends : (place (blockBytes size) l 0).2.2 + (blockBytes size : Int) ≤ info.offset + info.areaSize :=
    le_of_not_exceeds hex (by omega) hhigh hwindow
  refine ⟨r, _, pre, suf, hland, ⟨?_, ?_, hends⟩, ?_, ?_⟩
  · apply place_candidate (P := fun fo => (mmallocBlockSize : Int) ∣ fo) (Int.dvd_zero _)
    intro a ha
    obtain ⟨haddr, hsize, -⟩ := h.blocks a ha
    exact dvd_offT (Int.dvd_add (dvd_offT (Int.dvd_add haddr hsize)) (Int.dvd_refl _))
  · exact_mod_cast dvd_blockBytes size
  · apply le_blockBytes
    intro hz
    apply halloc.2.2
    rw [hans.length hz]
    exact cInt_mapFailed
  · unfold remap
    rw [if_pos halloc.mapsArea, pSize_eq hbytes, hfs]
    rfl

/-- An allocation that succeeds. -/
theorem allocates (h : x.Inv info l) (hlow : 0 ≤ info.offset + info.areaSize)
    (hhigh : info.offset + info.areaSize < 2 ^ 32)
    {size : Ptr m} {ans : Answers m} (hok : (Act.call (.mmalloc size ans)).Allowed x)
    (halloc : Allocates x.proc.st.info l size ans) :
    ∃ y l', x.next (.call (.mmalloc size ans)) = some y ∧ y.Inv info l' := by
  obtain ⟨r, fo, pre, suf, hland, hblocks, hsize, hremap⟩ := h.lands hlow hok halloc
  obtain ⟨hans, hharm, hmap⟩ := hok
  obtain ⟨hnull, hfree⟩ := hmap halloc.mapsArea.2.2
  obtain ⟨st', hrun, hinfo, hmaps, hmodels⟩ := h.models.mmalloc size hans.fresh
  rw [hremap] at hmaps
  rw [answer, if_pos halloc] at hrun
  have hother : ∀ a ∈ l, a.2.ptr ≠ ans.mmap := hans.apart l h.models.live halloc.mapsArea.2.2
  have hunshared : Unshared (allocate x.proc.st.info l size ans) := h.unshared.allocate fun _ => hother
  have hnew : (r, (⟨ans.mmap, fo, blockBytes size⟩ : Ent m)) ∈ allocate x.proc.st.info l size ans := by
    rw [hland.new]
    exact List.mem_append_right _ List.mem_cons_self
  have hphys : ((mgetPhyAddr st' ans.mmap).getD 0).toNat = fo.toNat := by
    have hfo := hland.low
    have hends := hblocks.ends
    have hpos : (0 : Int) ≤ blockBytes size := Int.natCast_nonneg _
    rw [hmodels.mgetPhyAddr (hunshared.find hnew), Option.getD_some, BitVec.toNat_ofInt]
    simp only at hends ⊢
    cases m <;> simp only [DataModel.sizeBits] <;> omega
  refine ⟨⟨{ x.proc with st := st' }, x.note (.call (.mmalloc size ans))⟩,
    allocate x.proc.st.info l size ans, by simp [Client.next, Process.next, hrun], ?_⟩
  have hnote : x.note (.call (.mmalloc size ans)) =
      Function.update x.areas ans.mmap (some ⟨fo.toNat, size.toNat, fun _ => none⟩) := by
    unfold Client.note
    simp only [hrun]
    rw [if_neg hnull, hphys]
  rw [hnote]
  refine ⟨hinfo.trans h.same, ?_, hunshared, ?_, ?_, ?_, ?_, ?_⟩
  · obtain ⟨asked, hs⟩ := h.session
    obtain ⟨y, hy, -, hinv⟩ := hs.mmalloc hans
    obtain rfl : Session.note ⟨x.proc.st, asked⟩ st' size ans = y := by simpa [Session.next, hrun] using hy
    exact ⟨_, hinv hharm⟩
  · intro a ha
    rcases hland.mem ha with ha | rfl
    · exact h.blocks a ha
    · exact hblocks
  · intro a ha
    show a.2.mapping ∈ st'.maps
    rw [hmaps]
    rcases hland.mem ha with ha | rfl
    · exact List.mem_cons_of_mem _ (h.mapped a ha)
    · exact List.mem_cons_self
  · show st'.maps.Pairwise Mapping.Apart
    have hlength : (freeSize size % 2 ^ m.sizeBits).toNat = blockBytes size :=
      pSize_eq (by have := hland.low; have := hland.high; omega)
    rw [hlength] at hfree
    rw [hmaps]
    exact List.pairwise_cons.2 ⟨fun mp hmp => (hfree mp hmp).symm, h.apart⟩
  · intro a ha
    rcases hland.mem ha with ha | rfl
    · obtain ⟨k, hk, hof⟩ := h.known a ha
      exact ⟨k, by simpa [hother a ha] using hk, hof⟩
    · refine ⟨⟨fo.toNat, size.toNat, fun _ => none⟩, by simp, rfl, hsize, fun i _ v hv => by simp at hv⟩
  · intro p k hk
    by_cases hp : p = ans.mmap
    · exact ⟨_, hnew, hp.symm⟩
    · obtain ⟨a, ha, rfl⟩ := h.only p k (by simpa [hp] using hk)
      refine ⟨a, ?_, rfl⟩
      rw [hland.new]
      rw [← hland.old] at ha
      simp only [List.mem_append, List.mem_cons] at ha ⊢
      tauto

/-- One step. -/
theorem next (h : x.Inv info l) (hlow : 0 ≤ info.offset + info.areaSize)
    (hhigh : info.offset + info.areaSize < 2 ^ 32) {a : Act m}
    (hok : a.Allowed x) : ∃ y l', x.next a = some y ∧ y.Inv info l' := by
  cases a with
  | call c =>
    cases c with
    | mmalloc size ans =>
      by_cases halloc : Allocates x.proc.st.info l size ans
      · exact h.allocates hlow hhigh hok halloc
      · obtain ⟨y, hy, hinv⟩ := h.allocFails hok halloc
        exact ⟨y, l, hy, hinv⟩
    | mfree p =>
      obtain ⟨y, hy, hinv⟩ := h.free p
      exact ⟨y, _, hy, hinv⟩
  | store p i v =>
    obtain ⟨r, hr, hi⟩ := hok
    obtain ⟨y, hy, hinv⟩ := h.store v hr hi
    exact ⟨y, l, hy, hinv⟩
  | mmsync ans =>
    obtain ⟨y, hy, hinv⟩ := h.sync ans
    exact ⟨y, l, hy, hinv⟩
  | mmread p t =>
    obtain ⟨y, hy, hinv⟩ := h.mmread hhigh hok
    exact ⟨y, l, hy, hinv⟩
  | system e =>
    obtain ⟨y, hy, hinv⟩ := h.system hok.1 hok.2
    exact ⟨y, l, hy, hinv⟩

end Client.Inv

theorem inv_lives (h : x.Inv info l) (hlow : 0 ≤ info.offset + info.areaSize)
    (hhigh : info.offset + info.areaSize < 2 ^ 32) (hr : Lives x y) : ∃ l', y.Inv info l' := by
  apply Reaches.inv (I := fun x => ∃ l', x.Inv info l') hr _ ⟨l, h⟩
  rintro x a y ⟨l', h'⟩ hok hrun
  obtain ⟨z, l'', hz, hinv⟩ := h'.next hlow hhigh hok
  obtain rfl := Option.some.inj (hz.symm.trans hrun)
  exact ⟨l'', hinv⟩

end

/-! ## Every state reached -/

/-- Loads answer the bytes the client counts on; each area is at the offset that `mget_phy_addr`
answers, which is 0 or above, ends where the window ends at the latest, and is apart from the others;
and `minfo` lists the areas, in order. -/
structure Client.Faithful (x : Client m) : Prop where
  load : ∀ p, ∀ r ∈ x.areas p, ∀ i < r.size, ∃ v, x.proc.load (p.toNat + i) = some v ∧
    ∀ w ∈ r.bytes i, v = w
  phys : ∀ p, ∀ r ∈ x.areas p, mgetPhyAddr x.proc.st p = some (BitVec.ofNat m.sizeBits r.base) ∧
    (r.base + r.size : Int) ≤ x.proc.st.info.offset + x.proc.st.info.areaSize
  apart : ∀ p q, p ≠ q → ∀ r ∈ x.areas p, ∀ k ∈ x.areas q, ∀ i < r.size,
    ∀ j < k.size, r.base + i ≠ k.base + j
  listed : ∃ rows, minfo x.proc.st = some rows ∧ rows.Pairwise Ent.Before ∧
    ∀ p, (∃ e ∈ rows, e.ptr = p) ↔ (x.areas p).isSome

/-- `y` follows on `x` by `mmsync`: an area whose `msync` has answered 0 is in the file, and what is in
no area is as before. -/
structure Client.Flushed (x y : Client m) (ans : Ptr m → Synced) : Prop where
  area : ∀ p, ∀ r ∈ x.areas p, (ans p).answer = 0 →
    ∀ i < r.size, x.proc.load (p.toNat + i) = some (y.proc.mem.store (r.base + i))
  rest : ∀ rows, minfo x.proc.st = some rows →
    ∀ o : Nat, (∀ e ∈ rows, ¬ (e.pAddr ≤ o ∧ o < e.pAddr + e.pSize)) →
    y.proc.mem.store o = x.proc.mem.store o

section
variable {info : MmallocInfo} {x : Client m} {l : List (Ref × Ent m)}

theorem Client.Inv.faithful (h : x.Inv info l) : x.Faithful := by
  constructor
  · intro p r hr i hi
    obtain ⟨a, -, -, hof⟩ := h.find hr
    refine ⟨x.proc.mem.cached (r.base + i), ?_, fun w hw => (hof.bytes i hi w hw).cached⟩
    simp [Process.load, h.resolve hr hi]
  · intro p r hr
    obtain ⟨a, ha, rfl, hof⟩ := h.find hr
    have hlow := (h.inOff ha).1
    have hends := (h.blocks a ha).ends
    have hbase := hof.base
    have hsize := hof.size
    constructor
    · rw [h.models.mgetPhyAddr (h.unshared.find ha), hbase, ← BitVec.ofInt_natCast,
        Int.toNat_of_nonneg hlow]
    · rw [h.same]
      omega
  · intro p q hpq r hr k hk i hi j hj
    obtain ⟨a, ha, rfl, hof⟩ := h.find hr
    obtain ⟨b, hb, rfl, hof'⟩ := h.find hk
    rw [hof.base, hof'.base]
    exact h.offset_ne ha hb hpq (Nat.lt_of_lt_of_le hi hof.size) (Nat.lt_of_lt_of_le hj hof'.size)
  · obtain ⟨asked, hs⟩ := h.session
    refine ⟨_, h.models.minfo, List.pairwise_map.2 hs.order, fun p => ?_⟩
    constructor
    · rintro ⟨e, he, rfl⟩
      obtain ⟨a, ha, rfl⟩ := List.mem_map.1 he
      obtain ⟨r, hr, -⟩ := h.known a ha
      exact Option.isSome_of_mem hr
    · intro hsome
      obtain ⟨r, hr⟩ := Option.isSome_iff_exists.1 hsome
      obtain ⟨a, ha, hp⟩ := h.only p r hr
      exact ⟨a.2, List.mem_map_of_mem ha, hp⟩

theorem Client.Inv.flushed (h : x.Inv info l) {ans : Ptr m → Synced} (hok : (Act.mmsync ans).Allowed x) :
    ∃ y, x.next (.mmsync ans) = some y ∧ x.Flushed y ans := by
  obtain ⟨es, hes, hmem⟩ := h.mmsync ans
  have hflush : ∀ ev ∈ es, ∃ o, ev = .flush o := by
    intro ev hev
    obtain ⟨a, -, i, -, -, rfl⟩ := (hmem ev).1 hev
    exact ⟨_, rfl⟩
  refine ⟨⟨{ x.proc with mem := x.proc.mem.run es }, x.areas⟩,
    by simp [Client.next, Process.next, hes, Client.note], ?_, ?_⟩
  · intro p r hr hans i hi
    obtain ⟨a, ha, rfl, hof⟩ := h.find hr
    have hin : .flush (r.base + i) ∈ es := by
      rw [hmem, hof.base]
      exact ⟨a, ha, i, Nat.lt_of_lt_of_le hi hof.size, hok _ hans i, rfl⟩
    rw [Process.load, h.resolve hr hi, (run_flush hflush).2.1 hin]
    rfl
  · intro rows hrows o ho
    obtain rfl : l.map Prod.snd = rows := Option.some.inj (h.models.minfo.symm.trans hrows)
    refine (run_flush hflush).2.2 fun hin => ?_
    obtain ⟨a, ha, i, hi, -, heq⟩ := (hmem _).1 hin
    obtain rfl := Event.flush.inj heq
    have hlow := (h.inOff ha).1
    exact ho a.2 (List.mem_map_of_mem ha) (by omega)

end

theorem maps_init {fd offset : Int} {size : Nat} {malloc : Option (Ref × Cell (Ent m))} {st : State m}
    (h : mmallocInit (State.start m) fd offset size malloc = some (0, st)) : st.maps = [] := by
  unfold mmallocInit at h
  split at h
  · next hfd =>
    obtain ⟨rfl, _⟩ := Prod.mk.inj (Option.some.inj h)
    exact absurd hfd (by decide)
  · obtain ⟨⟨r, junk⟩, _, hst⟩ := Option.bind_eq_some_iff.1 h
    obtain ⟨_, rfl⟩ := Prod.mk.inj (Option.some.inj hst)
    rfl

/-- **The areas are arrays.**  While every allocation fits, and in a window that ends below 2 ^ 32,
every state reached from `mmallocInit` is faithful to what the client knows, no step faults, and after
a `mmsync` the bytes are in the file. -/
theorem area_memory {fd offset : Int} {size : Nat} {malloc : Option (Ref × Cell (Ent m))} {st : State m}
    (hinit : mmallocInit (State.start m) fd offset size malloc = some (0, st))
    (hlow : 0 ≤ offset + size) (hhigh : offset + size < 2 ^ 32)
    {mem : Cache Nat (BitVec 8)} {x : Client m} (hx : Lives ⟨⟨st, mem⟩, fun _ => none⟩ x) :
    x.Faithful ∧ (∀ a : Act m, a.Allowed x → (x.next a).isSome) ∧
      ∀ ans, (Act.mmsync ans).Allowed x → ∃ y, x.next (.mmsync ans) = some y ∧ x.Flushed y ans := by
  obtain ⟨hmodels, hoffset, hsize⟩ := models_init hinit
  have hstart : Client.Inv st.info ⟨⟨st, mem⟩, fun _ => none⟩ [] := by
    refine ⟨rfl, ⟨_, inv_init hinit⟩, List.nodup_nil, by simp, by simp, ?_, by simp, by simp⟩
    show st.maps.Pairwise _
    rw [maps_init hinit]
    exact .nil
  rw [← hoffset, ← hsize] at hlow hhigh
  obtain ⟨l, hinv⟩ := inv_lives hstart hlow hhigh hx
  refine ⟨hinv.faithful, fun a hok => ?_, fun ans hok => hinv.flushed hok⟩
  obtain ⟨y, _, hy, -⟩ := hinv.next hlow hhigh hok
  rw [hy]
  rfl

/-- A file of zeros, and clean pages. -/
def zeroPages : Cache Nat (BitVec 8) := ⟨fun _ => 0, fun _ => false, fun _ => 0⟩

/-- A call of the client or one of its stores. -/
def Act.byClient : Act m → Prop
  | .call _ | .store .. => True
  | _ => False

instance (x : Client m) : (a : Act m) → Decidable (a.byClient ∧ a.Allowed x)
  | .call (.mmalloc size ans) => inferInstanceAs (Decidable (True ∧ ans.Allowed x.proc.st size ∧
      Harmless x.proc.st (.mmalloc size ans) ∧ (ans.mmap ≠ mapFailed m → ans.mmap ≠ 0 ∧
        ∀ mp ∈ x.proc.st.maps, Mapping.Apart mp ⟨ans.mmap, (freeSize size % 2 ^ m.sizeBits).toNat, 0⟩)))
  | .call (.mfree _) => inferInstanceAs (Decidable (True ∧ True))
  | .store p i _ => inferInstanceAs (Decidable (True ∧ ∃ r ∈ x.areas p, i < r.size))
  | .mmsync _ => isFalse And.left
  | .mmread .. => isFalse And.left
  | .system _ => isFalse And.left

/-- Two areas, and a byte stored into each of them. -/
def twoAreaActs : List (Act .lp64) :=
  [.call (.mmalloc 100 ⟨some (2, junkCell), 0x1000⟩),
    .call (.mmalloc 5000 ⟨some (3, junkCell), 0x2000⟩), .store 0x1000 5 7, .store 0x2000 4999 9]

theorem area_memory_two : ∃ x : Client .lp64, Lives ⟨⟨oneMiB, zeroPages⟩, fun _ => none⟩ x ∧
    x.proc.load (0x1000 + 5) = some 7 ∧ x.proc.load (0x2000 + 4999) = some 9 ∧
    mgetPhyAddr x.proc.st 0x2000 = some 8192 ∧ x.Faithful := by
  have hrun : ∃ x ∈ replay Client.next (fun x a => a.byClient ∧ a.Allowed x) twoAreaActs
      ⟨⟨oneMiB, zeroPages⟩, fun _ => none⟩,
      x.proc.load (0x1000 + 5) = some 7 ∧ x.proc.load (0x2000 + 4999) = some 9 ∧
        mgetPhyAddr x.proc.st 0x2000 = some 8192 := by
    decide +kernel
  obtain ⟨x, hx, hload, hload', hphys⟩ := hrun
  have hinit : mmallocInit (State.start .lp64) 3 0 (1024 * 1024) (some (1, junkCell)) =
      some (0, oneMiB) := rfl
  have hallowed : ∀ y z : Client .lp64, Fires Client.next (fun x a => a.byClient ∧ a.Allowed x) y z →
      Fires Client.next (fun x a => a.Allowed x) y z := by
    rintro y z ⟨a, ⟨-, hok⟩, hstep⟩
    exact ⟨a, hok, hstep⟩
  have hlives : Lives ⟨⟨oneMiB, zeroPages⟩, fun _ => none⟩ x :=
    Relation.ReflTransGen.mono hallowed _ _ (replay_reaches hx)
  exact ⟨x, hlives, hload, hload', hphys, (area_memory hinit (by decide) (by decide) hlives).1⟩

end Libfic2.Mmalloc
