import Libfic2.SelectMap

/-!
# Rules for devices that do not act by themselves

For a device without steps of its own (`Still`) the world changes only through
the library, so each operation and each small function of the library has one
rule: `wp_set` .. `wp_get` for the operations, `wp_pollTimed` and `wp_spin` for the
waits, `wp_ficSetGpio` .. `wp_checkClr` for setting and clearing pins.  The `can_`
rules show that a run exists, on a device that lets driven pins read back (`ReadsLatch`).
-/

namespace Libfic2

open Driver Prog

section
variable {D : Type} {dev : Device D}

/-- The device has no steps of its own. -/
def Device.Still (dev : Device D) : Prop := ∀ g d d', ¬ dev.env g d d'

theorem Device.Still.quiet (hs : dev.Still) : (sys dev).Quiet := by
  rintro s s' ⟨d, hd, -⟩
  exact hs _ _ _ hd

variable {α : Type} {J : World D → Prop} {Q : α → World D → Prop} {s : World D} (hs : dev.Still)
include hs

/-! ## Operations -/

theorem wp_retStill {a : α} (hJ : J s) (hQ : Q a s) : wp (sys dev) J Q (ret a) s := by
  intro t ht
  rw [hs.quiet.drift ht]
  exact ⟨hJ, hQ⟩

theorem wp_opStill {o : Op} {k : Ans o → P α} (hJ : J s)
    (h : ∀ a s', (sys dev).act o s a s' → wp (sys dev) J Q (k a) s') :
    wp (sys dev) J Q (issue o >>= k) s := by
  exact wp_callQuiet hs.quiet hJ h

section
variable {k : Unit → P α} (hJ : J s)
include hJ

theorem wp_set (v : BitVec 32) (h : wp (sys dev) J Q (k ()) (s.touch dev (s.gpio.set v))) :
    wp (sys dev) J Q (issue (.set v) >>= k) s :=
  wp_opStill hs hJ fun _ s' (ha : s' = _) => by rw [ha]; exact h

theorem wp_clr (v : BitVec 32) (h : wp (sys dev) J Q (k ()) (s.touch dev (s.gpio.clr v))) :
    wp (sys dev) J Q (issue (.clr v) >>= k) s :=
  wp_opStill hs hJ fun _ s' (ha : s' = _) => by rw [ha]; exact h

theorem wp_setInput (p : Nat) (h : wp (sys dev) J Q (k ()) (s.touch dev (s.gpio.setInput p))) :
    wp (sys dev) J Q (issue (.setInput p) >>= k) s :=
  wp_opStill hs hJ fun _ s' (ha : s' = _) => by rw [ha]; exact h

theorem wp_setOutput (p : Nat) (h : wp (sys dev) J Q (k ()) (s.touch dev (s.gpio.setOutput p))) :
    wp (sys dev) J Q (issue (.setOutput p) >>= k) s :=
  wp_opStill hs hJ fun _ s' (ha : s' = _) => by rw [ha]; exact h

theorem wp_stat (f : ProgStat → ProgStat)
    (h : wp (sys dev) J Q (k ()) { s with stat := f s.stat }) :
    wp (sys dev) J Q (issue (.stat f) >>= k) s :=
  wp_opStill hs hJ fun _ s' (ha : s' = _) => by rw [ha]; exact h

theorem wp_time {k : Int → P α} (h : ∀ t, wp (sys dev) J Q (k t) s) :
    wp (sys dev) J Q (issue .time >>= k) s :=
  wp_opStill hs hJ fun a s' (ha : s' = _) => by rw [ha]; exact h a

theorem wp_clock {k : Int → P α} (h : ∀ t, wp (sys dev) J Q (k t) s) :
    wp (sys dev) J Q (issue .clock >>= k) s :=
  wp_opStill hs hJ fun a s' (ha : s' = _) => by rw [ha]; exact h a

theorem wp_get {k : BitVec 32 → P α} (h : ∀ v, dev.level s.gpio s.dev v → wp (sys dev) J Q (k v) s) :
    wp (sys dev) J Q (issue .get >>= k) s :=
  wp_opStill hs hJ fun a s' ha => by rw [ha.2]; exact h a ha.1

end

/-! ## Waiting -/

variable {R : Int → World D → Prop} (fuel : Nat) (c : BitVec 32 → Bool) (hJ : J s)
include hJ

theorem wp_spin (h : ∀ v, dev.level s.gpio s.dev v → c v = false → R 0 s) :
    wp (sys dev) J R (spin fuel c) s := by
  refine wp_loop (fun t => t = s) fuel (fun t ht => ?_) rfl
  subst ht
  refine wp_get hs hJ fun v hv => ?_
  split
  · exact wp_retStill hs hJ rfl
  · next hc => exact wp_retStill hs hJ (wp_retStill hs hJ (h v hv (by simpa using hc)))

theorem wp_pollTimed (h0 : ∀ v, dev.level s.gpio s.dev v → c v = false → R 0 s) (h1 : R (-1) s) :
    wp (sys dev) J R (pollTimed fuel c) s := by
  refine wp_time hs hJ fun t1 => wp_loop (fun t => t = s) fuel (fun t ht => ?_) rfl
  subst ht
  refine wp_get hs hJ fun v hv => ?_
  split
  · refine wp_time hs hJ fun t2 => ?_
    split
    · exact wp_retStill hs hJ (wp_retStill hs hJ h1)
    · exact wp_retStill hs hJ rfl
  · next hc => exact wp_retStill hs hJ (wp_retStill hs hJ (h0 v hv (by simpa using hc)))

omit c in
theorem wp_ficSetGpio (m : BitVec 32) (hJ' : J (s.touch dev (s.gpio.set m)))
    (h : ∀ r, R r (s.touch dev (s.gpio.set m))) : wp (sys dev) J R (ficSetGpio fuel m) s :=
  wp_set hs hJ m (wp_pollTimed hs fuel _ hJ' (fun _ _ _ => h 0) (h (-1)))

omit c in
theorem wp_ficClrGpio (m : BitVec 32) (hJ' : J (s.touch dev (s.gpio.clr m)))
    (h : ∀ r, R r (s.touch dev (s.gpio.clr m))) : wp (sys dev) J R (ficClrGpio fuel m) s :=
  wp_clr hs hJ m (wp_pollTimed hs fuel _ hJ' (fun _ _ _ => h 0) (h (-1)))

omit c in
theorem wp_ficSetGpioFast (m : BitVec 32) (hJ' : J (s.touch dev (s.gpio.set m)))
    (h : R 0 (s.touch dev (s.gpio.set m))) : wp (sys dev) J R (ficSetGpioFast fuel m) s :=
  wp_set hs hJ m (wp_spin hs fuel _ hJ' fun _ _ _ => h)

omit c in
theorem wp_ficClrGpioFast (m : BitVec 32) (hJ' : J (s.touch dev (s.gpio.clr m)))
    (h : R 0 (s.touch dev (s.gpio.clr m))) : wp (sys dev) J R (ficClrGpioFast fuel m) s :=
  wp_clr hs hJ m (wp_spin hs fuel _ hJ' fun _ _ _ => h)

/-! ## Setting and clearing with a test -/

omit c in
theorem wp_checkSet (e : α) (m : BitVec 32) {k : P α}
    (he : wp (sys dev) J Q (ret e) (s.touch dev (s.gpio.set m)))
    (hk : wp (sys dev) J Q k (s.touch dev (s.gpio.set m))) :
    wp (sys dev) J Q (checkOr e (ficSetGpio fuel m) k) s :=
  wp_checkOr (wp_ficSetGpio hs fuel hJ m (wp_inv he) fun _ => ⟨fun _ => he, fun _ => hk⟩)

omit c in
theorem wp_checkClr (e : α) (m : BitVec 32) {k : P α}
    (he : wp (sys dev) J Q (ret e) (s.touch dev (s.gpio.clr m)))
    (hk : wp (sys dev) J Q k (s.touch dev (s.gpio.clr m))) :
    wp (sys dev) J Q (checkOr e (ficClrGpio fuel m) k) s :=
  wp_checkOr (wp_ficClrGpio hs fuel hJ m (wp_inv he) fun _ => ⟨fun _ => he, fun _ => hk⟩)

end

/-! ## Some run -/

section
variable {D : Type} {dev : Device D} {α : Type} {Q : α → World D → Prop} {s : World D}

theorem can_issue {o : Op} {k : Ans o → P α} (a : Ans o) {s' : World D}
    (ha : (sys dev).act o s a s') (h : can (sys dev) Q (k a) s') : can (sys dev) Q (issue o >>= k) s :=
  ⟨s, a, s', .refl, ha, h⟩

theorem can_get {k : BitVec 32 → P α} (v : BitVec 32) (hv : dev.level s.gpio s.dev v)
    (h : can (sys dev) Q (k v) s) : can (sys dev) Q (issue .get >>= k) s :=
  can_issue v ⟨hv, rfl⟩ h

theorem can_time {k : Int → P α} (h : can (sys dev) Q (k 0) s) :
    can (sys dev) Q (issue .time >>= k) s :=
  can_issue (o := .time) (0 : Int) rfl h

theorem can_clock {k : Int → P α} (h : can (sys dev) Q (k 0) s) :
    can (sys dev) Q (issue .clock >>= k) s :=
  can_issue (o := .clock) (0 : Int) rfl h

/-- The latch reads set bits high. -/
theorem notSet_latch (g : Gpio) (m : BitVec 32) : notSet m (g.set m).latch = false := by
  have : (g.set m).latch &&& m = m := by
    apply BitVec.eq_of_getLsbD_eq
    intro p _
    rw [BitVec.getLsbD_and, show (g.set m).latch.getLsbD p = (g.set m).lat p from rfl, Gpio.lat_set]
    cases m.getLsbD p <;> simp
  unfold notSet
  rw [this, BitVec.xor_self]
  rfl

theorem notClr_latch (g : Gpio) (m : BitVec 32) : notClr m (g.clr m).latch = false := by
  have : (g.clr m).latch &&& m = 0#32 := by
    apply BitVec.eq_of_getLsbD_eq
    intro p _
    rw [BitVec.getLsbD_and, show (g.clr m).latch.getLsbD p = (g.clr m).lat p from rfl, Gpio.lat_clr]
    cases m.getLsbD p <;> simp
  unfold notClr
  rw [this]
  rfl

variable {R : Int → World D → Prop} (fuel : Nat)

theorem can_pollTimed {c : BitVec 32 → Bool} (v : BitVec 32) (hv : dev.level s.gpio s.dev v)
    (hc : c v = false) (h : R 0 s) : can (sys dev) R (pollTimed (fuel + 1) c) s := by
  refine can_time (can_loop (can_get v hv ?_))
  rw [hc]
  exact ⟨0, rfl, h⟩

theorem can_spin {c : BitVec 32 → Bool} (v : BitVec 32) (hv : dev.level s.gpio s.dev v)
    (hc : c v = false) (h : R 0 s) : can (sys dev) R (spin (fuel + 1) c) s := by
  refine can_loop (can_get v hv ?_)
  rw [hc]
  exact ⟨0, rfl, h⟩

/-- GET_GPIO may read the output latch. -/
def Device.ReadsLatch (dev : Device D) : Prop := ∀ g d, dev.level g d g.latch

variable (hl : dev.ReadsLatch) (m : BitVec 32)
include hl

theorem can_ficSetGpio (h : R 0 (s.touch dev (s.gpio.set m))) :
    can (sys dev) R (ficSetGpio (fuel + 1) m) s :=
  can_issue (o := .set m) () rfl (can_pollTimed fuel _ (hl _ _) (notSet_latch _ _) h)

theorem can_ficClrGpio (h : R 0 (s.touch dev (s.gpio.clr m))) :
    can (sys dev) R (ficClrGpio (fuel + 1) m) s :=
  can_issue (o := .clr m) () rfl (can_pollTimed fuel _ (hl _ _) (notClr_latch _ _) h)

theorem can_ficClrGpioFast (h : R 0 (s.touch dev (s.gpio.clr m))) :
    can (sys dev) R (ficClrGpioFast (fuel + 1) m) s :=
  can_issue (o := .clr m) () rfl (can_spin fuel _ (hl _ _) (notClr_latch _ _) h)

theorem can_ficSetGpioFast (h : R 0 (s.touch dev (s.gpio.set m))) :
    can (sys dev) R (ficSetGpioFast (fuel + 1) m) s :=
  can_issue (o := .set m) () rfl (can_spin fuel _ (hl _ _) (notSet_latch _ _) h)

theorem can_checkSet {e : α} {k : P α} (h : can (sys dev) Q k (s.touch dev (s.gpio.set m))) :
    can (sys dev) Q (checkOr e (ficSetGpio (fuel + 1) m) k) s :=
  can_checkOr (can_ficSetGpio fuel hl m ⟨by decide, h⟩)

theorem can_checkClr {e : α} {k : P α} (h : can (sys dev) Q k (s.touch dev (s.gpio.clr m))) :
    can (sys dev) Q (checkOr e (ficClrGpio (fuel + 1) m) k) s :=
  can_checkOr (can_ficClrGpio fuel hl m ⟨by decide, h⟩)

end

/-! ## The entry of a programming function -/

/-- After the stores of `progBegin`, with `t` from `clock`. -/
def ProgStat.begun (st : ProgStat) (smap : ProgSmapMode) (size : Nat) (pm : ProgMode) (t : Int) :
    ProgStat :=
  { st with
    stat := .prog
    smapMode := smap
    progMode := pm
    progStTime := t
    progSize := size
    txSize := 0 }

section
variable {D : Type} {dev : Device D} {α : Type} {J : World D → Prop} {Q : α → World D → Prop}
    {s : World D} {k : Unit → P α}

/-- Only PROG_STAT changes. -/
theorem wp_progBegin (hs : dev.Still) (smap : ProgSmapMode) (size : Nat) (pm : ProgMode)
    (hJ : ∀ st, J { s with stat := st })
    (h : ∀ t, wp (sys dev) J Q (k ()) { s with stat := s.stat.begun smap size pm t }) :
    wp (sys dev) J Q (progBegin smap size pm >>= k) s := by
  refine wp_stat hs (hJ _) _ <| wp_stat hs (hJ _) _ <| wp_stat hs (hJ _) _ <| wp_clock hs (hJ _) fun t => ?_
  exact wp_stat hs (hJ _) _ <| wp_stat hs (hJ _) _ <| wp_stat hs (hJ _) _ <| h t

theorem can_progBegin (smap : ProgSmapMode) (size : Nat) (pm : ProgMode)
    (h : can (sys dev) Q (k ()) { s with stat := s.stat.begun smap size pm 0 }) :
    can (sys dev) Q (progBegin smap size pm >>= k) s := by
  refine can_issue (o := .stat _) () rfl <| can_issue (o := .stat _) () rfl <|
    can_issue (o := .stat _) () rfl <| can_clock ?_
  exact can_issue (o := .stat _) () rfl <| can_issue (o := .stat _) () rfl <|
    can_issue (o := .stat _) () rfl h

end

end Libfic2
