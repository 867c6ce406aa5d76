import Libfic2.FastProgramming
import Libfic2.ProgOutcome

/-!
# What the FPGA samples along a trace

The sampler sees the pins only, so the trace of a call tells what it has sampled.

* `prog_samples`: a programming function that answers more than 0 has let the FPGA sample the bytes of
  its buffer, from the first one on; further words may come after them
-/

namespace Libfic2

open Driver Prog Sys

/-- The words sampled along a trace, from the pins `g` on. -/
def samples (float : BitVec 32) (n : Nat) : Gpio → List Ev → List (BitVec n)
  | _, [] => []
  | g, e :: l =>
      (if clockEdge g (e.1.pins g) then [(e.1.pins g).bus float (rpCd 0) n] else []) ++
        samples float n (e.1.pins g) l

section
variable {float : BitVec 32} {n : Nat}

theorem samples_append (g : Gpio) (l l' : List Ev) :
    samples float n g (l ++ l') = samples float n g l ++ samples float n (g.after l) l' := by
  induction l generalizing g with
  | nil => rfl
  | cons e l ih =>
    show _ ++ samples float n (e.1.pins g) (l ++ l') = _
    rw [ih, ← List.append_assoc]
    rfl

theorem clockEdge_self (g : Gpio) : clockEdge g g = false := clockEdge_of_high id

/-- GET_GPIO reads anything. -/
abbrev anyLevel : Gpio → BitVec 32 → Prop := fun _ _ => True

/-- One operation, whatever it answers. -/
theorem sampler_act (float : BitVec 32) (o : Op) (a : Ans o) (s : World (List (BitVec n))) :
    ∃ t, (sys (sampler anyLevel float n)).act o s a t ∧
      t.gpio = o.pins s.gpio ∧ t.dev = s.dev ++ if clockEdge s.gpio
      (o.pins s.gpio) then [(o.pins s.gpio).bus float (rpCd 0) n] else [] := by
  have hquiet : s.dev = s.dev ++ if clockEdge s.gpio s.gpio then [s.gpio.bus float (rpCd 0) n] else [] := by
    rw [clockEdge_self]
    exact (List.append_nil _).symm
  have htouch : ∀ g : Gpio, (s.touch (sampler anyLevel float n) g).dev =
      s.dev ++ if clockEdge s.gpio g then [g.bus float (rpCd 0) n] else [] := by
    intro g
    show (if clockEdge s.gpio g then s.dev ++ [g.bus float (rpCd 0) n] else s.dev) = _
    split
    · rfl
    · exact (List.append_nil _).symm
  cases o with
  | get => exact ⟨s, ⟨trivial, rfl⟩, rfl, hquiet⟩
  | time => exact ⟨s, rfl, rfl, hquiet⟩
  | clock => exact ⟨s, rfl, rfl, hquiet⟩
  | stat f => exact ⟨{ s with stat := f s.stat }, rfl, rfl, hquiet⟩
  | setInput p => exact ⟨_, rfl, rfl, htouch _⟩
  | setOutput p => exact ⟨_, rfl, rfl, htouch _⟩
  | clearSel r => exact ⟨_, rfl, rfl, htouch _⟩
  | set v => exact ⟨_, rfl, rfl, htouch _⟩
  | clr v => exact ⟨_, rfl, rfl, htouch _⟩

/-- A trace is the trace of a run on the sampler. -/
theorem ends_sampled {α : Type} (float : BitVec 32) {p : P α} {l : List Ev} {a : α} (h : Ends p l a)
    (s : World (List (BitVec n))) :
    ∃ t, (sys (sampler anyLevel float n)).Run (p, s) (ret a, t) ∧
      t.dev = s.dev ++ samples float n s.gpio l := by
  induction p generalizing l s with
  | ret b =>
    obtain ⟨rfl, rfl⟩ := h
    exact ⟨s, .refl, (List.append_nil _).symm⟩
  | op o k ih =>
    obtain ⟨c, l', rfl, h'⟩ := h
    obtain ⟨u, hact, hgpio, hdev⟩ := sampler_act float o c s
    obtain ⟨t, hrun, ht⟩ := ih c h' u
    refine ⟨t, .head (.act hact) hrun, ?_⟩
    rw [ht, hdev, hgpio, List.append_assoc]
    rfl
  | hang => exact h.elim

end

/-! ## The words of a buffer -/

/-- The words of a buffer, as the data pins take them. -/
def ProgFn.words (data : Mem) (size : Nat) : (f : ProgFn) → List (BitVec f.lanes)
  | sm8 | sm8Fast => (List.range size).map data
  | sm16 | sm16Fast => (List.range (size / 2)).map (pairAt data)

section
variable {lv : Gpio → BitVec 32 → Prop} {float : BitVec 32} (b : Board) (fuel : Nat)
    {data : Mem} {size : Nat}

theorem range_initial {γ : Type} (w : Nat → γ) {k m : Nat} (h : k ≤ m) :
    (List.range k).map w <+: (List.range' 0 m).map w := by
  obtain ⟨d, rfl⟩ := Nat.exists_eq_add_of_le h
  rw [← List.range_eq_range', List.range_add, List.map_append]
  exact List.prefix_append ..

/-- The data loops, the fast ones too: what they clock begins with the words of the buffer. -/
theorem wp_progBody (f : ProgFn) (heven : f.lanes = 16 → size % 2 = 0) {l : List (BitVec f.lanes)}
    {s : World (List (BitVec f.lanes))}
    (hs : Sampled 0#32 false l s) : wp (sys (sampler lv float f.lanes)) anyTime
      (fun r u => ∀ k, r = some k → size ≤ k → l ++ f.words data size <+: u.dev)
      (f.body fuel data size) s := by
  cases f with
  | sm8 =>
    refine wp_mono (wp_plainLoop8 fuel data size 0 hs) fun r u _ hu k hk _ => ?_
    rw [(hu k hk).2]
    exact (List.prefix_append_right_inj l).2 (range_initial _ (Nat.le_refl _))
  | sm8Fast =>
    refine wp_mono (wp_fastLoop8 fuel data size (size + 1) 0 0#8 hs) fun r u _ hu k hk hlong => ?_
    rw [(hu k hk).2]
    exact (List.prefix_append_right_inj l).2 (range_initial _ (by omega))
  | sm16 =>
    obtain ⟨q, rfl⟩ := Nat.dvd_of_mod_eq_zero (heven rfl)
    unfold ProgFn.body
    rw [show (2 * q + 1) / 2 = q by omega]
    refine wp_mono (wp_plainLoop16 fuel data q 0 hs) fun r u _ hu k hk _ => ?_
    rw [(hu k hk).2]
    exact (List.prefix_append_right_inj l).2 (range_initial _ (by omega))
  | sm16Fast =>
    obtain ⟨q, rfl⟩ := Nat.dvd_of_mod_eq_zero (heven rfl)
    refine wp_mono (wp_fastLoop16 fuel data q (2 * q + 1) 0 0#8 0#8 hs) fun r u _ hu k hk hlong => ?_
    rw [(hu k hk).2]
    exact (List.prefix_append_right_inj l).2 (range_initial _ (by omega))

/-- A call that has come through its data loop has clocked the words of the buffer, and nothing before
them. -/
theorem load_samples (f : ProgFn) {pm : ProgMode} {l : List Ev} {n : Nat}
    (heven : f.lanes = 16 → size % 2 = 0)
    (h : Ends (progLoad b fuel f.smap f.lanes (f.body fuel data size) size pm) l (some n)) (g : Gpio) :
    f.words data size <+: samples float f.lanes g l := by
  obtain ⟨t, hrun, ht⟩ := ends_sampled float h ⟨g, World.start.stat, []⟩
  obtain ⟨_, _, _, _, _, -, -, -, hbody⟩ := ends_progLoad h
  have hlanes : f.lanes ≤ 16 := by cases f <;> decide
  have hwp : wp (sys (sampler anyLevel float f.lanes)) anyTime (fun r u => ∀ k, r = some k → size ≤ k →
      f.words data size <+: u.dev)
      (progLoad b fuel f.smap f.lanes (f.body fuel data size) size pm) ⟨g, World.start.stat, []⟩ :=
    wp_progLoad b fuel hlanes f.smap size pm (fun u hu => wp_progBody fuel f heven hu)
      fun _ _ hk => nomatch hk
  have hpre := wp_run_ret hwp hrun n rfl (f.ends_index hbody)
  rw [ht] at hpre
  exact hpre

/-- **A call that answers more than 0.** -/
theorem prog_samples (f : ProgFn) {pm : ProgMode} {l : List Ev} {n : Nat}
    (heven : f.lanes = 16 → size % 2 = 0)
    (h : Ends (f.prog b fuel data size pm) l n) (hn : 0 < n) (g : Gpio) :
    f.words data size <+: samples float f.lanes g l := by
  rw [ProgFn.prog_eq] at h
  obtain ⟨o, l1, l2, rfl, hload, hfinish⟩ := ends_bind.1 h
  cases o with
  | none =>
    obtain ⟨rfl, -, -⟩ := ends_progEnd hfinish g World.start.stat
    cases hn
  | some k =>
    rw [samples_append]
    exact (load_samples b fuel f heven hload g).trans (List.prefix_append ..)

end

end Libfic2
