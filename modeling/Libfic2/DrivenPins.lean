import Libfic2.Driver.Contracts
import Libfic2.PinSharing
import Libfic2.HlsLoops

/-!
# Which pins are outputs when the library sets and clears pins

`Outs S`: the pins of `S` are outputs.  Between set-up and release the functions set and
clear pins of `S` only and come to an end, whatever the FPGA does and whatever the clock
shows (`Keeps`): a pin that is driven reads back as driven, so that the waits without a
timeout end at once, and the others end when the clock or their counter has run out.
-/

namespace Libfic2

open Driver Prog

/-! ## Masks and outputs -/

/-- The pins of `S` are outputs. -/
def Outs (S : Nat → Prop) (g : Gpio) : Prop := ∀ p, S p → g.isOut p = true

/-- What is set or cleared is an output. -/
def MaskDriven : Op → Gpio → Prop
  | .set v, g => Within (fun p => g.isOut p = true) v
  | .clr v, g => Within (fun p => g.isOut p = true) v
  | _, _ => True

section
variable {S S' : Nat → Prop} {v w : BitVec 32} {g : Gpio}

theorem Outs.mono (h : Outs S g) (hS : ∀ p, S' p → S p) : Outs S' g := fun p hp => h p (hS p hp)

theorem within_busWord {b : Board} (h : ∀ p, dataPin b p = true → S p) (w : BitVec b.width) :
    Within S (busWord b w) := by
  intro p hp hb
  rw [getLsbD_busWord w hp, Bool.and_eq_true] at hb
  exact h p hb.1

theorem within_sendMask {b : Board} (hr : S b.rpRstb) (h : ∀ p, dataPin b p = true → S p) :
    Within S (sendMask b) := by
  intro p hp hb
  rw [getLsbD_sendMask hp, Bool.or_eq_true, beq_iff_eq] at hb
  exact hb.elim (fun e => e ▸ hr) (h p)

end

/-! ## The other side -/

/-- What the FPGA puts on the pins, and the clocks, at every step. -/
structure Env where
  levels : Nat → BitVec 32
  clock : Nat → Int
  cpu : Nat → Int
  mono : ∀ i j, i ≤ j → clock i ≤ clock j
  unbounded : ∀ n : Int, ∃ i, n < clock i

/-- The pins, and the number of operations so far. -/
structure Moment where
  gpio : Gpio
  step : Nat

/-- Where operations are allowed: at least where they set and clear outputs. -/
structure Guard where
  allows : Op → Gpio → Prop
  driven : ∀ o g, MaskDriven o g → allows o g

/-- GET_GPIO reads driven pins as driven. -/
def Env.answer (E : Env) : (o : Op) → Moment → Ans o × Moment
  | .get, s => (s.gpio.bus (E.levels s.step) 0 32, ⟨s.gpio, s.step + 1⟩)
  | .time, s => (E.clock s.step, ⟨s.gpio, s.step + 1⟩)
  | .clock, s => (E.cpu s.step, ⟨s.gpio, s.step + 1⟩)
  | .stat _, s => ((), ⟨s.gpio, s.step + 1⟩)
  | .setInput p, s => ((), ⟨s.gpio.setInput p, s.step + 1⟩)
  | .setOutput p, s => ((), ⟨s.gpio.setOutput p, s.step + 1⟩)
  | .clearSel r, s => ((), ⟨s.gpio.clearSel r, s.step + 1⟩)
  | .set v, s => ((), ⟨s.gpio.set v, s.step + 1⟩)
  | .clr v, s => ((), ⟨s.gpio.clr v, s.step + 1⟩)

def Env.bench (E : Env) (G : Guard) : Bench Op Ans Gpio Moment where
  eff := Op.pins
  allows := G.allows
  part := Moment.gpio
  answer := E.answer
  part_answer o s := by cases o <;> rfl

variable {E : Env} {G : Guard} {S : Nat → Prop} {α β : Type}

theorem answer_step (o : Op) (s : Moment) : ((E.bench G).answer o s).2.step = s.step + 1 := by
  cases o <;> rfl

theorem exec_step {p : P α} {s s' : Moment} {a : α} (h : (E.bench G).exec p s = some (a, s')) :
    s.step ≤ s'.step :=
  Bench.exec_induct (I := fun t => s.step ≤ t.step)
    (fun o t ht => by rw [answer_step]; omega) (Nat.le_refl _) h

/-- A driven pin reads back as driven. -/
theorem getLsbD_read {g : Gpio} {float : BitVec 32} {p : Nat} (hp : p < 32) (h : g.isOut p = true) :
    (g.bus float 0 32).getLsbD p = g.lat p := by
  unfold Gpio.bus
  rw [getLsbD_ofBits, decide_eq_true hp, Bool.true_and, Nat.zero_add, if_pos h]

theorem read_set {g : Gpio} {float v : BitVec 32} (h : Within (fun p => g.isOut p = true) v) :
    notSet v ((g.set v).bus float 0 32) = false := by
  unfold notSet
  rw [bne_eq_false_iff_eq]
  apply BitVec.eq_of_getLsbD_eq
  intro p hp
  rw [BitVec.getLsbD_xor, BitVec.getLsbD_and, BitVec.getLsbD_zero]
  cases hv : v.getLsbD p with
  | false => rw [Bool.and_false, Bool.false_xor]
  | true =>
      rw [getLsbD_read hp (show (g.set v).isOut p = true from h p hp hv),
        Gpio.lat_set, hv, Bool.or_true]; rfl

theorem read_clr {g : Gpio} {float v : BitVec 32} (h : Within (fun p => g.isOut p = true) v) :
    notClr v ((g.clr v).bus float 0 32) = false := by
  unfold notClr
  rw [bne_eq_false_iff_eq]
  apply BitVec.eq_of_getLsbD_eq
  intro p hp
  rw [BitVec.getLsbD_and, BitVec.getLsbD_zero]
  cases hv : v.getLsbD p with
  | false => rw [Bool.and_false]
  | true =>
      rw [getLsbD_read hp (show (g.clr v).isOut p = true from h p hp hv), Gpio.lat_clr, hv,
        Bool.not_true, Bool.and_false]; rfl

/-! ## Waiting -/

/-- `p` needs the outputs of `S` only, keeps them, and comes to an end. -/
def Keeps (E : Env) (G : Guard) (S : Nat → Prop) (p : Nat → P α) : Prop :=
  Contract (E.bench G) (Outs S) p fun _ => Outs S

theorem keeps_ret (a : α) : Keeps E G S fun _ => (ret a : P α) := contract_ret fun _ h => h

theorem keeps_bind {p : Nat → P α} {f : Nat → α → P β} (hp : Keeps E G S p)
    (hf : ∀ a, Keeps E G S fun n => f n a) : Keeps E G S fun n => p n >>= f n := contract_bind hp hf

theorem keeps_checkOr {q : Nat → P Int} {k : Nat → P α} {e : α} (hq : Keeps E G S q) (hk : Keeps E G S k) :
    Keeps E G S fun n => checkOr e (q n) (k n) :=
  contract_checkOr hq (fun _ _ _ h => h) (contract_mono hk (fun _ ⟨_, _, h⟩ => h) fun _ _ h => h)

theorem keeps_check {q k : Nat → P Int} (hq : Keeps E G S q) (hk : Keeps E G S k) :
    Keeps E G S fun n => check (q n) (k n) :=
  keeps_checkOr hq hk

theorem keeps_forDo {body : Nat → Nat → P Unit} (lo m : Nat)
    (h : ∀ i, lo ≤ i → i < lo + m → Keeps E G S fun n => body n i) :
    Keeps E G S fun n => forDo (body n) lo m :=
  contract_forDo (I := fun _ => Outs S) m lo h

/-- An operation that leaves the function selects. -/
theorem keeps_issue {o : Op} (ho : ∀ g, Outs S g → MaskDriven o g)
    (hfn : ∀ g p, (o.pins g).isOut p = g.isOut p) : Keeps E G S fun _ => issue o :=
  contract_call (fun g hg => G.driven o g (ho g hg)) fun g _ hg p hp => (hfn g p).trans (hg p hp)

theorem Outs.within {v : BitVec 32} {g : Gpio} (hg : Outs S g) (hv : Within S v) :
    Within (fun p => g.isOut p = true) v :=
  hv.mono hg

variable {v : BitVec 32}

theorem keeps_set (hv : Within S v) : Keeps E G S fun _ => issue (.set v) :=
  keeps_issue (fun _ hg => hg.within hv) fun _ _ => rfl

theorem keeps_clr (hv : Within S v) : Keeps E G S fun _ => issue (.clr v) :=
  keeps_issue (fun _ hg => hg.within hv) fun _ _ => rfl

theorem keeps_get : Keeps E G S fun _ => issue .get := keeps_issue (fun _ _ => trivial) fun _ _ => rfl
theorem keeps_time : Keeps E G S fun _ => issue .time := keeps_issue (fun _ _ => trivial) fun _ _ => rfl

/-- A wait that tests driven pins ends at the first reading. -/
theorem contract_spin {c : BitVec 32 → Bool} {Pre : Gpio → Prop}
    (hc : ∀ g float, Pre g → c (g.bus float 0 32) = false) :
    Contract (E.bench G) Pre (fun n => spin n c) fun _ => Pre := by
  refine contract_loop (fun _ => 0) ?_ ?_
  · refine contract_bind (contract_call (Q := fun _ => Pre) (fun _ _ => G.driven _ _ trivial)
      fun _ _ h => h) fun a => ?_
    exact contract_if (fun _ => contract_ret fun _ h => h) fun _ => contract_ret fun _ h => h
  intro n s s' hs he
  have hfirst : c (s.gpio.bus (E.levels s.step) 0 32) = false := hc s.gpio _ hs
  have hcases : (E.bench G).exec (if c (s.gpio.bus (E.levels s.step) 0 32) = true then ret none
      else ret (some (0 : Int)) : P (Option Int))
    ⟨s.gpio, s.step + 1⟩ = some (none, s') := he
  rw [hfirst] at hcases
  cases hcases

/-- A loop that ends when the clock has run out. -/
theorem keeps_loopTimed {body : Nat → P (Option α)} (t1 : Int) (hb : Keeps E G S body)
    (ht : ∀ n s s', (E.bench G).exec (body n) s = some (none, s') → ∃ i, s.step ≤ i ∧ i < s'.step ∧
      E.clock i - t1 ≤ commTimeout) : Keeps E G S fun n => loop (body n) n := by
  obtain ⟨T, hT⟩ := E.unbounded (t1 + commTimeout)
  refine contract_loop (fun s => T - s.step) (contract_mono hb (fun _ h => h) fun a g h => ?_) ?_
  · cases a with
    | none => exact h
    | some a => exact h
  · intro n s s' _ he
    obtain ⟨i, h1, h2, h3⟩ := ht n s s' he
    have hiT : i < T := by
      by_contra hc
      have := E.mono T i (by omega)
      omega
    omega

theorem keeps_pollTimed (c : BitVec 32 → Bool) : Keeps E G S fun n => pollTimed n c := by
  refine keeps_bind keeps_time fun t1 => keeps_loopTimed t1 ?_ ?_
  · refine keeps_bind keeps_get fun _ => contract_if (fun _ => ?_) fun _ => keeps_ret _
    exact keeps_bind keeps_time fun _ => contract_if (fun _ => keeps_ret _) fun _ => keeps_ret _
  intro n s s' he
  by_cases hc : c (s.gpio.bus (E.levels s.step) 0 32) = true
  · have he' : (E.bench G).exec (if c (s.gpio.bus (E.levels s.step) 0 32) = true then
        issue .time >>= fun t2 => if t2 - t1 > commTimeout then ret (some (-1)) else ret none
      else ret (some 0) : P (Option Int)) ⟨s.gpio, s.step + 1⟩ = some (none, s') := he
    rw [if_pos hc] at he'
    have ht : (E.bench G).exec (if E.clock (s.step + 1) - t1 > commTimeout then ret (some (-1))
        else ret none : P (Option Int))
      ⟨s.gpio, s.step + 1 + 1⟩ = some (none, s') := he'
    by_cases hlate : E.clock (s.step + 1) - t1 > commTimeout
    · rw [if_pos hlate] at ht
      cases ht
    · rw [if_neg hlate] at ht
      cases ht
      exact ⟨s.step + 1, by omega, by show s.step + 1 < s.step + 1 + 1; omega, by omega⟩
  · have he' : (E.bench G).exec (if c (s.gpio.bus (E.levels s.step) 0 32) = true then
        issue .time >>= fun t2 => if t2 - t1 > commTimeout then ret (some (-1)) else ret none
      else ret (some 0) : P (Option Int)) ⟨s.gpio, s.step + 1⟩ = some (none, s') := he
    rw [if_neg hc] at he'
    cases he'

theorem keeps_pollCounted (c : BitVec 32 → Bool) (m : Nat) : Keeps E G S fun _ => pollCounted c m := by
  induction m with
  | zero => exact keeps_bind keeps_get fun v => contract_if (fun _ => keeps_ret _) fun _ => keeps_ret _
  | succ m ih => exact keeps_bind keeps_get fun v => contract_if (fun _ => ih) fun _ => keeps_ret _

theorem keeps_ficSetGpio (hv : Within S v) : Keeps E G S fun n => ficSetGpio n v :=
  keeps_bind (keeps_set hv) fun _ => keeps_pollTimed _

theorem keeps_ficClrGpio (hv : Within S v) : Keeps E G S fun n => ficClrGpio n v :=
  keeps_bind (keeps_clr hv) fun _ => keeps_pollTimed _

/-- The waits without a timeout. -/
theorem keeps_setThenSpin {o : Op} {c : BitVec 32 → Bool} (ho : Keeps E G S fun _ => issue o)
    (hc : ∀ g float, Outs S g → c ((o.pins g).bus float 0 32) = false) :
    Keeps E G S fun n => issue o >>= fun _ => spin n c := by
  have hread : Contract (E.bench G) (Outs S) (fun _ => issue o) fun _ g => Outs S g ∧
      ∀ float, c (g.bus float 0 32) = false :=
    ⟨fun n g hg => ⟨(ho.allowed n g hg).1,
      fun a => ⟨(ho.allowed n g hg).2 a, fun float => hc g float hg⟩⟩, ho.halts⟩
  refine contract_bind hread fun _ =>
    contract_mono (contract_spin fun g float h => h.2 float) (fun _ h => h) fun _ _ h => h.1

theorem keeps_ficSetGpioFast (hv : Within S v) : Keeps E G S fun n => ficSetGpioFast n v :=
  keeps_setThenSpin (keeps_set hv) fun _ _ hg => read_set (hg.within hv)

theorem keeps_ficClrGpioFast (hv : Within S v) : Keeps E G S fun n => ficClrGpioFast n v :=
  keeps_setThenSpin (keeps_clr hv) fun _ _ hg => read_clr (hg.within hv)

/-! ## Register access -/

section
variable {b : Board} (hr : S b.rpRstb)
include hr

theorem keeps_ficCommReceive : Keeps E G S fun n => ficCommReceive b n := by
  refine keeps_check (keeps_ficClrGpio (within_pin hr)) ?_
  refine keeps_check (keeps_ficSetGpio (within_pin hr)) ?_
  refine keeps_check (keeps_pollTimed _) ?_
  refine keeps_bind keeps_get fun _ => ?_
  refine keeps_check (keeps_ficClrGpio (within_pin hr)) ?_
  exact keeps_check (keeps_pollTimed _) (keeps_ret _)

theorem keeps_ficCommReceiveFast (rcv : BitVec 32) : Keeps E G S fun n => ficCommReceiveFast b n rcv := by
  refine keeps_bind (keeps_ficClrGpioFast (within_pin hr)) fun _ => ?_
  refine keeps_bind (keeps_ficSetGpioFast (within_pin hr)) fun _ => ?_
  refine keeps_bind (keeps_pollCounted _ _) fun _ => contract_if (fun _ => keeps_ret _) fun _ => ?_
  -- the dummy readings, and the one that is taken
  refine keeps_bind (keeps_forDo _ _ fun _ _ _ => keeps_bind keeps_get fun _ => keeps_ret _) fun _ => ?_
  refine keeps_bind keeps_get fun _ => ?_
  exact keeps_bind (keeps_ficClrGpioFast (within_pin hr)) fun _ => keeps_ret _

variable (hd : ∀ p, dataPin b p = true → S p)
include hd

theorem keeps_ficCommSend {bus : BitVec 32} (w : BitVec b.width) (hw : bus = busWord b w) :
    Keeps E G S fun n => ficCommSend b n bus := by
  refine keeps_check (keeps_ficClrGpio (within_sendMask hr hd)) ?_
  refine keeps_check (keeps_ficSetGpio (within_or (within_pin hr) (hw ▸ within_busWord hd w))) ?_
  refine keeps_check (keeps_pollTimed _) ?_
  refine keeps_check (keeps_ficClrGpio (within_pin hr)) ?_
  exact keeps_check (keeps_pollTimed _) (keeps_ret _)

theorem keeps_ficCommSendFast {bus : BitVec 32} (w : BitVec b.width) (hw : bus = busWord b w) :
    Keeps E G S fun n => ficCommSendFast b n bus := by
  refine keeps_bind (keeps_ficClrGpio (within_sendMask hr hd)) fun _ => ?_
  refine keeps_bind (keeps_ficSetGpioFast (within_or (within_pin hr) (hw ▸ within_busWord hd w)))
    fun _ => ?_
  refine keeps_bind (keeps_pollCounted _ _) fun _ => ?_
  exact keeps_bind (keeps_ficClrGpioFast (within_pin hr)) fun _ => keeps_ret _

theorem keeps_ficCommSetaddr (addr : BitVec 16) : Keeps E G S fun n => ficCommSetaddr b n addr := by
  cases b with
  | mk1 =>
    refine keeps_check (keeps_ficCommSend hr hd _ (nibble_busWord addr 3 (by decide))) ?_
    refine keeps_check (keeps_ficCommSend hr hd _ (nibble_busWord addr 2 (by decide))) ?_
    refine keeps_check (keeps_ficCommSend hr hd _ (nibble_busWord addr 1 (by decide))) ?_
    exact keeps_check (keeps_ficCommSend hr hd _ (lowNibble_busWord addr)) (keeps_ret _)
  | mk2 => exact keeps_check (keeps_ficCommSend hr hd _ (addr_busWord addr)) (keeps_ret _)

/-! ## HLS transfers -/

theorem keeps_sendWords (ws : List (BitVec b.width)) (r : Int) :
    Keeps E G S fun n => sendWords b n ws r := by
  induction ws generalizing r with
  | nil => exact keeps_ret r
  | cons w ws ih => exact keeps_bind (keeps_ficCommSendFast hr hd w rfl) fun _ => ih _

theorem keeps_ficHlsSendBytes (data : Mem) (size : Nat) :
    Keeps E G S fun n => ficHlsSendBytes b n data size := by
  have last : ∀ r : Int, Keeps E G S fun _ => (if r < 0 then ret (-1) else ret 0 : P Int) :=
    fun r => contract_if (fun _ => keeps_ret _) fun _ => keeps_ret _
  simp only [ficHlsSendBytes_eq]
  exact contract_if (fun _ => keeps_ret _) fun _ => keeps_bind (keeps_sendWords hr hd _ _) last

omit hd in
theorem keeps_receiveRound : Keeps E G S fun n => receiveRound b n := by
  cases b with
  | mk1 =>
    exact keeps_bind (keeps_ficCommReceiveFast hr _) fun _ => contract_if (fun _ => keeps_ret _) fun _ =>
      keeps_bind (keeps_ficCommReceiveFast hr _) fun _ => keeps_ret _
  | mk2 => exact keeps_bind (keeps_ficCommReceiveFast hr _) fun _ => keeps_ret _

omit hd in
theorem keeps_receiveRounds (m i : Nat) (buf : Mem) : Keeps E G S fun n => receiveRounds b n m i buf := by
  induction m generalizing i buf with
  | zero => exact keeps_ret _
  | succ m ih =>
      exact keeps_bind (keeps_receiveRound hr) fun _ => contract_if (fun _ => keeps_ret _) fun _ => ih _ _

omit hd in
theorem keeps_ficHlsReceiveBytes (buf : Mem) (size : Nat) :
    Keeps E G S fun n => ficHlsReceiveBytes b n buf size := by
  have last : ∀ r : Int × Mem, Keeps E G S fun _ =>
      (if r.1 < 0 then ret (-1, r.2) else ret (0, r.2) : P (Int × Mem)) :=
    fun r => contract_if (fun _ => keeps_ret _) fun _ => keeps_ret _
  simp only [ficHlsReceiveBytes_eq]
  exact contract_if (fun _ => keeps_ret _) fun _ => keeps_bind (keeps_receiveRounds hr _ _ _) last

end

end Libfic2
