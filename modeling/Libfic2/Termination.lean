import Mathlib.Algebra.GroupWithZero.Nat
import Libfic2.ProgContracts

/-!
# Which calls return

Under any levels on the undriven pins and any clock that runs out every bound, a call
returns, with one exception: in PM_NORMAL the wait for INIT in `fic_prog_init` has no
timeout, and a call that comes to it returns exactly when INIT reads high at one of its
tests (`returns_iff`).  When these tests are made is known beforehand, since up to there
the library waits for pins only that it drives itself (`takes_smLead`), CFSEL of a bare
`fic_prog_init` excepted.
-/

namespace Libfic2

open Driver Prog

variable {E : Env} {α β : Type} {b : Board} {n : Nat}

/-- Nothing is asked of the masks. -/
def anyMask : Guard := ⟨fun _ _ => True, fun _ _ _ => trivial⟩

/-- Given rounds enough for its loops, `p` returns. -/
def Env.Returns (E : Env) (p : Nat → P α) (s : Moment) : Prop := ∃ r, (E.bench anyMask).Halts p s r

/-- What GET_GPIO reads of pin `p` at step `t`. -/
def Env.reads (E : Env) (g : Gpio) (t p : Nat) : Bool := (g.bus (E.levels t) 0 32).getLsbD p

/-! ## The wait for INIT -/

/-- INIT reads low at every test of a wait that begins at step `t`. -/
def InitStaysLow (E : Env) (g : Gpio) (t : Nat) : Prop := ∀ k, E.reads g (t + 2 * k) rpInit = false

/-- The loop of `awaitInit`. -/
def initLoop : Nat → P Int :=
  loop (issue .get >>= fun v => if getPin v rpInit == 0#32 then issue .get >>=
    fun _ => ret none else ret (some 0))

theorem exec_initLoop (m : Nat) (s : Moment) : (E.bench anyMask).exec (initLoop (m + 1)) s =
    if E.reads s.gpio s.step rpInit = true then some (0, ⟨s.gpio, s.step + 1⟩)
    else (E.bench anyMask).exec (initLoop m) ⟨s.gpio, s.step + 2⟩ := by
  have hlow := getPin_beq_zero (s.gpio.bus (E.levels s.step) 0 32) (p := rpInit) (by decide)
  unfold initLoop Env.reads
  rw [loop, Bench.exec_bind]
  show ((E.bench anyMask).exec
    (if getPin (s.gpio.bus (E.levels s.step) 0 32) rpInit == 0#32 then issue .get >>= fun _ => ret none
    else ret (some 0) : P (Option Int)) ⟨s.gpio, s.step + 1⟩).bind _ = _
  rw [hlow]
  cases (s.gpio.bus (E.levels s.step) 0 32).getLsbD rpInit <;> rfl

/-- With INIT low for good the wait never ends. -/
theorem awaitInit_hangs {s : Moment} (h : InitStaysLow E s.gpio s.step) (m : Nat) :
    (E.bench anyMask).exec (awaitInit m) s = none := by
  have hloop : (E.bench anyMask).exec (initLoop m) s = none := by
    induction m generalizing s with
    | zero => rfl
    | succ m ih =>
      rw [exec_initLoop, if_neg (by rw [show s.step = s.step + 2 * 0 by omega, h 0]; decide)]
      refine ih fun k => ?_
      have := h (k + 1)
      rwa [show s.step + 2 * (k + 1) = s.step + 2 + 2 * k by omega] at this
  exact hloop

/-- It ends with the first test at which INIT is high. -/
theorem awaitInit_halts {s : Moment} (h : ¬ InitStaysLow E s.gpio s.step) :
    ∃ t, (E.bench anyMask).Halts (fun m => awaitInit m) s (0, ⟨s.gpio, t⟩) := by
  have hloop : ∀ k (s : Moment), E.reads s.gpio (s.step + 2 * k) rpInit = true →
      ∃ t, ∀ m, k < m → (E.bench anyMask).exec (initLoop m) s = some (0, ⟨s.gpio, t⟩) := by
    intro k
    induction k with
    | zero =>
      intro s hk
      refine ⟨s.step + 1, fun m hm => ?_⟩
      obtain ⟨m, rfl⟩ : ∃ j, m = j + 1 := ⟨m - 1, by omega⟩
      rw [exec_initLoop, if_pos (show E.reads s.gpio s.step rpInit = true from hk)]
    | succ k ih =>
      intro s hk
      rw [show s.step + 2 * (k + 1) = s.step + 2 + 2 * k by omega] at hk
      by_cases h0 : E.reads s.gpio s.step rpInit = true
      · refine ⟨s.step + 1, fun m hm => ?_⟩
        obtain ⟨m, rfl⟩ : ∃ j, m = j + 1 := ⟨m - 1, by omega⟩
        rw [exec_initLoop, if_pos h0]
      · obtain ⟨t, ht⟩ := ih ⟨s.gpio, s.step + 2⟩ hk
        refine ⟨t, fun m hm => ?_⟩
        obtain ⟨m, rfl⟩ : ∃ j, m = j + 1 := ⟨m - 1, by omega⟩
        rw [exec_initLoop, if_neg h0]
        exact ht m (by omega)
  obtain ⟨k, hk⟩ := not_forall.1 h
  obtain ⟨t, ht⟩ := hloop k s (by simpa using hk)
  exact ⟨t, k + 1, fun m hm => ht m (by omega)⟩

/-- A call that comes to the wait for INIT after `lead`. -/
theorem returns_iff_initHigh {S : Nat → Prop} {lead : Nat → P Int} {fail : P α} {rest : Nat → Int → P α}
    (hfail : Contract (E.bench anyMask) (fun _ => True) (fun _ => fail) Anyhow)
    (hrest : ∀ w, Contract (E.bench anyMask) (Outs S) (fun m => rest m w) Anyhow) {s s1 : Moment} {r : Int}
    (hlead : (E.bench anyMask).Halts lead s (r, s1)) (hout : 0 ≤ r → Outs S s1.gpio) :
    E.Returns (fun m => lead m >>= fun r => if r < 0 then fail else awaitInit m >>= rest m) s ↔
      (0 ≤ r → ¬ InitStaysLow E s1.gpio s1.step) := by
  constructor
  · rintro ⟨e, h⟩ hr hlow
    obtain ⟨N, hN⟩ := hlead.of_bind h
    have hnone := hN N (Nat.le_refl N)
    simp only [if_neg (Int.not_lt.2 hr)] at hnone
    rw [Bench.exec_bind, awaitInit_hangs hlow] at hnone
    cases hnone
  · intro h
    by_cases hr : r < 0
    · obtain ⟨e, he⟩ := hfail.halts s1 trivial
      refine ⟨e, hlead.bind ?_⟩
      simpa only [if_pos hr] using he
    · have hr0 := Int.not_lt.1 hr
      obtain ⟨t, hw⟩ := awaitInit_halts (h hr0)
      obtain ⟨e, he⟩ := (hrest 0).halts ⟨s1.gpio, t⟩ (hout hr0)
      refine ⟨e, hlead.bind ?_⟩
      simpa only [if_neg hr] using hw.bind he

/-! ## Waits that end in time -/

/-- A wait for `c` to fail, with its first test at step `t` and the start of its clock `t1`, ends with
test `m`. -/
def EndsAt (E : Env) (g : Gpio) (c : BitVec 32 → Bool) (t : Nat) (t1 : Int) (m : Nat) : Prop :=
  (∀ j, j < m → c (g.bus (E.levels (t + 2 * j)) 0 32) = true ∧ E.clock (t + 2 * j + 1) - t1 ≤ commTimeout) ∧
    c (g.bus (E.levels (t + 2 * m)) 0 32) = false

/-- The loop of `pollTimed`. -/
def pollLoop (c : BitVec 32 → Bool) (t1 : Int) : Nat → P Int :=
  loop (issue .get >>= fun v => if c v then issue .time >>= fun t2 =>
    if t2 - t1 > commTimeout then ret (some (-1)) else ret none
  else ret (some 0))

section
variable {c : BitVec 32 → Bool} {t1 : Int}

theorem exec_pollLoop (m : Nat) (s : Moment) : (E.bench anyMask).exec (pollLoop c t1 (m + 1)) s =
    if c (s.gpio.bus (E.levels s.step) 0 32) = true then
      if E.clock (s.step + 1) - t1 > commTimeout then some (-1, ⟨s.gpio, s.step + 2⟩)
      else (E.bench anyMask).exec (pollLoop c t1 m) ⟨s.gpio, s.step + 2⟩
    else some (0, ⟨s.gpio, s.step + 1⟩) := by
  unfold pollLoop
  rw [loop, Bench.exec_bind]
  show ((E.bench anyMask).exec (if c (s.gpio.bus (E.levels s.step) 0 32) then issue .time >>= fun t2 =>
    if t2 - t1 > commTimeout then ret (some (-1)) else ret none
  else ret (some 0) : P (Option Int)) ⟨s.gpio, s.step + 1⟩).bind _ = _
  cases c (s.gpio.bus (E.levels s.step) 0 32) with
  | false => rfl
  | true =>
    show ((E.bench anyMask).exec (if E.clock (s.step + 1) - t1 > commTimeout then ret (some (-1))
      else ret none : P (Option Int)) ⟨s.gpio, s.step + 2⟩).bind _ = _
    rw [if_pos rfl]
    split <;> rfl

theorem pollLoop_endsAt {m : Nat} {s : Moment} (h : EndsAt E s.gpio c s.step t1 m) {n : Nat} (hn : m < n) :
    (E.bench anyMask).exec (pollLoop c t1 n) s = some (0, ⟨s.gpio, s.step + 2 * m + 1⟩) := by
  induction m generalizing s n with
  | zero =>
    obtain ⟨n, rfl⟩ : ∃ j, n = j + 1 := ⟨n - 1, by omega⟩
    rw [exec_pollLoop, if_neg (by rw [show c (s.gpio.bus (E.levels s.step) 0 32) = false from h.2]; decide)]
  | succ m ih =>
    obtain ⟨n, rfl⟩ : ∃ j, n = j + 1 := ⟨n - 1, by omega⟩
    obtain ⟨hc, ht⟩ := h.1 0 (by omega)
    have hnow : c (s.gpio.bus (E.levels s.step) 0 32) = true := hc
    have hearly : ¬ E.clock (s.step + 1) - t1 > commTimeout := Int.not_lt.2 ht
    rw [exec_pollLoop, if_pos hnow, if_neg hearly, ih (s := ⟨s.gpio, s.step + 2⟩) ?_ (by omega)]
    · rw [show s.step + 2 + 2 * m + 1 = s.step + 2 * (m + 1) + 1 by omega]
    · refine ⟨fun j hj => ?_, ?_⟩
      · have := h.1 (j + 1) (by omega)
        rwa [show s.step + 2 * (j + 1) = s.step + 2 + 2 * j by omega] at this
      · have := h.2
        rwa [show s.step + 2 * (m + 1) = s.step + 2 + 2 * m by omega] at this

/-- A wait that succeeds has ended with one of its tests. -/
theorem endsAt_of_pollLoop {n : Nat} {s s1 : Moment} {r : Int}
    (h : (E.bench anyMask).exec (pollLoop c t1 n) s = some (r, s1)) (hr : 0 ≤ r) :
    ∃ m, EndsAt E s.gpio c s.step t1 m := by
  induction n generalizing s with
  | zero => cases h
  | succ n ih =>
    rw [exec_pollLoop] at h
    split at h
    · next hc =>
      split at h
      · cases h
        exact absurd hr (by decide)
      · next ht =>
        obtain ⟨m, hm⟩ := ih h
        refine ⟨m + 1, fun j hj => ?_, ?_⟩
        · cases j with
          | zero => exact ⟨hc, Int.not_lt.1 ht⟩
          | succ j =>
            have := hm.1 j (by omega)
            rwa [show s.step + 2 * (j + 1) = s.step + 2 + 2 * j by omega]
        · have := hm.2
          rwa [show s.step + 2 * (m + 1) = s.step + 2 + 2 * m by omega]
    · next hc => exact ⟨0, fun j hj => absurd hj (Nat.not_lt_zero j), by simpa using hc⟩

end

/-! ## How long the set-up takes -/

/-- `p` takes `k` operations and answers `a`. -/
def Takes (E : Env) (Pre : Gpio → Prop) (p : Nat → P α) (k : Nat) (a : α) (Post : Gpio → Prop) : Prop :=
  ∀ s, Pre s.gpio → ∃ g, (E.bench anyMask).Halts p s (a, ⟨g, s.step + k⟩) ∧ Post g

section
variable {Pre M Post : Gpio → Prop} {k j : Nat}

theorem takes_ret (a : α) (h : ∀ g, Pre g → Post g) : Takes E Pre (fun _ => ret a) 0 a Post :=
  fun s hs => ⟨s.gpio, ⟨0, fun _ _ => rfl⟩, h _ hs⟩

theorem takes_bind {p : Nat → P α} {f : Nat → α → P β} {a : α} {c : β} (hp : Takes E Pre p k a M)
    (hf : Takes E M (fun m => f m a) j c Post) : Takes E Pre (fun m => p m >>= f m) (k + j) c Post := by
  intro s hs
  obtain ⟨g1, h1, hm⟩ := hp s hs
  obtain ⟨g2, h2, hpost⟩ := hf ⟨g1, s.step + k⟩ hm
  exact ⟨g2, by rw [← Nat.add_assoc]; exact h1.bind h2, hpost⟩

theorem takes_seq {p : Nat → P Unit} {q : Nat → P β} {c : β} (hp : Takes E Pre p k () M)
    (hq : Takes E M q j c Post) :
    Takes E Pre (fun m => p m >>= fun _ => q m) (k + j) c Post := takes_bind hp hq

theorem takes_check {q r : Nat → P Int} {a : Int} (hq : Takes E Pre q k 0 M) (hr : Takes E M r j a Post) :
    Takes E Pre (fun m => check (q m) (r m)) (k + j) a Post :=
  takes_bind hq (by simpa only [if_neg (show ¬ (0 : Int) < 0 by decide)] using hr)

theorem takes_checkRet {q : Nat → P Int} (hq : Takes E Pre q k 0 Post) :
    Takes E Pre (fun m => check (q m) (ret 0)) k 0 Post :=
  takes_check hq (takes_ret 0 fun _ h => h)

theorem takes_forEach {body : Nat → Nat → P Int} {I : Nat → Gpio → Prop} (cost : Nat → Nat) (m : Nat) :
    ∀ lo, (∀ i, lo ≤ i → i < lo + m → Takes E (I i) (fun n => body n i) (cost i) 0 (I (i + 1))) →
      Takes E (I lo) (fun n => forEach (body n) lo m) ((List.range' lo m).map cost).sum 0 (I (lo + m)) := by
  induction m with
  | zero => exact fun lo _ => takes_ret 0 fun _ h => h
  | succ m ih =>
    intro lo h
    have hrest := ih (lo + 1) fun i h1 h2 => h i (by omega) (by omega)
    rw [show lo + 1 + m = lo + (m + 1) by omega] at hrest
    exact takes_check (h lo (Nat.le_refl _) (by omega)) hrest

end

/-- The pins of `S` are outputs; the function and the latch bit of INIT. -/
structure Held (S : Nat → Prop) (f : BitVec 3) (l : Bool) (g : Gpio) : Prop where
  outs : Outs S g
  fn : g.fn rpInit = f
  lat : g.lat rpInit = l

section
variable {S T : Nat → Prop} {f : BitVec 3} {l : Bool} {i : Nat} {v : BitVec 32}

theorem takes_ite {c : Prop} [Decidable c] {Pre Post : Gpio → Prop} {p q : Nat → P α} {k j : Nat}
    {a : α} (hp : c → Takes E Pre p k a Post)
    (hq : ¬ c → Takes E Pre q j a Post) :
    Takes E Pre (fun m => if c then p m else q m) (if c then k else j) a Post := by
  by_cases h : c
  · simp only [if_pos h]
    exact hp h
  · simp only [if_neg h]
    exact hq h

theorem takes_setInput (h : ∀ q, T q → S q ∧ q ≠ i) (hi : i = rpInit → f = 0#3) :
    Takes E (Held S f l) (fun _ => issue (.setInput i)) 1 () (Held T f l) := by
  intro s hs
  refine ⟨s.gpio.setInput i, ⟨0, fun _ _ => rfl⟩,
    fun q hq => Gpio.isOut_setInput (hs.outs q (h q hq).1) (h q hq).2, ?_, hs.lat⟩
  rw [Gpio.fn_setInput]
  split
  · next e => exact (hi e.symm).symm
  · exact hs.fn

theorem takes_setOutput (hi : i ≠ rpInit) :
    Takes E (Held S f l) (fun _ => issue (.setOutput i)) 1 () (Held S f l) := by
  intro s hs
  refine ⟨s.gpio.setOutput i, ⟨0, fun _ _ => rfl⟩,
    fun q hq => Gpio.isOut_setOutput (hs.outs q hq) i, ?_, hs.lat⟩
  rw [Gpio.fn_setOutput, if_neg (Ne.symm hi)]
  exact hs.fn

theorem takes_setInputOutput (h : ∀ q, T q → S q ∨ q = i) (hi : i ≠ rpInit) :
    Takes E (Held S f l) (fun _ => setInputOutput i) 2 () (Held T f l) := by
  intro s hs
  have hout := (contract_setInputOutput (E := E) (G := anyMask) h).end (s := s) hs.outs ⟨0, fun _ _ => rfl⟩
  refine ⟨(s.gpio.setInput i).setOutput i, ⟨0, fun _ _ => rfl⟩, hout, ?_, hs.lat⟩
  rw [Gpio.fn_setOutput, if_neg (Ne.symm hi), Gpio.fn_setInput, if_neg (Ne.symm hi)]
  exact hs.fn

/-- A wait for driven pins ends at its first test. -/
theorem takes_wait {o : Op} {c : BitVec 32 → Bool}
    (ho : Takes E (Held S f l) (fun _ => issue o >>= fun _ => ret ()) 1 () fun g =>
      Held S f l g ∧ ∀ float, c (g.bus float 0 32) = false) :
    Takes E (Held S f l) (fun m => issue o >>= fun _ => pollTimed m c) 3 0 (Held S f l) := by
  intro s hs
  obtain ⟨g, ⟨N, hN⟩, hg, hc⟩ := ho s hs
  refine ⟨g, ⟨1, fun m hm => ?_⟩, hg⟩
  have hfirst : EndsAt E g c (s.step + 2) (E.clock (s.step + 1)) 0 :=
    ⟨fun j hj => absurd hj (Nat.not_lt_zero j), hc _⟩
  have hissue := hN N (Nat.le_refl N)
  rw [Bench.exec_bind] at hissue ⊢
  cases hx : (E.bench anyMask).exec (issue o) s with
  | none =>
    rw [hx] at hissue
    cases hissue
  | some e =>
    rw [hx] at hissue
    have he : e.2 = ⟨g, s.step + 1⟩ := congrArg Prod.snd (Option.some.inj hissue)
    show (E.bench anyMask).exec (pollTimed m c) e.2 = _
    rw [he]
    exact pollLoop_endsAt (s := ⟨g, s.step + 2⟩) hfirst (by omega)

theorem takes_ficSetGpio (hv : Within S v) (h4 : v.getLsbD rpInit = false) :
    Takes E (Held S f l) (fun m => ficSetGpio m v) 3 0 (Held S f l) := by
  refine takes_wait fun s hs => ⟨s.gpio.set v, ⟨0, fun _ _ => rfl⟩, ⟨hs.outs, hs.fn, ?_⟩,
    fun float => read_set (hs.outs.within hv)⟩
  rw [Gpio.lat_set, h4, Bool.or_false]
  exact hs.lat

theorem takes_ficClrGpio (hv : Within S v) (h4 : v.getLsbD rpInit = false) :
    Takes E (Held S f l) (fun m => ficClrGpio m v) 3 0 (Held S f l) := by
  refine takes_wait fun s hs => ⟨s.gpio.clr v, ⟨0, fun _ _ => rfl⟩, ⟨hs.outs, hs.fn, ?_⟩,
    fun float => read_clr (hs.outs.within hv)⟩
  rw [Gpio.lat_clr, h4, Bool.not_false, Bool.and_true]
  exact hs.lat

theorem takes_setAllInput :
    Takes E (fun g => g.lat rpInit = l) (fun _ => setAllInput) 3 () (Held (fun _ => False) 0#3 l) :=
  fun s hs => ⟨_, ⟨0, fun _ _ => rfl⟩, fun _ hq => hq.elim, s.gpio.fn_allInput (by decide), hs⟩

/-! ### The set-up of a programming call -/

/-- Operations that raise CFSEL, when it is driven. -/
def cfselSteps : Board → Nat
  | .mk1 => 0
  | .mk2 => 4

theorem takes_raiseCfsel (h : b = .mk2 → S rpCfsel) :
    Takes E (Held S f l) (fun m => raiseCfsel b m) (cfselSteps b) 0 (Held S f l) := by
  cases b with
  | mk1 => exact takes_ret 0 fun _ h => h
  | mk2 =>
    have hmode : Takes E (Held S f l) (fun _ => issue (.setOutput rpCfsel)) 1 () (Held S f l) :=
      takes_setOutput (by decide)
    exact takes_seq hmode (takes_checkRet (takes_ficSetGpio (within_pin (h rfl)) (by decide)))

/-- Operations on one pin. -/
def smPinSteps (b : Board) (n i : Nat) : Nat :=
  (if smInputPin b i then 1 else 0) + ((if smHighPin b i then 5 else 0) + if smLowPin n i then 5 else 0)

/-- Operations of `fic_prog_init_smN`. -/
def smSteps (b : Board) (n : Nat) : Nat :=
  3 + (((List.range (gpioPinMax + 1)).map (smPinSteps b n)).sum + cfselSteps b)

theorem takes_smRound :
    Takes E (Held (Below (ProgPins b n) i) 0#3 l) (fun m => do
      when (smInputPin b i) (issue (.setInput i))
      check (if smHighPin b i then do
          setInputOutput i
          check (ficSetGpio m (rpPin i)) (ret 0)
        else ret 0) <|
        if smLowPin n i then do
          setInputOutput i
          check (ficClrGpio m (rpPin i)) (ret 0)
        else ret 0) (smPinSteps b n i) 0 (Held (Below (ProgPins b n) (i + 1)) 0#3 l) := by
  have hpin : i ≠ rpInit → (rpPin i).getLsbD rpInit = false := fun h => getLsbD_bit_of_ne (Ne.symm h)
  have hhigh : smHighPin b i = true → i ≠ rpInit := by
    rintro h rfl
    revert h
    cases b <;> decide
  have hlow : smLowPin n i = true → i ≠ rpInit := by
    rintro h rfl
    unfold smLowPin at h
    simp at h
  have hmode : Takes E (Held (Below (ProgPins b n) i) 0#3 l)
      (fun _ => when (smInputPin b i) (issue (.setInput i))) (if smInputPin b i then 1 else 0) ()
      (Held (Below (ProgPins b n) i) 0#3 l) :=
    takes_ite (fun _ => takes_setInput (fun q hq => ⟨hq, Nat.ne_of_lt hq.1⟩) fun _ => rfl) fun _ =>
      takes_ret () fun _ h => h
  have hset : smHighPin b i = true → Takes E (Held (Below (ProgPins b n) i) 0#3 l) (fun m => do
      setInputOutput i
      check (ficSetGpio m (rpPin i)) (ret 0)) 5 0
        (Held (HalfRound (ProgPins b n) (smHighPin b i) i) 0#3 l) := by
    intro h
    have hout : Takes E (Held (Below (ProgPins b n) i) 0#3 l) (fun _ => setInputOutput i) 2 ()
        (Held (HalfRound (ProgPins b n) (smHighPin b i) i) 0#3 l) :=
      takes_setInputOutput (fun q hq => hq.imp_right And.left) (hhigh h)
    exact takes_seq hout (takes_checkRet (takes_ficSetGpio (within_pin (.inr ⟨rfl, h⟩)) (hpin (hhigh h))))
  have hclr : smLowPin n i = true →
      Takes E (Held (HalfRound (ProgPins b n) (smHighPin b i) i) 0#3 l) (fun m => do
      setInputOutput i
      check (ficClrGpio m (rpPin i)) (ret 0)) 5 0 (Held (Below (ProgPins b n) (i + 1)) 0#3 l) := by
    intro h
    have hout : Takes E (Held (HalfRound (ProgPins b n) (smHighPin b i) i) 0#3 l)
        (fun _ => setInputOutput i) 2 () (Held (Below (ProgPins b n) (i + 1)) 0#3 l) :=
      takes_setInputOutput (fun q hq => (Nat.lt_succ_iff_lt_or_eq.1 hq.1).imp_left fun hlt =>
        .inl ⟨hlt, hq.2⟩) (hlow h)
    exact takes_seq hout
      (takes_checkRet (takes_ficClrGpio (within_pin ⟨Nat.lt_succ_self i, .inr h⟩) (hpin (hlow h))))
  refine takes_seq hmode (takes_check (takes_ite hset fun h => takes_ret 0 fun g hg => ?_)
    (takes_ite hclr fun h => takes_ret 0 fun g hg => ?_))
  · exact ⟨hg.outs.mono fun q hq => hq.resolve_right fun e => h e.2, hg.fn, hg.lat⟩
  · refine ⟨hg.outs.mono fun q hq => ?_, hg.fn, hg.lat⟩
    rcases Nat.lt_succ_iff_lt_or_eq.1 hq.1 with hlt | rfl
    · exact .inl ⟨hlt, hq.2⟩
    · exact .inr ⟨rfl, hq.2.resolve_right h⟩

theorem takes_ficProgInitSm (hn : n ≤ 16) :
    Takes E (fun g => g.lat rpInit = l) (fun m => ficProgInitSm b m n) (smSteps b n) 0
      (Held (ProgPins b n) 0#3 l) := by
  have hrounds :=
    takes_forEach (E := E) (smPinSteps b n) (gpioPinMax + 1) 0 fun i _ _ =>
      takes_smRound (b := b) (n := n) (i := i) (l := l)
  rw [← List.range_eq_range'] at hrounds
  refine takes_seq takes_setAllInput (takes_check (M := Held (ProgPins b n) 0#3 l) (fun s hs => ?_)
    (takes_raiseCfsel fun hb => progPins_high (by subst hb; decide)))
  obtain ⟨g, h1, hg⟩ := hrounds s ⟨fun q hq => absurd hq.1 (Nat.not_lt_zero q), hs.fn, hs.lat⟩
  exact ⟨g, h1, hg.outs.mono fun q hq => ⟨by rw [Nat.zero_add]; exact progPins_lt hn hq, hq⟩, hg.fn, hg.lat⟩

/-- From CFSEL to the wait for INIT. -/
theorem takes_resetPins : Takes E (Held S f l) (fun m => do
    setInputOutput rpProgB
    setInputOutput rpCsiB
    setInputOutput rpRdwrB
    check (ficSetGpio m pinsProgCsiRdwr) <|
      check (ficSetGpio m pinsProgCsiRdwr) <|
      check (ficClrGpio m pinsProgCsiRdwr) <|
      ficSetGpio m (rpPin rpProgB)) 18 0 (Held (ResetPins S) f l) := by
  have h4 : pinsProgCsiRdwr.getLsbD rpInit = false := by decide
  have h5 : Takes E (Held S f l) (fun _ => setInputOutput rpProgB) 2 ()
      (Held (fun p => S p ∨ p = rpProgB) f l) :=
    takes_setInputOutput (fun _ h => h) (by decide)
  have h26 : Takes E (Held (fun p => S p ∨ p = rpProgB) f l) (fun _ => setInputOutput rpCsiB) 2 ()
      (Held (fun p => (S p ∨ p = rpProgB) ∨ p = rpCsiB) f l) :=
      takes_setInputOutput (fun _ h => h) (by decide)
  have h27 : Takes E (Held (fun p => (S p ∨ p = rpProgB) ∨ p = rpCsiB) f l)
      (fun _ => setInputOutput rpRdwrB) 2 () (Held (ResetPins S) f l) := by
    refine takes_setInputOutput (fun _ h => ?_) (by decide)
    unfold ResetPins at h
    rwa [or_assoc, or_assoc]
  have hpulse : Takes E (Held (ResetPins S) f l) (fun m =>
      check (ficSetGpio m pinsProgCsiRdwr) <|
        check (ficSetGpio m pinsProgCsiRdwr) <|
        check (ficClrGpio m pinsProgCsiRdwr) <|
        ficSetGpio m (rpPin rpProgB)) (3 + (3 + (3 + 3))) 0 (Held (ResetPins S) f l) := by
    refine takes_check (takes_ficSetGpio within_pinsProgCsiRdwr h4) ?_
    refine takes_check (takes_ficSetGpio within_pinsProgCsiRdwr h4) ?_
    refine takes_check (takes_ficClrGpio within_pinsProgCsiRdwr h4) ?_
    exact takes_ficSetGpio (within_pin (.inr (.inl rfl))) (by decide)
  exact takes_seq h5 (takes_seq h26 (takes_seq h27 hpulse))

/-- Operations of a programming call before the wait for INIT. -/
def smLeadSteps (b : Board) (n : Nat) : Nat := 7 + (smSteps b n + (cfselSteps b + 18))

theorem takes_smLead (fn : ProgFn) (size : Nat) :
    Takes E (fun g => g.lat rpInit = l) (fun m => smLead fn b m size) (smLeadSteps b fn.lanes) 0
      (Held (ResetPins (ProgPins b fn.lanes)) 0#3 l) := by
  have hbegin : Takes E (fun g => g.lat rpInit = l) (fun _ => progBegin fn.smap size .normal) 7
      () fun g => g.lat rpInit = l :=
    fun s hs => ⟨s.gpio, ⟨0, fun _ _ => rfl⟩, hs⟩
  refine takes_seq hbegin (takes_check (takes_ficProgInitSm (lanes_le fn)) ?_)
  exact takes_check (takes_raiseCfsel fun hb => progPins_high (by subst hb; decide)) takes_resetPins

end

/-! ### The set-up of `fic_prog_init` called by itself -/

/-- The read-back of CFSEL, made on mk2 only, succeeds at test `m`. -/
def CfselEndsAt (E : Env) (s : Moment) (m : Nat) : Board → Prop
  | .mk1 => m = 0
  | .mk2 =>
      EndsAt E ((s.gpio.setOutput rpCfsel).set (rpPin rpCfsel)) (notSet (rpPin rpCfsel)) (s.step + 3)
        (E.clock (s.step + 2)) m

theorem progLead_halts {s : Moment} {m : Nat} (h : CfselEndsAt E s m b) :
    ∃ g, (E.bench anyMask).Halts (fun j => progLead b j) s (0, ⟨g, s.step + (cfselSteps b + 2 * m) + 18⟩) ∧
      Held (ResetPins fun _ => False) (s.gpio.fn rpInit) (s.gpio.lat rpInit) g := by
  have hcfsel : ∃ g, (E.bench anyMask).Halts (fun j => raiseCfsel b j) s
      (0, ⟨g, s.step + (cfselSteps b + 2 * m)⟩) ∧
      g.fn rpInit = s.gpio.fn rpInit ∧ g.lat rpInit = s.gpio.lat rpInit := by
    cases b with
    | mk1 =>
      obtain rfl : m = 0 := h
      exact ⟨s.gpio, ⟨0, fun _ _ => rfl⟩, rfl, rfl⟩
    | mk2 =>
      refine ⟨(s.gpio.setOutput rpCfsel).set (rpPin rpCfsel), ⟨m + 1, fun j hj => ?_⟩, ?_, ?_⟩
      · have hpoll :=
          pollLoop_endsAt (s := ⟨(s.gpio.setOutput rpCfsel).set (rpPin rpCfsel), s.step + 3⟩) h
            (show m < j by omega)
        have hset : (E.bench anyMask).exec (ficSetGpio j (rpPin rpCfsel))
            ⟨s.gpio.setOutput rpCfsel, s.step + 1⟩ = _ := hpoll
        show (E.bench anyMask).exec (check (ficSetGpio j (rpPin rpCfsel)) (ret 0))
          ⟨s.gpio.setOutput rpCfsel, s.step + 1⟩ = _
        unfold check checkOr
        rw [Bench.exec_bind, hset, show s.step + (cfselSteps .mk2 + 2 * m) =
          s.step + 3 + 2 * m + 1 by rw [show cfselSteps .mk2 = 4 from rfl]; omega]
        rfl
      · rw [Gpio.fn_set, Gpio.fn_setOutput, if_neg (by decide)]
      · rw [Gpio.lat_set, Gpio.lat_setOutput, getLsbD_bit_of_ne (by decide), Bool.or_false]
  obtain ⟨g1, h1, hfn, hlat⟩ := hcfsel
  obtain ⟨g2, h2, hg⟩ :=
    takes_resetPins (E := E) (S := fun _ => False) ⟨g1, s.step + (cfselSteps b + 2 * m)⟩
      ⟨fun _ hq => hq.elim, hfn, hlat⟩
  refine ⟨g2, h1.bind ?_, hg⟩
  simpa only [if_neg (show ¬ (0 : Int) < 0 by decide)] using h2

/-- What succeeds has passed its first step. -/
theorem exec_check_ok {q k : P Int} {s s1 : Moment} {r : Int}
    (h : (E.bench anyMask).exec (check q k) s = some (r, s1)) (hr : 0 ≤ r) :
    ∃ a t, 0 ≤ a ∧ (E.bench anyMask).exec q s = some (a, t) := by
  unfold check checkOr at h
  rw [Bench.exec_bind] at h
  cases hq : (E.bench anyMask).exec q s with
  | none =>
    rw [hq] at h
    cases h
  | some e =>
    by_cases he : e.1 < 0
    · rw [hq] at h
      have hret : (E.bench anyMask).exec (if e.1 < 0 then ret (-1) else k) e.2 = some (r, s1) := h
      rw [if_pos he] at hret
      cases hret
      exact absurd hr (by decide)
    · exact ⟨e.1, e.2, Int.not_lt.1 he, rfl⟩

/-- When the set-up succeeds, the read-back has. -/
theorem cfselEndsAt_of_progLead {s s1 : Moment} {r : Int}
    (h : (E.bench anyMask).Halts (fun j => progLead b j) s (r, s1)) (hr : 0 ≤ r) :
    ∃ m, CfselEndsAt E s m b := by
  cases b with
  | mk1 => exact ⟨0, rfl⟩
  | mk2 =>
    obtain ⟨N, hN⟩ := h
    obtain ⟨a, t, ha, hraise⟩ := exec_check_ok (hN N (Nat.le_refl N)) hr
    have hcheck : (E.bench anyMask).exec (check (ficSetGpio N (rpPin rpCfsel)) (ret 0))
        ⟨s.gpio.setOutput rpCfsel, s.step + 1⟩ = some (a, t) := hraise
    obtain ⟨c, u, hc, hset⟩ := exec_check_ok hcheck ha
    have hpoll : (E.bench anyMask).exec (pollLoop (notSet (rpPin rpCfsel)) (E.clock (s.step + 2)) N)
      ⟨(s.gpio.setOutput rpCfsel).set (rpPin rpCfsel), s.step + 3⟩ = some (c, u) := hset
    exact endsAt_of_pollLoop (s := ⟨(s.gpio.setOutput rpCfsel).set (rpPin rpCfsel), s.step + 3⟩) hpoll hc

/-! ## The calls -/

/-- What is read of INIT depends on its mode and latch bit only. -/
theorem reads_init {S : Nat → Prop} {f : BitVec 3} {l : Bool} {g : Gpio} (h : Held S f l g) (t : Nat) :
    E.reads g t rpInit = if f == 1#3 then l else (E.levels t).getLsbD rpInit := by
  unfold Env.reads Gpio.bus
  rw [getLsbD_ofBits, decide_eq_true (by decide), Bool.true_and, Nat.zero_add]
  unfold Gpio.isOut
  rw [h.fn, h.lat]

/-- The call comes to the wait for INIT, and INIT is low whenever this tests it. -/
def InitStuck (E : Env) (b : Board) (s : Moment) : Call → Prop
  | .progInit .normal =>
    ∃ m, CfselEndsAt E s m b ∧ InitStaysLow E s.gpio (s.step + (cfselSteps b + 2 * m) + 18)
  | .progSm8 _ _ .normal => ∀ k, (E.levels (s.step + smLeadSteps b 8 + 2 * k)).getLsbD rpInit = false
  | .progSm16 _ _ .normal => ∀ k, (E.levels (s.step + smLeadSteps b 16 + 2 * k)).getLsbD rpInit = false
  | .progSm8Fast _ _ .normal => ∀ k, (E.levels (s.step + smLeadSteps b 8 + 2 * k)).getLsbD rpInit = false
  | .progSm16Fast _ _ .normal => ∀ k, (E.levels (s.step + smLeadSteps b 16 + 2 * k)).getLsbD rpInit = false
  | _ => False

theorem contract_discard {G : Guard} {Pre : Gpio → Prop} {p : Nat → P α}
    (h : Contract (E.bench G) Pre p Anyhow) :
    Contract (E.bench G) Pre (fun m => discard (p m)) Anyhow :=
  contract_bind h fun _ => contract_ret fun _ _ => trivial

theorem returns_of_contract {p : Nat → P α} (h : Contract (E.bench anyMask) (fun _ => True) p Anyhow)
    (s : Moment) : E.Returns p s :=
  h.halts s trivial

theorem sm_returns_iff (f : ProgFn) (data : Mem) (size : Nat) (s : Moment) :
    E.Returns (fun m => discard (f.prog b m data size .normal)) s ↔
      ¬ ∀ k, (E.levels (s.step + smLeadSteps b f.lanes + 2 * k)).getLsbD rpInit = false := by
  obtain ⟨g, hlead, hg⟩ := takes_smLead (E := E) (b := b) f size s rfl
  simp only [sm_normal_parts]
  rw [returns_iff_initHigh (contract_discard (keeps_progEnd _ _))
    (fun w => contract_discard (contract_smRest f data size w)) hlead fun _ => hg.outs]
  have hlow : InitStaysLow E g (s.step + smLeadSteps b f.lanes) ↔
      ∀ k, (E.levels (s.step + smLeadSteps b f.lanes + 2 * k)).getLsbD rpInit = false := by
    unfold InitStaysLow
    simp only [reads_init hg]
    rfl
  rw [← hlow]
  exact ⟨fun h => h (Int.le_refl 0), fun h _ => h⟩

theorem progInit_returns_iff (s : Moment) : E.Returns (fun m => discard (ficProgInit b m .normal)) s ↔
    ¬ InitStuck E b s (.progInit .normal) := by
  have hrest : ∀ w : Int, Contract (E.bench anyMask) (Outs (ResetPins fun _ => False))
      (fun _ => if w < 0 then ret () else discard doneTest) Anyhow :=
    fun w => contract_if (fun _ => contract_ret fun _ _ => trivial) fun _ =>
      contract_discard (Keeps.anyhow keeps_doneTest)
  have hlead : Contract (E.bench anyMask) (fun _ => True) (fun m => progLead b m)
      (Gives (ResetPins fun _ => False)) :=
    contract_progLead fun g _ => ⟨fun _ hq => hq.elim, fun _ => trivial⟩
  obtain ⟨⟨r, s1⟩, hr⟩ := hlead.halts s trivial
  simp only [progInit_normal_eq]
  rw [returns_iff_initHigh (contract_ret fun _ _ => trivial) hrest hr (hlead.end (s := s) trivial hr)]
  have hat : ∀ m, CfselEndsAt E s m b →
      r = 0 ∧ (InitStaysLow E s1.gpio s1.step ↔
      InitStaysLow E s.gpio (s.step + (cfselSteps b + 2 * m) + 18)) := by
    intro m hm
    obtain ⟨g, h1, hg⟩ := progLead_halts hm
    have heq := hr.unique h1
    obtain ⟨rfl, rfl⟩ := Prod.mk.inj heq
    have hself : Held (fun _ => False) (s.gpio.fn rpInit) (s.gpio.lat rpInit) s.gpio :=
      ⟨fun _ hq => hq.elim, rfl, rfl⟩
    unfold InitStaysLow
    simp only [reads_init hg, reads_init hself, and_self]
  constructor
  · rintro h ⟨m, hm, hlow⟩
    obtain ⟨hr0, hiff⟩ := hat m hm
    exact h (by omega) (hiff.2 hlow)
  · intro h hr0 hlow
    obtain ⟨m, hm⟩ := cfselEndsAt_of_progLead hr hr0
    exact h ⟨m, hm, (hat m hm).2.1 hlow⟩

/-- **Which calls return**: all but those that find INIT low at every test. -/
theorem returns_iff (E : Env) (b : Board) (c : Call) (s : Moment) :
    E.Returns (fun m => c.prog b m) s ↔ ¬ InitStuck E b s c := by
  have hall : ∀ p : Nat → P Unit, Contract (E.bench anyMask) (fun _ => True) p Anyhow →
      (E.Returns p s ↔ ¬ False) :=
    fun p h => ⟨fun _ hf => hf, fun _ => returns_of_contract h s⟩
  cases c with
  | commReset => exact hall _ (contract_discard contract_ficCommReset)
  | write addr data => exact hall _ (contract_discard (contract_ficWrite addr data fun _ _ => trivial))
  | read addr => exact hall _ (contract_discard (contract_ficRead addr))
  | hlsSend data size => exact hall _ (contract_discard (contract_ficHlsSend data size))
  | hlsReceive buf size => exact hall _ (contract_discard (contract_ficHlsReceive buf size))
  | hlsWrite data size addr ctrl =>
      exact hall _ (contract_discard (contract_ficHlsWrite data size addr ctrl))
  | hlsRead buf size addr ctrl => exact hall _ (contract_discard (contract_ficHlsRead buf size addr ctrl))
  | hlsDdrWrite data size addr => exact hall _ (contract_discard (contract_ficHlsWrite data size addr _))
  | hlsDdrRead buf size addr => exact hall _ (contract_discard (contract_ficHlsRead buf size addr _))
  | hlsDdrDebug buf size addr => exact hall _ (contract_discard (contract_ficHlsDdrDebug buf size addr))
  | hlsStart => exact hall _ (contract_discard (contract_hlsCommand .hlsStart))
  | hlsReset => exact hall _ (contract_discard (contract_hlsCommand .hlsReset))
  | progInit pm =>
    cases pm with
    | normal => exact progInit_returns_iff s
    | pr =>
      have hpr : Contract (E.bench anyMask) (fun _ => True) (fun m => ficProgInit b m .pr)
          (Gives (ResetPins fun _ => False)) :=
        contract_ficProgInit_pr fun g _ => ⟨fun _ hq => hq.elim, fun _ => trivial⟩
      exact hall _ (contract_discard (contract_mono hpr (fun _ h => h) fun _ _ _ => trivial))
  | progSm8 data size pm =>
    cases pm with
    | normal => exact sm_returns_iff .sm8 data size s
    | pr => exact hall _ (contract_discard (contract_prog_pr .sm8 data size))
  | progSm16 data size pm =>
    cases pm with
    | normal => exact sm_returns_iff .sm16 data size s
    | pr => exact hall _ (contract_discard (contract_prog_pr .sm16 data size))
  | progSm8Fast data size pm =>
    cases pm with
    | normal => exact sm_returns_iff .sm8Fast data size s
    | pr => exact hall _ (contract_discard (contract_prog_pr .sm8Fast data size))
  | progSm16Fast data size pm =>
    cases pm with
    | normal => exact sm_returns_iff .sm16Fast data size s
    | pr => exact hall _ (contract_discard (contract_prog_pr .sm16Fast data size))

/-- A board that keeps all its pins low. -/
def deadBoard : Env where
  levels _ := 0#32
  clock i := i
  cpu i := i
  mono _ _ h := Int.ofNat_le.2 h
  unbounded n := ⟨n.toNat + 1, by omega⟩

/-- A call that never returns. -/
theorem progSm8_waits_forever :
    ¬ ∀ (E : Env) (b : Board) (c : Call) (s : Moment), E.Returns (fun m => c.prog b m) s := by
  intro h
  have hret := h deadBoard .mk2 (.progSm8 (fun _ => 0#8) 1 .normal) ⟨World.start.gpio, 0⟩
  exact (sm_returns_iff .sm8 (fun _ => 0#8) 1 ⟨World.start.gpio, 0⟩).1 hret fun _ => BitVec.getLsbD_zero

end Libfic2
