import Libfic2.PinContracts

/-!
# Contracts of the programming functions

In PM_NORMAL `fic_prog_init` waits for INIT without a timeout.  `progLead` is what it does
before this wait; a programming call comes to the same wait after its own set-up
(`prog_normal_eq`).  Everything before it and after it has a contract.
-/

namespace Libfic2

open Driver Prog

variable {E : Env} {G : Guard} {S : Nat → Prop} {α β : Type} {b : Board} {n : Nat} {Pre : Gpio → Prop}

/-! ## Up to the wait for INIT -/

/-- `fic_prog_init` in PM_NORMAL, up to the wait for INIT. -/
def progLead (b : Board) (fuel : Nat) : P Int :=
  check (raiseCfsel b fuel) <| do
  setInputOutput rpProgB
  setInputOutput rpCsiB
  setInputOutput rpRdwrB
  check (ficSetGpio fuel pinsProgCsiRdwr) <|
    check (ficSetGpio fuel pinsProgCsiRdwr) <|
    check (ficClrGpio fuel pinsProgCsiRdwr) <|
    ficSetGpio fuel (rpPin rpProgB)

/-- With PROG_B, CSI_B and RDWR_B. -/
def ResetPins (S : Nat → Prop) (p : Nat) : Prop := S p ∨ p = rpProgB ∨ p = rpCsiB ∨ p = rpRdwrB

theorem within_pinsProgCsiRdwr : Within (ResetPins S) pinsProgCsiRdwr :=
  within_or (within_or (within_pin (.inr (.inl rfl))) (within_pin (.inr (.inr (.inl rfl)))))
    (within_pin (.inr (.inr (.inr rfl))))

theorem within_pinsCsiRdwr : Within (ResetPins S) pinsCsiRdwr :=
  within_or (within_pin (.inr (.inr (.inl rfl)))) (within_pin (.inr (.inr (.inr rfl))))

/-- The set-up of CFSEL, from a state in which it may be set. -/
theorem contract_raiseCfsel
    (hpre : ∀ g, Pre g → Outs S g ∧ (b = .mk2 → G.allows (.set (rpPin rpCfsel)) (g.setOutput rpCfsel))) :
    Contract (E.bench G) Pre (fun m => raiseCfsel b m) fun _ => Outs S := by
  cases b with
  | mk1 => exact contract_ret fun g hg => (hpre g hg).1
  | mk2 =>
    refine contract_bind (M := fun _ g => Outs S g ∧ G.allows (.set (rpPin rpCfsel)) g)
      (contract_call (fun _ _ => G.driven _ _ trivial)
      fun g _ hg => ⟨fun q hq => Gpio.isOut_setOutput ((hpre g hg).1 q hq) _, (hpre g hg).2 rfl⟩)
      fun _ => ?_
    have hset : Contract (E.bench G) (fun g => Outs S g ∧ G.allows (.set (rpPin rpCfsel)) g)
        (fun m => ficSetGpio m (rpPin rpCfsel)) fun _ => Outs S :=
      contract_bind (contract_call (fun _ hg => hg.2) fun _ _ hg => hg.1) fun _ => keeps_pollTimed _
    exact contract_checkOr hset (fun _ _ _ h => h) (contract_ret fun _ ⟨_, _, h⟩ => h)

/-- The three pins of the reset. -/
theorem contract_resetPins {k : Nat → P α} {Post : α → Gpio → Prop}
    (hk : Contract (E.bench G) (Outs (ResetPins S)) k Post) : Contract (E.bench G) (Outs S) (fun m => do
      setInputOutput rpProgB
      setInputOutput rpCsiB
      setInputOutput rpRdwrB
      k m) Post := by
  have hlast : ∀ p, ResetPins S p → ((S p ∨ p = rpProgB) ∨ p = rpCsiB) ∨ p = rpRdwrB := by
    intro p h
    unfold ResetPins at h
    rwa [or_assoc, or_assoc]
  refine contract_bind (contract_setInputOutput (T := fun p => S p ∨ p = rpProgB) fun _ h => h) fun _ => ?_
  refine contract_bind (contract_setInputOutput (T := fun p => (S p ∨ p = rpProgB) ∨ p = rpCsiB)
    fun _ h => h) fun _ => ?_
  exact contract_bind (contract_setInputOutput hlast) fun _ => hk

/-- The first part of `fic_prog_init`, before `k`. -/
theorem contract_resetLead {k : Nat → P Int}
    (hpre : ∀ g, Pre g → Outs S g ∧ (b = .mk2 → G.allows (.set (rpPin rpCfsel)) (g.setOutput rpCfsel)))
    (hk : Keeps E G (ResetPins S) k) :
    Contract (E.bench G) Pre (fun m => check (raiseCfsel b m) do
      setInputOutput rpProgB
      setInputOutput rpCsiB
      setInputOutput rpRdwrB
      k m) (Gives (ResetPins S)) := by
  refine contract_checkOr (contract_raiseCfsel hpre) (fun _ _ _ _ hneg => absurd hneg (by decide)) ?_
  exact contract_mono (contract_resetPins hk) (fun _ ⟨_, _, h⟩ => h) fun _ _ h _ => h

theorem contract_progLead
    (hpre : ∀ g, Pre g → Outs S g ∧ (b = .mk2 → G.allows (.set (rpPin rpCfsel)) (g.setOutput rpCfsel))) :
    Contract (E.bench G) Pre (fun m => progLead b m) (Gives (ResetPins S)) := by
  refine contract_resetLead hpre ?_
  refine keeps_check (keeps_ficSetGpio within_pinsProgCsiRdwr) ?_
  refine keeps_check (keeps_ficSetGpio within_pinsProgCsiRdwr) ?_
  exact keeps_check (keeps_ficClrGpio within_pinsProgCsiRdwr)
    (keeps_ficSetGpio (within_pin (.inr (.inl rfl))))

/-- In PM_PR there is no wait for INIT. -/
theorem contract_ficProgInit_pr
    (hpre : ∀ g, Pre g → Outs S g ∧ (b = .mk2 → G.allows (.set (rpPin rpCfsel)) (g.setOutput rpCfsel))) :
    Contract (E.bench G) Pre (fun m => ficProgInit b m .pr) (Gives (ResetPins S)) :=
  contract_resetLead hpre <| keeps_check (keeps_ficSetGpio within_pinsProgCsiRdwr) <|
    keeps_check (keeps_ficClrGpio within_pinsCsiRdwr) (keeps_ret _)

/-! ## Data loops -/

section
variable {v : BitVec 32}

theorem keeps_addTx (k : Nat) : Keeps E G S fun _ => addTx k :=
  keeps_issue (fun _ _ => trivial) fun _ _ => rfl

theorem keeps_gpioHold (hv : Within S v) : Keeps E G S fun _ => gpioHold v :=
  keeps_forDo _ _ fun _ _ _ => keeps_set hv

variable (hc : S rpCclk)
include hc

theorem keeps_toggleCclk (k : Nat) : Keeps E G S fun _ => toggleCclk k := by
  refine keeps_forDo _ _ fun _ _ _ => ?_
  refine keeps_bind (keeps_forDo _ _ fun _ _ _ => keeps_clr (within_pin hc)) fun _ => ?_
  exact keeps_forDo _ _ fun _ _ _ => keeps_set (within_pin hc)

theorem keeps_fastRepeat : Keeps E G S fun m => fastRepeat m :=
  keeps_bind (keeps_ficClrGpioFast (within_pin hc)) fun _ => keeps_gpioHold (within_pin hc)

theorem keeps_fastWrite {mask : BitVec 32} (hm : Within S mask) (db : BitVec 32) :
    Keeps E G S fun _ => fastWrite db mask :=
  keeps_bind (keeps_clr (within_or (within_and hm) (within_pin hc))) fun _ =>
    keeps_bind (keeps_set (within_and hm)) fun _ =>
    keeps_gpioHold (within_or (within_and hm) (within_pin hc))

omit hc in
theorem keeps_then {p : Nat → P Unit} (hp : Keeps E G S p) (k : Nat) :
    Keeps E G S fun m => (do p m; ret k : P Nat) :=
  keeps_bind hp fun _ => keeps_ret _

omit hc in
theorem keeps_plainRoundEnd (k : Nat) : Keeps E G S fun _ => plainRoundEnd k := by
  refine keeps_bind (keeps_addTx k) fun _ => ?_
  refine keeps_bind keeps_time fun _ => ?_
  refine keeps_bind keeps_get fun _ => ?_
  exact contract_if (fun _ => keeps_ret _) fun _ => keeps_ret _

omit hc in
/-- A round of a plain loop, whose index goes up by `k`. -/
theorem contract_plainRound {p : Nat → P Int} (hp : Keeps E G S p) {Y : Type}
    {i k : Nat} (hk : 0 < k) (d : Y) :
    Contract (E.bench G) (Outs S) (fun m =>
      checkOr none (p m) (checkOr none (plainRoundEnd k) (ret (some (i + k, d)))))
      fun r g => Outs S g ∧ ∀ y, r = some y → i < y.1 := by
  have hnone : ∀ (r : Int) g, r < 0 → Outs S g → Outs S g ∧ ∀ y : Nat × Y, none = some y → i < y.1 :=
    fun _ _ _ hg => ⟨hg, fun _ hy => nomatch hy⟩
  refine contract_checkOr hp hnone ?_
  refine contract_checkOr (contract_mono (keeps_plainRoundEnd k) ?_ fun _ _ hg => hg) hnone ?_
  · rintro g ⟨r, -, hg⟩
    exact hg
  refine contract_ret fun g ⟨_, _, hg⟩ => ⟨hg, ?_⟩
  rintro y ⟨rfl⟩
  exact Nat.lt_add_of_pos_right hk

omit hc in
/-- A round of a fast loop, whose index goes up by `k` at least. -/
theorem contract_fastRound {p : Nat → P Nat} (hp : Keeps E G S p) {Y : Type}
    {i k : Nat} (hk : 0 < k) (d : Y) :
    Contract (E.bench G) (Outs S) (fun m => p m >>= fun j => addTx k >>= fun _ => ret (some (i + j + k, d)))
      fun r g => Outs S g ∧ ∀ y, r = some y → i < y.1 := by
  refine contract_bind hp fun j => contract_bind (keeps_addTx k) fun _ => contract_ret fun g hg => ⟨hg, ?_⟩
  rintro y ⟨rfl⟩
  show i < i + j + k
  omega

theorem contract_round (f : ProgFn) (hm : Within S f.mask) (data : Mem) (x : Nat × f.Prev) :
    Contract (E.bench G) (Outs S) (fun m => f.round m data x) fun r g => Outs S g ∧
    ∀ y, r = some y → x.1 < y.1 := by
  have hcclk : Within S (rpPin rpCclk) := within_pin hc
  cases f with
  | sm8 =>
    refine contract_plainRound (contract_if (fun _ => ?_) fun _ => ?_) (by decide) _
    · exact keeps_bind (keeps_ficClrGpioFast hcclk) fun _ =>
        keeps_bind (keeps_set hcclk) fun _ => keeps_ret _
    · exact keeps_bind (keeps_clr (within_or (within_and hm) hcclk)) fun _ =>
        keeps_bind (keeps_set (within_and hm)) fun _ =>
        keeps_bind (keeps_set (within_or (within_and hm) hcclk)) fun _ => keeps_ret _
  | sm16 =>
    refine contract_plainRound (contract_if (fun _ => ?_) fun _ => ?_) (by decide) _
    · exact keeps_bind (keeps_ficClrGpioFast hcclk) fun _ =>
        keeps_bind (keeps_ficSetGpioFast hcclk) fun _ => keeps_ret _
    · exact keeps_bind (keeps_ficClrGpio (within_or (within_and hm) hcclk)) fun _ =>
        keeps_bind (keeps_ficSetGpio (within_and hm)) fun _ =>
        keeps_bind (keeps_ficSetGpio (within_or (within_and hm) hcclk)) fun _ => keeps_ret _
  | sm8Fast =>
    refine contract_fastRound ?_ (by decide) _
    -- one test of the look-ahead after the other
    refine contract_if (fun _ => ?_) fun _ => keeps_then (keeps_fastWrite hc hm _) _
    refine contract_if (fun _ => ?_) fun _ => keeps_then (keeps_fastRepeat hc) _
    refine contract_if (fun _ => ?_) fun _ => keeps_then (keeps_toggleCclk hc 4) _
    refine contract_if (fun _ => ?_) fun _ => keeps_then (keeps_toggleCclk hc 8) _
    refine contract_if (fun _ => ?_) fun _ => keeps_then (keeps_toggleCclk hc 12) _
    exact keeps_then (keeps_toggleCclk hc 16) _
  | sm16Fast =>
    refine contract_fastRound ?_ (by decide) _
    refine contract_if (fun _ => ?_) fun _ => keeps_then (keeps_fastWrite hc hm _) _
    refine contract_if (fun _ => ?_) fun _ => keeps_then (keeps_fastRepeat hc) _
    refine contract_if (fun _ => ?_) fun _ => keeps_then (keeps_toggleCclk hc 4) _
    exact keeps_then (keeps_toggleCclk hc 8) _

end

/-! ## After the loop -/

theorem keeps_progEnd (st : ProgStatus) (k : Nat) :
    Contract (E.bench G) Pre (fun _ => progEnd st k) Anyhow := by
  have hissue : ∀ {o : Op}, (∀ g, MaskDriven o g) →
      Contract (E.bench G) (Outs fun _ => False) (fun _ => issue o) fun _ => Outs fun _ => False :=
    fun ho => contract_call (fun _ _ => G.driven _ _ (ho _)) fun _ _ _ _ hq => hq.elim
  refine contract_bind contract_setAllInput fun _ => ?_
  refine contract_bind (hissue fun _ => trivial) fun _ => ?_
  refine contract_bind (hissue fun _ => trivial) fun _ => ?_
  exact contract_bind (hissue fun _ => trivial) fun _ => contract_ret fun _ _ => trivial

theorem keeps_awaitDone (hc : S rpCclk) : Keeps E G S fun m => awaitDone m := by
  refine keeps_bind keeps_time fun t1 => keeps_loopTimed t1 ?_ ?_
  · refine keeps_bind keeps_get fun _ => contract_if (fun _ => ?_) fun _ => keeps_ret _
    refine keeps_bind keeps_time fun _ => ?_
    refine keeps_bind keeps_get fun _ => contract_if (fun _ => keeps_ret _) fun _ => ?_
    refine keeps_checkOr (keeps_ficSetGpio (within_pin hc)) ?_
    exact keeps_checkOr (keeps_ficClrGpio (within_pin hc)) (keeps_ret _)
  intro m s s' he
  -- the second reading of the clock is the second operation of a round
  have hround : (E.bench G).exec
      (if getPin (s.gpio.bus (E.levels s.step) 0 32) rpDone == 0#32 then issue .time >>= fun t2 =>
      issue .get >>= fun w => if getPin w rpInit == 0#32 ||
      decide (t2 - t1 > commTimeout) then ret (some (-1)) else
      checkOr (some (-1)) (ficSetGpio m (rpPin rpCclk)) <|
      checkOr (some (-1)) (ficClrGpio m (rpPin rpCclk)) <| ret none
    else ret (some 0) : P (Option Int)) ⟨s.gpio, s.step + 1⟩ = some (none, s') := he
  by_cases hd : (getPin (s.gpio.bus (E.levels s.step) 0 32) rpDone == 0#32) = true
  · rw [if_pos hd] at hround
    have hrest : (E.bench G).exec (if getPin (s.gpio.bus (E.levels (s.step + 2)) 0 32) rpInit == 0#32 ||
        decide (E.clock (s.step + 1) - t1 > commTimeout) then ret (some (-1)) else
      checkOr (some (-1)) (ficSetGpio m (rpPin rpCclk)) <|
        checkOr (some (-1)) (ficClrGpio m (rpPin rpCclk)) <| ret none : P (Option Int))
      ⟨s.gpio, s.step + 3⟩ = some (none, s') := hround
    by_cases hlate : E.clock (s.step + 1) - t1 > commTimeout
    · rw [decide_eq_true hlate, Bool.or_true, if_pos rfl] at hrest
      cases hrest
    · have hstep := exec_step hrest
      exact ⟨s.step + 1,
        by omega, by show s.step + 1 < s'.step; simp only at hstep; omega, Int.not_lt.1 hlate⟩
  · rw [if_neg hd] at hround
    cases hround

theorem keeps_progWait (hc : S rpCclk) {mask : BitVec 32} (hm : Within S mask) (pm : ProgMode) :
    Keeps E G S fun m => progWait m mask pm :=
  contract_if (fun _ => keeps_check (keeps_awaitDone hc) <|
    keeps_check (keeps_ficClrGpio (within_or hm (within_pin hc))) (keeps_ret _)) fun _ => keeps_ret _

theorem keeps_initTest (f : ProgFn) : Keeps E G S fun _ => f.initTest := by
  have hfast : Keeps E G S fun _ => fastInitTest :=
    keeps_bind keeps_get fun _ => contract_if (fun _ => keeps_ret _) fun _ => keeps_ret _
  cases f with
  | sm8 => exact keeps_ret _
  | sm16 => exact keeps_ret _
  | sm8Fast => exact hfast
  | sm16Fast => exact hfast

theorem within_progPins (f : ProgFn) (h : ∀ p, ProgPins b f.lanes p → S p) : Within S f.mask :=
  within_mask f fun p h1 h2 => h p (progPins_data h1 h2)

theorem keeps_body (f : ProgFn) (h : ∀ p, ProgPins b f.lanes p → S p) (data : Mem) (size : Nat) :
    Keeps E G S fun m => f.body m data size := by
  have hround : ∀ x, Contract (E.bench G) (Outs S) (fun m => f.round m data x) fun r g => Outs S g ∧
      ∀ y, r = some y → x.1 < y.1 :=
    contract_round (h _ progPins_cclk) f (within_progPins f h) data
  simp only [body_while]
  refine contract_bind
    (contract_whileDo (fun x => size - x.1)
    (fun x hgo => contract_mono (hround x) (fun _ hg => hg) fun r g hg => ?_)
    (by show size - 0 < size + 1; omega)) fun _ => keeps_ret _
  have hlt := ProgFn.going_iff.1 hgo
  exact ⟨hg.1, fun y hy => by have := hg.2 y hy; omega⟩

/-- A programming function from the end of its data loop on. -/
theorem contract_progFinish (f : ProgFn) (h : ∀ p, ProgPins b f.lanes p → S p)
    (pm : ProgMode) (r : Option Nat) :
    Contract (E.bench G) (Outs S) (fun m => progFinish m f.initTest f.mask pm r) Anyhow := by
  cases r with
  | none => exact keeps_progEnd _ _
  | some i =>
    exact contract_bind (keeps_check (keeps_initTest f)
      (keeps_progWait (h _ progPins_cclk) (within_progPins f h) pm)) fun w =>
      contract_if (fun _ => keeps_progEnd _ _) fun _ => keeps_progEnd _ _

/-- From the reset on: CCLK low, the data loop, and the end. -/
def progStream (f : ProgFn) (fuel : Nat) (data : Mem) (size : Nat) (pm : ProgMode) : P Nat :=
  (checkOr none (check (ficClrGpio fuel (rpPin rpCclk)) (ret 0)) do
    let _ ← issue .time
    f.body fuel data size) >>= progFinish fuel f.initTest f.mask pm

theorem contract_progStream (f : ProgFn) (h : ∀ p, ProgPins b f.lanes p → S p) (data : Mem)
    (size : Nat) (pm : ProgMode) :
    Contract (E.bench G) (Outs S) (fun m => progStream f m data size pm) Anyhow :=
  contract_bind (keeps_checkOr
    (keeps_check (keeps_ficClrGpio (within_pin (h _ progPins_cclk))) (keeps_ret _)) <|
    keeps_bind keeps_time fun _ => keeps_body f h data size) fun r => contract_progFinish f h pm r

/-! ## The parts of a call -/

/-- The last test of `fic_prog_init` in PM_NORMAL. -/
def doneTest : P Int := do
  let v ← issue .get
  if getPin v rpDone == 1#32 then ret (-1) else ret 0

theorem keeps_doneTest : Keeps E G S fun _ => doneTest :=
  keeps_bind keeps_get fun _ => contract_if (fun _ => keeps_ret _) fun _ => keeps_ret _

theorem ficProgInit_normal (fuel : Nat) :
    ficProgInit b fuel .normal = check (progLead b fuel) (check (awaitInit fuel) doneTest) := by
  unfold progLead
  simp only [check_check, check_bind]
  rfl

/-- A failed step of a programming function. -/
abbrev progFail : P Nat := progEnd .fail 0

/-- A programming function: entry, set-up, reset, and the rest. -/
theorem prog_parts (f : ProgFn) (fuel : Nat) (data : Mem) (size : Nat) (pm : ProgMode) :
    f.prog b fuel data size pm = progBegin f.smap size pm >>=
      fun _ => ficProgInitSm b fuel f.lanes >>= fun r =>
      if r < 0 then progFail else ficProgInit b fuel pm >>= fun r => if r < 0 then progFail
      else progStream f fuel data size pm := by
  rw [ProgFn.prog_eq]
  unfold progLoad progSetup
  rw [bind_assoc]
  refine congrArg (progBegin f.smap size pm >>= ·) (funext fun _ => ?_)
  rw [checkOr_check, checkOr_check, checkOr_bind, checkOr_bind]
  rfl

/-- A call of a programming function in PM_NORMAL up to the wait for INIT. -/
def smLead (f : ProgFn) (b : Board) (fuel size : Nat) : P Int := do
  progBegin f.smap size .normal
  check (ficProgInitSm b fuel f.lanes) (progLead b fuel)

theorem prog_normal_eq (f : ProgFn) (fuel : Nat) (data : Mem) (size : Nat) :
    f.prog b fuel data size .normal = smLead f b fuel size >>= fun r => if r < 0 then progFail else
      awaitInit fuel >>= fun w => if w < 0 then progFail else
      doneTest >>= fun r => if r < 0 then progFail else progStream f fuel data size .normal := by
  have hcheck : ∀ (p q : P Int) (g : Int → P Nat), check p q >>= g = p >>=
      fun r => if r < 0 then g (-1) else q >>= g :=
    fun p q g => checkOr_bind (-1) p q g
  have hneg : (-1 : Int) < 0 := by decide
  rw [prog_parts]
  unfold smLead
  rw [bind_assoc]
  refine congrArg (progBegin f.smap size .normal >>= ·) (funext fun _ => ?_)
  rw [hcheck, if_pos hneg]
  refine congrArg (ficProgInitSm b fuel f.lanes >>= ·) (funext fun r => ?_)
  rw [ficProgInit_normal, hcheck, hcheck, if_pos hneg]

/-- `fic_prog_init` in PM_NORMAL. -/
theorem progInit_normal_eq (fuel : Nat) :
    discard (ficProgInit b fuel .normal) = progLead b fuel >>= fun r => if r < 0 then ret () else
      awaitInit fuel >>= fun w => if w < 0 then ret () else discard doneTest := by
  rw [ficProgInit_normal]
  unfold discard check
  rw [checkOr_bind, checkOr_bind]

/-! ## The calls -/

/-- Called with the pins of the set-up outputs, the reset sets CFSEL where it is an output. -/
theorem reset_ready {g : Gpio} (hg : Outs (ProgPins b n) g) :
    Outs (ProgPins b n) g ∧ (b = .mk2 → G.allows (.set (rpPin rpCfsel)) (g.setOutput rpCfsel)) := by
  refine ⟨hg, fun hb => G.driven _ _ (within_pin (Gpio.isOut_setOutput (hg _ (progPins_high ?_)) _))⟩
  subst hb
  decide

theorem contract_progBegin (smap : ProgSmapMode) (size : Nat) (pm : ProgMode) :
    Contract (E.bench G) Pre (fun _ => progBegin smap size pm) Anyhow := by
  have any : ∀ {Pre : Gpio → Prop} {o : Op}, (∀ g, MaskDriven o g) →
      Contract (E.bench G) Pre (fun _ => issue o) Anyhow :=
    fun ho => contract_call (fun g _ => G.driven _ g (ho g)) fun _ _ _ => trivial
  have stat : ∀ {Pre : Gpio → Prop} {f : ProgStat → ProgStat},
      Contract (E.bench G) Pre (fun _ => issue (.stat f)) Anyhow :=
    any fun _ => trivial
  refine contract_bind stat fun _ => contract_bind stat fun _ => contract_bind stat fun _ => ?_
  refine contract_bind (any (o := .clock) fun _ => trivial) fun _ => contract_bind stat fun _ => ?_
  exact contract_bind stat fun _ => stat

theorem lanes_le (f : ProgFn) : f.lanes ≤ 16 := by cases f <;> decide

theorem contract_smLead (f : ProgFn) (size : Nat) :
    Contract (E.bench G) Pre (fun m => smLead f b m size) (Gives (ResetPins (ProgPins b f.lanes))) := by
  refine contract_bind (contract_progBegin _ _ _) fun _ => ?_
  refine contract_checkOr (contract_ficProgInitSm (lanes_le f))
    (fun _ _ _ _ hneg => absurd hneg (by decide)) ?_
  exact contract_progLead fun _ ⟨_, hr, h⟩ => reset_ready (h hr)

/-- After the wait for INIT. -/
def smRest (f : ProgFn) (fuel : Nat) (data : Mem) (size : Nat) (w : Int) : P Nat :=
  if w < 0 then progFail else doneTest >>= fun r => if r < 0 then progFail
    else progStream f fuel data size .normal

theorem sm_normal_parts (f : ProgFn) (fuel : Nat) (data : Mem) (size : Nat) :
    discard (f.prog b fuel data size .normal) = smLead f b fuel size >>=
      fun r => if r < 0 then discard progFail else
      awaitInit fuel >>= fun w => discard (smRest f fuel data size w) := by
  unfold discard
  rw [prog_normal_eq, bind_assoc]
  refine congrArg (smLead f b fuel size >>= ·) (funext fun r => ?_)
  split
  · rfl
  · rw [bind_assoc]
    rfl

theorem contract_smRest (f : ProgFn) (data : Mem) (size : Nat) (w : Int) :
    Contract (E.bench G) (Outs (ResetPins (ProgPins b f.lanes)))
      (fun m => smRest f m data size w) Anyhow := by
  refine contract_if (fun _ => keeps_progEnd _ _) fun _ => ?_
  refine contract_bind keeps_doneTest fun _ => ?_
  exact contract_if (fun _ => keeps_progEnd _ _) fun _ =>
    contract_progStream f (fun _ => .inl) data size .normal

/-- A programming function in PM_PR. -/
theorem contract_prog_pr (f : ProgFn) (data : Mem) (size : Nat) :
    Contract (E.bench G) Pre (fun m => f.prog b m data size .pr) Anyhow := by
  simp only [prog_parts]
  refine contract_bind (contract_progBegin _ _ _) fun _ =>
    contract_bind (contract_ficProgInitSm (lanes_le f)) fun r =>
    contract_if (fun _ => keeps_progEnd _ _) fun hr => ?_
  refine contract_bind (contract_ficProgInit_pr fun g hg => reset_ready (hg (Int.not_lt.1 hr))) fun r =>
    contract_if (fun _ => keeps_progEnd _ _) fun hr => ?_
  exact contract_mono (contract_progStream f (fun _ => .inl) data size .pr)
    (fun _ hg => hg (Int.not_lt.1 hr)) fun _ _ h => h

/-- The wait for INIT, should it end, changes nothing. -/
theorem allowed_awaitInit {g : Gpio} (fuel : Nat) (hg : Outs S g) :
    (E.bench G).Allowed (fun _ => Outs S) (awaitInit fuel) g := by
  have hloop : ∀ m, (E.bench G).Allowed (fun _ : Int => Outs S) (loop (issue .get >>= fun v =>
      if getPin v rpInit == 0#32 then issue .get >>= fun _ => ret none else ret (some 0)) m) g := by
    intro m
    induction m with
    | zero => trivial
    | succ m ih =>
      refine Bench.allowed_bind (Bench.allowed_bind ⟨G.driven _ _ trivial, fun v => ?_⟩)
      show (E.bench G).Allowed _ (if getPin v rpInit == 0#32 then issue .get >>= fun _ => ret none
        else ret (some 0) : P (Option Int)) g
      split
      · exact ⟨G.driven _ _ trivial, fun _ => ih⟩
      · exact hg
  exact hloop fuel

end Libfic2
