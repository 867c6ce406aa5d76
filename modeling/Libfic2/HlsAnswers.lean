import Libfic2.HlsTransfers
import Libfic2.DeviceRules

/-!
# Transfers that succeed

`May dev p R`: from every state some run of `p` returns a value of which `R` holds.  On a device
whose GET_GPIO may read anything no wait has to run out: `may_ficHlsWrite` and `may_ficHlsRead`
answer 0 for every size that is not refused, and `hls_succeeds` gives the runs.
-/

namespace Libfic2

open Driver Prog

section
variable {D : Type} {dev : Device D} {α β : Type}

/-- Some run of `p` returns a value of which `R` holds, from every state. -/
def May (dev : Device D) (p : P α) (R : α → Prop) : Prop := ∀ s, can (sys dev) (fun a _ => R a) p s

/-- GET_GPIO may read anything. -/
def Device.ReadsAny (dev : Device D) : Prop := ∀ g d v, dev.level g d v

/-! ## Sequences and loops -/

section
variable {p : P α} {f : α → P β} {R : α → Prop} {T : β → Prop}

theorem may_ret {a : α} (h : R a) : May dev (ret a) R := fun _ => h

theorem may_bind (h : May dev p R) (hf : ∀ a, R a → May dev (f a) T) : May dev (p >>= f) T :=
  fun s => can_bind (can_mono (h s) fun a t ha => hf a ha t)

theorem may_checkOr {q : P Int} {e : α} (hq : May dev q (· = 0)) (hp : May dev p R) :
    May dev (checkOr e q p) R := by
  refine fun s => can_checkOr (can_mono (hq s) fun r t hr => ?_)
  subst hr
  exact ⟨by decide, hp t⟩

theorem may_check {q k : P Int} {R : Int → Prop} (hq : May dev q (· = 0)) (hk : May dev k R) :
    May dev (check q k) R :=
  may_checkOr hq hk

theorem may_when {c : Bool} {q : P Unit} (h : May dev q fun _ => True) :
    May dev (Prog.when c q) fun _ => True := by
  cases c with
  | true => exact h
  | false => exact may_ret trivial

theorem may_forDo {body : Nat → P Unit} (h : ∀ i, May dev (body i) fun _ => True) (lo n : Nat) :
    May dev (forDo body lo n) fun _ => True := by
  induction n generalizing lo with
  | zero => exact may_ret trivial
  | succ n ih => exact may_bind (h lo) fun _ _ => ih (lo + 1)

theorem may_forEach {body : Nat → P Int} (h : ∀ i, May dev (body i) (· = 0)) (lo n : Nat) :
    May dev (forEach body lo n) (· = 0) := by
  induction n generalizing lo with
  | zero => exact may_ret rfl
  | succ n ih => exact may_check (h lo) (ih (lo + 1))

end

variable (b : Board) (n : Nat) (hany : dev.ReadsAny)
include hany

theorem may_issue {o : Op} (a : Ans o) {f : Ans o → P β} {T : β → Prop} (h : May dev (f a) T) :
    May dev (issue o >>= f) T := by
  intro s
  cases o with
  | get => exact can_get a (hany _ _ a) (h s)
  | _ => exact can_issue a rfl (h _)

/-! ## Waiting -/

section
variable {n} {c : BitVec 32 → Bool} {v : BitVec 32} (hv : c v = false)
include hv

theorem may_pollTimed : May dev (pollTimed (n + 1) c) (· = 0) :=
  fun s => can_pollTimed n v (hany _ _ v) hv (s := s) rfl

theorem may_pollCounted (m : Nat) : May dev (pollCounted c m) (· = 0) := by
  cases m <;>
  · refine may_issue hany (o := Op.get) v ?_
    rw [hv]
    exact may_ret rfl

end

variable (set : BitVec 32)

theorem readsLatch_of_any : dev.ReadsLatch := fun g d => hany g d _

theorem may_ficSetGpio : May dev (ficSetGpio (n + 1) set) (· = 0) :=
  fun _ => can_ficSetGpio n (readsLatch_of_any hany) set rfl

theorem may_ficClrGpio : May dev (ficClrGpio (n + 1) set) (· = 0) :=
  fun _ => can_ficClrGpio n (readsLatch_of_any hany) set rfl

theorem may_ficSetGpioFast : May dev (ficSetGpioFast (n + 1) set) (· = 0) :=
  fun _ => can_ficSetGpioFast n (readsLatch_of_any hany) set rfl

theorem may_ficClrGpioFast : May dev (ficClrGpioFast (n + 1) set) (· = 0) :=
  fun _ => can_ficClrGpioFast n (readsLatch_of_any hany) set rfl

/-! ## Setting up and closing -/

theorem may_setAllInput : May dev setAllInput fun _ => True :=
  may_issue hany () (may_issue hany () (may_issue hany () (may_ret trivial)))

theorem may_setInputOutput (p : Nat) : May dev (setInputOutput p) fun _ => True :=
  may_issue hany () (may_issue hany () (may_ret trivial))

theorem may_ficCommPortdir (dir : CommPortDir) : May dev (ficCommPortdir b dir) fun _ => True := by
  cases dir with
  | snd => exact may_forDo (may_setInputOutput hany) _ _
  | rcv => exact may_forDo (fun _ => may_issue hany () (may_ret trivial)) _ _

theorem may_ficCommSetup : May dev (ficCommSetup b (n + 1)) (· = 0) := by
  refine may_bind (may_setAllInput hany) fun _ _ => may_forEach (fun i => ?_) 0 gpioPinMax
  refine may_bind (may_when (may_issue hany () (may_ret trivial))) fun _ _ => ?_
  split
  · exact may_bind (may_setInputOutput hany i) fun _ _ => may_check (may_ficClrGpio n hany _) (may_ret rfl)
  · exact may_ret rfl

theorem may_ficCommWaitFackUp : May dev (ficCommWaitFackUp b (n + 1)) (· = 0) :=
  may_pollTimed hany (v := rpPin b.rpFack) (by cases b <;> decide)

theorem may_ficCommWaitFackDown : May dev (ficCommWaitFackDown b (n + 1)) (· = 0) :=
  may_pollTimed hany (v := 0#32) (by cases b <;> decide)

theorem may_ficCommWaitFackUpNotimeout : May dev (ficCommWaitFackUpNotimeout b) (· = 0) :=
  may_pollCounted hany (v := rpPin b.rpFack) (by cases b <;> decide) _

theorem may_ficCommWaitFreqDown : May dev (ficCommWaitFreqDown b (n + 1)) (· = 0) :=
  may_pollTimed hany (v := 0#32) (by cases b <;> decide)

theorem may_ficHlsCommTerminate : May dev (ficHlsCommTerminate b (n + 1)) (· = 0) :=
  may_check (may_ficClrGpio n hany _) <| may_check (may_ficCommWaitFreqDown b n hany) <|
    may_bind (may_setAllInput hany) fun _ _ => may_ret rfl

/-! ## Words -/

variable (bus : BitVec 32)

theorem may_ficCommSend : May dev (ficCommSend b (n + 1) bus) (· = 0) := by
  refine may_check (may_ficClrGpio n hany _) ?_
  refine may_check (may_ficSetGpio n hany _) ?_
  refine may_check (may_ficCommWaitFackUp b n hany) ?_
  refine may_check (may_ficClrGpio n hany _) ?_
  exact may_check (may_ficCommWaitFackDown b n hany) (may_ret rfl)

theorem may_ficCommSetaddr (addr : BitVec 16) : May dev (ficCommSetaddr b (n + 1) addr) (· = 0) := by
  cases b with
  | mk1 =>
    exact may_check (may_ficCommSend _ n hany _) <| may_check (may_ficCommSend _ n hany _) <|
      may_check (may_ficCommSend _ n hany _) <| may_check (may_ficCommSend _ n hany _) (may_ret rfl)
  | mk2 => exact may_check (may_ficCommSend _ n hany _) (may_ret rfl)

theorem may_ficHlsCommInitiate (cmd : RasioCmd) : May dev (ficHlsCommInitiate b (n + 1) cmd) (· = 0) := by
  refine may_check (may_ficCommSetup b n hany) ?_
  refine may_bind (may_ficCommPortdir b hany .snd) fun _ _ => ?_
  refine may_check (may_ficSetGpio n hany _) ?_
  refine may_check (may_ficCommSend b n hany _) ?_
  refine may_check (may_ficCommSetaddr b n hany _) ?_
  exact may_bind (may_when (may_ficCommPortdir b hany .rcv)) fun _ _ => may_ret rfl

theorem may_ficCommSendFast : May dev (ficCommSendFast b (n + 1) bus) (· = 0) := by
  refine may_bind (may_ficClrGpio n hany _) fun r1 h1 =>
    may_bind (may_ficSetGpioFast n hany _) fun r2 h2 => ?_
  refine may_bind (may_ficCommWaitFackUpNotimeout b hany) fun r3 h3 =>
    may_bind (may_ficClrGpioFast n hany _) fun r4 h4 => ?_
  rw [h1, h2, h3, h4]
  exact may_ret rfl

theorem may_ficCommReceiveFast (rcv : BitVec 32) :
    May dev (ficCommReceiveFast b (n + 1) rcv) (·.1 = 0) := by
  refine may_bind (may_ficClrGpioFast n hany _) fun r1 h1 =>
    may_bind (may_ficSetGpioFast n hany _) fun r2 h2 => ?_
  refine may_bind (may_ficCommWaitFackUpNotimeout b hany) fun r3 h3 => ?_
  rw [h1, h2, h3]
  refine may_bind (may_forDo (fun _ => may_issue hany (o := Op.get) 0#32 (may_ret trivial)) _ _)
    fun _ _ => may_issue hany (o := Op.get) 0#32 ?_
  refine may_bind (may_ficClrGpioFast n hany _) fun r4 h4 => ?_
  rw [h4]
  exact may_ret rfl

/-! ## Transfers -/

variable {b}

theorem may_sendWords (ws : List (BitVec b.width)) : May dev (sendWords b (n + 1) ws 0) (· = 0) := by
  induction ws with
  | nil => exact may_ret rfl
  | cons w ws ih =>
    refine may_bind (may_ficCommSendFast b n hany _) fun r hr => ?_
    rw [hr]
    exact ih

theorem may_ficHlsSendBytes (data : Mem) {size : Nat} (hsize : SizeOk b size) :
    May dev (ficHlsSendBytes b (n + 1) data size) (· = 0) := by
  rw [ficHlsSendBytes_eq, if_neg (sizeOk_iff.1 hsize)]
  refine may_bind (may_sendWords n hany _) fun r hr => ?_
  rw [hr]
  exact may_ret rfl

omit hany in
theorem sizeOk_cmd : SizeOk b 12 := fun _ => by decide

theorem may_ficHlsSend (data : Mem) {size : Nat} (hsize : SizeOk b size) :
    May dev (ficHlsSend b (n + 1) data size) (· = 0) :=
  may_check (may_ficHlsCommInitiate b n hany _) <| may_check (may_ficHlsSendBytes n hany _ hsize) <|
    may_check (may_ficHlsCommTerminate b n hany) (may_ret rfl)

theorem may_receiveLoopMk1 (m i : Nat) (buf : Mem) :
    May dev (receiveLoopMk1 (n + 1) m i buf) (·.1 = 0) := by
  induction m generalizing i buf with
  | zero => exact may_ret rfl
  | succ m ih =>
    refine may_bind (may_ficCommReceiveFast .mk1 n hany _) ?_
    rintro ⟨_, hi⟩ rfl
    refine may_bind (may_ficCommReceiveFast .mk1 n hany _) ?_
    rintro ⟨_, lo⟩ rfl
    exact ih _ _

theorem may_receiveLoopMk2 (m i : Nat) (buf : Mem) :
    May dev (receiveLoopMk2 (n + 1) m i buf) (·.1 = 0) := by
  induction m generalizing i buf with
  | zero => exact may_ret rfl
  | succ m ih =>
    refine may_bind (may_ficCommReceiveFast .mk2 n hany _) ?_
    rintro ⟨_, w⟩ rfl
    exact ih _ _

theorem may_ficHlsReceiveBytes (buf : Mem) {size : Nat} (hsize : SizeOk b size) :
    May dev (ficHlsReceiveBytes b (n + 1) buf size) (·.1 = 0) := by
  have hend : ∀ r : Int × Mem, r.1 = 0 →
      May dev (if r.1 < 0 then ret (-1, r.2) else ret (0, r.2) : P (Int × Mem)) (·.1 = 0) := by
    intro r hr
    rw [if_neg (by rw [hr]; decide)]
    exact may_ret rfl
  cases b with
  | mk1 => exact may_bind (may_receiveLoopMk1 n hany _ _ _) hend
  | mk2 =>
    obtain ⟨htwo, heven⟩ := hsize rfl
    unfold ficHlsReceiveBytes
    dsimp only
    rw [if_neg (Nat.not_lt.2 htwo), if_neg (not_not.2 heven)]
    exact may_bind (may_receiveLoopMk2 n hany _ _ _) hend

theorem may_ficHlsWrite (data : Mem) {size : Nat} (hsize : SizeOk b size) (addr ctrl : BitVec 32) :
    May dev (ficHlsWrite b (n + 1) data size addr ctrl) (· = 0) :=
  may_check (may_ficHlsCommInitiate b n hany _) <| may_check (may_ficHlsSendBytes n hany _ sizeOk_cmd) <|
    may_check (may_ficHlsSendBytes n hany _ hsize) <|
      may_check (may_ficHlsCommTerminate b n hany) (may_ret rfl)

theorem may_ficHlsRead (buf : Mem) {size : Nat} (hsize : SizeOk b size) (addr ctrl : BitVec 32) :
    May dev (ficHlsRead b (n + 1) buf size addr ctrl) (·.1 = 0) := by
  refine may_checkOr (may_ficHlsSend n hany _ sizeOk_cmd) <|
    may_checkOr (may_ficHlsCommInitiate b n hany _) <|
    may_bind (may_ficHlsReceiveBytes n hany buf hsize) fun r hr => ?_
  rw [if_neg (by rw [hr]; decide)]
  exact may_checkOr (may_ficHlsCommTerminate b n hany) (may_ret rfl)

/-- **For every size that is not refused** there are runs in which `fic_hls_write` and `fic_hls_read`
answer 0. -/
theorem hls_succeeds (data : Mem) {size : Nat} (hsize : SizeOk b size)
    (addr ctrl : BitVec 32) (s : World D) :
    (∃ t, (sys dev).Run (ficHlsWrite b (n + 1) data size addr ctrl, s) (ret 0, t)) ∧
      ∃ buf' t, (sys dev).Run (ficHlsRead b (n + 1) data size addr ctrl, s) (ret (0, buf'), t) := by
  obtain ⟨r, t, hwrite, rfl⟩ := can_run (may_ficHlsWrite n hany data hsize addr ctrl s)
  obtain ⟨⟨r, buf'⟩, u, hread, rfl⟩ := can_run (may_ficHlsRead n hany data hsize addr ctrl s)
  exact ⟨⟨t, hwrite⟩, buf', u, hread⟩

end

end Libfic2
