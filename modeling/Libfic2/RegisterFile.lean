import Libfic2.HlsTransfers
import Libfic2.RegisterPeer

/-!
# `fic_write` and `fic_read` on a register file

* `wp_ficWrite`, `wp_ficRead`: one call takes the peer from one register file to the next.
* `register_file`: in a session of calls that all return without error, every read gets
  the value of the last write to its address, and the peer accepts each word once.
-/

namespace Libfic2

open Driver Prog Sys

variable {b : Board} (fuel : Nat)

/-! ## The words of a call -/

theorem after_append {D A : Type} {dev : Device D} (ch : Channel b dev A) (a : A)
    (ws ws' : List (BitVec b.width)) : ch.after a (ws ++ ws') = ch.after (ch.after a ws) ws' :=
  List.foldl_append

theorem regWords_wordsReg (x : BitVec b.regWidth) : wordsReg b (regWords b x) = some x := by
  cases b with
  | mk1 => exact congrArg some (extract_append (n := 4) (m := 4) x)
  | mk2 => rfl

/-- A whole write. -/
theorem after_write (regs : BitVec 16 → BitVec b.regWidth) (l : List (BitVec b.width)) (addr : BitVec 16)
    (x : BitVec b.regWidth) :
    (registerChannel b).after (Core.start regs l) (cmdBits b .write :: (addrWords b addr ++ regWords b x)) =
      ⟨some (cmdBits b .write :: (addrWords b addr ++ regWords b x)), setReg regs addr x, none,
        l ++ (cmdBits b .write :: (addrWords b addr ++ regWords b x))⟩ := by
  have hx := regWords_wordsReg x
  cases b with
  | mk1 =>
    have happ : ∀ (l : List (BitVec 4)) (c a3 a2 a1 a0 d1 d0 : BitVec 4),
        l ++ [c] ++ [a3] ++ [a2] ++ [a1] ++ [a0] ++ [d1] ++ [d0] = l ++ [c, a3, a2, a1, a0, d1, d0] := by
      simp
    apply Core.ext
    · rfl
    · show setReg regs (@ofDigits 4 (digit 4 addr 3) (digit 4 addr 2) (digit 4 addr 1) (digit 4 addr 0))
        (@HAppend.hAppend (BitVec 4) (BitVec 4) (BitVec 8) _ (digit 4 x 1) (digit 4 x 0)) =
        setReg regs addr x
      rw [show @ofDigits 4 (digit 4 addr 3) (digit 4 addr 2) (digit 4 addr 1) (digit 4 addr 0) = addr
        from ofDigits_digit (n := 4) addr]
      exact congrArg (setReg regs addr) (Option.some.inj hx)
    · rfl
    · exact happ l _ _ _ _ _ _ _
  | mk2 =>
    have happ : ∀ (l : List (BitVec 16)) (c a d : BitVec 16),
        l ++ [c] ++ [a] ++ [d] = l ++ [c, a, d] := by simp
    exact Core.ext rfl rfl rfl (happ l _ _ _)

/-- The head of a read. -/
theorem after_read (regs : BitVec 16 → BitVec b.regWidth) (l : List (BitVec b.width)) (addr : BitVec 16) :
    (registerChannel b).after (Core.start regs l) (cmdBits b .read :: addrWords b addr) =
      ⟨some (cmdBits b .read :: addrWords b addr), regs, none,
      l ++ (cmdBits b .read :: addrWords b addr)⟩ := by
  cases b with
  | mk1 =>
    have happ : ∀ (l : List (BitVec 4)) (c a3 a2 a1 a0 : BitVec 4),
        l ++ [c] ++ [a3] ++ [a2] ++ [a1] ++ [a0] = l ++ [c, a3, a2, a1, a0] := by
      simp
    exact Core.ext rfl rfl rfl (happ l _ _ _ _ _)
  | mk2 =>
    have happ : ∀ (l : List (BitVec 16)) (c a : BitVec 16), l ++ [c] ++ [a] = l ++ [c, a] := by simp
    exact Core.ext rfl rfl rfl (happ l _ _)

/-- In a read that has placed `ds`, the next strobe places the next word of the register. -/
theorem respond_read (regs : BitVec 16 → BitVec b.regWidth) (o : Option (BitVec b.width))
    (l ds : List (BitVec b.width)) (addr : BitVec 16) (w : BitVec b.width) :
    (Core.mk (some (cmdBits b .read :: (addrWords b addr ++ ds))) regs o l).respond w =
      ⟨some (cmdBits b .read :: (addrWords b addr ++ ds) ++
      [(regWords b (regs addr)).getD ds.length 0]), regs,
        some ((regWords b (regs addr)).getD ds.length 0), l⟩ := by
  have hread : readWord regs (cmdBits b .read :: (addrWords b addr ++ ds)) =
      some ((regWords b (regs addr)).getD ds.length 0) := by
    unfold readWord
    rw [takeHead_words]
    exact if_pos rfl
  unfold Core.respond
  dsimp only
  rw [hread]

/-! ## `fic_write` -/

theorem digit_setWidth (x : BitVec 16) (k : Nat) (hk : k < 2) : digit 4 (x.setWidth 8) k = digit 4 x k := by
  apply BitVec.eq_of_getLsbD_eq
  intro i hi
  rw [getLsbD_digit _ _ _ hi, getLsbD_digit _ _ _ hi, BitVec.getLsbD_setWidth,
    decide_eq_true (by omega), Bool.true_and]

/-- The data words of `fic_write`. -/
def sendData (b : Board) (fuel : Nat) (data : BitVec 16) : P Int :=
  match b with
  | .mk1 =>
    check (ficCommSend .mk1 fuel (((data.setWidth 32 &&& 0xf0#32) >>> 4) <<< Board.mk1.rpDataLow)) <|
    check (ficCommSend .mk1 fuel ((data.setWidth 32 &&& 0x0f#32) <<< Board.mk1.rpDataLow)) <|
    ret 0
  | .mk2 =>
    check (ficCommSend .mk2 fuel (data.setWidth 32 <<< Board.mk2.rpDataLow)) <|
    ret 0

theorem Channel.wp_data {D A : Type} {dev : Device D} (ch : Channel b dev A) {a : A}
    (data : BitVec 16) {α : Type}
    {Q : α → World D → Prop} {e : α} {k : P α} {s : World D}
    (hs : Holds (Between b) (ch.ready a) s) (he : ∀ t, Q e t)
    (h : ∀ t, Holds (Between b) (ch.ready (ch.after a (regWords b (data.setWidth b.regWidth)))) t →
      wp (sys dev) anyTime Q k t) :
    wp (sys dev) anyTime Q (checkOr e (sendData b fuel data) k) s := by
  have fail : ∀ t : World D, (((-1 : Int) < 0 → wp (sys dev) anyTime Q (ret e) t) ∧
      (¬ (-1 : Int) < 0 → wp (sys dev) anyTime Q k t)) :=
    fun t => ⟨fun _ => wp_failed t he, fun hn => absurd (by decide) hn⟩
  refine wp_checkOr ?_
  cases b with
  | mk1 =>
    refine ch.wp_send fuel (digit 4 (data.setWidth 8) 1) ?_ hs fail fun t1 h1 => ?_
    · rw [digit_setWidth data 1 (by decide)]
      exact nibble_busWord data 1 (by decide)
    refine ch.wp_send fuel (digit 4 (data.setWidth 8) 0) ?_ h1 fail fun t2 h2 => ?_
    · rw [digit_setWidth data 0 (by decide)]
      exact lowNibble_busWord data
    exact wp_retI (ch.stable _) h2 fun t ht => ⟨fun hn => absurd hn (by decide), fun _ => h t ht⟩
  | mk2 =>
    refine ch.wp_send fuel (data.setWidth 16) ?_ hs fail fun t1 h1 => ?_
    · rw [BitVec.setWidth_eq]
      rfl
    exact wp_retI (ch.stable _) h1 fun t ht => ⟨fun hn => absurd hn (by decide), fun _ => h t ht⟩

/-- The library is between two calls: all pins are inputs. -/
def Rests (regs : BitVec 16 → BitVec b.regWidth) (l : List (BitVec b.width)) : World (RegPeer b) → Prop :=
  Holds (SetBelow b 0) ((registerChannel b).ready (Core.start regs l))

theorem Rests.released {regs : BitVec 16 → BitVec b.regWidth}
    {l : List (BitVec b.width)} {s : World (RegPeer b)}
    (h : Rests regs l s) : Holds (Released b) ((registerChannel b).ready (Core.start regs l)) s := by
  have hb := board_pins (b := b)
  have hin : ∀ p, p < 28 → s.gpio.fn p = 0#3 := fun p hp => h.1.2 p (by omega) (.inl (Nat.zero_le p))
  exact ⟨⟨high_of_fn (hin _ hb.1), hin _ hb.2.2.1⟩, h.2⟩

theorem Rests.stable (regs : BitVec 16 → BitVec b.regWidth) (l : List (BitVec b.width)) :
    Stable (registerPeer b) (Rests regs l) :=
  calm_stable (start_calm regs l) fun _ h => h.calm

/-- The end of a transaction. -/
theorem wp_leave {c : Core b} {A : Gpio → Prop} {m : BitVec 32} (hm : m.getLsbD b.rpRreq = true)
    (hA : ∀ g, A g → Armed b g ∧ g.fn b.rpFreq = 0#3) {Q : Int → World (RegPeer b) → Prop} {r : Int}
    {s : World (RegPeer b)} (hs : Holds A ((registerChannel b).ready c) s) (he : ∀ t, Q (-1) t)
    (h : ∀ t, Rests c.regs c.accepted t → Q r t) :
    wp (sys (registerPeer b)) anyTime Q
      (check (ficClrGpio fuel m) (check (ficCommWaitFreqDown b fuel) do
        setAllInput
        ret r)) s := by
  refine wp_closeBus (start_calm c.regs c.accepted) fuel hm
    (((registerChannel b).armed c).stable fun g hg => (hA g hg).1) (fun g hg => (hA g hg).2)
    (fun g d _ hd => hd.2.leaves) (leaves_calm c)
    (fun g d v hg hd hv hf => hd.idle hg hv hf) hs he fun t ht => ?_
  exact wp_retI (Rests.stable _ _) ht h

/-- The words of a write. -/
def writeWords (b : Board) (addr data : BitVec 16) : List (BitVec b.width) :=
  cmdBits b .write :: (addrWords b addr ++ regWords b (data.setWidth b.regWidth))

def readWords (b : Board) (addr : BitVec 16) : List (BitVec b.width) := cmdBits b .read :: addrWords b addr

/-- `fic_write` -/
theorem wp_ficWrite (addr data : BitVec 16) {regs : BitVec 16 → BitVec b.regWidth}
    {l : List (BitVec b.width)} {s : World (RegPeer b)} (hs : Rests regs l s) :
    wp (sys (registerPeer b)) anyTime
      (fun r t => ¬ r < 0 → r = 0 ∧
        Rests (setReg regs addr (data.setWidth b.regWidth)) (l ++ writeWords b addr data) t)
      (ficWrite b fuel addr data) s := by
  have fail : ∀ t : World (RegPeer b), ¬ (-1 : Int) < 0 → (-1 : Int) = 0 ∧
      Rests (setReg regs addr (data.setWidth b.regWidth)) (l ++ writeWords b addr data) t :=
    fun _ h => absurd (by decide) h
  have hm : (rpPin b.rpRreq ||| rpPin b.rpRstb ||| b.commDatabusMask).getLsbD b.rpRreq = true := by
    cases b <;> decide
  refine wp_openBus (start_calm regs l) fuel (wp_setAllInput_released (start_calm regs l) hs.released) fail
    fun t ht => ?_
  refine (registerChannel b).wp_send fuel (cmdBits b .write) (cmd_busWord b .write)
    ⟨⟨_, ht.1⟩, ht.2⟩ fail fun t ht => ?_
  refine (registerChannel b).wp_setaddr fuel addr ht fail fun t ht => ?_
  refine (registerChannel b).wp_data fuel data ht fail fun t ht => ?_
  rw [← after_append, show (registerChannel b).after
    ((registerChannel b).next (Core.start regs l) (cmdBits b .write)) _ =
    (registerChannel b).after (Core.start regs l) (writeWords b addr data) from rfl,
    writeWords, after_write] at ht
  exact wp_leave fuel hm (fun g hg => ⟨hg.armed, hg.elim fun _ h => h.freq⟩) ht fail fun u hu _ => ⟨rfl, hu⟩

/-! ## `fic_read` -/

theorem wp_checkVal {D : Type} {dev : Device D} {Q : Int → World D → Prop} {p : P Int}
    {k : Int → P Int} {s : World D}
    (h : wp (sys dev) anyTime (fun i t => ¬ i < 0 → wp (sys dev) anyTime Q (k i) t) p s)
    (he : ∀ t, Q (-1) t) : wp (sys dev) anyTime Q (checkVal p k) s := by
  refine wp_bind (wp_mono h fun i t _ ht => ?_)
  split
  · exact wp_failed t he
  · next hi => exact ht hi

/-- mk1: the nibble in what `fic_comm_receive` answers. -/
theorem answersWord_mk1 {u : BitVec Board.mk1.width} {r : Int} (h : AnswersWord u r) :
    BitVec.ofInt 32 r &&& 0x0f#32 = u.setWidth 32 := by
  obtain ⟨v, rfl, rfl⟩ := h
  apply BitVec.eq_of_getLsbD_eq
  intro i hi
  unfold busBits
  rw [BitVec.ofInt_natCast, BitVec.ofNat_toNat, BitVec.setWidth_eq, BitVec.getLsbD_and, BitVec.getLsbD_and,
    show rcvMask .mk1 = 0xff#32 from rfl, getLsbD_fifteen, BitVec.getLsbD_setWidth, BitVec.getLsbD_setWidth,
    show (0xff#32).getLsbD i = Nat.testBit (2 ^ 8 - 1) i from rfl, Nat.testBit_two_pow_sub_one]
  by_cases h4 : i < 4
  · simp [h4, hi, show i < 8 by omega]
  · simp [h4]

/-- mk2: the word. -/
theorem answersWord_mk2 {u : BitVec Board.mk2.width} {r : Int} (h : AnswersWord u r) :
    (BitVec.ofInt 32 r).setWidth 16 = u := by
  obtain ⟨v, rfl, rfl⟩ := h
  apply BitVec.eq_of_getLsbD_eq
  intro i hi
  show _ = ((v >>> Board.mk2.rpDataLow).setWidth 16).getLsbD i
  rw [BitVec.ofInt_natCast, BitVec.ofNat_toNat, BitVec.setWidth_eq,
    BitVec.getLsbD_setWidth, BitVec.getLsbD_and,
    show rcvMask .mk2 = 0xffff#32 from rfl, BitVec.getLsbD_setWidth,
    show (0xffff#32).getLsbD i = Nat.testBit (2 ^ 16 - 1) i from rfl, Nat.testBit_two_pow_sub_one]
  simp [hi]

/-- What `fic_read` makes of two nibbles. -/
theorem joined_nibbles (h l : BitVec 4) :
    ((h.setWidth 32 <<< 4).setWidth 8 ||| (l.setWidth 32).setWidth 8 : BitVec 8) = h ++ l := by
  revert h l
  decide

/-- A read after `ds`: the next `fic_comm_receive` answers the next word of the register. -/
theorem wp_receiveNext {regs : BitVec 16 → BitVec b.regWidth} {o : Option (BitVec b.width)}
    {l : List (BitVec b.width)}
    {addr : BitVec 16} (ds : List (BitVec b.width)) {Q : Int → World (RegPeer b) → Prop} {k : Int → P Int}
    {s : World (RegPeer b)}
    (hs : Holds (Listening b false)
      ((registerChannel b).ready ⟨some (cmdBits b .read :: (addrWords b addr ++ ds)), regs, o, l⟩) s)
    (he : ∀ t, Q (-1) t)
    (h : ∀ i t, AnswersWord ((regWords b (regs addr)).getD ds.length 0) i →
      Holds (Listening b false) ((registerChannel b).ready
        ⟨some (cmdBits b .read ::
        (addrWords b addr ++ (ds ++ [(regWords b (regs addr)).getD ds.length 0]))), regs,
          some ((regWords b (regs addr)).getD ds.length 0), l⟩) t →
      wp (sys (registerPeer b)) anyTime Q (k i) t) :
    wp (sys (registerPeer b)) anyTime Q (checkVal (ficCommReceive b fuel) k) s := by
  have hword := registerReceived (by simp) (respond_read regs o l ds addr) rfl
  refine wp_checkVal (wp_mono
    (wp_ficCommReceive hword fuel (fun u => ?_) registerReceived_down ⟨hs.1, hs.2.2⟩)
    fun i t _ ht hi => ?_) he
  · constructor
    · rintro g d d' hg ⟨hu, hd⟩ hstep
      exact ⟨hu, hd.step (by simp) hstep (.inr hg.2) (.inl hg.1)⟩
    · intro _ _ _ _ _ h
      exact h
  · obtain ⟨u, hans, hpins, rfl, hd⟩ := ht hi
    refine h i t hans ⟨hpins, by simp, ?_⟩
    rw [← List.append_assoc]
    exact hd

/-- `fic_read` -/
theorem wp_ficRead (addr : BitVec 16) {regs : BitVec 16 → BitVec b.regWidth} {l : List (BitVec b.width)}
    {s : World (RegPeer b)} (hs : Rests regs l s) :
    wp (sys (registerPeer b)) anyTime
      (fun (r : Int) t => ¬ r < 0 → r = (regs addr).toNat ∧ Rests regs (l ++ readWords b addr) t)
      (ficRead b fuel addr) s := by
  have fail : ∀ t : World (RegPeer b), ¬ (-1 : Int) < 0 → (-1 : Int) = (regs addr).toNat ∧
      Rests regs (l ++ readWords b addr) t :=
    fun _ h => absurd (by decide) h
  have hm : (rpPin b.rpRreq).getLsbD b.rpRreq = true := by
    cases b <;> decide
  have hA : ∀ g, Listening b false g → Armed b g ∧ g.fn b.rpFreq = 0#3 := fun g hg => ⟨hg.armed, hg.freq⟩
  refine wp_openBus (start_calm regs l) fuel (wp_setAllInput_released (start_calm regs l) hs.released) fail
    fun t ht => ?_
  refine (registerChannel b).wp_send fuel (cmdBits b .read) (cmd_busWord b .read)
    ⟨⟨_, ht.1⟩, ht.2⟩ fail fun t ht => ?_
  refine (registerChannel b).wp_setaddr fuel addr ht fail fun t ht => ?_
  refine wp_portdirRcv ((registerChannel b).armed _) ht fun t ht => ?_
  have hhead : Holds (Listening b false) ((registerChannel b).ready
      ⟨some (cmdBits b .read :: (addrWords b addr ++ [])), regs, none, l ++ readWords b addr⟩) t := by
    rw [List.append_nil]
    exact after_read regs l addr ▸ ht
  cases b with
  | mk1 =>
    refine wp_receiveNext fuel (b := .mk1) [] hhead fail fun i1 t h1 ht => ?_
    refine wp_receiveNext fuel (b := .mk1) _ ht fail fun i2 t h2 ht => ?_
    refine wp_leave fuel (b := .mk1) hm hA ht fail fun u hu _ => ⟨?_, hu⟩
    have hbyte := (joined_nibbles (digit 4 (regs addr) 1) (digit 4 (regs addr) 0)).trans
      (extract_append (n := 4) (m := 4) (regs addr))
    rw [answersWord_mk1 h1, answersWord_mk1 h2]
    exact congrArg (fun x : BitVec 8 => ((x.toNat : Nat) : Int)) hbyte
  | mk2 =>
    refine wp_receiveNext fuel (b := .mk2) [] hhead fail fun i t h1 ht => ?_
    refine wp_leave fuel (b := .mk2) hm hA ht fail fun u hu _ => ⟨?_, hu⟩
    rw [answersWord_mk2 h1]
    rfl

/-! ## Sessions -/

inductive RegCall
  | write (addr data : BitVec 16)
  | read (addr : BitVec 16)
deriving DecidableEq, Repr

namespace RegCall

def prog (b : Board) (fuel : Nat) : RegCall → P Int
  | write addr data => ficWrite b fuel addr data
  | read addr => ficRead b fuel addr

def words (b : Board) : RegCall → List (BitVec b.width)
  | write addr data => writeWords b addr data
  | read addr => readWords b addr

/-- What the call writes to `a`. -/
def stores (a : BitVec 16) : RegCall → Option (BitVec 16)
  | write addr data => if addr = a then some data else none
  | read _ => none

/-- The registers after the call. -/
def store (regs : BitVec 16 → BitVec b.regWidth) : RegCall → BitVec 16 → BitVec b.regWidth
  | write addr data => setReg regs addr (data.setWidth b.regWidth)
  | read _ => regs

/-- What the call answers. -/
def result (regs : BitVec 16 → BitVec b.regWidth) : RegCall → Int
  | write _ _ => 0
  | read addr => (regs addr).toNat

end RegCall

/-- The calls one after the other, up to the first error. -/
def session (b : Board) (fuel : Nat) : List RegCall → P (Option (List Int))
  | [] => ret (some [])
  | c :: cs => do
    let r ← c.prog b fuel
    if r < 0 then ret none else do
    let rs ← session b fuel cs
    ret (rs.map (r :: ·))

/-- The data of the last write to `a`. -/
def lastWrite (cs : List RegCall) (a : BitVec 16) : Option (BitVec 16) :=
  cs.reverse.findSome? (RegCall.stores a)

/-- The register at `a` after the calls `cs`: the data of the last write, as far as they fit. -/
def registerAfter (regs : BitVec 16 → BitVec b.regWidth) (cs : List RegCall)
    (a : BitVec 16) : BitVec b.regWidth :=
  match lastWrite cs a with
  | some data => data.setWidth b.regWidth
  | none => regs a

theorem registerAfter_cons (regs : BitVec 16 → BitVec b.regWidth) (c : RegCall)
    (cs : List RegCall) (a : BitVec 16) :
    registerAfter regs (c :: cs) a = registerAfter (c.store regs) cs a := by
  have hlast : lastWrite (c :: cs) a = (lastWrite cs a).or (c.stores a) := by
    simp [lastWrite, List.findSome?_append]
  unfold registerAfter
  rw [hlast]
  cases lastWrite cs a with
  | some data => rfl
  | none =>
    cases c with
    | read addr => rfl
    | write addr data =>
      by_cases h : addr = a
      · subst h
        simp [RegCall.stores, RegCall.store, setReg]
      · simp [RegCall.stores, RegCall.store, setReg, h, Ne.symm h]

def results (regs : BitVec 16 → BitVec b.regWidth) : List RegCall → List Int
  | [] => []
  | c :: cs => c.result regs :: results (c.store regs) cs

theorem results_length (regs : BitVec 16 → BitVec b.regWidth) (cs : List RegCall) :
    (results regs cs).length = cs.length := by
  induction cs generalizing regs with
  | nil => rfl
  | cons c cs ih => exact congrArg (· + 1) (ih _)

theorem results_get (regs : BitVec 16 → BitVec b.regWidth) (cs : List RegCall) (k : Nat) (c : RegCall)
    (h : cs[k]? = some c) : (results regs cs)[k]? = some (c.result (registerAfter regs (cs.take k))) := by
  induction cs generalizing regs k with
  | nil => simp at h
  | cons c' cs ih =>
    cases k with
    | zero =>
      obtain rfl : c' = c := by simpa using h
      rfl
    | succ k =>
      have hk := ih (c'.store regs) k (by simpa using h)
      rw [List.take_succ_cons, show registerAfter regs (c' :: cs.take k) =
        registerAfter (c'.store regs) (cs.take k) from
        funext fun a => registerAfter_cons regs c' _ a, ← hk]
      rfl

theorem wp_call (c : RegCall) {regs : BitVec 16 → BitVec b.regWidth} {l : List (BitVec b.width)}
    {s : World (RegPeer b)} (hs : Rests regs l s) :
    wp (sys (registerPeer b)) anyTime
      (fun r t => ¬ r < 0 → r = c.result regs ∧ Rests (c.store regs) (l ++ c.words b) t)
      (c.prog b fuel) s := by
  cases c with
  | write addr data => exact wp_ficWrite fuel addr data hs
  | read addr => exact wp_ficRead fuel addr hs

theorem wp_session (cs : List RegCall) {regs : BitVec 16 → BitVec b.regWidth} {l : List (BitVec b.width)}
    {s : World (RegPeer b)} (hs : Rests regs l s) :
    wp (sys (registerPeer b)) anyTime
      (fun r t => ∀ rs, r = some rs → rs = results regs cs ∧
        Rests (registerAfter regs cs) (l ++ cs.flatMap (RegCall.words b)) t)
      (session b fuel cs) s := by
  induction cs generalizing regs l s with
  | nil =>
    refine wp_retI (Rests.stable regs l) hs fun t ht rs hrs => ?_
    obtain rfl : [] = rs := Option.some.inj hrs
    refine ⟨rfl, ?_⟩
    rw [List.flatMap_nil, List.append_nil]
    exact ht
  | cons c cs ih =>
    refine wp_bind (wp_mono (wp_call fuel c hs) fun r t _ ht => ?_)
    split
    · exact wp_failed t fun _ _ h => nomatch h
    · next hr =>
      obtain ⟨rfl, hrest⟩ := ht hr
      refine wp_bind (wp_mono (ih hrest) fun r' u _ hu => ?_)
      cases r' with
      | none => exact wp_failed u fun _ _ h => nomatch h
      | some rs' =>
        obtain ⟨rfl, hend⟩ := hu rs' rfl
        refine wp_retI (Rests.stable _ _) hend fun v hv rs hrs => ?_
        obtain rfl := Option.some.inj hrs
        refine ⟨rfl, ?_⟩
        rw [show registerAfter regs (c :: cs) = registerAfter (c.store regs) cs from
          funext fun a => registerAfter_cons regs c cs a, List.flatMap_cons, ← List.append_assoc]
        exact hv

/-- The answers `rs` of a session and the peer before and after it. -/
structure Faithful (cs : List RegCall) (rs : List Int) (d d' : RegPeer b) : Prop where
  length : rs.length = cs.length
  reads : ∀ (k : Nat) (addr : BitVec 16), cs[k]? = some (RegCall.read addr) →
    rs[k]? = some ((registerAfter d.core.regs (cs.take k) addr).toNat : Int)
  writes : ∀ (k : Nat) (addr data : BitVec 16), cs[k]? = some (RegCall.write addr data) → rs[k]? = some 0
  regs : ∀ a, d'.core.regs a = registerAfter d.core.regs cs a
  accepted : d'.core.accepted = d.core.accepted ++ cs.flatMap (RegCall.words b)

/-- **The registers.**  The peer is idle and all pins are inputs, whatever the output latch holds. -/
theorem register_file (cs : List RegCall) {s t : World (RegPeer b)} {rs : List Int} (hin : s.gpio.AllInput)
    (hready : s.dev.phase = .ready) (hidle : s.dev.core.words = none)
    (hrun : (sys (registerPeer b)).Run (session b fuel cs, s) (ret (some rs), t)) :
    Faithful cs rs s.dev t.dev := by
  have hs : Rests s.dev.core.regs s.dev.core.accepted s := by
    refine ⟨⟨fun p hp => absurd hp (Nat.not_lt_zero p), fun p hp _ => hin.fn hp⟩,
      by simp [Core.start], hready, ?_⟩
    exact .inr ⟨hidle, rfl, rfl, rfl, rfl⟩
  obtain ⟨rfl, ht⟩ := wp_run_ret (wp_session fuel cs hs) hrun rs rfl
  have hleft := ht.2.2.leaves
  constructor
  · exact results_length _ _
  · intro k addr h
    rw [results_get _ _ _ _ h]
    rfl
  · intro k addr data h
    rw [results_get _ _ _ _ h]
    rfl
  · intro a
    exact congrFun hleft.2.1 a
  · exact hleft.2.2

/-! ## A session on mk1 -/

/-- What a peer that reacts at once does next. -/
def RegPeer.eager (g : Gpio) (d : RegPeer b) : RegPeer b :=
  match d.core.words, d.phase with
  | none, _ => if g.high b.rpRreq then ⟨d.phase, { d.core with words := some [], out := none }⟩ else d
  | some _, .taken => ⟨.acked, d.core⟩
  | some _, .acked => if g.high b.rpRstb then d else ⟨.ready, d.core⟩
  | some _, .ready =>
    if g.high b.rpRreq then
      if g.high b.rpRstb then ⟨.taken, d.core.respond (g.bus 0#32 b.rpDataLow b.width)⟩ else d
    else ⟨.ready, { d.core with words := none, out := none }⟩

theorem RegPeer.eager_step (g : Gpio) (d : RegPeer b) : d.eager g = d ∨ RegPeer.Step g d (d.eager g) := by
  unfold eager
  split
  · next hidle =>
    split
    · next hreq => exact .inr (.wake d hreq hidle)
    · exact .inl rfl
  · next hphase => exact .inr (.raise d hphase)
  · next hphase =>
    split
    · exact .inl rfl
    · next hstb => exact .inr (.lower d (by simpa using hstb) hphase)
  · next hbusy hphase =>
    split
    · next hreq =>
      split
      · next hstb => exact .inr (.respond d 0#32 hreq hstb hphase (by simp [hbusy]))
      · exact .inl rfl
    · next hreq => exact .inr (.sleep d (by simpa using hreq) (by simp [hbusy]))

/-- FACK, FREQ and the data pins as the peer has them, the other pins as in the latch. -/
def RegPeer.reading (g : Gpio) (d : RegPeer b) : BitVec 32 :=
  ofBits (fun p =>
    if p = b.rpFack then decide (d.phase = .acked)
    else if p = b.rpFreq then d.core.words.isSome
    else if dataPin b p && g.fn p == 0#3 then (d.core.out.getD 0).getLsbD (p - b.rpDataLow)
    else g.lat p) 32

theorem RegPeer.reading_level (g : Gpio) (d : RegPeer b) : (registerPeer b).level g d (d.reading g) := by
  have hb := board_pins (b := b)
  have ha := board_apart (b := b)
  have hread : ∀ p, p < 32 → (d.reading g).getLsbD p =
      if p = b.rpFack then decide (d.phase = .acked)
      else if p = b.rpFreq then d.core.words.isSome
      else if dataPin b p && g.fn p == 0#3 then (d.core.out.getD 0).getLsbD (p - b.rpDataLow)
      else g.lat p := by
    intro p hp
    unfold reading
    rw [getLsbD_ofBits, decide_eq_true hp, Bool.true_and]
  refine ⟨fun _ => ?_, fun _ => ?_, fun w hw _ _ p hp hf => ?_⟩
  · rw [hread _ (by omega), if_pos rfl]
  · rw [hread _ (by omega), if_neg ha.2.2.2.2.2.2, if_pos rfl]
  · have hlt := dataPin_iff.1 hp
    rw [hread p (by omega), if_neg (dataPin_ne hp ha.2.2.2.1), if_neg (dataPin_ne hp ha.2.2.1), hp, hf, hw]
    rfl

/-- The peer moves up to three steps before every operation. -/
def promptAnswer (o : Op) (s : World (RegPeer b)) : Ans o × World (RegPeer b) :=
  let d := ((s.dev.eager s.gpio).eager s.gpio).eager s.gpio
  match o with
  | .get => (d.reading s.gpio, { s with dev := d })
  | .time => (0, { s with dev := d })
  | .clock => (0, { s with dev := d })
  | .stat f => ((), { s with dev := d, stat := f s.stat })
  | .setInput p => ((), { s with dev := d, gpio := s.gpio.setInput p })
  | .setOutput p => ((), { s with dev := d, gpio := s.gpio.setOutput p })
  | .clearSel r => ((), { s with dev := d, gpio := s.gpio.clearSel r })
  | .set v => ((), { s with dev := d, gpio := s.gpio.set v })
  | .clr v => ((), { s with dev := d, gpio := s.gpio.clr v })

theorem promptAnswer_act (o : Op) (s : World (RegPeer b)) :
    ∃ t, (sys (registerPeer b)).Drift s t ∧
      (sys (registerPeer b)).act o t (promptAnswer o s).1 (promptAnswer o s).2 := by
  have move : ∀ d, (sys (registerPeer b)).Drift ⟨s.gpio, s.stat, d⟩ ⟨s.gpio, s.stat, d.eager s.gpio⟩ := by
    intro d
    rcases d.eager_step s.gpio with h | h
    · rw [h]
      exact .refl
    · exact .single ⟨_, h, rfl⟩
  refine ⟨_, ((move s.dev).trans (move _)).trans (move _), ?_⟩
  cases o with
  | get => exact ⟨RegPeer.reading_level _ _, rfl⟩
  | _ => rfl

/-- An idle peer with all registers 0, all pins inputs, and all latch bits set. -/
def staleLatch : World (RegPeer .mk1) where
  gpio := ⟨fun _ => 0#32, BitVec.allOnes 32⟩
  stat := World.start.stat
  dev := ⟨.ready, ⟨none, fun _ => 0, none, []⟩⟩

def threeCalls : List RegCall :=
  [.write 0x1234#16 0xabcd#16, .read 0x1234#16, .read 7#16]

theorem register_file_threeCalls :
    ∃ t, (sys (registerPeer .mk1)).Run (session .mk1 1 threeCalls, staleLatch)
      (ret (some [0, 0xcd, 0]), t) ∧ Faithful threeCalls [0, 0xcd, 0] staleLatch.dev t.dev := by
  have hrun := follow_ret promptAnswer_act 3000 (p := session .mk1 1 threeCalls) (s := staleLatch)
    (a := some [0, 0xcd, 0]) (by decide +kernel)
  exact ⟨_, hrun, register_file 1 _ (fun _ _ => rfl) rfl rfl hrun⟩

end Libfic2
