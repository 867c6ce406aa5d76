import Libfic2.Latched
import Libfic2.Ficfuse

/-!
# The DDR module behind the bus

`rasDdr b` serves the transactions of `fic_hls_write` and `fic_hls_read`.  A write stores the bytes of
its payload as they arrive, as many as the header announces; a read command sets what the next READ
transaction places on the bus. The module accesses words of 4 bytes, so a range starts at its address
rounded down.

* `storeRun`: the first words of a write store the first bytes of its payload
* `readCommand`, `readRun`: a read command moves no byte, nor does a READ transaction
-/

namespace Libfic2

open Driver Ficfuse

variable {b : Board}

/-! ## The module -/

/-- The words of the transaction, the DDR, the range to be read, and the word on the data pins. -/
structure RasDdr (b : Board) where
  words : List (BitVec b.width)
  ddr : Nat → BitVec 8
  source : Nat
  size : Nat
  out : Option (BitVec b.width)

namespace RasDdr

/-- In a READ transaction after its address: the number of words placed so far. -/
def placed (ws : List (BitVec b.width)) : Option Nat :=
  match takeHead b ws with
  | some (c, a, ds) => if c = cmdBits b .read ∧ a = commAddrHls then some ds.length else none
  | none => none

/-- The words of the range to be read. -/
def offered (x : RasDdr b) : List (BitVec b.width) :=
  byteWords b (bytesOf (fun i => x.ddr (x.source + i)) 0 x.size)

/-- A message as far as it has arrived. -/
def serve (x : RasDdr b) (m : HlsMessage b) : RasDdr b :=
  if m.cmd = cmdBits b .write ∧ m.address = commAddrHls then
    if m.ctrl = rasddrCmdWrite then
      { x with ddr := patch x.ddr (ddrBase m.addr) (min m.payload.length m.size.toNat) fun i =>
        m.payload.getD i 0 }
    else if m.ctrl = rasddrCmdRead then { x with source := ddrBase m.addr, size := m.size.toNat }
    else x
  else x

/-- The word `w` is on the data pins. -/
def accept (x : RasDdr b) (w : BitVec b.width) : RasDdr b :=
  let y : RasDdr b := { x with words := x.words ++ [w], out := none }
  match decodeMessage b y.words with
  | some m => y.serve m
  | none => y

def strobe (x : RasDdr b) (w : BitVec b.width) : RasDdr b :=
  match placed x.words with
  | some k => { x with words := x.words ++ [x.offered.getD k 0], out := some (x.offered.getD k 0) }
  | none => x.accept w

def release (x : RasDdr b) : RasDdr b := { x with words := [], out := none }

end RasDdr

variable (b) in
/-- The module behind the bus. -/
def rasDdr : WordMachine b (RasDdr b) where
  strobe := RasDdr.strobe
  release := RasDdr.release
  out x := x.out
  release_release _ := rfl

/-! ## Messages that grow -/

theorem unNibbles_grows {ws : List (BitVec 4)} {bs : List (BitVec 8)} (h : unNibbles ws = some bs)
    (rest : List (BitVec 4)) : unNibbles (ws ++ rest) = (unNibbles rest).map (bs ++ ·) := by
  induction ws using unNibbles.induct generalizing bs with
  | case1 =>
    obtain rfl := Option.some.inj h
    simp
  | case2 w => cases h
  | case3 hi lo ws ih =>
    obtain ⟨bs', h', rfl⟩ := Option.map_eq_some_iff.1 h
    show (unNibbles (ws ++ rest)).map ((hi ++ lo) :: ·) = _
    rw [ih h', Option.map_map]
    rfl

/-- More words, more bytes. -/
theorem wordBytes_grows {ws : List (BitVec b.width)} {bs : List (BitVec 8)} (h : wordBytes b ws = some bs)
    (rest : List (BitVec b.width)) : wordBytes b (ws ++ rest) = (wordBytes b rest).map (bs ++ ·) := by
  cases b with
  | mk1 => exact unNibbles_grows h rest
  | mk2 =>
    obtain rfl : unPairs ws = bs := Option.some.inj h
    exact congrArg some List.flatMap_append

theorem takeHead_grows {ws ds : List (BitVec b.width)} {c : BitVec b.width} {a : BitVec 16}
    (h : takeHead b ws = some (c, a, ds))
    (rest : List (BitVec b.width)) : takeHead b (ws ++ rest) = some (c, a, ds ++ rest) := by
  rw [← words_takeHead h, List.cons_append, List.append_assoc]
  exact takeHead_words b c a _

theorem takeLe_grows {bs bs' : List (BitVec 8)} {x : BitVec 32} (h : takeLe bs = some (x, bs'))
    (rest : List (BitVec 8)) : takeLe (bs ++ rest) = some (x, bs' ++ rest) := by
  rw [← leBytes_takeLe h, List.append_assoc]
  exact takeLe_leBytes x _

/-- A message that can be read keeps its header when more words arrive. -/
theorem decodeMessage_grows {ws : List (BitVec b.width)} {m : HlsMessage b}
    (h : decodeMessage b ws = some m) (rest : List (BitVec b.width)) :
    decodeMessage b (ws ++ rest) = (wordBytes b rest).map fun bs =>
      { m with payload := m.payload ++ bs } := by
  unfold decodeMessage at h ⊢
  obtain ⟨⟨c, a, ds⟩, h1, h⟩ := Option.bind_eq_some_iff.1 h
  obtain ⟨bs, h2, h⟩ := Option.bind_eq_some_iff.1 h
  obtain ⟨⟨ctrl, bs1⟩, h3, h⟩ := Option.bind_eq_some_iff.1 h
  obtain ⟨⟨addr, bs2⟩, h4, h⟩ := Option.bind_eq_some_iff.1 h
  obtain ⟨⟨size, bs3⟩, h5, h⟩ := Option.bind_eq_some_iff.1 h
  obtain rfl := Option.some.inj h
  rw [takeHead_grows h1]
  dsimp only [Option.bind_eq_bind, Option.bind_some]
  rw [wordBytes_grows h2]
  cases wordBytes b rest with
  | none => rfl
  | some bs' =>
    dsimp only [Option.map_some, Option.bind_some]
    rw [takeLe_grows h3]
    dsimp only [Option.bind_some]
    rw [takeLe_grows h4]
    dsimp only [Option.bind_some]
    rw [takeLe_grows h5]
    rfl

/-- What the first words of a message are read as. -/
theorem decodeMessage_first {ws : List (BitVec b.width)} {m M : HlsMessage b}
    (hM : Carries b M.payload.length)
    (hpre : ws <+: M.encodeMessage) (h : decodeMessage b ws = some m) :
    ∃ bs, M = { m with payload := m.payload ++ bs } := by
  obtain ⟨rest, hrest⟩ := hpre
  have hgrow := decodeMessage_grows h rest
  rw [hrest, decode_encode M hM] at hgrow
  obtain ⟨bs, -, heq⟩ := Option.map_eq_some_iff.1 hgrow.symm
  exact ⟨bs, heq.symm⟩

/-! ## Ranges -/

/-- A longer range that begins with a shorter one. -/
theorem patch_longer (d : Nat → BitVec 8) (lo n n' : Nat) (f : Nat → BitVec 8) :
    patch (patch d lo n f) lo n' f = patch d lo (max n n') f := by
  funext a
  unfold patch
  split
  · rw [if_pos (by omega)]
  · split
    · rw [if_pos (by omega)]
    · rw [if_neg (by omega)]

theorem patch_congr {d : Nat → BitVec 8} {lo n : Nat} {f f' : Nat → BitVec 8}
    (h : ∀ i < n, f i = f' i) : patch d lo n f = patch d lo n f' := by
  funext a
  unfold patch
  split
  · exact h _ (by omega)
  · rfl

theorem patch_none (d : Nat → BitVec 8) (lo : Nat) (f : Nat → BitVec 8) : patch d lo 0 f = d := by
  funext a
  exact if_neg (by omega)

/-! ## Words taken -/

namespace RasDdr

theorem write_ne_read : cmdBits b .write ≠ cmdBits b .read := by
  cases b <;> decide

theorem placed_of_cmd {c : BitVec b.width} {ws : List (BitVec b.width)} (hc : c ≠ cmdBits b .read) :
    placed (c :: ws) = none := by
  unfold placed
  split
  · next c' a ds h =>
    obtain ⟨rfl, -⟩ := List.cons.inj (words_takeHead h)
    exact if_neg fun h => hc h.1
  · rfl

/-- Until a message begins otherwise than a READ transaction its words are accepted. -/
theorem strobe_accept {x : RasDdr b} {w : BitVec b.width} (h : placed x.words = none) :
    x.strobe w = x.accept w := by
  unfold strobe
  rw [h]

theorem serve_words (x : RasDdr b) (m : HlsMessage b) : (x.serve m).words = x.words := by
  unfold serve
  split
  · split
    · rfl
    · split <;> rfl
  · rfl

theorem accept_words (x : RasDdr b) (w : BitVec b.width) : (x.accept w).words = x.words ++ [w] := by
  unfold accept
  dsimp only
  split
  · exact serve_words _ _
  · rfl

/-- A message whose header is not that of a DDR write. -/
theorem serve_ddr {x : RasDdr b} {m : HlsMessage b}
    (h : ¬ (m.cmd = cmdBits b .write ∧ m.ctrl = rasddrCmdWrite)) : (x.serve m).ddr = x.ddr := by
  unfold serve
  split
  · next hcmd =>
    rw [if_neg fun hctrl => h ⟨hcmd.1, hctrl⟩]
    split <;> rfl
  · rfl

section
variable {x : RasDdr b} {M : HlsMessage b} {ws : List (BitVec b.width)}

theorem placed_first (hcmd : M.cmd ≠ cmdBits b .read) (hpre : ws <+: M.encodeMessage) :
    placed ws = none := by
  cases ws with
  | nil => cases b <;> rfl
  | cons c ws =>
    obtain ⟨rest, hrest⟩ := hpre
    obtain ⟨rfl, -⟩ := List.cons.inj hrest
    exact placed_of_cmd hcmd

/-- The next word of a message that is not a READ transaction. -/
theorem after_next (ws : List (BitVec b.width)) (hx : x.words = [])
    (hcmd : M.cmd ≠ cmdBits b .read) {w : BitVec b.width} (hpre : ws ++ [w] <+: M.encodeMessage) :
    (rasDdr b).after x (ws ++ [w]) = ((rasDdr b).after x ws).accept w ∧
    ((rasDdr b).after x ws).words = ws := by
  have key : ∀ ws : List (BitVec b.width), ws <+: M.encodeMessage → ((rasDdr b).after x ws).words = ws := by
    intro ws
    induction ws using List.reverseRecOn with
    | nil => exact fun _ => hx
    | append_singleton ws w ih =>
      intro hpre
      have hfirst := (List.prefix_append ws [w]).trans hpre
      rw [WordMachine.after_append]
      show (strobe ((rasDdr b).after x ws) w).words = ws ++ [w]
      rw [strobe_accept (by rw [ih hfirst]; exact placed_first hcmd hfirst), accept_words, ih hfirst]
  have hfirst := (List.prefix_append ws [w]).trans hpre
  refine ⟨?_, key ws hfirst⟩
  rw [WordMachine.after_append]
  exact strobe_accept (by rw [key ws hfirst]; exact placed_first hcmd hfirst)

/-- What a message does when its last word arrives. -/
theorem after_whole (hx : x.words = []) (hcmd : M.cmd ≠ cmdBits b .read) (hM : Carries b M.payload.length) :
    ∃ y : RasDdr b, y.ddr = ((rasDdr b).after x M.encodeMessage.dropLast).ddr ∧
      (rasDdr b).after x M.encodeMessage = y.serve M := by
  have hlast : M.encodeMessage.dropLast ++ [M.encodeMessage.getLast (List.cons_ne_nil _ _)] =
      M.encodeMessage :=
    List.dropLast_append_getLast _
  obtain ⟨hnext, hwords⟩ := after_next M.encodeMessage.dropLast hx hcmd (by rw [hlast])
  rw [hlast] at hnext
  refine ⟨{ (rasDdr b).after x M.encodeMessage.dropLast with words := M.encodeMessage, out := none },
    rfl, ?_⟩
  rw [hnext]
  unfold accept
  dsimp only
  rw [hwords, hlast, decode_encode M hM]

/-- **A write that breaks off** has stored the first bytes of its payload, a whole one all that the
header announces. -/
theorem storeRun (hx : x.words = []) (hcmd : M.cmd = cmdBits b .write) (haddr : M.address = commAddrHls)
    (hctrl : M.ctrl = rasddrCmdWrite) (hM : Carries b M.payload.length) (hpre : ws <+: M.encodeMessage) :
    ∃ k ≤ min M.payload.length M.size.toNat,
      (ws = M.encodeMessage → k = min M.payload.length M.size.toNat) ∧
      ((rasDdr b).after x ws).ddr = patch x.ddr (ddrBase M.addr) k fun i => M.payload.getD i 0 := by
  have hne : M.cmd ≠ cmdBits b .read := hcmd ▸ write_ne_read
  induction ws using List.reverseRecOn with
  | nil =>
    refine ⟨0, Nat.zero_le _, fun h => absurd h (List.cons_ne_nil _ _).symm, ?_⟩
    rw [patch_none]
    rfl
  | append_singleton ws w ih =>
    obtain ⟨k, hk, -, hddr⟩ := ih ((List.prefix_append ws [w]).trans hpre)
    obtain ⟨hnext, hwords⟩ := after_next ws hx hne hpre
    rw [hnext]
    unfold accept
    dsimp only
    rw [hwords]
    cases hdec : decodeMessage b (ws ++ [w]) with
    | none =>
      refine ⟨k, hk, fun h => ?_, hddr⟩
      rw [h, decode_encode M hM] at hdec
      cases hdec
    | some m =>
      obtain ⟨bs, rfl⟩ := decodeMessage_first hM hpre hdec
      dsimp only at hcmd haddr hctrl hk hddr ⊢
      have hfirst : ∀ i < min m.payload.length m.size.toNat,
          m.payload.getD i 0 = (m.payload ++ bs).getD i 0 := by
        intro i hi
        rw [List.getD_eq_getElem?_getD, List.getD_eq_getElem?_getD, List.getElem?_append_left (by omega)]
      unfold serve
      rw [if_pos ⟨hcmd, haddr⟩, if_pos hctrl]
      dsimp only
      rw [hddr, patch_congr hfirst, patch_longer]
      rw [List.length_append] at hk ⊢
      refine ⟨_, by omega, fun h => ?_, rfl⟩
      -- the whole message
      rw [h, decode_encode _ hM] at hdec
      have hbs : m.payload ++ bs = m.payload := congrArg HlsMessage.payload (Option.some.inj hdec)
      rw [List.append_right_eq_self] at hbs
      subst hbs
      simp only [List.length_nil] at hk ⊢
      omega

/-- A message that is no DDR write leaves the DDR. -/
theorem keepRun (hx : x.words = []) (hcmd : M.cmd ≠ cmdBits b .read) (hM : Carries b M.payload.length)
    (hno : ¬ (M.cmd = cmdBits b .write ∧ M.ctrl = rasddrCmdWrite)) (hpre : ws <+: M.encodeMessage) :
    ((rasDdr b).after x ws).ddr = x.ddr := by
  induction ws using List.reverseRecOn with
  | nil => rfl
  | append_singleton ws w ih =>
    obtain ⟨hnext, hwords⟩ := after_next ws hx hcmd hpre
    rw [hnext]
    unfold accept
    dsimp only
    rw [hwords]
    have hddr := ih ((List.prefix_append ws [w]).trans hpre)
    cases hdec : decodeMessage b (ws ++ [w]) with
    | none => exact hddr
    | some m =>
      obtain ⟨bs, rfl⟩ := decodeMessage_first hM hpre hdec
      exact (serve_ddr (m := m) hno).trans hddr

/-- A read command sets the range to be read. -/
theorem readCommand (hx : x.words = []) (hcmd : M.cmd = cmdBits b .write) (haddr : M.address = commAddrHls)
    (hctrl : M.ctrl = rasddrCmdRead) (hM : Carries b M.payload.length) :
    ((rasDdr b).after x M.encodeMessage).source = ddrBase M.addr ∧
    ((rasDdr b).after x M.encodeMessage).size = M.size.toNat := by
  have hne : M.cmd ≠ cmdBits b .read := hcmd ▸ write_ne_read
  obtain ⟨y, -, hwhole⟩ := after_whole hx hne hM
  rw [hwhole]
  unfold serve
  rw [if_pos ⟨hcmd, haddr⟩, hctrl, if_neg (by decide), if_pos rfl]
  exact ⟨rfl, rfl⟩

/-! ## READ transactions -/

/-- No data words yet. -/
theorem head_short {c : BitVec b.width} {a : BitVec 16} {ds : List (BitVec b.width)}
    (h : takeHead b ws = some (c, a, ds))
    (hlen : ws.length ≤ (headWords b .read).length) : ds = [] ∧ ws.length = (headWords b .read).length := by
  rw [← words_takeHead h] at hlen ⊢
  have haddr : ∀ a a' : BitVec 16, (addrWords b a).length = (addrWords b a').length := by
    intro a a'
    cases b <;> rfl
  unfold headWords at hlen ⊢
  rw [List.length_cons, List.length_cons, List.length_append, haddr a commAddrHls] at hlen ⊢
  have hds : ds.length = 0 := by omega
  exact ⟨List.length_eq_zero_iff.1 hds, by omega⟩

/-- A command and an address, or less, and nothing has happened. -/
theorem after_short (ws : List (BitVec b.width)) (hx : x.words = [])
    (hlen : ws.length ≤ (headWords b .read).length) :
    ∃ o, (rasDdr b).after x ws = { x with words := ws, out := o } := by
  induction ws using List.reverseRecOn with
  | nil =>
    refine ⟨x.out, ?_⟩
    show x = { x with words := [], out := x.out }
    rw [← hx]
  | append_singleton ws w ih =>
    rw [List.length_append, List.length_singleton] at hlen
    obtain ⟨o, ho⟩ := ih (by omega)
    have hplaced : placed ws = none := by
      unfold placed
      split
      · next c a ds h =>
        have := (head_short h (by omega)).2
        omega
      · rfl
    have hdec : decodeMessage b (ws ++ [w]) = none := by
      unfold decodeMessage
      cases hhead : takeHead b (ws ++ [w]) with
      | none => rfl
      | some r =>
        obtain ⟨c, a, ds⟩ := r
        obtain ⟨rfl, -⟩ := head_short hhead (by rw [List.length_append, List.length_singleton]; omega)
        cases b <;> rfl
    refine ⟨none, ?_⟩
    rw [WordMachine.after_append, ho]
    show strobe _ w = _
    rw [strobe_accept hplaced]
    unfold accept
    dsimp only
    rw [hdec]

/-- The words `l` of the range have been placed. -/
structure Serving (y : RasDdr b) (l : List (BitVec b.width)) (x : RasDdr b) : Prop where
  head : takeHead b x.words = some (cmdBits b .read, commAddrHls, l)
  ddr : x.ddr = y.ddr
  source : x.source = y.source
  size : x.size = y.size
  words : l = wordsFrom (fun k => y.offered.getD k 0) 0 l.length

/-- A strobe places the next word. -/
theorem Serving.next {y x : RasDdr b} {l : List (BitVec b.width)} (h : Serving y l x) (w : BitVec b.width) :
    ∃ u, (x.strobe w).out = some u ∧ Serving y (l ++ [u]) (x.strobe w) := by
  have hplaced : placed x.words = some l.length := by
    unfold placed
    rw [h.head]
    exact if_pos ⟨rfl, rfl⟩
  have hoffered : x.offered = y.offered := by
    unfold offered
    rw [h.ddr, h.source, h.size]
  unfold strobe
  rw [hplaced, hoffered]
  refine ⟨_, rfl, takeHead_grows h.head _, h.ddr, h.source, h.size, ?_⟩
  rw [List.length_append, List.length_singleton, wordsFrom_succ, Nat.zero_add, ← h.words]

/-- In a READ transaction no word is stored, whatever is strobed. -/
theorem readRun {y x : RasDdr b} {l : List (BitVec b.width)} (h : Serving y l x)
    (ws : List (BitVec b.width)) : ((rasDdr b).after x ws).ddr = y.ddr := by
  induction ws generalizing x l with
  | nil => exact h.ddr
  | cons w ws ih =>
    obtain ⟨u, -, hnext⟩ := h.next w
    exact ih hnext

/-- All words of a list. -/
theorem wordsFrom_getD (us : List (BitVec b.width)) :
    wordsFrom (fun k => us.getD k 0) 0 us.length = us := by
  unfold wordsFrom
  refine List.ext_getElem (by simp) fun i hi hi' => ?_
  rw [List.getElem_map, List.getElem_range', Nat.zero_add, Nat.one_mul, List.getD_eq_getElem?_getD,
    List.getElem?_eq_getElem hi']
  rfl

end

end RasDdr

end Libfic2
