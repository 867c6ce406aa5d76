import Libfic2.CommBus

/-!
# The words of a transaction

A transaction is a command word, the words of a register address, and data words;
for an HLS transfer the data are a header of three little-endian 32-bit words and
the payload.  `encodeMessage` writes it down, `decodeMessage` reads it back.

* `decode_encode`, `encode_decode`: each undoes the other.
* `cmd_busWord` .. `pairWord_eq`: the values that the library drives on the bus are
  these words.
-/

namespace Libfic2

open Driver

/-! ## Format -/

/-- The command word. -/
def cmdBits (b : Board) (cmd : RasioCmd) : BitVec b.width := cmd.code.setWidth b.width

/-- The address: four nibbles, high first, or one word. -/
def addrWords : (b : Board) → BitVec 16 → List (BitVec b.width)
  | .mk1, a => [digit 4 a 3, digit 4 a 2, digit 4 a 1, digit 4 a 0]
  | .mk2, a => [a]

/-- A byte as two nibbles, high first. -/
def nibbles (x : BitVec 8) : List (BitVec 4) := [digit 4 x 1, digit 4 x 0]

/-- Two bytes as one word, the first byte low. -/
def pairs : List (BitVec 8) → List (BitVec 16)
  | x :: y :: bs => (y ++ x) :: pairs bs
  | _ => []

def byteWords : (b : Board) → List (BitVec 8) → List (BitVec b.width)
  | .mk1, bs => bs.flatMap nibbles
  | .mk2, bs => pairs bs

/-- Nibbles back to bytes. -/
def unNibbles : List (BitVec 4) → Option (List (BitVec 8))
  | [] => some []
  | [_] => none
  | h :: l :: ws => (unNibbles ws).map ((h ++ l) :: ·)

/-- Pairs back to bytes. -/
def unPairs (ws : List (BitVec 16)) : List (BitVec 8) :=
  ws.flatMap fun w => [digit 8 w 0, digit 8 w 1]

def wordBytes : (b : Board) → List (BitVec b.width) → Option (List (BitVec 8))
  | .mk1, ws => unNibbles ws
  | .mk2, ws => some (unPairs ws)

/-- The bytes of a 32-bit word in memory, low byte first. -/
def leBytes (x : BitVec 32) : List (BitVec 8) := [digit 8 x 0, digit 8 x 1, digit 8 x 2, digit 8 x 3]

/-- A 32-bit word from the front of a byte sequence. -/
def takeLe : List (BitVec 8) → Option (BitVec 32 × List (BitVec 8))
  | a :: b :: c :: d :: bs => some (ofDigits d c b a, bs)
  | _ => none

/-- An HLS transfer. -/
@[ext] structure HlsMessage (b : Board) where
  cmd : BitVec b.width
  address : BitVec 16
  ctrl : BitVec 32
  addr : BitVec 32
  size : BitVec 32
  payload : List (BitVec 8)

namespace HlsMessage

def encodeMessage {b : Board} (m : HlsMessage b) : List (BitVec b.width) :=
  m.cmd :: (addrWords b m.address ++
    byteWords b (leBytes m.ctrl ++ leBytes m.addr ++ leBytes m.size ++ m.payload))

end HlsMessage

/-- Command, address and the data words. -/
def takeHead : (b : Board) → List (BitVec b.width) →
    Option (BitVec b.width × BitVec 16 × List (BitVec b.width))
  | .mk1, c :: a3 :: a2 :: a1 :: a0 :: ws =>
    some (c, @ofDigits 4 a3 a2 a1 a0, ws)
  | .mk2, c :: a :: ws => some (c, a, ws)
  | _, _ => none

def decodeMessage (b : Board) (ws : List (BitVec b.width)) : Option (HlsMessage b) := do
  let (cmd, address, ws) ← takeHead b ws
  let bs ← wordBytes b ws
  let (ctrl, bs) ← takeLe bs
  let (addr, bs) ← takeLe bs
  let (size, bs) ← takeLe bs
  some ⟨cmd, address, ctrl, addr, size, bs⟩

/-- What the format can carry: on mk2 an even number of bytes. -/
def Carries (b : Board) (n : Nat) : Prop := b = .mk2 → n % 2 = 0

/-! ## Round trips -/

theorem unNibbles_flatMap (bs : List (BitVec 8)) : unNibbles (bs.flatMap nibbles) = some bs := by
  induction bs with
  | nil => rfl
  | cons x bs ih =>
    show (unNibbles (bs.flatMap nibbles)).map ((digit 4 x 1 ++ digit 4 x 0) :: ·) = _
    rw [ih]
    exact congrArg (fun z => some (z :: bs)) (extract_append (n := 4) (m := 4) x)

theorem flatMap_unNibbles (ws : List (BitVec 4)) (bs : List (BitVec 8)) (h : unNibbles ws = some bs) :
    bs.flatMap nibbles = ws := by
  induction ws using unNibbles.induct generalizing bs with
  | case1 => cases h; rfl
  | case2 w => cases h
  | case3 hi lo ws ih =>
    obtain ⟨bs', h', rfl⟩ := Option.map_eq_some_iff.1 h
    have e := append_extract hi lo
    show digit 4 (hi ++ lo) 1 :: digit 4 (hi ++ lo) 0 :: bs'.flatMap nibbles = _
    rw [ih bs' h', show digit 4 (hi ++ lo) 1 = hi from e.2, show digit 4 (hi ++ lo) 0 = lo from e.1]

theorem unPairs_pairs (bs : List (BitVec 8)) (h : bs.length % 2 = 0) : unPairs (pairs bs) = bs := by
  induction bs using pairs.induct with
  | case1 x y bs ih =>
    have e := append_extract y x
    show digit 8 (y ++ x) 0 :: digit 8 (y ++ x) 1 :: unPairs (pairs bs) = _
    rw [show digit 8 (y ++ x) 0 = x from e.1, show digit 8 (y ++ x) 1 = y from e.2,
      ih (by simp only [List.length_cons] at h; omega)]
  | case2 bs hb =>
    cases bs with
    | nil => rfl
    | cons x bs =>
      cases bs with
      | nil => simp at h
      | cons y bs => exact absurd rfl (hb x y bs)

theorem pairs_unPairs (ws : List (BitVec 16)) : pairs (unPairs ws) = ws := by
  induction ws with
  | nil => rfl
  | cons w ws ih =>
    show (digit 8 w 1 ++ digit 8 w 0) :: pairs (unPairs ws) = _
    rw [ih]
    exact congrArg (· :: ws) (extract_append (n := 8) (m := 8) w)

theorem wordBytes_byteWords {b : Board} {bs : List (BitVec 8)} (h : Carries b bs.length) :
    wordBytes b (byteWords b bs) = some bs := by
  cases b with
  | mk1 => exact unNibbles_flatMap bs
  | mk2 => exact congrArg some (unPairs_pairs bs (h rfl))

theorem byteWords_wordBytes {b : Board} {ws : List (BitVec b.width)} {bs : List (BitVec 8)}
    (h : wordBytes b ws = some bs) : byteWords b bs = ws := by
  cases b with
  | mk1 => exact flatMap_unNibbles ws bs h
  | mk2 =>
    obtain rfl : unPairs ws = bs := Option.some.inj h
    exact pairs_unPairs ws

theorem byteWords_append {b : Board} {xs ys : List (BitVec 8)} (h : Carries b xs.length) :
    byteWords b (xs ++ ys) = byteWords b xs ++ byteWords b ys := by
  cases b with
  | mk1 => exact List.flatMap_append
  | mk2 =>
    replace h := h rfl
    show pairs (xs ++ ys) = pairs xs ++ pairs ys
    induction xs using pairs.induct with
    | case1 x y bs ih =>
      show (y ++ x) :: pairs (bs ++ ys) = _
      rw [ih (by simp only [List.length_cons] at h; omega)]
      rfl
    | case2 bs hb =>
      cases bs with
      | nil => rfl
      | cons x bs =>
        cases bs with
        | nil => simp at h
        | cons y bs => exact absurd rfl (hb x y bs)

theorem wordBytes_append {b : Board} {ws ws' : List (BitVec b.width)} {bs bs' : List (BitVec 8)}
    (h : wordBytes b ws = some bs)
    (h' : wordBytes b ws' = some bs') (hl : Carries b bs.length) (hl' : Carries b bs'.length) :
    wordBytes b (ws ++ ws') = some (bs ++ bs') := by
  have hboth : Carries b (bs ++ bs').length := fun hb => by
    rw [List.length_append, Nat.add_mod, hl hb, hl' hb]
  rw [← byteWords_wordBytes h, ← byteWords_wordBytes h', ← byteWords_append hl]
  exact wordBytes_byteWords hboth

theorem takeLe_leBytes (x : BitVec 32) (bs : List (BitVec 8)) : takeLe (leBytes x ++ bs) = some (x, bs) :=
  congrArg (fun z => some (z, bs)) (ofDigits_digit (n := 8) x)

theorem leBytes_takeLe {bs bs' : List (BitVec 8)} {x : BitVec 32} (h : takeLe bs = some (x, bs')) :
    leBytes x ++ bs' = bs := by
  match bs, h with
  | a :: b :: c :: d :: bs, h =>
    obtain ⟨rfl, rfl⟩ := Prod.mk.inj (Option.some.inj h)
    obtain ⟨h0, h1, h2, h3⟩ := digit_ofDigits d c b a
    show digit 8 (ofDigits d c b a) 0 :: digit 8 (ofDigits d c b a) 1 :: digit 8 (ofDigits d c b a) 2 ::
      digit 8 (ofDigits d c b a) 3 :: bs = _
    rw [h0, h1, h2, h3]

theorem takeHead_words (b : Board) (c : BitVec b.width) (a : BitVec 16) (ws : List (BitVec b.width)) :
    takeHead b (c :: (addrWords b a ++ ws)) = some (c, a, ws) := by
  cases b with
  | mk1 => exact congrArg (fun z => some (c, z, ws)) (ofDigits_digit (n := 4) a)
  | mk2 => rfl

theorem words_takeHead {b : Board} {c : BitVec b.width} {a : BitVec 16} {ws ws' : List (BitVec b.width)}
    (h : takeHead b ws = some (c, a, ws')) : c :: (addrWords b a ++ ws') = ws := by
  cases b with
  | mk1 =>
    match ws, h with
    | c' :: a3 :: a2 :: a1 :: a0 :: ws, h =>
      obtain ⟨rfl, h'⟩ := Prod.mk.inj (Option.some.inj h)
      obtain ⟨rfl, rfl⟩ := Prod.mk.inj h'
      obtain ⟨h0, h1, h2, h3⟩ := @digit_ofDigits 4 a3 a2 a1 a0
      show c' :: digit 4 (@ofDigits 4 a3 a2 a1 a0) 3 :: digit 4 (@ofDigits 4 a3 a2 a1 a0) 2 ::
        digit 4 (@ofDigits 4 a3 a2 a1 a0) 1 :: digit 4 (@ofDigits 4 a3 a2 a1 a0) 0 :: ws = _
      rw [h0, h1, h2, h3]
  | mk2 =>
    match ws, h with
    | c' :: a' :: ws, h =>
      obtain ⟨rfl, h'⟩ := Prod.mk.inj (Option.some.inj h)
      obtain ⟨rfl, rfl⟩ := Prod.mk.inj h'
      rfl

/-- The bytes of an HLS transfer. -/
def HlsMessage.bytes {b : Board} (m : HlsMessage b) : List (BitVec 8) :=
  leBytes m.ctrl ++ (leBytes m.addr ++ (leBytes m.size ++ m.payload))

theorem decode_encode {b : Board} (m : HlsMessage b) (h : Carries b m.payload.length) :
    decodeMessage b m.encodeMessage = some m := by
  have hc : Carries b m.bytes.length := by
    intro hb
    have := h hb
    show (m.payload.length + 1 + 1 + 1 + 1 + 1 + 1 + 1 + 1 + 1 + 1 + 1 + 1) % 2 = 0
    omega
  have he : m.encodeMessage = m.cmd :: (addrWords b m.address ++ byteWords b m.bytes) := by
    unfold HlsMessage.encodeMessage HlsMessage.bytes
    rw [List.append_assoc, List.append_assoc]
  unfold decodeMessage
  rw [he, takeHead_words]
  dsimp only [Option.bind_eq_bind, Option.bind_some]
  rw [wordBytes_byteWords hc]
  dsimp only [Option.bind_some, HlsMessage.bytes]
  rw [takeLe_leBytes]
  dsimp only [Option.bind_some]
  rw [takeLe_leBytes]
  dsimp only [Option.bind_some]
  rw [takeLe_leBytes]
  rfl

theorem encode_decode {b : Board} {ws : List (BitVec b.width)} {m : HlsMessage b}
    (h : decodeMessage b ws = some m) : m.encodeMessage = ws := by
  unfold decodeMessage at h
  obtain ⟨⟨c, a, ws1⟩, h1, h⟩ := Option.bind_eq_some_iff.1 h
  obtain ⟨bs, h2, h⟩ := Option.bind_eq_some_iff.1 h
  obtain ⟨⟨ctrl, bs1⟩, h3, h⟩ := Option.bind_eq_some_iff.1 h
  obtain ⟨⟨addr, bs2⟩, h4, h⟩ := Option.bind_eq_some_iff.1 h
  obtain ⟨⟨size, bs3⟩, h5, h⟩ := Option.bind_eq_some_iff.1 h
  obtain rfl := Option.some.inj h
  rw [← words_takeHead h1, ← byteWords_wordBytes h2, ← leBytes_takeLe h3,
    ← leBytes_takeLe h4, ← leBytes_takeLe h5]
  unfold HlsMessage.encodeMessage
  rw [List.append_assoc, List.append_assoc]

/-! ## What the library drives -/

theorem cmd_busWord (b : Board) (cmd : RasioCmd) :
    cmd.code <<< b.rpDataLow = busWord b (cmdBits b cmd) := by
  cases b <;> cases cmd <;> rfl

/-- A hexadecimal digit on the bus of mk1. -/
theorem nibble_busWord {w : Nat} (x : BitVec w) (k : Nat) (hk : 4 * k + 4 ≤ 32) :
    ((x.setWidth 32 &&& (0xf#32 <<< (4 * k))) >>> (4 * k)) <<< Board.mk1.rpDataLow =
      busWord .mk1 (digit 4 x k) := by
  rw [nibble_eq x k hk]
  rfl

theorem lowNibble_busWord {w : Nat} (x : BitVec w) :
    (x.setWidth 32 &&& 0xf#32) <<< Board.mk1.rpDataLow = busWord .mk1 (digit 4 x 0) :=
  nibble_busWord x 0 (by decide)

/-- An address on the bus of mk2. -/
theorem addr_busWord (addr : BitVec 16) :
    (addr.setWidth 32 &&& 0xffff#32) <<< Board.mk2.rpDataLow = busWord .mk2 addr := by
  have h : addr.setWidth 32 &&& 0xffff#32 = addr.setWidth 32 := by
    apply BitVec.eq_of_toNat_eq
    rw [BitVec.toNat_and, show (0xffff#32).toNat = 2 ^ 16 - 1 from rfl,
      Nat.and_two_pow_sub_one_eq_mod, BitVec.toNat_setWidth]
    have := addr.isLt
    omega
  rw [h]
  rfl

theorem hiWord_eq (x : BitVec 8) : hiWord x = busWord .mk1 (digit 4 x 1) := nibble_busWord x 1 (by decide)
theorem loWord_eq (x : BitVec 8) : loWord x = busWord .mk1 (digit 4 x 0) := lowNibble_busWord x

theorem pairWord_eq (x y : BitVec 8) : pairWord x y = busWord .mk2 (y ++ x) := by
  have h : x.setWidth 32 ||| (y.setWidth 32 <<< 8) = (y ++ x).setWidth 32 := by
    apply BitVec.eq_of_getLsbD_eq
    intro i hi
    rw [BitVec.getLsbD_or, BitVec.getLsbD_setWidth, BitVec.getLsbD_shiftLeft, BitVec.getLsbD_setWidth,
      BitVec.getLsbD_setWidth, BitVec.getLsbD_append, decide_eq_true hi]
    split
    · next h8 => simp [h8]
    · next h8 =>
      rw [BitVec.getLsbD_of_ge x i (by omega)]
      simp [h8, show i - 8 < 32 by omega]
  unfold pairWord
  rw [h]
  rfl

/-- The bytes of a buffer. -/
def bytesOf (data : Mem) (lo n : Nat) : List (BitVec 8) := (List.range' lo n).map data

theorem bytesOf_length (data : Mem) (lo n : Nat) : (bytesOf data lo n).length = n := by
  unfold bytesOf
  rw [List.length_map, List.length_range']

/-- The header in memory. -/
theorem bytesOf_cmdBytes (ctrl addr : BitVec 32) (size : Nat) :
    bytesOf (cmdBytes ctrl addr size) 0 12 =
      leBytes ctrl ++ (leBytes addr ++ leBytes (BitVec.ofNat 32 size)) := by
  have h : ∀ (x : BitVec 32) (k : Nat), (x >>> (8 * k)).setWidth 8 = digit 8 x k := by
    intro x k
    apply BitVec.eq_of_getLsbD_eq
    intro i hi
    rw [BitVec.getLsbD_setWidth, BitVec.getLsbD_ushiftRight, decide_eq_true hi,
      Bool.true_and, getLsbD_digit _ _ _ hi]
  show [(ctrl >>> (8 * 0)).setWidth 8, (ctrl >>> (8 * 1)).setWidth 8, (ctrl >>> (8 * 2)).setWidth 8,
      (ctrl >>> (8 * 3)).setWidth 8, (addr >>> (8 * 0)).setWidth 8, (addr >>> (8 * 1)).setWidth 8,
      (addr >>> (8 * 2)).setWidth 8, (addr >>> (8 * 3)).setWidth 8,
      (BitVec.ofNat 32 size >>> (8 * 0)).setWidth 8, (BitVec.ofNat 32 size >>> (8 * 1)).setWidth 8,
      (BitVec.ofNat 32 size >>> (8 * 2)).setWidth 8, (BitVec.ofNat 32 size >>> (8 * 3)).setWidth 8] = _
  simp only [h]
  rfl

end Libfic2
