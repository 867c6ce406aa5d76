import Libfic2.Comm

/-!
# The HLS transfers: `fic_hls_*` of `ficlib2.c`

A transfer opens a transaction at COMM_ADDR_HLS (`_fic_hls_comm_initiate`), moves
bytes with the fast word functions (`_fic_hls_send_bytes`,
`_fic_hls_receive_bytes`) and closes it (`_fic_hls_comm_terminate`).  mk1 moves a
byte as two four-bit words, high half first; mk2 moves two bytes as one word.

A buffer is a function from indices to bytes, so that an index past `size` is
an index of the memory behind the buffer.
-/

namespace Libfic2

open Driver Prog

/-- The bytes from a pointer on. -/
abbrev Mem := Nat → BitVec 8

def commAddrHls : BitVec 16 := 0x1000#16

/-! ## enum RASDDR_CMD -/

def rasddrCmdWrite : BitVec 32 := 0x0001#32
def rasddrCmdRead : BitVec 32 := 0x0002#32
def rasddrCmdAxiWrite : BitVec 32 := 0x0010#32
def rasddrCmdAxiRead : BitVec 32 := 0x0020#32
def rasddrCmdDebug : BitVec 32 := 0x00ff#32

variable (b : Board) (fuel : Nat)

/-! ## Opening and closing a transaction -/

def ficHlsCommInitiate (cmd : RasioCmd) : P Int :=
  check (ficCommSetup b fuel) <| do
  ficCommPortdir b .snd
  check (ficSetGpio fuel (rpPin b.rpRreq)) <|
    check (ficCommSend b fuel (cmd.code <<< b.rpDataLow)) <|
    check (ficCommSetaddr b fuel commAddrHls) <| do
    when (cmd == .read) (ficCommPortdir b .rcv)
    ret 0

def ficHlsCommTerminate : P Int :=
  check (ficClrGpio fuel (rpPin b.rpRreq ||| rpPin b.rpRstb)) <|
  check (ficCommWaitFreqDown b fuel) <| do
  setAllInput
  ret 0

/-! ## Sending bytes -/

/-- High and low half of a byte, and a pair of bytes, as driven on the data bus. -/
def hiWord (x : BitVec 8) : BitVec 32 := ((x.setWidth 32 &&& 0xf0#32) >>> 4) <<< Board.mk1.rpDataLow
def loWord (x : BitVec 8) : BitVec 32 := (x.setWidth 32 &&& 0x0f#32) <<< Board.mk1.rpDataLow
def pairWord (x y : BitVec 8) : BitVec 32 :=
  (x.setWidth 32 ||| (y.setWidth 32 <<< 8)) <<< Board.mk2.rpDataLow

/-- mk1: `for (; i < i + n; i++)` of `_fic_hls_send_bytes`, with the `ret` so far. -/
def sendLoopMk1 (data : Mem) : (n i : Nat) → (r : Int) → P Int
  | 0, _, r => ret r
  | n + 1, i, r => do
    let r1 ← ficCommSendFast .mk1 fuel (hiWord (data i))
    let r2 ← ficCommSendFast .mk1 fuel (loWord (data i))
    sendLoopMk1 data n (i + 1) (intOr (intOr r r1) r2)

/-- mk2: the same with `i+=2`. -/
def sendLoopMk2 (data : Mem) : (n i : Nat) → (r : Int) → P Int
  | 0, _, r => ret r
  | n + 1, i, r => do
    let r1 ← ficCommSendFast .mk2 fuel (pairWord (data i) (data (i + 1)))
    sendLoopMk2 data n (i + 2) (intOr r r1)

def ficHlsSendBytes (data : Mem) (size : Nat) : P Int :=
  match b with
  | .mk1 => sendLoopMk1 fuel data size 0 0 >>= fun r => if r < 0 then ret (-1) else ret 0
  | .mk2 =>
    if size < 2 then ret (-1)
    else if size % 2 ≠ 0 then ret (-1)
    else sendLoopMk2 fuel data ((size + 1) / 2) 0 0 >>= fun r => if r < 0 then ret (-1) else ret 0

def ficHlsSend (data : Mem) (size : Nat) : P Int :=
  check (ficHlsCommInitiate b fuel .write) <|
  check (ficHlsSendBytes b fuel data size) <|
  check (ficHlsCommTerminate b fuel) <|
  ret 0

/-! ## Receiving bytes -/

/-- `*(data+i) = v`. -/
def Mem.store (m : Mem) (i : Nat) (v : BitVec 8) : Mem := Function.update m i v

/-- mk1: the loop of `_fic_hls_receive_bytes`; returns `ret` and the buffer.  `rvh` and `rvl` are
uninitialised before the calls; the value does not matter, since a failed call leaves the loop. -/
def receiveLoopMk1 : (n i : Nat) → (buf : Mem) → P (Int × Mem)
  | 0, _, buf => ret (0, buf)
  | n + 1, i, buf => do
    let (r1, rvh) ← ficCommReceiveFast .mk1 fuel 0#32
    if r1 < 0 then ret (r1, buf) else do
    let (r2, rvl) ← ficCommReceiveFast .mk1 fuel 0#32
    if r2 < 0 then ret (r2, buf) else
    receiveLoopMk1 n (i + 1) (buf.store i ((((rvh <<< 4) ||| rvl) &&& 0xff#32).setWidth 8))

def receiveLoopMk2 : (n i : Nat) → (buf : Mem) → P (Int × Mem)
  | 0, _, buf => ret (0, buf)
  | n + 1, i, buf => do
    let (r1, rv) ← ficCommReceiveFast .mk2 fuel 0#32
    if r1 < 0 then ret (r1, buf) else
    receiveLoopMk2 n (i + 2)
      ((buf.store i ((rv &&& 0x00ff#32).setWidth 8)).store (i + 1) (((rv &&& 0xff00#32) >>> 8).setWidth 8))

def ficHlsReceiveBytes (buf : Mem) (size : Nat) : P (Int × Mem) :=
  match b with
  | .mk1 => receiveLoopMk1 fuel size 0 buf >>= fun r => if r.1 < 0 then ret (-1, r.2) else ret (0, r.2)
  | .mk2 =>
    if size < 2 then ret (-1, buf)
    else if size % 2 ≠ 0 then ret (-1, buf)
    else receiveLoopMk2 fuel ((size + 1) / 2) 0 buf >>= fun r =>
      if r.1 < 0 then ret (-1, r.2) else ret (0, r.2)

def ficHlsReceive (buf : Mem) (size : Nat) : P (Int × Mem) :=
  checkOr (-1, buf) (ficHlsCommInitiate b fuel .read) <| do
  let r ← ficHlsReceiveBytes b fuel buf size
  if r.1 < 0 then ret (-1, r.2) else
  checkOr (-1, r.2) (ficHlsCommTerminate b fuel) <|
  ret (0, r.2)

/-! ## DDR and AXI access -/

/-- `uint32_t cmd[3] = {ctrl, addr, size}` as bytes, on a little-endian host. -/
def cmdWord (ctrl addr : BitVec 32) (size : Nat) : Nat → BitVec 32
  | 0 => ctrl
  | 1 => addr
  | _ => BitVec.ofNat 32 size

def cmdBytes (ctrl addr : BitVec 32) (size : Nat) : Mem := fun i =>
  (cmdWord ctrl addr size (i / 4) >>> (8 * (i % 4))).setWidth 8

def ficHlsWrite (data : Mem) (size : Nat) (addr ctrl : BitVec 32) : P Int :=
  check (ficHlsCommInitiate b fuel .write) <|
  check (ficHlsSendBytes b fuel (cmdBytes ctrl addr size) 12) <|
  check (ficHlsSendBytes b fuel data size) <|
  check (ficHlsCommTerminate b fuel) <|
  ret 0

def ficHlsDdrWrite (data : Mem) (size : Nat) (addr : BitVec 32) : P Int :=
  ficHlsWrite b fuel data size addr rasddrCmdWrite

def ficHlsRead (buf : Mem) (size : Nat) (addr ctrl : BitVec 32) : P (Int × Mem) :=
  checkOr (-1, buf) (ficHlsSend b fuel (cmdBytes ctrl addr size) 12) <|
  checkOr (-1, buf) (ficHlsCommInitiate b fuel .read) <| do
  let r ← ficHlsReceiveBytes b fuel buf size
  if r.1 < 0 then ret (-1, r.2) else
  checkOr (-1, r.2) (ficHlsCommTerminate b fuel) <|
  ret (0, r.2)

def ficHlsDdrRead (buf : Mem) (size : Nat) (addr : BitVec 32) : P (Int × Mem) :=
  ficHlsRead b fuel buf size addr rasddrCmdRead

def ficHlsDdrDebug (buf : Mem) (size : Nat) (addr : BitVec 32) : P (Int × Mem) := do
  let _ ← ficHlsSend b fuel (cmdBytes rasddrCmdDebug addr size) 12
  let r ← ficHlsReceive b fuel buf 12
  if r.1 < 0 then ret (-1, r.2) else ret (0, r.2)

/-! ## HLS module commands -/

/-- `fic_hls_start` and `fic_hls_reset` differ in the command only. -/
def hlsCommand (cmd : RasioCmd) : P Int :=
  check (ficCommSetup b fuel) <| do
  ficCommPortdir b .snd
  check (ficSetGpio fuel (rpPin b.rpRreq)) <|
    check (ficCommSend b fuel (cmd.code <<< b.rpDataLow)) <|
    check (ficClrGpio fuel (rpPin b.rpRreq)) <|
    check (ficCommWaitFreqDown b fuel) <| do
    setAllInput
    ret 0

def ficHlsStart : P Int := hlsCommand b fuel .hlsStart
def ficHlsReset : P Int := hlsCommand b fuel .hlsReset

end Libfic2
