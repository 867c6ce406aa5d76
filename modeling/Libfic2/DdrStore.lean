import Libfic2.Driver.Sessions
import Libfic2.RasDdr
import Libfic2.HlsFailures

/-!
# The DDR behind the bus

What the library's calls do to the DDR of `rasDdr`, whether they succeed or not, and whatever FACK,
FREQ and the clock do.  The peer may be left in the middle of a transaction by an earlier call.

* `wp_hlsWrite`: a write that returns 0 has stored its buffer, one that fails the first bytes of it
* `wp_hlsRead`: a read moves no byte of the DDR, and has got the bytes of the range when it returns 0
* `ddr_store`: sessions of such calls, of which any may fail
-/

namespace Libfic2

open Driver Prog Sys Ficfuse RasDdr

variable {b : Board} (fuel : Nat)

/-- The library connected to the DDR module. -/
abbrev ddrSys (b : Board) : Sys Op Ans (World (RasDdr b)) := sys (latched (rasDdr b))

/-- Between two calls. -/
abbrev Calls (s : World (RasDdr b)) : Prop := Settled (rasDdr b) s.gpio s.dev

/-! ## Messages -/

/-- What `fic_hls_write` sends. -/
def writeMessage (b : Board) (data : Mem) (size : Nat) (addr ctrl : BitVec 32) : HlsMessage b :=
  headMessage b ctrl addr (BitVec.ofNat 32 size) (if refused b size then [] else bytesOf data 0 size)

section
variable {data : Mem} {size : Nat} {addr ctrl : BitVec 32}

theorem cmdBytes_ofNat (ctrl addr : BitVec 32) (size : Nat) :
    cmdBytes ctrl addr (BitVec.ofNat 32 size).toNat = cmdBytes ctrl addr size := by
  have hsize : BitVec.ofNat 32 (BitVec.ofNat 32 size).toNat = BitVec.ofNat 32 size := by
    rw [BitVec.ofNat_toNat, BitVec.setWidth_eq]
  funext i
  unfold cmdBytes cmdWord
  rw [hsize]

theorem writeMessage_carries : Carries b (writeMessage b data size addr ctrl).payload.length := by
  show Carries b (if refused b size then [] else bytesOf data 0 size).length
  split
  · exact fun _ => rfl
  · next h =>
    rw [bytesOf_length]
    exact (sizeOk_iff.2 h).carries

theorem encode_writeMessage : (writeMessage b data size addr ctrl).encodeMessage =
    headWords b .write ++ dataWords b (cmdBytes ctrl addr size) 12 ++ dataWords b data size := by
  unfold writeMessage
  rw [encode_headMessage, cmdBytes_ofNat]
  have h12 : refused b 12 = false := by cases b <;> rfl
  have hdata : byteWords b (if refused b size then [] else bytesOf data 0 size) =
      dataWords b data size := by
    unfold dataWords
    split
    · cases b <;> rfl
    · rfl
  rw [hdata]
  unfold dataWords headWords
  rw [h12]
  rfl

theorem bytesOf_getD (data : Mem) {n i : Nat} (hi : i < n) : (bytesOf data 0 n).getD i 0 = data i := by
  unfold bytesOf
  rw [List.getD_eq_getElem?_getD, List.getElem?_map, List.getElem?_range' hi, Nat.zero_add, Nat.one_mul]
  rfl

/-- A command alone. -/
theorem encode_command : (headMessage b ctrl addr (BitVec.ofNat 32 size) []).encodeMessage =
    headWords b .write ++ dataWords b (cmdBytes ctrl addr size) 12 := by
  have h12 : refused b 12 = false := by cases b <;> rfl
  rw [encode_headMessage, cmdBytes_ofNat, show byteWords b [] = [] by cases b <;> rfl, List.append_nil]
  unfold dataWords headWords
  rw [h12]
  rfl

/-- A command without payload stores nothing. -/
theorem command_kept {x : RasDdr b} {ws : List (BitVec b.width)} (hx : x.words = [])
    (hpre : ws <+: (headMessage b ctrl addr (BitVec.ofNat 32 size) []).encodeMessage) :
    ((rasDdr b).after x ws).ddr = x.ddr := by
  have hM : Carries b (headMessage b ctrl addr (BitVec.ofNat 32 size) []).payload.length := fun _ => rfl
  by_cases hctrl : ctrl = rasddrCmdWrite
  · obtain ⟨k, hk, -, hddr⟩ := storeRun hx rfl rfl hctrl hM hpre
    obtain rfl : k = 0 := Nat.le_zero.1 (hk.trans (Nat.min_le_left _ _))
    rw [hddr, patch_none]
  · exact keepRun hx write_ne_read hM (fun h => hctrl h.2) hpre

/-- Not more than the header announces, and no more than there is. -/
theorem stored_size :
    min (writeMessage b data size addr ctrl).payload.length (BitVec.ofNat 32 size).toNat ≤ size := by
  rw [BitVec.toNat_ofNat]
  have := Nat.mod_le size (2 ^ 32)
  omega

end

/-! ## Writes -/

/-- The DDR `d` has become `d'` in a `fic_hls_write` that returned `r`: of the range the first `k`
bytes are stored. -/
structure Written (data : Mem) (size : Nat) (addr ctrl : BitVec 32) (d : Nat → BitVec 8) (r : Int)
    (d' : Nat → BitVec 8) : Prop where
  answer : r = 0 ∨ r = -1
  stored : ctrl = rasddrCmdWrite → ∃ k ≤ size, (r = 0 → k = size) ∧ d' = patch d (ddrBase addr) k data
  kept : ctrl ≠ rasddrCmdWrite → d' = d

section
variable {s : World (RasDdr b)}

/-- The end of a transaction leaves the DDR. -/
theorem transferred_ddr {x y : RasDdr b} {ws : List (BitVec b.width)} {ok : Prop} {r : Int}
    (h : Transferred (rasDdr b) x ws ok r y) :
    ∃ sent, sent <+: ws ∧ (r = 0 → ok ∧ sent = ws) ∧ (r = 0 ∨ r = -1) ∧
      y.ddr = ((rasDdr b).after x.release sent).ddr ∧
      y.source = ((rasDdr b).after x.release sent).source ∧
      y.size = ((rasDdr b).after x.release sent).size := by
  obtain ⟨sent, hy, hr⟩ := h
  refine ⟨sent, ?_, ?_, hr.imp And.left And.left, ?_⟩
  · rcases hr with ⟨-, -, rfl⟩ | ⟨-, hpre⟩
    · exact List.prefix_rfl
    · exact hpre
  · rcases hr with ⟨-, hok, hsent⟩ | ⟨hr, -⟩
    · exact fun _ => ⟨hok, hsent⟩
    · intro h0
      rw [hr] at h0
      exact absurd h0 (by decide)
  · rcases hy with hy | hy <;> (rw [hy]; exact ⟨rfl, rfl, rfl⟩)

/-- `fic_hls_write` -/
theorem wp_hlsWrite (data : Mem) {size : Nat} (addr ctrl : BitVec 32)
    (hsize : size < 2 ^ 32) (hs : Calls s) :
    wp (ddrSys b) anyTime (fun r t => Written data size addr ctrl s.dev.ddr r t.dev.ddr)
      (ficHlsWrite b fuel data size addr ctrl) s := by
  refine wp_mono (wp_latchedWrite fuel data size addr ctrl hs) fun r t _ ht => ?_
  obtain ⟨sent, hpre, hwhole, hr, hddr, -⟩ := transferred_ddr ht
  rw [← encode_writeMessage] at hpre hwhole
  refine ⟨hr, fun hctrl => ?_, fun hctrl => ?_⟩
  · obtain ⟨k, hk, hall, hstored⟩ := storeRun (x := s.dev.release)
        (M := writeMessage b data size addr ctrl) rfl rfl rfl hctrl
      writeMessage_carries hpre
    refine ⟨k, hk.trans stored_size, fun h0 => ?_, ?_⟩
    · obtain ⟨hok, hsent⟩ := hwhole h0
      rw [hall hsent]
      show min (if refused b size then [] else bytesOf data 0 size).length
        (BitVec.ofNat 32 size).toNat = size
      rw [hok, if_neg Bool.false_ne_true, bytesOf_length, BitVec.toNat_ofNat,
        Nat.mod_eq_of_lt hsize, Nat.min_self]
    · rw [hddr, hstored]
      refine patch_congr fun i hi => ?_
      show (if refused b size then [] else bytesOf data 0 size).getD i 0 = data i
      have hlen : i < (if refused b size then [] else bytesOf data 0 size).length :=
        Nat.lt_of_lt_of_le hi (hk.trans (Nat.min_le_left _ _))
      split at hlen
      · exact absurd hlen (Nat.not_lt_zero i)
      · next hno =>
        rw [bytesOf_length] at hlen
        rw [if_neg hno, bytesOf_getD data hlen]
  · rw [hddr]
    exact keepRun (M := writeMessage b data size addr ctrl) rfl write_ne_read writeMessage_carries
      (fun h => hctrl h.2) hpre

/-! ## Reads -/

/-- What `fic_hls_read` has answered and left in the buffer `buf`. -/
structure Fetched (buf : Mem) (size : Nat) (addr ctrl : BitVec 32) (d : Nat → BitVec 8)
    (r : Int × Mem) : Prop where
  answer : r.1 = 0 ∨ r.1 = -1
  beyond : ∀ i, size ≤ i → r.2 i = buf i
  got : r.1 = 0 → ctrl = rasddrCmdRead → ∀ i < size, r.2 i = d (ddrBase addr + i)

/-- The words of the range are its bytes. -/
theorem reading_bytes {y x : RasDdr b} {ws : List (BitVec b.width)}
    {bs : List (BitVec 8)} (h : Serving y ws x)
    (hbs : wordBytes b ws = some bs) (hlen : bs.length = y.size) (hc : Carries b y.size) :
    bs = bytesOf (fun i => y.ddr (y.source + i)) 0 y.size := by
  have hsame : ws = y.offered := by
    have hl : ws.length = y.offered.length := by
      rw [← byteWords_wordBytes hbs]
      exact byteWords_length _ _ (by rw [hlen, bytesOf_length])
    rw [h.words, hl]
    exact wordsFrom_getD y.offered
  rw [hsame] at hbs
  have hcarries : Carries b (bytesOf (fun i => y.ddr (y.source + i)) 0 y.size).length := by
    rwa [bytesOf_length]
  exact Option.some.inj (hbs.symm.trans (wordBytes_byteWords hcarries))

/-- `_fic_hls_receive_bytes` in a READ transaction. -/
theorem wp_hlsReceiveBytes {y : RasDdr b} (buf : Mem) (hpins : Listening b false s.gpio)
    (h : Serving y [] s.dev) (n : Nat) : wp (ddrSys b) anyTime
      (fun r t => t.dev.ddr = y.ddr ∧
      (¬ r.1 < 0 → n = y.size → r.2 = buf.fill 0 (bytesOf (fun i => y.ddr (y.source + i)) 0 n)))
      (ficHlsReceiveBytes b fuel buf n) s := by
  have hkept : wp (ddrSys b) anyTime (fun _ t => t.dev.ddr = y.ddr) (ficHlsReceiveBytes b fuel buf n) s :=
    wp_inside (up_ficHlsReceiveBytes b fuel buf n) fun l r t _ _ hdev => by rw [hdev]; exact readRun h _
  let src := latchedSource (m := rasDdr b) (Serving y) fun _ _ w hx => hx.next w
  have hgot := src.wp_receiveBytes fuel buf n (l := []) ⟨hpins, h⟩
  refine wp_weaken (wp_and hkept (wp_mono hgot fun r t _ ht hr hn => ?_)) fun _ _ => trivial
  obtain ⟨hsize, ws, bs, hbs, hlen, hfill, -, hread⟩ := ht hr
  subst hn
  rw [hfill, reading_bytes hread hbs hlen hsize.carries]

/-- `fic_hls_receive` -/
theorem wp_hlsReceive (buf : Mem) (n : Nat) (hs : Calls s) :
    wp (ddrSys b) anyTime
      (fun r t => (r.1 = 0 ∨ r.1 = -1) ∧ t.dev.ddr = s.dev.ddr ∧
        (r.1 = 0 → n = s.dev.size → r.2 = buf.fill 0 (bytesOf (fun i => s.dev.ddr (s.dev.source + i)) 0 n)))
      (ficHlsReceive b fuel buf n) s := by
  have fail : ∀ (m : Mem) (t : World (RasDdr b)), t.dev.ddr = s.dev.ddr →
      wp (ddrSys b) anyTime (fun (r : Int × Mem) t =>
      (r.1 = 0 ∨ r.1 = -1) ∧ t.dev.ddr = s.dev.ddr ∧
        (r.1 = 0 → n = s.dev.size →
        r.2 = buf.fill 0 (bytesOf (fun i => s.dev.ddr (s.dev.source + i)) 0 n))) (ret (-1, m)) t :=
    fun m t ht => wp_retStill latched_still trivial
      ⟨.inr rfl, ht, fun h => absurd (show (-1 : Int) = 0 from h) (by decide)⟩
  refine wp_checkOr (wp_mono (wp_latchedInitiate fuel .read hs) fun r u _ hu => ?_)
  rcases hu with ⟨rfl, ws, hws, hdev⟩ | ⟨rfl, hpins, hdev⟩
  · refine ⟨fun _ => fail buf u ?_, fun hno => absurd (by decide) hno⟩
    obtain ⟨o, ho⟩ := after_short (x := s.dev.release) ws rfl hws.length_le
    rw [hdev]
    exact (congrArg RasDdr.ddr ho).trans rfl
  · refine ⟨fun hno => absurd hno (by decide), fun _ => ?_⟩
    obtain ⟨o, ho⟩ := after_short (x := s.dev.release) (headWords b .read) rfl (Nat.le_refl _)
    have hserving : Serving s.dev [] u.dev := by
      have hhead := takeHead_words b (cmdBits b .read) commAddrHls []
      rw [List.append_nil] at hhead
      rw [hdev.trans ho]
      exact ⟨hhead, rfl, rfl, rfl, rfl⟩
    refine wp_bind (wp_mono (wp_hlsReceiveBytes fuel buf hpins hserving n) fun r v _ hv => ?_)
    obtain ⟨hddr, hgot⟩ := hv
    split
    · exact fail r.2 v hddr
    · next hr0 =>
      refine wp_mono (wp_latchedClose fuel (-1, r.2) (0, r.2)) fun r' w _ hw => ?_
      obtain ⟨hans, hw⟩ := hw
      have hend : w.dev.ddr = s.dev.ddr := by
        rcases hw with hw | hw <;> (rw [hw]; exact hddr)
      rcases hans with rfl | rfl
      · exact ⟨.inr rfl, hend, fun h => absurd (show (-1 : Int) = 0 from h) (by decide)⟩
      · exact ⟨.inl rfl, hend, fun _ hn => hgot hr0 hn⟩

/-- `fic_hls_read` -/
theorem wp_hlsRead (buf : Mem) {size : Nat} (addr ctrl : BitVec 32) (hsize : size < 2 ^ 32) (hs : Calls s) :
    wp (ddrSys b) anyTime (fun r t => Fetched buf size addr ctrl s.dev.ddr r ∧ t.dev.ddr = s.dev.ddr)
      (ficHlsRead b fuel buf size addr ctrl) s := by
  have hbeyond : wp (ddrSys b) anyTime (fun r _ => ∀ i, size ≤ i → r.2 i = buf i)
      (ficHlsRead b fuel buf size addr ctrl) s := by
    refine wp_of_runs (fun _ _ _ => trivial) fun r t hr i hi => ?_
    obtain ⟨l, he, -⟩ := latched_run hr
    obtain ⟨bs, hbs⟩ := stored_read he
    exact storesUpTo_kept hbs he hi
  suffices hmain : wp (ddrSys b) anyTime
      (fun r t => ((r.1 = 0 ∨ r.1 = -1) ∧ (r.1 = 0 → ctrl = rasddrCmdRead →
      ∀ i < size, r.2 i = s.dev.ddr (ddrBase addr + i))) ∧ t.dev.ddr = s.dev.ddr)
      (ficHlsRead b fuel buf size addr ctrl) s from
    wp_weaken (wp_mono (wp_and hbeyond hmain) fun r t _ h => ⟨⟨h.2.1.1, h.1, h.2.1.2⟩, h.2.2⟩)
      fun _ _ => trivial
  refine wp_checkOr (wp_mono (wp_settled hs (wp_latchedSend fuel _ 12 hs)) fun r t _ ht => ?_)
  obtain ⟨sent, hpre, hwhole, hr, hddr, hsource, hcount⟩ := transferred_ddr ht.1
  rw [← encode_command] at hpre hwhole
  have hkept : t.dev.ddr = s.dev.ddr := hddr.trans (command_kept rfl hpre)
  refine ⟨fun _ => ?_, fun hpos => ?_⟩
  · exact wp_retStill latched_still trivial
      ⟨⟨.inr rfl, fun h => absurd (show (-1 : Int) = 0 from h) (by decide)⟩, hkept⟩
  have h0 : r = 0 := hr.elim id fun h => absurd (by rw [h]; decide) hpos
  -- the command has set the range
  have hrange : ctrl = rasddrCmdRead → t.dev.source = ddrBase addr ∧ t.dev.size = size := by
    intro hctrl
    obtain ⟨h1, h2⟩ := readCommand (x := s.dev.release)
        (M := headMessage b ctrl addr (BitVec.ofNat 32 size) []) rfl rfl rfl hctrl
      (fun _ => rfl)
    rw [hsource, hcount, (hwhole h0).2, h1, h2]
    exact ⟨rfl, (BitVec.toNat_ofNat ..).trans (Nat.mod_eq_of_lt hsize)⟩
  refine wp_mono (wp_hlsReceive fuel buf size ht.2) fun r' u _ hu =>
    ⟨⟨hu.1, fun hr' hctrl i hi => ?_⟩, hu.2.1.trans hkept⟩
  obtain ⟨h1, h2⟩ := hrange hctrl
  rw [hu.2.2 hr' h2.symm, fill_bytesOf, if_pos hi, h1, hkept]

/-! ## Commands -/

/-- `fic_hls_ddr_debug` -/
theorem wp_hlsDebug (buf : Mem) (size : Nat) (addr : BitVec 32) (hs : Calls s) :
    wp (ddrSys b) anyTime (fun _ t => t.dev.ddr = s.dev.ddr) (ficHlsDdrDebug b fuel buf size addr) s := by
  refine wp_bind (wp_mono (wp_settled hs (wp_latchedSend fuel _ 12 hs)) fun r t _ ht => ?_)
  obtain ⟨sent, hpre, -, -, hddr, -⟩ := transferred_ddr ht.1
  rw [← encode_command] at hpre
  refine wp_bind (wp_mono (wp_hlsReceive fuel buf 12 ht.2) fun r u _ hu => ?_)
  have hkept : u.dev.ddr = s.dev.ddr := hu.2.1.trans (hddr.trans (command_kept rfl hpre))
  split
  · exact wp_retStill latched_still trivial hkept
  · exact wp_retStill latched_still trivial hkept

/-- `fic_comm_reset` -/
theorem wp_commReset : wp (ddrSys b) anyTime (fun _ t => t.dev.ddr = s.dev.ddr) (ficCommReset b fuel) s :=
  wp_mono (wp_latchedReset fuel) fun _ _ _ h => h.elim (fun h => h ▸ rfl) fun h => h ▸ rfl

/-- `fic_hls_start`, `fic_hls_reset` -/
theorem wp_hlsCommand (cmd : RasioCmd) (hs : Calls s) :
    wp (ddrSys b) anyTime (fun _ t => t.dev.ddr = s.dev.ddr) (hlsCommand b fuel cmd) s := by
  refine wp_mono (wp_latchedCommand fuel cmd hs) fun _ t _ ht => ?_
  obtain ⟨sent, hpre, ht⟩ := ht
  have hlen : sent.length ≤ (headWords b .read).length :=
    hpre.length_le.trans (Nat.succ_le_succ (Nat.zero_le _))
  obtain ⟨o, ho⟩ := after_short (x := s.dev.release) sent rfl hlen
  have hddr : ((rasDdr b).after s.dev.release sent).ddr = s.dev.ddr := (congrArg RasDdr.ddr ho).trans rfl
  rcases ht with ht | ht <;> (rw [ht]; exact hddr)

end

/-! ## Sessions -/

inductive DdrCall
  | write (data : Mem) (size : Nat) (addr : BitVec 32)
  | read (buf : Mem) (size : Nat) (addr : BitVec 32)
  | debug (buf : Mem) (size : Nat) (addr : BitVec 32)
  | commReset
  | hlsReset
  | hlsStart

namespace DdrCall

/-- The call, with the buffer afterwards. -/
def prog (b : Board) (fuel : Nat) : DdrCall → P (Int × Mem)
  | write data size addr => ficHlsDdrWrite b fuel data size addr >>= fun r => ret (r, data)
  | read buf size addr => ficHlsDdrRead b fuel buf size addr
  | debug buf size addr => ficHlsDdrDebug b fuel buf size addr
  | commReset => ficCommReset b fuel >>= fun r => ret (r, fun _ => 0#8)
  | hlsReset => ficHlsReset b fuel >>= fun r => ret (r, fun _ => 0#8)
  | hlsStart => ficHlsStart b fuel >>= fun r => ret (r, fun _ => 0#8)

/-- The header has 32 bits for the size. -/
def Fits : DdrCall → Prop
  | write _ size _ => size < 2 ^ 32
  | read _ size _ => size < 2 ^ 32
  | _ => True

/-- A write to the byte `a`. -/
def Covers (a : Nat) : DdrCall → Prop
  | write _ size addr => ddrBase addr ≤ a ∧ a < ddrBase addr + size
  | _ => False

/-- What the call makes of the DDR `d`, and answers. -/
def Does : DdrCall → (d : Nat → BitVec 8) → Int × Mem → (d' : Nat → BitVec 8) → Prop
  | write data size addr, d, r, d' => Written data size addr rasddrCmdWrite d r.1 d'
  | read buf size addr, d, r, d' => Fetched buf size addr rasddrCmdRead d r ∧ d' = d
  | _, d, _, d' => d' = d

end DdrCall

section
variable {d d' : Nat → BitVec 8} {cs : List DdrCall} {rs : List (Int × Mem)} {a : Nat}

theorem DdrCall.Does.kept {c : DdrCall} {r : Int × Mem} (h : c.Does d r d')
    (ha : ¬ c.Covers a) : d' a = d a := by
  cases c with
  | write data size addr =>
    obtain ⟨k, hk, -, rfl⟩ := h.stored rfl
    exact if_neg fun hin => ha ⟨hin.1, by omega⟩
  | read buf size addr => exact congrFun h.2 a
  | _ => exact congrFun h a

/-- A write that has succeeded. -/
theorem DdrCall.Does.stored {data m : Mem} {size : Nat} {addr : BitVec 32}
    (h : (DdrCall.write data size addr).Does d (0, m) d')
    (ha : (DdrCall.write data size addr).Covers a) : d' a = data (a - ddrBase addr) := by
  obtain ⟨k, -, hall, rfl⟩ := Written.stored h rfl
  rw [hall rfl]
  exact if_pos ha

/-- A read that has succeeded. -/
theorem DdrCall.Does.got {buf m : Mem} {size : Nat} {addr : BitVec 32}
    (h : (DdrCall.read buf size addr).Does d (0, m) d')
    (ha : ddrBase addr ≤ a) (ha' : a < ddrBase addr + size) : m (a - ddrBase addr) = d a := by
  have hgot : m (a - ddrBase addr) = d (ddrBase addr + (a - ddrBase addr)) := h.1.got rfl rfl _ (by omega)
  rw [hgot, show ddrBase addr + (a - ddrBase addr) = a by omega]

/-- What a write has stored is read back, unless another write comes in between. -/
theorem ddr_readsBack (h : History DdrCall.Does cs rs d d') {k j n n' : Nat} (hkj : k < j)
    {data buf data' m : Mem} {addr addr' : BitVec 32}
    (hwrite : cs[k]? = some (.write data n addr)) (hok : rs[k]? = some (0, data'))
    (hread : cs[j]? = some (.read buf n' addr'))
    (hok' : rs[j]? = some (0, m)) (hin : (DdrCall.write data n addr).Covers a)
    (hin' : ddrBase addr' ≤ a ∧ a < ddrBase addr' + n')
    (hfree : ∀ i c, k < i → i < j → cs[i]? = some c → ¬ c.Covers a) :
    m (a - ddrBase addr') = data (a - ddrBase addr) := by
  obtain ⟨d1, d2, d3, d4, hw, hr, hmid⟩ := h.calls hkj hwrite hok hread hok'
  have hkept : d3 a = data (a - ddrBase addr) := hmid (fun d => d a = data (a - ddrBase addr))
    (fun i c hi hj hc x r z hdoes hx => (hdoes.kept (hfree i c hi hj hc)).trans hx) (hw.stored hin)
  exact (hr.got hin'.1 hin'.2).trans hkept

end

section
variable {s : World (RasDdr b)}

theorem wp_ddrCall (c : DdrCall) (hfits : c.Fits) (hs : Calls s) :
    wp (ddrSys b) anyTime (fun r t => c.Does s.dev.ddr r t.dev.ddr) (c.prog b fuel) s := by
  cases c with
  | write data size addr =>
    exact wp_bind (wp_mono (wp_hlsWrite fuel data addr rasddrCmdWrite hfits hs) fun r t _ ht =>
      wp_retStill latched_still trivial ht)
  | read buf size addr => exact wp_hlsRead fuel buf addr rasddrCmdRead hfits hs
  | debug buf size addr => exact wp_hlsDebug fuel buf size addr hs
  | commReset =>
      exact wp_bind (wp_mono (wp_commReset fuel) fun r t _ ht => wp_retStill latched_still trivial ht)
  | hlsReset =>
      exact wp_bind (wp_mono (wp_hlsCommand fuel .hlsReset hs) fun r t _ ht =>
        wp_retStill latched_still trivial ht)
  | hlsStart =>
      exact wp_bind (wp_mono (wp_hlsCommand fuel .hlsStart hs) fun r t _ ht =>
        wp_retStill latched_still trivial ht)

/-- The answers `rs` of a session, and the DDR before and after it. -/
structure DdrSession (cs : List DdrCall) (rs : List (Int × Mem)) (d d' : Nat → BitVec 8) : Prop where
  answered : rs.length = cs.length
  history : History DdrCall.Does cs rs d d'
  kept (a : Nat) : (∀ c ∈ cs, ¬ c.Covers a) → d' a = d a
  readsBack (k j n n' a : Nat) (data buf data' m : Mem) (addr addr' : BitVec 32) : k < j →
    cs[k]? = some (.write data n addr) → rs[k]? = some (0, data') →
    cs[j]? = some (.read buf n' addr') → rs[j]? = some (0, m) →
    ddrBase addr ≤ a → a < ddrBase addr + n → ddrBase addr' ≤ a → a < ddrBase addr' + n' →
    (∀ i c, k < i → i < j → cs[i]? = some c → ¬ c.Covers a) →
    m (a - ddrBase addr') = data (a - ddrBase addr)

theorem ddrSession_of_history {d d' : Nat → BitVec 8} {cs : List DdrCall} {rs : List (Int × Mem)}
    (h : History DdrCall.Does cs rs d d') : DdrSession cs rs d d' := by
  refine ⟨h.length, h, fun a ha => ?_,
    fun k j n n' a data buf data' m addr addr' hkj h1 h2 h3 h4 h5 h6 h7 h8 h9 =>
    ddr_readsBack h hkj h1 h2 h3 h4 ⟨h5, h6⟩ ⟨h7, h8⟩ h9⟩
  exact h.keeps (P := fun e => e a = d a) (fun c hc x r z hdoes hx => (hdoes.kept (ha c hc)).trans hx) rfl

theorem wp_ddrCalls (cs : List DdrCall) (hfits : ∀ c ∈ cs, c.Fits) (hs : Calls s) :
    wp (ddrSys b) anyTime (fun rs t => History DdrCall.Does cs rs s.dev.ddr t.dev.ddr ∧ Calls t)
      (each (DdrCall.prog b fuel) cs) s := by
  have hcall : ∀ c ∈ cs, ∀ s : World (RasDdr b), Calls s → wp (ddrSys b) anyTime
      (fun r t => c.Does s.dev.ddr r t.dev.ddr ∧ Calls t) (c.prog b fuel) s := by
    intro c hc s hs
    exact wp_settled hs (wp_ddrCall fuel c (hfits c hc) hs)
  exact wp_each DdrCall.Does (fun t : World (RasDdr b) => t.dev.ddr) latched_still.quiet hcall hs

/-- **The DDR is a store**, whatever FACK, FREQ and the clock do: a call that fails has stored the
first bytes of its range at most. -/
theorem ddr_store (cs : List DdrCall) {t : World (RasDdr b)} {rs : List (Int × Mem)}
    (hfits : ∀ c ∈ cs, c.Fits) (hs : Calls s)
    (hrun : (ddrSys b).Run (each (DdrCall.prog b fuel) cs, s) (ret rs, t)) :
    DdrSession cs rs s.dev.ddr t.dev.ddr := by
  obtain ⟨hhistory, -⟩ := wp_run_ret (wp_ddrCalls fuel cs hfits hs) hrun
  exact ddrSession_of_history hhistory

end

/-! ## A session on mk2 -/

/-- A schedule of the DDR module. -/
def ddrAnswer (o : Op) (s : World (RasDdr b)) : Ans o × World (RasDdr b) := latchedAnswer (rasDdr b) o s

theorem ddrAnswer_act (o : Op) (s : World (RasDdr b)) :
    ∃ t, (ddrSys b).Drift s t ∧ (ddrSys b).act o t (ddrAnswer o s).1 (ddrAnswer o s).2 :=
  latchedAnswer_act (rasDdr b) o s

/-- A DDR full of 0x55, and all pins inputs. -/
def freshDdr (b : Board) : World (RasDdr b) :=
  ⟨World.start.gpio, World.start.stat, ⟨[], fun _ => 0x55#8, 0, 0, none⟩⟩

/-- An odd size is refused on mk2. -/
def fourDdrCalls : List DdrCall :=
  [.write (fun i => BitVec.ofNat 8 (i + 1)) 4 8#32, .write (fun _ => 0#8) 3 8#32, .commReset,
    .read (fun _ => 0#8) 8 8#32]

theorem ddr_store_fourCalls :
    ∃ rs t, (ddrSys .mk2).Run (each (DdrCall.prog .mk2 2) fourDdrCalls, freshDdr .mk2) (ret rs, t) ∧
      rs.map Prod.fst = [0, -1, 0, 0] ∧ DdrSession fourDdrCalls rs (freshDdr .mk2).dev.ddr t.dev.ddr := by
  have hrun : (follow ddrAnswer 4000 (each (DdrCall.prog .mk2 2) fourDdrCalls)
      (freshDdr .mk2)).1.answer?.map (fun rs => rs.map Prod.fst) =
      some [0, -1, 0, 0] := by decide +kernel
  obtain ⟨rs, hrs, hval⟩ := Option.map_eq_some_iff.1 hrun
  have hr := follow_ret ddrAnswer_act 4000 hrs
  refine ⟨rs, _, hr, hval, ddr_store 2 fourDdrCalls ?_ (.inr rfl) hr⟩
  intro c hc
  simp only [fourDdrCalls, List.mem_cons, List.not_mem_nil, or_false] at hc
  rcases hc with rfl | rfl | rfl | rfl <;> simp [DdrCall.Fits]

end Libfic2
