import Libfic2.Driver.Bursts
import Libfic2.PlainProgramming

/-!
# The fast data loops against the plain ones

The fast loops clock several equal words at a time, found by a look-ahead that does
not stop at the end of the bitstream.  Seen as a walk over words the loops are
`Bursts.stop`, with bursts of up to 16 bytes (x8) or 8 pairs (x16), and the FPGA
samples the words the walk has passed (`wp_fastLoop8`, `wp_fastLoop16`).

* `fast_agrees_iff`: when fast and plain programming agree.
-/

namespace Libfic2

open Driver Prog Sys Bursts

/-! ## The look-ahead -/

theorem same8_iff (data : Mem) (d : BitVec 8) (i k n : Nat) :
    same8 data d i k n = true ↔ ∀ j, k ≤ j → j < k + n → data (i + j) = d := by
  induction n generalizing k with
  | zero => exact ⟨fun _ j h1 h2 => by omega, fun _ => rfl⟩
  | succ n ih =>
    rw [same8, Bool.and_eq_true, beq_iff_eq, ih]
    constructor
    · rintro ⟨h1, h2⟩ j hj hj'
      rcases Nat.eq_or_lt_of_le hj with rfl | hlt
      · exact h1.symm
      · exact h2 j hlt (by omega)
    · intro h
      exact ⟨(h k (Nat.le_refl _) (by omega)).symm, fun j hj hj' => h j (by omega) (by omega)⟩

/-- The bytes of a pair, high byte first. -/
def bytesAt (data : Mem) (k : Nat) : BitVec 8 × BitVec 8 := (data (2 * k + 1), data (2 * k))

theorem same16_iff (data : Mem) (hi lo : BitVec 8) (i k n : Nat) :
    same16 data hi lo (2 * i) k n = true ↔ ∀ j, k ≤ j → j < k + n → bytesAt data (i + j) = (hi, lo) := by
  induction n generalizing k with
  | zero => exact ⟨fun _ j h1 h2 => by omega, fun _ => rfl⟩
  | succ n ih =>
    have hk : ((hi == data (2 * i + 2 * k + 1) && lo == data (2 * i + 2 * k)) = true) ↔
        bytesAt data (i + k) = (hi, lo) := by
      unfold bytesAt
      rw [Bool.and_eq_true, beq_iff_eq, beq_iff_eq, Prod.mk.injEq,
        show 2 * (i + k) = 2 * i + 2 * k by omega]
      exact ⟨fun h => ⟨h.1.symm, h.2.symm⟩, fun h => ⟨h.1.symm, h.2.symm⟩⟩
    rw [same16, Bool.and_eq_true, hk, ih]
    constructor
    · rintro ⟨h1, h2⟩ j hj hj'
      rcases Nat.eq_or_lt_of_le hj with rfl | hlt
      · exact h1
      · exact h2 j hlt (by omega)
    · intro h
      exact ⟨h k (Nat.le_refl _) (by omega), fun j hj hj' => h j (by omega) (by omega)⟩

section
variable {β : Type} {w : Nat → β} {i : Nat}

theorem allEq_four : AllEq w i 4 ↔ ∀ j, 1 ≤ j → j < 1 + 3 → w (i + j) = w i := by
  constructor
  · exact fun h j _ hj => h j (by omega)
  · intro h j hj
    rcases Nat.eq_zero_or_pos j with rfl | hpos
    · rfl
    · exact h j hpos (by omega)

theorem allEq_next {k : Nat} (h : AllEq w i k) :
    AllEq w i (k + 4) ↔ ∀ j, k ≤ j → j < k + 4 → w (i + j) = w i := by
  constructor
  · exact fun h j _ hj => h j hj
  · intro h' j hj
    rcases Nat.lt_or_ge j k with hlt | hge
    · exact h j hlt
    · exact h' j hge hj

end

/-- A round of the fast loops, with the look-ahead as one number. -/
def fastRound (fuel : Nat) (q : Nat) (repeated : Prop) [Decidable repeated]
    (db mask : BitVec 32) (step : Nat) : P Nat :=
  if repeated then
    if q = 0 then do fastRepeat fuel; ret 0
    else do toggleCclk (4 * q); ret (step * (4 * q - 1))
  else do fastWrite db mask; ret 0

section
variable (fuel : Nat) (data : Mem) (i : Nat)

theorem fastRound8_eq (d' : BitVec 8) : fastRound8 fuel data i d' =
    fastRound fuel (quads data i 4 0) (data i = d') ((data i).setWidth 32 <<< 8) mask8 1 := by
  unfold fastRound8 fastRound
  dsimp only
  split
  · by_cases h4 : AllEq data i 4
    · rw [if_pos ((same8_iff ..).2 (allEq_four.1 h4))]
      by_cases h8 : AllEq data i 8
      · rw [if_pos ((same8_iff ..).2 ((allEq_next h4).1 h8))]
        by_cases h12 : AllEq data i 12
        · rw [if_pos ((same8_iff ..).2 ((allEq_next h8).1 h12))]
          by_cases h16 : AllEq data i 16
          · rw [if_pos ((same8_iff ..).2 ((allEq_next h12).1 h16)),
              quads_eq (q := 4) (by omega) h16 (.inl rfl)]
            rfl
          · rw [if_neg (mt (fun h => (allEq_next h12).2 ((same8_iff ..).1 h)) h16),
              quads_eq (q := 3) (by omega) h12 (.inr h16)]
            rfl
        · rw [if_neg (mt (fun h => (allEq_next h8).2 ((same8_iff ..).1 h)) h12),
            quads_eq (q := 2) (by omega) h8 (.inr h12)]
          rfl
      · rw [if_neg (mt (fun h => (allEq_next h4).2 ((same8_iff ..).1 h)) h8),
          quads_eq (q := 1) (by omega) h4 (.inr h8)]
        rfl
    · rw [if_neg (mt (fun h => allEq_four.2 ((same8_iff ..).1 h)) h4),
        quads_eq (q := 0) (by omega) allEq_zero (.inr h4)]
      rfl
  · rfl

theorem fastRound16_eq (hi' lo' : BitVec 8) : fastRound16 fuel data (2 * i) hi' lo' =
    fastRound fuel (quads (bytesAt data) i 2 0) (bytesAt data i = (hi', lo'))
      (word16 data (2 * i)) mask16 2 := by
  have hcond : (data (2 * i + 1) = hi' ∧ data (2 * i) = lo') ↔ bytesAt data i = (hi', lo') := by
    unfold bytesAt
    rw [Prod.mk.injEq]
  unfold fastRound16 fastRound
  dsimp only
  by_cases hc : bytesAt data i = (hi', lo')
  · rw [if_pos (hcond.2 hc), if_pos hc]
    by_cases h4 : AllEq (bytesAt data) i 4
    · rw [if_pos ((same16_iff ..).2 (allEq_four.1 h4))]
      by_cases h8 : AllEq (bytesAt data) i 8
      · rw [if_pos ((same16_iff ..).2 ((allEq_next h4).1 h8)), quads_eq (q := 2) (by omega) h8 (.inl rfl)]
        rfl
      · rw [if_neg (mt (fun h => (allEq_next h4).2 ((same16_iff ..).1 h)) h8),
          quads_eq (q := 1) (by omega) h4 (.inr h8)]
        rfl
    · rw [if_neg (mt (fun h => allEq_four.2 ((same16_iff ..).1 h)) h4),
        quads_eq (q := 0) (by omega) allEq_zero (.inr h4)]
      rfl
  · rw [if_neg (mt hcond.1 hc), if_neg hc]
    rfl

end

/-! ## One round -/

section
variable {lv : Gpio → BitVec 32 → Prop} {float : BitVec 32} {n : Nat} (fuel : Nat)
variable {d d' mask : BitVec 32} {c : Bool} {l : List (BitVec n)} {s : World (List (BitVec n))}

/-- A burst of `m` clocks. -/
theorem wp_toggleCclk (m : Nat) (h : Sampled d c l s) :
    wp (sys (sampler lv float n)) anyTime
      (fun _ t => ∃ c', Sampled d c' (l ++ List.replicate m (dataWord n d)) t) (toggleCclk m) s := by
  refine wp_forDo (fun i t => ∃ c', Sampled d c' (l ++ List.replicate i (dataWord n d)) t) 0 m
    (fun i t _ _ ⟨c', ht⟩ => ?_) (fun t ht => ?_) ⟨c, by simpa using h⟩
  · refine wp_clr sampler_still trivial _ <| wp_clr sampler_still trivial _ <|
      wp_set sampler_still trivial _ <| wp_set sampler_still trivial _ <|
      wp_retStill sampler_still trivial ⟨true, ?_⟩
    have e : l ++ List.replicate (i + 1) (dataWord n d) =
        (l ++ List.replicate i (dataWord n d) ++ if false then [] else [dataWord n d]) ++
          if true then [] else [dataWord n d] := by
      simp [List.replicate_succ']
    rw [e]
    exact ht.fall.fall.rise.rise
  · rw [Nat.zero_add] at ht
    exact wp_retStill sampler_still trivial ht

/-- A single repeated word. -/
theorem wp_fastRepeat (h : Sampled d c l s) :
    wp (sys (sampler lv float n)) anyTime (fun _ t => Sampled d true (l ++ [dataWord n d]) t)
      (fastRepeat fuel) s := by
  refine wp_bind (wp_ficClrGpioFast sampler_still fuel trivial _ trivial ?_)
  refine wp_set sampler_still trivial _ <| wp_set sampler_still trivial _ <|
    wp_retStill sampler_still trivial ?_
  rw [← List.append_nil (l ++ _)]
  exact (Sampled.fall h).rise.rise

/-- A new word. -/
theorem wp_fastWrite (hm : DataMask n mask) (h : Sampled d' c l s) :
    wp (sys (sampler lv float n)) anyTime (fun _ t => Sampled d true (l ++ [dataWord n d]) t)
      (fastWrite d mask) s := by
  refine wp_clr sampler_still trivial _ <| wp_set sampler_still trivial _ <|
    wp_set sampler_still trivial _ <|
    wp_set sampler_still trivial _ <| wp_retStill sampler_still trivial ?_
  rw [← List.append_nil (l ++ _)]
  exact (((h.clear hm).drive hm).clock hm).clock hm

/-- A round moves the index by as many words as it clocks. -/
theorem wp_fastRound (hm : DataMask n mask) {repeated : Prop} [Decidable repeated]
    (hrep : repeated → d = d') (q step : Nat) (h : Sampled d' c l s) :
    wp (sys (sampler lv float n)) anyTime
      (fun k t => ∃ c', k = step * ((if repeated then max 1 (4 * q) else 1) - 1) ∧
        Sampled d c' (l ++ List.replicate (if repeated then max 1 (4 * q) else 1) (dataWord n d)) t)
      (fastRound fuel q repeated d mask step) s := by
  unfold fastRound
  split
  · next hr =>
    rw [← hrep hr] at h
    split
    · next hq =>
      subst hq
      exact wp_bind (wp_mono (wp_fastRepeat fuel h) fun _ t _ ht =>
        wp_retStill sampler_still trivial ⟨true, by simp, ht⟩)
    · next hq =>
      refine wp_bind (wp_mono (wp_toggleCclk (4 * q) h) fun _ t _ ht => ?_)
      obtain ⟨c', ht⟩ := ht
      refine wp_retStill sampler_still trivial ⟨c', ?_, ?_⟩
      · rw [show max 1 (4 * q) = 4 * q by omega]
      · rwa [show max 1 (4 * q) = 4 * q by omega]
  · exact wp_bind (wp_mono (wp_fastWrite hm h) fun _ t _ ht =>
      wp_retStill sampler_still trivial ⟨true, by simp, ht⟩)

end

/-! ## The loops -/

/-- The words a round clocks are those the index passes. -/
theorem replicate_burst {β γ : Type} [DecidableEq β] (w : Nat → β) (f : Nat → γ)
    (top : Nat) (d' : β) (i : Nat) (hf : ∀ j k, w j = w k → f j = f k) :
    List.replicate (burst w top d' i) (f i) = (List.range' i (burst w top d' i)).map f := by
  refine (List.eq_replicate_iff.2 ⟨by simp, fun x hx => ?_⟩).symm
  obtain ⟨j, hj, rfl⟩ := List.mem_map.1 hx
  rw [List.mem_range'_1] at hj
  have := burst_allEq w top d' i (j - i) (by omega)
  rw [show i + (j - i) = j by omega] at this
  exact hf j i this

section
variable {lv : Gpio → BitVec 32 → Prop} {float : BitVec 32} (fuel : Nat)

theorem stop_ge {β : Type} [DecidableEq β] (w : Nat → β) (top N n i : Nat) (d' : β) :
    i ≤ stop w top N n i d' := by
  induction n generalizing i d' with
  | zero => exact Nat.le_refl _
  | succ n ih =>
    unfold stop
    split
    · exact Nat.le_trans (Nat.le_add_right _ _) (ih _ _)
    · exact Nat.le_refl _

theorem wp_fastLoop8 (data : Mem) (size n i : Nat) (d' : BitVec 8) {c : Bool} {l : List (BitVec 8)}
    {s : World (List (BitVec 8))} (h : Sampled (d'.setWidth 32 <<< 8) c l s) :
    wp (sys (sampler lv float 8)) anyTime
      (fun r t => ∀ k, r = some k → k = stop data 4 size n i d' ∧
        t.dev = l ++ (List.range' i (k - i)).map data)
      (fastLoop8 fuel data size n i d') s := by
  induction n generalizing i d' c l s with
  | zero => exact fun _ _ => trivial
  | succ n ih =>
    unfold fastLoop8 stop
    split
    · rw [fastRound8_eq]
      refine wp_bind (wp_mono (wp_fastRound fuel dataMask8 (fun e => by rw [e]) _ 1 h) fun k t _ ht => ?_)
      obtain ⟨c', hk, ht⟩ := ht
      have hb : (if data i = d' then max 1 (4 * quads data i 4 0) else 1) = burst data 4 d' i := rfl
      rw [hb] at hk ht
      have hpos := burst_pos data 4 d' i
      refine wp_stat sampler_still trivial _ ?_
      rw [show i + k + 1 = i + burst data 4 d' i by omega]
      refine wp_mono (ih (i + burst data 4 d' i) _ ht) fun r u _ hu m hm => ?_
      obtain ⟨h1, h2⟩ := hu m hm
      refine ⟨h1, ?_⟩
      have hge := stop_ge data 4 size n (i + burst data 4 d' i) (data i)
      rw [← h1] at hge
      rw [h2, show dataWord 8 ((data i).setWidth 32 <<< 8) = data i from dataWord_word8 data i,
        replicate_burst data data 4 d' i fun _ _ h => h, List.append_assoc, ← List.map_append,
        List.range'_append_1, show burst data 4 d' i + (m - (i + burst data 4 d' i)) = m - i by omega]
    · refine wp_retStill sampler_still trivial ?_
      rintro k ⟨rfl⟩
      exact ⟨rfl, by rw [h.1]; simp⟩

theorem wp_fastLoop16 (data : Mem) (size n i : Nat) (hi' lo' : BitVec 8) {c : Bool} {l : List (BitVec 16)}
    {s : World (List (BitVec 16))}
    (h : Sampled (((hi'.setWidth 32 <<< 8) ||| lo'.setWidth 32) <<< 8) c l s) :
    wp (sys (sampler lv float 16)) anyTime
      (fun r t => ∀ k, r = some k → k = 2 * stop (bytesAt data) 2 size n i (hi', lo') ∧
        t.dev = l ++ (List.range' i (k / 2 - i)).map (pairAt data))
      (fastLoop16 fuel data (2 * size) n (2 * i) hi' lo') s := by
  induction n generalizing i hi' lo' c l s with
  | zero => exact fun _ _ => trivial
  | succ n ih =>
    unfold fastLoop16 stop
    by_cases hlt : i < size
    · rw [if_pos hlt, if_pos (show 2 * i < 2 * size by omega), fastRound16_eq]
      refine wp_bind (wp_mono (wp_fastRound fuel dataMask16 (fun e => ?_) _ 2 h) fun k t _ ht => ?_)
      · unfold bytesAt at e
        rw [Prod.mk.injEq] at e
        rw [← e.1, ← e.2]
        rfl
      obtain ⟨c', hk, ht⟩ := ht
      have hb : (if bytesAt data i = (hi', lo') then max 1 (4 * quads (bytesAt data) i 2 0) else 1) =
          burst (bytesAt data) 2 (hi', lo') i := rfl
      rw [hb] at hk ht
      have hpos := burst_pos (bytesAt data) 2 (hi', lo') i
      refine wp_stat sampler_still trivial _ ?_
      rw [show 2 * i + k + 2 = 2 * (i + burst (bytesAt data) 2 (hi', lo') i) by omega]
      refine wp_mono (ih (i + burst (bytesAt data) 2 (hi', lo') i) _ _ ht) fun r u _ hu m hm => ?_
      obtain ⟨h1, h2⟩ := hu m hm
      refine ⟨h1, ?_⟩
      have hge := stop_ge (bytesAt data) 2 size n (i + burst (bytesAt data) 2 (hi', lo') i) (bytesAt data i)
      have hm2 : m = 2 * stop (bytesAt data) 2 size n
          (i + burst (bytesAt data) 2 (hi', lo') i) (bytesAt data i) := h1
      rw [h2, dataWord_word16, replicate_burst (bytesAt data) (pairAt data) 2 (hi', lo') i fun j k h => ?_,
        List.append_assoc, ← List.map_append, List.range'_append_1,
        show burst (bytesAt data) 2 (hi', lo') i +
        (m / 2 - (i + burst (bytesAt data) 2 (hi', lo') i)) = m / 2 - i
          by omega]
      unfold bytesAt at h
      rw [Prod.mk.injEq] at h
      unfold pairAt
      rw [h.1, h.2]
    · rw [if_neg hlt, if_neg (show ¬ 2 * i < 2 * size by omega)]
      refine wp_retStill sampler_still trivial ?_
      rintro k ⟨rfl⟩
      refine ⟨rfl, ?_⟩
      rw [h.1, show 2 * i / 2 - i = 0 by omega]
      simp

end

/-! ## Runs of the fast loops -/

section
variable {float : BitVec 32} {n : Nat} (fuel : Nat) {s : World (List (BitVec n))}

theorem can_toggleCclk (m lo : Nat) {α : Type} {Q : α → World (List (BitVec n)) → Prop} {k : Unit → P α}
    (h : ∀ t : World (List (BitVec n)), t.gpio.fsel = s.gpio.fsel →
    can (sys (samplerRb float n)) Q (k ()) t) : can (sys (samplerRb float n)) Q (forDo (fun _ => do
      forDo (fun _ => issue (.clr (rpPin rpCclk))) 0 2
      forDo (fun _ => issue (.set (rpPin rpCclk))) 0 2) lo m >>= k) s := by
  induction m generalizing lo s with
  | zero => exact h s rfl
  | succ m ih =>
    exact can_issue (o := .clr _) () rfl <| can_issue (o := .clr _) () rfl <|
      can_issue (o := .set _) () rfl <| can_issue (o := .set _) () rfl <| ih (lo + 1) h

/-- A round can end, with an index step that is a multiple of `step`, and leaves the function selects. -/
theorem can_fastRound (q : Nat) (repeated : Prop) [Decidable repeated] (db mask : BitVec 32) (step : Nat) :
    can (sys (samplerRb float n)) (fun m t => (∃ j, m = step * j) ∧ t.gpio.fsel = s.gpio.fsel)
      (fastRound (fuel + 1) q repeated db mask step) s := by
  unfold fastRound
  split
  · split
    · refine can_bind (can_bind (can_ficClrGpioFast fuel samplerRb_readsLatch _ ?_))
      exact can_issue (o := .set _) () rfl <| can_issue (o := .set _) () rfl ⟨⟨0, rfl⟩, rfl⟩
    · exact can_toggleCclk _ _ fun _ ht => ⟨⟨_, rfl⟩, ht⟩
  · exact can_issue (o := .clr _) () rfl <| can_issue (o := .set _) () rfl <|
      can_issue (o := .set _) () rfl <| can_issue (o := .set _) () rfl ⟨⟨0, rfl⟩, rfl⟩

theorem can_fastRound8 (data : Mem) (i : Nat) (d' : BitVec 8) :
    can (sys (samplerRb float n)) (fun m t => (∃ j, m = 1 * j) ∧ t.gpio.fsel = s.gpio.fsel)
      (fastRound8 (fuel + 1) data i d') s := by
  rw [fastRound8_eq]
  exact can_fastRound fuel _ _ _ _ _

theorem can_fastRound16 (data : Mem) (i : Nat) (hi' lo' : BitVec 8) :
    can (sys (samplerRb float n)) (fun m t => (∃ j, m = 2 * j) ∧ t.gpio.fsel = s.gpio.fsel)
      (fastRound16 (fuel + 1) data (2 * i) hi' lo') s := by
  rw [fastRound16_eq]
  exact can_fastRound fuel _ _ _ _ _

theorem can_fastLoop8 (data : Mem) (size k i : Nat) (d' : BitVec 8) (h : size - i < k) :
    can (sys (samplerRb float n)) (fun r _ => ∃ m, r = some m)
      (fastLoop8 (fuel + 1) data size k i d') s := by
  induction k generalizing i d' s with
  | zero => omega
  | succ k ih =>
    unfold fastLoop8
    split
    · refine can_bind (can_mono (can_fastRound8 fuel data i d') fun m t _ => ?_)
      exact can_issue (o := .stat _) () rfl (ih _ _ (by omega))
    · exact ⟨i, rfl⟩

theorem can_fastLoop16 (data : Mem) (size k i : Nat) (hi' lo' : BitVec 8) (h : size - i < k) :
    can (sys (samplerRb float n)) (fun r _ => ∃ m, r = some m)
      (fastLoop16 (fuel + 1) data (2 * size) k (2 * i) hi' lo') s := by
  induction k generalizing i hi' lo' s with
  | zero => omega
  | succ k ih =>
    unfold fastLoop16
    split
    · refine can_bind (can_mono (can_fastRound16 fuel data i hi' lo') fun m t hm => ?_)
      obtain ⟨⟨j, rfl⟩, -⟩ := hm
      refine can_issue (o := .stat _) () rfl ?_
      rw [show 2 * i + 2 * j + 2 = 2 * (i + j + 1) by omega]
      exact ih _ _ _ (by omega)
    · exact ⟨_, rfl⟩

end

/-! ## The whole functions -/

section
variable {lv : Gpio → BitVec 32 → Prop} {float : BitVec 32} {n : Nat} (fuel : Nat)
    {s : World (List (BitVec n))}

theorem wp_progEnd (st : ProgStatus) (m : Nat) :
    wp (sys (sampler lv float n)) anyTime (fun c t => c = m ∧ t.stat.stat = st) (progEnd st m) s := by
  refine wp_opStill sampler_still (o := .clearSel 0) trivial fun _ _ _ => ?_
  refine wp_opStill sampler_still (o := .clearSel 1) trivial fun _ _ _ => ?_
  refine wp_opStill sampler_still (o := .clearSel 2) trivial fun _ _ _ => ?_
  refine wp_stat sampler_still trivial _ <|
    wp_clock sampler_still trivial fun _ => wp_stat sampler_still trivial _ ?_
  exact wp_retStill sampler_still trivial ⟨rfl, rfl⟩

/-- After the loop: success is reported with the final index only. -/
theorem wp_progFinish (test : P Int) (mask : BitVec 32) (pm : ProgMode) (r : Option Nat) :
    wp (sys (sampler lv float n)) anyTime (fun c t => t.stat.stat = .done → r = some c)
      (progFinish fuel test mask pm r) s := by
  cases r with
  | none =>
    refine wp_mono (wp_progEnd .fail 0) fun c t _ ht hd => ?_
    rw [ht.2] at hd
    cases hd
  | some i =>
    refine wp_bind (wp_of_runs (fun _ _ _ => trivial) fun w t _ => ?_)
    split
    · refine wp_mono (wp_progEnd .fail 0) fun c u _ hu hd => ?_
      rw [hu.2] at hd
      cases hd
    · exact wp_mono (wp_progEnd .done i) fun c u _ hu _ => by rw [hu.1]

end

/-- Fast and plain programming agree: up to the end of the data loop both have the FPGA sample
`words`, and when both succeed they return the same count. -/
structure Agrees {n : Nat} (dev : Device (List (BitVec n))) (plainLoad fastLoad : P (Option Nat))
    (plain fast : P Nat) (words : List (BitVec n)) : Prop where
  plainWords : ∀ s i t, (sys dev).Run (plainLoad, s) (ret (some i), t) → t.dev = s.dev ++ words
  fastWords : ∀ s i t, (sys dev).Run (fastLoad, s) (ret (some i), t) → t.dev = s.dev ++ words
  count : ∀ s c t c' t', (sys dev).Run (plain, s) (ret c, t) → t.stat.stat = .done →
    (sys dev).Run (fast, s) (ret c', t') → t'.stat.stat = .done → c = c'

/-- The trailing words that repeat their predecessor are a multiple of the longest burst, or what
follows the bitstream in memory does not complete the last four of them. -/
def BurstsFit {β : Type} [DecidableEq β] (w : Nat → β) (d0 : β) (top size : Nat) : Prop :=
  trailing w d0 size % (4 * top) = 0 ∨
    ¬ ∀ j, j < 4 - trailing w d0 size % 4 → w (size + j) = w (size - 1)

/-- Agreement is a matter of where the two loops end. -/
theorem agrees_iff_count {float : BitVec 32} {n : Nat} (plainLoad fastLoad : Nat → P (Option Nat))
    (cnt fin : Nat) (test test' : P Int) (mask : BitVec 32) (pm : ProgMode)
    {words fastWords : List (BitVec n)} (hp : ∀ fuel s, wp (sys (samplerRb float n)) anyTime
      (fun r t => ∀ k, r = some k → k = cnt ∧ t.dev = s.dev ++ words) (plainLoad fuel) s)
    (hf : ∀ fuel s, wp (sys (samplerRb float n)) anyTime
      (fun r t => ∀ k, r = some k → k = fin ∧ t.dev = s.dev ++ fastWords) (fastLoad fuel) s)
    (hrun : ∀ s, can (sys (samplerRb float n)) (fun r _ => ∃ m, r = some m) (fastLoad 1) s)
    (hw : fastWords = words ↔ fin = cnt) :
    (∀ fuel, Agrees (samplerRb float n) (plainLoad fuel) (fastLoad fuel)
      (plainLoad fuel >>= progFinish fuel test mask pm)
      (fastLoad fuel >>= progFinish fuel test' mask pm) words) ↔
    fin = cnt := by
  constructor
  · intro h
    obtain ⟨r, t, hr, m, rfl⟩ := can_run (hrun ⟨World.start.gpio, World.start.stat, []⟩)
    have h1 := (h 1).fastWords _ _ _ hr
    have h2 := (wp_run_ret (hf 1 _) hr m rfl).2
    rw [h1] at h2
    exact hw.1 (List.append_cancel_left h2).symm
  · intro h fuel
    -- a successful call returns the final index of its loop
    have ends : ∀ {load : P (Option Nat)} {s : World (List (BitVec n))} {e : Nat} {ws : List (BitVec n)}
        (tst : P Int),
        wp (sys (samplerRb float n)) anyTime (fun r t => ∀ k, r = some k →
        k = e ∧ t.dev = s.dev ++ ws) load s →
        wp (sys (samplerRb float n)) anyTime (fun c t => t.stat.stat = .done → c = e)
          (load >>= progFinish fuel tst mask pm) s := by
      intro load s e ws tst hl
      refine wp_bind (wp_mono hl fun r t _ ht => ?_)
      exact wp_mono (wp_progFinish fuel tst mask pm r) fun c u _ hu hd => (ht c (hu hd)).1
    refine ⟨fun s i t hr => ?_, fun s i t hr => ?_, fun s c t c' t' hr hd hr' hd' => ?_⟩
    · exact (wp_run_ret (hp fuel s) hr i rfl).2
    · rw [← hw.2 h]
      exact (wp_run_ret (hf fuel s) hr i rfl).2
    · rw [wp_run_ret (ends test (hp fuel s)) hr hd, wp_run_ret (ends test' (hf fuel s)) hr' hd', h]

/-- Prefixes of a stream are equal when they are equally long. -/
theorem map_range_eq_iff {γ : Type} (f : Nat → γ) (k m : Nat) :
    (List.range' 0 k).map f = (List.range m).map f ↔ k = m := by
  constructor
  · intro h
    have := congrArg List.length h
    simpa using this
  · rintro rfl
    rw [List.range_eq_range']

/-- **When fast programming agrees with plain programming.** -/
theorem fast_agrees_iff (float : BitVec 32) (b : Board) (pm : ProgMode) (data : Mem) (size : Nat) :
    ((∀ fuel, Agrees (samplerRb float 8) (ficProgSm8Load b fuel data size pm)
        (ficProgSm8FastLoad b fuel data size pm) (ficProgSm8 b fuel data size pm)
        (ficProgSm8Fast b fuel data size pm) ((List.range size).map data)) ↔
      BurstsFit data 0#8 4 size) ∧
    ((∀ fuel, Agrees (samplerRb float 16) (ficProgSm16Load b fuel data (2 * size) pm)
        (ficProgSm16FastLoad b fuel data (2 * size) pm) (ficProgSm16 b fuel data (2 * size) pm)
        (ficProgSm16Fast b fuel data (2 * size) pm)
        ((List.range size).map fun k =>
          (data (2 * k)).setWidth 16 ||| ((data (2 * k + 1)).setWidth 16 <<< 8))) ↔
      BurstsFit (bytesAt data) (0#8, 0#8) 2 size) := by
  constructor
  · refine (agrees_iff_count (fun fuel => ficProgSm8Load b fuel data size pm)
      (fun fuel => ficProgSm8FastLoad b fuel data size pm) size (stop data 4 size (size + 1) 0 0#8)
      plainInitTest fastInitTest mask8 pm (fun fuel s => ?_)
      (fun fuel s => ?_) (fun s => ?_) (map_range_eq_iff data _ _)).trans
      (stop_eq_iff (by decide) (by omega))
    · refine wp_progLoad b fuel (by decide) .smap8 size pm (fun t ht => ?_) fun t k hk => nomatch hk
      refine wp_mono (wp_plainLoop8 fuel data size 0 ht) fun r u _ hu k hk => ?_
      rw [List.range_eq_range']
      exact ⟨by have := (hu k hk).1; omega, (hu k hk).2⟩
    · refine wp_progLoad b fuel (by decide) .smap8 size pm (fun t ht => ?_) fun t k hk => nomatch hk
      refine wp_mono (wp_fastLoop8 fuel data size (size + 1) 0 0#8 ht) fun r u _ hu k hk => ?_
      obtain ⟨h1, h2⟩ := hu k hk
      rw [h1, Nat.sub_zero] at h2
      exact ⟨h1, h2⟩
    · exact can_progLoad b 0 .smap8 size pm fun t _ => can_fastLoop8 0 data size _ 0 _ (by omega)
  · have hw : (List.range' 0 (stop (bytesAt data) 2 size (2 * size + 1) 0 (0#8, 0#8))).map (pairAt data) =
        (List.range size).map (pairAt data) ↔
        2 * stop (bytesAt data) 2 size (2 * size + 1) 0 (0#8, 0#8) = 2 * size := by
      rw [map_range_eq_iff]
      omega
    have hend : 2 * stop (bytesAt data) 2 size (2 * size + 1) 0 (0#8, 0#8) = 2 * size ↔
        BurstsFit (bytesAt data) (0#8, 0#8) 2 size := by
      rw [Nat.mul_left_cancel_iff (by decide)]
      exact stop_eq_iff (by decide) (by omega)
    refine (agrees_iff_count (fun fuel => ficProgSm16Load b fuel data (2 * size) pm)
      (fun fuel => ficProgSm16FastLoad b fuel data (2 * size) pm) (2 * size)
      (2 * stop (bytesAt data) 2 size (2 * size + 1) 0 (0#8, 0#8)) plainInitTest fastInitTest mask16 pm
      (fun fuel s => ?_) (fun fuel s => ?_) (fun s => ?_) hw).trans hend
    · refine wp_progLoad b fuel (by decide) .smap16 (2 * size) pm (fun t ht => ?_) fun t k hk => nomatch hk
      rw [show (2 * size + 1) / 2 = size by omega]
      refine wp_mono (wp_plainLoop16 fuel data size 0 ht) fun r u _ hu k hk => ?_
      rw [List.range_eq_range']
      exact ⟨by have := (hu k hk).1; omega, (hu k hk).2⟩
    · refine wp_progLoad b fuel (by decide) .smap16 (2 * size) pm (fun t ht => ?_) fun t k hk => nomatch hk
      refine wp_mono (wp_fastLoop16 fuel data size (2 * size + 1) 0 0#8 0#8 ht)
        fun r u _ hu k hk => ?_
      obtain ⟨h1, h2⟩ := hu k hk
      rw [show k / 2 - 0 = stop (bytesAt data) 2 size (2 * size + 1) 0 (0#8, 0#8) by omega] at h2
      exact ⟨h1, h2⟩
    · exact can_progLoad b 0 .smap16 (2 * size) pm fun t _ => can_fastLoop16 0 data size _ 0 _ _ (by omega)

/-- A bitstream of one zero byte followed by zeros: one word to deliver, sixteen clocked, and sixteen
reported. -/
theorem fast_overruns : ∃ t, (sys (samplerRb 0#32 8)).Run
      (ficProgSm8FastLoad .mk2 1 (fun _ => 0#8) 1 .normal, ⟨World.start.gpio, World.start.stat, []⟩)
      (ret (some 16), t) ∧
    t.dev = List.replicate 16 0#8 ∧ t.dev ≠ (List.range 1).map fun _ => 0#8 := by
  obtain ⟨r, t, hr, k, rfl⟩ := can_run (S := sys (samplerRb 0#32 8))
    (s := ⟨World.start.gpio, World.start.stat, []⟩) (can_progLoad .mk2 0 .smap8 1 .normal
      fun t _ => can_fastLoop8 0 (fun _ => 0#8) 1 2 0 0#8 (by decide))
  have h := wp_run_ret (wp_progLoad .mk2 1 (by decide) .smap8 1 .normal
    (fun u hu => wp_fastLoop8 1 (fun _ => 0#8) 1 2 0 0#8 hu) fun _ k hk => nomatch hk) hr k rfl
  have hk : k = 16 := h.1
  subst hk
  refine ⟨t, hr, h.2, ?_⟩
  rw [h.2]
  decide

end Libfic2
