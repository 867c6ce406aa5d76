import Mathlib.Data.List.Range

/-!
# A loop that skips over runs of equal words

`stop w top N` walks over a stream `w` from index 0 while the index is below `N`.
At a word equal to its predecessor it looks ahead, also past `N`, and skips four
words at a time, up to `4 * top`, while they are all equal; otherwise it goes on by
one.  It comes to rest at `N` or behind it.

* `stop_eq_iff`: it comes to rest at `N` exactly when the repeated words before `N`
  are a multiple of `4 * top`, or the words behind `N` do not complete the last four.
* `walkInside_iff`: it looks at no word behind `N` exactly when they are a multiple.
-/

namespace Driver.Bursts

variable {β : Type} [DecidableEq β] (w : Nat → β)

/-! ## The loop -/

/-- `w i .. w (i+n-1)` are equal. -/
def AllEq (i n : Nat) : Prop := ∀ j, j < n → w (i + j) = w i

instance (i n : Nat) : Decidable (AllEq w i n) := inferInstanceAs (Decidable (∀ j, j < n → w (i + j) = w i))

/-- How many times four equal words start at `i`, tested one by one up to `left` more than `q`. -/
def quads (i : Nat) : (left q : Nat) → Nat
  | 0, q => q
  | left + 1, q => if AllEq w i (4 * (q + 1)) then quads i left (q + 1) else q

/-- The number of words a round at `i` takes, after the word `d'`. -/
def burst (top : Nat) (d' : β) (i : Nat) : Nat :=
  if w i = d' then max 1 (4 * quads w i top 0) else 1

/-- Where the loop comes to rest, within `n` rounds. -/
def stop (top N : Nat) : (n i : Nat) → β → Nat
  | 0, i, _ => i
  | n + 1, i, d' => if i < N then stop top N n (i + burst w top d' i) (w i) else i

/-- The part `k .. m-1` of a look-ahead from `i`, which stops at the first word that differs, stays
before `N`. -/
def LooksBefore (N i k m : Nat) : Prop := ∀ j, k ≤ j → j < m → AllEq w i j → i + j < N

/-- So does a round at `i`, after the word `d'`. -/
def RoundInside (top N : Nat) (d' : β) (i : Nat) : Prop :=
  i < N ∧ (w i = d' → LooksBefore w N i 1 (4 * top))

/-- So does each of the first `n` rounds of a walk that goes on while the index is below `M`. -/
def WalkInside (top M N : Nat) : (n i : Nat) → β → Prop
  | 0, _, _ => True
  | n + 1, i, d' => i < M → RoundInside w top N d' i ∧ WalkInside top M N n (i + burst w top d' i) (w i)

/-- The word before `i`, `d0` at the start. -/
def prev (d0 : β) : Nat → β
  | 0 => d0
  | i + 1 => w i

/-- The number of words before `n` that repeat their predecessor, counted back from `n`. -/
def trailing (d0 : β) : Nat → Nat
  | 0 => 0
  | n + 1 => if w n = prev w d0 n then trailing d0 n + 1 else 0

/-! ## Look-ahead -/

section
variable {w} {i top : Nat} {d' d0 : β}

omit [DecidableEq β] in
theorem AllEq.mono {m n : Nat} (h : AllEq w i n) (hm : m ≤ n) : AllEq w i m :=
  fun j hj => h j (by omega)

omit [DecidableEq β] in
theorem allEq_one : AllEq w i 1 := fun j hj => by rw [show j = 0 by omega, Nat.add_zero]

omit [DecidableEq β] in
theorem allEq_succ {k : Nat} : AllEq w i (k + 1) ↔ AllEq w i k ∧ w (i + k) = w i := by
  refine ⟨fun h => ⟨h.mono (by omega), h k (by omega)⟩, fun h j hj => ?_⟩
  rcases Nat.lt_succ_iff_lt_or_eq.1 hj with hlt | rfl
  · exact h.1 j hlt
  · exact h.2

theorem quads_spec (left q : Nat) (h : AllEq w i (4 * q)) :
    q ≤ quads w i left q ∧ quads w i left q ≤ q + left ∧ AllEq w i (4 * quads w i left q) ∧
      (quads w i left q = q + left ∨ ¬ AllEq w i (4 * (quads w i left q + 1))) := by
  induction left generalizing q with
  | zero => exact ⟨Nat.le_refl _, Nat.le_refl _, h, .inl rfl⟩
  | succ left ih =>
    unfold quads
    split
    · next h' =>
      obtain ⟨h1, h2, h3, h4⟩ := ih (q + 1) h'
      exact ⟨by omega, by omega, h3, h4.imp_left (by omega)⟩
    · next h' => exact ⟨Nat.le_refl _, by omega, h, .inr h'⟩

omit [DecidableEq β] in
theorem allEq_zero : AllEq w i (4 * 0) := fun j hj => absurd hj (by omega)

/-- The look-ahead takes all the fours there are, up to `top`. -/
theorem quads_eq {q : Nat} (hq : q ≤ top) (h : AllEq w i (4 * q))
    (h' : q = top ∨ ¬ AllEq w i (4 * (q + 1))) : quads w i top 0 = q := by
  obtain ⟨-, h2, h3, h4⟩ := quads_spec top 0 (allEq_zero (w := w) (i := i))
  rcases Nat.lt_trichotomy (quads w i top 0) q with hlt | heq | hgt
  · rcases h4 with h4 | h4
    · omega
    · exact absurd (h.mono (by omega)) h4
  · exact heq
  · rcases h' with h' | h'
    · omega
    · exact absurd (h3.mono (by omega)) h'

theorem burst_pos (w : Nat → β) (top : Nat) (d' : β) (i : Nat) : 1 ≤ burst w top d' i := by
  unfold burst
  split <;> omega

/-- A single word, unless four equal words repeat the word before. -/
theorem burst_eq_one (htop : 0 < top) : burst w top d' i = 1 ↔ ¬ (w i = d' ∧ AllEq w i 4) := by
  unfold burst
  by_cases hrep : w i = d'
  · rw [if_pos hrep, not_and, imp_iff_right hrep]
    constructor
    · intro h h4
      obtain ⟨h1, h2, -, h3⟩ := quads_spec top 0 (allEq_zero (w := w) (i := i))
      rcases h3 with h3 | h3
      · omega
      · exact h3 (by rwa [show quads w i top 0 = 0 by omega])
    · intro h4
      rw [quads_eq (q := 0) (Nat.zero_le _) allEq_zero (.inr h4)]
      rfl
  · rw [if_neg hrep]
    exact iff_of_true rfl fun h => hrep h.1

/-- A round takes equal words only. -/
theorem burst_allEq (w : Nat → β) (top : Nat) (d' : β) (i : Nat) : AllEq w i (burst w top d' i) := by
  obtain ⟨-, -, h3, -⟩ := quads_spec top 0 (allEq_zero (w := w) (i := i))
  intro j hj
  unfold burst at hj
  split at hj
  · by_cases hj4 : j < 4 * quads w i top 0
    · exact h3 j hj4
    · rw [show j = 0 by omega, Nat.add_zero]
  · rw [show j = 0 by omega, Nat.add_zero]

/-- The word before the next round. -/
theorem prev_burst : w i = prev w d0 (i + burst w top d' i) := by
  have hpos := burst_pos w top d' i
  obtain ⟨k, hk⟩ : ∃ k, burst w top d' i = k + 1 := ⟨burst w top d' i - 1, by omega⟩
  have h := burst_allEq w top d' i k (by omega)
  rw [hk]
  exact h.symm

omit [DecidableEq β] in
/-- Inside an equal run, words repeat their predecessors. -/
theorem AllEq.repeats {n j : Nat} (h : AllEq w i n) (d0 : β) (hj : 0 < j) (hjn : j < n) :
    w (i + j) = prev w d0 (i + j) := by
  obtain ⟨k, rfl⟩ : ∃ k, j = k + 1 := ⟨j - 1, by omega⟩
  rw [h _ hjn]
  exact (h k (by omega)).symm

end

/-! ## The words before the end -/

section
variable {w} {d0 : β}

theorem trailing_le (w : Nat → β) (d0 : β) (n : Nat) : trailing w d0 n ≤ n := by
  induction n with
  | zero => exact Nat.le_refl _
  | succ n ih =>
    unfold trailing
    split <;> omega

theorem trailing_repeats (w : Nat → β) (d0 : β) (n j : Nat) (h : n - trailing w d0 n ≤ j)
    (hj : j < n) : w j = prev w d0 j := by
  induction n with
  | zero => omega
  | succ n ih =>
    unfold trailing at h
    split at h
    · next heq =>
      rcases Nat.lt_succ_iff_lt_or_eq.1 hj with hlt | rfl
      · exact ih (by omega) hlt
      · exact heq
    · omega

theorem trailing_breaks (w : Nat → β) (d0 : β) (n k : Nat) (h : k + 1 = n - trailing w d0 n) :
    w k ≠ prev w d0 k := by
  induction n with
  | zero => omega
  | succ n ih =>
    unfold trailing at h
    split at h
    · exact ih (by omega)
    · next hne =>
      obtain rfl : k = n := by omega
      exact hne

/-- The trailing words are equal. -/
theorem trailing_allEq (w : Nat → β) (d0 : β) (n i : Nat) (h : n - trailing w d0 n ≤ i)
    (hi : i ≤ n) : AllEq w i (n - i) := by
  intro j hj
  induction j with
  | zero => rfl
  | succ j ih =>
    have := trailing_repeats w d0 n (i + (j + 1)) (by omega) (by omega)
    rw [this]
    exact ih (by omega)

end

/-! ## Where the loop comes to rest -/

section
variable {w} {d0 : β} {top N : Nat}

theorem stop_end {n i : Nat} (d' : β) (h : N ≤ i) : stop w top N n i d' = i := by
  cases n with
  | zero => rfl
  | succ n =>
    unfold stop
    rw [if_neg (by omega)]

/-- One round; enough rounds are left for the rest. -/
theorem stop_round (w : Nat → β) (d0 : β) (top : Nat) {N n i : Nat} (h : i < N) (hn : N - i < n) :
    ∃ m, N - (i + burst w top (prev w d0 i) i) < m ∧
      stop w top N n i (prev w d0 i) = stop w top N m (i + burst w top (prev w d0 i) i)
        (prev w d0 (i + burst w top (prev w d0 i) i)) := by
  obtain ⟨m, rfl⟩ : ∃ m, n = m + 1 := ⟨n - 1, by omega⟩
  have := burst_pos w top (prev w d0 i) i
  refine ⟨m, by omega, ?_⟩
  rw [← prev_burst, stop, if_pos h]

/-- Repeated words from before the trailing words on end before them: the last word there does not
repeat its predecessor. -/
theorem AllEq.before_trailing {i j : Nat} (h : AllEq w i j) (hrep : w i = prev w d0 i)
    (hi : i < N - trailing w d0 N) : i + j < N - trailing w d0 N := by
  by_contra hgt
  have hbr := trailing_breaks w d0 N (N - trailing w d0 N - 1) (by omega)
  by_cases hlast : i = N - trailing w d0 N - 1
  · rw [← hlast] at hbr
    exact hbr hrep
  · refine hbr ?_
    have := h.repeats d0 (j := N - trailing w d0 N - 1 - i) (by omega) (by omega)
    rwa [show i + (N - trailing w d0 N - 1 - i) = N - trailing w d0 N - 1 by omega] at this

theorem burst_before_trailing (w : Nat → β) (d0 : β) (top : Nat) {N i : Nat}
    (hi : i < N - trailing w d0 N) : i + burst w top (prev w d0 i) i ≤ N - trailing w d0 N := by
  by_cases hrep : w i = prev w d0 i
  · exact Nat.le_of_lt ((burst_allEq w top (prev w d0 i) i).before_trailing hrep hi)
  · unfold burst
    rw [if_neg hrep]
    omega

/-- The loop does not run past the first of the trailing words. -/
theorem stop_reaches (w : Nat → β) (d0 : β) (top : Nat) {N n i : Nat}
    (hi : i ≤ N - trailing w d0 N) (hn : N - i < n) : ∃ m, trailing w d0 N < m ∧
      stop w top N n i (prev w d0 i) =
        stop w top N m (N - trailing w d0 N) (prev w d0 (N - trailing w d0 N)) := by
  have hT := trailing_le w d0 N
  induction hd : N - trailing w d0 N - i using Nat.strongRecOn generalizing i n with
  | ind d ih =>
    by_cases heq : i = N - trailing w d0 N
    · subst heq
      exact ⟨n, by omega, rfl⟩
    · obtain ⟨m, hm, hs⟩ := stop_round w d0 top (N := N) (n := n) (i := i) (by omega) hn
      have hpos := burst_pos w top (prev w d0 i) i
      have hle := burst_before_trailing w d0 top (N := N) (i := i) (by omega)
      obtain ⟨m', hm', hs'⟩ := ih _ (by omega) hle hm rfl
      exact ⟨m', hm', by rw [hs, hs']⟩

/-- The words behind `N` that would complete four. -/
theorem allEq_past (w : Nat → β) (d0 : β) {N i k : Nat} (hi : N - trailing w d0 N ≤ i) (hlt : i < N) :
    AllEq w i (N - i + k) ↔ ∀ j, j < k → w (N + j) = w (N - 1) := by
  have hin := trailing_allEq w d0 N i hi (by omega)
  have hlast : w (N - 1) = w i := by
    have := hin (N - 1 - i) (by omega)
    rwa [show i + (N - 1 - i) = N - 1 by omega] at this
  constructor
  · intro h j hj
    rw [hlast, ← h (N - i + j) (by omega), show i + (N - i + j) = N + j by omega]
  · intro h j hj
    by_cases hj' : j < N - i
    · exact hin j hj'
    · have := h (i + j - N) (by omega)
      rwa [show N + (i + j - N) = i + j by omega, hlast] at this

/-- The last words, fewer than four, are taken one by one if they are not completed behind `N`. -/
theorem stop_singles {n i : Nat} (hi : N - trailing w d0 N ≤ i) (hiN : i ≤ N) (h4 : N - i < 4)
    (hno : i < N → ¬ AllEq w i 4) (hn : N - i < n) : stop w top N n i (prev w d0 i) = N := by
  induction hr : N - i generalizing i n with
  | zero =>
    rw [stop_end _ (by omega)]
    omega
  | succ r ih =>
    have hlt : i < N := by omega
    obtain ⟨m, hm, hs⟩ := stop_round w d0 top hlt hn
    have hb : burst w top (prev w d0 i) i = 1 := by
      unfold burst
      rw [quads_eq (q := 0) (by omega) allEq_zero (.inr (hno hlt))]
      split <;> rfl
    rw [hb] at hs hm
    rw [hs]
    refine ih (by omega) (by omega) (by omega) (fun hlt' h' => hno hlt ?_) hm (by omega)
    -- four equal words from i+1 on would be four equal words from i on
    intro j hj
    have hii := trailing_allEq w d0 N i hi (by omega) 1 (by omega)
    cases j with
    | zero => rfl
    | succ j =>
      have := h' j (by omega)
      rw [show i + 1 + j = i + (j + 1) by omega] at this
      rw [this, hii]

/-- From a multiple of the longest burst inside the trailing words. -/
theorem stop_trailing (htop : 0 < top) {n i : Nat} (hi : N - trailing w d0 N ≤ i) (hiN : i ≤ N)
    (hmul : (N - i) % (4 * top) = trailing w d0 N % (4 * top)) (hn : N - i < n) :
    stop w top N n i (prev w d0 i) = N ↔
      (trailing w d0 N % (4 * top) = 0 ∨
        ¬ ∀ j, j < 4 - trailing w d0 N % 4 → w (N + j) = w (N - 1)) := by
  induction hl : N - i using Nat.strongRecOn generalizing i n with
  | ind l ih =>
    by_cases hz : i = N
    · subst hz
      rw [stop_end _ (Nat.le_refl _)]
      rw [Nat.sub_self, Nat.zero_mod] at hmul
      exact ⟨fun _ => .inl hmul.symm, fun _ => rfl⟩
    · have hlt : i < N := by omega
      obtain ⟨m, hm, hs⟩ := stop_round w d0 top hlt hn
      have hrep := trailing_repeats w d0 N i hi hlt
      have hin := trailing_allEq w d0 N i hi hiN
      by_cases hfull : 4 * top ≤ N - i
      · -- a full burst inside the buffer
        have hb : burst w top (prev w d0 i) i = 4 * top := by
          unfold burst
          rw [if_pos hrep, quads_eq (Nat.le_refl _) (hin.mono hfull) (.inl rfl)]
          omega
        rw [hb] at hs hm
        rw [hs]
        refine ih (N - (i + 4 * top)) (by omega) (by omega) (by omega) ?_ hm rfl
        rw [← hmul, show N - i = N - (i + 4 * top) + 4 * top by omega, Nat.add_mod_right]
      · have hrest : trailing w d0 N % (4 * top) = N - i := by
          rw [← hmul, Nat.mod_eq_of_lt (by omega)]
        have h4 : trailing w d0 N % 4 = (N - i) % 4 := by
          rw [← hrest, Nat.mod_mul_right_mod]
        rw [h4, ← allEq_past w d0 hi hlt, hrest,
          show N - i + (4 - (N - i) % 4) = 4 * ((N - i) / 4 + 1) by omega]
        have hq : (N - i) / 4 + 1 ≤ top := by omega
        by_cases hpast : AllEq w i (4 * ((N - i) / 4 + 1))
        · -- the burst leaves the buffer
          have hspec := quads_spec top 0 (allEq_zero (w := w) (i := i))
          have hge : (N - i) / 4 + 1 ≤ quads w i top 0 := by
            rcases hspec.2.2.2 with h | h
            · omega
            · by_contra hc
              exact h (hpast.mono (by omega))
          have hb : N < i + burst w top (prev w d0 i) i := by
            unfold burst
            rw [if_pos hrep]
            omega
          rw [hs, stop_end _ (by omega)]
          constructor
          · intro h; omega
          · rintro (h | h)
            · omega
            · exact absurd hpast h
        · refine ⟨fun _ => .inr hpast, fun _ => ?_⟩
          have hquads : quads w i top 0 = (N - i) / 4 :=
            quads_eq (by omega) (hin.mono (by omega)) (.inr hpast)
          by_cases h0 : (N - i) / 4 = 0
          · refine stop_singles hi hiN (by omega) (fun _ h => hpast ?_) hn
            rwa [h0]
          · have hb : burst w top (prev w d0 i) i = 4 * ((N - i) / 4) := by
              unfold burst
              rw [if_pos hrep, hquads]
              omega
            rw [hb] at hs hm
            rw [hs]
            refine stop_singles (by omega) (by omega) (by omega) (fun hlt' h => hpast ?_) hm
            -- four equal words behind the burst
            intro j hj
            by_cases hj' : j < N - i
            · exact hin j hj'
            · have h1 := h (j - 4 * ((N - i) / 4)) (by omega)
              rw [show i + 4 * ((N - i) / 4) + (j - 4 * ((N - i) / 4)) = i + j by omega] at h1
              rw [h1, hin (4 * ((N - i) / 4)) (by omega)]

/-- **Where the loop comes to rest.** -/
theorem stop_eq_iff (htop : 0 < top) {n : Nat} (hn : N < n) :
    stop w top N n 0 d0 = N ↔
      (trailing w d0 N % (4 * top) = 0 ∨
        ¬ ∀ j, j < 4 - trailing w d0 N % 4 → w (N + j) = w (N - 1)) := by
  obtain ⟨m, hm, hs⟩ := stop_reaches w d0 top (N := N) (n := n) (i := 0)
    (Nat.zero_le _) (by omega)
  have hT := trailing_le w d0 N
  rw [show d0 = prev w d0 0 from rfl, hs]
  refine stop_trailing htop (Nat.le_refl _) (by omega) ?_ (by omega)
  rw [show N - (N - trailing w d0 N) = trailing w d0 N by omega]

end

/-! ## What the loop looks at -/

section
variable {w} {d0 : β} {top M N : Nat}

omit [DecidableEq β] in
/-- A look-ahead in two parts: the second follows when the first finds equal words only. -/
theorem looksBefore_split {i k l m : Nat} (hkl : k ≤ l) (hlm : l ≤ m) :
    LooksBefore w N i k m ↔ LooksBefore w N i k l ∧ (AllEq w i l → LooksBefore w N i l m) := by
  constructor
  · exact fun h => ⟨fun j h1 h2 => h j h1 (by omega), fun _ j h1 h2 => h j (by omega) h2⟩
  · rintro ⟨h1, h2⟩ j hkj hjm hj
    by_cases hjl : j < l
    · exact h1 j hkj hjl hj
    · exact h2 (hj.mono (by omega)) j (by omega) hjm hj

omit [DecidableEq β] in
/-- Its first word decides whether a look-ahead goes on. -/
theorem looksBefore_succ {i k m : Nat} (hk : AllEq w i k) (hm : k < m) :
    LooksBefore w N i k m ↔ i + k < N ∧ (w (i + k) = w i → LooksBefore w N i (k + 1) m) := by
  rw [looksBefore_split (l := k + 1) (by omega) hm, allEq_succ, and_iff_right hk]
  refine and_congr_left fun _ => ⟨fun h => h k (Nat.le_refl k) (by omega) hk, fun h j h1 h2 _ => ?_⟩
  rwa [show j = k by omega]

theorem walkInside_end {n i : Nat} (d' : β) (h : M ≤ i) : WalkInside w top M N n i d' := by
  cases n with
  | zero => trivial
  | succ n => exact fun hlt => absurd hlt (by omega)

/-- One round. -/
theorem walkInside_round {n i : Nat} (h : i < M) : WalkInside w top M N (n + 1) i (prev w d0 i) ↔
    RoundInside w top N (prev w d0 i) i ∧
      WalkInside w top M N n (i + burst w top (prev w d0 i) i)
      (prev w d0 (i + burst w top (prev w d0 i) i)) := by
  rw [← prev_burst]
  exact ⟨fun hw => hw h, fun hw _ => hw⟩

/-- Before the trailing words, a look-ahead ends at a word that differs. -/
theorem roundInside_before {i : Nat} (hi : i < N - trailing w d0 N) :
    RoundInside w top N (prev w d0 i) i := by
  refine ⟨by omega, fun hrep j _ _ hj => ?_⟩
  have := hj.before_trailing hrep hi
  omega

/-- The walk up to the trailing words is inside. -/
theorem walkInside_reaches (hM : N ≤ M) {n i : Nat} (hi : i ≤ N - trailing w d0 N) (hn : M - i < n) :
    ∃ m, M - (N - trailing w d0 N) < m ∧ (WalkInside w top M N n i (prev w d0 i) ↔
      WalkInside w top M N m (N - trailing w d0 N) (prev w d0 (N - trailing w d0 N))) := by
  induction hd : N - trailing w d0 N - i using Nat.strongRecOn generalizing i n with
  | ind d ih =>
    by_cases heq : i = N - trailing w d0 N
    · subst heq
      exact ⟨n, hn, Iff.rfl⟩
    · obtain ⟨m, rfl⟩ : ∃ m, n = m + 1 := ⟨n - 1, by omega⟩
      have hlt : i < N - trailing w d0 N := by omega
      have hpos := burst_pos w top (prev w d0 i) i
      have hle := burst_before_trailing w d0 top hlt
      obtain ⟨m', hm', hiff⟩ := ih _ (by omega) hle (n := m) (by omega) rfl
      refine ⟨m', hm', ?_⟩
      rw [walkInside_round (by omega), hiff]
      exact and_iff_right (roundInside_before hlt)

/-- From a multiple of the longest burst inside the trailing words. -/
theorem walkInside_trailing (htop : 0 < top) (hM : N ≤ M) {n i : Nat}
    (hi : N - trailing w d0 N ≤ i) (hiN : i ≤ N)
    (hmul : (N - i) % (4 * top) = trailing w d0 N % (4 * top)) (hn : M - i < n) :
    WalkInside w top M N n i (prev w d0 i) ↔ M = N ∧ trailing w d0 N % (4 * top) = 0 := by
  induction hl : N - i using Nat.strongRecOn generalizing i n with
  | ind l ih =>
    obtain ⟨m, rfl⟩ : ∃ m, n = m + 1 := ⟨n - 1, by omega⟩
    rcases Nat.eq_or_lt_of_le hiN with rfl | hlt
    · rw [Nat.sub_self, Nat.zero_mod] at hmul
      constructor
      · intro h
        by_contra hne
        have := (h (by omega)).1.1
        omega
      · rintro ⟨rfl, -⟩
        exact walkInside_end _ (Nat.le_refl _)
    · have hrep := trailing_repeats w d0 N i hi hlt
      have hin := trailing_allEq w d0 N i hi hiN
      rw [walkInside_round (by omega)]
      by_cases hfull : 4 * top ≤ N - i
      · have hb : burst w top (prev w d0 i) i = 4 * top := by
          unfold burst
          rw [if_pos hrep, quads_eq (Nat.le_refl _) (hin.mono hfull) (.inl rfl)]
          omega
        have hround : RoundInside w top N (prev w d0 i) i := ⟨hlt, fun _ j _ hj _ => by omega⟩
        rw [and_iff_right hround, hb]
        refine ih _ (by omega) (by omega) (by omega) ?_ (by omega) rfl
        rw [← hmul, show N - i = N - (i + 4 * top) + 4 * top by omega, Nat.add_mod_right]
      · -- the words up to `N` are equal, so the one at `N` is looked at too
        have hrest : trailing w d0 N % (4 * top) = N - i := by
          rw [← hmul, Nat.mod_eq_of_lt (by omega)]
        constructor
        · rintro ⟨⟨-, hlook⟩, -⟩
          have := hlook hrep (N - i) (by omega) (by omega) hin
          omega
        · rintro ⟨-, h0⟩
          omega

/-- **What the loop looks at**, with `N` words to look at and rounds up to `M`. -/
theorem walkInside_iff (htop : 0 < top) (hM : N ≤ M) {n : Nat} (hn : M < n) :
    WalkInside w top M N n 0 d0 ↔ M = N ∧ trailing w d0 N % (4 * top) = 0 := by
  have hT := trailing_le w d0 N
  obtain ⟨m, hm, hiff⟩ := @walkInside_reaches β _ w d0 top M N hM n 0 (Nat.zero_le _) (by omega)
  refine hiff.trans (walkInside_trailing htop hM (Nat.le_refl _) (by omega) ?_ hm)
  rw [show N - (N - trailing w d0 N) = trailing w d0 N by omega]

end

end Driver.Bursts
