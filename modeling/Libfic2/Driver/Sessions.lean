import Libfic2.Driver.Wp

/-!
# Sessions

`each f cs` makes the calls `f c` for the `c` of a list, one after the other and whatever they answer.
`does c x r y` says what a call makes of an abstract state `x`; a `History` is a sequence of such
steps.

* `wp_each`: when each call does what `does` says, a session is a history
* `History.keeps`, `History.call`: what no call changes, and the states before and after one call
-/

namespace Driver

open Prog Sys

variable {Op : Type} {Ans : Op → Type} {γ ρ δ σ : Type}

/-- The calls of a list. -/
def Prog.each (f : γ → Prog Op Ans ρ) : List γ → Prog Op Ans (List ρ)
  | [] => ret []
  | c :: cs => f c >>= fun r => Prog.each f cs >>= fun rs => ret (r :: rs)

/-- The calls `cs` with the answers `rs` have led from `x` to `y`. -/
def History (does : γ → δ → ρ → δ → Prop) : List γ → List ρ → δ → δ → Prop
  | [], [], x, y => y = x
  | c :: cs, r :: rs, x, y => ∃ z, does c x r z ∧ History does cs rs z y
  | _, _, _, _ => False

variable {does : γ → δ → ρ → δ → Prop} {cs : List γ} {rs : List ρ} {x y : δ}

namespace History

theorem length (h : History does cs rs x y) : rs.length = cs.length := by
  induction cs generalizing rs x with
  | nil =>
    cases rs with
    | nil => rfl
    | cons r rs => exact h.elim
  | cons c cs ih =>
    cases rs with
    | nil => exact h.elim
    | cons r rs =>
      obtain ⟨z, -, hrest⟩ := h
      exact congrArg (· + 1) (ih hrest)

/-- What each call keeps. -/
theorem keeps {P : δ → Prop} (h : History does cs rs x y)
    (hkeep : ∀ c ∈ cs, ∀ x r z, does c x r z → P x → P z) (hx : P x) : P y := by
  induction cs generalizing rs x with
  | nil =>
    cases rs with
    | nil => exact (show y = x from h) ▸ hx
    | cons r rs => exact h.elim
  | cons c cs ih =>
    cases rs with
    | nil => exact h.elim
    | cons r rs =>
      obtain ⟨z, hc, hrest⟩ := h
      exact ih hrest (fun c' hc' => hkeep c' (List.mem_cons_of_mem _ hc'))
        (hkeep c (List.mem_cons_self ..) _ _ _ hc hx)

theorem append {cs' : List γ} {rs' : List ρ} {z : δ} (h : History does cs rs x y)
    (h' : History does cs' rs' y z) : History does (cs ++ cs') (rs ++ rs') x z := by
  induction cs generalizing rs x with
  | nil =>
    cases rs with
    | nil => exact (show y = x from h) ▸ h'
    | cons r rs => exact h.elim
  | cons c cs ih =>
    cases rs with
    | nil => exact h.elim
    | cons r rs =>
      obtain ⟨u, hc, hrest⟩ := h
      exact ⟨u, hc, ih hrest⟩

theorem split (h : History does cs rs x y) (k : Nat) :
    ∃ z, History does (cs.take k) (rs.take k) x z ∧ History does (cs.drop k) (rs.drop k) z y := by
  induction k generalizing cs rs x with
  | zero => exact ⟨x, rfl, h⟩
  | succ k ih =>
    cases cs with
    | nil =>
      cases rs with
      | nil => exact ⟨x, rfl, h⟩
      | cons r rs => exact h.elim
    | cons c cs =>
      cases rs with
      | nil => exact h.elim
      | cons r rs =>
        obtain ⟨z, hc, hrest⟩ := h
        obtain ⟨z', h1, h2⟩ := ih hrest
        exact ⟨z', ⟨z, hc, h1⟩, h2⟩

/-- The call number `k`. -/
theorem call (h : History does cs rs x y) {k : Nat} {c : γ} {r : ρ} (hc : cs[k]? = some c)
    (hr : rs[k]? = some r) :
    ∃ u v, History does (cs.take k) (rs.take k) x u ∧ does c u r v ∧
      History does (cs.drop (k + 1)) (rs.drop (k + 1)) v y := by
  obtain ⟨u, h1, h2⟩ := h.split k
  obtain ⟨hk, hck⟩ := List.getElem?_eq_some_iff.1 hc
  obtain ⟨hk', hrk⟩ := List.getElem?_eq_some_iff.1 hr
  rw [List.drop_eq_getElem_cons hk, List.drop_eq_getElem_cons hk', hck, hrk] at h2
  obtain ⟨v, hdoes, hrest⟩ := h2
  exact ⟨u, v, h1, hdoes, hrest⟩

/-- Two calls, and the calls between them. -/
theorem calls (h : History does cs rs x y) {k j : Nat} (hkj : k < j) {c c' : γ}
    {r r' : ρ} (hc : cs[k]? = some c)
    (hr : rs[k]? = some r) (hc' : cs[j]? = some c') (hr' : rs[j]? = some r') :
    ∃ x1 x2 x3 x4, does c x1 r x2 ∧ does c' x3 r' x4 ∧
      ∀ P : δ → Prop, (∀ i d, k < i → i < j → cs[i]? = some d → ∀ x r z, does d x r z → P x → P z) →
        P x2 → P x3 := by
  obtain ⟨x1, x2, -, h1, hrest⟩ := h.call hc hr
  have hplace : ∀ {α : Type} (l : List α), (l.drop (k + 1))[j - (k + 1)]? = l[j]? := fun l => by
    rw [List.getElem?_drop, show k + 1 + (j - (k + 1)) = j by omega]
  obtain ⟨x3, x4, hmid, h3, -⟩ := hrest.call ((hplace cs).trans hc') ((hplace rs).trans hr')
  refine ⟨x1, x2, x3, x4, h1, h3, fun P hP => hmid.keeps fun d hd => ?_⟩
  obtain ⟨i, hi⟩ := List.mem_iff_getElem?.1 hd
  rw [List.getElem?_take] at hi
  split at hi
  · rw [List.getElem?_drop] at hi
    exact hP _ d (by omega) (by omega) hi
  · cases hi

end History

/-- Calls that keep `I` and do to `view` what `does` says. -/
theorem wp_each (does : γ → δ → ρ → δ → Prop) (view : σ → δ) {S : Sys Op Ans σ} {f : γ → Prog Op Ans ρ}
    {I : σ → Prop} {s : σ} (hq : S.Quiet)
    (hf : ∀ c ∈ cs, ∀ s, I s →
      wp S (fun _ => True) (fun r t => does c (view s) r (view t) ∧ I t) (f c) s) (hs : I s) :
    wp S (fun _ => True) (fun rs t => History does cs rs (view s) (view t) ∧ I t) (each f cs) s := by
  induction cs generalizing s with
  | nil => exact wp_retQuiet hq trivial ⟨rfl, hs⟩
  | cons c cs ih =>
    refine wp_bind (wp_mono (hf c (List.mem_cons_self ..) s hs) fun r t _ ht => ?_)
    refine wp_bind (wp_mono (ih (fun c' hc' => hf c' (List.mem_cons_of_mem _ hc')) ht.2)
      fun rs u _ hu => ?_)
    exact wp_retQuiet hq trivial ⟨⟨_, ht.1, hu.1⟩, hu.2⟩

end Driver
