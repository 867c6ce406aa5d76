import Libfic2.Async

/-!
# Whose buffer a worker programs and frees

`PROG_STAT` is one record for all starts.  While a start stores its arguments there only
when no other one uses it (`Exclusive`), every start and its worker are at one of the
places of `At`, each of which says what the record and the memory then hold.

* `sound_of_calm`: with such starts, and no failure of `pthread_create`, every worker
  programs and frees its own buffer
* `async_mixes`: two starts in a row, and the first worker programs the second bitstream
-/

namespace Libfic2.Async

open Driver Prog

variable {ι : Type} [DecidableEq ι] (b : Board) (fuel : Nat)

/-! ## The property -/

/-- The entry is that of `j`. -/
structure Entry.Of (e : Entry) (j : Job) : Prop where
  smap : e.smap = j.smap
  size : e.size = j.size
  pm : e.pm = j.pm
  data : ∀ k, k < j.size → e.data k = j.data k

/-- The worker of start `i` programs what the start was given, from a buffer that stays allocated until
it has left the programming function; it frees that buffer once, and nothing else; and a start that has
failed leaves no buffer. -/
structure Sound (j : Job) (i : ι) (sh : Shared ι) (caller : A Int) (worker : Option (A Unit)) : Prop where
  started : caller = ret 0 → worker.isSome = true
  given : ∀ e, sh.entered i = some e → e.Of j
  keeps : ∀ e w, sh.entered i = some e → worker = some w → leftProgramming w = false →
    ∃ a, e.addr = some a ∧ sh.live a = some i ∧ ∀ k, k < j.size → sh.mem a k = j.data k
  freed : sh.freed i = [] ∨ sh.freed i = [some i]
  ended : worker = some (ret ()) → (sh.entered i).isSome = true ∧ sh.freed i = [some i]
  failed : caller = ret (-1) → ∀ a, sh.live a ≠ some i

/-- The first store of a start into `PROG_STAT`. -/
def storesData : Act → Bool
  | .storeData (some _) => true
  | _ => false

def createFails : (o : Act) → Answer o → Prop
  | .pthreadCreate, r => r ≠ 0
  | _, _ => False

/-- A start stores its arguments only while `PROG_STAT` is not in use. -/
def Exclusive : Cond ι := fun s _ o _ => storesData o = true → ∀ j, ¬ s.InUse j

/-- And `pthread_create` succeeds. -/
def Calm : Cond ι := fun s i o r => Exclusive s i o r ∧ ¬ createFails o r

/-! ## Places -/

section
variable (L : Prop) (j : Job) (i : ι) (sh sh' : Shared ι)

/-- `buf` is the only buffer of `i`, and its worker has freed `fr`. -/
structure Owns (buf : Option Nat) (fr : List (Option ι)) : Prop where
  live : ∀ a, sh.live a = some i ↔ buf = some a
  freed : sh.freed i = fr

/-- The buffer holds the bitstream. -/
def Filled (a : Nat) : Prop := ∀ k, k < j.size → sh.mem a k = j.data k

/-- The worker of `i` programs what it was given, from `a`. -/
def Programs (a : Nat) : Prop := ∃ e, sh.entered i = some e ∧ e.addr = some a ∧ e.Of j

/-- The buffer of `i` is `a`, with the bitstream, and the worker has not used it yet. -/
structure Ready (a : Nat) : Prop where
  owns : Owns i sh (some a) []
  filled : Filled j sh a
  fresh : sh.entered i = none

/-- `PROG_STAT` holds the arguments of `j`, copied to `a`. -/
structure Args (a : Nat) : Prop where
  progData : sh.progData = some a
  progSize : sh.stat.progSize = j.size
  progMode : sh.stat.progMode = j.pm

def startMode : A Int := do
  act (.storeMode j.pm)
  startCreate

def startSize : A Int := do
  act (.storeSize j.size)
  startMode j

def startData (a : Nat) : A Int := do
  act (.storeData (some a))
  startSize j

/-- The part of a worker after each of its loads. -/
def wrapEnter (p : Option Nat) (size : Nat) (pm : ProgMode) : A Unit := do
  let data ← act (.enter j.smap p size pm)
  wrapRun (ficProgSm b fuel j.smap data size pm)

def wrapMode (p : Option Nat) (size : Nat) : A Unit := do
  let pm ← act .loadMode
  wrapEnter b fuel j p size pm

def wrapSize (p : Option Nat) : A Unit := do
  let size ← act .loadSize
  wrapMode b fuel j p size

/-- Where a start and its worker are, and what is shared then.  `L` allows a buffer to be left behind. -/
inductive At : A Int → Option (A Unit) → Prop
  | outside : Owns i sh none [] → sh.entered i = none → At (ficProgSmAsync j) none
  | noMemory : Owns i sh none [] → sh.entered i = none → At startFail none
  | failed : Owns i sh none [] → sh.entered i = none → At (ret (-1)) none
  | copying {a : Nat} : Owns i sh (some a) [] → sh.entered i = none → At (startCopy j a) none
  | storing {a : Nat} : Ready j i sh a → At (startData j a) none
  | sizing {a : Nat} : Ready j i sh a → sh.progData = some a → At (startSize j) none
  | moding {a : Nat} : Ready j i sh a → sh.progData = some a →
      sh.stat.progSize = j.size → At (startMode j) none
  | creating {a : Nat} : Ready j i sh a → Args j sh a → At startCreate none
  | leaked {a : Nat} : L → Ready j i sh a → At (ret (-1)) none
  | loading {a : Nat} : Ready j i sh a → Args j sh a → At (ret 0) (some (ficProgSmAsyncWrap b fuel j.smap))
  | loaded {a : Nat} : Ready j i sh a → Args j sh a → At (ret 0) (some (wrapSize b fuel j (some a)))
  | sized {a : Nat} : Ready j i sh a → Args j sh a → At (ret 0) (some (wrapMode b fuel j (some a) j.size))
  | entering {a : Nat} : Ready j i sh a → Args j sh a →
      At (ret 0) (some (wrapEnter b fuel j (some a) j.size j.pm))
  | programming {a : Nat} {p : P Nat} : Owns i sh (some a) [] → Filled j sh a →
      Programs j i sh a → sh.progData = some a → At (ret 0) (some (wrapRun p))
  | freed {a : Nat} : Owns i sh none [some i] → Programs j i sh a →
      At (ret 0) (some (act (.storeData none)))
  | ended {a : Nat} : Owns i sh none [some i] → Programs j i sh a → At (ret 0) (some (ret ()))

end

/-! ## What a step leaves alone -/

/-- What `i` does not share with the others is the same. -/
structure SamePrivate (i : ι) (sh sh' : Shared ι) : Prop where
  live : ∀ a, sh'.live a = some i ↔ sh.live a = some i
  mem : ∀ a, sh.live a = some i → sh'.mem a = sh.mem a
  freed : sh'.freed i = sh.freed i
  entered : sh'.entered i = sh.entered i

/-- The arguments in `PROG_STAT` are the same. -/
structure SameRecord (sh sh' : Shared ι) : Prop where
  progData : sh'.progData = sh.progData
  progSize : sh'.stat.progSize = sh.stat.progSize
  progMode : sh'.stat.progMode = sh.stat.progMode

section
variable {L : Prop} {j : Job} {i : ι} {sh sh' : Shared ι} {buf : Option Nat}
    {fr : List (Option ι)} {a : Nat}

omit [DecidableEq ι] in
theorem Owns.frame (h : Owns i sh buf fr) (hp : SamePrivate i sh sh') : Owns i sh' buf fr :=
  ⟨fun a => (hp.live a).trans (h.live a), hp.freed.trans h.freed⟩

omit [DecidableEq ι] in
theorem Filled.frame (h : Filled j sh a) (ho : sh.live a = some i) (hp : SamePrivate i sh sh') :
    Filled j sh' a := by
  intro k hk
  rw [hp.mem a ho]
  exact h k hk

omit [DecidableEq ι] in
theorem Ready.frame (h : Ready j i sh a) (hp : SamePrivate i sh sh') : Ready j i sh' a :=
  ⟨h.owns.frame hp, h.filled.frame ((h.owns.live a).2 rfl) hp, hp.entered.trans h.fresh⟩

omit [DecidableEq ι] in
theorem Programs.frame (h : Programs j i sh a) (hp : SamePrivate i sh sh') : Programs j i sh' a := by
  obtain ⟨e, he, ha, hof⟩ := h
  exact ⟨e, hp.entered.trans he, ha, hof⟩

omit [DecidableEq ι] in
theorem Args.frame (h : Args j sh a) (hr : SameRecord sh sh') : Args j sh' a :=
  ⟨hr.progData.trans h.progData, hr.progSize.trans h.progSize, hr.progMode.trans h.progMode⟩

omit [DecidableEq ι] in
variable {b fuel} in
/-- Another one's step: the place is kept, if the record is the same as long as it is in use. -/
theorem At.frame {c : A Int} {w : Option (A Unit)} (h : At b fuel L j i sh c w) (hp : SamePrivate i sh sh')
    (hr : fillsRecord c = true ∨ running w = true → SameRecord sh sh') : At b fuel L j i sh' c w := by
  cases h with
  | outside ho he => exact .outside (ho.frame hp) (hp.entered.trans he)
  | noMemory ho he => exact .noMemory (ho.frame hp) (hp.entered.trans he)
  | failed ho he => exact .failed (ho.frame hp) (hp.entered.trans he)
  | copying ho he => exact .copying (ho.frame hp) (hp.entered.trans he)
  | storing hy => exact .storing (hy.frame hp)
  | sizing hy hd =>
    have hr := hr (.inl rfl)
    exact .sizing (hy.frame hp) (hr.progData.trans hd)
  | moding hy hd hs =>
    have hr := hr (.inl rfl)
    exact .moding (hy.frame hp) (hr.progData.trans hd) (hr.progSize.trans hs)
  | creating hy ha => exact .creating (hy.frame hp) (ha.frame (hr (.inl rfl)))
  | leaked hL hy => exact .leaked hL (hy.frame hp)
  | loading hy ha => exact .loading (hy.frame hp) (ha.frame (hr (.inr rfl)))
  | loaded hy ha => exact .loaded (hy.frame hp) (ha.frame (hr (.inr rfl)))
  | sized hy ha => exact .sized (hy.frame hp) (ha.frame (hr (.inr rfl)))
  | entering hy ha => exact .entering (hy.frame hp) (ha.frame (hr (.inr rfl)))
  | @programming a p ho hf hg hd =>
    have hrun : running (some (wrapRun p)) = true := by cases p <;> rfl
    have hr := hr (.inr hrun)
    exact .programming (ho.frame hp) (hf.frame ((ho.live a).2 rfl) hp) (hg.frame hp) (hr.progData.trans hd)
  | freed ho hg => exact .freed (ho.frame hp) (hg.frame hp)
  | ended ho hg => exact .ended (ho.frame hp) (hg.frame hp)

end

/-! ## One step -/

section
variable {L : Prop} {j : Job} {i : ι} {sh sh' : Shared ι} {buf : Option Nat}
    {fr : List (Option ι)} {a : Nat}

/-- A step of `i`: it leaves what belongs to the others, and the record unless it uses it. -/
structure Moves (i : ι) (uses : Prop) (sh sh' : Shared ι) : Prop where
  others : ∀ i', i' ≠ i → SamePrivate i' sh sh'
  record : ¬ uses → SameRecord sh sh'

omit [DecidableEq ι] in
/-- Stores into `PROG_STAT` are not private. -/
theorem samePrivate_store {st : ProgStat} {q : Option Nat}
    (hp : sh' = { sh with stat := st, progData := q }) (i : ι) : SamePrivate i sh sh' := by
  subst hp
  exact ⟨fun _ => Iff.rfl, fun _ _ => rfl, rfl, rfl⟩

omit [DecidableEq ι] in
theorem moves_store {uses : Prop} {st : ProgStat} {q : Option Nat}
    (hp : sh' = { sh with stat := st, progData := q })
    (hr : ¬ uses → SameRecord sh sh') : Moves i uses sh sh' :=
  ⟨fun i' _ => samePrivate_store hp i', hr⟩

omit [DecidableEq ι] in
theorem moves_refl (i : ι) (uses : Prop) (sh : Shared ι) : Moves i uses sh sh :=
  moves_store rfl fun _ => ⟨rfl, rfl, rfl⟩

omit [DecidableEq ι] in
/-- `malloc` makes the buffer of `i`. -/
theorem Owns.malloc (h : Owns i sh none []) (ha : sh.live a = none) :
    Owns i { sh with live := Function.update sh.live a (some i) } (some a) [] := by
  refine ⟨fun a' => ?_, h.freed⟩
  by_cases hb : a' = a
  · subst hb
    simp
  · have hne : some a ≠ some a' := fun e => hb (Option.some.inj e).symm
    show Function.update sh.live a (some i) a' = some i ↔ some a = some a'
    rw [Function.update_of_ne hb]
    exact ⟨fun hl => absurd ((h.live a').1 hl) (by simp), fun e => absurd e hne⟩

omit [DecidableEq ι] in
theorem moves_malloc {uses : Prop} (ha : sh.live a = none) :
    Moves i uses sh { sh with live := Function.update sh.live a (some i) } := by
  refine ⟨fun i' hi' => ⟨fun a' => ?_, fun _ _ => rfl, rfl, rfl⟩, fun _ => ⟨rfl, rfl, rfl⟩⟩
  show Function.update sh.live a (some i) a' = some i' ↔ sh.live a' = some i'
  by_cases hb : a' = a
  · subst hb
    rw [Function.update_self, ha]
    exact ⟨fun e => absurd (Option.some.inj e).symm hi', fun e => nomatch e⟩
  · rw [Function.update_of_ne hb]

/-- `free` releases the buffer of `i`. -/
theorem Owns.free (h : Owns i sh (some a) []) :
    Owns i { sh with
      live := Function.update sh.live a none
      freed := Function.update sh.freed i (sh.live a :: sh.freed i) } none [some i] := by
  refine ⟨fun a' => ?_, ?_⟩
  · show Function.update sh.live a none a' = some i ↔ none = some a'
    by_cases hb : a' = a
    · subst hb
      simp
    · rw [Function.update_of_ne hb]
      exact ⟨fun hl => absurd (Option.some.inj ((h.live a').1 hl)).symm hb, fun e => by cases e⟩
  · show Function.update sh.freed i (sh.live a :: sh.freed i) i = [some i]
    rw [Function.update_self, (h.live a).2 rfl, h.freed]

theorem moves_free {uses : Prop} (ha : sh.live a = some i) :
    Moves i uses sh { sh with
      live := Function.update sh.live a none
      freed := Function.update sh.freed i (sh.live a :: sh.freed i) } := by
  refine ⟨fun i' hi' => ⟨fun a' => ?_, fun _ _ => rfl, ?_, rfl⟩, fun _ => ⟨rfl, rfl, rfl⟩⟩
  · show Function.update sh.live a none a' = some i' ↔ sh.live a' = some i'
    by_cases hb : a' = a
    · subst hb
      rw [Function.update_self, ha]
      exact ⟨fun e => (nomatch e), fun e => absurd (Option.some.inj e).symm hi'⟩
    · rw [Function.update_of_ne hb]
  · show Function.update sh.freed i _ i' = sh.freed i'
    rw [Function.update_of_ne hi']

omit [DecidableEq ι] in
/-- `memcpy` to the buffer of `i`. -/
theorem moves_memcpy {uses : Prop} {m : Mem} (ha : sh.live a = some i) :
    Moves i uses sh { sh with mem := Function.update sh.mem a m } := by
  refine ⟨fun i' hi' => ⟨fun _ => Iff.rfl, fun a' ho => ?_, rfl, rfl⟩, fun _ => ⟨rfl, rfl, rfl⟩⟩
  have hne : a' ≠ a := by
    rintro rfl
    exact hi' (Option.some.inj (ho.symm.trans ha))
  exact Function.update_of_ne hne ..

theorem moves_enter {uses : Prop} {e : Option Entry} :
    Moves i uses sh { sh with entered := Function.update sh.entered i e } := by
  refine ⟨fun i' hi' => ⟨fun _ => Iff.rfl, fun _ _ => rfl, rfl, ?_⟩, fun _ => ⟨rfl, rfl, rfl⟩⟩
  exact Function.update_of_ne hi' ..

/-- The programming function writes `PROG_STAT`, but not `prog_data`. -/
theorem perform_gpio {o : Op} {r : Ans o} (hp : sh.perform i (.gpio o) r sh') :
    ∃ st, sh' = { sh with stat := st, progData := sh.progData } := by
  cases o with
  | stat f => exact ⟨_, hp⟩
  | _ => exact ⟨_, hp⟩

theorem perform_free {r : Unit} (hd : sh.progData = some a) (hp : sh.perform i .freeData r sh') :
    sh' = { sh with
    live := Function.update sh.live a none
    freed := Function.update sh.freed i (sh.live a :: sh.freed i) } := by
  unfold Shared.perform at hp
  dsimp only at hp
  split at hp
  · next hnone =>
    rw [hd] at hnone
    cases hnone
  · next a' hsome =>
    obtain rfl : a = a' := Option.some.inj (hd.symm.trans hsome)
    exact hp

variable {b fuel}

/-- A statement of a start. -/
theorem At.caller_step {c : A Int} {w : Option (A Unit)} {o : Act} {k : Answer o → A Int} {r : Answer o}
    (h : At b fuel L j i sh c w) (hc : c = op o k) (hL : createFails o r → L) (hp : sh.perform i o r sh') :
    At b fuel L j i sh' (k r) (created b fuel j.smap o r w) ∧
    Moves i (fillsRecord c = true ∨ storesData o = true) sh sh' ∧
      (fillsRecord (k r) = true ∨ running (created b fuel j.smap o r w) = true → fillsRecord c = true ∨
      storesData o = true) := by
  have none_used : fillsRecord (ret (-1)) = true ∨ running none = true → fillsRecord c = true ∨
      storesData o = true := by
    rintro (h | h) <;> cases h
  cases h with
  | outside ho he =>
    cases hc
    cases r with
    | none =>
      obtain rfl : sh' = sh := hp
      exact ⟨.noMemory ho he, moves_refl .., none_used⟩
    | some a =>
      obtain ⟨ha, rfl⟩ := hp
      exact ⟨.copying (ho.malloc ha) he, moves_malloc ha, none_used⟩
  | noMemory ho he =>
    cases hc
    have hsame := samePrivate_store hp i
    refine ⟨.failed (ho.frame hsame) (hsame.entered.trans he), moves_store hp fun _ => ?_, none_used⟩
    obtain rfl : sh' = _ := hp
    exact ⟨rfl, rfl, rfl⟩
  | failed ho he => cases hc
  | @copying a ho he =>
    cases hc
    obtain rfl : sh' = _ := hp
    refine ⟨.storing ⟨⟨ho.live, ho.freed⟩, fun k hk => ?_, he⟩, moves_memcpy ((ho.live a).2 rfl), none_used⟩
    show Function.update sh.mem a _ a k = j.data k
    rw [Function.update_self, if_pos hk]
  | storing hy =>
    cases hc
    exact ⟨.sizing (hy.frame (samePrivate_store hp i)) (congrArg Shared.progData hp),
      moves_store hp fun hn => absurd (.inr rfl) hn, fun _ => .inr rfl⟩
  | sizing hy hd =>
    cases hc
    have hy' := hy.frame (samePrivate_store hp i)
    refine ⟨?_, moves_store hp fun hn => absurd (.inl rfl) hn, fun _ => .inl rfl⟩
    obtain rfl : sh' = _ := hp
    exact .moding hy' hd rfl
  | moding hy hd hs =>
    cases hc
    have hy' := hy.frame (samePrivate_store hp i)
    refine ⟨?_, moves_store hp fun hn => absurd (.inl rfl) hn, fun _ => .inl rfl⟩
    obtain rfl : sh' = _ := hp
    exact .creating hy' ⟨hd, hs, rfl⟩
  | creating hy ha =>
    cases hc
    obtain rfl : sh' = sh := hp
    refine ⟨?_, moves_refl .., fun _ => .inl rfl⟩
    show At b fuel L j i sh' (if r ≠ 0 then ret (-1) else ret 0)
      (if r = 0 then some (ficProgSmAsyncWrap b fuel j.smap) else none)
    by_cases hr : r = 0
    · rw [if_neg (not_not.2 hr), if_pos hr]
      exact .loading hy ha
    · rw [if_pos hr, if_neg hr]
      exact .leaked (hL hr) hy
  | leaked hL hy => cases hc
  | loading hy ha => cases hc
  | loaded hy ha => cases hc
  | sized hy ha => cases hc
  | entering hy ha => cases hc
  | programming ho hf hg hd => cases hc
  | freed ho hg => cases hc
  | ended ho hg => cases hc

/-- A statement of a worker. -/
theorem At.worker_step {c : A Int} {w : Option (A Unit)} {o : Act} {k : Answer o → A Unit} {r : Answer o}
    (h : At b fuel L j i sh c w) (hw : w = some (op o k)) (hp : sh.perform i o r sh') :
    At b fuel L j i sh' c (some (k r)) ∧ Moves i (running w = true) sh sh' := by
  cases h with
  | outside ho he => cases hw
  | noMemory ho he => cases hw
  | failed ho he => cases hw
  | copying ho he => cases hw
  | storing hy => cases hw
  | sizing hy hd => cases hw
  | moding hy hd hs => cases hw
  | creating hy ha => cases hw
  | leaked hL hy => cases hw
  | loading hy ha =>
    cases hw
    obtain ⟨rfl, rfl⟩ := hp
    rw [ha.progData]
    exact ⟨.loaded hy ha, moves_refl ..⟩
  | loaded hy ha =>
    cases hw
    obtain ⟨rfl, rfl⟩ := hp
    rw [ha.progSize]
    exact ⟨.sized hy ha, moves_refl ..⟩
  | sized hy ha =>
    cases hw
    obtain ⟨rfl, rfl⟩ := hp
    rw [ha.progMode]
    exact ⟨.entering hy ha, moves_refl ..⟩
  | @entering a hy ha =>
    cases hw
    obtain ⟨hdata, rfl⟩ := hp
    refine ⟨.programming ⟨hy.owns.live, hy.owns.freed⟩ hy.filled ⟨_, Function.update_self .., rfl, rfl,
      rfl, rfl, fun k hk => ?_⟩ ha.progData, moves_enter⟩
    show r k = j.data k
    rw [hdata a rfl]
    exact hy.filled k hk
  | @programming a p ho hf hg hd =>
    cases p with
    | ret n =>
      cases hw
      obtain rfl := perform_free hd hp
      exact ⟨.freed ho.free hg, moves_free ((ho.live a).2 rfl)⟩
    | op o' k' =>
      cases hw
      obtain ⟨st, hst⟩ := perform_gpio hp
      have hsame := samePrivate_store hst i
      refine ⟨.programming (ho.frame hsame) (hf.frame ((ho.live a).2 rfl) hsame) (hg.frame hsame) ?_,
        moves_store hst fun hn => absurd rfl hn⟩
      rw [hst]
      exact hd
    | hang => cases hw
  | @freed a ho hg =>
    cases hw
    have hsame := samePrivate_store hp i
    exact ⟨.ended (ho.frame hsame) (hg.frame hsame), moves_store hp fun hn => absurd rfl hn⟩
  | ended ho hg => cases hw

end

/-! ## Every run -/

section
variable {b fuel} {L : Prop} {jobs : ι → Job} {C : Cond ι} {s s' : State ι}

/-- Every start and its worker are at their place, and at most one uses the record. -/
structure Inv (b : Board) (fuel : Nat) (L : Prop) (jobs : ι → Job) (s : State ι) : Prop where
  places : ∀ i, At b fuel L (jobs i) i s.shared (s.caller i) (s.worker i)
  one : ∀ i i', s.InUse i → s.InUse i' → i = i'

omit [DecidableEq ι] in
theorem inv_start : Inv b fuel L jobs (State.start jobs) := by
  refine ⟨fun i => .outside ⟨fun a => ?_, rfl⟩ rfl, fun i _ h => ?_⟩
  · exact ⟨fun h => (nomatch h), fun h => (nomatch h)⟩
  · rcases h with h | h <;> cases h

/-- A move of `i`. -/
theorem Inv.move (h : Inv b fuel L jobs s) {i : ι} {c : A Int} {w : Option (A Unit)}
    {sh : Shared ι} {uses : Prop} (hat : At b fuel L (jobs i) i sh c w) (hm : Moves i uses s.shared sh)
    (huse : uses → ∀ i', i' ≠ i → ¬ s.InUse i') (hafter : fillsRecord c = true ∨ running w = true → uses) :
    Inv b fuel L jobs ⟨Function.update s.caller i c, Function.update s.worker i w, sh⟩ := by
  have other : ∀ i', i' ≠ i → Function.update s.caller i c i' = s.caller i' ∧
      Function.update s.worker i w i' = s.worker i' :=
    fun i' hi' => ⟨Function.update_of_ne hi' .., Function.update_of_ne hi' ..⟩
  refine ⟨fun i' => ?_, fun i1 i2 h1 h2 => ?_⟩
  · dsimp only
    by_cases hi' : i' = i
    · subst hi'
      rw [Function.update_self, Function.update_self]
      exact hat
    · rw [(other i' hi').1, (other i' hi').2]
      exact (h.places i').frame (hm.others i' hi') fun hin => hm.record fun hu => huse hu i' hi' hin
  · -- of two users one would be `i`, and the other one a user before
    have user : ∀ i', i' ≠ i → fillsRecord (Function.update s.caller i c i') = true ∨
        running (Function.update s.worker i w i') = true → s.InUse i' := by
      intro i' hi' hin
      rwa [(other i' hi').1, (other i' hi').2] at hin
    have self : fillsRecord (Function.update s.caller i c i) = true ∨
        running (Function.update s.worker i w i) = true → uses := by
      rw [Function.update_self, Function.update_self]
      exact hafter
    by_cases e1 : i1 = i
    · by_cases e2 : i2 = i
      · rw [e1, e2]
      · exact absurd (user i2 e2 h2) (huse (self (e1 ▸ h1)) i2 e2)
    · by_cases e2 : i2 = i
      · exact absurd (user i1 e1 h1) (huse (self (e2 ▸ h2)) i1 e1)
      · exact h.one i1 i2 (user i1 e1 h1) (user i2 e2 h2)

theorem Inv.step (h : Inv b fuel L jobs s) (hs : State.Step b fuel jobs C s s')
    (hC : ∀ i o r, C s i o r → Exclusive s i o r ∧ (createFails o r → L)) : Inv b fuel L jobs s' := by
  cases hs with
  | @caller i o k r sh hc hcond hp =>
    obtain ⟨hex, hL⟩ := hC i o r hcond
    obtain ⟨hat, hm, hafter⟩ := (h.places i).caller_step hc hL hp
    refine h.move hat hm (fun hu i' hi' hin => ?_) hafter
    rcases hu with hu | hu
    · exact hi' (h.one i' i hin (.inl hu))
    · exact hex hu i' hin
  | @worker i o k r sh hw hcond hp =>
    obtain ⟨hat, hm⟩ := (h.places i).worker_step hw hp
    have hrun : running (s.worker i) = true := by rw [hw]; rfl
    have hmove := h.move hat hm (fun _ i' hi' hin => hi' (h.one i' i hin (.inr hrun))) fun _ => hrun
    rwa [Function.update_eq_self] at hmove

theorem inv_reached (hr : Reached b fuel jobs C s)
    (hC : ∀ t i o r, C t i o r → Exclusive t i o r ∧ (createFails o r → L)) : Inv b fuel L jobs s := by
  induction hr with
  | refl => exact inv_start
  | tail _ hs ih => exact ih.step hs fun i o r => hC _ i o r

omit [DecidableEq ι] in
theorem Owns.failed {i : ι} {sh : Shared ι} {fr : List (Option ι)} (h : Owns i sh none fr) (a : Nat) :
    sh.live a ≠ some i := by
  intro hl
  cases (h.live a).1 hl

omit [DecidableEq ι] in
/-- Before the worker calls the programming function. -/
theorem sound_before {j : Job} {i : ι} {sh : Shared ι} {c : A Int} {w : Option (A Unit)}
    (he : sh.entered i = none)
    (hf : sh.freed i = []) (hw : w ≠ some (ret ())) (hs : c = ret 0 → w.isSome = true)
    (hfail : c = ret (-1) → ∀ a, sh.live a ≠ some i) : Sound j i sh c w where
  started := hs
  given e h := by rw [he] at h; cases h
  keeps e _ h := by rw [he] at h; cases h
  freed := .inl hf
  ended h := absurd h hw
  failed := hfail

omit [DecidableEq ι] in
/-- After the worker has freed its buffer. -/
theorem sound_after {j : Job} {i : ι} {sh : Shared ι} {w : A Unit} {a : Nat} (hg : Programs j i sh a)
    (hf : sh.freed i = [some i]) (hleft : leftProgramming w = true) : Sound j i sh (ret 0) (some w) := by
  obtain ⟨e, he, -, hof⟩ := hg
  constructor
  · exact fun _ => rfl
  · intro e' he'
    obtain rfl : e' = e := Option.some.inj (he'.symm.trans he)
    exact hof
  · intro e' w' _ hw hin
    obtain rfl : w = w' := Option.some.inj hw
    rw [hleft] at hin
    cases hin
  · exact .inr hf
  · exact fun _ => ⟨by rw [he]; rfl, hf⟩
  · exact nofun

omit [DecidableEq ι] in
/-- Every place, but that of a leak. -/
theorem At.sound {j : Job} {i : ι} {sh : Shared ι} {c : A Int} {w : Option (A Unit)}
    (h : At b fuel False j i sh c w) : Sound j i sh c w := by
  cases h with
  | outside ho he => exact sound_before he ho.freed nofun nofun nofun
  | noMemory ho he => exact sound_before he ho.freed nofun nofun nofun
  | failed ho he => exact sound_before he ho.freed nofun nofun fun _ => ho.failed
  | copying ho he => exact sound_before he ho.freed nofun nofun nofun
  | storing hy => exact sound_before hy.fresh hy.owns.freed nofun nofun nofun
  | sizing hy hd => exact sound_before hy.fresh hy.owns.freed nofun nofun nofun
  | moding hy hd hs => exact sound_before hy.fresh hy.owns.freed nofun nofun nofun
  | creating hy ha => exact sound_before hy.fresh hy.owns.freed nofun nofun nofun
  | leaked hL hy => exact hL.elim
  | loading hy ha => exact sound_before hy.fresh hy.owns.freed nofun (fun _ => rfl) nofun
  | loaded hy ha => exact sound_before hy.fresh hy.owns.freed nofun (fun _ => rfl) nofun
  | sized hy ha => exact sound_before hy.fresh hy.owns.freed nofun (fun _ => rfl) nofun
  | entering hy ha => exact sound_before hy.fresh hy.owns.freed nofun (fun _ => rfl) nofun
  | @programming a p ho hf hg hd =>
    obtain ⟨e, he, ha, hof⟩ := hg
    have same : ∀ e', sh.entered i = some e' → e' = e := fun e' he' => Option.some.inj (he'.symm.trans he)
    constructor
    · exact fun _ => rfl
    · intro e' he'
      rw [same e' he']
      exact hof
    · intro e' w he' _ _
      rw [same e' he']
      exact ⟨a, ha, (ho.live a).2 rfl, hf⟩
    · exact .inl ho.freed
    · intro hw
      cases p <;> cases hw
    · exact nofun
  | freed ho hg => exact sound_after hg ho.freed rfl
  | ended ho hg => exact sound_after hg ho.freed rfl

/-- **Every worker programs and frees its own buffer**, in every run in which a start stores its
arguments only while `PROG_STAT` is not in use and `pthread_create` does not fail. -/
theorem sound_of_calm (hr : Reached b fuel jobs Calm s) (i : ι) :
    Sound (jobs i) i s.shared (s.caller i) (s.worker i) := by
  have hinv : Inv b fuel False jobs s := inv_reached hr fun t i o r hc => ⟨hc.1, hc.2⟩
  exact (hinv.places i).sound

end

/-! ## Such runs -/

/-- A statement that none of the conditions is about. -/
def unguarded : Act → Bool
  | .malloc _ => false
  | .storeData p => p.isNone
  | .pthreadCreate => false
  | _ => true

omit [DecidableEq ι] in
theorem exclusive_of_unguarded {u : State ι} {i : ι} {o : Act} {r : Answer o}
    (ho : unguarded o = true) : Exclusive u i o r := by
  intro hs
  cases o with
  | storeData p =>
    cases p with
    | none => cases hs
    | some d => cases ho
  | _ => cases hs

theorem creates_of_unguarded {o : Act} {r : Answer o} (ho : unguarded o = true) : ¬ createFails o r := by
  intro hf
  cases o with
  | pthreadCreate => cases ho
  | _ => exact hf

/-- What a start that succeeds with the buffer `a` leaves. -/
def Shared.started (sh : Shared ι) (i : ι) (j : Job) (a : Nat) : Shared ι where
  stat := { sh.stat with progSize := j.size, progMode := j.pm }
  progData := some a
  mem := Function.update sh.mem a fun k => if k < j.size then j.data k else sh.mem a k
  live := Function.update sh.live a (some i)
  freed := sh.freed
  entered := sh.entered

/-- And what a worker leaves that has called the programming function. -/
def Shared.enters (sh : Shared ι) (i : ι) (e : Entry) : Shared ι :=
  { sh with entered := Function.update sh.entered i (some e) }

section
variable (jobs : ι → Job) (C : Cond ι) (i : ι)

/-- From `s` to `t` only start `i` and its worker have moved. -/
structure Alone (s t : State ι) : Prop where
  run : Relation.ReflTransGen (State.Step b fuel jobs C) s t
  caller : ∀ i', i' ≠ i → t.caller i' = s.caller i'
  worker : ∀ i', i' ≠ i → t.worker i' = s.worker i'

end

section
variable {b fuel} {jobs : ι → Job} {C : Cond ι} {s t : State ι} {i : ι} {o : Act}
    {r : Answer o} {sh : Shared ι}

theorem Alone.refl (s : State ι) : Alone b fuel jobs C i s s := ⟨.refl, fun _ _ => rfl, fun _ _ => rfl⟩

/-- A statement of a start that creates no worker. -/
theorem Alone.caller_step (h : Alone b fuel jobs C i s t) {k : Answer o → A Int}
    (hc : t.caller i = op o k) (hcond : C t i o r)
    (hp : t.shared.perform i o r sh) (hw : created b fuel (jobs i).smap o r (t.worker i) = t.worker i) :
    ∃ u, Alone b fuel jobs C i s u ∧ u.caller i = k r ∧ u.worker i = t.worker i ∧ u.shared = sh := by
  refine ⟨_, ⟨h.run.tail (.caller hc hcond hp), fun i' hi' => ?_, fun i' hi' => ?_⟩,
    Function.update_self .., ?_, rfl⟩
  · exact (Function.update_of_ne hi' ..).trans (h.caller i' hi')
  · exact (Function.update_of_ne hi' ..).trans (h.worker i' hi')
  · exact (Function.update_self ..).trans hw

theorem Alone.create (h : Alone b fuel jobs C i s t) (hc : t.caller i = startCreate)
    (hcond : C t i .pthreadCreate (0 : Int)) :
    ∃ u, Alone b fuel jobs C i s u ∧ u.caller i = ret 0 ∧
      u.worker i = some (ficProgSmAsyncWrap b fuel (jobs i).smap) ∧ u.shared = t.shared := by
  refine ⟨_, ⟨h.run.tail (.caller hc hcond rfl), fun i' hi' => ?_, fun i' hi' => ?_⟩,
    Function.update_self .., Function.update_self .., rfl⟩
  · exact (Function.update_of_ne hi' ..).trans (h.caller i' hi')
  · exact (Function.update_of_ne hi' ..).trans (h.worker i' hi')

theorem Alone.worker_step (h : Alone b fuel jobs C i s t) {k : Answer o → A Unit}
    (hw : t.worker i = some (op o k)) (hcond : C t i o r) (hp : t.shared.perform i o r sh) :
    ∃ u, Alone b fuel jobs C i s u ∧ u.caller i = t.caller i ∧ u.worker i = some (k r) ∧ u.shared = sh := by
  refine ⟨_, ⟨h.run.tail (.worker hw hcond hp), fun i' hi' => h.caller i' hi', fun i' hi' => ?_⟩, rfl,
    Function.update_self .., rfl⟩
  exact (Function.update_of_ne hi' ..).trans (h.worker i' hi')

/-- A start up to `pthread_create`. -/
theorem Alone.store (h : Alone b fuel jobs C i s t) {a : Nat}
    (hc : t.caller i = ficProgSmAsync (jobs i)) (hw : t.worker i = none)
    (ha : t.shared.live a = none) (hM : C t i (.malloc (jobs i).size) (some a))
    (hC : ∀ u o r, unguarded o = true → C u i o r)
    (hC' : ∀ u p, Alone b fuel jobs C i s u → fillsRecord (u.caller i) = false → u.worker i = none →
      C u i (.storeData p) ()) :
    ∃ u, Alone b fuel jobs C i s u ∧ u.caller i = startCreate ∧
      u.shared = t.shared.started i (jobs i) a := by
  have hmalloc : t.shared.perform i (.malloc (jobs i).size) (some a)
      { t.shared with live := Function.update t.shared.live a (some i) } := ⟨ha, rfl⟩
  obtain ⟨t1, h, hc, hw1, hsh1⟩ := h.caller_step hc hM hmalloc rfl
  obtain ⟨t2, h, hc, hw2, hsh2⟩ :=
    h.caller_step (o := .memcpy a (jobs i).data (jobs i).size) (r := ()) hc (hC _ _ _ rfl) rfl rfl
  have hcond := hC' t2 (some a) h (by rw [hc]; rfl) (hw2.trans (hw1.trans hw))
  obtain ⟨t3, h, hc, -, hsh3⟩ := h.caller_step hc hcond rfl rfl
  obtain ⟨t4, h, hc, -, hsh4⟩ :=
    h.caller_step (o := .storeSize (jobs i).size) (r := ()) hc (hC _ _ _ rfl) rfl rfl
  obtain ⟨t5, h, hc, -, hsh5⟩ :=
    h.caller_step (o := .storeMode (jobs i).pm) (r := ()) hc (hC _ _ _ rfl) rfl rfl
  exact ⟨t5, h, hc, by rw [hsh5, hsh4, hsh3, hsh2, hsh1]; rfl⟩

/-- A worker up to its call of the programming function. -/
theorem Alone.enter (h : Alone b fuel jobs C i s t) {a : Nat}
    (hw : t.worker i = some (ficProgSmAsyncWrap b fuel (jobs i).smap))
    (ha : t.shared.progData = some a) (hC : ∀ u o r, unguarded o = true → C u i o r) :
    ∃ u, Alone b fuel jobs C i s u ∧ u.caller i = t.caller i ∧ u.worker i = some (wrapRun
        (ficProgSm b fuel (jobs i).smap (t.shared.mem a) t.shared.stat.progSize t.shared.stat.progMode)) ∧
      u.shared = t.shared.enters i
        ⟨(jobs i).smap, some a, t.shared.mem a, t.shared.stat.progSize, t.shared.stat.progMode⟩ := by
  have hload : t.shared.perform i .loadData (some a) t.shared := ⟨ha.symm, rfl⟩
  obtain ⟨t1, h, hc1, hw, hsh1⟩ := h.worker_step hw (hC _ _ _ rfl) hload
  have hsize : t1.shared.perform i .loadSize t1.shared.stat.progSize t1.shared := ⟨rfl, rfl⟩
  obtain ⟨t2, h, hc2, hw, hsh2⟩ := h.worker_step hw (hC _ _ _ rfl) hsize
  have hmode : t2.shared.perform i .loadMode t2.shared.stat.progMode t2.shared := ⟨rfl, rfl⟩
  obtain ⟨t3, h, hc3, hw, hsh3⟩ := h.worker_step hw (hC _ _ _ rfl) hmode
  rw [hsh2, hsh1] at hw
  have henter : t3.shared.perform i
      (.enter (jobs i).smap (some a) t.shared.stat.progSize t.shared.stat.progMode) (t.shared.mem a)
      (t.shared.enters i ⟨(jobs i).smap, some a, t.shared.mem a, t.shared.stat.progSize,
      t.shared.stat.progMode⟩) := by
    rw [hsh3, hsh2, hsh1]
    exact ⟨fun a' ha' => congrArg t.shared.mem (Option.some.inj ha'), rfl⟩
  obtain ⟨t4, h, hc4, hw, hsh4⟩ := h.worker_step hw (hC _ _ _ rfl) henter
  exact ⟨t4, h, hc4.trans (hc3.trans (hc2.trans hc1)), hw, hsh4⟩

/-- An operation of the library does the same to `PROG_STAT` here. -/
theorem perform_of_act {sh : Shared ι} {v v' : World Unit} {o : Op} {r : Ans o}
    (ha : (sys passive).act o v r v')
    (hsh : sh.stat = v.stat) : sh.perform i (.gpio o) r { sh with stat := v'.stat } := by
  cases o with
  | stat f =>
    obtain rfl : v' = _ := ha
    show _ = { sh with stat := f sh.stat }
    rw [hsh]
  | get =>
    obtain ⟨-, rfl⟩ := ha
    show { sh with stat := v'.stat } = sh
    rw [← hsh]
  | _ =>
    obtain rfl : v' = _ := ha
    exact congrArg (fun st => { sh with stat := st }) hsh.symm

/-- A worker in its programming function. -/
theorem Alone.program (h : Alone b fuel jobs C i s t) {p p' : P Nat} {v v' : World Unit}
    (hr : (sys passive).Run (p, v) (p', v'))
    (hw : t.worker i = some (wrapRun p)) (hstat : t.shared.stat = v.stat)
    (hC : ∀ u o r, C u i (.gpio o) r) :
    ∃ u, Alone b fuel jobs C i s u ∧ u.caller i = t.caller i ∧ u.worker i = some (wrapRun p') ∧
      u.shared = { t.shared with stat := v'.stat } := by
  have key : ∀ c, (sys passive).Run (p, v) c → ∃ u, Alone b fuel jobs C i s u ∧ u.caller i = t.caller i ∧
      u.worker i = some (wrapRun c.1) ∧ u.shared = { t.shared with stat := c.2.stat } := by
    intro c hc
    induction hc with
    | refl => exact ⟨t, h, rfl, hw, by rw [← hstat]⟩
    | tail _ hstep ih =>
      obtain ⟨u, hu, hcu, hwu, hsh⟩ := ih
      cases hstep with
      | act ha =>
        have hp := perform_of_act (i := i) ha (congrArg Shared.stat hsh)
        obtain ⟨u', hu', hcu', hwu', hsh'⟩ := hu.worker_step hwu (hC _ _ _) hp
        exact ⟨u', hu', hcu'.trans hcu, hwu', by rw [hsh', hsh]⟩
      | env he =>
        obtain ⟨d, hd, -⟩ := he
        exact hd.elim
  exact key (p', v') hr

/-- And after it. -/
theorem Alone.finish (h : Alone b fuel jobs C i s t) {n : Nat} {a : Nat}
    (hw : t.worker i = some (wrapRun (ret n)))
    (ha : t.shared.progData = some a) (hC : ∀ u, C u i .freeData ())
    (hC' : ∀ u, C u i (.storeData none) ()) :
    ∃ u, Alone b fuel jobs C i s u ∧ u.caller i = t.caller i ∧ u.worker i = some (ret ()) ∧
      u.shared.stat = t.shared.stat ∧ u.shared.live = Function.update t.shared.live a none := by
  have hfree : t.shared.perform i .freeData () { t.shared with
      live := Function.update t.shared.live a none
      freed := Function.update t.shared.freed i (t.shared.live a :: t.shared.freed i) } := by
    simp only [Shared.perform, ha]
  obtain ⟨t1, h, hc1, hw, hsh1⟩ := h.worker_step hw (hC _) hfree
  obtain ⟨t2, h, hc2, hw, hsh2⟩ := h.worker_step (o := .storeData none) (r := ()) hw (hC' _) rfl
  exact ⟨t2, h, hc2.trans hc1, hw, by rw [hsh2, hsh1], by rw [hsh2, hsh1]⟩

end

/-- Two starts with one byte each. -/
def twoJobs : Fin 2 → Job
  | 0 => ⟨.smap8, fun _ => 1#8, 1, .pr⟩
  | 1 => ⟨.smap8, fun _ => 2#8, 1, .pr⟩

/-- The pins before the first worker: all are inputs, and the latch bit of INIT is 1. -/
def firstWorld : World Unit where
  gpio := ⟨fun _ => 0#32, rpPin rpInit⟩
  stat := ⟨.init, .smap8, .pr, 0, 0, 1, 0⟩
  dev := ()

/-- `fic_prog_sm8` with the first byte ends with DONE. -/
theorem first_done : ∃ v : World Unit, (sys passive).Run (ficProgSm .mk2 1 .smap8
    (((State.start twoJobs).shared.started 0 (twoJobs 0) 0).mem 0) 1 .pr, firstWorld) (ret 1, v) ∧
    v.stat.stat = .done := by
  have hact : ∀ (o : Op) (s : World Unit), ∃ t, (sys passive).Drift s t ∧
      (sys passive).act o t (passiveAnswer o s).1 (passiveAnswer o s).2 :=
    fun o s => ⟨s, .refl, passiveAnswer_act o s⟩
  exact ⟨_, Sys.follow_ret hact 400 (by decide +kernel), by decide +kernel⟩

/-- The first start and its worker, which programs the byte, to their ends. -/
theorem first_run {C : Cond (Fin 2)} (hM : C (State.start twoJobs) 0 (.malloc 1) (some 0))
    (hC : ∀ u o r, unguarded o = true → C u 0 o r)
    (hC' : ∀ u p, Alone .mk2 1 twoJobs C 0 (State.start twoJobs) u →
      fillsRecord (u.caller 0) = false → u.worker 0 = none →
      C u 0 (.storeData p) ())
    (hP : ∀ u, u.shared.stat.stat = .init → C u 0 .pthreadCreate (0 : Int)) :
    ∃ t, Alone .mk2 1 twoJobs C 0 (State.start twoJobs) t ∧ t.caller 0 = ret 0 ∧
      t.worker 0 = some (ret ()) ∧ t.shared.stat.stat = .done ∧ ∀ a, t.shared.live a = none := by
  obtain ⟨t1, h, hc, hsh1⟩ := (Alone.refl (State.start twoJobs)).store (a := 0) rfl rfl rfl hM hC hC'
  obtain ⟨t2, h, hc2, hw, hsh2⟩ := h.create hc (hP t1 (by rw [hsh1]; rfl))
  have hdata : t2.shared.progData = some 0 := by
    rw [hsh2, hsh1]
    rfl
  obtain ⟨t3, h, hc3, hw, hsh3⟩ := h.enter hw hdata hC
  obtain ⟨v, hrun, hdone⟩ := first_done
  rw [hsh2, hsh1] at hw
  have hstat : t3.shared.stat = firstWorld.stat := by
    rw [hsh3, hsh2, hsh1]
    rfl
  obtain ⟨t4, h, hc4, hw, hsh4⟩ := h.program hrun hw hstat fun u o r => hC u (.gpio o) r rfl
  have hdata : t4.shared.progData = some 0 := by
    rw [hsh4, hsh3]
    exact hdata
  obtain ⟨t5, h, hc5, hw, hstat5, hlive⟩ := h.finish hw hdata (fun u => hC u .freeData () rfl)
    fun u => hC u (.storeData none) () rfl
  refine ⟨t5, h, hc5.trans (hc4.trans (hc3.trans hc2)), hw, ?_, fun a => ?_⟩
  · rw [hstat5, hsh4]
    exact hdone
  · rw [hlive, hsh4, hsh3, hsh2, hsh1]
    by_cases ha : a = 0
    · subst ha
      exact Function.update_self ..
    · exact (Function.update_of_ne ha ..).trans (Function.update_of_ne ha ..)

/-- A start by itself finds the record unused when the other one does not use it. -/
theorem exclusive_alone {C : Cond (Fin 2)} {i : Fin 2} {s u : State (Fin 2)} {p : Option Nat}
    (hs : ∀ i', i' ≠ i → ¬ s.InUse i')
    (h : Alone .mk2 1 twoJobs C i s u) (hc : fillsRecord (u.caller i) = false) (hw : u.worker i = none) :
    Exclusive u i (.storeData p) () := by
  intro _ i' hin
  unfold State.InUse at hin
  by_cases hi : i' = i
  · subst hi
    rw [hc, hw] at hin
    rcases hin with hin | hin <;> cases hin
  · rw [h.caller i' hi, h.worker i' hi] at hin
    exact hs i' hi hin

theorem start_unused (i : Fin 2) : ¬ (State.start twoJobs).InUse i := by
  intro h
  rcases h with h | h <;> cases h

/-- Two starts, the second one after the first worker has ended: it programs the second byte. -/
theorem sound_of_calm_twice :
    ∃ s : State (Fin 2), Reached .mk2 1 twoJobs Calm s ∧ s.worker 0 = some (ret ()) ∧
      (s.shared.entered 1).isSome = true ∧ ∀ i, Sound (twoJobs i) i s.shared (s.caller i) (s.worker i) := by
  have hC : ∀ (i : Fin 2) (u : State (Fin 2)) (o : Act) (r : Answer o), unguarded o = true → Calm u i o r :=
    fun i u o r ho => ⟨exclusive_of_unguarded ho, creates_of_unguarded ho⟩
  -- the first start and its worker
  obtain ⟨t, h, hc, hw, -, hfree⟩ := first_run (C := Calm) ⟨nofun, id⟩ (hC 0)
    (fun u p h hc hw => ⟨exclusive_alone (fun i' _ => start_unused i') h hc hw, id⟩) fun _ _ =>
    ⟨nofun, not_not.2 rfl⟩
  have hunused : ∀ i', i' ≠ 1 → ¬ t.InUse i' := by
    intro i' hi'
    obtain rfl : i' = 0 := by omega
    unfold State.InUse
    rw [hc, hw]
    exact fun h => by rcases h with h | h <;> cases h
  -- the second start, and its worker up to the programming function
  obtain ⟨u1, h', hc1, hsh1⟩ := (Alone.refl t).store (i := 1) (h.caller 1 (by decide))
      (h.worker 1 (by decide)) (hfree 1)
    ⟨nofun, id⟩ (hC 1) fun u p h hc hw => ⟨exclusive_alone hunused h hc hw, id⟩
  obtain ⟨u2, h', -, hw2, hsh2⟩ := h'.create hc1 ⟨nofun, not_not.2 rfl⟩
  have hdata : u2.shared.progData = some 1 := by
    rw [hsh2, hsh1]
    rfl
  obtain ⟨u3, h', -, -, hsh3⟩ := h'.enter hw2 hdata (hC 1)
  have hreach : Reached .mk2 1 twoJobs Calm u3 := h.run.trans h'.run
  refine ⟨u3, hreach, (h'.worker 0 (by decide)).trans hw, ?_, fun i => sound_of_calm hreach i⟩
  rw [hsh3]
  rfl

/-- Two starts in a row, and then the first worker: it programs the byte of the second start. -/
theorem async_mixes_up : ∃ s : State (Fin 2), Reached .mk2 1 twoJobs (fun _ _ o r => ¬ createFails o r) s ∧
    ¬ Sound (twoJobs 0) 0 s.shared (s.caller 0) (s.worker 0) := by
  have start : ∀ (i : Fin 2) (u : State (Fin 2)),
      Alone .mk2 1 twoJobs (fun _ _ o r => ¬ createFails o r) i u u :=
    fun _ u => Alone.refl u
  obtain ⟨t, h, hc, hsh⟩ := (start 0 (State.start twoJobs)).store (a := 0) rfl rfl rfl id
      (fun _ _ _ => creates_of_unguarded)
    fun _ _ _ _ _ => id
  obtain ⟨t', h, -, hw, hsh'⟩ := h.create hc (not_not.2 rfl)
  have hfree : t'.shared.live 1 = none := by
    rw [hsh', hsh]
    rfl
  obtain ⟨u, h', -, hshu⟩ := (start 1 t').store (h.caller 1 (by decide)) (h.worker 1 (by decide)) hfree id
    (fun _ _ _ => creates_of_unguarded) fun _ _ _ _ _ => id
  have hdata : u.shared.progData = some 1 := by
    rw [hshu]
    rfl
  obtain ⟨v, h'', -, -, hshv⟩ :=
    (start 0 u).enter ((h'.worker 0 (by decide)).trans hw) hdata fun _ _ _ => creates_of_unguarded
  refine ⟨v, (h.run.trans h'.run).trans h''.run, fun hsound => ?_⟩
  have hentry : v.shared.entered 0 =
      some ⟨.smap8, some 1, u.shared.mem 1, u.shared.stat.progSize, u.shared.stat.progMode⟩ := by
    rw [hshv]
    rfl
  have hbyte : u.shared.mem 1 0 = 1#8 := (hsound.given _ hentry).data 0 (by decide)
  have hmem : u.shared.mem 1 0 = 2#8 := by
    rw [hshu]
    rfl
  rw [hmem] at hbyte
  exact absurd hbyte (by decide)

/-- One start whose `pthread_create` fails: it returns -1, and its buffer stays. -/
theorem async_leaks : ∃ s : State (Fin 2), Reached .mk2 1 twoJobs Exclusive s ∧
    ¬ Sound (twoJobs 0) 0 s.shared (s.caller 0) (s.worker 0) := by
  obtain ⟨t, h, hc, hsh⟩ := (Alone.refl (State.start twoJobs)).store (a := 0) rfl rfl rfl nofun
    (fun _ _ _ => exclusive_of_unguarded) fun u p h hc hw =>
    exclusive_alone (fun i' _ => start_unused i') h hc hw
  obtain ⟨u, h, hc, -, hsh'⟩ := h.caller_step (r := (11 : Int)) hc (fun h => nomatch h) rfl rfl
  refine ⟨u, h.run, fun hsound => hsound.failed hc 0 ?_⟩
  rw [hsh', hsh]
  rfl

/-- Neither of the two conditions is enough. -/
theorem async_mixes : (∃ s : State (Fin 2), Reached .mk2 1 twoJobs (fun _ _ o r => ¬ createFails o r) s ∧
      ¬ Sound (twoJobs 0) 0 s.shared (s.caller 0) (s.worker 0)) ∧
    ∃ s : State (Fin 2), Reached .mk2 1 twoJobs Exclusive s ∧
      ¬ Sound (twoJobs 0) 0 s.shared (s.caller 0) (s.worker 0) :=
  ⟨async_mixes_up, async_leaks⟩

end Libfic2.Async
