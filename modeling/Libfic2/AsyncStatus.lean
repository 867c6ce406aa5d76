import Libfic2.PinDirection
import Libfic2.AsyncBuffers

/-!
# What a poll of `PROG_STAT.stat` sees

The status is written by the programming function and by a start without memory, not by
a start that succeeds.  Starts are made one at a time (`OneAtATime`).

* `polls_current`: when every successful `pthread_create` finds neither DONE nor FAIL, and
  every failing one FAIL, no poll shows the result of an earlier run
* `polls_stale`: the second of two runs, and a first start without a thread
-/

namespace Libfic2.Async

open Driver Prog

variable {ι : Type} [DecidableEq ι] (b : Board) (fuel : Nat)

/-! ## The property -/

/-- The status of a run that has ended. -/
def Settled (st : ProgStat) : Prop := st.stat = .done ∨ st.stat = .fail

def storeEnd (n : Nat) (t : Int) : P Nat := do
  issue (.stat fun s => { s with progEdTime := t })
  ret n

/-- What a programming function does after it has stored its result. -/
def afterResult (n : Nat) : P Nat := do
  let t ← issue .clock
  storeEnd n t

/-- The worker has stored its own result, and is about to leave the programming function. -/
inductive HasResult : A Unit → Prop
  | clock (n : Nat) : HasResult (wrapRun (afterResult n))
  | store (n : Nat) (t : Int) : HasResult (wrapRun (storeEnd n t))

/-- A start between `malloc` and its return. -/
def midway : A Int → Bool
  | op (.malloc _) _ => false
  | ret _ => false
  | _ => true

/-- Start `i` is being made, or its worker has not ended. -/
def State.Busy (s : State ι) (i : ι) : Prop := midway (s.caller i) = true ∨ running (s.worker i) = true

/-- No start before the previous worker has ended. -/
def OneAtATime : Cond ι := fun s _ o _ => mallocs o = true → ∀ j, ¬ s.Busy j

/-- `pthread_create` succeeds only while the status is neither DONE nor FAIL, and fails only while it
is FAIL. -/
def Fresh : Cond ι
  | s, _, .pthreadCreate, r => (r = 0 → ¬ Settled s.shared.stat) ∧ (r ≠ 0 → s.shared.stat.stat = .fail)
  | _, _, _, _ => True

/-- What holds after the step from `s` to `s'`: a start that has returned 0 has a worker, and no poll
shows DONE or FAIL before the worker has stored its own result; a start that has returned -1 in this
step leaves FAIL. -/
structure Current (s s' : State ι) : Prop where
  polls : ∀ i, s'.caller i = ret 0 → ∃ w, s'.worker i = some w ∧
    (¬ Settled s'.shared.stat ∨ HasResult w ∨ leftProgramming w = true)
  failed : ∀ i, s.caller i ≠ ret (-1) → s'.caller i = ret (-1) → s'.shared.stat.stat = .fail

/-! ## The worker -/

/-- An operation that makes no result. -/
def Steady : Op → Prop
  | .stat f => ∀ st, Settled (f st) → Settled st
  | _ => True

def SteadyAct : Act → Prop
  | .loadData | .loadSize | .loadMode => True
  | .enter _ _ _ _ => True
  | .gpio o => Steady o
  | _ => False

/-- A worker that stores no result before its own. -/
def Pending : A Unit → Prop
  | ret _ => False
  | op o k => (SteadyAct o ∧ ∀ a, Pending (k a)) ∨ ∀ a, HasResult (k a)
  | hang => True

/-- A worker that has stored its result. -/
inductive Leaving : A Unit → Prop
  | result {w : A Unit} : HasResult w → Leaving w
  | free : Leaving wrapEnd
  | null : Leaving (act (.storeData none))
  | ended : Leaving (ret ())

theorem Leaving.seen {w : A Unit} (h : Leaving w) : HasResult w ∨ leftProgramming w = true := by
  cases h with
  | result h => exact .inl h
  | free => exact .inr rfl
  | null => exact .inr rfl
  | ended => exact .inr rfl

theorem Leaving.next {w : A Unit} (h : Leaving w) {o : Act} {k : Answer o → A Unit}
    (hw : w = op o k) (r : Answer o) : Leaving (k r) := by
  cases h with
  | result h =>
    cases h with
    | clock n =>
      cases hw
      exact .result (.store n r)
    | store n t =>
      cases hw
      exact .free
  | free =>
    cases hw
    exact .null
  | null =>
    cases hw
    exact .ended
  | ended => cases hw

theorem Pending.running {w : A Unit} (h : Pending w) : running (some w) = true := by
  cases w with
  | ret a => exact h.elim
  | op o k => rfl
  | hang => rfl

section
variable {i : ι} {sh sh' : Shared ι} {o : Act} {r : Answer o}

theorem settled_of_steady (ho : SteadyAct o) (hp : sh.perform i o r sh') (hs : Settled sh'.stat) :
    Settled sh.stat := by
  cases o with
  | loadData | loadSize | loadMode =>
    obtain ⟨-, rfl⟩ := hp
    exact hs
  | enter smap p size pm =>
    obtain ⟨-, rfl⟩ := hp
    exact hs
  | gpio o =>
    cases o with
    | stat f =>
      obtain rfl : sh' = _ := hp
      exact ho _ hs
    | _ =>
      obtain rfl : sh' = sh := hp
      exact hs
  | _ => exact ho.elim

theorem Pending.next {w : A Unit} (h : Pending w) {k : Answer o → A Unit} (hw : w = op o k)
    (hp : sh.perform i o r sh')
    (hs : ¬ Settled sh.stat) : Leaving (k r) ∨ Pending (k r) ∧ ¬ Settled sh'.stat := by
  subst hw
  rcases h with ⟨ho, hk⟩ | hk
  · exact .inr ⟨hk r, fun hs' => hs (settled_of_steady ho hp hs')⟩
  · exact .inl (.result (hk r))

end

section
variable {α : Type} {p : P α}

theorem steady_of_works {A : Nat → Prop} (h : Ops (Works A) p) : Ops Steady p := by
  refine ops_mono h fun o ho => ?_
  cases o with
  | stat f =>
    obtain ⟨n, rfl⟩ := ho
    exact fun st h => h
  | _ => trivial

theorem pending_bind {f : α → P Nat} (h : Ops Steady p) (hf : ∀ a, Pending (wrapRun (f a))) :
    Pending (wrapRun (p >>= f)) := by
  induction p with
  | ret a => exact hf a
  | op o k ih => exact .inl ⟨h.1, fun a => ih a (h.2 a)⟩
  | hang => trivial

end

theorem pending_progEnd (st : ProgStatus) (n : Nat) : Pending (wrapRun (progEnd st n)) :=
  pending_bind (steady_of_works (A := fun _ => True) works_setAllInput) fun _ => .inr fun _ => .clock n

theorem steady_progBegin (smap : ProgSmapMode) (size : Nat) (pm : ProgMode) :
    Ops Steady (progBegin smap size pm) := by
  have hstat : ∀ {f : ProgStat → ProgStat}, (∀ st, (f st).stat = st.stat) →
      Ops Steady (issue (.stat f)) := by
    refine fun hf => ops_call _ fun st h => ?_
    unfold Settled at h ⊢
    rwa [hf st] at h
  refine ops_bind (ops_call _ fun st h => ?_) fun _ => ops_bind (hstat fun _ => rfl) fun _ =>
    ops_bind (hstat fun _ => rfl) fun _ => ?_
  · rcases h with h | h <;> cases h
  refine ops_bind (ops_call _ trivial) fun _ => ops_bind (hstat fun _ => rfl) fun _ => ?_
  exact ops_bind (hstat fun _ => rfl) fun _ => hstat fun _ => rfl

theorem steady_progLoad {n : Nat} (hn : n ≤ 16) {body : P (Option Nat)}
    (hb : Ops (Works fun _ => True) body) (smap : ProgSmapMode)
    (size : Nat) (pm : ProgMode) : Ops Steady (progLoad b fuel smap n body size pm) := by
  have hsetup : Ops (Works fun _ => True) (progSetup b fuel n pm) :=
    pinWork_progSetup b fuel (fun _ _ => trivial) hn pm
  refine ops_bind (steady_progBegin _ _ _) fun _ => steady_of_works (ops_checkOr hsetup ?_)
  exact ops_bind signals_time fun _ => hb

theorem pending_progFinish (mask : BitVec 32) (pm : ProgMode) (r : Option Nat) :
    Pending (wrapRun (progFinish fuel plainInitTest mask pm r)) := by
  cases r with
  | none => exact pending_progEnd _ _
  | some i =>
    have hwait : Ops (Works fun _ => True) (check plainInitTest (progWait fuel mask pm)) :=
      ops_check signals_plainInitTest (signals_progWait _ _ _)
    refine pending_bind (steady_of_works hwait) fun w => ?_
    split <;> exact pending_progEnd _ _

theorem pending_ficProgSm (smap : ProgSmapMode) (data : Mem) (size : Nat) (pm : ProgMode) :
    Pending (wrapRun (ficProgSm b fuel smap data size pm)) := by
  cases smap with
  | smap8 =>
    have hload :=
      steady_progLoad b fuel (by decide : 8 ≤ 16) (works_body fuel .sm8 data size) .smap8 size pm
    exact pending_bind hload (pending_progFinish fuel mask8 pm)
  | smap16 =>
    have hload :=
      steady_progLoad b fuel (by decide : 16 ≤ 16) (works_body fuel .sm16 data size) .smap16 size pm
    exact pending_bind hload (pending_progFinish fuel mask16 pm)

theorem pending_wrap (smap : ProgSmapMode) : Pending (ficProgSmAsyncWrap b fuel smap) := by
  -- the three stores of the parameters, then the call
  refine .inl ⟨trivial,
    fun _ => .inl ⟨trivial, fun size => .inl ⟨trivial, fun pm => .inl ⟨trivial, fun data => ?_⟩⟩⟩⟩
  exact pending_ficProgSm b fuel smap data size pm

/-! ## The start -/

/-- Where a start is that has not returned. -/
inductive Stage (j : Job) : A Int → Prop
  | outside : Stage j (ficProgSmAsync j)
  | noMemory : Stage j startFail
  | copying (a : Nat) : Stage j (startCopy j a)
  | storing (a : Nat) : Stage j (startData j a)
  | sizing : Stage j (startSize j)
  | moding : Stage j (startMode j)
  | creating : Stage j startCreate

section
variable {j : Job} {i : ι} {s : State ι} {sh : Shared ι} {c : A Int} {o : Act}
    {k : Answer o → A Int} {r : Answer o}
  {w : Option (A Unit)}

/-- What a step of a start comes to: it goes on, has failed, or has created its worker. -/
theorem Stage.next (h : Stage j c) (hc : c = op o k) (hf : Fresh s i o r) (hp : s.shared.perform i o r sh) :
    Stage j (k r) ∧ created b fuel j.smap o r w = w ∨
    k r = ret (-1) ∧ created b fuel j.smap o r w = w ∧ sh.stat.stat = .fail ∨
    k r = ret 0 ∧ created b fuel j.smap o r w = some (ficProgSmAsyncWrap b fuel j.smap) ∧
    ¬ Settled sh.stat := by
  cases h with
  | outside =>
    cases hc
    cases r with
    | none => exact .inl ⟨.noMemory, rfl⟩
    | some a => exact .inl ⟨.copying a, rfl⟩
  | noMemory =>
    cases hc
    obtain rfl : sh = _ := hp
    exact .inr (.inl ⟨rfl, rfl, rfl⟩)
  | copying a =>
    cases hc
    exact .inl ⟨.storing a, rfl⟩
  | storing a =>
    cases hc
    exact .inl ⟨.sizing, rfl⟩
  | sizing =>
    cases hc
    exact .inl ⟨.moding, rfl⟩
  | moding =>
    cases hc
    exact .inl ⟨.creating, rfl⟩
  | creating =>
    cases hc
    obtain rfl : sh = s.shared := hp
    by_cases hr : r = 0
    · exact .inr (.inr ⟨if_neg (not_not.2 hr), if_pos hr, hf.1 hr⟩)
    · exact .inr (.inl ⟨if_pos hr, if_neg hr, hf.2 hr⟩)

omit [DecidableEq ι] in
theorem Stage.midway (h : Stage j c) (hc : c = op o k) : midway c = true ∨ mallocs o = true := by
  cases h with
  | outside =>
    cases hc
    exact .inr rfl
  | _ => exact .inl rfl

end

/-! ## Every run -/

section
variable {b fuel} {jobs : ι → Job} {s s' : State ι}

/-- At most one start or worker is busy, and a worker whose result is not yet stored finds none. -/
structure StatusInv (jobs : ι → Job) (s : State ι) : Prop where
  one : ∀ i i', s.Busy i → s.Busy i' → i = i'
  stage : ∀ i, Stage (jobs i) (s.caller i) ∨ s.caller i = ret (-1) ∨ s.caller i = ret 0
  created : ∀ i w, s.worker i = some w → s.caller i = ret 0
  runs : ∀ i, s.caller i = ret 0 → ∃ w, s.worker i = some w ∧
    (Leaving w ∨ Pending w ∧ ¬ Settled s.shared.stat)

omit [DecidableEq ι] in
theorem statusInv_start : StatusInv jobs (State.start jobs) where
  one i _ h := by rcases h with h | h <;> cases h
  stage i := .inl .outside
  created i w h := by cases h
  runs i h := by cases h

/-- A move of `i` while nobody else is busy. -/
theorem StatusInv.move (h : StatusInv jobs s) {i : ι} {c : A Int} {w : Option (A Unit)} {sh : Shared ι}
    (halone : ∀ i', i' ≠ i → ¬ s.Busy i') (hc : Stage (jobs i) c ∨ c = ret (-1) ∨ c = ret 0)
    (hw : ∀ w', w = some w' → c = ret 0)
    (hruns : c = ret 0 → ∃ w', w = some w' ∧ (Leaving w' ∨ Pending w' ∧ ¬ Settled sh.stat)) :
    StatusInv jobs ⟨Function.update s.caller i c, Function.update s.worker i w, sh⟩ := by
  have other : ∀ i', i' ≠ i → Function.update s.caller i c i' = s.caller i' ∧
      Function.update s.worker i w i' = s.worker i' :=
    fun i' hi' => ⟨Function.update_of_ne hi' .., Function.update_of_ne hi' ..⟩
  have only : ∀ i', State.Busy ⟨Function.update s.caller i c, Function.update s.worker i w, sh⟩ i' →
      i' = i := by
    intro i' hb
    by_contra hi'
    refine halone i' hi' ?_
    unfold State.Busy at hb ⊢
    dsimp only at hb
    rwa [(other i' hi').1, (other i' hi').2] at hb
  constructor
  · intro i1 i2 h1 h2
    rw [only i1 h1, only i2 h2]
  · intro i'
    dsimp only
    by_cases hi' : i' = i
    · subst hi'
      rw [Function.update_self]
      exact hc
    · rw [(other i' hi').1]
      exact h.stage i'
  · intro i' w' hw'
    dsimp only at hw' ⊢
    by_cases hi' : i' = i
    · subst hi'
      rw [Function.update_self] at hw' ⊢
      exact hw w' hw'
    · rw [(other i' hi').2] at hw'
      rw [(other i' hi').1]
      exact h.created i' w' hw'
  · intro i' hc'
    dsimp only at hc' ⊢
    by_cases hi' : i' = i
    · subst hi'
      rw [Function.update_self] at hc' ⊢
      exact hruns hc'
    · rw [(other i' hi').1] at hc'
      rw [(other i' hi').2]
      obtain ⟨w', hw', hl | ⟨hp, -⟩⟩ := h.runs i' hc'
      · exact ⟨w', hw', .inl hl⟩
      · refine absurd (.inr ?_) (halone i' hi')
        rw [hw']
        exact hp.running

/-- One step keeps the invariant, and a start that fails in it leaves FAIL. -/
theorem StatusInv.step (h : StatusInv jobs s)
    (hs : State.Step b fuel jobs (fun t i o r => OneAtATime t i o r ∧ Fresh t i o r) s s') :
    StatusInv jobs s' ∧ Current s s' := by
  have hinv : StatusInv jobs s' ∧ ∀ i, s.caller i ≠ ret (-1) → s'.caller i = ret (-1) →
      s'.shared.stat.stat = .fail := by
    cases hs with
    | @caller i o k r sh hc hcond hp =>
      have hstage : Stage (jobs i) (s.caller i) := by
        rcases h.stage i with h | h | h
        · exact h
        · rw [h] at hc
          cases hc
        · rw [h] at hc
          cases hc
      have halone : ∀ i', i' ≠ i → ¬ s.Busy i' := by
        intro i' hi' hb
        rcases hstage.midway hc with hm | hm
        · exact hi' (h.one i' i hb (.inl hm))
        · exact hcond.1 hm i' hb
      have hnone : s.worker i = none := by
        cases hw : s.worker i with
        | none => rfl
        | some w =>
          rw [h.created i w hw] at hc
          cases hc
      have hother : ∀ i', i' ≠ i → Function.update s.caller i (k r) i' = s.caller i' :=
        fun i' hi' => Function.update_of_ne hi' ..
      rcases hstage.next b fuel (w := s.worker i) hc hcond.2 hp
        with ⟨hk, hw⟩ | ⟨hk, hw, hfail⟩ | ⟨hk, hw, hset⟩
      · rw [hw, hnone]
        have hne : ∀ z, k r ≠ ret z := by
          intro z hz
          rw [hz] at hk
          cases hk
        refine ⟨h.move halone (.inl hk) nofun fun hz => absurd hz (hne 0), fun i' hn hf => ?_⟩
        dsimp only at hf
        by_cases hi' : i' = i
        · subst hi'
          rw [Function.update_self] at hf
          exact absurd hf (hne _)
        · exact absurd ((hother i' hi').symm.trans hf) hn
      · rw [hw, hnone]
        refine ⟨h.move halone (.inr (.inl hk)) nofun fun hz => ?_, fun _ _ _ => hfail⟩
        rw [hk] at hz
        cases hz
      · rw [hw]
        refine ⟨h.move halone (.inr (.inr hk)) (fun _ _ => hk) fun _ =>
          ⟨_, rfl, .inr ⟨pending_wrap b fuel _, hset⟩⟩, ?_⟩
        intro i' hn hf
        dsimp only at hf
        by_cases hi' : i' = i
        · subst hi'
          rw [Function.update_self, hk] at hf
          cases hf
        · exact absurd ((hother i' hi').symm.trans hf) hn
    | @worker i o k r sh hw hcond hp =>
      have hrun : running (s.worker i) = true := by rw [hw]; rfl
      have hret := h.created i _ hw
      obtain ⟨w, hw', hat⟩ := h.runs i hret
      obtain rfl : op o k = w := Option.some.inj (hw.symm.trans hw')
      have hnext : Leaving (k r) ∨ Pending (k r) ∧ ¬ Settled sh.stat := by
        rcases hat with hl | ⟨hl, hset⟩
        · exact .inl (hl.next rfl r)
        · exact hl.next rfl hp hset
      have hmove := h.move (c := s.caller i) (w := some (k r))
          (fun i' hi' hb => hi' (h.one i' i hb (.inr hrun))) (h.stage i)
        (fun _ _ => hret) fun _ => ⟨_, rfl, hnext⟩
      rw [Function.update_eq_self] at hmove
      exact ⟨hmove, fun i' hn hf => absurd hf hn⟩
  refine ⟨hinv.1, fun i hc => ?_, hinv.2⟩
  obtain ⟨w, hw, hl | ⟨-, hset⟩⟩ := hinv.1.runs i hc
  · exact ⟨w, hw, .inr hl.seen⟩
  · exact ⟨w, hw, .inl hset⟩

theorem statusInv_reached
    (hr : Reached b fuel jobs (fun t i o r => OneAtATime t i o r ∧ Fresh t i o r) s) :
    StatusInv jobs s := by
  induction hr with
  | refl => exact statusInv_start
  | tail _ hs ih => exact (ih.step hs).1

/-- **No poll shows an old result**, when every `pthread_create` finds the status it should leave. -/
theorem polls_current (hr : Reached b fuel jobs (fun t i o r => OneAtATime t i o r ∧ Fresh t i o r) s)
    (hs : State.Step b fuel jobs (fun t i o r => OneAtATime t i o r ∧ Fresh t i o r) s s') : Current s s' :=
  ((statusInv_reached hr).step hs).2

end

/-! ## Such runs, and others -/

omit [DecidableEq ι] in
theorem oneAtATime_of_unguarded {u : State ι} {i : ι} {o : Act} {r : Answer o}
    (ho : unguarded o = true) : OneAtATime u i o r := by
  intro hm
  cases o with
  | malloc n => cases ho
  | _ => cases hm

omit [DecidableEq ι] in
theorem fresh_of_unguarded {u : State ι} {i : ι} {o : Act} {r : Answer o} (ho : unguarded o = true) :
    Fresh u i o r := by
  cases o with
  | pthreadCreate => cases ho
  | _ => trivial

theorem start_idle (i : Fin 2) : ¬ (State.start twoJobs).Busy i := by
  intro h
  rcases h with h | h <;> cases h

/-- Between the two starts nobody is busy. -/
theorem idle_after {t : State (Fin 2)} (hc : t.caller 0 = ret 0) (hw : t.worker 0 = some (ret ()))
    (hc' : t.caller 1 = (State.start twoJobs).caller 1)
    (hw' : t.worker 1 = (State.start twoJobs).worker 1) : ∀ i, ¬ t.Busy i := by
  refine Fin.forall_fin_two.2 ⟨fun hb => ?_, fun hb => ?_⟩
  · unfold State.Busy at hb
    rw [hc, hw] at hb
    rcases hb with hb | hb <;> cases hb
  · unfold State.Busy at hb
    rw [hc', hw'] at hb
    rcases hb with hb | hb <;> cases hb

/-- A first run to its end, and a second start that finds no memory: it leaves FAIL. -/
theorem polls_current_twice : ∃ s s' : State (Fin 2),
    Reached .mk2 1 twoJobs (fun u i o r => OneAtATime u i o r ∧ Fresh u i o r) s ∧
    State.Step .mk2 1 twoJobs (fun u i o r => OneAtATime u i o r ∧ Fresh u i o r) s s' ∧
    s'.caller 0 = ret 0 ∧ s'.worker 0 = some (ret ()) ∧ s.shared.stat.stat = .done ∧
    s'.caller 1 = ret (-1) ∧ s'.shared.stat.stat = .fail ∧ Current s s' := by
  let C : Cond (Fin 2) := fun u i o r => OneAtATime u i o r ∧ Fresh u i o r
  have hcreate : ∀ u : State (Fin 2), u.shared.stat.stat = .init → C u 0 .pthreadCreate (0 : Int) := by
    refine fun u hinit => ⟨nofun, fun _ hset => ?_, fun hne => absurd rfl hne⟩
    rcases hset with hset | hset <;> cases hinit.symm.trans hset
  obtain ⟨t, h, hc, hw, hdone, -⟩ := first_run (C := C) ⟨fun _ => start_idle, trivial⟩
    (fun u o r ho => ⟨oneAtATime_of_unguarded ho, fresh_of_unguarded ho⟩)
    (fun _ _ _ _ _ => ⟨nofun, trivial⟩) hcreate
  have hidle := idle_after hc hw (h.caller 1 (by decide)) (h.worker 1 (by decide))
  have halone : Alone .mk2 1 twoJobs C 1 t t := Alone.refl t
  obtain ⟨u, h', hc1, -, hsh⟩ := halone.caller_step (o := .malloc 1) (r := none) (h.caller 1 (by decide))
    ⟨fun _ => hidle, trivial⟩ rfl rfl
  have hreach : Reached .mk2 1 twoJobs C u := h.run.trans h'.run
  have hstep : State.Step .mk2 1 twoJobs C u _ :=
    .caller (o := .storeStat .fail) (a := ()) hc1 ⟨nofun, trivial⟩ rfl
  refine ⟨u, _, hreach, hstep, ?_, ?_, ?_, Function.update_self (1 : Fin 2) (ret (-1) : A Int) u.caller,
    rfl, polls_current hreach hstep⟩
  · exact (h'.caller 0 Fin.zero_ne_one).trans hc
  · exact (h'.worker 0 Fin.zero_ne_one).trans hw
  · rw [hsh]
    exact hdone

/-- A first run, and a second start: its caller has returned 0, its worker has yet to begin, and the
status is DONE. -/
theorem polls_stale_second : ∃ s s' : State (Fin 2), Reached .mk2 1 twoJobs OneAtATime s ∧
    State.Step .mk2 1 twoJobs OneAtATime s s' ∧ s'.caller 1 = ret 0 ∧
    s'.worker 1 = some (ficProgSmAsyncWrap .mk2 1 .smap8) ∧
      s'.shared.stat.stat = .done := by
  have plain : ∀ (i : Fin 2) (u : State (Fin 2)) (o : Act) (r : Answer o),
      unguarded o = true → OneAtATime u i o r :=
    fun _ _ _ _ => oneAtATime_of_unguarded
  obtain ⟨t, h, hc, hw, hdone, hfree⟩ := first_run (C := OneAtATime) (fun _ => start_idle) (plain 0)
      (fun _ _ _ _ _ => nofun)
    fun _ _ => nofun
  have hidle := idle_after hc hw (h.caller 1 (by decide)) (h.worker 1 (by decide))
  obtain ⟨u, h', hc', hsh'⟩ := (Alone.refl t).store (i := 1) (h.caller 1 (by decide))
      (h.worker 1 (by decide)) (hfree 1)
    (fun _ => hidle) (plain 1) fun _ _ _ _ _ => nofun
  have hstep : State.Step .mk2 1 twoJobs OneAtATime u _ := .caller (a := (0 : Int)) hc' nofun rfl
  refine ⟨u, _, h.run.trans h'.run, hstep,
    Function.update_self (1 : Fin 2) (ret 0 : A Int) u.caller, ?_, ?_⟩
  · exact Function.update_self (1 : Fin 2) (some (ficProgSmAsyncWrap .mk2 1 .smap8)) u.worker
  · show u.shared.stat.stat = .done
    rw [hsh']
    exact hdone

/-- A first start whose `pthread_create` fails leaves INIT. -/
theorem polls_stale_failed : ∃ s s' : State (Fin 2), Reached .mk2 1 twoJobs OneAtATime s ∧
    State.Step .mk2 1 twoJobs OneAtATime s s' ∧ s.caller 0 ≠ ret (-1) ∧ s'.caller 0 = ret (-1) ∧
    s'.shared.stat.stat = .init := by
  have halone : Alone .mk2 1 twoJobs OneAtATime 0 (State.start twoJobs) (State.start twoJobs) :=
    Alone.refl _
  obtain ⟨t, h, hc, hsh⟩ := halone.store (a := 0) rfl rfl rfl (fun _ => start_idle)
      (fun _ _ _ => oneAtATime_of_unguarded)
    fun _ _ _ _ _ => nofun
  have hstep : State.Step .mk2 1 twoJobs OneAtATime t _ := .caller (a := (11 : Int)) hc nofun rfl
  refine ⟨t, _, h.run, hstep, ?_, Function.update_self (0 : Fin 2) (ret (-1) : A Int) t.caller, ?_⟩
  · rw [hc]
    exact nofun
  · show t.shared.stat.stat = .init
    rw [hsh]
    rfl

/-- Both ways in which a poll misleads. -/
theorem polls_stale : (∃ s s' : State (Fin 2), Reached .mk2 1 twoJobs OneAtATime s ∧
      State.Step .mk2 1 twoJobs OneAtATime s s' ∧ s'.caller 1 = ret 0 ∧
      s'.shared.stat.stat = .done ∧ ¬ Current s s') ∧
    ∃ s s' : State (Fin 2), Reached .mk2 1 twoJobs OneAtATime s ∧
      State.Step .mk2 1 twoJobs OneAtATime s s' ∧ s'.caller 0 = ret (-1) ∧
      s'.shared.stat.stat = .init ∧ ¬ Current s s' := by
  obtain ⟨s, s', hr, hs, hc, hw, hdone⟩ := polls_stale_second
  obtain ⟨t, t', hr', hs', hbefore, hc', hinit⟩ := polls_stale_failed
  refine ⟨⟨s, s', hr, hs, hc, hdone, fun hcur => ?_⟩, ⟨t, t', hr', hs', hc', hinit, fun hcur => ?_⟩⟩
  · obtain ⟨w, hw', hpoll⟩ := hcur.polls 1 hc
    cases hw.symm.trans hw'
    rcases hpoll with hset | hres | hleft
    · exact hset (.inl hdone)
    · cases hres
    · cases hleft
  · have hfail := hcur.failed 0 hbefore hc'
    rw [hinit] at hfail
    cases hfail

end Libfic2.Async
