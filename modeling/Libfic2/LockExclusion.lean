import Libfic2.GpioLock

/-!
# When the lock on the GPIO excludes

Closing the file and unlinking it are two steps.  A process that waits for the `flock` gets it
in between, for a file whose name is then removed; the next one finds no lock file, creates a
new one, and both are inside.

A process has the lock file open from its `open` to its `close` (`Proc.lockFd`).  While nobody
creates the lock file as long as another one has it open, all that have it open share one inode.

* `exclusive_of_calm`: then at most one process is inside
* `lock_not_exclusive`: a run of three processes that ends with two of them inside
-/

namespace Libfic2.GpioLock

open Driver Prog

/-- The descriptor between `open` and `close`. -/
def Proc.lockFd : Proc → Option Int
  | .run .locking (.op (.flock fd) _) => some fd
  | .run .locking (.ret r) => if r < 0 then none else some r
  | .holding fd => some fd
  | .run .unlocking (.op (.close fd) _) => some fd
  | _ => none

variable {Pid : Type} [DecidableEq Pid]

/-- The event is an `open` that creates the lock file. -/
def World.creates (w : World Pid) : Event Pid → Bool
  | .sys i a =>
    match w.procs i with
    | .run _ (.op .openLock _) => w.fs.path.isNone && decide (0 ≤ a)
    | _ => false
  | _ => false

/-- Nobody creates the lock file while some process has one open. -/
def Calm (w : World Pid) (e : Event Pid) : Prop := w.creates e = true → ∀ j, (w.procs j).lockFd = none

instance [Fintype Pid] (w : World Pid) (e : Event Pid) : Decidable (Calm w e) :=
  inferInstanceAs (Decidable (_ → ∀ _, _))

/-! ## Stages of a process -/

/-- What may be left of `gpio_lock` before `open`, or after a failure. -/
def Unopened : S Int → Prop
  | .ret r => r < 0
  | .op .time k => ∀ a, Unopened (k a)
  | .op .stat k => ∀ a, Unopened (k a)
  | .op .openLock k => ∀ a, k a = if a < 0 then ret (-1) else awaitLock a
  | .op _ _ => False
  | .hang => True

inductive Stage
  | out
  | waiting (fd : Int)
  | owner (fd : Int)

def Stage.fd : Stage → Option Int
  | .out => none
  | .waiting fd => some fd
  | .owner fd => some fd

/-- Where a process stands. -/
inductive At : Proc → Stage → Prop
  | idle : At .idle .out
  | unopened {p : S Int} : Unopened p → At (.run .locking p) .out
  | waiting {fd : Int} : 0 ≤ fd → At (.run .locking (awaitLock fd)) (.waiting fd)
  | locked {fd : Int} : 0 ≤ fd → At (.run .locking (ret fd)) (.owner fd)
  | holding {fd : Int} : At (.holding fd) (.owner fd)
  | closing {fd : Int} : At (.run .unlocking (gpioUnlock fd)) (.owner fd)
  | closed {k : Int → S Int} : (∀ a, ∃ r, k a = ret r) → At (.run .unlocking (op .unlink k)) .out
  | done {r : Int} : At (.run .unlocking (ret r)) .out

theorem unopened_gpioLock (fuel : Nat) : Unopened (gpioLock fuel) := by
  intro t1
  show Unopened (awaitAbsent t1 fuel >>= _)
  induction fuel with
  | zero => trivial
  | succ n ih =>
    intro a
    show Unopened (Prog.bind (Prog.bind (if a ≠ 0 then _ else _) _) _)
    split
    · intro a
      rfl
    · intro t2
      show Unopened (Prog.bind (Prog.bind (if t2 - t1 > gpioLockTimeout then _ else _) _) _)
      split
      · show (-1 : Int) < 0
        decide
      · exact ih

theorem At.lockFd {p : Proc} {s : Stage} (h : At p s) : p.lockFd = s.fd := by
  cases h with
  | idle => rfl
  | @unopened p hp =>
    cases p with
    | ret r => exact if_pos hp
    | op o k => cases o <;> first | rfl | exact hp.elim
    | hang => rfl
  | waiting hfd => rfl
  | locked hfd => exact if_neg (Int.not_lt.2 hfd)
  | holding => rfl
  | closing => rfl
  | closed hk => rfl
  | done => rfl

/-- What one event does to the file system, and to the stage of the process `i` it is about. -/
inductive Move (fs : Fs Pid) (i : Pid) : Stage → Fs Pid → Stage → Prop
  | stay (s : Stage) : Move fs i s fs s
  | opened {fd : Int} {n : Nat} : fs.path = some n → Move fs i .out (fs.setFd i fd (some n)) (.waiting fd)
  | created {fd : Int} : fs.path = none →
      Move fs i .out { fs.setFd i fd (some fs.fresh) with path := some fs.fresh, fresh := fs.fresh + 1 }
        (.waiting fd)
  | locked {fd : Int} {n : Nat} : fs.fds i fd = some n → fs.flock n = none ∨ fs.flock n = some (i, fd) →
      Move fs i (.waiting fd) { fs with flock := Function.update fs.flock n (some (i, fd)) } (.owner fd)
  | gaveUp {fd : Int} : Move fs i (.waiting fd) fs .out
  | closed {fd : Int} {n : Nat} : fs.fds i fd = some n →
      Move fs i (.owner fd) { fs.setFd i fd none with
        flock := if fs.flock n = some (i, fd) then Function.update fs.flock n none else fs.flock } .out
  | lost {fd : Int} : fs.fds i fd = none → Move fs i (.owner fd) fs .out
  | unlinked : Move fs i .out { fs with path := none } .out

/-- A system call of a process. -/
theorem At.sys {ph : Phase} {p : S Int} {o : SysCall} {k : Int → S Int} {s : Stage} {i : Pid}
    {a : Int} {fs fs' : Fs Pid}
    (h : At (.run ph p) s) (hp : p = op o k) (hf : fs.perform i o a = some fs') :
    ∃ s', At (.run ph (k a)) s' ∧ Move fs i s fs' s' := by
  cases h with
  | unopened hun =>
    subst hp
    cases o with
    | time =>
      obtain rfl := Option.some.inj hf
      exact ⟨_, .unopened (hun a), .stay _⟩
    | stat =>
      obtain ⟨_, rfl⟩ : _ ∧ fs = fs' := by simpa [Fs.perform] using hf
      exact ⟨_, .unopened (hun a), .stay _⟩
    | openLock =>
      rw [hun a]
      unfold Fs.perform at hf
      dsimp only at hf
      split at hf
      · next ha =>
        obtain rfl := Option.some.inj hf
        rw [if_pos ha]
        exact ⟨.out, .unopened (show (-1 : Int) < 0 by decide), .stay _⟩
      · next ha =>
        rw [if_neg ha]
        split at hf
        · cases hf
        · split at hf
          · next n hn =>
            obtain rfl := Option.some.inj hf
            exact ⟨_, .waiting (Int.not_lt.1 ha), .opened hn⟩
          · next hn =>
            obtain rfl := Option.some.inj hf
            exact ⟨_, .waiting (Int.not_lt.1 ha), .created hn⟩
    | flock fd => exact hun.elim
    | close fd => exact hun.elim
    | unlink => exact hun.elim
  | @waiting fd hfd =>
    cases hp
    show ∃ s', At (.run .locking (if a < 0 then ret (-1) else ret fd)) s' ∧ _
    unfold Fs.perform at hf
    dsimp only at hf
    split at hf
    · next ha =>
      obtain rfl := Option.some.inj hf
      rw [if_pos ha]
      exact ⟨.out, .unopened (show (-1 : Int) < 0 by decide), .gaveUp⟩
    · next ha =>
      rw [if_neg ha]
      split at hf
      · cases hf
      · next n hn =>
        split at hf
        · next hfree =>
          obtain rfl := Option.some.inj hf
          exact ⟨_, .locked hfd, .locked hn hfree⟩
        · cases hf
  | locked hfd => cases hp
  | @closing fd =>
    cases hp
    have hk : ∀ r : Int, ∃ b, (if r < 0 then ret (-1) else ret 0 : S Int) = ret b := by
      intro r
      split
      · exact ⟨_, rfl⟩
      · exact ⟨_, rfl⟩
    unfold Fs.perform at hf
    dsimp only at hf
    split at hf
    · next hn =>
      obtain rfl := Option.some.inj hf
      exact ⟨_, .closed hk, .lost hn⟩
    · next n hn =>
      obtain rfl := Option.some.inj hf
      exact ⟨_, .closed hk, .closed hn⟩
  | closed hk =>
    cases hp
    obtain ⟨r, hr⟩ := hk a
    rw [hr]
    unfold Fs.perform at hf
    dsimp only at hf
    split at hf
    · obtain rfl := Option.some.inj hf
      exact ⟨_, .done, .stay _⟩
    · split at hf
      · obtain rfl := Option.some.inj hf
        exact ⟨_, .done, .unlinked⟩
      · cases hf
  | done => cases hp

theorem At.of_idle {s : Stage} (h : At .idle s) : s = .out := by
  cases h
  rfl

theorem At.of_holding {s : Stage} {fd : Int} (h : At (.holding fd) s) : s = .owner fd := by
  cases h
  rfl

/-- `gpio_lock` returns. -/
theorem At.lockReturn {p : S Int} {r : Int} {s : Stage} (h : At (.run .locking p) s) (hp : p = ret r) :
    At (if r < 0 then .idle else .holding r) s := by
  cases h with
  | unopened hun =>
    subst hp
    rw [if_pos (show r < 0 from hun)]
    exact .idle
  | waiting hfd => cases hp
  | locked hfd =>
    cases hp
    rw [if_neg (Int.not_lt.2 hfd)]
    exact .holding

/-- `gpio_unlock` returns. -/
theorem At.unlockReturn {p : S Int} {r : Int} {s : Stage} (h : At (.run .unlocking p) s)
    (hp : p = ret r) : At .idle s := by
  cases h with
  | closing => cases hp
  | closed hk => cases hp
  | done => exact .idle

theorem at_update {procs : Pid → Proc} {st : Pid → Stage} {i : Pid} {p : Proc} {s : Stage}
    (hat : ∀ j, At (procs j) (st j))
    (h : At p s) (j : Pid) : At (Function.update procs i p j) (Function.update st i s j) := by
  by_cases hj : j = i
  · subst hj
    rw [Function.update_self, Function.update_self]
    exact h
  · rw [Function.update_of_ne hj, Function.update_of_ne hj]
    exact hat j

/-- Every event is a move of one process. -/
theorem next_move {w w' : World Pid} {st : Pid → Stage} {e : Event Pid}
    (hat : ∀ j, At (w.procs j) (st j)) (h : w.next e = some w') :
    ∃ i s', Move w.fs i (st i) w'.fs s' ∧ ∀ j, At (w'.procs j) (Function.update st i s' j) := by
  cases e with
  | lock i fuel =>
    unfold World.next at h
    dsimp only at h
    split at h
    · next hidle =>
      obtain rfl := Option.some.inj h
      have hout : st i = .out := At.of_idle (hidle ▸ hat i)
      exact ⟨i, .out, hout ▸ .stay _, at_update hat (.unopened (unopened_gpioLock fuel))⟩
    · cases h
  | unlock i =>
    unfold World.next at h
    dsimp only at h
    split at h
    · next fd hholding =>
      obtain rfl := Option.some.inj h
      have howner : st i = .owner fd := At.of_holding (hholding ▸ hat i)
      exact ⟨i, .owner fd, howner ▸ .stay _, at_update hat .closing⟩
    · cases h
  | sys i a =>
    unfold World.next at h
    dsimp only at h
    split at h
    · next ph o k hrun =>
      obtain ⟨fs', hfs, rfl⟩ := Option.map_eq_some_iff.1 h
      have hi := hat i
      rw [hrun] at hi
      obtain ⟨s', hat', hmove⟩ := hi.sys rfl hfs
      exact ⟨i, s', hmove, at_update hat hat'⟩
    · cases h
  | done i =>
    have hi := hat i
    unfold World.next at h
    dsimp only at h
    split at h
    · next r hret =>
      obtain rfl := Option.some.inj h
      rw [hret] at hi
      exact ⟨i, st i, .stay _, at_update hat (hi.lockReturn rfl)⟩
    · next r hret =>
      obtain rfl := Option.some.inj h
      rw [hret] at hi
      exact ⟨i, st i, .stay _, at_update hat (hi.unlockReturn rfl)⟩
    · cases h

theorem perform_path {fs fs' : Fs Pid} {i : Pid} {o : SysCall} {a : Int}
    (h : fs.perform i o a = some fs') (hnone : fs.path = none)
    (hsome : fs'.path ≠ none) : o = .openLock ∧ 0 ≤ a := by
  cases o <;> grind [Fs.perform, Fs.setFd]

/-- Only `creates` brings the lock file into being. -/
theorem next_creates {w w' : World Pid} {e : Event Pid} (h : w.next e = some w')
    (hnone : w.fs.path = none) (hsome : w'.fs.path ≠ none) : w.creates e = true := by
  unfold World.next at h
  split at h
  · split at h
    · obtain rfl := Option.some.inj h
      exact absurd hnone hsome
    · cases h
  · split at h
    · obtain rfl := Option.some.inj h
      exact absurd hnone hsome
    · cases h
  · split at h
    · next i a ph o k hrun =>
      obtain ⟨fs', hfs, rfl⟩ := Option.map_eq_some_iff.1 h
      obtain ⟨rfl, ha⟩ := perform_path hfs hnone hsome
      simp [World.creates, hrun, hnone, ha]
    · cases h
  · split at h
    · obtain rfl := Option.some.inj h
      exact absurd hnone hsome
    · obtain rfl := Option.some.inj h
      exact absurd hnone hsome
    · cases h

/-! ## The invariant -/

/-- If process `j` has the lock file open, it is inode `n`, which is that of the path if there is one;
an owner holds its `flock`. -/
structure Shares (fs : Fs Pid) (n : Nat) (j : Pid) (s : Stage) : Prop where
  inode : ∀ fd, s.fd = some fd → fs.fds j fd = some n
  path : ∀ fd p, s.fd = some fd → fs.path = some p → p = n
  owns : ∀ fd, s = .owner fd → fs.flock n = some (j, fd)

section
variable {fs fs' : Fs Pid} {st : Pid → Stage} {i j : Pid} {s' : Stage} {n : Nat}

theorem setFd_of_ne (fs : Fs Pid) (hj : j ≠ i) (fd fd' : Int) (m : Option Nat) :
    (fs.setFd i fd m).fds j fd' = fs.fds j fd' := by
  show Function.update fs.fds i _ j fd' = fs.fds j fd'
  rw [Function.update_of_ne hj]

theorem setFd_self (fs : Fs Pid) (i : Pid) (fd : Int) (m : Option Nat) :
    (fs.setFd i fd m).fds i fd = m := by
  show Function.update fs.fds i _ i fd = m
  rw [Function.update_self, Function.update_self]

omit [DecidableEq Pid] in
theorem shares_out (fs : Fs Pid) (n : Nat) (j : Pid) : Shares fs n j .out := by
  constructor
  · rintro _ ⟨⟩
  · rintro _ _ ⟨⟩
  · rintro _ ⟨⟩

theorem shares_update (hi : Shares fs' n i s') (h : ∀ j, j ≠ i → Shares fs' n j (st j)) (j : Pid) :
    Shares fs' n j (Function.update st i s' j) := by
  by_cases hj : j = i
  · subst hj
    rw [Function.update_self]
    exact hi
  · rw [Function.update_of_ne hj]
    exact h j hj

/-- One move, by which nobody creates the lock file while another one has it open. -/
theorem shares_move (h : ∀ j, Shares fs n j (st j)) (hm : Move fs i (st i) fs' s')
    (hcalm : fs.path = none → fs'.path ≠ none → ∀ j, (st j).fd = none) :
    ∃ n', ∀ j, Shares fs' n' j (Function.update st i s' j) := by
  generalize hs : st i = s at hm
  cases hm with
  | stay =>
    rw [← hs, Function.update_eq_self]
    exact ⟨n, h⟩
  | @opened fd k hp =>
    refine ⟨k, shares_update ⟨?_, ?_, ?_⟩ fun j hj => ?_⟩
    · rintro _ ⟨⟩
      exact setFd_self fs i fd (some k)
    · intro _ p _ hp'
      exact Option.some.inj (hp'.symm.trans hp)
    · rintro _ ⟨⟩
    · have hold : ∀ fd', (st j).fd = some fd' → k = n := fun fd' hfd => (h j).path fd' k hfd hp
      constructor
      · intro fd' hfd
        rw [setFd_of_ne fs hj, hold fd' hfd]
        exact (h j).inode fd' hfd
      · intro fd' p hfd hp'
        exact Option.some.inj (hp'.symm.trans hp)
      · intro fd' hown
        rw [hold fd' (by rw [hown]; rfl)]
        exact (h j).owns fd' hown
  | @created fd hp =>
    have hnobody := hcalm hp (by simp)
    refine ⟨fs.fresh, shares_update ⟨?_, ?_, ?_⟩ fun j hj => ?_⟩
    · rintro _ ⟨⟩
      exact setFd_self fs i fd (some fs.fresh)
    · rintro _ p _ ⟨⟩
      rfl
    · rintro _ ⟨⟩
    · constructor
      · intro fd' hfd
        rw [hnobody j] at hfd
        cases hfd
      · rintro _ p _ ⟨⟩
        rfl
      · intro fd' hown
        have hfd := hnobody j
        rw [hown] at hfd
        cases hfd
  | @locked fd k hfd hfree =>
    have hwait : (st i).fd = some fd := by rw [hs]; rfl
    obtain rfl : k = n := Option.some.inj (hfd.symm.trans ((h i).inode fd hwait))
    refine ⟨k, shares_update ⟨?_, ?_, ?_⟩ fun j hj => ⟨(h j).inode, (h j).path, ?_⟩⟩
    · rintro _ ⟨⟩
      exact hfd
    · exact fun _ p _ hp => (h i).path fd p hwait hp
    · rintro _ ⟨⟩
      exact Function.update_self ..
    · intro fd' hown
      -- the lock was free, so `j` does not hold it
      have hlock := (h j).owns fd' hown
      rcases hfree with hnone | hmine
      · rw [hnone] at hlock
        cases hlock
      · rw [hmine] at hlock
        exact absurd (congrArg Prod.fst (Option.some.inj hlock)).symm hj
  | gaveUp => exact ⟨n, shares_update (shares_out _ _ _) fun j _ => h j⟩
  | @closed fd k hfd =>
    have hown : st i = .owner fd := hs
    obtain rfl : k = n := Option.some.inj (hfd.symm.trans ((h i).inode fd (by rw [hown]; rfl)))
    refine ⟨k, shares_update (shares_out _ _ _) fun j hj => ⟨?_, (h j).path, ?_⟩⟩
    · intro fd' hfd'
      rw [← (h j).inode fd' hfd']
      exact setFd_of_ne fs hj fd fd' none
    · intro fd' hown'
      have hlock := (h j).owns fd' hown'
      have hother : fs.flock k ≠ some (i, fd) := by
        rw [hlock]
        intro heq
        exact hj (congrArg Prod.fst (Option.some.inj heq))
      show (if fs.flock k = some (i, fd) then Function.update fs.flock k none
        else fs.flock) k = some (j, fd')
      rw [if_neg hother]
      exact hlock
  | lost => exact ⟨n, shares_update (shares_out _ _ _) fun j _ => h j⟩
  | unlinked =>
    refine ⟨n, shares_update (shares_out _ _ _) fun j _ => ⟨(h j).inode, ?_, (h j).owns⟩⟩
    rintro _ _ _ ⟨⟩

end

/-! ## Every reachable state -/

/-- The invariant of all runs. -/
def Inv (w : World Pid) : Prop :=
  ∃ st : Pid → Stage, (∀ i, At (w.procs i) (st i)) ∧ ∃ n, ∀ i, Shares w.fs n i (st i)

theorem reached_inv {stale : Bool} {w : World Pid} (hr : Reached Calm (World.start stale) w) : Inv w := by
  apply Reaches.inv hr
  · rintro w e w' ⟨st, hat, n, hsh⟩ hcalm he
    obtain ⟨i, s', hm, hat'⟩ := next_move hat he
    refine ⟨_, hat', shares_move hsh hm fun hnone hsome j => ?_⟩
    rw [← (hat j).lockFd]
    exact hcalm (next_creates he hnone hsome) j
  · exact ⟨fun _ => .out, fun _ => .idle, 0, fun j => shares_out _ _ j⟩

/-- Mutual exclusion, while nobody creates the lock file as long as another one has it open. -/
theorem exclusive_of_calm {stale : Bool} {w : World Pid} (hr : Reached Calm (World.start stale) w) :
    Exclusive w := by
  obtain ⟨st, hat, n, hsh⟩ := reached_inv hr
  have howns : ∀ i, (w.procs i).inside = true → ∃ fd, w.fs.flock n = some (i, fd) := by
    intro i hi
    have hati := hat i
    cases hp : w.procs i with
    | idle => rw [hp] at hi; cases hi
    | run ph p => rw [hp] at hi; cases hi
    | holding fd =>
      rw [hp] at hati
      exact ⟨fd, (hsh i).owns fd hati.of_holding⟩
  intro i j hi hj
  obtain ⟨fd, hfd⟩ := howns i hi
  obtain ⟨fd', hfd'⟩ := howns j hj
  exact congrArg Prod.fst (Option.some.inj (hfd.symm.trans hfd'))

/-- A process takes the lock while another one waits for it. -/
def lockEvents : List (Event (Fin 3)) :=
  [.lock 0 1, .sys 0 0, .sys 0 (-1), .lock 1 1, .sys 1 0, .sys 1 (-1), .sys 0 3,
    .sys 0 0, .done 0, .sys 1 3]

/-- The process that has the lock gives it back, and the one that waits for it gets it. -/
def handOver : List (Event (Fin 3)) := [.unlock 0, .sys 0 0, .sys 1 0, .done 1]

theorem exclusive_of_calm_two : ∃ w : World (Fin 3),
    Reached Calm (World.start false) w ∧ (w.procs 0).inside = true ∧
    (w.procs 1).lockFd = some 3 ∧ Exclusive w := by
  have hrun : ∃ w ∈ replay World.next Calm lockEvents (World.start false), (w.procs 0).inside = true ∧
      (w.procs 1).lockFd = some 3 := by
    decide +kernel
  obtain ⟨w, hw, h0, h1⟩ := hrun
  exact ⟨w, replay_reaches hw, h0, h1, exclusive_of_calm (replay_reaches hw)⟩

/-- The first process closes, the second one gets the lock, the first one unlinks, and a third one
creates a new lock file. -/
theorem lock_not_exclusive :
    ∃ w : World (Fin 3), Reached (fun _ _ => True) (World.start false) w ∧ ¬ Exclusive w := by
  let events := lockEvents ++ handOver ++ [.sys 0 0, .lock 2 1, .sys 2 0, .sys 2 (-1), .sys 2 3, .sys 2 0, .done 2]
  have hrun : ∃ w ∈ replay World.next (fun _ _ => True) events (World.start false), ¬ Exclusive w := by
    decide +kernel
  obtain ⟨w, hw, hbad⟩ := hrun
  exact ⟨w, replay_reaches hw, hbad⟩

end Libfic2.GpioLock
