import LinuxRiscv32.Common.Machine
import LinuxRiscv32.Common.Permits
import LinuxRiscv32.Kernel.SysVSem
import Mathlib.Tactic.Common

/-!
# `shm.c`: a System V semaphore around a shared memory segment

Reference: `C/shm.c`.

Any number of processes run `main`, each at its own pace. The semaphore set of `SEM_KEY` outlives
them. One label of the machine is one system call of one process. The exit label covers the end of
`main`, an `exit(1)` after a failed call, and a kill: Linux treats the undo adjustment alike in all
of them.
-/

namespace LinuxRiscv32.Shm

open Common Kernel

/-- The points of `main` between its system calls. `critical` lies between the return of
`lock_semaphore` and the call of `unlock_semaphore`; at `unlock` the latter is about to run
`semop`. -/
inductive Pc where
  | idle
  | semget
  | setval
  | shmget
  | shmat
  | lock
  | critical
  | unlock
  | shmdt
  | exited
deriving DecidableEq, Repr

/-- The process took the semaphore and did not give it back yet. -/
def Pc.Holds (pc : Pc) : Prop := pc = .critical ∨ pc = .unlock

instance : DecidablePred Pc.Holds := fun _ => inferInstanceAs (Decidable (_ ∨ _))

/-- The semaphore set of `SEM_KEY`, if it exists, and where every process is. -/
structure State (P : Type*) where
  sem : Option (SemSet P)
  pc : P → Pc

/-- The next system call of a process, or the end of the process. -/
inductive Call where
  | start
  | semget
  | setval
  | shmget
  | shmat
  | lock
  | leave
  | unlock
  | exit
deriving DecidableEq, Repr

/-- Nothing was started and the key is unknown. -/
def init {P : Type*} : State P := { sem := none, pc := fun _ => .idle }

section Program

variable {P : Type*} [DecidableEq P]

/-- Process `p` goes from `a` to `b` while the semaphore set becomes `sem`. -/
def State.advance (s : State P) (p : P) (a b : Pc) (sem : Option (SemSet P)) :
    Option (State P) :=
  if s.pc p = a then some { sem := sem, pc := Function.update s.pc p b } else none

/-- `lock_semaphore`: one `semop` of `-1` with `SEM_UNDO`. -/
def lockSemaphore (set : SemSet P) (p : P) : SemopResult P := set.semop p (-1)

/-- `unlock_semaphore`: one `semop` of `+1` with `SEM_UNDO`. -/
def unlockSemaphore (set : SemSet P) (p : P) : SemopResult P := set.semop p 1

/-- `create_semaphore`, second call: `arg.val = 1` is stored whether the set is new or not. -/
def createSemaphoreSetval (set : SemSet P) : SemSet P := set.setval 1

/-- Continue with the semaphore set that a `semop` left, unless it sleeps or fails. -/
def State.advanceSemop (s : State P) (p : P) (a b : Pc) (op : SemSet P → SemopResult P) :
    Option (State P) :=
  s.sem.bind fun set =>
    match op set with
    | .ok set' => s.advance p a b (some set')
    | .wouldBlock | .erange => none

/-- One system call of process `p`. A failed call prints and exits, which is the label `exit`. -/
def step (s : State P) : P × Call → Option (State P)
  | (p, .start) => s.advance p .idle .semget s.sem
  | (p, .semget) => s.advance p .semget .setval (some (Kernel.semget s.sem))
  | (p, .setval) => s.sem.bind fun set =>
    s.advance p .setval .shmget (some (createSemaphoreSetval set))
  | (p, .shmget) => s.advance p .shmget .shmat s.sem
  | (p, .shmat) => s.advance p .shmat .lock s.sem
  | (p, .lock) => s.advanceSemop p .lock .critical (lockSemaphore · p)
  | (p, .leave) => s.advance p .critical .unlock s.sem
  | (p, .unlock) => s.advanceSemop p .unlock .shmdt (unlockSemaphore · p)
  | (p, .exit) =>
    if s.pc p = .idle ∨ s.pc p = .exited then none
    else some { sem := s.sem.map (·.exit p), pc := Function.update s.pc p .exited }

/-- The processes of `shm.c` on one kernel. -/
def machine (P : Type*) [DecidableEq P] : Machine (State P) (P × Call) := ⟨step⟩

theorem advance_eq_some {s t : State P} {p : P} {a b : Pc} {sem : Option (SemSet P)} :
    s.advance p a b sem = some t ↔
      s.pc p = a ∧ t = { sem := sem, pc := Function.update s.pc p b } :=
  Machine.guard_eq_some

theorem advanceSemop_eq_some {s t : State P} {p : P} {a b : Pc}
    {op : SemSet P → SemopResult P} :
    s.advanceSemop p a b op = some t ↔
      ∃ set set', s.sem = some set ∧ op set = .ok set' ∧ s.pc p = a ∧
        t = { sem := some set', pc := Function.update s.pc p b } := by
  rw [State.advanceSemop, Option.bind_eq_some_iff]
  constructor
  · rintro ⟨set, hset, hop⟩
    cases hres : op set with
    | ok set' =>
      rw [hres] at hop
      exact ⟨set, set', hset, hres, advance_eq_some.mp hop⟩
    | wouldBlock => simp [hres] at hop
    | erange => simp [hres] at hop
  · rintro ⟨set, set', hset, hres, hmove⟩
    refine ⟨set, hset, ?_⟩
    rw [hres]
    exact advance_eq_some.mpr hmove

/-- What a step can do to the semaphore set and to the process that makes it. A set that does not
exist yet counts as the one that `semget` would create. -/
inductive Effect (s t : State P) (p : P) (c : Call) : Prop where
  | quiet (b : Pc) (hpc : t.pc = Function.update s.pc p b) (hb : b.Holds ↔ (s.pc p).Holds)
      (hsem : semget t.sem = semget s.sem)
  | set (hc : c = .setval) (hpc : t.pc = Function.update s.pc p .shmget) (hp : s.pc p = .setval)
      (hsem : semget t.sem = createSemaphoreSetval (semget s.sem))
  | take (hpc : t.pc = Function.update s.pc p .critical) (hp : s.pc p = .lock)
      (hop : lockSemaphore (semget s.sem) p = .ok (semget t.sem))
  | give (hpc : t.pc = Function.update s.pc p .shmdt) (hp : s.pc p = .unlock)
      (hop : unlockSemaphore (semget s.sem) p = .ok (semget t.sem))
  | exit (hpc : t.pc = Function.update s.pc p .exited)
      (hsem : semget t.sem = (semget s.sem).exit p)

/-- Every step has one of these effects. -/
theorem step_effect {s t : State P} {p : P} {c : Call} (h : step s (p, c) = some t) :
    Effect s t p c := by
  cases c with
  | start | semget | shmget | shmat | leave =>
    obtain ⟨hp, rfl⟩ := advance_eq_some.mp h
    exact .quiet _ rfl (by rw [hp]; decide) rfl
  | setval =>
    obtain ⟨set, hset, hmove⟩ := Option.bind_eq_some_iff.mp h
    obtain ⟨hp, rfl⟩ := advance_eq_some.mp hmove
    exact .set rfl rfl hp (by rw [hset, semget_some, semget_some])
  | lock =>
    obtain ⟨set, set', hset, hop, hp, rfl⟩ := advanceSemop_eq_some.mp h
    exact .take rfl hp (by rw [hset, semget_some, semget_some]; exact hop)
  | unlock =>
    obtain ⟨set, set', hset, hop, hp, rfl⟩ := advanceSemop_eq_some.mp h
    exact .give rfl hp (by rw [hset, semget_some, semget_some]; exact hop)
  | exit =>
    simp only [step] at h
    split at h
    · cases h
    · cases h
      exact .exit rfl (semget_map_exit s.sem p)

/-! ## Mutual exclusion

`create_semaphore` stores 1 into a set that other processes may already use. As long as nobody
holds the semaphore at that moment, the set stays balanced.
-/

/-- At most one process is between the return of `lock_semaphore` and the call of
`unlock_semaphore`, and the semaphore value is at most 1. -/
def MutualExclusion {P : Type*} (s : State P) : Prop :=
  (∀ p q, s.pc p = .critical → s.pc q = .critical → p = q) ∧ ∀ set ∈ s.sem, set.semval ≤ 1

/-- One process up to its lock. -/
def acquire {P : Type*} (p : P) : List (P × Call) :=
  [.start, .semget, .setval, .shmget, .shmat, .lock].map (p, ·)

/-- One process from its lock to its end. -/
def release {P : Type*} (p : P) : List (P × Call) :=
  [.leave, .unlock, .exit].map (p, ·)

/-- A second process that starts inside the critical section of the first one enters its own. -/
theorem late_start_breaks_mutualExclusion :
    ¬ ∀ (ls : List (Bool × Call)) (t : State Bool),
      (machine Bool).run init ls = some t → MutualExclusion t := by
  intro h
  obtain ⟨hone, -⟩ := h (acquire true ++ acquire false) _ rfl
  exact absurd (hone true false rfl rfl) (by decide)

/-- `SETVAL` is executed only while no process holds the semaphore. -/
def SetvalWhileFree {P : Type*} (s : State P) (l : P × Call) : Prop :=
  l.2 = .setval → ∀ q, ¬ (s.pc q).Holds

instance [Fintype P] (s : State P) (l : P × Call) : Decidable (SetvalWhileFree s l) :=
  inferInstanceAs (Decidable (_ → _))

/-- The set is balanced, with one unit in all from the first `SETVAL` on and none before. -/
def Inv {P : Type*} (s : State P) : Prop :=
  ∃ n ≤ 1, SemSet.Balanced n Pc.Holds s.pc (semget s.sem)

/-- There is no set at first. -/
theorem inv_init {P : Type*} : Inv (init : State P) :=
  ⟨0, Nat.zero_le 1, SemSet.Balanced.setval (semget none)
    (fun _ => (by decide : ¬ Pc.idle.Holds)) 0⟩

/-- A step that sets the value only while the set is free preserves the invariant. -/
theorem inv_step {s t : State P} {l : P × Call} (hs : Inv s) (hl : SetvalWhileFree s l)
    (h : step s l = some t) : Inv t := by
  obtain ⟨p, c⟩ := l
  obtain ⟨n, hn, hbal⟩ := hs
  cases step_effect h with
  | quiet b hpc hb hsem =>
    refine ⟨n, hn, ?_⟩
    rw [hpc, hsem]
    exact hbal.keep hb
  | set hc hpc hp hsem =>
    refine ⟨1, le_rfl, ?_⟩
    rw [hpc, hsem]
    exact (SemSet.Balanced.setval _ (hl hc) 1).keep (by rw [hp]; decide)
  | take hpc hp hop =>
    refine ⟨n, hn, ?_⟩
    rw [hpc]
    exact hbal.lock hop (by rw [hp]; decide) (by decide)
  | give hpc hp hop =>
    refine ⟨n, hn, ?_⟩
    rw [hpc]
    exact hbal.unlock hop (by rw [hp]; decide) (by decide)
  | exit hpc hsem =>
    refine ⟨n, hn, ?_⟩
    rw [hpc, hsem]
    exact hbal.exit ((Nat.cast_le.mpr hn).trans (by decide)) (by decide)

/-- With one unit there is room for one process. -/
theorem mutualExclusion_of_inv {P : Type*} {s : State P} (hs : Inv s) : MutualExclusion s := by
  obtain ⟨n, hn, hbal⟩ := hs
  refine ⟨fun p q hp hq => ?_, fun set hset => ?_⟩
  · have htotal := hbal.total.trans_le (Nat.cast_le.mpr hn)
    exact eq_of_permits_le_one htotal (.inl hp) (.inl hq)
  · rw [Option.mem_def.mp hset, semget_some] at hbal
    exact (le_of_permits_le hbal.total.le).trans hn

/-- **Mutual exclusion while no `SETVAL` meets a holder.** In every run whose `SETVAL` steps are all
taken while nobody holds the semaphore, every state reached excludes a second process. -/
theorem mutualExclusion_of_setvalWhileFree {ls : List (P × Call)} {t : State P}
    (hfree : (machine P).Along SetvalWhileFree init ls) (hrun : (machine P).run init ls = some t) :
    MutualExclusion t :=
  mutualExclusion_of_inv (Machine.invariant (fun _ _ _ => inv_step) inv_init hfree hrun)

/-- The second process starts when the first one is through. -/
theorem mutualExclusion_one_after_the_other :
    MutualExclusion (((machine Bool).run init (acquire true ++ release true ++ acquire false)).get
      (by decide)) :=
  mutualExclusion_of_setvalWhileFree (by decide) (Option.some_get _).symm

/-- After `SETVAL` the process that made it can take the stored unit, whoever held it before. -/
theorem run_setval_to_lock {s : State P} {set : SemSet P} {p : P} (hset : s.sem = some set)
    (hp : s.pc p = .setval) :
    (machine P).run s ([.setval, .shmget, .shmat, .lock].map (p, ·)) =
      some { sem := some { semval := 0, semadj := Function.update (fun _ => 0) p 1 }
             pc := Function.update s.pc p .critical } := by
  simp [machine, Machine.run_cons, step, State.advance, State.advanceSemop, hset, hp,
    lockSemaphore, SemSet.semop, createSemaphoreSetval, SemSet.setval, SEMVMX, SEMAEM]

/-- A `SETVAL` that meets a holder is never harmless: the run can go on to two critical sections or
to the value 2. -/
theorem setval_while_held_breaks {s : State P} {set : SemSet P} {p q : P} (hset : s.sem = some set)
    (hp : s.pc p = .setval) (hq : (s.pc q).Holds) :
    ∃ ls t, (machine P).run s ((p, .setval) :: ls) = some t ∧ ¬ MutualExclusion t := by
  have hpq : q ≠ p := fun h => by
    rw [h, hp] at hq
    exact absurd hq (by decide)
  have hlock := run_setval_to_lock hset hp
  rcases hq with hq | hq
  · -- the holder is still in its critical section when `p` takes the stored unit
    refine ⟨_, _, hlock, fun h => hpq (h.1 q p ?_ ?_)⟩
    · simpa [Function.update_of_ne hpq] using hq
    · simp
  · -- the holder is about to add its unit, and so is `p` when it leaves
    have hunlock : (machine P).run s ([.setval, .shmget, .shmat, .lock].map (p, ·) ++
        [(q, .unlock), (p, .leave), (p, .unlock)]) = some
          { sem := some { semval := 2, semadj := Function.update (Function.update
              (Function.update (fun _ => 0) p 1) q (-1)) p 0 }
            pc := Function.update (Function.update (Function.update s.pc p .critical) q .shmdt) p
              .shmdt } := by
      rw [Machine.run_append, hlock]
      simp [machine, Machine.run_cons, step, State.advance, State.advanceSemop, hq, hpq, hpq.symm,
        unlockSemaphore, SemSet.semop, SEMVMX, SEMAEM, Function.update_idem]
    exact ⟨_, _, hunlock, fun h => absurd (h.2 _ rfl) (by decide : ¬ 2 ≤ 1)⟩

end Program

end LinuxRiscv32.Shm
