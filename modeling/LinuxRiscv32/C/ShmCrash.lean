import LinuxRiscv32.C.Shm

/-!
# `shm.c`: processes that die with the lock

Reference: `C/shm.c` (`lock_semaphore`, `unlock_semaphore`).

Both operations carry `SEM_UNDO`, so the kernel knows what every process still has to give back.
Here the semaphore was set to 1 once and stays in use: any number of processes lock and unlock it
any number of times, and each of them may end between any two system calls.
-/

namespace LinuxRiscv32.Shm.Crash

open Common Kernel

/-- Where a process is between two calls. One that was not started yet or has ended is `absent`. -/
inductive Phase where
  | absent
  | outside
  | holding
deriving DecidableEq, Repr

/-- A call of a process, its start, or its end by a return from `main`, an `exit(1)` or a kill. -/
inductive Call where
  | start
  | lock
  | unlock
  | exit
deriving DecidableEq, Repr

structure State (P : Type*) where
  sem : SemSet P
  phase : P → Phase

/-- `create_semaphore` has set the value to 1, in a set that may have been used before. -/
def init {P : Type*} (set : SemSet P) : State P :=
  { sem := createSemaphoreSetval set, phase := fun _ => .absent }

section Program

variable {P : Type*} [DecidableEq P]

/-- Process `p` is in phase `b` next, with the set that its `semop` left. -/
def State.after (s : State P) (p : P) (b : Phase) : SemopResult P → Option (State P)
  | .ok set => some { sem := set, phase := Function.update s.phase p b }
  | .wouldBlock | .erange => none

/-- One call of process `p`. A `semop` that fails is followed by `exit(1)`, which is the label
`exit`. -/
def step (s : State P) : P × Call → Option (State P)
  | (p, .start) =>
    if s.phase p = .absent then some { s with phase := Function.update s.phase p .outside }
    else none
  | (p, .lock) =>
    if s.phase p = .outside then s.after p .holding (lockSemaphore s.sem p) else none
  | (p, .unlock) =>
    if s.phase p = .holding then s.after p .outside (unlockSemaphore s.sem p) else none
  | (p, .exit) =>
    if s.phase p = .absent then none
    else some { sem := s.sem.exit p, phase := Function.update s.phase p .absent }

/-- The processes on one semaphore. -/
def machine (P : Type*) [DecidableEq P] : Machine (State P) (P × Call) := ⟨step⟩

theorem after_eq_some {s t : State P} {p : P} {b : Phase} {r : SemopResult P} :
    s.after p b r = some t ↔
      ∃ set, r = .ok set ∧ t = { sem := set, phase := Function.update s.phase p b } := by
  cases r with
  | ok set =>
    rw [State.after, Option.some.injEq, eq_comm]
    simp
  | wouldBlock | erange => simp [State.after]

/-! ## What is free, held and owed -/

/-- One unit in all, and the adjustments owe what the processes hold. -/
def Inv {P : Type*} (s : State P) : Prop :=
  SemSet.Balanced 1 (· = Phase.holding) s.phase s.sem

/-- Behind the `SETVAL` the set is free. -/
theorem inv_init {P : Type*} (set : SemSet P) : Inv (init set) :=
  SemSet.Balanced.setval set (fun _ => Phase.noConfusion) 1

/-- Each step keeps the unit, also the end of a holder, which gives it back. -/
theorem inv_step {s t : State P} {l : P × Call} (hs : Inv s) (h : step s l = some t) : Inv t := by
  obtain ⟨p, c⟩ := l
  cases c with
  | start =>
    obtain ⟨hp, rfl⟩ := Machine.guard_eq_some.mp h
    exact hs.keep (by simp [hp])
  | lock =>
    obtain ⟨hp, hafter⟩ := Option.ite_none_right_eq_some.mp h
    obtain ⟨set, hop, rfl⟩ := after_eq_some.mp hafter
    exact hs.lock hop (by simp [hp]) rfl
  | unlock =>
    obtain ⟨hp, hafter⟩ := Option.ite_none_right_eq_some.mp h
    obtain ⟨set, hop, rfl⟩ := after_eq_some.mp hafter
    exact hs.unlock hop hp Phase.noConfusion
  | exit =>
    obtain ⟨-, rfl⟩ := Machine.refusal_eq_some.mp h
    exact hs.exit (by decide) Phase.noConfusion

/-- The value and the live processes that hold the lock add up to 1, and a live process owes 1
exactly while it holds the lock. -/
structure CrashSafe {P : Type*} (s : State P) : Prop where
  total : (s.sem.semval : ℕ∞) + {p | s.phase p = .holding}.encard = 1
  undo : ∀ p, s.phase p ≠ .absent → s.sem.semadj p = if s.phase p = .holding then 1 else 0

/-- The invariant contains what is asked of a state. -/
theorem crashSafe_of_inv {P : Type*} {s : State P} (hs : Inv s) : CrashSafe s where
  total := hs.total
  undo p _ := hs.undo p

/-- The end of a process gives back what it held, and nothing else. -/
theorem exit_semval {s t : State P} {p : P} (hs : Inv s) (h : step s (p, .exit) = some t) :
    t.sem.semval = s.sem.semval + if s.phase p = .holding then 1 else 0 := by
  obtain ⟨-, rfl⟩ := Machine.refusal_eq_some.mp h
  apply SemSet.exit_semval
  · rw [hs.undo p]
    split <;> simp
  · -- a unit that is held is not free
    have hle : s.sem.semval ≤ 1 := le_of_permits_le hs.total.le
    have hmax : SEMVMX = 32767 := rfl
    split <;> omega

/-- **No lock is lost with a process.** Whatever the processes do and wherever they end, the value
and the holders add up to 1, the undo adjustments are what the processes hold, and the end of a
process gives a held lock back exactly once. -/
theorem crashSafe_of_run {set : SemSet P} {ls : List (P × Call)} {t : State P}
    (hrun : (machine P).run (init set) ls = some t) :
    CrashSafe t ∧ ∀ p u, step t (p, .exit) = some u →
      u.sem.semval = t.sem.semval + if t.phase p = .holding then 1 else 0 := by
  have hinv : Inv t := Machine.invariant_of_step (M := machine P) (fun _ _ _ => inv_step)
    (inv_init set) hrun
  exact ⟨crashSafe_of_inv hinv, fun p u => exit_semval hinv⟩

/-- One process is killed with the lock, and the other one takes it next. -/
def killedHolder : List (Bool × Call) :=
  [(true, .start), (false, .start), (true, .lock), (true, .exit), (false, .lock)]

theorem crashSafe_killedHolder :
    let s := ((machine Bool).run (init (semget none)) killedHolder).get (by decide)
    CrashSafe s ∧ ∀ p u, step s (p, .exit) = some u →
      u.sem.semval = s.sem.semval + if s.phase p = .holding then 1 else 0 :=
  crashSafe_of_run (Option.some_get _).symm

end Program

end LinuxRiscv32.Shm.Crash
