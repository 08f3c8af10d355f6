import LinuxRiscv32.Common.Permits

/-!
# System V semaphore sets of one semaphore

What Linux does for `semget`, `semctl(SETVAL)`, `semop` with `SEM_UNDO` and at process exit. The
set keeps one undo adjustment for every process. `SETVAL` clears all of them. An operation with
`SEM_UNDO` subtracts `sem_op` from the caller's adjustment. Exit adds the adjustment to the value
and clamps the result to the range of a semaphore.
-/

namespace LinuxRiscv32.Kernel

open Common

/-- The largest value of a semaphore. -/
def SEMVMX : ℤ := 32767

/-- The largest undo adjustment. -/
def SEMAEM : ℤ := SEMVMX

/-- A semaphore set with one semaphore. -/
structure SemSet (P : Type*) where
  semval : ℕ
  semadj : P → ℤ

/-- The outcomes of `semop`: the caller sleeps, `ERANGE`, or the set after the operation. -/
inductive SemopResult (P : Type*) where
  | wouldBlock
  | erange
  | ok (set : SemSet P)

variable {P : Type*}

/-- `semget(key, 1, IPC_CREAT | 0666)`: the existing set of the key, or a new one of value 0. -/
def semget (existing : Option (SemSet P)) : SemSet P :=
  existing.getD { semval := 0, semadj := fun _ => 0 }

/-- `semctl(id, 0, SETVAL, val)`. -/
def SemSet.setval (_ : SemSet P) (val : ℕ) : SemSet P :=
  { semval := val, semadj := fun _ => 0 }

@[simp] theorem SemSet.setval_semadj (set : SemSet P) (val : ℕ) (p : P) :
    (set.setval val).semadj p = 0 := rfl

variable [DecidableEq P]

/-- `semop` by process `p` of one operation `semOp` with the flag `SEM_UNDO`. -/
def SemSet.semop (set : SemSet P) (p : P) (semOp : ℤ) : SemopResult P :=
  let result := set.semval + semOp
  let undo := set.semadj p - semOp
  if result < 0 then .wouldBlock
  else if SEMVMX < result then .erange
  else if undo < -SEMAEM - 1 ∨ SEMAEM < undo then .erange
  else .ok { semval := result.toNat, semadj := Function.update set.semadj p undo }

/-- The exit of process `p`: its adjustment is added to the value. -/
def SemSet.exit (set : SemSet P) (p : P) : SemSet P :=
  { semval := (min (max (set.semval + set.semadj p) 0) SEMVMX).toNat
    semadj := Function.update set.semadj p 0 }

/-! ## What one call does -/

/-- A `semop` that neither sleeps nor fails. -/
theorem SemSet.semop_eq_ok {set set' : SemSet P} {p : P} {semOp : ℤ}
    (h : set.semop p semOp = .ok set') :
    0 ≤ set.semval + semOp ∧ set.semval + semOp ≤ SEMVMX ∧
      set'.semval = (set.semval + semOp).toNat ∧
      set'.semadj = Function.update set.semadj p (set.semadj p - semOp) := by
  simp only [SemSet.semop] at h
  split at h
  · cases h
  next hblock =>
    split at h
    · cases h
    next hmax =>
      split at h
      · cases h
      · cases h
        exact ⟨not_lt.mp hblock, not_lt.mp hmax, rfl, rfl⟩

/-- Taking the semaphore consumes one unit, which the adjustment of the caller records. -/
theorem SemSet.semop_down {set set' : SemSet P} {p : P} (h : set.semop p (-1) = .ok set') :
    set.semval = set'.semval + 1 ∧
      set'.semadj = Function.update set.semadj p (set.semadj p + 1) := by
  obtain ⟨hblock, -, hval, hadj⟩ := SemSet.semop_eq_ok h
  exact ⟨by omega, by rw [hadj, sub_neg_eq_add]⟩

/-- Giving the semaphore back adds one unit and takes it off the adjustment of the caller. -/
theorem SemSet.semop_up {set set' : SemSet P} {p : P} (h : set.semop p 1 = .ok set') :
    set'.semval = set.semval + 1 ∧
      set'.semadj = Function.update set.semadj p (set.semadj p - 1) := by
  obtain ⟨-, -, hval, hadj⟩ := SemSet.semop_eq_ok h
  exact ⟨by omega, hadj⟩

/-- Exit gives back what the adjustment says, as long as the value stays within its range. -/
theorem SemSet.exit_semval {set : SemSet P} {p : P} {v : ℕ}
    (hv : (set.semval : ℤ) + set.semadj p = v) (hmax : (v : ℤ) ≤ SEMVMX) :
    (set.exit p).semval = v := by
  show (min (max ((set.semval : ℤ) + set.semadj p) 0) SEMVMX).toNat = v
  omega

omit [DecidableEq P] in
@[simp] theorem semget_some (set : SemSet P) : semget (some set) = set := rfl

/-- A set that does not exist yet behaves like a new one at the exit of a process. -/
theorem semget_map_exit (existing : Option (SemSet P)) (p : P) :
    semget (existing.map (·.exit p)) = (semget existing).exit p := by
  cases existing with
  | some set => rfl
  | none =>
    show SemSet.mk 0 (fun _ => 0) = SemSet.mk 0 (Function.update (fun _ => 0) p 0)
    rw [Function.update_eq_self p fun _ => (0 : ℤ)]

/-! ## Balanced sets

The processes are a population `f`, and the phases `h` are those between taking the semaphore and
giving it back.
-/

/-- Free and held units add up to `n`, and every adjustment is what its process holds. -/
structure SemSet.Balanced {X : Type*} (n : ℕ) (h : X → Prop) [DecidablePred h] (f : P → X)
    (set : SemSet P) : Prop where
  total : permits set.semval h f = n
  undo : ∀ p, set.semadj p = if h (f p) then 1 else 0

namespace SemSet.Balanced

variable {X : Type*} {n : ℕ} {h : X → Prop} [DecidablePred h] {f : P → X} {p : P} {x : X}
  {set set' : SemSet P}

omit [DecidableEq P] in
/-- `SETVAL` while nobody holds the semaphore. -/
theorem setval (set : SemSet P) (hf : ∀ p, ¬ h (f p)) (val : ℕ) :
    Balanced val h f (set.setval val) where
  total := permits_eq_of_forall_not hf
  undo p := by rw [setval_semadj, if_neg (hf p)]

/-- A step of process `p` that is not about the semaphore. -/
theorem keep (hb : Balanced n h f set) (hx : h x ↔ h (f p)) :
    Balanced n h (Function.update f p x) set where
  total := (permits_keep _ hx).trans hb.total
  undo q := by
    rw [hb.undo q]
    by_cases hq : q = p
    · subst hq
      simp only [Function.update_self, hx]
    · rw [Function.update_of_ne hq]

/-- A `semop` by -1 moves the unit to the process. -/
theorem lock (hb : Balanced n h f set) (hop : set.semop p (-1) = .ok set') (h0 : ¬ h (f p))
    (hx : h x) : Balanced n h (Function.update f p x) set' := by
  obtain ⟨hval, hadj⟩ := semop_down hop
  refine ⟨?_, fun q => ?_⟩
  · rw [permits_acquire _ h0 hx, ← hval, hb.total]
  · rw [hadj]
    by_cases hq : q = p
    · subst hq
      rw [Function.update_self, Function.update_self, if_pos hx, hb.undo, if_neg h0, zero_add]
    · rw [Function.update_of_ne hq, Function.update_of_ne hq, hb.undo]

/-- A `semop` by 1 gives the unit back. -/
theorem unlock (hb : Balanced n h f set) (hop : set.semop p 1 = .ok set') (h0 : h (f p))
    (hx : ¬ h x) : Balanced n h (Function.update f p x) set' := by
  obtain ⟨hval, hadj⟩ := semop_up hop
  refine ⟨?_, fun q => ?_⟩
  · rw [hval, permits_release _ h0 hx, hb.total]
  · rw [hadj]
    by_cases hq : q = p
    · subst hq
      rw [Function.update_self, Function.update_self, if_neg hx, hb.undo, if_pos h0, sub_self]
    · rw [Function.update_of_ne hq, Function.update_of_ne hq, hb.undo]

/-- The exit of a process gives back exactly what it held. -/
theorem exit (hb : Balanced n h f set) (hn : (n : ℤ) ≤ SEMVMX) (hx : ¬ h x) :
    Balanced n h (Function.update f p x) (set.exit p) := by
  refine ⟨?_, fun q => ?_⟩
  · -- the adjustment is 1 if the process held the semaphore and 0 if it did not
    by_cases h0 : h (f p)
    · have hlt : set.semval < n := free_lt_of_held hb.total.le h0
      have hval : (set.exit p).semval = set.semval + 1 :=
        exit_semval (by rw [hb.undo, if_pos h0, Nat.cast_succ]) (by omega)
      rw [hval, permits_release _ h0 hx, hb.total]
    · have hle : set.semval ≤ n := le_of_permits_le hb.total.le
      have hval : (set.exit p).semval = set.semval :=
        exit_semval (by rw [hb.undo, if_neg h0, add_zero]) (by omega)
      rw [hval, permits_keep _ (iff_of_false hx h0), hb.total]
  · show Function.update set.semadj p 0 q = _
    by_cases hq : q = p
    · subst hq
      rw [Function.update_self, Function.update_self, if_neg hx]
    · rw [Function.update_of_ne hq, Function.update_of_ne hq, hb.undo]

end SemSet.Balanced

end LinuxRiscv32.Kernel
