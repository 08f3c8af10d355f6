import LinuxRiscv32.C.Clock

/-!
# `timer_accuracy`: intervals of a timer

Reference: `C/timer_accuracy.c`.

Every run of `handler` prints the time since the last one. It is computed in 64 bits and kept in a
`long`, which has 32 bits on RV32: from `2 ^ 31` nanoseconds on, a little more than two seconds, the
number that is printed is too small by a multiple of `2 ^ 32`.
-/

namespace LinuxRiscv32.TimerAccuracy

open Common Clock
open Health (Timespec)

/-- The global variable `prev`, and the intervals that were printed. -/
structure State where
  prev : Timespec
  printed : List ℤ
deriving DecidableEq, Repr

/-- `delta`: the right-hand side has the type of `tv_sec`, which has 64 bits. -/
def delta (prev now : Timespec) : ℤ :=
  s32 (s64 ((now.sec - prev.sec) * 1000000000 + (now.nsec - prev.nsec)))

/-- `handler(sig)`, where the clock shows `now`. -/
def handler (s : State) (now : Timespec) : State :=
  { prev := now, printed := s.printed ++ [delta s.prev now] }

/-- `main` from its reading of `prev` on, with an invocation of the handler for each reading. -/
def run (prev : Timespec) (ts : List Timespec) : State :=
  ts.foldl handler { prev := prev, printed := [] }

/-- The exact times between consecutive readings. -/
def gaps : Timespec → List Timespec → List ℤ
  | _, [] => []
  | prev, now :: ts => span prev now :: gaps now ts

section Runs

variable {prev : Timespec} {ts : List Timespec}

/-- What is printed is the exact time in a `long`. -/
theorem delta_eq (prev now : Timespec) : delta prev now = s32 (span prev now) := by
  rw [delta, s32_s64]
  exact congrArg s32 (span_eq prev now)

theorem foldl_handler_printed (s : State) (ts : List Timespec) :
    (ts.foldl handler s).printed = s.printed ++ (gaps s.prev ts).map s32 := by
  induction ts generalizing s with
  | nil => exact (List.append_nil _).symm
  | cons now ts ih =>
    rw [List.foldl_cons, ih, handler, delta_eq, List.append_assoc]
    rfl

/-- A run prints the times between its readings, each in a `long`. -/
theorem run_printed (prev : Timespec) (ts : List Timespec) :
    (run prev ts).printed = (gaps prev ts).map s32 :=
  foldl_handler_printed { prev := prev, printed := [] } ts

/-- No time between two readings is negative. -/
theorem gaps_nonneg (h : Readings (prev :: ts)) : ∀ g ∈ gaps prev ts, 0 ≤ g := by
  induction ts generalizing prev with
  | nil => exact fun g hg => absurd hg List.not_mem_nil
  | cons now ts ih =>
    exact List.forall_mem_cons.mpr ⟨h.span_nonneg List.mem_cons_self, ih h.tail⟩

/-- The times between the readings make up the time from the first to the last. -/
theorem gaps_sum (prev : Timespec) (ts : List Timespec) :
    (gaps prev ts).sum = span prev (ts.getLastD prev) := by
  induction ts generalizing prev with
  | nil => exact (Int.sub_self _).symm
  | cons now ts ih =>
    rw [gaps, List.sum_cons, ih, List.getLastD_cons]
    unfold span
    omega

end Runs

/-! ## Narrowed sums -/

section Narrowed

variable {gs : List ℤ}

/-- All times are printed as they are exactly if each of them fits. -/
theorem map_s32_eq_iff (h0 : ∀ g ∈ gs, 0 ≤ g) : gs.map s32 = gs ↔ ∀ g ∈ gs, g < 2 ^ 31 := by
  induction gs with
  | nil => exact iff_of_true rfl fun g hg => absurd hg List.not_mem_nil
  | cons g gs ih =>
    obtain ⟨hg, hgs⟩ := List.forall_mem_cons.mp h0
    rw [List.map_cons, List.cons.injEq, List.forall_mem_cons, s32_eq_self_iff hg, ih hgs]

/-- Narrowing makes a sum of non-negative values smaller, and keeps it exactly if it keeps all of
them. -/
theorem sum_map_s32_le (h0 : ∀ g ∈ gs, 0 ≤ g) : (gs.map s32).sum ≤ gs.sum := by
  induction gs with
  | nil => exact le_rfl
  | cons g gs ih =>
    obtain ⟨hg, hgs⟩ := List.forall_mem_cons.mp h0
    rw [List.map_cons, List.sum_cons, List.sum_cons]
    exact Int.add_le_add (s32_le_self hg) (ih hgs)

/-- The sum of the times printed is right exactly if each of them fits. -/
theorem sum_map_s32_eq_iff (h0 : ∀ g ∈ gs, 0 ≤ g) :
    (gs.map s32).sum = gs.sum ↔ ∀ g ∈ gs, g < 2 ^ 31 := by
  induction gs with
  | nil => exact iff_of_true rfl fun g hg => absurd hg List.not_mem_nil
  | cons g gs ih =>
    obtain ⟨hg, hgs⟩ := List.forall_mem_cons.mp h0
    have hle := sum_map_s32_le hgs
    have hself := s32_le_self hg
    rw [List.map_cons, List.sum_cons, List.sum_cons, List.forall_mem_cons, ← s32_eq_self_iff hg,
      ← ih hgs]
    omega

end Narrowed

/-- **Intervals.** For every run on readings of the clock, the intervals that are printed are the
exact ones if and only if no two consecutive readings are `2 ^ 31` nanoseconds apart, and this is
also when they sum up to the time from the first reading to the last one. -/
theorem intervals_exact_iff {prev : Timespec} {ts : List Timespec} (h : Readings (prev :: ts)) :
    ((run prev ts).printed = gaps prev ts ↔ ∀ g ∈ gaps prev ts, g < 2 ^ 31) ∧
      ((run prev ts).printed.sum = span prev (ts.getLastD prev) ↔
        ∀ g ∈ gaps prev ts, g < 2 ^ 31) := by
  rw [run_printed, ← gaps_sum]
  exact ⟨map_s32_eq_iff (gaps_nonneg h), sum_map_s32_eq_iff (gaps_nonneg h)⟩

/-- Two intervals of a millisecond. -/
theorem intervals_exact_iff_milliseconds :
    ((run ⟨5, 999000000⟩ [⟨6, 0⟩, ⟨6, 1000000⟩]).printed =
        gaps ⟨5, 999000000⟩ [⟨6, 0⟩, ⟨6, 1000000⟩] ↔
      ∀ g ∈ gaps ⟨5, 999000000⟩ [⟨6, 0⟩, ⟨6, 1000000⟩], g < 2 ^ 31) ∧
    ((run ⟨5, 999000000⟩ [⟨6, 0⟩, ⟨6, 1000000⟩]).printed.sum = span ⟨5, 999000000⟩ ⟨6, 1000000⟩ ↔
      ∀ g ∈ gaps ⟨5, 999000000⟩ [⟨6, 0⟩, ⟨6, 1000000⟩], g < 2 ^ 31) :=
  intervals_exact_iff (by decide)

/-- The process is stopped for three seconds, and a negative interval is printed. -/
theorem pause_breaks_interval :
    ¬ ∀ (prev : Timespec) (ts : List Timespec), Readings (prev :: ts) →
      (run prev ts).printed = gaps prev ts := by
  intro h
  exact absurd (h ⟨0, 0⟩ [⟨3, 0⟩] (by decide)) (by decide)

end LinuxRiscv32.TimerAccuracy
