import LinuxRiscv32.C.Health
import Mathlib.Algebra.Order.Ring.Int

/-!
# Readings of a clock

Reference: `C/shared_lock.h`, `C/timer_accuracy.c`, `C/read_counter.h`.

What the programs that measure time may rely on: `clock_gettime(CLOCK_MONOTONIC, ..)` returns
normalised times that do not decrease.
-/

namespace LinuxRiscv32.Clock

open Health (Timespec)

/-- The nanoseconds since the start of the clock. -/
def ns (t : Timespec) : ℤ := t.sec * 10 ^ 9 + t.nsec

/-- The exact time from `t1` to `t2`, in nanoseconds. -/
def span (t1 t2 : Timespec) : ℤ := ns t2 - ns t1

structure Normalised (t : Timespec) : Prop where
  nonneg : 0 ≤ t.nsec
  lt : t.nsec < 10 ^ 9

/-- What a clock may show at the calls of a program, in their order. -/
structure Readings (ts : List Timespec) : Prop where
  normalised : ∀ t ∈ ts, Normalised t
  sorted : ts.Pairwise fun t1 t2 => ns t1 ≤ ns t2

instance (t : Timespec) : Decidable (Normalised t) :=
  decidable_of_iff (0 ≤ t.nsec ∧ t.nsec < 10 ^ 9) ⟨fun h => ⟨h.1, h.2⟩, fun h => ⟨h.1, h.2⟩⟩

instance (ts : List Timespec) : Decidable (Readings ts) :=
  decidable_of_iff ((∀ t ∈ ts, Normalised t) ∧ ts.Pairwise fun t1 t2 => ns t1 ≤ ns t2)
    ⟨fun h => ⟨h.1, h.2⟩, fun h => ⟨h.1, h.2⟩⟩

variable {t t1 t2 : Timespec} {ts : List Timespec}

/-- The difference by seconds and nanoseconds is the exact one. -/
theorem span_eq (t1 t2 : Timespec) :
    (t2.sec - t1.sec) * 10 ^ 9 + (t2.nsec - t1.nsec) = span t1 t2 := by
  unfold span ns
  omega

theorem Readings.of_sublist {us : List Timespec} (h : Readings ts) (hsub : us.Sublist ts) :
    Readings us :=
  ⟨fun t ht => h.normalised t (hsub.subset ht), h.sorted.sublist hsub⟩

theorem Readings.tail (h : Readings (t :: ts)) : Readings ts :=
  h.of_sublist (List.sublist_cons_self t ts)

/-- Time does not run backwards. -/
theorem Readings.span_nonneg (h : Readings (t1 :: ts)) (ht : t ∈ ts) : 0 ≤ span t1 t :=
  Int.sub_nonneg_of_le (List.rel_of_pairwise_cons h.sorted ht)

end LinuxRiscv32.Clock
