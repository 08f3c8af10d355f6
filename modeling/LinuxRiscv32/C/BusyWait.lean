import LinuxRiscv32.C.Clock

/-!
# `busy_wait_ms` and the rounding of times

Reference: `C/shared_lock.h` (`busy_wait_ms`), `C/health.c`, `C/cpu_hog.c`.

Three programs count the milliseconds between two readings by the same expression. It takes the
seconds and the nanoseconds apart, and C rounds the quotient of a negative difference of nanoseconds
up: the count is then one more than the milliseconds that have passed, unless the difference is a
whole number of milliseconds.
-/

namespace LinuxRiscv32.BusyWait

open Common Clock
open Health (Timespec)

/-- The value assigned to `elapsed`, before it is converted to a `long`. -/
def msCount (t1 t2 : Timespec) : ℤ :=
  (t2.sec - t1.sec) * 1000 + (t2.nsec - t1.nsec).tdiv 1000000

/-- `elapsed` -/
def elapsed (t1 t2 : Timespec) : ℤ := s32 (msCount t1 t2)

/-- The loop of `busy_wait_ms(ms)`: the reading at which it is left, if the readings reach that far.
-/
def busyWaitLoop (ms : ℤ) (t1 : Timespec) : List Timespec → Option Timespec
  | [] => none
  | t2 :: ts => if elapsed t1 t2 ≥ ms then some t2 else busyWaitLoop ms t1 ts

/-- `busy_wait_ms(ms)`, by the readings of its calls. -/
def busyWaitMs (ms : ℤ) : List Timespec → Option Timespec
  | [] => none
  | t1 :: ts => busyWaitLoop ms t1 ts

/-- A line that `cpu_hog` prints, without the quotient of its two numbers, and the readings that it
is about. -/
structure Report where
  count : ℤ
  elapsed : ℤ
  t1 : Timespec
  t2 : Timespec
deriving DecidableEq, Repr

/-- Where the next reading of `cpu_hog` goes. -/
inductive HogPc where
  | t1
  | t2 (count : ℤ) (t1 : Timespec)

/-- `main` of `cpu_hog`, by the readings of its calls: what it prints. -/
def cpuHog : HogPc → List Timespec → List Report
  | _, [] => []
  | .t1, t :: ts => cpuHog (.t2 0 t) ts
  | .t2 count t1, t2 :: ts =>
    let count := s32 (count + 1)
    if elapsed t1 t2 ≥ 5000 then
      { count := count, elapsed := elapsed t1 t2, t1 := t1, t2 := t2 } :: cpuHog .t1 ts
    else cpuHog (.t2 count t1) ts

/-- The nanoseconds of `t2` are behind those of `t1`, and not by whole milliseconds. -/
def Borrows (t1 t2 : Timespec) : Prop :=
  t2.nsec < t1.nsec ∧ ¬ (1000000 : ℤ) ∣ t2.nsec - t1.nsec

instance (t1 t2 : Timespec) : Decidable (Borrows t1 t2) := inferInstanceAs (Decidable (_ ∧ _))

/-- Every count of milliseconds fits into a `long`. -/
def Fits (ts : List Timespec) : Prop := ts.Pairwise fun t1 t2 => msCount t1 t2 < 2 ^ 31

instance (ts : List Timespec) : Decidable (Fits ts) :=
  inferInstanceAs (Decidable (List.Pairwise _ _))

/-! ## The count -/

section Count

variable {t1 t2 : Timespec}

/-- The count is the number of milliseconds that have passed, and one more if nanoseconds are
borrowed from a second. -/
theorem msCount_eq (t1 t2 : Timespec) :
    msCount t1 t2 = span t1 t2 / 1000000 + if Borrows t1 t2 then 1 else 0 := by
  have hspan : span t1 t2 = (t2.nsec - t1.nsec) + (t2.sec - t1.sec) * 1000 * 1000000 := by
    unfold span ns
    omega
  rw [hspan, Int.add_mul_ediv_right _ _ (by decide), msCount, Int.tdiv_eq_ediv]
  by_cases hdvd : (1000000 : ℤ) ∣ t2.nsec - t1.nsec
  · rw [if_pos (.inr hdvd), if_neg fun h => h.2 hdvd]
    omega
  · by_cases hneg : t2.nsec < t1.nsec
    · rw [if_neg (by omega), if_pos ⟨hneg, hdvd⟩]
      show _ + (_ + 1) = _
      omega
    · rw [if_pos (.inl (by omega)), if_neg fun h => hneg h.1]
      omega

/-- What is computed is the elapsed time in whole milliseconds, and 1 more if the nanoseconds
borrow. -/
theorem elapsed_eq (h0 : 0 ≤ span t1 t2) (hfits : msCount t1 t2 < 2 ^ 31) :
    elapsed t1 t2 = span t1 t2 / 1000000 + if Borrows t1 t2 then 1 else 0 := by
  have hcount := msCount_eq t1 t2
  have hdiv := Int.ediv_nonneg h0 (show (0 : ℤ) ≤ 1000000 by decide)
  rw [elapsed, s32_of_range ?_ hfits, hcount]
  rw [hcount]
  split <;> omega

/-- Where nanoseconds are borrowed, the time is no whole number of milliseconds. -/
theorem borrows_iff :
    Borrows t1 t2 ↔ t2.nsec < t1.nsec ∧ ¬ (1000000 : ℤ) ∣ span t1 t2 := by
  unfold Borrows span ns
  omega

/-- The count exceeds the time that has passed exactly where nanoseconds are borrowed. -/
theorem elapsed_le_iff (h0 : 0 ≤ span t1 t2) (hfits : msCount t1 t2 < 2 ^ 31) :
    elapsed t1 t2 * 1000000 ≤ span t1 t2 ↔ ¬ Borrows t1 t2 := by
  rw [elapsed_eq h0 hfits]
  split
  next h => exact iff_of_false (by have := (borrows_iff.mp h).2; omega) (not_not.mpr h)
  next h => exact iff_of_true (by omega) h

end Count

/-! ## Waiting -/

section Wait

variable {ms : ℤ} {t1 t t2 : Timespec} {ts : List Timespec}

/-- The loop ends with a reading of the clock at which the computed time has passed. -/
theorem busyWaitLoop_spec (h : busyWaitLoop ms t1 ts = some t2) : t2 ∈ ts ∧ ms ≤ elapsed t1 t2 := by
  induction ts with
  | nil => cases h
  | cons t ts ih =>
    rw [busyWaitLoop] at h
    split at h
    next hle =>
      obtain rfl := Option.some.inj h
      exact ⟨List.mem_cons_self, hle⟩
    next => exact ⟨List.mem_cons_of_mem _ (ih h).1, (ih h).2⟩

/-- The loop is left at the latest at a reading whose count is large enough. -/
theorem busyWaitLoop_le (hsorted : ts.Pairwise fun a b => ns a ≤ ns b) (ht : t ∈ ts)
    (h : ms ≤ elapsed t1 t) : ∃ t2, busyWaitLoop ms t1 ts = some t2 ∧ ns t2 ≤ ns t := by
  induction ts with
  | nil => cases ht
  | cons u us ih =>
    obtain ⟨hu, hus⟩ := List.pairwise_cons.mp hsorted
    rw [busyWaitLoop]
    split
    next =>
      refine ⟨u, rfl, ?_⟩
      rcases List.mem_cons.mp ht with rfl | hmem
      · exact le_rfl
      · exact hu t hmem
    next hlt =>
      rcases List.mem_cons.mp ht with rfl | hmem
      · exact absurd h hlt
      · exact ih hus hmem

/-- `busy_wait_ms` returns early exactly if some reading borrows and falls into the last
millisecond. -/
theorem busyWaitMs_early_iff (hclock : Readings (t1 :: ts)) (hfits : Fits (t1 :: ts)) :
    (∀ t2, busyWaitMs ms (t1 :: ts) = some t2 → ms * 1000000 ≤ span t1 t2) ↔
      ∀ t ∈ ts, t.nsec < t1.nsec →
        ¬ ((ms - 1) * 1000000 < span t1 t ∧ span t1 t < ms * 1000000) := by
  have helapsed {t : Timespec} (ht : t ∈ ts) :=
    elapsed_eq (hclock.span_nonneg ht) (List.rel_of_pairwise_cons hfits ht)
  constructor
  · rintro hnever t ht hnsec ⟨hlow, hhigh⟩
    have hborrows : Borrows t1 t := borrows_iff.mpr ⟨hnsec, by omega⟩
    have hcount := helapsed ht
    rw [if_pos hborrows] at hcount
    have hleaves : ms ≤ elapsed t1 t := by omega
    obtain ⟨t2, hloop, hle⟩ := busyWaitLoop_le hclock.tail.sorted ht hleaves
    have hlate := hnever t2 hloop
    unfold span at hlate hhigh
    omega
  · intro hsafe t2 hloop
    obtain ⟨ht2, hle⟩ := busyWaitLoop_spec hloop
    rw [helapsed ht2] at hle
    by_contra hearly
    by_cases hborrows : Borrows t1 t2
    · obtain ⟨hnsec, hdvd⟩ := borrows_iff.mp hborrows
      rw [if_pos hborrows] at hle
      exact hsafe t2 ht2 hnsec ⟨by omega, by omega⟩
    · rw [if_neg hborrows] at hle
      omega

end Wait

/-! ## The reports of `cpu_hog` -/

section Hog

/-- The reading that `cpu_hog` keeps. -/
def HogPc.kept : HogPc → List Timespec
  | .t1 => []
  | .t2 _ t => [t]

/-- A report is about two readings, one before the other. -/
theorem cpuHog_spec {pc : HogPc} {ts : List Timespec} {r : Report} (h : r ∈ cpuHog pc ts) :
    r.elapsed = elapsed r.t1 r.t2 ∧ [r.t1, r.t2].Sublist (pc.kept ++ ts) := by
  induction ts generalizing pc with
  | nil => cases pc <;> cases h
  | cons t ts ih =>
    cases pc with
    | t1 => exact ih h
    | t2 count t1 =>
      rw [cpuHog] at h
      split at h
      · rcases List.mem_cons.mp h with rfl | hmem
        · exact ⟨rfl, ((List.nil_sublist ts).cons_cons t).cons_cons t1⟩
        · obtain ⟨helapsed, hsub⟩ := ih hmem
          exact ⟨helapsed, (hsub.cons t).cons t1⟩
      · obtain ⟨helapsed, hsub⟩ := ih h
        exact ⟨helapsed, hsub.trans ((List.sublist_cons_self t ts).cons_cons t1)⟩

end Hog

/-- **Milliseconds.** For all readings of the clock whose counts fit into a `long`: `busy_wait_ms`
never returns early if and only if no reading with fewer nanoseconds than the first one falls into
the last millisecond; and the count of `busy_wait_ms`, the waiting time of `health` and what
`cpu_hog` reports exceed the time that has passed exactly where nanoseconds are borrowed. -/
theorem milliseconds_iff {t1 : Timespec} {ts : List Timespec} (hclock : Readings (t1 :: ts))
    (hfits : Fits (t1 :: ts)) :
    (∀ ms, (∀ t2, busyWaitMs ms (t1 :: ts) = some t2 → ms * 1000000 ≤ span t1 t2) ↔
      ∀ t ∈ ts, t.nsec < t1.nsec →
        ¬ ((ms - 1) * 1000000 < span t1 t ∧ span t1 t < ms * 1000000)) ∧
    (∀ t ∈ ts, (elapsed t1 t * 1000000 ≤ span t1 t ↔ ¬ Borrows t1 t) ∧
      (Health.delayMs t1 t * 1000000 ≤ span t1 t ↔ ¬ Borrows t1 t)) ∧
    ∀ r ∈ cpuHog .t1 (t1 :: ts),
      r.elapsed * 1000000 ≤ span r.t1 r.t2 ↔ ¬ Borrows r.t1 r.t2 := by
  refine ⟨fun ms => busyWaitMs_early_iff hclock hfits, fun t ht => ?_, fun r hr => ?_⟩
  · have hle := elapsed_le_iff (hclock.span_nonneg ht) (List.rel_of_pairwise_cons hfits ht)
    exact ⟨hle, hle⟩
  · obtain ⟨helapsed, hsub⟩ := cpuHog_spec hr
    have hpair := hclock.of_sublist hsub
    have hfit := List.Pairwise.sublist hsub hfits
    rw [helapsed]
    exact elapsed_le_iff (hpair.span_nonneg List.mem_cons_self)
      (List.rel_of_pairwise_cons hfit List.mem_cons_self)

/-- A wait of 100 ms that starts in the last nanosecond of a second returns after 99000001 ns. -/
theorem wait_returns_early :
    ¬ ∀ (ms : ℤ) (t1 : Timespec) (ts : List Timespec), 0 ≤ ms → Readings (t1 :: ts) →
      Fits (t1 :: ts) → ∀ t2, busyWaitMs ms (t1 :: ts) = some t2 → ms * 1000000 ≤ span t1 t2 := by
  intro h
  exact absurd (h 100 ⟨0, 999999999⟩ [⟨1, 99000000⟩] (by decide) (by decide) (by decide)
    ⟨1, 99000000⟩ (by decide)) (by decide)

/-- Two readings, of which the second one borrows. -/
theorem milliseconds_iff_borrow :
    (∀ ms, (∀ t2, busyWaitMs ms [⟨0, 999999999⟩, ⟨1, 500000⟩] = some t2 →
        ms * 1000000 ≤ span ⟨0, 999999999⟩ t2) ↔
      ∀ t ∈ [(⟨1, 500000⟩ : Timespec)], t.nsec < 999999999 →
        ¬ ((ms - 1) * 1000000 < span ⟨0, 999999999⟩ t ∧ span ⟨0, 999999999⟩ t < ms * 1000000)) ∧
    (∀ t ∈ [(⟨1, 500000⟩ : Timespec)],
      (elapsed ⟨0, 999999999⟩ t * 1000000 ≤ span ⟨0, 999999999⟩ t ↔ ¬ Borrows ⟨0, 999999999⟩ t) ∧
      (Health.delayMs ⟨0, 999999999⟩ t * 1000000 ≤ span ⟨0, 999999999⟩ t ↔
        ¬ Borrows ⟨0, 999999999⟩ t)) ∧
    ∀ r ∈ cpuHog .t1 [⟨0, 999999999⟩, ⟨1, 500000⟩],
      r.elapsed * 1000000 ≤ span r.t1 r.t2 ↔ ¬ Borrows r.t1 r.t2 :=
  milliseconds_iff (by decide) (by decide)

end LinuxRiscv32.BusyWait
