import LinuxRiscv32.C.Clock

/-!
# The frequency of the free-running counter

Reference: `C/read_counter.h` (`read_freerun_freq` on RISC-V and on x86).

If neither the device tree nor `cpuid` names the frequency, it is measured: the counter is read
before and after a loop that waits for 10 ms. Nothing bounds how long this takes. The product of the
ticks and `10 ^ 9` is computed in 64 bits, so the ticks must stay below `2 ^ 64 / 10 ^ 9`.
-/

namespace LinuxRiscv32.FreerunFreq

open Common Clock
open Health (Timespec)
open EpollServer (Byte)

/-- `elapsed_ns`, and the condition of the loop. -/
def elapsedNs (t0 t1 : Timespec) : ℤ :=
  s64 ((t1.sec - t0.sec) * 1000000000 + (t1.nsec - t0.nsec))

/-- The loop: the reading `t1` with which it ends. -/
def waitLoop (t0 : Timespec) : List Timespec → Option Timespec
  | [] => none
  | t1 :: ts => if elapsedNs t0 t1 < 10 * 1000 * 1000 then waitLoop t0 ts else some t1

/-- The quotient; `none` is a division by zero. -/
def quotient (c0 c1 elapsedNs : ℤ) : Option ℤ :=
  if u64 elapsedNs = 0 then none
  else some (u64 (u64 (c1 - c0) * 1000000000) / u64 elapsedNs)

/-- The measurement: a reading of the clock and one of the counter, the loop, and one more of the
counter. -/
def measure (t0 : Timespec) (c0 : ℤ) (ts : List Timespec) (c1 : ℤ) : Option ℤ :=
  (waitLoop t0 ts).bind fun t1 => quotient c0 c1 (elapsedNs t0 t1)

/-- `cached_freq` after the file of the device tree, if it can be opened. -/
def deviceTreeFreq : Option (List Byte) → ℤ
  | some (b0 :: b1 :: b2 :: b3 :: _) =>
    (b0.toNat <<< 24 ||| b1.toNat <<< 16 ||| b2.toNat <<< 8 ||| b3.toNat : ℕ)
  | _ => 0

/-- `read_freerun_freq()` on RISC-V. -/
def readFreerunFreqRiscv (cachedFreq : ℤ) (timebaseFrequency : Option (List Byte)) (t0 : Timespec)
    (c0 : ℤ) (ts : List Timespec) (c1 : ℤ) : Option ℤ :=
  if cachedFreq ≠ 0 then some cachedFreq
  else if deviceTreeFreq timebaseFrequency = 0 then measure t0 c0 ts c1
  else some (deviceTreeFreq timebaseFrequency)

/-- What `cpuid` returns: the highest leaf, and three registers of the leaf 0x15. -/
structure Cpuid where
  max : ℤ
  eax : ℤ
  ebx : ℤ
  ecx : ℤ
deriving DecidableEq, Repr

/-- `cpuid` names the frequency. -/
def Cpuid.Known (x : Cpuid) : Prop := x.max ≥ 0x15 ∧ x.eax ≠ 0 ∧ x.ebx ≠ 0 ∧ x.ecx ≠ 0

instance (x : Cpuid) : Decidable x.Known := inferInstanceAs (Decidable (_ ∧ _))

/-- `read_freerun_freq()` on x86. -/
def readFreerunFreqX86 (cachedFreq : ℤ) (x : Cpuid) (t0 : Timespec) (c0 : ℤ) (ts : List Timespec)
    (c1 : ℤ) : Option ℤ :=
  if cachedFreq ≠ 0 then some cachedFreq
  else if x.Known then some (u64 (x.ecx * x.ebx) / x.eax)
  else measure t0 c0 ts c1

/-! ## The measurement -/

section Measure

variable {t0 t1 : Timespec} {ts : List Timespec} {c0 c1 e : ℤ}

/-- The loop ends at one of its readings, and 10 ms have passed there. -/
theorem waitLoop_spec (h : waitLoop t0 ts = some t1) : t1 ∈ ts ∧ 10 ^ 7 ≤ elapsedNs t0 t1 := by
  induction ts with
  | nil => cases h
  | cons t ts ih =>
    rw [waitLoop] at h
    split at h
    · exact ⟨List.mem_cons_of_mem _ (ih h).1, (ih h).2⟩
    next hle =>
      obtain rfl := Option.some.inj h
      exact ⟨List.mem_cons_self, not_lt.mp hle⟩

/-- The 64-bit difference is the exact one as long as that fits. -/
theorem elapsedNs_eq (h0 : 0 ≤ span t0 t1) (h : span t0 t1 < 2 ^ 63) :
    elapsedNs t0 t1 = span t0 t1 :=
  (congrArg s64 (span_eq t0 t1)).trans (s64_of_range (by omega) h)

theorem elapsedNs_lt (t0 t1 : Timespec) : elapsedNs t0 t1 < 2 ^ 63 := Int.bmod_lt (by decide)

/-- A product that has wrapped is smaller by more than twice the divisor, and so is the quotient. -/
theorem wrapped_ediv_ne {p : ℤ} (hp : 2 ^ 64 ≤ p) (h0 : 0 < e) (he : e < 2 ^ 63) :
    u64 p / e ≠ p / e := by
  have hwrap : u64 p + 2 * e ≤ p := by
    unfold u64
    omega
  have hlt : u64 p / e + 2 ≤ p / e := by
    rw [← Int.add_mul_ediv_right _ _ h0.ne']
    exact Int.ediv_le_ediv h0 hwrap
  omega

/-- The quotient is exact if and only if the product fits into 64 bits. -/
theorem quotient_exact_iff (h0 : 0 ≤ c0) (hle : c0 ≤ c1) (hlt : c1 < 2 ^ 64) (he0 : 0 < e)
    (he : e < 2 ^ 63) :
    quotient c0 c1 e = some ((c1 - c0) * 10 ^ 9 / e) ↔ (c1 - c0) * 10 ^ 9 < 2 ^ 64 := by
  have hticks : u64 (c1 - c0) = c1 - c0 := u64_of_range (by omega) (by omega)
  have hdivisor : u64 e = e := u64_of_range he0.le (by omega)
  rw [quotient, hticks, hdivisor, if_neg he0.ne', Option.some.injEq]
  constructor
  · intro heq
    by_contra hwrap
    exact wrapped_ediv_ne (not_lt.mp hwrap) he0 he heq
  · intro hfits
    rw [u64_of_range (by omega) (by omega)]
    rfl

end Measure

/-- The measured frequency is the exact quotient of the ticks by the time, the divisor is positive,
and the product has not wrapped. -/
structure Calibrated (freq : Option ℤ) (t0 : Timespec) (c0 : ℤ) (t1 : Timespec) (c1 : ℤ) :
    Prop where
  divisor : 10 ^ 7 ≤ elapsedNs t0 t1
  product : (c1 - c0) * 10 ^ 9 < 2 ^ 64
  exact : freq = some ((c1 - c0) * 10 ^ 9 / elapsedNs t0 t1)

section Calibration

variable {t0 t1 : Timespec} {ts : List Timespec} {c0 c1 : ℤ}

/-- The frequency is the exact one exactly if the product of the count with 10^9 does not wrap. -/
theorem calibrated_measure_iff (hloop : waitLoop t0 ts = some t1) (h0 : 0 ≤ c0) (hle : c0 ≤ c1)
    (hlt : c1 < 2 ^ 64) :
    Calibrated (measure t0 c0 ts c1) t0 c0 t1 c1 ↔ c1 - c0 ≤ 18446744073 := by
  have hdivisor := (waitLoop_spec hloop).2
  have hexact := quotient_exact_iff h0 hle hlt (show 0 < elapsedNs t0 t1 by omega)
    (elapsedNs_lt t0 t1)
  have hmeasure : measure t0 c0 ts c1 = quotient c0 c1 (elapsedNs t0 t1) := by
    rw [measure, hloop, Option.bind_some]
  rw [hmeasure]
  constructor
  · rintro ⟨-, hproduct, -⟩
    omega
  · intro hticks
    have hproduct : (c1 - c0) * 10 ^ 9 < 2 ^ 64 := by omega
    exact ⟨hdivisor, hproduct, hexact.mpr hproduct⟩

/-- **Calibration.** For all readings of the clock with which the loop ends and all samples of the
counter: the divisor is at least `10 ^ 7` and, for times below `2 ^ 63` nanoseconds, the exact time.
Where neither the device tree nor `cpuid` names the frequency, both functions return the exact
quotient without a wrap if and only if the counter has advanced by at most 18446744073 ticks. -/
theorem calibrated_iff (hclock : Readings (t0 :: ts)) (hloop : waitLoop t0 ts = some t1)
    (h0 : 0 ≤ c0) (hle : c0 ≤ c1) (hlt : c1 < 2 ^ 64) :
    10 ^ 7 ≤ elapsedNs t0 t1 ∧ (span t0 t1 < 2 ^ 63 → elapsedNs t0 t1 = span t0 t1) ∧
    (∀ file, deviceTreeFreq file = 0 →
      (Calibrated (readFreerunFreqRiscv 0 file t0 c0 ts c1) t0 c0 t1 c1 ↔
        c1 - c0 ≤ 18446744073)) ∧
    ∀ x : Cpuid, ¬ x.Known →
      (Calibrated (readFreerunFreqX86 0 x t0 c0 ts c1) t0 c0 t1 c1 ↔
        c1 - c0 ≤ 18446744073) := by
  obtain ⟨hmem, hdivisor⟩ := waitLoop_spec hloop
  have hmeasure := calibrated_measure_iff hloop h0 hle hlt
  refine ⟨hdivisor, elapsedNs_eq (hclock.span_nonneg hmem), fun file hfile => ?_, fun x hx => ?_⟩
  · rw [readFreerunFreqRiscv, if_neg (not_not.mpr rfl), if_pos hfile]
    exact hmeasure
  · rw [readFreerunFreqX86, if_neg (not_not.mpr rfl), if_neg hx]
    exact hmeasure

/-- A measurement of 10 ms. -/
theorem calibrated_iff_tenMs :
    let t0 : Timespec := ⟨1, 995000000⟩
    let t1 : Timespec := ⟨2, 5000000⟩
    let ts : List Timespec := [⟨1, 999000000⟩, t1]
    10 ^ 7 ≤ elapsedNs t0 t1 ∧ (span t0 t1 < 2 ^ 63 → elapsedNs t0 t1 = span t0 t1) ∧
    (∀ file, deviceTreeFreq file = 0 →
      (Calibrated (readFreerunFreqRiscv 0 file t0 7 ts 100007) t0 7 t1 100007 ↔
        (100007 : ℤ) - 7 ≤ 18446744073)) ∧
    ∀ x : Cpuid, ¬ x.Known →
      (Calibrated (readFreerunFreqX86 0 x t0 7 ts 100007) t0 7 t1 100007 ↔
        (100007 : ℤ) - 7 ≤ 18446744073) :=
  calibrated_iff (by decide) (by decide) (by decide) (by decide) (by decide)

/-- The counter runs at 2 GHz, and the process does not run for ten seconds. Both functions return
155325592. -/
theorem preemption_breaks_calibration :
    ¬ ∀ (t0 : Timespec) (ts : List Timespec) (t1 : Timespec) (c0 c1 : ℤ), Readings (t0 :: ts) →
      waitLoop t0 ts = some t1 → 0 ≤ c0 → c0 ≤ c1 → c1 < 2 ^ 64 →
        Calibrated (readFreerunFreqRiscv 0 none t0 c0 ts c1) t0 c0 t1 c1 ∨
          Calibrated (readFreerunFreqX86 0 ⟨0, 0, 0, 0⟩ t0 c0 ts c1) t0 c0 t1 c1 := by
  intro h
  rcases h ⟨0, 0⟩ [⟨10, 0⟩] ⟨10, 0⟩ 0 20000000000 (by decide) (by decide) (by decide) (by decide)
    (by decide) with hfreq | hfreq
  · exact absurd hfreq.exact (by decide)
  · exact absurd hfreq.exact (by decide)

end Calibration

end LinuxRiscv32.FreerunFreq
