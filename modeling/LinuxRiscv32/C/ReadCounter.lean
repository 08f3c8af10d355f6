import Mathlib.Algebra.Order.Ring.Int
import Mathlib.Tactic.Common

/-!
# Reading a 64-bit counter in two halves

Reference: `C/read_counter.h` (`read_freerun_counter` on RV32), `C/rdtime.h` and `C/access_time.c`
(`read_time_rv32`).

On RV32 the time counter is read with `rdtimeh`, `rdtime` and `rdtimeh` again, and once more from
the start if the high half has changed in between. The counter may advance by any amount between two
reads. What is returned is the whole counter at the moment its low half was read.
-/

namespace LinuxRiscv32.ReadCounter

/-- The value of the counter at every read instruction of the program, in their order. -/
structure Counter where
  sample : ℕ → BitVec 64
  mono : ∀ {i j}, i ≤ j → sample i ≤ sample j

/-- `rdtimeh` -/
def rdtimeh (x : BitVec 64) : BitVec 32 := x.extractLsb' 32 32

/-- `rdtime` -/
def rdtime (x : BitVec 64) : BitVec 32 := x.extractLsb' 0 32

/-- `((uint64_t)hi << 32) | lo` -/
def combine (hi lo : BitVec 32) : BitVec 64 := hi.setWidth 64 <<< 32 ||| lo.setWidth 64

/-- What a call returns, and how many passes of its loop it took. -/
structure Reading where
  value : BitVec 64
  passes : ℕ
deriving DecidableEq, Repr

/-- At most `fuel` passes of the loop, which is about to make the read `i` of the program after
`passes` passes. -/
def loop (c : Counter) (i passes : ℕ) : ℕ → Option Reading
  | 0 => none
  | fuel + 1 =>
    let hi := rdtimeh (c.sample i)
    let lo := rdtime (c.sample (i + 1))
    let hi2 := rdtimeh (c.sample (i + 2))
    if hi ≠ hi2 then loop c (i + 3) (passes + 1) fuel
    else some { value := combine hi lo, passes := passes + 1 }

/-! ## The two halves -/

theorem rdtimeh_toNat (x : BitVec 64) : (rdtimeh x).toNat = x.toNat / 2 ^ 32 := by
  rw [rdtimeh, BitVec.extractLsb'_toNat, Nat.shiftRight_eq_div_pow]
  omega

/-- The halves of one sample make up the sample. -/
theorem combine_halves (x : BitVec 64) : combine (rdtimeh x) (rdtime x) = x := by
  ext i hi
  simp only [combine, rdtimeh, rdtime, BitVec.getElem_or, BitVec.getElem_shiftLeft,
    BitVec.getElem_setWidth, BitVec.getLsbD_extractLsb']
  by_cases h : i < 32
  · simp [h, BitVec.getLsbD_eq_getElem hi]
  · simp [h, show i - 32 < 32 by omega, show 32 + (i - 32) = i by omega,
      BitVec.getLsbD_eq_getElem hi]

/-- The upper half does not decrease. -/
theorem rdtimeh_mono {x y : BitVec 64} (h : x ≤ y) : (rdtimeh x).toNat ≤ (rdtimeh y).toNat := by
  rw [rdtimeh_toNat, rdtimeh_toNat]
  exact Nat.div_le_div_right (BitVec.le_def.mp h)

/-- If the high half is the same before and after, it was the same in between. -/
theorem combine_of_rdtimeh_eq {x y z : BitVec 64} (hxy : x ≤ y) (hyz : y ≤ z)
    (h : rdtimeh x = rdtimeh z) : combine (rdtimeh x) (rdtime y) = y := by
  have hxy' := rdtimeh_mono hxy
  have hyz' := rdtimeh_mono hyz
  rw [← h] at hyz'
  have hhigh : rdtimeh x = rdtimeh y := BitVec.eq_of_toNat_eq (Nat.le_antisymm hxy' hyz')
  rw [hhigh, combine_halves]

/-! ## The loop -/

variable {c : Counter} {i n fuel : ℕ}

/-- A pass that finds the high half unchanged ends the loop. -/
theorem loop_of_eq (h : rdtimeh (c.sample i) = rdtimeh (c.sample (i + 2))) :
    loop c i n (fuel + 1) = some { value := c.sample (i + 1), passes := n + 1 } := by
  rw [loop, if_neg (not_not.mpr h),
    combine_of_rdtimeh_eq (c.mono (Nat.le_succ i)) (c.mono (Nat.le_succ (i + 1))) h]

/-- A pass whose upper halves differ is repeated. -/
theorem loop_of_ne (h : rdtimeh (c.sample i) ≠ rdtimeh (c.sample (i + 2))) :
    loop c i n (fuel + 1) = loop c (i + 3) (n + 1) fuel := by
  rw [loop, if_pos h]

/-- The value returned is the counter at the low-half read of the last pass. -/
theorem loop_spec {r : Reading} (h : loop c i n fuel = some r) :
    n < r.passes ∧ r.value = c.sample (i + 3 * (r.passes - n - 1) + 1) := by
  induction fuel generalizing i n with
  | zero => cases h
  | succ fuel ih =>
    by_cases heq : rdtimeh (c.sample i) = rdtimeh (c.sample (i + 2))
    · rw [loop_of_eq heq] at h
      obtain rfl := Option.some.inj h
      refine ⟨Nat.lt_succ_self n, ?_⟩
      simp
    · rw [loop_of_ne heq] at h
      obtain ⟨hlt, hvalue⟩ := ih h
      refine ⟨by omega, ?_⟩
      rw [hvalue]
      congr 1
      omega

/-- Every pass that does not end the loop has seen the high half grow. -/
theorem le_rdtimeh_of_loop_eq_none (h : loop c i n fuel = none) :
    fuel ≤ (rdtimeh (c.sample (i + 3 * fuel))).toNat := by
  have grows : ∀ fuel i n, loop c i n fuel = none →
      (rdtimeh (c.sample i)).toNat + fuel ≤ (rdtimeh (c.sample (i + 3 * fuel))).toNat := by
    intro fuel
    induction fuel with
    | zero => exact fun i n _ => le_rfl
    | succ fuel ih =>
      intro i n h
      by_cases heq : rdtimeh (c.sample i) = rdtimeh (c.sample (i + 2))
      · rw [loop_of_eq heq] at h
        cases h
      · rw [loop_of_ne heq] at h
        have hrest := ih (i + 3) (n + 1) h
        have hpass := rdtimeh_mono (c.mono (Nat.le_add_right i 2))
        have hnext := rdtimeh_mono (c.mono (Nat.le_succ (i + 2)))
        have hne := mt BitVec.eq_of_toNat_eq heq
        rw [show i + 3 * (fuel + 1) = i + 3 + 3 * fuel by omega]
        change (rdtimeh (c.sample (i + 2))).toNat ≤ (rdtimeh (c.sample (i + 3))).toNat at hnext
        omega
  exact (Nat.le_add_left _ _).trans (grows fuel i n h)

/-- The high half cannot grow for ever. -/
theorem loop_isSome (c : Counter) (i : ℕ) : (loop c i 0 (2 ^ 32)).isSome := by
  rw [Option.isSome_iff_ne_none]
  intro h
  exact absurd (le_rdtimeh_of_loop_eq_none h) (not_le.mpr (rdtimeh _).isLt)

/-- `read_freerun_counter` on RV32, from the read `i` of the program on. -/
def readFreerunCounter (c : Counter) (i : ℕ) : Reading :=
  (loop c i 0 (2 ^ 32)).get (loop_isSome c i)

/-- `read_time_rv32`: the same loop, written in assembly. -/
def readTimeRv32 (c : Counter) (i : ℕ) : Reading :=
  (loop c i 0 (2 ^ 32)).get (loop_isSome c i)

/-! ## What a call returns -/

/-- If the counter advances by less than `2 ^ 32` over two passes, one of them sees no change. -/
theorem passes_le_of_loop {r : Reading} (h : loop c i n fuel = some r)
    (hslow : (c.sample (i + 5)).toNat < (c.sample i).toNat + 2 ^ 32) : r.passes ≤ n + 2 := by
  cases fuel with
  | zero => cases h
  | succ fuel =>
    by_cases hfirst : rdtimeh (c.sample i) = rdtimeh (c.sample (i + 2))
    · rw [loop_of_eq hfirst] at h
      obtain rfl := Option.some.inj h
      exact Nat.le_succ _
    rw [loop_of_ne hfirst] at h
    cases fuel with
    | zero => cases h
    | succ fuel =>
      have hsecond : rdtimeh (c.sample (i + 3)) = rdtimeh (c.sample (i + 3 + 2)) := by
        -- two changes of the high half would take more than `2 ^ 32` steps
        by_contra hne
        have h02 := rdtimeh_mono (c.mono (show i ≤ i + 2 by omega))
        have h23 := rdtimeh_mono (c.mono (show i + 2 ≤ i + 3 by omega))
        have h35 := rdtimeh_mono (c.mono (show i + 3 ≤ i + 3 + 2 by omega))
        have hfirst' := mt BitVec.eq_of_toNat_eq hfirst
        have hne' := mt BitVec.eq_of_toNat_eq hne
        simp only [rdtimeh_toNat] at h02 h23 h35 hfirst' hne'
        change (c.sample (i + 3 + 2)).toNat < _ at hslow
        omega
      rw [loop_of_eq hsecond] at h
      obtain rfl := Option.some.inj h
      exact le_rfl

/-- The call from the read `i` on returns the counter as it was at a moment of the call. -/
structure Exact (read : Counter → ℕ → Reading) (c : Counter) (i : ℕ) : Prop where
  /-- The moment is the low-half read of the accepted pass, which is the last one. -/
  low : (read c i).value = c.sample (i + 3 * ((read c i).passes - 1) + 1)
  between : c.sample i ≤ (read c i).value ∧
    (read c i).value ≤ c.sample (i + 3 * ((read c i).passes - 1) + 2)
  /-- A later call does not return less. -/
  later : ∀ j, i + 3 * (read c i).passes ≤ j → (read c i).value ≤ (read c j).value
  passes : (c.sample (i + 5)).toNat < (c.sample i).toNat + 2 ^ 32 → (read c i).passes ≤ 2

/-- `read_time_rv32` is the loop with enough fuel. -/
theorem readTimeRv32_spec (c : Counter) (i : ℕ) :
    loop c i 0 (2 ^ 32) = some (readTimeRv32 c i) := (Option.some_get _).symm

/-- The value is the sample that the last pass has taken in the middle. -/
theorem readTimeRv32_low (c : Counter) (i : ℕ) : 0 < (readTimeRv32 c i).passes ∧
    (readTimeRv32 c i).value = c.sample (i + 3 * ((readTimeRv32 c i).passes - 1) + 1) :=
  loop_spec (readTimeRv32_spec c i)

/-- The value lies between two samples of the call. -/
theorem readTimeRv32_between (c : Counter) (i : ℕ) : c.sample i ≤ (readTimeRv32 c i).value ∧
    (readTimeRv32 c i).value ≤ c.sample (i + 3 * ((readTimeRv32 c i).passes - 1) + 2) := by
  rw [(readTimeRv32_low c i).2]
  exact ⟨c.mono (by omega), c.mono (by omega)⟩

/-- The value is exact, whatever the counter does in between. -/
theorem readTimeRv32_exact (c : Counter) (i : ℕ) : Exact readTimeRv32 c i where
  low := (readTimeRv32_low c i).2
  between := readTimeRv32_between c i
  later j hj := by
    have hpos := (readTimeRv32_low c i).1
    calc (readTimeRv32 c i).value
        ≤ c.sample (i + 3 * ((readTimeRv32 c i).passes - 1) + 2) := (readTimeRv32_between c i).2
      _ ≤ c.sample j := c.mono (by omega)
      _ ≤ (readTimeRv32 c j).value := (readTimeRv32_between c j).1
  passes hslow := passes_le_of_loop (readTimeRv32_spec c i) hslow

/-- **The two-halves read is exact.** Both functions return the whole counter at the low-half read
of their last pass, whatever it does in between, and take at most two passes unless it advances by
`2 ^ 32` during them. -/
theorem reads_exact (c : Counter) (i : ℕ) : Exact readFreerunCounter c i ∧ Exact readTimeRv32 c i :=
  ⟨readTimeRv32_exact c i, readTimeRv32_exact c i⟩

/-- The low half wraps behind the first read, so a second pass is needed. -/
example : readTimeRv32
    { sample := fun k => if k = 0 then 0xffffffff else 0x100000005
      mono := fun {i j} h => by
        by_cases hi : i = 0 <;> by_cases hj : j = 0
        · simp [hi, hj]
        · simp only [hi, hj, if_true, if_false]
          decide
        · omega
        · simp [hi, hj] } 0 = { value := 0x100000005, passes := 2 } := by decide

end LinuxRiscv32.ReadCounter
