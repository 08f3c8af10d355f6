import LinuxRiscv32.Common.Machine
import Mathlib.Algebra.BigOperators.Group.Finset.Basic
import Mathlib.Algebra.Order.BigOperators.Group.Finset

/-!
# Measures

* `Machine.length_add_le` bounds the runs of a machine whose steps lower a measure.
* `Machine.exists_run_eq_zero` continues a run to where the measure is 0, if until then there is a
  step that lowers it.
* `sum_update` is for the measure of a family, of which a step changes one member.
-/

namespace Common

namespace Machine

variable {σ α : Type*} {M : Machine σ α} {I : σ → Prop} {m : σ → ℕ}

/-- A measure that every step lowers bounds the runs. -/
theorem length_add_le {s t : σ} {as : List α}
    (hstep : ∀ s a t, I s → M.step s a = some t → I t ∧ m t < m s) (h0 : I s)
    (hrun : M.run s as = some t) : as.length + m t ≤ m s := by
  induction as generalizing s with
  | nil =>
    rw [run_nil, Option.some.injEq] at hrun
    subst hrun
    exact Nat.le_of_eq (Nat.zero_add _)
  | cons a as ih =>
    obtain ⟨u, hu, hrest⟩ := M.run_cons_eq_some.mp hrun
    obtain ⟨hI, hlt⟩ := hstep s a u h0 hu
    have := ih hI hrest
    rw [List.length_cons]
    omega

/-- A state in which a measure is not 0 has a step that lowers it, and so a run to where it is 0. -/
theorem exists_run_eq_zero
    (hstep : ∀ s, I s → m s ≠ 0 → ∃ a t, M.step s a = some t ∧ I t ∧ m t < m s) {s : σ}
    (h0 : I s) : ∃ as t, M.run s as = some t ∧ I t ∧ m t = 0 := by
  induction hn : m s using Nat.strong_induction_on generalizing s with
  | _ n ih =>
    by_cases hzero : m s = 0
    · exact ⟨[], s, rfl, h0, hzero⟩
    · obtain ⟨a, t, ht, hI, hlt⟩ := hstep s h0 hzero
      obtain ⟨as, u, hrun, hu⟩ := ih (m t) (hn ▸ hlt) hI rfl
      exact ⟨a :: as, u, M.run_cons_eq_some.mpr ⟨t, ht, hrun⟩, hu⟩

end Machine

/-! ## The measure of a family -/

section Sums

variable {ι X : Type*} [Fintype ι] [DecidableEq ι]

/-- A sum over the family changes by what the one member that changes adds to it. -/
theorem sum_update (f : ι → X → ℕ) (s : ι → X) (p : ι) (x : X) :
    ∑ q, f q (Function.update s p x q) + f p (s p) = ∑ q, f q (s q) + f p x := by
  have hrest : ∑ q ∈ Finset.univ.erase p, f q (Function.update s p x q) =
      ∑ q ∈ Finset.univ.erase p, f q (s q) :=
    Finset.sum_congr rfl fun q hq => by rw [Function.update_of_ne (Finset.ne_of_mem_erase hq)]
  have hold := Finset.add_sum_erase Finset.univ (fun q => f q (s q)) (Finset.mem_univ p)
  have hnew := Finset.add_sum_erase Finset.univ (fun q => f q (Function.update s p x q))
    (Finset.mem_univ p)
  simp only [Function.update_self] at hnew
  omega

end Sums

end Common
