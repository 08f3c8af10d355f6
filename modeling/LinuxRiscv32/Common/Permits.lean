import Mathlib.Data.Set.Card

/-!
# Free and held permits

A counter of free permits is shared by a population whose members each hold one permit in some
phases and none in the others. `permits v h f` counts the free ones and the held ones together.
Taking and giving back a permit leave the total unchanged, so a total of at most one is the
invariant behind mutual exclusion, for a population of any size.
-/

namespace Common

variable {ι X : Type*}

/-- How many members of the population `f` are in a phase that satisfies `h`. -/
noncomputable def census (h : X → Prop) (f : ι → X) : ℕ∞ := {i | h (f i)}.encard

/-- The `v` free permits together with those that the members in a phase `h` hold. -/
noncomputable def permits (v : ℕ) (h : X → Prop) (f : ι → X) : ℕ∞ := v + census h f

theorem census_eq_zero {h : X → Prop} {f : ι → X} (hf : ∀ i, ¬ h (f i)) : census h f = 0 := by
  rw [census, Set.encard_eq_zero]
  exact Set.eq_empty_of_forall_notMem hf

/-- If at most one member is in a phase, two members in that phase are the same. -/
theorem eq_of_census_le_one {h : X → Prop} {f : ι → X} (hc : census h f ≤ 1) {i j : ι}
    (hi : h (f i)) (hj : h (f j)) : i = j :=
  Set.encard_le_one_iff.mp hc i j hi hj

section Update

variable [DecidableEq ι] {h : X → Prop} {f : ι → X} {i : ι} {x : X}

/-- A member that moves between two phases of the same kind does not change the count. -/
theorem census_keep (hx : h x ↔ h (f i)) : census h (Function.update f i x) = census h f := by
  refine congrArg Set.encard (Set.ext fun j => ?_)
  by_cases hj : j = i
  · subst hj
    simpa using hx
  · simp [Function.update_of_ne hj]

/-- One more member has the property. -/
theorem census_enter (h0 : ¬ h (f i)) (hx : h x) :
    census h (Function.update f i x) = census h f + 1 := by
  have hset : {j | h (Function.update f i x j)} = insert i {j | h (f j)} := by
    ext j
    by_cases hj : j = i
    · subst hj
      simpa using hx
    · simp [hj]
  have hmem : i ∉ {j | h (f j)} := h0
  rw [census, hset, Set.encard_insert_of_notMem hmem, census]

/-- One member fewer has it. -/
theorem census_leave (h0 : h (f i)) (hx : ¬ h x) :
    census h (Function.update f i x) + 1 = census h f := by
  have hback : Function.update (Function.update f i x) i (f i) = f := by
    rw [Function.update_idem, Function.update_eq_self]
  have henter := census_enter (f := Function.update f i x) (i := i) (x := f i)
    (by rwa [Function.update_self]) h0
  rw [hback] at henter
  exact henter.symm

/-! ## The three kinds of step -/

theorem permits_keep (v : ℕ) (hx : h x ↔ h (f i)) :
    permits v h (Function.update f i x) = permits v h f := by
  rw [permits, census_keep hx, permits]

/-- A member takes one of the free permits. -/
theorem permits_acquire (v : ℕ) (h0 : ¬ h (f i)) (hx : h x) :
    permits v h (Function.update f i x) = permits (v + 1) h f := by
  rw [permits, census_enter h0 hx, permits, Nat.cast_add, Nat.cast_one, add_assoc, add_comm 1]

/-- A member gives its permit back. -/
theorem permits_release (v : ℕ) (h0 : h (f i)) (hx : ¬ h x) :
    permits (v + 1) h (Function.update f i x) = permits v h f := by
  rw [permits, permits, ← census_leave h0 hx, Nat.cast_add, Nat.cast_one, add_assoc, add_comm 1]

/-- A member that ends without giving its permit back. -/
theorem permits_drop (v : ℕ) (hx : ¬ h x) :
    permits v h (Function.update f i x) ≤ permits v h f := by
  by_cases h0 : h (f i)
  · rw [permits, permits, ← census_leave h0 hx, ← add_assoc]
    exact le_self_add
  · exact (permits_keep v (iff_of_false hx h0)).le

end Update

/-! ## What the total says -/

/-- If nobody holds a permit, all are free. -/
theorem permits_eq_of_forall_not {v : ℕ} {h : X → Prop} {f : ι → X} (hf : ∀ i, ¬ h (f i)) :
    permits v h f = v := by
  rw [permits, census_eq_zero hf, add_zero]

theorem le_of_permits_le {v n : ℕ} {h : X → Prop} {f : ι → X} (hn : permits v h f ≤ n) : v ≤ n :=
  Nat.cast_le.mp (le_self_add.trans hn)

/-- At most one permit in all: two members that hold one are the same. -/
theorem eq_of_permits_le_one {v : ℕ} {h : X → Prop} {f : ι → X} (hn : permits v h f ≤ 1) {i j : ι}
    (hi : h (f i)) (hj : h (f j)) : i = j :=
  eq_of_census_le_one (le_add_self.trans hn) hi hj

/-- A permit that some member holds is not free. -/
theorem free_lt_of_held {v n : ℕ} {h : X → Prop} {f : ι → X} (hn : permits v h f ≤ n) {i : ι}
    (hi : h (f i)) : v < n := by
  have hpos : 1 ≤ census h f := Set.one_le_encard_iff_nonempty.mpr ⟨i, hi⟩
  have hle : ((v + 1 : ℕ) : ℕ∞) ≤ n := by
    rw [Nat.cast_add, Nat.cast_one]
    exact (add_le_add_right hpos _).trans hn
  exact Nat.cast_le.mp hle

end Common
