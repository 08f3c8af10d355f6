import LinuxRiscv32.Common.Machine
import Mathlib.Data.Finset.Lattice.Fold
import Mathlib.Data.Fintype.Basic
import Mathlib.Order.Lattice.Nat

/-!
# One processor, fixed priorities and a lock

Several processes share one processor. A process takes a step only if it is dispatched: it can run,
and no process that can run has a higher priority. Under priority inheritance the process that holds
the lock counts with the highest priority of those that wait for it. What comes from outside the
processes, an interrupt or a message, is not dispatched.

* `Cpu.holds_of_waits`: under inheritance, while a process waits, the ones below it take no step
  but for the holder.
* `Cpu.steps_le`: so a wait of the highest process is as long as the section of the holder.
* `Cpu.le_steps`: without inheritance, the holder does not move before a process above it has done
  all its work.
-/

namespace Common

/-- What the scheduler sees of a state: who can run, who waits for the lock, and who holds it. -/
structure Demand (ι : Type*) where
  ready : ι → Bool
  waits : ι → Bool
  holds : ι → Bool

namespace Demand

variable {ι : Type*} [Fintype ι] (d : Demand ι) (inherit : Bool) (prio : ι → ℕ)

/-- The highest priority of the processes that wait. -/
def boost : ℕ := Finset.univ.sup fun q => if d.waits q then prio q else 0

/-- The priority with which a process counts. -/
def eff (p : ι) : ℕ := if inherit ∧ d.holds p then max (prio p) (d.boost prio) else prio p

/-- The process can run, and no other one goes before it. -/
def Dispatched (p : ι) : Prop :=
  d.ready p = true ∧ ∀ q, d.ready q = true → d.eff inherit prio q ≤ d.eff inherit prio p

instance (p : ι) : Decidable (d.Dispatched inherit prio p) := inferInstanceAs (Decidable (_ ∧ _))

variable {d inherit prio} {p q w : ι}

/-- Inheritance lowers no priority. -/
theorem prio_le_eff : prio p ≤ d.eff inherit prio p := by
  rw [eff]
  split
  · exact le_max_left _ _
  · exact le_rfl

/-- Only the holder inherits. -/
theorem eff_of_not_holds (hp : d.holds p = false) : d.eff inherit prio p = prio p :=
  if_neg fun h => Bool.false_ne_true (hp.symm.trans h.2)

@[simp] theorem eff_false : d.eff false prio p = prio p := if_neg fun h => Bool.false_ne_true h.1

/-- The holder counts with the priority of every process that waits. -/
theorem prio_le_eff_of_waits (hp : d.holds p = true) (hw : d.waits w = true) :
    prio w ≤ d.eff true prio p := by
  have hboost : prio w ≤ d.boost prio := by
    have hle := Finset.le_sup (f := fun q => if d.waits q then prio q else 0) (Finset.mem_univ w)
    rwa [if_pos hw] at hle
  rw [eff, if_pos ⟨rfl, hp⟩]
  exact hboost.trans (le_max_right _ _)

/-- A process that can run keeps those below it from running, if they do not hold the lock. -/
theorem not_dispatched_of_ready (hq : d.ready q = true) (hp : d.holds p = false)
    (hlt : prio p < prio q) : ¬ d.Dispatched inherit prio p := fun h => by
  have hle := (prio_le_eff.trans (h.2 q hq))
  rw [eff_of_not_holds hp] at hle
  exact absurd hlt (not_lt.mpr hle)

/-- **No inversion.** Under inheritance, a process that waits keeps those below it from running
while the holder can run. -/
theorem not_dispatched_of_waits (hw : d.waits w = true) (hq : d.holds q = true)
    (hready : d.ready q = true) (hp : d.holds p = false) (hlt : prio p < prio w) :
    ¬ d.Dispatched true prio p := fun h => by
  have hle := (prio_le_eff_of_waits hq hw).trans (h.2 q hready)
  rw [eff_of_not_holds hp] at hle
  exact absurd hlt (not_lt.mpr hle)

/-- **Inversion.** Without inheritance, a process that can run keeps even the holder from running,
whoever waits for it. -/
theorem not_dispatched_of_lt (hq : d.ready q = true) (hlt : prio p < prio q) :
    ¬ d.Dispatched false prio p := fun h => by
  have hle := h.2 q hq
  rw [eff_false, eff_false] at hle
  exact absurd hlt (not_lt.mpr hle)

end Demand

/-- A machine whose steps are those of processes, or come from outside. -/
structure Cpu (σ α ι : Type*) where
  machine : Machine σ α
  proc : α → Option ι
  demand : σ → Demand ι
  prio : ι → ℕ
  inherit : Bool

namespace Cpu

variable {σ α ι : Type*} [Fintype ι] (C : Cpu σ α ι)

def Dispatched (s : σ) (p : ι) : Prop := (C.demand s).Dispatched C.inherit C.prio p

instance (s : σ) (p : ι) : Decidable (C.Dispatched s p) :=
  inferInstanceAs (Decidable (Demand.Dispatched _ _ _ _))

/-- A step, if it comes from outside or its process is dispatched. -/
def step (s : σ) (a : α) : Option σ :=
  if ∀ p ∈ C.proc a, C.Dispatched s p then C.machine.step s a else none

/-- The machine on one processor. -/
def scheduled : Machine σ α := ⟨C.step⟩

/-- How many of the steps are those of processes. -/
def steps (as : List α) : ℕ := as.countP fun a => (C.proc a).isSome

/-- How many of the steps are those of one process. -/
def stepsOf [DecidableEq ι] (p : ι) (as : List α) : ℕ := as.countP fun a => C.proc a = some p

variable {C} {s t : σ} {a : α} {as : List α} {p : ι}

/-- A step of the processor is one of the machine by a process that is dispatched. -/
theorem step_eq_some :
    C.step s a = some t ↔ (∀ p ∈ C.proc a, C.Dispatched s p) ∧ C.machine.step s a = some t :=
  Option.ite_none_right_eq_some

theorem dispatched_of_step (h : C.step s a = some t) (hp : C.proc a = some p) :
    C.Dispatched s p := (step_eq_some.mp h).1 p hp

theorem machine_step (h : C.step s a = some t) : C.machine.step s a = some t :=
  (step_eq_some.mp h).2

/-- A scheduled run is a run of the machine. -/
theorem machine_run (h : C.scheduled.run s as = some t) : C.machine.run s as = some t := by
  induction as generalizing s with
  | nil => exact h
  | cons a as ih =>
    obtain ⟨u, hu, hrun⟩ := C.scheduled.run_cons_eq_some.mp h
    exact C.machine.run_cons_eq_some.mpr ⟨u, machine_step hu, ih hrun⟩

/-! ## With inheritance -/

/-- While `w` waits, somebody who can run holds the lock. -/
def Held (C : Cpu σ α ι) (w : ι) (s : σ) : Prop :=
  (C.demand s).waits w = true → ∃ q, (C.demand s).holds q = true ∧ (C.demand s).ready q = true

/-- While `w` waits, a process below it takes a step only if it holds the lock. -/
theorem holds_of_waits {w : ι} (hinherit : C.inherit = true) (hs : C.Held w s)
    (hw : (C.demand s).waits w = true) (h : C.step s a = some t) (hp : C.proc a = some p)
    (hlt : C.prio p < C.prio w) : (C.demand s).holds p = true := by
  obtain ⟨q, hq, hready⟩ := hs hw
  have hdispatched := dispatched_of_step h hp
  rw [Dispatched, hinherit] at hdispatched
  by_contra hne
  exact Demand.not_dispatched_of_waits hw hq hready (Bool.eq_false_of_not_eq_true hne) hlt
    hdispatched

/-- While the highest process waits, the processor takes no more steps than the holder needs to
leave its section: `μ` bounds what is left of the section. -/
theorem steps_le {w : ι} {I : σ → Prop} {μ : σ → ℕ} (hinherit : C.inherit = true)
    (hI : ∀ s a t, I s → C.step s a = some t → I t) (hheld : ∀ s, I s → C.Held w s)
    (hself : ∀ s, (C.demand s).waits w = true → (C.demand s).ready w = false)
    (hprio : ∀ p, p ≠ w → C.prio p < C.prio w)
    (hinside : ∀ s a t p, (C.demand s).waits w = true → C.step s a = some t →
      C.proc a = some p → (C.demand s).holds p = true → μ t < μ s)
    (hout : ∀ s a t, C.step s a = some t → C.proc a = none → μ t ≤ μ s)
    (hs : I s) (hrun : C.scheduled.run s as = some t)
    (hwaits : C.scheduled.Along (fun s _ => (C.demand s).waits w = true) s as) :
    C.steps as + μ t ≤ μ s := by
  induction as generalizing s with
  | nil =>
    obtain rfl := Option.some.inj hrun
    exact (Nat.zero_add _).le
  | cons a as ih =>
    obtain ⟨u, hu, hrest⟩ := C.scheduled.run_cons_eq_some.mp hrun
    obtain ⟨hw, halong⟩ := (Machine.along_cons hu).mp hwaits
    have hle := ih (hI s a u hs hu) hrest halong
    rw [steps, List.countP_cons]
    change C.steps as + _ + _ ≤ _
    cases hproc : C.proc a with
    | none =>
      have hmu := hout s a u hu hproc
      rw [Option.isSome_none, if_neg Bool.false_ne_true]
      omega
    | some p =>
      have hne : p ≠ w := by
        rintro rfl
        have hready := (dispatched_of_step hu hproc).1
        rw [hself s hw] at hready
        cases hready
      -- the process that runs is not the one that waits, so it holds the lock and gets on
      have hmu := hinside s a u p hw hu hproc
        (holds_of_waits hinherit (hheld s hs) hw hu hproc (hprio p hne))
      rw [Option.isSome_some, if_pos rfl]
      omega

/-! ## Without inheritance -/

/-- As long as `m` has work, and all others that can run are below it, none of them moves: before
one of them does, `m` has taken all the `ν` steps that its work needs at least. -/
theorem le_steps [DecidableEq ι] {m : ι} {K : σ → Prop} {ν : σ → ℕ} (hinherit : C.inherit = false)
    (hK : ∀ s a t, K s → C.step s a = some t → (∀ p, C.proc a = some p → p = m) → K t)
    (hready : ∀ s, K s → 0 < ν s → (C.demand s).ready m = true)
    (hbelow : ∀ s p, K s → p ≠ m → (C.demand s).ready p = true → C.prio p < C.prio m)
    (hwork : ∀ s a t, C.step s a = some t → C.proc a = some m → ν s ≤ ν t + 1)
    (hout : ∀ s a t, C.step s a = some t → C.proc a = none → ν s ≤ ν t)
    (hs : K s) (hrun : C.scheduled.run s as = some t)
    (hmoved : ∃ a ∈ as, ∃ p, C.proc a = some p ∧ p ≠ m) : ν s ≤ C.stepsOf m as := by
  induction as generalizing s with
  | nil =>
    obtain ⟨a, ha, -⟩ := hmoved
    exact absurd ha List.not_mem_nil
  | cons a as ih =>
    obtain ⟨u, hu, hrest⟩ := C.scheduled.run_cons_eq_some.mp hrun
    rw [stepsOf, List.countP_cons]
    change _ ≤ C.stepsOf m as + _
    by_cases hother : ∃ p, C.proc a = some p ∧ p ≠ m
    · -- a process below `m` moves, so `m` has nothing left to do
      obtain ⟨p, hproc, hne⟩ := hother
      have hdispatched := dispatched_of_step hu hproc
      have hzero : ν s = 0 := by
        by_contra hpos
        have hm := hready s hs (Nat.pos_of_ne_zero hpos)
        have hlt := hbelow s p hs hne hdispatched.1
        rw [Dispatched, hinherit] at hdispatched
        exact Demand.not_dispatched_of_lt hm hlt hdispatched
      omega
    · -- the step is one of `m`, or comes from outside
      have honly : ∀ p, C.proc a = some p → p = m := fun p hp => by
        by_contra hne
        exact hother ⟨p, hp, hne⟩
      have hrestMoved : ∃ a ∈ as, ∃ p, C.proc a = some p ∧ p ≠ m := by
        obtain ⟨b, hb, hbp⟩ := hmoved
        rcases List.mem_cons.mp hb with rfl | hb
        · exact absurd hbp hother
        · exact ⟨b, hb, hbp⟩
      have hle := ih (hK s a u hs hu honly) hrest hrestMoved
      cases hproc : C.proc a with
      | none =>
        have hnu := hout s a u hu hproc
        simp only [reduceCtorEq, decide_false]
        omega
      | some p =>
        obtain rfl := honly p hproc
        have hnu := hwork s a u hu hproc
        simp only [decide_true, if_true]
        omega

end Cpu

end Common
