import LinuxRiscv32.Common.Machine
import Mathlib.Data.Int.Notation
import Mathlib.Data.Nat.Notation

/-!
# Platform drivers and managed descriptors

The driver core binds a device if the probe returns 0, and calls the remove for a bound device only.
The descriptors that a probe gets from `devm` belong to the binding: they are released after a probe
that fails and when the device is unbound. The variables of the module are not touched by that, so
they may still point to descriptors of an earlier binding.
-/

namespace LinuxRiscv32.Kernel

open Common

/-- What a probe returns, the variables it leaves, and the descriptors it has got from `devm`. -/
structure Probed (σ : Type*) where
  ret : ℤ
  driver : σ
  acquired : List ℕ

/-- The entry points of a module with the variables `σ`. `π` are the parameters of the module and
what its init function meets, `ι` and `δ` what the calls in the probe and the remove return. -/
structure PlatformDriver (σ π ι δ : Type*) where
  init : π → ℤ
  fresh : σ → π → σ
  probe : σ → ι → Probed σ
  remove : σ → δ → σ

namespace PlatformDriver

/-- Whether the module is loaded and the device is bound, and what the binding holds. -/
inductive Status where
  | unloaded
  | unbound
  | bound (held : List ℕ)
deriving DecidableEq, Repr

structure State (σ : Type*) where
  driver : σ
  status : Status

inductive Event (π ι δ : Type*) where
  | load (p : π)
  | probe (c : ι)
  | remove (c : δ)
  | unload (c : δ)

variable {σ π ι δ : Type*} (M : PlatformDriver σ π ι δ)

def step (s : State σ) : Event π ι δ → Option (State σ)
  | .load p =>
    match s.status with
    | .unloaded =>
      if M.init p = 0 then some { driver := M.fresh s.driver p, status := .unbound } else some s
    | .unbound | .bound _ => none
  | .probe c =>
    match s.status with
    | .unbound =>
      let r := M.probe s.driver c
      some { driver := r.driver, status := if r.ret = 0 then .bound r.acquired else .unbound }
    | .unloaded | .bound _ => none
  | .remove c =>
    match s.status with
    | .bound _ => some { driver := M.remove s.driver c, status := .unbound }
    | .unloaded | .unbound => none
  | .unload c =>
    match s.status with
    | .unloaded => none
    | .unbound => some { s with status := .unloaded }
    -- `platform_driver_unregister` unbinds the device first
    | .bound _ => some { driver := M.remove s.driver c, status := .unloaded }

/-- The module and the driver core. -/
def machine : Machine (State σ) (Event π ι δ) := ⟨M.step⟩

/-- Before the module is loaded. -/
def State.start (driver : σ) : State σ := { driver := driver, status := .unloaded }

/-- While the device is bound, the variables and the descriptors of the binding satisfy `P`. -/
def WhileBound (P : σ → List ℕ → Prop) (s : State σ) : Prop :=
  ∀ held, s.status = .bound held → P s.driver held

/-- A probe that succeeds makes `P` true. -/
def Establishes (P : σ → List ℕ → Prop) (s : State σ) : Event π ι δ → Prop
  | .probe c =>
    let r := M.probe s.driver c
    r.ret = 0 → P r.driver r.acquired
  | .load _ | .remove _ | .unload _ => True

section Run

variable {M} {P : σ → List ℕ → Prop} {s t : State σ} {e : Event π ι δ}

theorem whileBound_of_ne (h : ∀ held, s.status ≠ .bound held) : WhileBound P s :=
  fun held hheld => absurd hheld (h held)

/-- Only a probe binds the device. -/
theorem whileBound_step (h : M.step s e = some t) : WhileBound P t ↔ M.Establishes P s e := by
  obtain ⟨driver, status⟩ := s
  cases e with
  | load p =>
    refine iff_of_true (whileBound_of_ne fun held => ?_) trivial
    cases status with
    | unloaded =>
      rw [step] at h
      dsimp only at h
      split at h
      · obtain rfl := Option.some.inj h
        exact Status.noConfusion
      · obtain rfl := Option.some.inj h
        exact Status.noConfusion
    | unbound | bound => cases h
  | probe c =>
    cases status with
    | unbound =>
      obtain rfl := Option.some.inj h
      by_cases hret : (M.probe driver c).ret = 0
      · simp [WhileBound, Establishes, hret]
      · simp [WhileBound, Establishes, hret]
    | unloaded | bound => cases h
  | remove c =>
    refine iff_of_true (whileBound_of_ne fun held => ?_) trivial
    cases status with
    | bound held =>
      obtain rfl := Option.some.inj h
      exact Status.noConfusion
    | unloaded | unbound => cases h
  | unload c =>
    refine iff_of_true (whileBound_of_ne fun held => ?_) trivial
    cases status with
    | unloaded => cases h
    | unbound | bound =>
      obtain rfl := Option.some.inj h
      exact Status.noConfusion

/-- A property of the bound driver holds throughout a run exactly if every probe that succeeds
establishes it. -/
theorem whileBound_run_iff {es : List (Event π ι δ)} (hs : ∀ held, s.status ≠ .bound held)
    (hrun : M.machine.run s es = some t) :
    (WhileBound P t ∧ ∀ x ∈ M.machine.trace s es, WhileBound P x.1) ↔
      M.machine.Along (M.Establishes P) s es := by
  have hstep : ∀ s e t, M.machine.step s e = some t → (WhileBound P t ↔ M.Establishes P s e) :=
    fun _ _ _ h => whileBound_step h
  exact Machine.forall_state_iff hstep (whileBound_of_ne hs) hrun

/-- If it depends on the calls in the probe alone whether it establishes the property, these calls
decide, and no history does. -/
theorem whileBound_run_iff_calls {Q : ι → Prop} {es : List (Event π ι δ)}
    (hprobe : ∀ d c, ((M.probe d c).ret = 0 → P (M.probe d c).driver (M.probe d c).acquired) ↔ Q c)
    (hs : ∀ held, s.status ≠ .bound held) (hrun : M.machine.run s es = some t) :
    (WhileBound P t ∧ ∀ x ∈ M.machine.trace s es, WhileBound P x.1) ↔
      ∀ c, .probe c ∈ es → Q c := by
  have hcalls (s : State σ) (e : Event π ι δ) : M.Establishes P s e ↔ ∀ c, e = .probe c → Q c := by
    cases e with
    | probe c =>
      refine (hprobe s.driver c).trans ⟨?_, fun h => h c rfl⟩
      rintro h _ ⟨⟩
      exact h
    | load | remove | unload => exact iff_of_true trivial fun _ h => nomatch h
  have halong : M.machine.Along (M.Establishes P) s es ↔
      M.machine.Along (fun _ e => ∀ c, e = .probe c → Q c) s es :=
    forall₂_congr fun x _ => hcalls x.1 x.2
  rw [whileBound_run_iff hs hrun, halong, Machine.along_iff_forall_mem hrun]
  exact ⟨fun h c hc => h _ hc c rfl, fun h e he c hec => h c (hec ▸ he)⟩

end Run

end PlatformDriver

end LinuxRiscv32.Kernel
