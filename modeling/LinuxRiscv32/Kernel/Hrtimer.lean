import Mathlib.Algebra.Order.Ring.Nat
import Mathlib.Tactic.Common

/-!
# High-resolution timers

A timer that is queued expires at a time in nanoseconds. A callback that wants to be called again
forwards the expiry by whole intervals, so that it lies behind the present: however late the
callback is, the expiries stay on the grid of the first one.
-/

namespace LinuxRiscv32.Kernel

structure Hrtimer where
  expires : ℕ
  queued : Bool
deriving DecidableEq, Repr

/-- `hrtimer_resolution`, in high-resolution mode. -/
def hrtimerResolution : ℕ := 1

/-- `hrtimer_start(timer, tim, HRTIMER_MODE_REL)` -/
def hrtimerStart (now tim : ℕ) : Hrtimer := { expires := now + tim, queued := true }

/-- `hrtimer_cancel(timer)` of a timer whose callback is not running: whether it was queued, and the
timer. -/
def hrtimerCancel (t : Hrtimer) : Bool × Hrtimer := (t.queued, { t with queued := false })

/-- `hrtimer_forward(timer, now, interval)`: the number of overruns, and the expiry. -/
def hrtimerForward (expires now interval : ℕ) : ℕ × ℕ :=
  if now < expires then (0, expires)
  else
    let interval := max interval hrtimerResolution
    let delta := now - expires
    if interval ≤ delta then
      let orun := delta / interval
      let expires := expires + interval * orun
      if now < expires then (orun, expires) else (orun + 1, expires + interval)
    else (1, expires + interval)

/-- A timer that has expired is forwarded to the first time behind the present that is a number of
intervals away, and this number is what is returned. -/
theorem hrtimerForward_spec {expires now interval : ℕ} (hinterval : 0 < interval)
    (hexpired : expires ≤ now) :
    let r := hrtimerForward expires now interval
    0 < r.1 ∧ r.2 = expires + r.1 * interval ∧ now < r.2 ∧ r.2 ≤ now + interval := by
  have hmax : max interval hrtimerResolution = interval := max_eq_left hinterval
  have hdiv := Nat.div_add_mod (now - expires) interval
  have hmod := Nat.mod_lt (now - expires) hinterval
  simp only [hrtimerForward, if_neg (not_lt.mpr hexpired), hmax]
  split
  next hle =>
    have hpos : 0 < (now - expires) / interval := Nat.div_pos hle hinterval
    rw [if_neg (by omega), Nat.add_one_mul, Nat.mul_comm interval]
    rw [Nat.mul_comm] at hdiv
    exact ⟨Nat.succ_pos _, by omega, by omega, by omega⟩
  next hlt => exact ⟨Nat.one_pos, by omega, by omega, by omega⟩

end LinuxRiscv32.Kernel
